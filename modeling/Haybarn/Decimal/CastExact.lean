/-
The casts from and to DECIMAL are exact: a cast gives the number of the other type that the value rounds to, ties away
from zero, and fails exactly when that number is not one of the type, with no operation on the way out of range.
-/
import Haybarn.Decimal.Cast
import Haybarn.Lib.Rounding

namespace Haybarn.Decimal

open Lib Common Outcome

variable {source result : DecimalType} {s t : Storage} {target : IntegerType} {n v x : Int} {i d : Nat}

/-! ## Numbers of a width -/

theorem holds_of_width (type : DecimalType) (h : 2 * n.natAbs ≤ 3 * 10 ^ type.width) : type.internalType.Holds n := by
  have hmono : ∀ {w : Nat}, type.width ≤ w → 10 ^ type.width ≤ 10 ^ w := fun hle => Nat.pow_le_pow_right (by decide) hle
  unfold DecimalType.internalType
  by_cases h4 : type.width ≤ 4
  · rw [if_pos h4]
    have := hmono h4
    show -2 ^ 15 ≤ n ∧ n ≤ 2 ^ 15 - 1
    omega
  · rw [if_neg h4]
    by_cases h9 : type.width ≤ 9
    · rw [if_pos h9]
      have := hmono h9
      show -2 ^ 31 ≤ n ∧ n ≤ 2 ^ 31 - 1
      omega
    · rw [if_neg h9]
      by_cases h18 : type.width ≤ 18
      · rw [if_pos h18]
        have := hmono h18
        show -2 ^ 63 ≤ n ∧ n ≤ 2 ^ 63 - 1
        omega
      · rw [if_neg h18]
        have := hmono type.width_le
        show -2 ^ 127 ≤ n ∧ n ≤ 2 ^ 127 - 1
        omega

theorem holds_of_lt (type : DecimalType) (h : n.natAbs < 10 ^ type.width) : type.internalType.Holds n :=
  holds_of_width type (by omega)

theorem ne_int128_iff (type : DecimalType) : type.internalType ≠ .int128 ↔ type.width ≤ 18 := by
  unfold DecimalType.internalType
  split_ifs <;> simp <;> omega

theorem powerOfTen_done (type : DecimalType) (h : i ≤ type.width) :
    type.internalType.powerOfTen i = .done (10 ^ i) := by
  unfold Storage.powerOfTen
  have := type.width_le
  have := ne_int128_iff type
  by_cases h128 : type.internalType = .int128
  · rw [if_pos h128, if_pos (by omega)]
  · rw [if_neg h128, if_pos (by have := this.1 h128; omega)]

theorem power64_done (h : i ≤ 18) : Storage.int64.powerOfTen i = .done (10 ^ i) := if_pos h

theorem power128_done (h : i ≤ 38) : Storage.int128.powerOfTen i = .done (10 ^ i) := if_pos h

theorem natAbs_pow (i : Nat) : ((10 : Int) ^ i).natAbs = 10 ^ i := by
  rw [Int.natAbs_pow]
  rfl

theorem pow_le_pow (h : i ≤ d) : 10 ^ i ≤ 10 ^ d := Nat.pow_le_pow_right (by decide) h

theorem holds_pow (type : DecimalType) (h : i ≤ type.width) : type.internalType.Holds (10 ^ i) := by
  refine holds_of_width type ?_
  rw [natAbs_pow]
  have := pow_le_pow h
  omega

/-! ## Casts of numbers -/

theorem staticCast_done (h : target.Holds n) : staticCast target n = .done n := if_pos h

theorem maximum_le_of_digits (hs : s ≠ .int128) (h : digits s.integerType ≤ digits target) :
    s.integerType.maximum ≤ target.maximum ∧ (isSigned target = true → target.minimum ≤ s.integerType.minimum) := by
  revert hs h
  cases s <;> cases target <;> decide

theorem holds_of_digits (h : digits target < digits s.integerType) :
    s.Holds target.maximum ∧ s.Holds target.minimum := by
  revert h
  cases s <;> cases target <;> decide

theorem minimum_unsigned (h : isSigned target = false) : target.minimum = 0 := by
  revert h
  cases target <;> decide

theorem tryCastWithOverflowCheck_done (hs : s ≠ .int128) (h : s.Holds n) :
    tryCastWithOverflowCheck s.integerType target n = .done (if target.Holds n then some n else none) := by
  have hsigned : isSigned s.integerType = true := by cases s <;> rfl
  have hle : digits s.integerType ≤ digits target → n ≤ target.maximum := fun hd =>
    h.2.trans (maximum_le_of_digits hs hd).1
  have hmap : target.Holds n → (some <$> staticCast target n : Outcome (Option Int)) = .done (some n) := fun ht => by
    rw [staticCast_done ht]
    rfl
  unfold tryCastWithOverflowCheck
  rw [hsigned]
  by_cases htarget : isSigned target = true
  · rw [htarget, if_neg (by simp)]
    by_cases hd : digits target ≥ digits s.integerType
    · have hfit : target.Holds n := ⟨((maximum_le_of_digits hs hd).2 htarget).trans h.1, hle hd⟩
      rw [if_pos hd, hmap hfit, if_pos hfit]
    · obtain ⟨hmax, hmin⟩ := holds_of_digits (show digits target < digits s.integerType by omega)
      rw [if_neg hd, staticCast_done hmin, staticCast_done hmax]
      dsimp only [done_bind]
      by_cases hfit : target.Holds n
      · rw [if_neg (by rintro (h' | h') <;> have := hfit.1 <;> have := hfit.2 <;> omega), hmap hfit, if_pos hfit]
      · rw [if_pos (by by_contra h'; exact hfit ⟨by omega, by omega⟩), if_neg hfit]
  · have hfalse : isSigned target = false := by simpa using htarget
    have hzero := minimum_unsigned hfalse
    rw [hfalse, if_pos (by decide), if_pos rfl]
    by_cases hd : digits s.integerType > digits target
    · rw [if_pos hd, staticCast_done (holds_of_digits hd).1]
      dsimp only [done_bind]
      by_cases hfit : target.Holds n
      · rw [if_neg (by rintro (h' | h') <;> have := hfit.1 <;> have := hfit.2 <;> omega), hmap hfit, if_pos hfit]
      · rw [if_pos (by by_contra h'; exact hfit ⟨by omega, by omega⟩), if_neg hfit]
    · rw [if_neg hd]
      by_cases hneg : n < 0
      · rw [if_pos hneg, if_neg fun hfit => by have := hfit.1; omega]
      · have hfit : target.Holds n := ⟨by omega, hle (by omega)⟩
        rw [if_neg hneg, hmap hfit, if_pos hfit]

theorem tryCast_done (target : IntegerType) (h : s.Holds n) :
    tryCast s target n = .done (if target.Holds n then some n else none) := by
  unfold tryCast
  by_cases hs : s = .int128
  · subst hs
    rw [if_pos rfl]
    obtain ⟨hin, hout⟩ := Hugeint.casts_tryCast target (Storage.limbs n)
    rw [Storage.toInt_limbs h] at hin hout
    by_cases hfit : target.Holds n
    · obtain ⟨value, hvalue, hn⟩ := hin hfit
      rw [hvalue, if_pos hfit, Option.map_some, hn]
    · rw [hout hfit, if_neg hfit, Option.map_none]
  · have h64 : -2 ^ 63 ≤ n ∧ n < 2 ^ 63 := by
      obtain ⟨hlo, hhi⟩ := h
      cases s with
      | int16 => exact ⟨le_trans (by decide) hlo, lt_of_le_of_lt hhi (by decide)⟩
      | int32 => exact ⟨le_trans (by decide) hlo, lt_of_le_of_lt hhi (by decide)⟩
      | int64 => exact ⟨le_trans (by decide) hlo, lt_of_le_of_lt hhi (by decide)⟩
      | int128 => exact absurd rfl hs
    rw [if_neg hs]
    by_cases hhuge : target = .hugeint
    · have hfit : IntegerType.hugeint.Holds n := ⟨le_trans (by decide) h64.1, le_trans h64.2.le (by decide)⟩
      rw [if_pos hhuge, Hugeint.toInt_convertInteger ⟨h64.1, by omega⟩, hhuge, if_pos hfit]
    · rw [if_neg hhuge]
      by_cases huhuge : target = .uhugeint
      · rw [if_pos huhuge, huhuge]
        by_cases hneg : n < 0
        · rw [if_pos hneg, if_neg fun hfit => absurd hfit.1 (by show ¬ (0 : Int) ≤ n; omega)]
        · have hfit : IntegerType.uhugeint.Holds n := ⟨by show (0 : Int) ≤ n; omega, le_trans h64.2.le (by decide)⟩
          rw [if_neg hneg, if_pos hfit]
      · rw [if_neg huhuge, tryCastWithOverflowCheck_done hs h]

theorem cast_done (h : s.Holds n) (h' : t.Holds n) : cast s t n = .done n := by
  unfold cast
  rw [tryCast_done _ h, if_pos (show t.integerType.Holds n from h')]
  rfl

theorem hugeintCast_done (h : Storage.int128.Holds n) (h' : t.Holds n) : hugeintCast t n = .done n := by
  unfold hugeintCast
  rw [tryCast_done _ h, if_pos (show t.integerType.Holds n from h')]
  rfl

/-! ## DECIMAL to DECIMAL -/

theorem pow_width_lt (type : DecimalType) : 10 ^ type.width < 2 ^ 127 :=
  lt_of_le_of_lt (pow_le_pow type.width_le) (by decide)

theorem mul_done (type : DecimalType) {a b : Int} (ha : a.natAbs ≤ 10 ^ type.width) (hb : b.natAbs ≤ 10 ^ type.width)
    (hab : (a * b).natAbs ≤ 10 ^ type.width) : type.internalType.mul a b = .done (a * b) := by
  have hlt := pow_width_lt type
  refine Storage.mul_done (holds_of_width type (by omega)) (holds_of_width type (by omega))
    (Storage.holds_promoted (holds_of_width type (by omega))) fun _ => ?_
  omega

theorem convert_done (type : DecimalType) (h : 2 * n.natAbs ≤ 3 * 10 ^ type.width) : type.internalType.convert n = .done n :=
  Storage.convert_done (holds_of_width type h)

theorem limit_done (type : DecimalType) (h : i ≤ type.width) :
    type.internalType.convert (10 ^ i) = .done (10 ^ i) ∧ type.internalType.neg (10 ^ i) = .done (-10 ^ i) := by
  have hpow := holds_pow type h
  have hle := pow_le_pow h
  refine ⟨Storage.convert_done hpow, Storage.neg_done hpow (Storage.holds_promoted (holds_of_width type ?_))⟩
  rw [Int.natAbs_neg, natAbs_pow]
  omega

theorem natAbs_lt_iff : n.natAbs < 10 ^ i ↔ ¬ (n ≥ 10 ^ i ∨ n ≤ -10 ^ i) := by
  have : ((10 ^ i : Nat) : Int) = 10 ^ i := by push_cast; rfl
  omega

theorem scaleUpOperator_done (hd : d ≤ result.width) (hs : s.Holds v) (hv : v.natAbs < 10 ^ (result.width - d)) :
    decimalScaleUpOperator s result.internalType (10 ^ d) v = .done (v * 10 ^ d) := by
  have hv' : v.natAbs < 10 ^ result.width := lt_of_lt_of_le hv (pow_le_pow (Nat.sub_le _ _))
  have hprod : (v * 10 ^ d).natAbs ≤ 10 ^ result.width := by
    rw [Int.natAbs_mul, natAbs_pow, ← Nat.sub_add_cancel hd, Nat.pow_add]
    exact Nat.mul_le_mul_right _ hv.le
  unfold decimalScaleUpOperator
  rw [cast_done hs (holds_of_lt result hv'), done_bind,
    mul_done result hv'.le (by rw [natAbs_pow]; exact pow_le_pow hd) hprod, done_bind,
    convert_done result (by omega)]

theorem scaleUp_done (hv : v.natAbs < 10 ^ source.width) :
    templatedDecimalScaleUp source result v =
      .done (if (v * 10 ^ (result.scale - source.scale)).natAbs < 10 ^ result.width then
        some (v * 10 ^ (result.scale - source.scale)) else none) := by
  generalize hd : result.scale - source.scale = d
  have hle : d ≤ result.width := by
    have := result.scale_le
    omega
  have hfits : (v * 10 ^ d).natAbs < 10 ^ result.width ↔ v.natAbs < 10 ^ (result.width - d) := by
    rw [Int.natAbs_mul, natAbs_pow, ← Nat.sub_add_cancel hle, Nat.pow_add, Nat.add_sub_cancel]
    exact Nat.mul_lt_mul_right (Nat.pow_pos (by decide))
  have hoperator : v.natAbs < 10 ^ (result.width - d) →
      (some <$> decimalScaleUpOperator source.internalType result.internalType (10 ^ d) v : Outcome (Option Int)) =
        .done (some (v * 10 ^ d)) := fun h => by
    rw [scaleUpOperator_done hle (holds_of_lt source hv) h]
    rfl
  unfold templatedDecimalScaleUp
  rw [hd]
  dsimp only
  rw [powerOfTen_done result hle, done_bind, Storage.convert_done (holds_pow result hle), done_bind]
  by_cases hwidth : source.width < result.width - d
  · have hlt := lt_of_lt_of_le hv (pow_le_pow hwidth.le)
    rw [if_pos hwidth, hoperator hlt, if_pos (hfits.2 hlt)]
  · have hlimit := limit_done source (show result.width - d ≤ source.width by omega)
    rw [if_neg hwidth, powerOfTen_done source (by omega), done_bind, hlimit.1, done_bind, hlimit.2,
      done_bind]
    by_cases hlt : v.natAbs < 10 ^ (result.width - d)
    · rw [if_neg (natAbs_lt_iff.1 hlt), hoperator hlt, if_pos (hfits.2 hlt)]
    · rw [if_pos (by rw [natAbs_lt_iff, not_not] at hlt; exact hlt), if_neg (mt hfits.1 hlt)]

/-! ### Rounding -/

theorem tdiv_half (v : Int) {h : Nat} (hpos : 0 < h) :
    ((if v.tdiv h < 0 then v.tdiv h - 1 else v.tdiv h + 1) : Int).tdiv 2 = v.sign * halfUp v.natAbs (2 * h) := by
  have hhalf : ∀ a : Nat, halfUp a (2 * h) = (a / h + 1) / 2 := by
    intro a
    unfold halfUp
    rw [show 2 * a + 2 * h = 2 * (a + h) by ring, Nat.mul_div_mul_left _ _ (by decide), Nat.mul_comm 2 h,
      ← Nat.div_div_eq_div_mul, Nat.add_div_right _ hpos]
  rcases Int.natAbs_eq v with hv | hv
  · generalize v.natAbs = a at hv
    subst hv
    have hdiv : (a : Int).tdiv h = ((a / h : Nat) : Int) := by
      rw [Int.tdiv_eq_ediv_of_nonneg (Int.natCast_nonneg a)]
      norm_cast
    have hnonneg := Int.natCast_nonneg (a / h)
    rw [hdiv, if_neg (not_lt.2 hnonneg), hhalf, Int.tdiv_eq_ediv_of_nonneg (by omega)]
    rcases Nat.eq_zero_or_pos a with rfl | ha
    · simp
    · rw [Int.sign_eq_one_of_pos (by omega), one_mul]
      norm_cast
  · generalize v.natAbs = a at hv
    subst hv
    have hdiv : (-(a : Int)).tdiv h = -((a / h : Nat) : Int) := by
      rw [Int.neg_tdiv, Int.tdiv_eq_ediv_of_nonneg (Int.natCast_nonneg a)]
      norm_cast
    rw [hdiv, hhalf]
    rcases Nat.eq_zero_or_pos (a / h) with hzero | hq
    · rw [hzero]
      simp
    · have ha : 0 < a := Nat.pos_of_ne_zero (by rintro rfl; simp at hq)
      rw [if_pos (by omega), Int.sign_eq_neg_one_of_neg (by omega), show -((a / h : Nat) : Int) - 1 = -((a / h + 1 : Nat) : Int) by
        push_cast; ring, Int.neg_tdiv, Int.tdiv_eq_ediv_of_nonneg (by omega)]
      omega

theorem tdiv_add_half (v : Int) {p : Nat} (hpos : 0 < p) (heven : p = 1 ∨ p % 2 = 0) :
    (v + ((if v < 0 then -(p : Int) else p).tdiv 2)).tdiv p = v.sign * halfUp v.natAbs p := by
  have hhalf : ∀ a : Nat, halfUp a p = (a + p / 2) / p := by
    intro a
    unfold halfUp
    rcases heven with rfl | heven
    · omega
    · rw [show 2 * a + p = 2 * (a + p / 2) by omega, Nat.mul_div_mul_left _ _ (by decide)]
  by_cases hneg : v < 0
  · obtain ⟨a, rfl⟩ : ∃ a : Nat, v = -(a : Int) := ⟨v.natAbs, by omega⟩
    rw [if_pos hneg, Int.neg_tdiv, Int.tdiv_eq_ediv_of_nonneg (Int.natCast_nonneg p),
      show -(a : Int) + -((p : Int) / 2) = -((a + p / 2 : Nat) : Int) by push_cast; ring, Int.neg_tdiv,
      Int.tdiv_eq_ediv_of_nonneg (Int.natCast_nonneg _), Int.sign_eq_neg_one_of_neg hneg, Int.natAbs_neg,
      Int.natAbs_natCast, hhalf]
    push_cast
    ring
  · obtain ⟨a, rfl⟩ : ∃ a : Nat, v = (a : Int) := ⟨v.natAbs, by omega⟩
    rw [if_neg hneg, Int.tdiv_eq_ediv_of_nonneg (Int.natCast_nonneg p),
      show (a : Int) + (p : Int) / 2 = ((a + p / 2 : Nat) : Int) by push_cast; ring,
      Int.tdiv_eq_ediv_of_nonneg (Int.natCast_nonneg _), Int.natAbs_natCast, hhalf]
    rcases Nat.eq_zero_or_pos a with rfl | ha
    · have hzero : (0 + p / 2) / p = 0 := Nat.div_eq_of_lt (by omega)
      rw [← Int.natCast_ediv, hzero]
      simp
    · rw [Int.sign_eq_one_of_pos (by omega)]
      push_cast
      ring

theorem halfUp_le_iff {a p m : Nat} (hpos : 0 < p) (heven : p % 2 = 0) :
    halfUp a p < m ↔ (if p / 2 ≤ a % p then a + p else a) < m * p := by
  obtain ⟨k, rfl⟩ : ∃ k, p = 2 * k := ⟨p / 2, by omega⟩
  unfold halfUp
  rw [Nat.div_lt_iff_lt_mul (by omega)]
  have hdiv := Nat.div_add_mod a (2 * k)
  have hmod := Nat.mod_lt a hpos
  generalize a / (2 * k) = q at hdiv
  generalize a % (2 * k) = r at hdiv hmod
  have hmul : m * (2 * k) = 2 * (k * m) := by ring
  have hmul' : m * (2 * (2 * k)) = 4 * (k * m) := by ring
  have hq : 2 * k * q = 2 * (k * q) := by ring
  rw [hmul, hmul']
  rw [hq] at hdiv
  by_cases hlt : q < m
  · obtain ⟨e, rfl⟩ : ∃ e, m = q + 1 + e := ⟨m - q - 1, by omega⟩
    have hexp : k * (q + 1 + e) = k * q + k + k * e := by ring
    rw [hexp]
    split <;> rcases Nat.eq_zero_or_pos e with rfl | he
    · omega
    · have : k ≤ k * e := Nat.le_mul_of_pos_right k he
      omega
    · omega
    · have : k ≤ k * e := Nat.le_mul_of_pos_right k he
      omega
  · have : k * m ≤ k * q := Nat.mul_le_mul_left k (by omega)
    split <;> omega

theorem ten_le_pow_width (type : DecimalType) : 10 ≤ 10 ^ type.width := by
  simpa using pow_le_pow type.one_le

theorem holds_small (type : DecimalType) (h : n.natAbs ≤ 10) : type.internalType.Holds n := by
  have := ten_le_pow_width type
  exact holds_of_width type (by omega)

theorem pow_eq_double (hd : 1 ≤ d) : 10 ^ d = 2 * (5 * 10 ^ (d - 1)) := by
  obtain ⟨e, rfl⟩ : ∃ e, d = e + 1 := ⟨d - 1, by omega⟩
  rw [Nat.pow_succ, Nat.add_sub_cancel]
  omega

theorem scaleDownOperator_done (hd : 1 ≤ d) (hd' : d ≤ source.width) (hv : v.natAbs < 10 ^ source.width)
    (hfit : t.Holds (v.sign * halfUp v.natAbs (10 ^ d))) :
    decimalScaleDownOperator source.internalType t (10 ^ d) v = .done (v.sign * halfUp v.natAbs (10 ^ d)) := by
  have hdouble := pow_eq_double hd
  generalize 5 * 10 ^ (d - 1) = h at hdouble
  have hpos : 0 < h := by
    have := Nat.pow_pos (n := d) (show 0 < 10 by decide)
    omega
  have hten := ten_le_pow_width source
  have hscaling : ((10 : Int) ^ d).tdiv 2 = h := by
    have : (10 : Int) ^ d = ((2 * h : Nat) : Int) := by rw [← hdouble]; push_cast; rfl
    rw [this, Int.tdiv_eq_ediv_of_nonneg (Int.natCast_nonneg _)]
    omega
  have hh : source.internalType.Holds h := by
    refine holds_of_width source ?_
    have := pow_le_pow hd'
    rw [Int.natAbs_natCast]
    omega
  have hvs := holds_of_lt source hv
  have hquotient : (v.tdiv h).natAbs ≤ v.natAbs := by
    rw [Int.natAbs_tdiv]
    exact Nat.div_le_self _ _
  have hmoved := tdiv_half v hpos
  unfold decimalScaleDownOperator
  rw [Storage.div_done (holds_pow source hd') (holds_small source (by decide)) (by decide), hscaling, done_bind,
    Storage.div_done hvs hh (by omega), done_bind, convert_done source (by omega), done_bind]
  rw [← hdouble] at hmoved
  have hstep : (if v.tdiv h < 0 then source.internalType.sub (v.tdiv h) 1 else source.internalType.add (v.tdiv h) 1) =
      .done (if v.tdiv h < 0 then v.tdiv h - 1 else v.tdiv h + 1) := by
    have hq := holds_of_width source (n := v.tdiv h) (by omega)
    by_cases hneg : v.tdiv h < 0
    · rw [if_pos hneg, if_pos hneg, Storage.sub_done hq (holds_small source (by decide))
        (Storage.holds_promoted (holds_of_width source (by omega)))]
    · rw [if_neg hneg, if_neg hneg, Storage.add_done hq (holds_small source (by decide))
        (Storage.holds_promoted (holds_of_width source (by omega)))]
  have hrange : source.internalType.Holds (if v.tdiv h < 0 then v.tdiv h - 1 else v.tdiv h + 1) := by
    refine holds_of_width source ?_
    split <;> omega
  rw [hstep, done_bind, Storage.convert_done hrange, done_bind,
    Storage.div_done hrange (holds_small source (by decide)) (by decide), done_bind,
    Storage.convert_done (Storage.holds_tdiv hrange (by decide)), done_bind, hmoved]
  refine cast_done ?_ hfit
  rw [← hmoved]
  exact Storage.holds_tdiv hrange (by decide)

theorem holds_divisorType (h : s.Holds n) : (divisorType s).Holds n := by
  obtain ⟨hlo, hhi⟩ := h
  cases s with
  | int16 => exact ⟨le_trans (by decide) hlo, le_trans hhi (by decide)⟩
  | int32 => exact ⟨le_trans (by decide) hlo, le_trans hhi (by decide)⟩
  | int64 => exact ⟨hlo, hhi⟩
  | int128 => exact ⟨hlo, hhi⟩

theorem canScaleDown_done (hd : 1 ≤ d) (hwidth : result.width + d ≤ source.width) (hv : v.natAbs < 10 ^ source.width) :
    canScaleDownDecimal source.internalType (10 ^ d) (10 ^ (result.width + d)) v =
      .done (halfUp v.natAbs (10 ^ d) < 10 ^ result.width) := by
  have hone := result.one_le
  have hdouble := pow_eq_double hd
  generalize 5 * 10 ^ (d - 1) = h at hdouble
  have hpos : 0 < 10 ^ d := Nat.pow_pos (by decide)
  have hten : 10 * 10 ^ d ≤ 10 ^ source.width := by
    rw [Nat.mul_comm, ← Nat.pow_succ]
    exact pow_le_pow (by omega)
  have hlt := pow_width_lt source
  have hdivisor : (10 : Int) ^ d = ((10 ^ d : Nat) : Int) := by push_cast; rfl
  have hlimit := limit_done source hwidth
  have hlimit' : (10 : Int) ^ (result.width + d) = ((10 ^ result.width * 10 ^ d : Nat) : Int) := by
    rw [← Nat.pow_add]; push_cast; rfl
  have hdholds := holds_pow source (show d ≤ source.width by omega)
  have hvs := holds_of_lt source hv
  have hmod : (v.tmod (10 ^ d)).natAbs = v.natAbs % 10 ^ d := by rw [Int.natAbs_tmod, natAbs_pow]
  have hsign := Int.tmod_nonneg (a := v) (10 ^ d)
  unfold canScaleDownDecimal
  rw [Storage.convert_done (holds_divisorType hdholds), done_bind,
    Storage.mod_done (holds_divisorType hvs) (holds_divisorType hdholds) (by rw [hdivisor]; omega), done_bind]
  -- both the number and the remainder are made positive
  have hpositive : (if v < 0 then do
        let product ← source.internalType.mul v (-1)
        let roundedInput ← source.internalType.convert product
        let value ← (divisorType source.internalType).mul (v.tmod (10 ^ d)) (-1)
        .done (roundedInput, value)
      else .done (v, v.tmod (10 ^ d)) : Outcome (Int × Int)) =
      .done ((v.natAbs : Int), ((v.natAbs % 10 ^ d : Nat) : Int)) := by
    by_cases hneg : v < 0
    · have hnonpos : v.tmod (10 ^ d) ≤ 0 := by
        have := Int.tmod_nonneg (10 ^ d) (show 0 ≤ -v by omega)
        rw [Int.neg_tmod] at this
        omega
      have hvalue : (divisorType source.internalType).mul (v.tmod (10 ^ d)) (-1) = .done (v.tmod (10 ^ d) * -1) := by
        refine Storage.mul_done (holds_divisorType (holds_of_width source (by omega)))
          (holds_divisorType (holds_small source (by decide)))
          (Storage.holds_promoted (holds_divisorType (holds_of_width source (by omega)))) fun _ => ?_
        omega
      rw [if_pos hneg, mul_done source hv.le (by omega) (by omega), done_bind, convert_done source (by omega),
        done_bind, hvalue, done_bind]
      congr 2 <;> omega
    · rw [if_neg hneg]
      have := hsign (by omega)
      congr 2 <;> omega
  rw [hpositive, done_bind]
  dsimp only
  have hhalf : ((10 : Int) ^ d).tdiv 2 = h := by
    rw [hdivisor, hdouble, Int.tdiv_eq_ediv_of_nonneg (Int.natCast_nonneg _)]
    omega
  rw [Storage.div_done (holds_divisorType hdholds) (holds_divisorType (holds_small source (by decide))) (by decide), hhalf,
    done_bind]
  have hrounded : (if ((v.natAbs % 10 ^ d : Nat) : Int) ≥ h then do
        let sum ← (divisorType source.internalType).add v.natAbs (10 ^ d)
        source.internalType.convert sum
      else .done (v.natAbs : Int) : Outcome Int) =
      .done ((if 10 ^ d / 2 ≤ v.natAbs % 10 ^ d then v.natAbs + 10 ^ d else v.natAbs : Nat) : Int) := by
    have hiff : ((v.natAbs % 10 ^ d : Nat) : Int) ≥ h ↔ 10 ^ d / 2 ≤ v.natAbs % 10 ^ d := by omega
    by_cases hup : 10 ^ d / 2 ≤ v.natAbs % 10 ^ d
    · have hsum : source.internalType.Holds ((v.natAbs : Int) + 10 ^ d) := holds_of_width source (by omega)
      rw [if_pos (hiff.2 hup), if_pos hup, Storage.add_done (holds_divisorType (holds_of_width source (by omega)))
        (holds_divisorType hdholds) (Storage.holds_promoted (holds_divisorType hsum)), done_bind,
        Storage.convert_done hsum]
      push_cast
      rfl
    · rw [if_neg (mt hiff.1 hup), if_neg hup]
  rw [hrounded, done_bind, hlimit.2, done_bind, hlimit']
  congr 1
  rw [decide_eq_decide, halfUp_le_iff hpos (by omega)]
  generalize (if 10 ^ d / 2 ≤ v.natAbs % 10 ^ d then v.natAbs + 10 ^ d else v.natAbs) = m
  omega

theorem natAbs_sign_mul {a p : Nat} (h : halfUp n.natAbs p = a) : (n.sign * (a : Int)).natAbs = a := by
  rw [Int.natAbs_mul, Int.natAbs_natCast, Int.natAbs_sign]
  by_cases hn : n = 0
  · subst hn
    rw [if_pos rfl, ← h, Int.natAbs_zero, halfUp]
    rcases Nat.eq_zero_or_pos p with rfl | hp
    · rfl
    · rw [Nat.div_eq_of_lt (by omega)]
  · rw [if_neg hn, Nat.one_mul]

theorem scaleDown_done (hlt : result.scale < source.scale) (hv : v.natAbs < 10 ^ source.width) :
    templatedDecimalScaleDown source result v =
      .done (if (v.sign * halfUp v.natAbs (10 ^ (source.scale - result.scale)) : Int).natAbs < 10 ^ result.width then
        some (v.sign * halfUp v.natAbs (10 ^ (source.scale - result.scale))) else none) := by
  generalize hd : source.scale - result.scale = d
  have hone : 1 ≤ d := by omega
  have hle : d ≤ source.width := by
    have := source.scale_le
    omega
  rw [natAbs_sign_mul rfl]
  have hoperator : halfUp v.natAbs (10 ^ d) < 10 ^ result.width →
      (some <$> decimalScaleDownOperator source.internalType result.internalType (10 ^ d) v : Outcome (Option Int)) =
        .done (some (v.sign * halfUp v.natAbs (10 ^ d))) := fun h => by
    rw [scaleDownOperator_done hone hle hv (holds_of_lt result (by rwa [natAbs_sign_mul rfl]))]
    rfl
  unfold templatedDecimalScaleDown
  rw [hd]
  dsimp only
  rw [powerOfTen_done source hle, done_bind, Storage.convert_done (holds_pow source hle), done_bind]
  by_cases hwidth : source.width < result.width + d
  · have hfit : halfUp v.natAbs (10 ^ d) < 10 ^ result.width := by
      have hpos : 0 < 10 ^ d := Nat.pow_pos (by decide)
      have heven := pow_eq_double hone
      obtain ⟨w, hw⟩ : ∃ w, result.width = w + 1 := ⟨result.width - 1, by have := result.one_le; omega⟩
      have hv' : v.natAbs < 10 ^ w * 10 ^ d := by
        rw [← Nat.pow_add]
        exact lt_of_lt_of_le hv (pow_le_pow (by omega))
      have hstep : 10 ^ (w + 1) * 10 ^ d = 10 * (10 ^ w * 10 ^ d) := by rw [Nat.pow_succ]; ring
      have hpos' : 10 ^ d ≤ 10 ^ w * 10 ^ d := Nat.le_mul_of_pos_left _ (Nat.pow_pos (by decide))
      rw [halfUp_le_iff hpos (by omega), hw, hstep]
      split <;> omega
    rw [if_pos hwidth, hoperator hfit, if_pos hfit]
  · have hlimit := limit_done source (show result.width + d ≤ source.width by omega)
    rw [if_neg hwidth, powerOfTen_done source (by omega), done_bind, hlimit.1, done_bind,
      canScaleDown_done hone (by omega) hv, done_bind]
    by_cases hfit : halfUp v.natAbs (10 ^ d) < 10 ^ result.width
    · rw [decide_eq_true hfit, if_neg (by decide), hoperator hfit, if_pos hfit]
    · rw [decide_eq_false hfit, if_pos (by decide), if_neg hfit]

/-- A cast gives the integer that the number rounds to if it fits, and fails if it does not. -/
def CastsTo (outcome : Outcome (Option Int)) (q : ℚ) (fits : Int → Bool) : Prop :=
  ∃ n, RoundsTo q n ∧ outcome = .done (if fits n then some n else none)

theorem decimalDecimalCast_castsTo (source result : DecimalType) (hv : v.natAbs < 10 ^ source.width) :
    CastsTo (decimalDecimalCast source result v) (v * 10 ^ ((result.scale : Int) - source.scale))
      fun n => n.natAbs < 10 ^ result.width := by
  unfold decimalDecimalCast
  by_cases hge : result.scale ≥ source.scale
  · rw [if_pos hge, scaleUp_done hv]
    refine ⟨v * 10 ^ (result.scale - source.scale), ?_, by simp⟩
    rw [show (result.scale : Int) - source.scale = ((result.scale - source.scale : Nat) : Int) by omega, zpow_natCast]
    have := roundsTo_intCast (v * 10 ^ (result.scale - source.scale))
    push_cast at this
    exact this
  · rw [if_neg hge, scaleDown_done (by omega) hv]
    refine ⟨_, ?_, by simp only [decide_eq_true_eq]; rfl⟩
    rw [show (result.scale : Int) - source.scale = -((source.scale - result.scale : Nat) : Int) by omega, zpow_neg,
      zpow_natCast, ← div_eq_mul_inv]
    have := roundsTo_div v (Nat.pow_pos (n := source.scale - result.scale) (show 0 < 10 by decide))
    push_cast at this
    exact this

/-! ## DECIMAL to integers -/

theorem conditionalNegate {p : Int} (hp : Storage.int64.Holds p) (negative : Prop) [Decidable negative] :
    (BitVec.ofInt 64 p ^^^ BitVec.ofInt 64 (-(if negative then 1 else 0))).toInt + (if negative then 1 else 0) =
      if negative then -p else p := by
  obtain ⟨hlo, hhi⟩ : -2 ^ 63 ≤ p ∧ p ≤ 2 ^ 63 - 1 := hp
  have hvalue : (BitVec.ofInt 64 p).toInt = p := BitVec.toInt_ofInt_eq_self (by decide) hlo (by omega)
  by_cases h : negative
  · have hones : BitVec.ofInt 64 (-1) = BitVec.allOnes 64 := by decide
    have hlt := (BitVec.ofInt 64 p).isLt
    rw [if_pos h, if_pos h, hones, BitVec.xor_allOnes, BitVec.toInt_not, Int.bmod_def]
    rw [BitVec.toInt_eq_toNat_cond] at hvalue
    omega
  · have hzero : BitVec.ofInt 64 (-0) = 0#64 := by decide
    rw [if_neg h, if_neg h, hzero, BitVec.xor_zero, hvalue, Int.add_zero]

theorem pow_eq_one_or_even (i : Nat) : 10 ^ i = 1 ∨ 10 ^ i % 2 = 0 := by
  rcases Nat.eq_zero_or_pos i with rfl | hi
  · exact .inl rfl
  · have := pow_eq_double hi
    omega

theorem scaled_bounds (type : DecimalType) {p : Int} (hp : p = 10 ^ type.scale) :
    ((if v < 0 then -p else p).tdiv 2).natAbs ≤ 10 ^ type.width / 2 ∧
      (v + (if v < 0 then -p else p).tdiv 2).tdiv p = v.sign * halfUp v.natAbs (10 ^ type.scale) ∧
      halfUp v.natAbs (10 ^ type.scale) ≤ v.natAbs := by
  have hcast : p = ((10 ^ type.scale : Nat) : Int) := by rw [hp]; push_cast; rfl
  have hpos : 0 < 10 ^ type.scale := Nat.pow_pos (by decide)
  have hle := pow_le_pow type.scale_le
  refine ⟨?_, ?_, ?_⟩
  · rw [Int.natAbs_tdiv, hcast]
    refine Nat.div_le_div_right ?_
    split <;> omega
  · rw [hcast]
    exact tdiv_add_half v hpos (pow_eq_one_or_even _)
  · generalize 10 ^ type.scale = m at hpos
    unfold halfUp
    rcases Nat.eq_zero_or_pos v.natAbs with hzero | hvpos
    · rw [hzero, Nat.div_eq_of_lt (by omega)]
    · refine Nat.le_of_lt_succ ((Nat.div_lt_iff_lt_mul (by omega)).2 ?_)
      have hexp : (v.natAbs + 1) * (2 * m) = 2 * (m * v.natAbs) + 2 * m := by ring
      have : v.natAbs ≤ m * v.natAbs := Nat.le_mul_of_pos_left _ hpos
      rw [hexp]
      omega

theorem tryCastFromDecimal_castsTo (source : DecimalType) (target : IntegerType) (hv : v.natAbs < 10 ^ source.width) :
    CastsTo (tryCastFromDecimal source target v) (v / 10 ^ source.scale) target.Holds := by
  have hrounds := roundsTo_div v (Nat.pow_pos (n := source.scale) (show 0 < 10 by decide))
  push_cast at hrounds
  refine ⟨_, hrounds, ?_⟩
  obtain ⟨hhalf, hscaled, hsmall⟩ := scaled_bounds (v := v) source rfl
  have hpow := holds_pow source source.scale_le
  have hvs := holds_of_lt source hv
  have hpos : (0 : Int) < 10 ^ source.scale := by positivity
  have hsum : source.internalType.Holds (v + (if v < 0 then -10 ^ source.scale else 10 ^ source.scale).tdiv 2) :=
    holds_of_width source (by omega)
  have hrounding := holds_of_width source (n := (if v < 0 then -10 ^ source.scale else 10 ^ source.scale : Int).tdiv 2)
    (by omega)
  have hresult := holds_of_lt source (n := v.sign * halfUp v.natAbs (10 ^ source.scale))
    (by rw [natAbs_sign_mul rfl]; omega)
  have hneg : source.internalType.Holds (if v < 0 then -10 ^ source.scale else 10 ^ source.scale) := by
    refine holds_of_width source ?_
    have := pow_le_pow source.scale_le
    split
    · rw [Int.natAbs_neg, natAbs_pow]; omega
    · rw [natAbs_pow]; omega
  have htwo := holds_small source (n := 2) (by decide)
  unfold tryCastFromDecimal
  by_cases hhuge : source.internalType = .int128
  · rw [if_pos hhuge]
    unfold tryCastHugeDecimalToNumeric
    have hpower := powerOfTen_done source source.scale_le
    rw [hhuge] at hpower hpow hvs hsum hrounding hresult hneg htwo
    have hsigned : (if v < 0 then Storage.int128.neg (10 ^ source.scale) else .done (10 ^ source.scale) : Outcome Int) =
        .done (if v < 0 then -10 ^ source.scale else 10 ^ source.scale) := by
      by_cases hlt : v < 0
      · rw [if_pos hlt] at hneg
        rw [if_pos hlt, if_pos hlt, Storage.neg_done hpow hneg]
      · rw [if_neg hlt, if_neg hlt]
    rw [hpower, done_bind, hsigned, done_bind, Storage.div_done hneg htwo (by decide), done_bind,
      Storage.add_done hvs hrounding hsum, done_bind, Storage.div_done hsum hpow hpos, done_bind, hscaled,
      tryCast_done target hresult]
    simp
  · rw [if_neg hhuge]
    have hwide : ∀ {n : Int}, source.internalType.Holds n → Storage.int64.Holds n := by
      intro n h
      have := holds_divisorType h
      rwa [divisorType, if_neg hhuge] at this
    have hwidth := (ne_int128_iff source).1 hhuge
    have hpower := power64_done (source.scale_le.trans hwidth)
    have hflip := conditionalNegate (hwide hpow) (v < 0)
    have hflipped : Storage.int64.Holds (BitVec.ofInt 64 (10 ^ source.scale) ^^^
        BitVec.ofInt 64 (-(if v < 0 then 1 else 0))).toInt :=
      ⟨BitVec.le_toInt _, Int.le_sub_one_of_lt BitVec.toInt_lt⟩
    have hunit : Storage.int64.Holds (if v < 0 then 1 else 0) := by split <;> decide
    have hadd := Storage.add_done hflipped hunit (by rw [hflip]; exact hwide hneg)
    unfold tryCastDecimalToNumeric
    rw [hpower, done_bind]
    dsimp only
    rw [hadd, done_bind, hflip, Storage.div_done (hwide hneg) (by decide) (by decide), done_bind,
      Storage.add_done (hwide hvs) (hwide hrounding) (hwide hsum), done_bind,
      Storage.div_done (hwide hsum) (hwide hpow) hpos, done_bind, hscaled, Storage.convert_done hresult,
      done_bind, tryCast_done target hresult]
    simp

/-! ## Integers to DECIMAL -/

theorem holds_uhugeint (h : 0 ≤ n) (h' : n.natAbs ≤ 10 ^ 38) : IntegerType.uhugeint.Holds n :=
  ⟨h, le_trans (show n ≤ 10 ^ 38 by omega) (by decide)⟩

theorem uhugeintMul_done {a b : Int} (ha : 0 ≤ a) (hb : 0 ≤ b) (ha' : a.natAbs ≤ 10 ^ 38) (hb' : b.natAbs ≤ 10 ^ 38)
    (hab : (a * b).natAbs ≤ 10 ^ 38) : uhugeintMul a b = .done (a * b) := by
  unfold uhugeintMul
  rw [if_pos (holds_uhugeint (mul_nonneg ha hb) hab)]
  obtain ⟨x, rfl⟩ := Int.eq_ofNat_of_zero_le ha
  obtain ⟨y, rfl⟩ := Int.eq_ofNat_of_zero_le hb
  rw [Int.natAbs_mul, Int.natAbs_natCast, Int.natAbs_natCast] at hab
  rw [BitVec.ofInt_natCast, BitVec.ofInt_natCast, BitVec.toNat_mul, BitVec.toNat_ofNat, BitVec.toNat_ofNat,
    Nat.mod_eq_of_lt (a := x) (by omega), Nat.mod_eq_of_lt (a := y) (by omega), Nat.mod_eq_of_lt (by omega)]
  push_cast
  rfl

theorem split_width (type : DecimalType) :
    10 ^ type.width = 10 ^ (type.width - type.scale) * 10 ^ type.scale := by
  rw [← Nat.pow_add, Nat.sub_add_cancel type.scale_le]

theorem natAbs_mul_lt (type : DecimalType) (hx : x.natAbs < 10 ^ (type.width - type.scale)) :
    (x * 10 ^ type.scale).natAbs < 10 ^ type.width := by
  rw [Int.natAbs_mul, natAbs_pow, split_width type]
  exact (Nat.mul_lt_mul_right (Nat.pow_pos (by decide))).2 hx

theorem scaleHuge_done (type : DecimalType) (hx : x.natAbs < 10 ^ (type.width - type.scale)) :
    Storage.int128.mul x (10 ^ type.scale) = .done (x * 10 ^ type.scale) ∧ Storage.int128.Holds (x * 10 ^ type.scale) := by
  have hprod := natAbs_mul_lt type hx
  have hle := pow_le_pow type.scale_le
  have hlt := pow_width_lt type
  have hle' := pow_le_pow (Nat.sub_le type.width type.scale)
  have hholds : ∀ {n : Int}, n.natAbs ≤ 10 ^ type.width → Storage.int128.Holds n := by
    intro n h
    show -2 ^ 127 ≤ n ∧ n ≤ 2 ^ 127 - 1
    omega
  have hpow := natAbs_pow type.scale
  exact ⟨Storage.mul_done (hholds (by omega)) (hholds (by omega)) (hholds (by omega)) fun _ => by omega,
    hholds (by omega)⟩

theorem negHuge_done (h : i ≤ 38) : Storage.int128.neg (10 ^ i) = .done (-10 ^ i) := by
  have hle := pow_le_pow h
  have hpow := natAbs_pow i
  have hholds : ∀ {n : Int}, n.natAbs ≤ 10 ^ 38 → Storage.int128.Holds n := by
    intro n h
    show -2 ^ 127 ≤ n ∧ n ≤ 2 ^ 127 - 1
    omega
  exact Storage.neg_done (hholds (by omega)) (hholds (by omega))

theorem hugeintToDecimalCast_done (type : DecimalType) :
    hugeintToDecimalCast type.internalType type.width type.scale x =
      .done (if x.natAbs < 10 ^ (type.width - type.scale) then some (x * 10 ^ type.scale) else none) := by
  have hwidth := type.width_le
  have hscale := type.scale_le
  unfold hugeintToDecimalCast
  rw [power128_done (by omega), done_bind, negHuge_done (by omega), done_bind]
  by_cases hx : x.natAbs < 10 ^ (type.width - type.scale)
  · obtain ⟨hmul, hholds⟩ := scaleHuge_done type hx
    rw [if_neg (natAbs_lt_iff.1 hx), if_pos hx, power128_done (by omega), done_bind, hmul, done_bind,
      hugeintCast_done hholds (holds_of_lt type (natAbs_mul_lt type hx))]
    rfl
  · rw [if_pos (by rw [natAbs_lt_iff, not_not] at hx; exact hx), if_neg hx]

theorem numericToHugeDecimalCast_done (type : DecimalType) (hx : -2 ^ 63 ≤ x ∧ x < 2 ^ 64) :
    numericToHugeDecimalCast type.width type.scale x =
      .done (if x.natAbs < 10 ^ (type.width - type.scale) then some (x * 10 ^ type.scale) else none) := by
  have hwidth := type.width_le
  have hscale := type.scale_le
  unfold numericToHugeDecimalCast
  rw [power128_done (by omega), done_bind]
  dsimp only
  rw [negHuge_done (by omega), done_bind, Hugeint.toInt_convertInteger hx]
  by_cases hlt : x.natAbs < 10 ^ (type.width - type.scale)
  · rw [if_neg (natAbs_lt_iff.1 hlt), if_pos hlt, power128_done (by omega), done_bind, (scaleHuge_done type hlt).1]
    rfl
  · rw [if_pos (by rw [natAbs_lt_iff, not_not] at hlt; exact hlt), if_neg hlt]

theorem uhugeintToDecimalCast_done (type : DecimalType) (hx : 0 ≤ x) :
    uhugeintToDecimalCast type.internalType type.width type.scale x =
      .done (if x.natAbs < 10 ^ (type.width - type.scale) then some (x * 10 ^ type.scale) else none) := by
  have hwidth := type.width_le
  have hscale := type.scale_le
  have hiff : x.natAbs < 10 ^ (type.width - type.scale) ↔ ¬ x ≥ 10 ^ (type.width - type.scale) := by
    have hpos : (0 : Int) < 10 ^ (type.width - type.scale) := by positivity
    rw [natAbs_lt_iff]
    omega
  unfold uhugeintToDecimalCast
  rw [power128_done (by omega), done_bind]
  by_cases hlt : x.natAbs < 10 ^ (type.width - type.scale)
  · have hprod := natAbs_mul_lt type hlt
    have hle := pow_le_pow hwidth
    have hmul : uhugeintMul x (10 ^ type.scale) = .done (x * 10 ^ type.scale) := by
      refine uhugeintMul_done hx (by positivity) ?_ ?_ (by omega)
      · exact hlt.le.trans (pow_le_pow (by omega))
      · rw [natAbs_pow]
        exact pow_le_pow (by omega)
    rw [if_neg (hiff.1 hlt), if_pos hlt, power128_done (by omega), done_bind, hmul, done_bind,
      if_pos (holds_of_lt type hprod).2]
  · rw [if_pos (by rw [hiff, not_not] at hlt; exact hlt), if_neg hlt]

theorem standardNumericToDecimalCast_done (type : DecimalType) (hwidth : type.width ≤ 18)
    (hunsigned : isSigned target = false → 0 ≤ x) :
    standardNumericToDecimalCast target type.internalType type.width type.scale x =
      .done (if x.natAbs < 10 ^ (type.width - type.scale) then some (x * 10 ^ type.scale) else none) := by
  have hscale := type.scale_le
  have hlimit := limit_done type (Nat.sub_le type.width type.scale)
  have hoverflow : (if isSigned target then do
        let negated ← type.internalType.neg (10 ^ (type.width - type.scale))
        .done (decide (x ≥ 10 ^ (type.width - type.scale) ∨ x ≤ negated))
      else .done (decide (x ≥ 10 ^ (type.width - type.scale))) : Outcome Bool) =
      .done (!decide (x.natAbs < 10 ^ (type.width - type.scale))) := by
    have hpos : (0 : Int) < 10 ^ (type.width - type.scale) := by positivity
    by_cases hsigned : isSigned target = true
    · rw [if_pos hsigned, hlimit.2, done_bind]
      congr 1
      rw [← decide_not, decide_eq_decide, natAbs_lt_iff, not_not]
    · rw [if_neg hsigned]
      have := hunsigned (by simpa using hsigned)
      congr 1
      rw [← decide_not, decide_eq_decide, natAbs_lt_iff]
      omega
  unfold standardNumericToDecimalCast
  rw [power64_done (by omega), done_bind, hlimit.1, done_bind, hoverflow, done_bind]
  by_cases hlt : x.natAbs < 10 ^ (type.width - type.scale)
  · have hprod := natAbs_mul_lt type hlt
    have hle := pow_le_pow hwidth
    have hle' := pow_le_pow (Nat.sub_le type.width type.scale)
    have hpow := natAbs_pow type.scale
    have hpow' := pow_le_pow hscale
    have hholds : ∀ {n : Int}, n.natAbs ≤ 10 ^ 18 → Storage.int64.Holds n := by
      intro n h
      show -2 ^ 63 ≤ n ∧ n ≤ 2 ^ 63 - 1
      omega
    have hmul : Storage.int64.mul x (10 ^ type.scale) = .done (x * 10 ^ type.scale) :=
      Storage.mul_done (hholds (by omega)) (hholds (by omega)) (hholds (by omega)) (by rintro ⟨⟩)
    rw [decide_eq_true hlt, if_neg (by decide), if_pos hlt, Storage.convert_done (holds_of_lt type (by omega)),
      done_bind, power64_done (by omega), done_bind, hmul, done_bind,
      Storage.convert_done (holds_of_lt type hprod)]
    rfl
  · rw [decide_eq_false hlt, if_pos (by decide), if_neg hlt]

theorem tryCastToDecimal_done (result : DecimalType) (hx : target.Holds x) :
    tryCastToDecimal target result x =
      .done (if x.natAbs < 10 ^ (result.width - result.scale) then some (x * 10 ^ result.scale) else none) := by
  unfold tryCastToDecimal
  by_cases hhuge : target = .hugeint
  · rw [if_pos hhuge, hugeintToDecimalCast_done]
  · rw [if_neg hhuge]
    by_cases huhuge : target = .uhugeint
    · subst huhuge
      rw [if_pos rfl, uhugeintToDecimalCast_done result hx.1]
    · rw [if_neg huhuge]
      by_cases h128 : result.internalType = .int128
      · have hbounds : -2 ^ 63 ≤ x ∧ x < 2 ^ 64 := by
          have hmin : -2 ^ 63 ≤ target.minimum := by revert hhuge; cases target <;> decide
          have hmax : target.maximum < 2 ^ 64 := by revert hhuge huhuge; cases target <;> decide
          exact ⟨hmin.trans hx.1, lt_of_le_of_lt hx.2 hmax⟩
        rw [if_pos h128, numericToHugeDecimalCast_done result hbounds]
      · rw [if_neg h128, standardNumericToDecimalCast_done result ((ne_int128_iff result).1 h128) fun h => by
          have := hx.1
          rwa [minimum_unsigned h] at this]

/-! ## All conversions -/

/-- Between DECIMAL types, from DECIMAL to an integer type and from an integer type to DECIMAL every cast is exact, and none
of them has an operation out of range. -/
theorem conversions_exact (source result : DecimalType) (type : IntegerType) (v x : Int) (hv : v.natAbs < 10 ^ source.width)
    (hx : type.Holds x) :
    CastsTo (decimalDecimalCast source result v) (v * 10 ^ ((result.scale : Int) - source.scale))
        (fun n => n.natAbs < 10 ^ result.width) ∧
      CastsTo (tryCastFromDecimal source type v) (v / 10 ^ source.scale) type.Holds ∧
      tryCastToDecimal type result x =
        .done (if x.natAbs < 10 ^ (result.width - result.scale) then some (x * 10 ^ result.scale) else none) :=
  ⟨decimalDecimalCast_castsTo source result hv, tryCastFromDecimal_castsTo source type hv, tryCastToDecimal_done result hx⟩

/-- DECIMAL(3,2) to DECIMAL(3,1) and to TINYINT, and TINYINT to DECIMAL(3,1): 9.95 rounds to 10.0 and to 10. -/
theorem conversions_exact_tenth :
    CastsTo (decimalDecimalCast ⟨3, 2, by decide, by decide, by decide⟩ ⟨3, 1, by decide, by decide, by decide⟩ 995)
        ((995 : Int) * 10 ^ ((1 : Int) - 2)) (fun n => n.natAbs < 10 ^ 3) ∧
      CastsTo (tryCastFromDecimal ⟨3, 2, by decide, by decide, by decide⟩ .tinyint 995) ((995 : Int) / 10 ^ 2)
        IntegerType.tinyint.Holds ∧
      tryCastToDecimal .tinyint ⟨3, 1, by decide, by decide, by decide⟩ 100 = .done none :=
  conversions_exact ⟨3, 2, by decide, by decide, by decide⟩ ⟨3, 1, by decide, by decide, by decide⟩ .tinyint 995 100
    (by decide) (by decide)

end Haybarn.Decimal
