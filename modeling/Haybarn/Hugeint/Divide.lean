/-
Division of 128-bit integers, from `hugeint.cpp`: magnitudes are divided bit by bit, and the minimum, whose magnitude
is out of range, is divided through its neighbour. The quotient and the remainder of the bits consumed so far carry
the loops.
-/
import Haybarn.Hugeint.Multiply
import Haybarn.Lib.LongDivision

namespace Haybarn.Common.Hugeint

open Lib

/-! ## Bits -/

/-- `while (up) { up >>= 1; out++; }`. -/
def countBits (up : BitVec 64) (out : Nat) : Nat := if up = 0 then out else countBits (up >>> 1) (out + 1)
termination_by up.toNat
decreasing_by
  have hne : up.toNat ≠ 0 := fun h => ‹¬ up = 0› (BitVec.eq_of_toNat_eq h)
  rw [BitVec.toNat_ushiftRight, Nat.shiftRight_eq_div_pow]
  omega

/-- `PositiveHugeintHighestBit`. -/
def highestBit (bits : Hugeint) : Nat := if bits.upper ≠ 0 then countBits bits.upper 64 else countBits bits.lower 0

/-- `PositiveHugeintIsBitSet`. -/
def isBitSet (lhs : Hugeint) (position : Nat) : Bool :=
  if position < 64 then lhs.lower &&& 1#64 <<< position != 0 else lhs.upper &&& 1#64 <<< (position - 64) != 0

/-- `PositiveHugeintLeftShift`. -/
def leftShift (lhs : Hugeint) (amount : Nat) : Hugeint :=
  ⟨lhs.upper <<< amount + lhs.lower >>> (64 - amount), lhs.lower <<< amount⟩

theorem countBits_spec (up : BitVec 64) (out : Nat) :
    ∃ n, countBits up out = out + n ∧ up.toNat < 2 ^ n ∧ (n = 0 ∨ 2 ^ (n - 1) ≤ up.toNat) := by
  induction up, out using countBits.induct with
  | case1 out => exact ⟨0, by rw [countBits, if_pos rfl]; rfl, by decide, Or.inl rfl⟩
  | case2 up out h ih =>
    have hne : up.toNat ≠ 0 := fun he => h (BitVec.eq_of_toNat_eq he)
    obtain ⟨n, hn, hlt, hle⟩ := ih
    rw [BitVec.toNat_ushiftRight, Nat.shiftRight_eq_div_pow] at hlt hle
    refine ⟨n + 1, by rw [countBits, if_neg h, hn]; omega, by omega, Or.inr ?_⟩
    rcases hle with rfl | hle
    · exact Nat.one_le_iff_ne_zero.mpr hne
    · obtain ⟨m, rfl⟩ : ∃ m, n = m + 1 := ⟨n - 1, by
        rcases Nat.eq_zero_or_pos n with rfl | hpos
        · have : 2 ^ (0 - 1) = 1 := rfl
          omega
        · omega⟩
      simp only [Nat.add_sub_cancel, Nat.pow_succ] at hle ⊢
      omega

theorem lt_highestBit (a : Hugeint) : a.toNat < 2 ^ a.highestBit := by
  unfold highestBit toNat
  have hlower := a.lower.isLt
  split_ifs with h
  · obtain ⟨n, hn, hlt, -⟩ := countBits_spec a.upper 64
    rw [hn, Nat.pow_add]
    omega
  · obtain ⟨n, hn, hlt⟩ := countBits_spec a.lower 0
    have hupper : a.upper.toNat = 0 := by
      rw [not_ne_iff.mp h]
      rfl
    rw [hn, hupper]
    simpa using hlt.1

theorem highestBit_le (a : Hugeint) : a.highestBit ≤ 128 := by
  have hle (x : BitVec 64) (out : Nat) : countBits x out ≤ out + 64 := by
    obtain ⟨n, hn, -, h0 | h⟩ := countBits_spec x out
    · omega
    · have := (Nat.pow_lt_pow_iff_right (by decide)).mp (Nat.lt_of_le_of_lt h x.isLt)
      omega
  unfold highestBit
  split_ifs
  · exact hle _ _
  · exact (hle _ _).trans (by decide)

theorem limb_isBitSet (x : BitVec 64) {i : Nat} (hi : i < 64) : (x &&& 1#64 <<< i != 0) = x.toNat.testBit i := by
  rw [← BitVec.twoPow_eq, BitVec.and_twoPow]
  simp only [BitVec.testBit_toNat]
  cases x.getLsbD i with
  | false => rfl
  | true =>
    simp only [if_true, bne_iff_ne, ne_eq]
    intro h
    have := congrArg BitVec.toNat h
    rw [BitVec.toNat_twoPow, Nat.mod_eq_of_lt (Nat.pow_lt_pow_right (by decide) hi)] at this
    exact absurd this (Nat.two_pow_pos i).ne'

theorem isBitSet_eq (a : Hugeint) {i : Nat} (hi : i < 128) : a.isBitSet i = a.toNat.testBit i := by
  have hlower := a.lower.isLt
  unfold isBitSet toNat
  rw [Nat.mul_comm, Nat.testBit_two_pow_mul_add _ hlower]
  split_ifs with h
  · exact limb_isBitSet _ h
  · exact limb_isBitSet _ (by omega)

variable {a lhs b : Hugeint} {rhs : BitVec 64}

theorem toNat_leftShift (h : a.toNat < 2 ^ 127) : (a.leftShift 1).toNat = 2 * a.toNat := by
  simp only [leftShift, toNat, BitVec.toNat_add, BitVec.toNat_shiftLeft, BitVec.toNat_ushiftRight, Nat.shiftLeft_eq,
    Nat.shiftRight_eq_div_pow] at h ⊢
  omega

/-! ## Division of magnitudes -/

/-- One turn of the loop of `DivModPositive`, at the bit `x - 1`. -/
def divModPositiveStep (lhs : Hugeint) (rhs : BitVec 64) (x : Nat) (s : Hugeint × BitVec 64) : Hugeint × BitVec 64 :=
  let divResult := s.1.leftShift 1
  let remainder := s.2 <<< 1
  let remainder := if lhs.isBitSet (x - 1) then remainder + 1 else remainder
  if rhs ≤ remainder then
    let lower := divResult.lower + 1
    (⟨if lower = 0 then divResult.upper + 1 else divResult.upper, lower⟩, remainder - rhs)
  else (divResult, remainder)

/-- The turns `x = n` to `x = 1`. -/
def divModPositiveLoop (lhs : Hugeint) (rhs : BitVec 64) : Nat → Hugeint × BitVec 64 → Hugeint × BitVec 64
  | 0, s => s
  | x + 1, s => divModPositiveLoop lhs rhs x (divModPositiveStep lhs rhs (x + 1) s)

/-- `DivModPositive`: the quotient and the remainder. -/
def divModPositive (lhs : Hugeint) (rhs : BitVec 64) : Hugeint × BitVec 64 :=
  divModPositiveLoop lhs rhs lhs.highestBit (⟨0, 0⟩, 0)

/-- One turn of the loop of `DivMod`. -/
def divModStep (lhs rhs : Hugeint) (x : Nat) (s : Hugeint × Hugeint) : Hugeint × Hugeint :=
  let divResult := s.1.leftShift 1
  let remainder := s.2.leftShift 1
  let remainder := if lhs.isBitSet (x - 1) then add remainder (convertInteger 1) else remainder
  if greaterThanEquals remainder rhs then (add divResult (convertInteger 1), sub remainder rhs)
  else (divResult, remainder)

def divModLoop (lhs rhs : Hugeint) : Nat → Hugeint × Hugeint → Hugeint × Hugeint
  | 0, s => s
  | x + 1, s => divModLoop lhs rhs x (divModStep lhs rhs (x + 1) s)

theorem div_two_pow_lt (h : a.toNat < 2 ^ 127) (x : Nat) : a.toNat / 2 ^ x < 2 ^ 127 :=
  Nat.lt_of_le_of_lt (Nat.div_le_self _ _) h

theorem toNat_succ (a : Hugeint) (h : a.toNat < 2 ^ 127) :
    toNat ⟨if a.lower + 1 = 0 then a.upper + 1 else a.upper, a.lower + 1⟩ = a.toNat + 1 := by
  have hzero : (0 : BitVec 64).toNat = 0 := rfl
  have hone : (1 : BitVec 64).toNat = 1 := rfl
  unfold toNat at h
  simp only [toNat, ← BitVec.toNat_inj, apply_ite BitVec.toNat, BitVec.toNat_add, hzero, hone]
  split_ifs <;> omega

/-- A turn moves the division down by one bit. -/
theorem divModPositiveStep_spec {x : Nat} {s : Hugeint × BitVec 64}
    (hlhs : lhs.toNat < 2 ^ 127) (hrhs : rhs.toNat ≤ 2 ^ 63) (hx : x < 128)
    (h : LongDivision lhs.toNat rhs.toNat (x + 1) s.1.toNat s.2.toNat) :
    let s' := divModPositiveStep lhs rhs (x + 1) s
    LongDivision lhs.toNat rhs.toNat x s'.1.toNat s'.2.toNat := by
  obtain ⟨div, rem⟩ := s
  have hone : (1 : BitVec 64).toNat = 1 := rfl
  have hdiv : div.toNat < 2 ^ 127 := Nat.lt_of_le_of_lt h.le.1 (div_two_pow_lt hlhs _)
  have hrem := h.lt
  simp only at hrem
  -- the remainder with the next bit
  have hnext : (if lhs.isBitSet (x + 1 - 1) then rem <<< 1 + 1 else rem <<< 1).toNat =
      2 * rem.toNat + (lhs.toNat.testBit x).toNat := by
    rw [Nat.add_sub_cancel, isBitSet_eq lhs hx]
    cases lhs.toNat.testBit x <;>
      simp only [if_true, Bool.false_eq_true, if_false, BitVec.toNat_add, BitVec.toNat_shiftLeft, Nat.shiftLeft_eq,
        hone, Bool.toNat_true, Bool.toNat_false] <;> omega
  have hshift := toNat_leftShift hdiv
  unfold divModPositiveStep
  simp only
  generalize (if lhs.isBitSet (x + 1 - 1) then rem <<< 1 + 1 else rem <<< 1) = next at hnext
  by_cases hge : rhs ≤ next
  · rw [if_pos hge]
    have hge' : rhs.toNat ≤ 2 * rem.toNat + (lhs.toNat.testBit x).toNat := hnext ▸ hge
    have hrestore := h.restore hge'
    have hbound := Nat.lt_of_le_of_lt hrestore.le.1 (div_two_pow_lt hlhs _)
    simp only at hbound hrestore ⊢
    rw [toNat_succ _ (by omega), hshift, BitVec.toNat_sub_of_le hge, hnext]
    exact hrestore
  · rw [if_neg hge]
    simp only [hshift, hnext]
    exact h.keep (hnext ▸ Nat.lt_of_not_le hge)

theorem divModPositiveLoop_spec (hlhs : lhs.toNat < 2 ^ 127)
    (hrhs : rhs.toNat ≤ 2 ^ 63) : ∀ {x : Nat} {s : Hugeint × BitVec 64}, x ≤ 128 →
      LongDivision lhs.toNat rhs.toNat x s.1.toNat s.2.toNat →
      let s' := divModPositiveLoop lhs rhs x s
      LongDivision lhs.toNat rhs.toNat 0 s'.1.toNat s'.2.toNat := by
  intro x
  induction x with
  | zero => exact fun _ h => h
  | succ x ih => exact fun hx h => ih (by omega) (divModPositiveStep_spec hlhs hrhs hx h)

/-- `DivModPositive` divides magnitudes. -/
theorem divModPositive_spec (hlhs : lhs.toNat < 2 ^ 127) (hpos : 0 < rhs.toNat)
    (hrhs : rhs.toNat ≤ 2 ^ 63) :
    (divModPositive lhs rhs).1.toNat = lhs.toNat / rhs.toNat ∧
      (divModPositive lhs rhs).2.toNat = lhs.toNat % rhs.toNat :=
  (divModPositiveLoop_spec (s := (⟨0, 0⟩, 0)) hlhs hrhs lhs.highestBit_le (LongDivision.start hpos lhs.lt_highestBit)).result

theorem toNat_next (lhs rem : Hugeint) {x : Nat} (hx : x < 128) (hrem : rem.toNat < 2 ^ 126) :
    (if lhs.isBitSet (x + 1 - 1) then add (rem.leftShift 1) (convertInteger 1) else rem.leftShift 1).toNat =
      2 * rem.toNat + (lhs.toNat.testBit x).toNat := by
  have hone : (convertInteger 1).toNat = 1 := by decide
  have hshift := toNat_leftShift (a := rem) (by omega)
  rw [Nat.add_sub_cancel, isBitSet_eq lhs hx]
  cases lhs.toNat.testBit x
  · simp only [Bool.false_eq_true, if_false, hshift, Bool.toNat_false]
    omega
  · simp only [if_true, toNat_add, hshift, hone, Bool.toNat_true]
    omega

theorem divModStep_spec {rhs : Hugeint} {x : Nat} {s : Hugeint × Hugeint} (hlhs : lhs.toNat < 2 ^ 127)
    (hrhs : rhs.toNat < 2 ^ 127) (hx : x < 128) (h : LongDivision lhs.toNat rhs.toNat (x + 1) s.1.toNat s.2.toNat) :
    let s' := divModStep lhs rhs (x + 1) s
    LongDivision lhs.toNat rhs.toNat x s'.1.toNat s'.2.toNat := by
  obtain ⟨div, rem⟩ := s
  have hone : (convertInteger 1).toNat = 1 := by decide
  have hbit := (lhs.toNat.testBit x).toNat_le
  have hdouble := LongDivision.div_two_pow lhs.toNat x
  have hconsumed := div_two_pow_lt hlhs x
  have hdiv := h.le.1
  have hrem := h.le.2
  simp only at hdiv hrem
  have hnext := toNat_next lhs rem hx (by omega)
  have hshift := toNat_leftShift (a := div) (by omega)
  unfold divModStep
  simp only
  generalize (if lhs.isBitSet (x + 1 - 1) then add (rem.leftShift 1) (convertInteger 1) else rem.leftShift 1) = next
    at hnext
  have hge_iff : greaterThanEquals next rhs = true ↔ rhs.toNat ≤ next.toNat := by
    rw [greaterThanEquals_iff, toInt_eq_toNat hrhs, toInt_eq_toNat (by omega)]
    exact Int.ofNat_le
  by_cases hge : rhs.toNat ≤ next.toNat
  · rw [if_pos (hge_iff.mpr hge)]
    have hrestore := h.restore (hnext ▸ hge)
    have hadd : (add (div.leftShift 1) (convertInteger 1)).toNat = 2 * div.toNat + 1 := by
      rw [toNat_add, hshift, hone]
      omega
    have hsub : (sub next rhs).toNat = next.toNat - rhs.toNat := by
      rw [toNat_sub]
      omega
    simp only [hadd, hsub, hnext]
    exact hrestore
  · rw [if_neg (mt hge_iff.mp hge)]
    simp only [hshift, hnext]
    exact h.keep (hnext ▸ Nat.lt_of_not_le hge)

theorem divModLoop_spec {rhs : Hugeint} (hlhs : lhs.toNat < 2 ^ 127) (hrhs : rhs.toNat < 2 ^ 127) :
    ∀ {x : Nat} {s : Hugeint × Hugeint}, x ≤ 128 → LongDivision lhs.toNat rhs.toNat x s.1.toNat s.2.toNat →
      let s' := divModLoop lhs rhs x s
      LongDivision lhs.toNat rhs.toNat 0 s'.1.toNat s'.2.toNat := by
  intro x
  induction x with
  | zero => exact fun _ h => h
  | succ x ih => exact fun hx h => ih (by omega) (divModStep_spec hlhs hrhs hx h)

/-! ## Signs and the minimum -/

def sign (n : Hugeint) : Int :=
  (if greaterThan n (convertInteger 0) then 1 else 0) - (if lessThan n (convertInteger 0) then 1 else 0)

def multiply (lhs rhs : Hugeint) : Hugeint :=
  let left := lhs.magnitude
  let right := rhs.magnitude
  let result := (left.lower.setWidth 128 + (left.upper.signExtend 128) <<< 64) *
    (right.lower.setWidth 128 + (right.upper.signExtend 128) <<< 64)
  let result : Hugeint := ⟨(result >>> 64).setWidth 64, result.setWidth 64⟩
  if lhs.upper.slt 0 ^^ rhs.upper.slt 0 then negateInPlace result else result

/-- `Abs`. -/
def absolute (n : Hugeint) : Hugeint := multiply n (convertInteger n.sign)

/-- The part of `DivMod` behind its tests: signs are split off and put back. -/
def divModSigned (lhs rhs : Hugeint) : Hugeint × Hugeint :=
  let left := lhs.magnitude
  let (divResult, remainder) := divModLoop left rhs.magnitude left.highestBit (⟨0, 0⟩, ⟨0, 0⟩)
  (if lhs.upper.slt 0 ^^ rhs.upper.slt 0 then negateInPlace divResult else divResult,
    if lhs.upper.slt 0 then negateInPlace remainder else remainder)

/-- `DivModMinimum`. The minimum plus 1 is not the minimum: `DivMod` runs its loop for it. -/
def divModMinimum (lhs rhs : Hugeint) : Hugeint × Hugeint :=
  if rhs = minimum then
    if lhs = minimum then (convertInteger 1, convertInteger 0) else (convertInteger 0, lhs)
  else
    -- add 1 to the minimum and divide again
    let successor := add minimum (convertInteger 1)
    let (result, remainder) :=
      if rhs = convertInteger 0 then (convertInteger 0, successor) else divModSigned successor rhs
    -- if the 1 mattered the result is adjusted, otherwise the remainder
    if add (absolute remainder) (convertInteger 1) = absolute rhs then
      (sub result (convertInteger rhs.sign), convertInteger 0)
    else (result, sub remainder (convertInteger 1))

/-- `DivMod`: the quotient and the remainder. -/
def divMod (lhs rhs : Hugeint) : Hugeint × Hugeint :=
  if rhs = convertInteger 0 then (convertInteger 0, lhs)
  else if lhs = minimum ∨ rhs = minimum then divModMinimum lhs rhs
  else divModSigned lhs rhs

def tryDivMod (lhs rhs : Hugeint) : Option (Hugeint × Hugeint) :=
  if rhs = convertInteger 0 then none
  -- the only overflow of a division
  else if lhs = minimum ∧ rhs = convertInteger (-1) then none
  else some (divMod lhs rhs)

theorem toInt_signed {n : Nat} (h : a.toNat = n) (hn : n < 2 ^ 127) (negative : Bool) :
    (if negative then negateInPlace a else a).toInt = if negative then -(n : Int) else n := by
  have hint : a.toInt = n := by rw [toInt_eq_toNat (h ▸ hn), h]
  cases negative with
  | false => exact hint
  | true =>
    simp only [if_true]
    rw [toInt_negateInPlace (ne_minimum_iff.mpr (by omega)), hint]

theorem tdiv_tmod_eq (a b : Int) :
    a.tdiv b = (if decide (a < 0) ^^ decide (b < 0) then -((a.natAbs / b.natAbs : Nat) : Int)
      else (a.natAbs / b.natAbs : Nat)) ∧
    a.tmod b = (if decide (a < 0) then -((a.natAbs % b.natAbs : Nat) : Int) else (a.natAbs % b.natAbs : Nat)) := by
  obtain ⟨m, hm⟩ : ∃ m : Nat, a.natAbs = m := ⟨_, rfl⟩
  obtain ⟨n, hn⟩ : ∃ n : Nat, b.natAbs = n := ⟨_, rfl⟩
  have hsign (c : Int) (k : Nat) (hk : c.natAbs = k) : c < 0 ∧ c = -(k : Int) ∨ ¬ c < 0 ∧ c = k := by omega
  rw [hm, hn, Int.ofNat_tdiv, Int.ofNat_tmod]
  rcases hsign a m hm with ⟨ha, ham⟩ | ⟨ha, ham⟩ <;> rcases hsign b n hn with ⟨hb, hbn⟩ | ⟨hb, hbn⟩ <;>
    simp only [ha, hb, decide_true, decide_false, Bool.xor_self, Bool.xor_false, Bool.false_xor, if_true,
      Bool.false_eq_true, if_false] <;> rw [ham, hbn]
  · exact ⟨Int.neg_tdiv_neg _ _, by rw [Int.neg_tmod, Int.tmod_neg]⟩
  · exact ⟨Int.neg_tdiv _ _, Int.neg_tmod _ _⟩
  · exact ⟨Int.tdiv_neg _ _, Int.tmod_neg _ _⟩
  · exact ⟨rfl, rfl⟩

/-- Away from the minimum `DivMod` is truncated division. -/
theorem divModSigned_spec {rhs : Hugeint} (hlhs : lhs ≠ minimum) (hrhs : rhs ≠ minimum) (h0 : rhs.toInt ≠ 0) :
    (divModSigned lhs rhs).1.toInt = lhs.toInt.tdiv rhs.toInt ∧
      (divModSigned lhs rhs).2.toInt = lhs.toInt.tmod rhs.toInt := by
  have hbound (c : Hugeint) (hc : c ≠ minimum) : c.magnitude.toNat < 2 ^ 127 :=
    toNat_lt_of_nonneg (toInt_magnitude hc ▸ abs_nonneg _)
  have hpos : 0 < rhs.magnitude.toNat := by
    rw [toNat_magnitude hrhs]
    omega
  obtain ⟨hdiv, hmod⟩ := (divModLoop_spec (s := (⟨0, 0⟩, ⟨0, 0⟩)) (hbound lhs hlhs) (hbound rhs hrhs)
    lhs.magnitude.highestBit_le (LongDivision.start hpos lhs.magnitude.lt_highestBit)).result
  obtain ⟨htdiv, htmod⟩ := tdiv_tmod_eq lhs.toInt rhs.toInt
  have hdiv' := Nat.lt_of_le_of_lt (Nat.div_le_self lhs.magnitude.toNat rhs.magnitude.toNat) (hbound lhs hlhs)
  have hmod' := Nat.lt_of_le_of_lt (Nat.mod_le lhs.magnitude.toNat rhs.magnitude.toNat) (hbound lhs hlhs)
  rw [htdiv, htmod, ← toNat_magnitude hlhs, ← toNat_magnitude hrhs]
  unfold divModSigned
  rw [upper_slt_zero, upper_slt_zero]
  exact ⟨toInt_signed hdiv hdiv' _, toInt_signed hmod hmod' _⟩

theorem sign_eq (n : Hugeint) : n.sign = n.toInt.sign := by
  unfold sign
  simp only [greaterThan_iff, lessThan_iff, toInt_zero]
  rcases lt_trichotomy n.toInt 0 with h | h | h
  · rw [if_neg (by omega), if_pos h, Int.sign_eq_neg_one_of_neg h]
    rfl
  · rw [if_neg (by omega), if_neg (by omega), h]
    rfl
  · rw [if_pos h, if_neg (by omega), Int.sign_eq_one_of_pos h]
    rfl

theorem multiply_eq {c : Hugeint} (ha : a ≠ minimum) (hb : b ≠ minimum) (h : tryMultiply a b = some c) :
    multiply a b = c := by
  unfold tryMultiply at h
  rw [tryMultiplyWith_eq _ ha hb] at h
  obtain ⟨d, hd, rfl⟩ := Option.map_eq_some_iff.mp h
  unfold multiplyBuiltin at hd
  simp only at hd
  split_ifs at hd
  cases hd
  unfold multiply
  rw [upper_slt_zero, upper_slt_zero]

theorem sign_bounds (n : Int) : n.sign = -1 ∧ n < 0 ∨ n.sign = 0 ∧ n = 0 ∨ n.sign = 1 ∧ 0 < n := by
  rcases lt_trichotomy n 0 with h | h | h
  · exact Or.inl ⟨Int.sign_eq_neg_one_of_neg h, h⟩
  · exact Or.inr (Or.inl ⟨by rw [h]; rfl, h⟩)
  · exact Or.inr (Or.inr ⟨Int.sign_eq_one_of_pos h, h⟩)

theorem toInt_convert_sign (n : Hugeint) : (convertInteger n.sign).toInt = n.toInt.sign := by
  rw [sign_eq]
  apply toInt_convertInteger
  rcases sign_bounds n.toInt with h | h | h <;> omega

theorem toInt_absolute {n : Hugeint} (h : n ≠ minimum) : n.absolute.toInt = |n.toInt| := by
  have hs := toInt_convert_sign n
  have hmul : n.toInt * n.toInt.sign = |n.toInt| := by
    rw [Int.mul_sign_self, Int.abs_eq_natAbs]
  have hsmin : convertInteger n.sign ≠ minimum := by
    rw [ne_minimum_iff, hs]
    rcases sign_bounds n.toInt with h | h | h <;> omega
  have hlt : |n.toInt * (convertInteger n.sign).toInt| < 2 ^ 127 := by
    have hrange := n.inRange_toInt
    have hmin := ne_minimum_iff.mp h
    unfold InRange at hrange
    rw [hs, hmul, abs_abs, abs_lt]
    omega
  obtain ⟨c, hc, hcn⟩ := (tryMultiply_spec h hsmin).1 hlt
  unfold absolute
  rw [multiply_eq h hsmin hc, hcn, hs, hmul]

theorem succ_div_mod (k : Nat) {d : Nat} (hd : 0 < d) :
    if k % d + 1 = d then (k + 1) / d = k / d + 1 ∧ (k + 1) % d = 0
      else (k + 1) / d = k / d ∧ (k + 1) % d = k % d + 1 := by
  have hlt := Nat.mod_lt k hd
  have hk := Nat.div_add_mod k d
  split_ifs with h
  · have hsucc : k + 1 = d * (k / d + 1) := by
      rw [Nat.mul_add, Nat.mul_one]
      omega
    rw [hsucc]
    exact ⟨Nat.mul_div_cancel_left _ hd, Nat.mul_mod_right _ _⟩
  · have hsucc : k + 1 = k % d + 1 + d * (k / d) := by omega
    have hsmall : k % d + 1 < d := by omega
    constructor
    · conv_lhs => rw [hsucc]
      rw [Nat.add_mul_div_left _ _ hd, Nat.div_eq_of_lt hsmall, Nat.zero_add]
    · conv_lhs => rw [hsucc]
      rw [Nat.add_mul_mod_self_left, Nat.mod_eq_of_lt hsmall]

theorem tdiv_tmod_succ {m n : Int} (hm : m < 0) (hn : n ≠ 0) :
    if |(m + 1).tmod n| + 1 = |n| then m.tdiv n = (m + 1).tdiv n - n.sign ∧ m.tmod n = 0
      else m.tdiv n = (m + 1).tdiv n ∧ m.tmod n = (m + 1).tmod n - 1 := by
  obtain ⟨k, hk⟩ : ∃ k : Nat, m + 1 = -(k : Int) := ⟨(-(m + 1)).toNat, by omega⟩
  obtain ⟨d, hd⟩ : ∃ d : Nat, n.natAbs = d := ⟨_, rfl⟩
  have hm' : m = -((k + 1 : Nat) : Int) := by omega
  have hsucc := succ_div_mod k (d := d) (by omega)
  have hmod : |(m + 1).tmod n| + 1 = |n| ↔ k % d + 1 = d := by
    rw [Int.abs_eq_natAbs, Int.abs_eq_natAbs, hk, Int.neg_tmod, Int.natAbs_neg, hd]
    have : ((k : Int).tmod n).natAbs = k % d := by
      rw [← hd, Int.natAbs_tmod]
      rfl
    rw [this]
    norm_cast
  rw [hk] at *
  simp only [hmod]
  rw [hm']
  rcases sign_bounds n with ⟨hs, hneg⟩ | ⟨-, h0⟩ | ⟨hs, hpos⟩
  · have hnd : n = -(d : Int) := by omega
    rw [hs, hnd]
    simp only [Int.neg_tdiv_neg, Int.neg_tmod, Int.tmod_neg, ← Int.ofNat_tdiv, ← Int.ofNat_tmod]
    split_ifs at hsucc ⊢ <;> omega
  · exact absurd h0 hn
  · have hnd : n = (d : Int) := by omega
    rw [hs, hnd]
    simp only [Int.neg_tdiv, Int.neg_tmod, ← Int.ofNat_tdiv, ← Int.ofNat_tmod]
    split_ifs at hsucc ⊢ <;> omega

theorem inRange_tdiv {m n : Int} (hm : InRange m) (h : ¬ (m = -2 ^ 127 ∧ n = -1)) : InRange (m.tdiv n) := by
  have hquotient : (m.tdiv n).natAbs = m.natAbs / n.natAbs := Int.natAbs_tdiv m n
  unfold InRange at hm ⊢
  by_cases hn : n.natAbs ≤ 1
  · obtain rfl | rfl | rfl : n = 0 ∨ n = 1 ∨ n = -1 := by omega
    · rw [Int.tdiv_zero]
      omega
    · rw [Int.tdiv_one]
      exact hm
    · rw [Int.tdiv_neg, Int.tdiv_one]
      omega
  · have : m.natAbs / n.natAbs ≤ m.natAbs / 2 := Nat.div_le_div_left (by omega) (by decide)
    omega

theorem inRange_tmod {m n : Int} (hn : InRange n) (h0 : n ≠ 0) : InRange (m.tmod n) ∧ m.tmod n ≠ -2 ^ 127 := by
  have hmod : (m.tmod n).natAbs = m.natAbs % n.natAbs := Int.natAbs_tmod m n
  have hlt : m.natAbs % n.natAbs < n.natAbs := Nat.mod_lt _ (by omega)
  unfold InRange at hn ⊢
  omega

theorem divModMinimum_rhs (a : Hugeint) (hb : b = minimum) :
    (divModMinimum a b).1.toInt = a.toInt.tdiv b.toInt ∧ (divModMinimum a b).2.toInt = a.toInt.tmod b.toInt := by
  unfold divModMinimum
  rw [if_pos hb, hb, toInt_minimum]
  by_cases ha : a = minimum
  · rw [if_pos ha, ha, toInt_minimum]
    exact ⟨by decide, by decide⟩
  · have hamin := ne_minimum_iff.mp ha
    have hrange := a.inRange_toInt
    unfold InRange at hrange
    have hdiv : a.toInt.tdiv (-2 ^ 127) = 0 := by
      have : (a.toInt.tdiv (-2 ^ 127)).natAbs = a.toInt.natAbs / (-2 ^ 127 : Int).natAbs := Int.natAbs_tdiv _ _
      rw [Nat.div_eq_of_lt (by omega)] at this
      omega
    have hmod := Int.mul_tdiv_add_tmod a.toInt (-2 ^ 127)
    rw [if_neg ha, hdiv, toInt_zero]
    rw [hdiv, Int.mul_zero, Int.zero_add] at hmod
    exact ⟨rfl, hmod.symm⟩

theorem divModMinimum_lhs (hb : b ≠ minimum) (h0 : b.toInt ≠ 0) (hneg : b.toInt ≠ -1) :
    (divModMinimum minimum b).1.toInt = minimum.toInt.tdiv b.toInt ∧
      (divModMinimum minimum b).2.toInt = minimum.toInt.tmod b.toInt := by
  have hrange := b.inRange_toInt
  have hsucc : (add minimum (convertInteger 1)).toInt = minimum.toInt + 1 := by decide
  have hbzero : b ≠ convertInteger 0 := fun h => h0 (by rw [h, toInt_zero])
  obtain ⟨hdiv, hmod⟩ := divModSigned_spec (show add minimum (convertInteger 1) ≠ minimum by decide) hb h0
  have hneighbour := tdiv_tmod_succ (m := minimum.toInt) (by decide) h0
  have hquotient := inRange_tdiv (n := b.toInt) minimum.inRange_toInt (fun h => hneg h.2)
  have hremainder := (inRange_tmod (m := minimum.toInt) hrange h0).1
  obtain ⟨-, hmodmin⟩ := inRange_tmod (m := minimum.toInt + 1) hrange h0
  rw [hsucc] at hdiv hmod
  unfold divModMinimum
  rw [if_neg hb]
  simp only [if_neg hbzero]
  generalize divModSigned (add minimum (convertInteger 1)) b = r at hdiv hmod ⊢
  have hrmin : r.2 ≠ minimum := ne_minimum_iff.mpr (hmod ▸ hmodmin)
  -- the test on the magnitudes
  have habs : (add (absolute r.2) (convertInteger 1)).toInt = |r.2.toInt| + 1 := by
    have hbmin := ne_minimum_iff.mp hb
    have hrlt : r.2.toInt.natAbs < b.toInt.natAbs := by
      rw [hmod, Int.natAbs_tmod]
      exact Nat.mod_lt _ (by omega)
    have hsum : (absolute r.2).toInt + (convertInteger 1).toInt = |r.2.toInt| + 1 := by
      rw [toInt_absolute hrmin, toInt_one]
    rw [toInt_add, hsum]
    rw [hsum, Int.abs_eq_natAbs]
    unfold InRange at hrange ⊢
    omega
  have htest : add (absolute r.2) (convertInteger 1) = absolute b ↔ |(minimum.toInt + 1).tmod b.toInt| + 1 = |b.toInt| := by
    rw [← toInt_inj, habs, toInt_absolute hb, hmod]
  by_cases hmatters : |(minimum.toInt + 1).tmod b.toInt| + 1 = |b.toInt|
  · rw [if_pos hmatters] at hneighbour
    rw [if_pos (htest.mpr hmatters)]
    have hsub : r.1.toInt - (convertInteger b.sign).toInt = minimum.toInt.tdiv b.toInt := by
      rw [toInt_convert_sign, hdiv, hneighbour.1]
    exact ⟨by rw [toInt_sub (hsub ▸ hquotient), hsub], by rw [toInt_zero, hneighbour.2]⟩
  · rw [if_neg hmatters] at hneighbour
    rw [if_neg (mt htest.mp hmatters)]
    have hsub : r.2.toInt - (convertInteger 1).toInt = minimum.toInt.tmod b.toInt := by
      rw [toInt_one, hmod, hneighbour.2]
    exact ⟨by rw [hdiv, hneighbour.1], by rw [toInt_sub (hsub ▸ hremainder), hsub]⟩

/-- `TryDivMod` is truncated division, and fails for a division by zero and for the one overflow. -/
theorem tryDivMod_spec (a b : Hugeint) :
    if b.toInt = 0 ∨ a.toInt = -2 ^ 127 ∧ b.toInt = -1 then tryDivMod a b = none
    else ∃ q r, tryDivMod a b = some (q, r) ∧ q.toInt = a.toInt.tdiv b.toInt ∧ r.toInt = a.toInt.tmod b.toInt := by
  have hzero : b = convertInteger 0 ↔ b.toInt = 0 := by rw [← toInt_inj, toInt_zero]
  have hmin (c : Hugeint) : c = minimum ↔ c.toInt = -2 ^ 127 := by rw [← toInt_inj, toInt_minimum]
  have hone : b = convertInteger (-1) ↔ b.toInt = -1 := by
    rw [← toInt_inj, toInt_convertInteger (by decide)]
  unfold tryDivMod
  simp only [hzero, hmin a, hone]
  by_cases h0 : b.toInt = 0
  · rw [if_pos (Or.inl h0), if_pos h0]
  · by_cases hover : a.toInt = -2 ^ 127 ∧ b.toInt = -1
    · rw [if_pos (Or.inr hover), if_neg h0, if_pos hover]
    · rw [if_neg (by tauto), if_neg h0, if_neg hover]
      refine ⟨(divMod a b).1, (divMod a b).2, rfl, ?_⟩
      unfold divMod
      rw [if_neg (mt hzero.mp h0)]
      by_cases hb : b = minimum
      · rw [if_pos (Or.inr hb)]
        exact divModMinimum_rhs a hb
      · by_cases ha : a = minimum
        · rw [if_pos (Or.inl ha), ha]
          refine divModMinimum_lhs hb h0 fun hneg => hover ⟨by rw [ha, toInt_minimum], hneg⟩
        · rw [if_neg (not_or.mpr ⟨ha, hb⟩)]
          exact divModSigned_spec ha hb h0

/-- `DivMod` without the checks of its callers, where they would pass. -/
theorem divMod_spec (h0 : b.toInt ≠ 0) (hover : ¬ (a.toInt = -2 ^ 127 ∧ b.toInt = -1)) :
    (divMod a b).1.toInt = a.toInt.tdiv b.toInt ∧ (divMod a b).2.toInt = a.toInt.tmod b.toInt := by
  have hspec := tryDivMod_spec a b
  rw [if_neg (not_or.mpr ⟨h0, hover⟩)] at hspec
  obtain ⟨q, r, heq, hq, hr⟩ := hspec
  have hdivMod : divMod a b = (q, r) := by
    unfold tryDivMod at heq
    split_ifs at heq
    exact Option.some.inj heq
  rw [hdivMod]
  exact ⟨hq, hr⟩

end Haybarn.Common.Hugeint
