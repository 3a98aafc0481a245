/-
The condition under which the rule preserves the value of a comparison. For constants that are read as they are, only
a quotient that does not fit its type can go wrong; constants of `UHUGEINT` from `2^127` on are read with the wrong
sign, and each form has its own condition.
-/
import Mathlib.Tactic.Linarith
import Haybarn.Optimizer.MovedComparison

namespace Haybarn.Optimizer

open Lib Common

variable {t : IntegerType}

theorem ComparisonType.compare_congr (type : ComparisonType) {l r l' r' : Int} (hlt : l < r ↔ l' < r')
    (hgt : r < l ↔ r' < l') : type.compare l r = type.compare l' r' := by
  have heq : l = r ↔ l' = r' := by omega
  have hle : l ≤ r ↔ l' ≤ r' := by omega
  have hge : r ≤ l ↔ r' ≤ l' := by omega
  cases type <;> simp only [compare, hlt, hgt, hle, hge, bne] <;> simp only [beq_eq_decide, heq]

/-- The comparisons `<`, `>`, `<=` and `>=`. -/
def ComparisonType.IsOrder : ComparisonType → Prop
  | compareLessThan | compareGreaterThan | compareLessThanOrEqualTo | compareGreaterThanOrEqualTo => True
  | _ => False

theorem ComparisonType.isOrder_flip (type : ComparisonType) : type.flip.IsOrder ↔ type.IsOrder := by
  cases type <;> rfl

theorem ComparisonType.compare_outside (type : ComparisonType) {n r r' : Int} (h : r < n ∧ n < r' ∨ r' < n ∧ n < r) :
    type.compare n r' = type.compare n r ↔ ¬ type.IsOrder := by
  have hne : n ≠ r := by omega
  have hne' : n ≠ r' := by omega
  cases type with
  | compareEqual | compareNotDistinctFrom => simp [compare, IsOrder, hne, hne']
  | compareNotEqual | compareDistinctFrom =>
    simp [compare, IsOrder, bne_iff_ne.mpr hne, bne_iff_ne.mpr hne']
  | compareLessThan | compareGreaterThan | compareLessThanOrEqualTo | compareGreaterThanOrEqualTo =>
    simp only [compare, IsOrder, not_true_eq_false, iff_false, decide_eq_decide]
    omega

namespace Bindings

variable {b : Bindings t} {c k r n : Int}

/-- The comparison with the arithmetic on its left. -/
def leftComparison (b : Bindings t) : ComparisonType := b.leftward b.comparison

theorem leftward_turned (flipped : Bool) :
    b.leftward (b.turned flipped) = if flipped then b.leftComparison.flip else b.leftComparison := by
  unfold leftComparison leftward turned
  cases flipped <;> split_ifs <;> simp_all

theorem leftComparison_eq_iff (type : ComparisonType) (h : type.flip = type) :
    b.leftComparison = type ↔ b.comparison = type := by
  unfold leftComparison leftward
  split_ifs
  · constructor
    · intro he
      rw [← h, ← he, ComparisonType.flip_flip]
    · intro he
      rw [he, h]
  · rfl

/-! ## Moves that mirror the arithmetic -/

/-- The operand lies on a side of `r` where the arithmetic lies on that side of `k`, or on the other side. -/
def Mirrors (b : Bindings t) (c k r : Int) : Bool → Prop
  | false => ∀ n, (n < r ↔ b.operation c n < k) ∧ (r < n ↔ k < b.operation c n)
  | true => ∀ n, (n < r ↔ k < b.operation c n) ∧ (r < n ↔ b.operation c n < k)

variable {flipped : Bool}

theorem Mirrors.compare (h : b.Mirrors c k r flipped) (n : Int) :
    (b.leftward (b.turned flipped)).compare n r = b.leftComparison.compare (b.operation c n) k := by
  rw [leftward_turned]
  cases flipped with
  | false => exact b.leftComparison.compare_congr (h n).1 (h n).2
  | true =>
    rw [if_pos rfl, ComparisonType.flip_compare]
    exact b.leftComparison.compare_congr (h n).2 (h n).1

theorem Mirrors.eq_iff (h : b.Mirrors c k r flipped) (n : Int) : b.operation c n = k ↔ n = r := by
  cases flipped with
  | false =>
    obtain ⟨hlt, hgt⟩ := h n
    omega
  | true =>
    obtain ⟨hlt, hgt⟩ := h n
    omega

theorem mirrors_plus (hf : b.function = .plus) : b.Mirrors c k (k - c) false := by
  have hop (n : Int) : b.operation c n = n + c := by
    unfold operation
    rw [hf]
    split_ifs
    · rfl
    · exact add_comm c n
  intro n
  rw [hop]
  omega

theorem mirrors_minus_left (hf : b.function = .minus) (hidx : b.arithmeticChildIndex = 0) :
    b.Mirrors c k (k + c) false := by
  have hop (n : Int) : b.operation c n = n - c := by
    unfold operation
    rw [hf, if_pos hidx]
    rfl
  intro n
  rw [hop]
  omega

theorem mirrors_minus_right (hf : b.function = .minus) (hidx : b.arithmeticChildIndex ≠ 0) :
    b.Mirrors c k (c - k) true := by
  have hop (n : Int) : b.operation c n = c - n := by
    unfold operation
    rw [hf, if_neg hidx]
    rfl
  intro n
  rw [hop]
  omega

theorem operation_times (hf : b.function = .times) (c n : Int) : b.operation c n = n * c := by
  unfold operation
  rw [hf]
  split_ifs
  · rfl
  · exact mul_comm c n

theorem mirrors_times (hf : b.function = .times) (h0 : c ≠ 0) : b.Mirrors c (r * c) r (decide (c < 0)) := by
  by_cases hneg : c < 0
  · rw [decide_eq_true hneg]
    intro n
    rw [operation_times hf]
    exact ⟨(mul_lt_mul_right_of_neg hneg).symm, (mul_lt_mul_right_of_neg hneg).symm⟩
  · have hpos : 0 < c := by omega
    rw [decide_eq_false hneg]
    intro n
    rw [operation_times hf]
    exact ⟨(mul_lt_mul_iff_left₀ hpos).symm, (mul_lt_mul_iff_left₀ hpos).symm⟩

theorem right_moved (h : b.Mirrors c k r flipped) : b.Right k c (.moved flipped r) :=
  fun n _ _ => h.compare n

theorem right_fixed_false (heq : b.comparison = .compareEqual)
    (h : ∀ n, t.Holds n → t.Holds (b.operation c n) → b.operation c n ≠ k) : b.Right k c (.fixed false) := by
  refine ⟨by rw [heq]; decide, fun n hn hop => ?_⟩
  show b.leftComparison.compare _ _ = _
  rw [(leftComparison_eq_iff .compareEqual rfl).mpr heq]
  exact beq_eq_false_iff_ne.mpr (h n hn hop)

theorem right_fixed_true (hne : b.comparison = .compareNotEqual)
    (h : ∀ n, t.Holds n → t.Holds (b.operation c n) → b.operation c n ≠ k) : b.Right k c (.fixed true) := by
  refine ⟨by rw [hne]; decide, fun n hn hop => ?_⟩
  show b.leftComparison.compare _ _ = _
  rw [(leftComparison_eq_iff .compareNotEqual rfl).mpr hne]
  exact bne_iff_ne.mpr (h n hn hop)

theorem right_fit (h : b.Mirrors c k r flipped) : b.Right k c (fit t b.comparison flipped r) := by
  unfold fit
  split_ifs with hrange hholds heq
  · exact right_moved h
  · exact right_fixed_false heq fun n hn _ he => hholds ((h.eq_iff n).mp he ▸ hn)
  · trivial
  · trivial

/-! ## Quotients -/

theorem fixed_minimum_iff (type : ComparisonType) {m M : Int} (hm : m < 0) (hM : 0 ≤ M) :
    (¬ type.IsDistinct ∧ ∀ n, m < n → n ≤ M → type.compare n m = false) ↔
      type = .compareEqual ∨ type = .compareLessThan ∨ type = .compareLessThanOrEqualTo := by
  constructor
  · rintro ⟨hd, h⟩
    have h0 := h 0 hm hM
    cases type with
    | compareEqual => exact Or.inl rfl
    | compareLessThan => exact Or.inr (Or.inl rfl)
    | compareLessThanOrEqualTo => exact Or.inr (Or.inr rfl)
    | compareNotEqual => exact absurd (bne_eq_false_iff_eq.mp h0) (by omega)
    | compareGreaterThan => exact absurd hm (of_decide_eq_false h0)
    | compareGreaterThanOrEqualTo => exact absurd hm.le (of_decide_eq_false h0)
    | compareDistinctFrom => exact absurd (Or.inl rfl) hd
    | compareNotDistinctFrom => exact absurd (Or.inr rfl) hd
  · rintro (rfl | rfl | rfl)
    · exact ⟨by decide, fun n hn _ => beq_eq_false_iff_ne.mpr (by omega)⟩
    · exact ⟨by decide, fun n hn _ => decide_eq_false (by omega)⟩
    · exact ⟨by decide, fun n hn _ => decide_eq_false (by omega)⟩

theorem bounds_cases (t : IntegerType) :
    1 ≤ t.maximum ∧ (t.minimum = 0 ∨ t.minimum = -t.maximum - 1 ∧ t.minimum ≤ -2) := by
  cases t <;> decide

theorem maximum_lt (h : t.minimum ≤ -2 ^ 127) : t.maximum < 2 ^ 127 := by
  cases t with
  | uhugeint => exact absurd h (by decide)
  | _ => decide

theorem eq_hugeint_of_minimum (h : t.minimum = -2 ^ 127) : t = .hugeint := by
  cases t with
  | hugeint => rfl
  | _ => exact absurd h (by decide)

theorem holds_div {c k : Int} (hc : t.Holds c) (hk : t.Holds k) (h0 : c ≠ 0) (hdvd : c ∣ k)
    (hover : ¬ (k = t.minimum ∧ c = -1)) : t.Holds (k / c) := by
  obtain ⟨q, rfl⟩ := hdvd
  rw [Int.mul_ediv_cancel_left q h0]
  obtain ⟨hmax, hmin⟩ := bounds_cases t
  obtain ⟨hk1, hk2⟩ := hk
  obtain ⟨hc1, hc2⟩ := hc
  unfold IntegerType.Holds
  rcases lt_trichotomy q 0 with hq | rfl | hq
  · rcases lt_or_gt_of_ne h0 with hneg | hpos
    · have : -q ≤ c * q := by nlinarith
      omega
    · have : c * q ≤ q := by nlinarith
      omega
  · omega
  · rcases lt_or_gt_of_ne h0 with hneg | hpos
    · by_cases hone : c = -1
      · rw [hone] at hk1 hk2 hover
        omega
      · have : c * q ≤ -2 * q := by nlinarith [Int.le_sub_one_of_lt (lt_of_le_of_ne (Int.le_sub_one_of_lt hneg) hone)]
        omega
    · have : q ≤ c * q := by nlinarith
      omega

theorem right_times (hf : b.function = .times) (hc : t.Holds c) (hk : t.Holds k) :
    b.Right k c (b.decision k c) ↔
      ¬ (t ≠ .hugeint ∧ k = t.minimum ∧ c = -1 ∧ ¬ (b.leftComparison = .compareEqual ∨
        b.leftComparison = .compareLessThan ∨ b.leftComparison = .compareLessThanOrEqualTo)) := by
  have hdecision : b.decision k c =
      if c = 0 then .unchanged
      else if k = -2 ^ 127 ∧ c = -1 ∨ ¬ c ∣ k then
        if b.comparison = .compareEqual then .fixed false
        else if b.comparison = .compareNotEqual then .fixed true
        else .unchanged
      else if t.Holds (k / c) then .moved (decide (c < 0)) (k / c)
      else .fixed false := by
    unfold decision
    rw [hf]
  rw [hdecision]
  by_cases h0 : c = 0
  · rw [if_pos h0]
    exact ⟨fun _ h => by omega, fun _ => trivial⟩
  rw [if_neg h0]
  by_cases hnd : k = -2 ^ 127 ∧ c = -1 ∨ ¬ c ∣ k
  · -- no operand has this product
    have hne : ∀ n, t.Holds n → t.Holds (b.operation c n) → b.operation c n ≠ k := by
      intro n hn _ he
      rw [operation_times hf] at he
      rcases hnd with ⟨hk', hc'⟩ | hnd
      · have := maximum_lt (hk' ▸ hk.1)
        have := hn.2
        rw [hk', hc'] at he
        omega
      · exact hnd ⟨n, by rw [← he, mul_comm]⟩
    have hcond : ¬ (t ≠ .hugeint ∧ k = t.minimum ∧ c = -1) := by
      rintro ⟨hth, hkm, hc1⟩
      rcases hnd with ⟨hk', -⟩ | hnd
      · exact hth (eq_hugeint_of_minimum (hkm.symm.trans hk'))
      · exact hnd ⟨-k, by rw [hc1, neg_mul_neg, one_mul]⟩
    rw [if_pos hnd]
    refine ⟨fun _ h => hcond ⟨h.1, h.2.1, h.2.2.1⟩, fun _ => ?_⟩
    split_ifs with heq hne'
    · exact right_fixed_false heq hne
    · exact right_fixed_true hne' hne
    · trivial
  rw [if_neg hnd]
  obtain ⟨hguard, hdvd⟩ := not_or.mp hnd
  by_cases hover : k = t.minimum ∧ c = -1
  · obtain ⟨hkm, hc1⟩ := hover
    obtain ⟨hmax, hmin⟩ := bounds_cases t
    have hth : t ≠ .hugeint := by
      rintro rfl
      exact hguard ⟨hkm, hc1⟩
    have hsigned : t.minimum = -t.maximum - 1 := by
      have := hc.1
      omega
    have hnot : ¬ t.Holds (k / c) := by
      rw [hc1, Int.ediv_neg, Int.ediv_one]
      rintro ⟨-, h⟩
      omega
    rw [if_neg hnot]
    have hfixed := fixed_minimum_iff b.leftComparison (m := k) (M := t.maximum) (by omega) (by omega)
    constructor
    · rintro ⟨hd, h⟩ ⟨-, -, -, hne⟩
      refine hne (hfixed.mp ⟨fun hd' => hd (isDistinct_leftward.mp hd'), fun n hn hn' => ?_⟩)
      have hop : b.operation c (-n) = n := by rw [operation_times hf, hc1, neg_mul_neg, mul_one]
      have := h (-n) ⟨by omega, by omega⟩ (by rw [hop]; exact ⟨by omega, hn'⟩)
      rw [hop] at this
      exact this
    · intro h
      have htype := of_not_not fun hne => h ⟨hth, hkm, hc1, hne⟩
      obtain ⟨hd, hfalse⟩ := hfixed.mpr htype
      refine ⟨fun hd' => hd (isDistinct_leftward.mpr hd'), fun n hn hop => hfalse _ ?_ hop.2⟩
      have := hn.2
      rw [operation_times hf, hc1]
      omega
  · have hquotient := holds_div hc hk h0 (not_not.mp hdvd) hover
    have hmirrors := mirrors_times (r := k / c) hf h0
    rw [Int.ediv_mul_cancel (not_not.mp hdvd)] at hmirrors
    rw [if_pos hquotient]
    exact ⟨fun _ h => hover ⟨h.2.1, h.2.2.1⟩, fun _ => right_moved hmirrors⟩

/-! ## Constants of `UHUGEINT` -/

section Uhugeint

variable {b : Bindings .uhugeint} {c k r r' : Int}

theorem holds_uhugeint {n : Int} : IntegerType.uhugeint.Holds n ↔ 0 ≤ n ∧ n ≤ 2 ^ 128 - 1 := Iff.rfl

theorem isOrder_leftComparison : b.leftComparison.IsOrder ↔ b.comparison.IsOrder := by
  unfold leftComparison leftward
  split_ifs
  · exact b.comparison.isOrder_flip
  · rfl

/-- Sums and differences that are read as `r'` in the place of `r`: the rule is wrong about an equality where `P` holds, and
about an order where `Q` does. -/
theorem right_fit_uhugeint {flipped : Bool} {P Q : Prop} (lo hi : Int) (h : b.Mirrors c k r flipped)
    (hdomain : ∀ n, IntegerType.uhugeint.Holds n ∧ IntegerType.uhugeint.Holds (b.operation c n) ↔ lo ≤ n ∧ n ≤ hi)
    (hne : lo ≤ hi) (hshift : 0 ≤ r' → r' = r ∨ r < lo ∧ hi < r' ∨ r' < lo ∧ hi < r) (hlt : r' < 2 ^ 128)
    (hP : P ↔ Hugeint.InRange r' ∧ r' < 0 ∧ lo ≤ r ∧ r ≤ hi) (hQ : Q ↔ Hugeint.InRange r' ∧ 0 ≤ r' ∧ r' ≠ r) :
    b.Right k c (fit .uhugeint b.comparison flipped r') ↔ ¬ (b.comparison = .compareEqual ∧ P ∨ b.comparison.IsOrder ∧ Q) := by
  rw [hP, hQ]
  unfold fit
  split_ifs with hrange hholds heq
  · rw [holds_uhugeint] at hholds
    by_cases hr : r' = r
    · rw [hr]
      refine ⟨fun _ => ?_, fun _ => right_moved h⟩
      rintro (⟨-, -, hneg, -⟩ | ⟨-, -, -, hne⟩)
      · omega
      · exact hne rfl
    · have hsides := (hshift hholds.1).resolve_left hr
      have hside (n : Int) (hn : lo ≤ n ∧ n ≤ hi) :
          (b.leftward (b.turned flipped)).compare n r' = (b.leftward (b.turned flipped)).compare n r ↔
            ¬ (b.leftward (b.turned flipped)).IsOrder := ComparisonType.compare_outside _ (by omega)
      have horder : (b.leftward (b.turned flipped)).IsOrder ↔ b.comparison.IsOrder := by
        rw [leftward_turned, ← isOrder_leftComparison]
        split_ifs
        · exact b.leftComparison.isOrder_flip
        · rfl
      constructor
      · rintro hright (⟨-, -, hneg, -⟩ | ⟨ho, -⟩)
        · omega
        · obtain ⟨hn, hop⟩ := (hdomain lo).mpr ⟨le_refl _, hne⟩
          exact (hside lo ⟨le_refl _, hne⟩).mp ((hright lo hn hop).trans (h.compare lo).symm) (horder.mpr ho)
      · intro hnot n hn hop
        show _ = b.leftComparison.compare _ _
        rw [← h.compare n]
        refine (hside n ((hdomain n).mp ⟨hn, hop⟩)).mpr fun ho => hnot (Or.inr ⟨horder.mp ho, hrange, hholds.1, hr⟩)
  · rw [holds_uhugeint] at hholds
    constructor
    · rintro ⟨-, hfalse⟩ (⟨-, -, -, hr⟩ | ⟨-, -, h0, -⟩)
      · obtain ⟨hn, hop⟩ := (hdomain r).mpr hr
        have hval : b.leftComparison.compare (b.operation c r) k = false := hfalse r hn hop
        rw [(leftComparison_eq_iff .compareEqual rfl).mpr heq, (h.eq_iff r).mpr rfl] at hval
        exact absurd rfl (beq_eq_false_iff_ne.mp hval)
      · omega
    · intro hnot
      refine right_fixed_false heq fun n hn hop he => hnot (Or.inl ⟨heq, hrange, by omega, ?_⟩)
      rw [← (h.eq_iff n).mp he]
      exact (hdomain n).mp ⟨hn, hop⟩
  · rw [holds_uhugeint] at hholds
    refine ⟨fun _ => ?_, fun _ => trivial⟩
    rintro (⟨he, -⟩ | ⟨-, -, h0, -⟩)
    · exact heq he
    · omega
  · refine ⟨fun _ => ?_, fun _ => trivial⟩
    rintro (⟨-, hin, -⟩ | ⟨-, hin, -⟩)
    · exact hrange hin
    · exact hrange hin

theorem read_cases {n : Int} (h : IntegerType.uhugeint.Holds n) :
    0 ≤ n ∧ n < 2 ^ 128 ∧ (n < 2 ^ 127 ∧ read .uhugeint n = n ∨ 2 ^ 127 ≤ n ∧ read .uhugeint n = n - 2 ^ 128) := by
  rw [holds_uhugeint] at h
  unfold read
  refine ⟨h.1, by omega, ?_⟩
  split_ifs with hr
  · exact Or.inr ⟨hr.2, rfl⟩
  · exact Or.inl ⟨by_contra fun hge => hr ⟨rfl, by omega⟩, rfl⟩

theorem right_plus_uhugeint (hf : b.function = .plus) (hc : IntegerType.uhugeint.Holds c)
    (hk : IntegerType.uhugeint.Holds k) :
    b.Right k c (b.decision (read .uhugeint k) (read .uhugeint c)) ↔
      ¬ (b.comparison = .compareEqual ∧ 2 ^ 127 ≤ k - c ∨ b.comparison.IsOrder ∧ 2 ^ 127 < c - k) := by
  have hop (n : Int) : b.operation c n = n + c := by
    unfold operation
    rw [hf]
    split_ifs
    · rfl
    · exact add_comm c n
  have hdecision : b.decision (read .uhugeint k) (read .uhugeint c) =
      fit .uhugeint b.comparison false (read .uhugeint k - read .uhugeint c) := by
    unfold decision
    rw [hf]
  obtain ⟨hc0, hc1, hc2⟩ := read_cases hc
  obtain ⟨hk0, hk1, hk2⟩ := read_cases hk
  generalize read .uhugeint c = c' at *
  generalize read .uhugeint k = k' at *
  rw [hdecision]
  exact right_fit_uhugeint 0 (2 ^ 128 - 1 - c) (mirrors_plus hf)
    (fun n => by rw [hop, holds_uhugeint, holds_uhugeint]; omega) (by omega) (by omega) (by omega)
    (by unfold Hugeint.InRange; omega) (by unfold Hugeint.InRange; omega)

theorem right_minus_left_uhugeint (hf : b.function = .minus) (hidx : b.arithmeticChildIndex = 0)
    (hc : IntegerType.uhugeint.Holds c) (hk : IntegerType.uhugeint.Holds k) :
    b.Right k c (b.decision (read .uhugeint k) (read .uhugeint c)) ↔
      ¬ ((c < 2 ^ 127 ↔ 2 ^ 127 ≤ k) ∧
        (b.comparison = .compareEqual ∧ k + c < 2 ^ 128 ∨ b.comparison.IsOrder ∧ 2 ^ 128 ≤ k + c)) := by
  have hop (n : Int) : b.operation c n = n - c := by
    unfold operation
    rw [hf, if_pos hidx]
    rfl
  have hdecision : b.decision (read .uhugeint k) (read .uhugeint c) =
      fit .uhugeint b.comparison false (read .uhugeint k + read .uhugeint c) := by
    unfold decision
    rw [hf]
    exact if_pos hidx
  obtain ⟨hc0, hc1, hc2⟩ := read_cases hc
  obtain ⟨hk0, hk1, hk2⟩ := read_cases hk
  generalize read .uhugeint c = c' at *
  generalize read .uhugeint k = k' at *
  rw [hdecision, and_or_left, and_left_comm, and_left_comm (b := b.comparison.IsOrder)]
  exact right_fit_uhugeint c (2 ^ 128 - 1) (mirrors_minus_left hf hidx)
    (fun n => by rw [hop, holds_uhugeint, holds_uhugeint]; omega) (by omega) (by omega) (by omega)
    (by unfold Hugeint.InRange; omega) (by unfold Hugeint.InRange; omega)

theorem right_minus_right_uhugeint (hf : b.function = .minus) (hidx : b.arithmeticChildIndex ≠ 0)
    (hc : IntegerType.uhugeint.Holds c) (hk : IntegerType.uhugeint.Holds k) :
    b.Right k c (b.decision (read .uhugeint k) (read .uhugeint c)) ↔
      ¬ (b.comparison = .compareEqual ∧ 2 ^ 127 ≤ c - k ∨ b.comparison.IsOrder ∧ 2 ^ 127 < k - c) := by
  have hop (n : Int) : b.operation c n = c - n := by
    unfold operation
    rw [hf, if_neg hidx]
    rfl
  have hdecision : b.decision (read .uhugeint k) (read .uhugeint c) =
      fit .uhugeint b.comparison true (read .uhugeint c - read .uhugeint k) := by
    unfold decision
    rw [hf]
    exact if_neg hidx
  obtain ⟨hc0, hc1, hc2⟩ := read_cases hc
  obtain ⟨hk0, hk1, hk2⟩ := read_cases hk
  generalize read .uhugeint c = c' at *
  generalize read .uhugeint k = k' at *
  rw [hdecision]
  exact right_fit_uhugeint 0 c (mirrors_minus_right hf hidx)
    (fun n => by rw [hop, holds_uhugeint, holds_uhugeint]; omega) (by omega) (by omega) (by omega)
    (by unfold Hugeint.InRange; omega) (by unfold Hugeint.InRange; omega)

/-- The products that are right, for constants `c` and `k` that are read as `c'` and `k'`. -/
def ProductAllowed (c k c' k' : Int) : ComparisonType → Prop
  | .compareEqual => ¬ (0 < c' ∧ k' < 0 ∧ c ∣ k)
  | .compareNotEqual => ¬ (0 < c' ∧ k' < 0 ∧ (c ∣ k ∨ c' ∣ k') ∨ c' < 0 ∧ 0 < k' ∧ c' ∣ k')
  | .compareDistinctFrom | .compareNotDistinctFrom =>
    ¬ ((0 < c' ∧ k' < 0 ∨ c' < 0 ∧ 0 < k') ∧ c' ∣ k')
  | type => ¬ (c' ≠ 0 ∧ (c' < 0 ∨ k' < 0) ∧ c' ∣ k' ∧ ¬ (k' = -2 ^ 127 ∧ c' = -1) ∧
      ¬ (type = .compareGreaterThan ∧ 0 < c' ∧ k' = -c' ∧ c' ∣ 2 ^ 128))

variable {c' k' : Int}

theorem fixed_product_iff (type : ComparisonType) (hc : IntegerType.uhugeint.Holds c)
    (hk : IntegerType.uhugeint.Holds k) (hcr : c' = read .uhugeint c) (hkr : k' = read .uhugeint k)
    (hsigns : 0 < c' ∧ k' < 0 ∨ c' < 0 ∧ 0 < k') (hdvd : c' ∣ k') :
    (¬ type.IsDistinct ∧ ∀ n, 0 ≤ n → n * c ≤ 2 ^ 128 - 1 → type.compare (n * c) k = false) ↔
      ProductAllowed c k c' k' type := by
  obtain ⟨hc0, hc1, hc2⟩ := read_cases hc
  obtain ⟨hk0, hk1, hk2⟩ := read_cases hk
  rw [← hcr] at hc2
  rw [← hkr] at hk2
  have hzero (h : ∀ n, 0 ≤ n → n * c ≤ 2 ^ 128 - 1 → type.compare (n * c) k = false) :
      type.compare 0 k = false := by
    have := h 0 (le_refl _) (by omega)
    rwa [zero_mul] at this
  have hkpos : 0 < k := by omega
  -- the largest product of the type
  obtain ⟨m, hm0, hm, hm'⟩ : ∃ m, 0 ≤ m ∧ m * c ≤ 2 ^ 128 - 1 ∧ 2 ^ 128 - 1 < m * c + c := by
    refine ⟨(2 ^ 128 - 1) / c, Int.ediv_nonneg (by decide) hc0, Int.ediv_mul_le _ (by omega), ?_⟩
    have := Int.lt_ediv_add_one_mul_self (2 ^ 128 - 1) (show 0 < c by omega)
    rwa [Int.add_mul, one_mul] at this
  have hge : k ≤ m * c := by
    rcases hsigns with ⟨h1, h2⟩ | ⟨h1, h2⟩
    · have := Int.le_of_dvd (by omega) ((Int.dvd_neg).mpr hdvd)
      omega
    · -- the constant is larger than every number that is read as positive, and fits once
      have hone : 1 ≤ m := by
        by_contra hlt
        rw [show m = 0 by omega, zero_mul] at hm'
        omega
      have : c ≤ m * c := le_mul_of_one_le_left hc0 hone
      omega
  have hnd (h : c' < 0) : ¬ c ∣ k := fun hd => by
    have := Int.le_of_dvd hkpos hd
    omega
  unfold ProductAllowed
  cases type with
  | compareEqual =>
    constructor
    · rintro ⟨-, h⟩ ⟨-, -, n, hn⟩
      have hn0 : 0 ≤ n := by
        by_contra hneg
        have : c * n ≤ 0 := Int.mul_nonpos_of_nonneg_of_nonpos hc0 (by omega)
        omega
      have := h n hn0 (by rw [mul_comm, ← hn]; omega)
      exact beq_eq_false_iff_ne.mp this (by rw [hn, mul_comm])
    · intro h
      refine ⟨by decide, fun n _ _ => beq_eq_false_iff_ne.mpr fun he => ?_⟩
      have hd : c ∣ k := ⟨n, by rw [← he, mul_comm]⟩
      rcases hsigns with ⟨h1, h2⟩ | ⟨h1, -⟩
      · exact h ⟨h1, h2, hd⟩
      · exact hnd h1 hd
  | compareNotEqual =>
    refine ⟨fun h => ?_, fun h => ?_⟩
    · have := bne_eq_false_iff_eq.mp (hzero h.2)
      omega
    · rcases hsigns with ⟨h1, h2⟩ | ⟨h1, h2⟩
      · exact absurd (Or.inl ⟨h1, h2, Or.inr hdvd⟩) h
      · exact absurd (Or.inr ⟨h1, h2, hdvd⟩) h
  | compareDistinctFrom => exact ⟨fun h => absurd (Or.inl rfl) h.1, fun h => absurd ⟨hsigns, hdvd⟩ h⟩
  | compareNotDistinctFrom => exact ⟨fun h => absurd (Or.inr rfl) h.1, fun h => absurd ⟨hsigns, hdvd⟩ h⟩
  | compareLessThan =>
    refine ⟨fun h => absurd hkpos (of_decide_eq_false (hzero h.2)), fun h => absurd ?_ h⟩
    exact ⟨by omega, by omega, hdvd, by omega, fun h => ComparisonType.noConfusion h.1⟩
  | compareLessThanOrEqualTo =>
    refine ⟨fun h => absurd hkpos.le (of_decide_eq_false (hzero h.2)), fun h => absurd ?_ h⟩
    exact ⟨by omega, by omega, hdvd, by omega, fun h => ComparisonType.noConfusion h.1⟩
  | compareGreaterThanOrEqualTo =>
    refine ⟨fun h => absurd hge (of_decide_eq_false (h.2 m hm0 hm)), fun h => absurd ?_ h⟩
    exact ⟨by omega, by omega, hdvd, by omega, fun h => ComparisonType.noConfusion h.1⟩
  | compareGreaterThan =>
    constructor
    · rintro ⟨-, h⟩ ⟨-, -, -, -, hnot⟩
      have hle : m * c ≤ k := not_lt.mp (of_decide_eq_false (h m hm0 hm))
      rcases hsigns with ⟨h1, h2⟩ | ⟨h1, h2⟩
      · -- the largest product is `2^128 - c`, and the constant is not above it
        have := Int.le_of_dvd (by omega) ((Int.dvd_neg).mpr hdvd)
        have hc' : c' = c := by omega
        refine hnot ⟨rfl, h1, by omega, m + 1, ?_⟩
        rw [hc', mul_comm, Int.add_mul, one_mul]
        omega
      · exact absurd (le_antisymm hge hle ▸ ⟨m, mul_comm m c⟩) (hnd h1)
    · intro h
      obtain ⟨-, h1, hk', e, he⟩ := of_not_not fun hnot => h ⟨by omega, by omega, hdvd, by omega, hnot⟩
      obtain rfl : c' = c := by omega
      refine ⟨by decide, fun n hn hprod => decide_eq_false (not_lt.mpr ?_)⟩
      have hlt : n < e := by
        by_contra hle
        have : c' * e ≤ n * c' := by
          rw [mul_comm n]
          exact Int.mul_le_mul_of_nonneg_left (by omega) hc0
        omega
      have : n * c' + c' ≤ c' * e := by
        rw [← add_one_mul, mul_comm]
        exact Int.mul_le_mul_of_nonneg_left (by omega) hc0
      omega

/-- Where the constants are not divisible as they are read, no operand has the product, unless the outer constant is
read as negative and the inner constant is not. -/
theorem read_dvd_of_dvd (hc : IntegerType.uhugeint.Holds c) (hk : IntegerType.uhugeint.Holds k)
    (hcr : c' = read .uhugeint c) (hkr : k' = read .uhugeint k) (h0 : c' ≠ 0) (hdvd : c ∣ k) :
    c' ∣ k' ∧ (k' < 0 → c' < 0 → k' = c') ∨ 0 < c' ∧ k' < 0 := by
  obtain ⟨hc0, hc1, hc2⟩ := read_cases hc
  obtain ⟨hk0, hk1, hk2⟩ := read_cases hk
  rw [← hcr] at hc2
  rw [← hkr] at hk2
  by_cases hneg : c' < 0
  · left
    rcases eq_or_lt_of_le hk0 with h | h
    · rw [show k' = 0 by omega]
      exact ⟨dvd_zero _, fun h => absurd h (lt_irrefl _)⟩
    · -- twice the inner constant is not in the type
      have hle := Int.le_of_dvd h hdvd
      have hsub : c ∣ k - c := Int.dvd_sub hdvd (dvd_refl c)
      have hz : k - c = 0 := Int.eq_zero_of_dvd_of_nonneg_of_lt (by omega) (by omega) hsub
      have hk' : k' = c' := by omega
      rw [hk']
      exact ⟨dvd_refl _, fun _ _ => rfl⟩
  · by_cases hk' : k' < 0
    · exact Or.inr ⟨by omega, hk'⟩
    · left
      rw [show c' = c by omega, show k' = k by omega]
      exact ⟨hdvd, fun h => by omega⟩

theorem right_moved_negative {q : Int} (hf : b.function = .times) (hc : IntegerType.uhugeint.Holds c)
    (hk : IntegerType.uhugeint.Holds k) (hcr : c' = read .uhugeint c) (hkr : k' = read .uhugeint k) (hneg : c' < 0)
    (hq : 0 ≤ q) (hprod : k' = c' * q) : b.Right k c (.moved true q) ↔ ¬ b.leftComparison.IsOrder := by
  obtain ⟨hc0, hc1, hc2⟩ := read_cases hc
  obtain ⟨hk0, hk1, hk2⟩ := read_cases hk
  rw [← hcr] at hc2
  rw [← hkr] at hk2
  have hop := operation_times hf c
  have hmoved (n : Int) : (b.leftward (b.turned true)).compare n q = b.leftComparison.compare q n := by
    rw [leftward_turned, if_pos rfl, ComparisonType.flip_compare]
  have hzero : IntegerType.uhugeint.Holds (b.operation c 0) := by
    rw [hop, zero_mul]
    exact ⟨le_refl _, by decide⟩
  have hone : IntegerType.uhugeint.Holds (b.operation c 1) := by rwa [hop, one_mul]
  -- the inner constant only fits once
  have hdomain (n : Int) (hn : IntegerType.uhugeint.Holds (b.operation c n)) (hn0 : 0 ≤ n) : n = 0 ∨ n = 1 := by
    rw [hop, holds_uhugeint] at hn
    by_contra hlarge
    have : 2 * c ≤ n * c := Int.mul_le_mul_of_nonneg_right (by omega) hc0
    omega
  have hq0 : k = 0 ↔ q = 0 := by
    constructor
    · intro h
      rcases Int.mul_eq_zero.mp (show c' * q = 0 by omega) with h | h <;> omega
    · intro h
      rw [h, mul_zero] at hprod
      omega
  constructor
  · intro hright horder
    have h0 := hright 0 ⟨le_refl _, by decide⟩ hzero
    have h1 := hright 1 ⟨by decide, by decide⟩ hone
    rw [hmoved, hop] at h0 h1
    change b.leftComparison.compare q 0 = b.leftComparison.compare (0 * c) k at h0
    change b.leftComparison.compare q 1 = b.leftComparison.compare (1 * c) k at h1
    generalize b.leftComparison = type at *
    cases type with
    | compareEqual | compareNotEqual | compareDistinctFrom | compareNotDistinctFrom => exact horder
    | _ =>
      simp only [ComparisonType.compare, decide_eq_decide, zero_mul, one_mul] at h0 h1
      omega
  · intro horder n hn hprodn
    show _ = b.leftComparison.compare _ _
    rw [hmoved, hop]
    have hiff : q = n ↔ n * c = k := by
      rcases hdomain n hprodn hn.1 with rfl | rfl
      · rw [zero_mul, ← hq0, eq_comm]
      · rw [one_mul]
        constructor
        · intro h
          rw [h, mul_one] at hprod
          omega
        · intro h
          have hsame : c' * q = c' * 1 := by omega
          exact Int.eq_of_mul_eq_mul_left (by omega) hsame
    generalize b.leftComparison = type at *
    cases type with
    | compareEqual | compareNotDistinctFrom =>
      simp only [ComparisonType.compare, beq_eq_decide, hiff]
    | compareNotEqual | compareDistinctFrom =>
      simp only [ComparisonType.compare, bne, beq_eq_decide, hiff]
    | _ => exact absurd trivial horder

theorem productAllowed_negative (type : ComparisonType) (hc : c' < 0) (hk : k' ≤ 0) (hdvd : c' ∣ k')
    (hguard : ¬ (k' = -2 ^ 127 ∧ c' = -1)) : ProductAllowed c k c' k' type ↔ ¬ type.IsOrder := by
  unfold ProductAllowed ComparisonType.IsOrder
  cases type with
  | compareEqual | compareNotEqual | compareDistinctFrom | compareNotDistinctFrom =>
    simp only [not_false_eq_true, iff_true]
    omega
  | _ =>
    simp only [not_true_eq_false, iff_false, not_not]
    exact ⟨by omega, Or.inl hc, hdvd, hguard, by omega⟩

theorem productAllowed_of_not (type : ComparisonType)
    (h : c' = 0 ∨ ((k' = -2 ^ 127 ∧ c' = -1 ∨ ¬ c' ∣ k') ∧ type ≠ .compareEqual ∧ type ≠ .compareNotEqual) ∨
      0 < c' ∧ 0 ≤ k') : ProductAllowed c k c' k' type := by
  unfold ProductAllowed
  cases type with
  | compareEqual | compareNotEqual =>
    simp only [ne_eq, not_true_eq_false, and_false, false_and, false_or] at h
    omega
  | compareDistinctFrom | compareNotDistinctFrom | compareLessThan | compareLessThanOrEqualTo |
    compareGreaterThan | compareGreaterThanOrEqualTo =>
    rcases h with h | ⟨⟨h, h'⟩ | h, -⟩ | h
    · omega
    · omega
    · simp only [h, and_false, false_and, not_false_eq_true]
    · omega

theorem right_times_uhugeint (hf : b.function = .times) (hc : IntegerType.uhugeint.Holds c)
    (hk : IntegerType.uhugeint.Holds k) :
    b.Right k c (b.decision (read .uhugeint k) (read .uhugeint c)) ↔
      ProductAllowed c k (read .uhugeint c) (read .uhugeint k) b.leftComparison := by
  obtain ⟨hc0, hc1, hc2⟩ := read_cases hc
  obtain ⟨hk0, hk1, hk2⟩ := read_cases hk
  have hread := read_dvd_of_dvd (c := c) (k := k) hc hk rfl rfl
  have hfixed := fun hsigns hdvd => fixed_product_iff (c := c) (k := k) b.leftComparison hc hk rfl rfl hsigns hdvd
  have hnegative := fun q => right_moved_negative (b := b) (c := c) (k := k) (q := q) hf hc hk rfl rfl
  have hdecision : b.decision (read .uhugeint k) (read .uhugeint c) =
      if read .uhugeint c = 0 then .unchanged
      else if read .uhugeint k = -2 ^ 127 ∧ read .uhugeint c = -1 ∨ ¬ read .uhugeint c ∣ read .uhugeint k then
        if b.comparison = .compareEqual then .fixed false
        else if b.comparison = .compareNotEqual then .fixed true
        else .unchanged
      else if IntegerType.uhugeint.Holds (read .uhugeint k / read .uhugeint c) then
        .moved (decide (read .uhugeint c < 0)) (read .uhugeint k / read .uhugeint c)
      else .fixed false := by
    unfold decision
    rw [hf]
  rw [hdecision]
  generalize read .uhugeint c = c' at *
  generalize read .uhugeint k = k' at *
  by_cases h0 : c' = 0
  · rw [if_pos h0]
    exact ⟨fun _ => productAllowed_of_not _ (Or.inl h0), fun _ => trivial⟩
  rw [if_neg h0]
  by_cases hnd : k' = -2 ^ 127 ∧ c' = -1 ∨ ¬ c' ∣ k'
  · -- a product is only found if the outer constant is read as negative
    have hsigns (hd : c ∣ k) : 0 < c' ∧ k' < 0 := by
      rcases hread h0 hd with ⟨hd', hsame⟩ | h
      · rcases hnd with ⟨h1, h2⟩ | h
        · have := hsame (by omega) (by omega)
          omega
        · exact absurd hd' h
      · exact h
    have hnone (hd : ¬ c ∣ k) (n : Int) (_ : IntegerType.uhugeint.Holds n)
        (_ : IntegerType.uhugeint.Holds (b.operation c n)) : b.operation c n ≠ k := fun he =>
      hd ⟨n, by rw [← he, operation_times hf, mul_comm]⟩
    have hsome (hd : c ∣ k) : ∃ n, IntegerType.uhugeint.Holds n ∧ b.operation c n = k := by
      refine ⟨k / c, ⟨Int.ediv_nonneg hk0 hc0, (Int.ediv_le_self c hk0).trans hk.2⟩, ?_⟩
      rw [operation_times hf, Int.ediv_mul_cancel hd]
    rw [if_pos hnd]
    split_ifs with heq hne
    · have hleft := (leftComparison_eq_iff .compareEqual rfl).mpr heq
      rw [hleft]
      show _ ↔ ¬ (0 < c' ∧ k' < 0 ∧ c ∣ k)
      constructor
      · rintro ⟨-, hright⟩ ⟨-, -, hd⟩
        obtain ⟨n, hn, he⟩ := hsome hd
        have hval : b.leftComparison.compare _ _ = false := hright n hn (he ▸ hk)
        rw [hleft, he] at hval
        exact absurd rfl (beq_eq_false_iff_ne.mp hval)
      · exact fun h => right_fixed_false heq (hnone fun hd => h ⟨(hsigns hd).1, (hsigns hd).2, hd⟩)
    · have hleft := (leftComparison_eq_iff .compareNotEqual rfl).mpr hne
      rw [hleft]
      show _ ↔ ¬ (0 < c' ∧ k' < 0 ∧ (c ∣ k ∨ c' ∣ k') ∨ c' < 0 ∧ 0 < k' ∧ c' ∣ k')
      have hnd' (h : c' ∣ k') (hs : 0 < c' ∨ 0 < k') : False := by
        rcases hnd with ⟨h1, h2⟩ | hnd
        · omega
        · exact hnd h
      constructor
      · rintro ⟨-, hright⟩ (⟨h1, -, hd | hd⟩ | ⟨-, h1, hd⟩)
        · obtain ⟨n, hn, he⟩ := hsome hd
          have hval : b.leftComparison.compare _ _ = true := hright n hn (he ▸ hk)
          rw [hleft, he] at hval
          exact bne_iff_ne.mp hval rfl
        · exact hnd' hd (Or.inl h1)
        · exact hnd' hd (Or.inr h1)
      · exact fun h => right_fixed_true hne (hnone fun hd => h (Or.inl ⟨(hsigns hd).1, (hsigns hd).2, Or.inl hd⟩))
    · refine ⟨fun _ => productAllowed_of_not _ (Or.inr (Or.inl ⟨hnd, ?_, ?_⟩)), fun _ => trivial⟩
      · exact mt (leftComparison_eq_iff .compareEqual rfl).mp heq
      · exact mt (leftComparison_eq_iff .compareNotEqual rfl).mp hne
  rw [if_neg hnd]
  obtain ⟨hguard, hdvd⟩ := not_or.mp hnd
  obtain ⟨q, hq⟩ := not_not.mp hdvd
  rw [show k' / c' = q by rw [hq, Int.mul_ediv_cancel_left q h0]]
  by_cases hq0 : 0 ≤ q
  · have hholds : IntegerType.uhugeint.Holds q := by
      refine ⟨hq0, ?_⟩
      by_contra hlarge
      have habs : k'.natAbs = c'.natAbs * q.natAbs := by rw [hq, Int.natAbs_mul]
      have : 1 * q.natAbs ≤ c'.natAbs * q.natAbs := Nat.mul_le_mul_right _ (by omega)
      change ¬ q ≤ 2 ^ 128 - 1 at hlarge
      omega
    rw [if_pos hholds]
    by_cases hneg : c' < 0
    · have hk' : k' ≤ 0 := by
        rw [hq]
        exact Int.mul_nonpos_of_nonpos_of_nonneg hneg.le hq0
      rw [decide_eq_true hneg, hnegative q hneg hq0 hq, productAllowed_negative _ hneg hk' ⟨q, hq⟩ hguard]
    · have hpos : 0 < c' := by omega
      have hk' : 0 ≤ k' := by
        rw [hq]
        exact Int.mul_nonneg hpos.le hq0
      have hmirrors := mirrors_times (b := b) (c := c') (r := q) hf h0
      rw [mul_comm q, ← hq, show c' = c by omega, show k' = k by omega] at hmirrors
      rw [show c' = c by omega, show k' = k by omega]
      exact ⟨fun _ => productAllowed_of_not _ (Or.inr (Or.inr ⟨by omega, by omega⟩)), fun _ => right_moved hmirrors⟩
  · have hsigns : 0 < c' ∧ k' < 0 ∨ c' < 0 ∧ 0 < k' := by
      rcases lt_or_gt_of_ne h0 with hneg | hpos
      · exact Or.inr ⟨hneg, by rw [hq]; exact Int.mul_pos_of_neg_of_neg hneg (by omega)⟩
      · exact Or.inl ⟨hpos, by rw [hq]; exact Int.mul_neg_of_pos_of_neg hpos (by omega)⟩
    rw [if_neg fun h => hq0 h.1, ← hfixed hsigns ⟨q, hq⟩]
    show (¬ b.comparison.IsDistinct ∧ ∀ n, _ → _ → b.leftComparison.compare (b.operation c n) k = false) ↔ _
    rw [← isDistinct_leftward]
    simp only [operation_times hf]
    refine and_congr_right fun _ => ⟨fun h n hn hprod => ?_, fun h n hn hprod => h n hn.1 hprod.2⟩
    have hle : n ≤ n * c := le_mul_of_one_le_right hn (by omega)
    exact h n ⟨hn, hle.trans hprod⟩ ⟨Int.mul_nonneg hn hc0, hprod⟩

end Uhugeint

/-! ## Every type -/

/-- The outer constant `k` and the inner constant `c` can be moved. -/
def Movable (b : Bindings t) (k c : Int) : Prop :=
  if t = .uhugeint then
    match b.function with
    | .plus => ¬ (b.comparison = .compareEqual ∧ 2 ^ 127 ≤ k - c ∨ b.comparison.IsOrder ∧ 2 ^ 127 < c - k)
    | .minus =>
      if b.arithmeticChildIndex = 0 then
        ¬ ((c < 2 ^ 127 ↔ 2 ^ 127 ≤ k) ∧
          (b.comparison = .compareEqual ∧ k + c < 2 ^ 128 ∨ b.comparison.IsOrder ∧ 2 ^ 128 ≤ k + c))
      else ¬ (b.comparison = .compareEqual ∧ 2 ^ 127 ≤ c - k ∨ b.comparison.IsOrder ∧ 2 ^ 127 < k - c)
    | .times => ProductAllowed c k (read t c) (read t k) b.leftComparison
  else
    ¬ (b.function = .times ∧ t ≠ .hugeint ∧ k = t.minimum ∧ c = -1 ∧ ¬ (b.leftComparison = .compareEqual ∨
      b.leftComparison = .compareLessThan ∨ b.leftComparison = .compareLessThanOrEqualTo))

/-- A constant is NULL, or both constants can be read and moved. -/
def Allowed (b : Bindings t) : Prop :=
  ∀ inner outer, b.innerConstant = some inner → b.outerConstant = some outer →
    ¬ Unreadable t (t.internalType.toInt inner) ∧ ¬ Unreadable t (t.internalType.toInt outer) ∧
      b.Movable (t.internalType.toInt outer) (t.internalType.toInt inner)

theorem right_iff_movable (hc : t.Holds c) (hk : t.Holds k) :
    b.Right k c (b.decision (read t k) (read t c)) ↔ b.Movable k c := by
  unfold Movable
  by_cases ht : t = .uhugeint
  · subst ht
    rw [if_pos rfl]
    cases hf : b.function with
    | plus => exact right_plus_uhugeint hf hc hk
    | minus =>
      by_cases hidx : b.arithmeticChildIndex = 0
      · simp only [if_pos hidx]
        exact right_minus_left_uhugeint hf hidx hc hk
      · simp only [if_neg hidx]
        exact right_minus_right_uhugeint hf hidx hc hk
    | times => exact right_times_uhugeint hf hc hk
  · have hread (n : Int) : read t n = n := if_neg fun h => ht h.1
    rw [if_neg ht, hread, hread]
    by_cases hf : b.function = .times
    · rw [right_times hf hc hk]
      simp only [hf, true_and]
    · refine ⟨fun _ h => hf h.1, fun _ => ?_⟩
      unfold decision
      cases hf' : b.function with
      | plus => exact right_fit (mirrors_plus hf')
      | minus =>
        by_cases hidx : b.arithmeticChildIndex = 0
        · simp only [if_pos hidx]
          exact right_fit (mirrors_minus_left hf' hidx)
        · simp only [if_neg hidx]
          exact right_fit (mirrors_minus_right hf' hidx)
      | times => exact absurd hf' hf

theorem not_preserves_of_unreadable {inner outer : t.internalType.Value} (hinner : b.innerConstant = some inner)
    (houter : b.outerConstant = some outer)
    (h : Unreadable t (t.internalType.toInt inner) ∨ Unreadable t (t.internalType.toInt outer)) : ¬ b.Preserves := by
  rintro ⟨a, happly, -⟩
  unfold apply at happly
  rw [hinner, houter] at happly
  by_cases hk : Unreadable t (t.internalType.toInt outer)
  · obtain ⟨message, herror⟩ := integralValueGet_error hk
    simp only [herror, Outcome.error_bind, reduceCtorEq] at happly
  · obtain ⟨message, herror⟩ := integralValueGet_error (h.resolve_right hk)
    obtain ⟨number, hread, -⟩ := integralValueGet_done hk
    simp only [hread, herror, Outcome.done_bind, Outcome.error_bind, reduceCtorEq] at happly

/-- The rule preserves the value of a comparison exactly when its constants can be read and moved. -/
theorem preserves_iff_allowed (b : Bindings t) : b.Preserves ↔ b.Allowed := by
  cases hinner : b.innerConstant with
  | none =>
    refine ⟨fun _ inner _ h => ?_, fun _ => preserves_null (Or.inl hinner)⟩
    rw [hinner] at h
    cases h
  | some inner =>
    cases houter : b.outerConstant with
    | none =>
      refine ⟨fun _ _ outer _ h => ?_, fun _ => preserves_null (Or.inr houter)⟩
      rw [houter] at h
      cases h
    | some outer =>
      have hallowed : b.Allowed ↔ ¬ Unreadable t (t.internalType.toInt inner) ∧
          ¬ Unreadable t (t.internalType.toInt outer) ∧
            b.Movable (t.internalType.toInt outer) (t.internalType.toInt inner) := by
        refine ⟨fun h => h inner outer hinner houter, ?_⟩
        rintro h inner' outer' hinner' houter'
        rw [hinner] at hinner'
        rw [houter] at houter'
        cases hinner'
        cases houter'
        exact h
      rw [hallowed]
      by_cases hread : Unreadable t (t.internalType.toInt inner) ∨ Unreadable t (t.internalType.toInt outer)
      · exact ⟨fun h => absurd h (not_preserves_of_unreadable hinner houter hread),
          fun h => absurd hread (not_or.mpr ⟨h.1, h.2.1⟩)⟩
      · obtain ⟨hc, hk⟩ := not_or.mp hread
        obtain ⟨c, hcread, hcint⟩ := integralValueGet_done hc
        obtain ⟨k, hkread, hkint⟩ := integralValueGet_done hk
        obtain ⟨a, happly, hleaves⟩ := apply_spec hinner houter hcread hkread
        rw [preserves_iff_right hinner houter happly hleaves, hcint, hkint,
          right_iff_movable (t.holds_toInt inner) (t.holds_toInt outer)]
        exact ⟨fun h => ⟨hc, hk, h⟩, fun h => h.2.2⟩

/-- `x * -1 <> -128` in `TINYINT`: the rule answers FALSE where 0 makes it TRUE. -/
def timesMinusOne : Bindings .tinyint where
  comparison := .compareNotEqual
  outerLeft := false
  outerConstant := some (-128 : BitVec 8)
  function := .times
  arithmeticChildIndex := 0
  innerConstant := some (-1 : BitVec 8)

theorem not_preserves_timesMinusOne : ¬ timesMinusOne.Preserves := by
  obtain ⟨c, hcread, hcint⟩ := integralValueGet_done (t := .tinyint) (v := (-1 : BitVec 8)) (by decide)
  obtain ⟨k, hkread, hkint⟩ := integralValueGet_done (t := .tinyint) (v := (-128 : BitVec 8)) (by decide)
  obtain ⟨a, happly, hleaves⟩ := apply_spec (b := timesMinusOne) rfl rfl hcread hkread
  rw [preserves_iff_right rfl rfl happly hleaves, hcint, hkint]
  show ¬ timesMinusOne.Right (-128) (-1) (timesMinusOne.decision (-128) (-1))
  rw [right_times rfl (by decide) (by decide)]
  decide

end Bindings

end Haybarn.Optimizer
