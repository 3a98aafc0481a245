/-
The 128-bit integers as two limbs, from `hugeint.cpp`: comparison, negation, addition and subtraction. Every
operation is compared with the integer that the limbs stand for.
-/
import Haybarn.Common.Radix

namespace Haybarn.Common.Hugeint

/-! ## Values -/

/-- The integer of a `hugeint_t`. -/
def toInt (a : Hugeint) : Int := a.upper.toInt * 2 ^ 64 + a.lower.toNat

/-- The number of the same bits without a sign. -/
def toNat (a : Hugeint) : Nat := a.upper.toNat * 2 ^ 64 + a.lower.toNat

def minimum : Hugeint := ⟨BitVec.intMin 64, 0⟩

/-- `HugeintConvertInteger`, of the value of an integer type of at most 64 bits. -/
def convertInteger (input : Int) : Hugeint := ⟨if input < 0 then -1 else 0, BitVec.ofInt 64 input⟩

/-- The integers that a `hugeint_t` can hold. -/
def InRange (n : Int) : Prop := -2 ^ 127 ≤ n ∧ n < 2 ^ 127

instance (n : Int) : Decidable (InRange n) := inferInstanceAs (Decidable (_ ∧ _))

/-- A computation of `n` that may fail: it succeeds exactly when `n` is in range, and stores it. -/
def Computes (result : Option Hugeint) (n : Int) : Prop :=
  (InRange n → ∃ c, result = some c ∧ c.toInt = n) ∧ (¬ InRange n → result = none)

/-- A computation of `n` in the place of an operand, which it leaves alone when it fails. -/
def ComputesInPlace (result : Bool × Hugeint) (operand : Hugeint) (n : Int) : Prop :=
  (InRange n → result.1 = true ∧ result.2.toInt = n) ∧ (¬ InRange n → result = (false, operand))

theorem limb_cases (x : BitVec 64) :
    (x.toNat < 2 ^ 63 ∧ x.toInt = x.toNat) ∨
      (2 ^ 63 ≤ x.toNat ∧ x.toNat < 2 ^ 64 ∧ x.toInt = x.toNat - 2 ^ 64) := by
  have hlt := x.isLt
  rw [BitVec.toInt_eq_toNat_cond]
  split_ifs with h
  · exact Or.inl ⟨by omega, rfl⟩
  · exact Or.inr ⟨by omega, hlt, by norm_cast⟩

theorem toNat_lt (a : Hugeint) : a.toNat < 2 ^ 128 := by
  have hupper := a.upper.isLt
  have hlower := a.lower.isLt
  unfold toNat
  omega

theorem toInt_cases (a : Hugeint) :
    (a.toNat < 2 ^ 127 ∧ a.toInt = a.toNat) ∨ (2 ^ 127 ≤ a.toNat ∧ a.toInt = a.toNat - 2 ^ 128) := by
  have hlower := a.lower.isLt
  unfold toNat toInt
  rcases limb_cases a.upper with ⟨h, hint⟩ | ⟨h, hlt, hint⟩
  · exact Or.inl (by omega)
  · exact Or.inr (by omega)

variable {a b : Hugeint} {x : BitVec 64}

theorem toInt_eq_toNat (h : a.toNat < 2 ^ 127) : a.toInt = a.toNat := by
  rcases a.toInt_cases with ha | ha
  · exact ha.2
  · omega

theorem toNat_lt_of_nonneg (h : 0 ≤ a.toInt) : a.toNat < 2 ^ 127 := by
  have := a.toNat_lt
  rcases a.toInt_cases with ha | ha
  · exact ha.1
  · omega

theorem inRange_toInt (a : Hugeint) : InRange a.toInt := by
  have := a.toNat_lt
  unfold InRange
  rcases a.toInt_cases with h | h <;> omega

theorem toNat_injective (h : a.toNat = b.toNat) : a = b := by
  obtain ⟨au, al⟩ := a
  obtain ⟨bu, bl⟩ := b
  simp only [toNat] at h
  simp only [mk.injEq]
  exact ⟨BitVec.eq_of_toNat_eq (by omega), BitVec.eq_of_toNat_eq (by omega)⟩

theorem toInt_injective (h : a.toInt = b.toInt) : a = b := by
  apply toNat_injective
  have ha := a.toNat_lt
  have hb := b.toNat_lt
  rcases a.toInt_cases with ha' | ha' <;> rcases b.toInt_cases with hb' | hb' <;> omega

theorem toInt_inj : a.toInt = b.toInt ↔ a = b := ⟨toInt_injective, fun h => h ▸ rfl⟩

theorem toInt_eq_of_emod {n : Int} (hn : InRange n) (h : (a.toNat : Int) % 2 ^ 128 = n % 2 ^ 128) :
    a.toInt = n := by
  have ha := a.toNat_lt
  unfold InRange at hn
  rcases a.toInt_cases with ha' | ha' <;> omega

@[simp] theorem toInt_minimum : minimum.toInt = -2 ^ 127 := by decide

@[simp] theorem toInt_convertInteger {n : Int} (h : -2 ^ 63 ≤ n ∧ n < 2 ^ 64) : (convertInteger n).toInt = n := by
  apply toInt_eq_of_emod (by unfold InRange; omega)
  unfold toNat convertInteger
  simp only [BitVec.toNat_ofInt]
  split_ifs with hneg
  · have : (-1 : BitVec 64).toNat = 2 ^ 64 - 1 := by decide
    rw [this]
    omega
  · have : (0 : BitVec 64).toNat = 0 := rfl
    rw [this]
    omega

@[simp] theorem toInt_zero : (convertInteger 0).toInt = 0 := toInt_convertInteger (by decide)

@[simp] theorem toInt_one : (convertInteger 1).toInt = 1 := toInt_convertInteger (by decide)

theorem upper_slt_zero (a : Hugeint) : a.upper.slt 0 = decide (a.toInt < 0) := by
  have := a.lower.isLt
  have hzero : (0 : BitVec 64).toInt = 0 := rfl
  simp only [BitVec.slt, hzero, toInt]
  congr 1
  apply propext
  omega

/-! ## Comparison -/

def greaterThan (lhs rhs : Hugeint) : Bool :=
  rhs.upper.slt lhs.upper || (lhs.upper == rhs.upper && rhs.lower.ult lhs.lower)

def greaterThanEquals (lhs rhs : Hugeint) : Bool :=
  rhs.upper.slt lhs.upper || (lhs.upper == rhs.upper && rhs.lower.ule lhs.lower)

def lessThan (lhs rhs : Hugeint) : Bool :=
  lhs.upper.slt rhs.upper || (lhs.upper == rhs.upper && lhs.lower.ult rhs.lower)

@[simp] theorem greaterThan_iff : greaterThan a b = true ↔ b.toInt < a.toInt := by
  have ha := a.lower.isLt
  have hb := b.lower.isLt
  simp only [greaterThan, Bool.or_eq_true, BitVec.slt_iff_toInt_lt, Bool.and_eq_true, beq_iff_eq, BitVec.ult,
    decide_eq_true_eq, ← BitVec.toInt_inj, toInt]
  omega

@[simp] theorem greaterThanEquals_iff : greaterThanEquals a b = true ↔ b.toInt ≤ a.toInt := by
  have ha := a.lower.isLt
  have hb := b.lower.isLt
  simp only [greaterThanEquals, Bool.or_eq_true, BitVec.slt_iff_toInt_lt, Bool.and_eq_true, beq_iff_eq, BitVec.ule,
    decide_eq_true_eq, ← BitVec.toInt_inj, toInt]
  omega

@[simp] theorem lessThan_iff : lessThan a b = true ↔ a.toInt < b.toInt := by
  have ha := a.lower.isLt
  have hb := b.lower.isLt
  simp only [lessThan, Bool.or_eq_true, BitVec.slt_iff_toInt_lt, Bool.and_eq_true, beq_iff_eq, BitVec.ult,
    decide_eq_true_eq, ← BitVec.toInt_inj, toInt]
  omega

/-! ## Negation -/

def negateInPlace (input : Hugeint) : Hugeint :=
  let lower := BitVec.allOnes 64 - input.lower + 1
  ⟨-1 - input.upper + (if lower = 0 then 1 else 0), lower⟩

def tryNegate (input : Hugeint) : Option Hugeint :=
  if input.upper = BitVec.intMin 64 ∧ input.lower = 0 then none else some (negateInPlace input)

theorem negateInPlace_eq (a : Hugeint) :
    negateInPlace a = ⟨~~~ a.upper + (if -a.lower = 0 then 1 else 0), -a.lower⟩ := by
  have hlower : BitVec.allOnes 64 - a.lower + 1 = -a.lower := by
    rw [BitVec.allOnes_sub_eq_not]
    exact (BitVec.neg_eq_not_add a.lower).symm
  have hupper : -1 - a.upper = ~~~ a.upper := by
    rw [← BitVec.allOnes_sub_eq_not]
    rfl
  simp only [negateInPlace, hlower, hupper]

theorem toNat_negateInPlace (a : Hugeint) : (negateInPlace a).toNat = (2 ^ 128 - a.toNat) % 2 ^ 128 := by
  have hupper := a.upper.isLt
  have hlower := a.lower.isLt
  have hzero : (0 : BitVec 64).toNat = 0 := rfl
  have hone : (1 : BitVec 64).toNat = 1 := rfl
  rw [negateInPlace_eq]
  simp only [toNat, ← BitVec.toNat_inj, BitVec.toNat_add, BitVec.toNat_neg, BitVec.toNat_not, apply_ite BitVec.toNat,
    hzero, hone]
  split_ifs <;> omega

theorem toInt_negateInPlace (h : a ≠ minimum) : (negateInPlace a).toInt = -a.toInt := by
  have hrange := a.inRange_toInt
  have hmin : a.toInt ≠ -2 ^ 127 := fun he => h (toInt_injective (he.trans toInt_minimum.symm))
  apply toInt_eq_of_emod
  · unfold InRange at hrange ⊢
    omega
  · have := a.toNat_lt
    rw [toNat_negateInPlace]
    rcases a.toInt_cases with ha | ha <;> omega

theorem tryNegate_eq (a : Hugeint) : tryNegate a = if a = minimum then none else some (negateInPlace a) := by
  obtain ⟨au, al⟩ := a
  simp only [tryNegate, minimum, mk.injEq]

theorem ne_minimum_iff : a ≠ minimum ↔ a.toInt ≠ -2 ^ 127 := by
  rw [ne_eq, ← toInt_inj, toInt_minimum]

theorem computes_tryNegate (a : Hugeint) : Computes (tryNegate a) (-a.toInt) := by
  have hrange := a.inRange_toInt
  unfold InRange at hrange
  rw [tryNegate_eq]
  by_cases h : a = minimum
  · rw [if_pos h, h, toInt_minimum]
    refine ⟨fun hn => ?_, fun _ => rfl⟩
    unfold InRange at hn
    omega
  · have := ne_minimum_iff.mp h
    rw [if_neg h]
    refine ⟨fun _ => ⟨_, rfl, toInt_negateInPlace h⟩, fun hn => absurd ?_ hn⟩
    unfold InRange
    omega

/-! ## Addition and subtraction -/

/-- A comparison that is used as a number. -/
def carry (p : Prop) [Decidable p] : BitVec 64 := if p then 1 else 0

/-- `hugeint_t::operator+`. -/
def add (lhs rhs : Hugeint) : Hugeint :=
  ⟨lhs.upper + rhs.upper + carry (lhs.lower + rhs.lower < lhs.lower), lhs.lower + rhs.lower⟩

/-- `hugeint_t::operator-`. -/
def sub (lhs rhs : Hugeint) : Hugeint :=
  ⟨lhs.upper - rhs.upper - carry (lhs.lower - rhs.lower > lhs.lower), lhs.lower - rhs.lower⟩

/-- `TryAddInPlace`: whether it succeeds, and `lhs` afterwards. -/
def tryAddInPlace (lhs rhs : Hugeint) : Bool × Hugeint :=
  let overflow := carry (lhs.lower + rhs.lower < lhs.lower)
  if (0 : BitVec 64).sle rhs.upper then
    if (BitVec.intMax 64 - rhs.upper - overflow).slt lhs.upper then (false, lhs)
    else (true, ⟨lhs.upper + overflow + rhs.upper, lhs.lower + rhs.lower⟩)
  else
    if lhs.upper.slt (BitVec.intMin 64 - rhs.upper - overflow) then (false, lhs)
    else (true, ⟨lhs.upper + (overflow + rhs.upper), lhs.lower + rhs.lower⟩)

def trySubtractInPlace (lhs rhs : Hugeint) : Bool × Hugeint :=
  let underflow := carry (lhs.lower - rhs.lower > lhs.lower)
  if (0 : BitVec 64).sle rhs.upper then
    if lhs.upper.slt (BitVec.intMin 64 + rhs.upper + underflow) then (false, lhs)
    else (true, ⟨lhs.upper - rhs.upper - underflow, lhs.lower - rhs.lower⟩)
  else
    if (BitVec.intMin 64).slt lhs.upper ∧ (BitVec.intMax 64 + rhs.upper + underflow).sle (lhs.upper - 1) then
      (false, lhs)
    else (true, ⟨lhs.upper - (rhs.upper + underflow), lhs.lower - rhs.lower⟩)

theorem toNat_add (a b : Hugeint) : (add a b).toNat = (a.toNat + b.toNat) % 2 ^ 128 := by
  have ha := a.lower.isLt
  have hb := b.lower.isLt
  have hzero : (0 : BitVec 64).toNat = 0 := rfl
  have hone : (1 : BitVec 64).toNat = 1 := rfl
  simp only [add, carry, toNat, BitVec.toNat_add, apply_ite BitVec.toNat, BitVec.lt_def, hzero, hone]
  split_ifs <;> omega

theorem toNat_sub (a b : Hugeint) : (sub a b).toNat = (a.toNat + (2 ^ 128 - b.toNat)) % 2 ^ 128 := by
  have ha := a.lower.isLt
  have hb := b.lower.isLt
  have hb' := b.upper.isLt
  have hzero : (0 : BitVec 64).toNat = 0 := rfl
  have hone : (1 : BitVec 64).toNat = 1 := rfl
  simp only [sub, carry, toNat, BitVec.toNat_sub, apply_ite BitVec.toNat, gt_iff_lt, BitVec.lt_def, hzero, hone]
  split_ifs <;> omega

theorem toInt_add (h : InRange (a.toInt + b.toInt)) : (add a b).toInt = a.toInt + b.toInt := by
  apply toInt_eq_of_emod h
  rw [toNat_add]
  rcases a.toInt_cases with ha' | ha' <;> rcases b.toInt_cases with hb' | hb' <;> omega

theorem toInt_sub (h : InRange (a.toInt - b.toInt)) : (sub a b).toInt = a.toInt - b.toInt := by
  have hb := b.toNat_lt
  apply toInt_eq_of_emod h
  rw [toNat_sub]
  rcases a.toInt_cases with ha' | ha' <;> rcases b.toInt_cases with hb' | hb' <;> omega

theorem limb_toInt_eq {n : Int} (hn : -2 ^ 63 ≤ n ∧ n < 2 ^ 63) (h : (x.toNat : Int) % 2 ^ 64 = n % 2 ^ 64) :
    x.toInt = n := by
  rcases limb_cases x with hx | hx <;> omega

theorem limb_toInt_add {y : BitVec 64} (h : -2 ^ 63 ≤ x.toInt + y.toInt ∧ x.toInt + y.toInt < 2 ^ 63) :
    (x + y).toInt = x.toInt + y.toInt := by
  apply limb_toInt_eq h
  rw [BitVec.toNat_add]
  rcases limb_cases x with hx | hx <;> rcases limb_cases y with hy | hy <;> omega

theorem limb_toInt_sub {y : BitVec 64} (h : -2 ^ 63 ≤ x.toInt - y.toInt ∧ x.toInt - y.toInt < 2 ^ 63) :
    (x - y).toInt = x.toInt - y.toInt := by
  apply limb_toInt_eq h
  rw [BitVec.toNat_sub]
  rcases limb_cases x with hx | hx <;> rcases limb_cases y with hy | hy <;> omega

theorem limb_bounds (x : BitVec 64) : -2 ^ 63 ≤ x.toInt ∧ x.toInt < 2 ^ 63 := by
  rcases limb_cases x with hx | hx <;> omega

theorem toInt_carry (p : Prop) [Decidable p] : (carry p).toInt = if p then 1 else 0 := by
  unfold carry
  split_ifs <;> rfl

theorem lower_add (x y : BitVec 64) :
    ((x + y).toNat : Int) = x.toNat + y.toNat - 2 ^ 64 * (carry (x + y < x)).toInt := by
  have := x.isLt
  have := y.isLt
  rw [toInt_carry]
  simp only [BitVec.lt_def, BitVec.toNat_add]
  split_ifs <;> omega

theorem lower_sub (x y : BitVec 64) :
    ((x - y).toNat : Int) = x.toNat - y.toNat + 2 ^ 64 * (carry (x - y > x)).toInt := by
  have := x.isLt
  have := y.isLt
  rw [toInt_carry]
  simp only [gt_iff_lt, BitVec.lt_def, BitVec.toNat_sub]
  split_ifs <;> omega

theorem carry_bounds (p : Prop) [Decidable p] : 0 ≤ (carry p).toInt ∧ (carry p).toInt ≤ 1 := by
  rw [toInt_carry]
  split_ifs <;> decide

theorem tryAddInPlace_eq (a b : Hugeint) :
    tryAddInPlace a b = if InRange (a.toInt + b.toInt) then (true, add a b) else (false, a) := by
  have hau := limb_bounds a.upper
  have hbu := limb_bounds b.upper
  have hcarry := carry_bounds (a.lower + b.lower < a.lower)
  have hmax : (BitVec.intMax 64).toInt = 2 ^ 63 - 1 := by decide
  have hmin : (BitVec.intMin 64).toInt = -2 ^ 63 := by decide
  have hzero : (0 : BitVec 64).toInt = 0 := rfl
  have hrange : InRange (a.toInt + b.toInt) ↔
      -2 ^ 63 ≤ a.upper.toInt + b.upper.toInt + (carry (a.lower + b.lower < a.lower)).toInt ∧
        a.upper.toInt + b.upper.toInt + (carry (a.lower + b.lower < a.lower)).toInt < 2 ^ 63 := by
    have hlower := lower_add a.lower b.lower
    unfold InRange toInt
    omega
  unfold tryAddInPlace
  generalize hc : carry (a.lower + b.lower < a.lower) = overflow at hcarry hrange
  have hadd : add a b = ⟨a.upper + b.upper + overflow, a.lower + b.lower⟩ := by rw [← hc, add]
  have hcomm : a.upper + overflow + b.upper = a.upper + b.upper + overflow := by
    rw [BitVec.add_assoc, BitVec.add_comm overflow, ← BitVec.add_assoc]
  simp only [hrange, hadd, BitVec.sle_iff_toInt_le, BitVec.slt_iff_toInt_lt, hzero]
  by_cases hb : 0 ≤ b.upper.toInt
  · have h1 : (BitVec.intMax 64 - b.upper).toInt = 2 ^ 63 - 1 - b.upper.toInt := by
      rw [limb_toInt_sub (by omega), hmax]
    have h2 : (BitVec.intMax 64 - b.upper - overflow).toInt = 2 ^ 63 - 1 - b.upper.toInt - overflow.toInt := by
      rw [limb_toInt_sub (by omega), h1]
    rw [if_pos hb, h2, hcomm]
    by_cases hfits : -2 ^ 63 ≤ a.upper.toInt + b.upper.toInt + overflow.toInt ∧
        a.upper.toInt + b.upper.toInt + overflow.toInt < 2 ^ 63
    · rw [if_neg (by omega), if_pos hfits]
    · rw [if_pos (by omega), if_neg hfits]
  · have h1 : (BitVec.intMin 64 - b.upper).toInt = -2 ^ 63 - b.upper.toInt := by
      rw [limb_toInt_sub (by omega), hmin]
    have h2 : (BitVec.intMin 64 - b.upper - overflow).toInt = -2 ^ 63 - b.upper.toInt - overflow.toInt := by
      rw [limb_toInt_sub (by omega), h1]
    rw [if_neg hb, h2, ← BitVec.add_assoc, hcomm]
    by_cases hfits : -2 ^ 63 ≤ a.upper.toInt + b.upper.toInt + overflow.toInt ∧
        a.upper.toInt + b.upper.toInt + overflow.toInt < 2 ^ 63
    · rw [if_neg (by omega), if_pos hfits]
    · rw [if_pos (by omega), if_neg hfits]

theorem computes_tryAddInPlace (a b : Hugeint) : ComputesInPlace (tryAddInPlace a b) a (a.toInt + b.toInt) := by
  rw [tryAddInPlace_eq]
  constructor
  · intro h
    rw [if_pos h]
    exact ⟨rfl, toInt_add h⟩
  · intro h
    rw [if_neg h]

theorem trySubtractInPlace_eq (a b : Hugeint) :
    trySubtractInPlace a b = if InRange (a.toInt - b.toInt) then (true, sub a b) else (false, a) := by
  have hau := limb_bounds a.upper
  have hbu := limb_bounds b.upper
  have hcarry := carry_bounds (a.lower - b.lower > a.lower)
  have hmax : (BitVec.intMax 64).toInt = 2 ^ 63 - 1 := by decide
  have hmin : (BitVec.intMin 64).toInt = -2 ^ 63 := by decide
  have hzero : (0 : BitVec 64).toInt = 0 := rfl
  have hone : (1 : BitVec 64).toInt = 1 := by decide
  have hrange : InRange (a.toInt - b.toInt) ↔
      -2 ^ 63 ≤ a.upper.toInt - b.upper.toInt - (carry (a.lower - b.lower > a.lower)).toInt ∧
        a.upper.toInt - b.upper.toInt - (carry (a.lower - b.lower > a.lower)).toInt < 2 ^ 63 := by
    have hlower := lower_sub a.lower b.lower
    unfold InRange toInt
    omega
  unfold trySubtractInPlace
  generalize hc : carry (a.lower - b.lower > a.lower) = underflow at hcarry hrange
  have hsub : sub a b = ⟨a.upper - b.upper - underflow, a.lower - b.lower⟩ := by rw [← hc, sub]
  simp only [hrange, hsub, BitVec.sle_iff_toInt_le, BitVec.slt_iff_toInt_lt, hzero, hmin]
  by_cases hb : 0 ≤ b.upper.toInt
  · have h1 : (BitVec.intMin 64 + b.upper).toInt = -2 ^ 63 + b.upper.toInt := by
      rw [limb_toInt_add (by omega), hmin]
    have h2 : (BitVec.intMin 64 + b.upper + underflow).toInt = -2 ^ 63 + b.upper.toInt + underflow.toInt := by
      rw [limb_toInt_add (by omega), h1]
    rw [if_pos hb, h2]
    by_cases hfits : -2 ^ 63 ≤ a.upper.toInt - b.upper.toInt - underflow.toInt ∧
        a.upper.toInt - b.upper.toInt - underflow.toInt < 2 ^ 63
    · rw [if_neg (by omega), if_pos hfits]
    · rw [if_pos (by omega), if_neg hfits]
  · have h1 : (BitVec.intMax 64 + b.upper).toInt = 2 ^ 63 - 1 + b.upper.toInt := by
      rw [limb_toInt_add (by omega), hmax]
    have h2 : (BitVec.intMax 64 + b.upper + underflow).toInt = 2 ^ 63 - 1 + b.upper.toInt + underflow.toInt := by
      rw [limb_toInt_add (by omega), h1]
    have hassoc : a.upper - (b.upper + underflow) = a.upper - b.upper - underflow := by
      apply BitVec.eq_of_toNat_eq
      have := b.upper.isLt
      have := underflow.isLt
      simp only [BitVec.toNat_sub, BitVec.toNat_add]
      omega
    rw [if_neg hb, h2, hassoc]
    -- the minimum of the upper limb minus a negative number is never too large
    by_cases hu : -2 ^ 63 < a.upper.toInt
    · have h3 : (a.upper - 1).toInt = a.upper.toInt - 1 := by
        rw [limb_toInt_sub (by omega), hone]
      rw [h3]
      by_cases hfits : -2 ^ 63 ≤ a.upper.toInt - b.upper.toInt - underflow.toInt ∧
          a.upper.toInt - b.upper.toInt - underflow.toInt < 2 ^ 63
      · rw [if_neg (by omega), if_pos hfits]
      · rw [if_pos (by omega), if_neg hfits]
    · rw [if_neg (by omega), if_pos (by omega)]

theorem computes_trySubtractInPlace (a b : Hugeint) :
    ComputesInPlace (trySubtractInPlace a b) a (a.toInt - b.toInt) := by
  rw [trySubtractInPlace_eq]
  constructor
  · intro h
    rw [if_pos h]
    exact ⟨rfl, toInt_sub h⟩
  · intro h
    rw [if_neg h]

end Haybarn.Common.Hugeint
