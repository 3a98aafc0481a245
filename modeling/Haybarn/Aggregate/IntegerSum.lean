/-
Sums of 32- and 64-bit integers, from `sum_helpers.hpp` and `sum.cpp`: the accumulator of 128 bits, which infers carry and borrow
from a comparison, and the one of 64 bits that the statistics may put in its place.
-/
import Haybarn.Hugeint.Divide
import Haybarn.Lib.Outcome
import Mathlib.Algebra.Order.BigOperators.Group.Multiset
import Mathlib.Algebra.Order.Ring.Abs
import Mathlib.Algebra.BigOperators.Ring.Multiset

namespace Haybarn.Aggregate.IntegerSum

open Common Common.Hugeint Lib.Outcome
open Lib (Outcome)

/-! ## The accumulators -/

/-- The types that are summed up in 128 bits and may be summed up in 64. -/
inductive SumType where
  | int32
  | int64
  deriving DecidableEq

/-- The bits of a value. -/
def SumType.width : SumType → Nat
  | int32 => 32
  | int64 => 64

def standardVectorSize : Nat := 2048

/-- A `SumState`. -/
structure SumState (T : Type) where
  isset : Bool
  value : T

variable {t : SumType}

/-- `uint64_t(input)`. -/
def toUnsigned (input : BitVec t.width) : BitVec 64 := BitVec.ofInt 64 input.toInt

def addValue (result : Hugeint) (value : BitVec 64) (positive : Bool) : Hugeint :=
  let lower := result.lower + value
  let overflow := decide (lower < value)
  -- a positive value that overflows, or a negative one that does not
  if !(overflow ^^ positive) then ⟨result.upper + (-1 + 2 * carry (positive = true)), lower⟩
  else ⟨result.upper, lower⟩

def addNumber (result : Hugeint) (input : BitVec t.width) : Hugeint :=
  addValue result (toUnsigned input) (0 ≤ input.toInt)

def addConstant (result : Hugeint) (input : BitVec t.width) (count : Nat) : Hugeint :=
  if 0 ≤ input.toInt ∧ (toUnsigned input).toNat < (2 ^ 64 - 1) / standardVectorSize then
    addValue result (toUnsigned input * BitVec.ofNat 64 count) true
  else if count < 8 then (addNumber · input)^[count] result
  else add result (multiply (convertInteger input.toInt) (convertInteger count))

/-- Signed arithmetic of 64 bits, where an overflow is undefined. -/
def int64 (n : Int) : Outcome Int := if -2 ^ 63 ≤ n ∧ n < 2 ^ 63 then .done n else .fault

/-! ## Evaluations -/

/-- The calls that build a state: after `Initialize` values and constants are added to a state, and states are combined. -/
inductive Evaluation (t : SumType) where
  | initial
  | operation (state : Evaluation t) (input : BitVec t.width)
  | constantOperation (state : Evaluation t) (input : BitVec t.width) (count : Nat)
  | combine (source target : Evaluation t)

namespace Evaluation

/-- The values that are summed up. -/
def values : Evaluation t → Multiset (BitVec t.width)
  | initial => 0
  | operation state input => input ::ₘ state.values
  | constantOperation state input count => Multiset.replicate count input + state.values
  | combine source target => source.values + target.values

/-- A constant stands for the rows of one vector at most. -/
def CountsFit : Evaluation t → Prop
  | initial => True
  | operation state _ => state.CountsFit
  | constantOperation state _ count => state.CountsFit ∧ count ≤ standardVectorSize
  | combine source target => source.CountsFit ∧ target.CountsFit

/-- The state of `SumToHugeintOperation`. -/
def toHugeint : Evaluation t → SumState Hugeint
  | initial => ⟨false, convertInteger 0⟩
  | operation state input => ⟨true, addNumber state.toHugeint.value input⟩
  | constantOperation state input count => ⟨true, addConstant state.toHugeint.value input count⟩
  | combine source target =>
    ⟨source.toHugeint.isset || target.toHugeint.isset, add target.toHugeint.value source.toHugeint.value⟩

/-- The state of `IntegerSumOperation`. -/
def toInteger : Evaluation t → Outcome (SumState Int)
  | initial => .done ⟨false, 0⟩
  | operation state input => do
    let state ← state.toInteger
    let value ← int64 (state.value + input.toInt)
    .done ⟨true, value⟩
  | constantOperation state input count => do
    let state ← state.toInteger
    let product ← int64 (input.toInt * (count : Int).bmod (2 ^ 64))
    let value ← int64 (state.value + product)
    .done ⟨true, value⟩
  | combine source target => do
    let source ← source.toInteger
    let target ← target.toInteger
    let value ← int64 (target.value + source.value)
    .done ⟨source.isset || target.isset, value⟩

end Evaluation

/-- `SumToHugeintOperation::Finalize`. -/
def finalizeHugeint (state : SumState Hugeint) : Option Hugeint := if !state.isset then none else some state.value

/-- `IntegerSumOperation::Finalize`. -/
def finalizeInteger (state : SumState Int) : Option Hugeint :=
  if !state.isset then none else some (convertInteger state.value)

/-! ## Statistics -/

/-- The function that sums up. -/
inductive SumFunction where
  | sum
  | sumNoOverflow
  deriving DecidableEq

def lessThanEquals (lhs rhs : Hugeint) : Bool :=
  lhs.upper.slt rhs.upper || (lhs.upper == rhs.upper && lhs.lower.ule rhs.lower)

/-- `SumPropagateStats`, of the greatest number of rows and the least and the greatest value, where they are known. -/
def sumPropagateStats (maxCardinality : Option (BitVec 64)) (numericStats : Option (BitVec t.width × BitVec t.width)) :
    SumFunction :=
  match maxCardinality with
  | none => .sum
  | some maxCardinality =>
    match numericStats with
    | none => .sum
    | some (min, max) =>
      let maxNegative := convertInteger min.toInt
      let maxPositive := convertInteger max.toInt
      let maxSumNegative := multiply maxNegative (convertInteger maxCardinality.toNat)
      let maxSumPositive := multiply maxPositive (convertInteger maxCardinality.toNat)
      if maxSumPositive.greaterThanEquals (convertInteger (2 ^ 63 - 1)) ||
          lessThanEquals maxSumNegative (convertInteger (-2 ^ 63)) then .sum
      else .sumNoOverflow

/-- The statistics are right about the rows of a column, some of which may be NULL. -/
structure Describes (maxCardinality : Option (BitVec 64)) (numericStats : Option (BitVec t.width × BitVec t.width))
    (rows : Multiset (Option (BitVec t.width))) : Prop where
  cardinality : ∀ n ∈ maxCardinality, Multiset.card rows ≤ n.toNat
  bounds : ∀ s ∈ numericStats, ∀ x, some x ∈ rows → s.1.toInt ≤ x.toInt ∧ x.toInt ≤ s.2.toInt

/-- The sum of values as integers. -/
def sum (values : Multiset (BitVec t.width)) : Int := (values.map BitVec.toInt).sum

/-! ## The accumulator of 128 bits -/

/-- The accumulator stands for the integer, up to a multiple of `2^128`. -/
def Stands (a : Hugeint) (n : Int) : Prop := (a.toNat : Int) % 2 ^ 128 = n % 2 ^ 128

theorem stands_toInt (a : Hugeint) : Stands a a.toInt := by
  unfold Stands
  rcases a.toInt_cases with ⟨-, h⟩ | ⟨-, h⟩ <;> omega

theorem Stands.toInt_eq {a : Hugeint} {n : Int} (h : Stands a n) (hn : InRange n) : a.toInt = n := toInt_eq_of_emod hn h

theorem Stands.add {a b : Hugeint} {m n : Int} (ha : Stands a m) (hb : Stands b n) : Stands (add a b) (m + n) := by
  unfold Stands at *
  rw [toNat_add]
  omega

theorem upper_mod (upper lower : Nat) :
    ((upper % 2 ^ 64 * 2 ^ 64 + lower : Nat) : Int) % 2 ^ 128 = (upper * 2 ^ 64 + lower : Nat) % 2 ^ 128 := by
  have hsplit := Nat.mod_add_div upper (2 ^ 64)
  omega

theorem Stands.addValue {a : Hugeint} {m : Int} (ha : Stands a m) (value : BitVec 64) (positive : Bool) :
    Stands (addValue a value positive) (m + (value.toNat - if positive then 0 else 2 ^ 64)) := by
  have hlower := a.lower.isLt
  have hvalue := value.isLt
  have hsum : (a.lower + value).toNat = (a.lower.toNat + value.toNat) % 2 ^ 64 := BitVec.toNat_add ..
  have hup : (a.upper + 1).toNat = (a.upper.toNat + 1) % 2 ^ 64 := BitVec.toNat_add ..
  have hdown : (a.upper + -1).toNat = (a.upper.toNat + (2 ^ 64 - 1)) % 2 ^ 64 := BitVec.toNat_add ..
  have hcarry : ∀ positive, (-1 + 2 * carry (positive = true) : BitVec 64) = if positive then 1 else -1 := by decide
  have hover : (a.lower + value < value) = ((a.lower.toNat + value.toNat) % 2 ^ 64 < value.toNat) := by
    rw [BitVec.lt_def, hsum]
  rw [IntegerSum.addValue, hcarry]
  simp only [hover]
  unfold Stands at *
  unfold Hugeint.toNat at ha
  by_cases h : (a.lower.toNat + value.toNat) % 2 ^ 64 < value.toNat <;> cases positive
  · rw [decide_eq_true h, if_neg (by decide), if_neg (by decide), toNat_mk, hsum]
    clear hsum hup hdown hover
    omega
  · rw [decide_eq_true h, if_pos (by rfl), if_pos rfl, if_pos rfl, toNat_mk, hup, hsum, upper_mod]
    clear hsum hup hdown hover
    push_cast at *
    omega
  · rw [decide_eq_false h, if_pos (by rfl), if_neg (by decide), if_neg (by decide), toNat_mk, hdown, hsum, upper_mod]
    clear hsum hup hdown hover
    push_cast at *
    omega
  · rw [decide_eq_false h, if_neg (by decide), if_pos rfl, toNat_mk, hsum]
    clear hsum hup hdown hover
    omega

theorem toInt_bounds (x : BitVec t.width) : -2 ^ 63 ≤ x.toInt ∧ x.toInt < 2 ^ 63 := by
  have hlo := BitVec.le_toInt x
  have hhi := BitVec.toInt_lt (x := x)
  have hwidth : t.width ≤ 64 := by cases t <;> decide
  have hpow : (2 : Int) ^ (t.width - 1) ≤ 2 ^ 63 := pow_le_pow_right₀ (by decide) (by omega)
  omega

theorem toNat_toUnsigned (x : BitVec t.width) :
    ((toUnsigned x).toNat : Int) = x.toInt + if 0 ≤ x.toInt then 0 else 2 ^ 64 := by
  obtain ⟨hlo, hhi⟩ := toInt_bounds x
  rw [toUnsigned, BitVec.toNat_ofInt]
  split <;> omega

theorem Stands.addNumber {a : Hugeint} {m : Int} (ha : Stands a m) (x : BitVec t.width) :
    Stands (addNumber a x) (m + x.toInt) := by
  have h := ha.addValue (toUnsigned x) (0 ≤ x.toInt)
  rw [toNat_toUnsigned] at h
  simp only [decide_eq_true_eq] at h
  rwa [add_sub_cancel_right] at h

theorem Stands.addRepeated {a : Hugeint} {m : Int} (ha : Stands a m) (x : BitVec t.width) :
    ∀ count, Stands ((IntegerSum.addNumber · x)^[count] a) (m + count * x.toInt)
  | 0 => by simpa using ha
  | count + 1 => by
    rw [Function.iterate_succ_apply']
    have h := (ha.addRepeated x count).addNumber x
    rwa [show m + ((count + 1 : Nat) : Int) * x.toInt = m + count * x.toInt + x.toInt by push_cast; ring]

theorem toInt_multiply {x : Int} (hx : -2 ^ 63 ≤ x ∧ x < 2 ^ 63) {n : Nat} (hn : n < 2 ^ 64) :
    (multiply (convertInteger x) (convertInteger n)).toInt = x * n := by
  have hleft : (convertInteger x).toInt = x := toInt_convertInteger ⟨by omega, by omega⟩
  have hright : (convertInteger (n : Int)).toInt = n := toInt_convertInteger ⟨by omega, by omega⟩
  have hleft' : convertInteger x ≠ minimum := ne_minimum_iff.2 (by rw [hleft]; omega)
  have hright' : convertInteger (n : Int) ≠ minimum := ne_minimum_iff.2 (by rw [hright]; omega)
  have hsmall : |x * n| < 2 ^ 127 := by
    rw [abs_mul, Nat.abs_cast]
    calc |x| * n ≤ 2 ^ 63 * n := mul_le_mul_of_nonneg_right (abs_le.2 ⟨by omega, by omega⟩) (by omega)
      _ < 2 ^ 127 := by omega
  obtain ⟨c, hc, hvalue⟩ := (tryMultiply_spec hleft' hright').1 (by rwa [hleft, hright])
  rw [multiply_eq hleft' hright' hc, hvalue, hleft, hright]

theorem Stands.addConstant {a : Hugeint} {m : Int} (ha : Stands a m) (x : BitVec t.width) {count : Nat}
    (hcount : count ≤ standardVectorSize) : Stands (addConstant a x count) (m + count * x.toInt) := by
  have hcount' : count ≤ 2048 := hcount
  rw [IntegerSum.addConstant]
  split
  next hfast =>
    obtain ⟨hpos, hsmall⟩ := hfast
    have hvalue := toNat_toUnsigned x
    rw [if_pos hpos, add_zero] at hvalue
    have hsmall' : (toUnsigned x).toNat < 2 ^ 53 - 1 := lt_of_lt_of_eq hsmall (by decide)
    have hproduct : (toUnsigned x).toNat * count ≤ (2 ^ 53 - 1) * 2048 := Nat.mul_le_mul hsmall'.le hcount'
    have h := ha.addValue (toUnsigned x * BitVec.ofNat 64 count) true
    rw [BitVec.toNat_mul, BitVec.toNat_ofNat, Nat.mod_eq_of_lt (show count < 2 ^ 64 by omega),
      Nat.mod_eq_of_lt (show (toUnsigned x).toNat * count < 2 ^ 64 by omega)] at h
    push_cast at h
    rw [hvalue, if_pos rfl, sub_zero] at h
    rwa [mul_comm (count : Int)]
  next =>
    split
    next => exact ha.addRepeated x count
    next =>
      have h := stands_toInt (multiply (convertInteger x.toInt) (convertInteger count))
      rw [toInt_multiply (toInt_bounds x) (show count < 2 ^ 64 by omega)] at h
      rw [mul_comm (count : Int)]
      exact ha.add h

theorem card_filterMap_le {α β : Type} (f : α → Option β) (s : Multiset α) :
    Multiset.card (s.filterMap f) ≤ Multiset.card s :=
  Quot.inductionOn s fun _ => List.length_filterMap_le ..

theorem sum_cons (x : BitVec t.width) (values : Multiset (BitVec t.width)) : sum (x ::ₘ values) = x.toInt + sum values := by
  simp [sum]

theorem sum_add (values values' : Multiset (BitVec t.width)) : sum (values + values') = sum values + sum values' := by
  simp [sum, Multiset.sum_add]

theorem sum_replicate (count : Nat) (x : BitVec t.width) : sum (Multiset.replicate count x) = count * x.toInt := by
  simp [sum]

theorem stands_toHugeint {e : Evaluation t} (h : e.CountsFit) : Stands e.toHugeint.value (sum e.values) := by
  induction e with
  | initial => exact stands_toInt (convertInteger 0)
  | operation state x ih =>
    rw [Evaluation.values, sum_cons, add_comm]
    exact (ih h).addNumber x
  | constantOperation state x count ih =>
    rw [Evaluation.values, sum_add, sum_replicate, add_comm]
    exact (ih h.1).addConstant x h.2
  | combine source target ihs iht =>
    rw [Evaluation.values, sum_add, add_comm]
    exact (iht h.2).add (ihs h.1)

theorem abs_sum_le (values : Multiset (BitVec t.width)) :
    -(2 ^ 63 * Multiset.card values) ≤ sum values ∧ sum values ≤ 2 ^ 63 * Multiset.card values := by
  induction values using Multiset.induction_on with
  | empty => exact ⟨le_refl _, le_refl _⟩
  | cons x values ih =>
    obtain ⟨hlo, hhi⟩ := toInt_bounds x
    rw [sum_cons, Multiset.card_cons]
    push_cast
    omega

/-! ## The accumulator of 64 bits -/

@[simp] theorem lessThanEquals_iff {a b : Hugeint} : lessThanEquals a b = true ↔ a.toInt ≤ b.toInt := by
  have ha := a.lower.isLt
  have hb := b.lower.isLt
  simp only [lessThanEquals, Bool.or_eq_true, BitVec.slt_iff_toInt_lt, Bool.and_eq_true, beq_iff_eq, BitVec.ule,
    decide_eq_true_eq, ← BitVec.toInt_inj, Hugeint.toInt]
  omega

/-- The integers of 64 bits. -/
def InInt64 (n : Int) : Prop := -2 ^ 63 ≤ n ∧ n < 2 ^ 63

theorem int64_eq {n : Int} (h : InInt64 n) : int64 n = .done n := if_pos h

theorem toInteger_returns {e : Evaluation t} (h : e.CountsFit) (hparts : ∀ part ≤ e.values, InInt64 (sum part)) :
    e.toInteger.Returns fun s => s.value = sum e.values ∧ s.isset = e.toHugeint.isset := by
  induction e with
  | initial => exact returns_done ⟨rfl, rfl⟩
  | operation state x ih =>
    refine (ih h fun part hpart => hparts part (hpart.trans (Multiset.le_cons_self _ _))).bind ?_
    rintro s ⟨hvalue, -⟩
    have hsum : s.value + x.toInt = sum (x ::ₘ state.values) := by rw [sum_cons, hvalue, add_comm]
    rw [hsum, int64_eq (hparts (x ::ₘ state.values) (le_refl _))]
    exact returns_done ⟨rfl, rfl⟩
  | constantOperation state x count ih =>
    obtain ⟨hstate, hcount⟩ := h
    have hcount' : count ≤ 2048 := hcount
    refine (ih hstate fun part hpart => hparts part (hpart.trans (Multiset.le_add_left _ _))).bind ?_
    rintro s ⟨hvalue, -⟩
    have hcast : (count : Int).bmod (2 ^ 64) = count := Int.bmod_eq_of_le (by omega) (by omega)
    have hproduct : x.toInt * (count : Int).bmod (2 ^ 64) = sum (Multiset.replicate count x) := by
      rw [sum_replicate, hcast, mul_comm]
    have hsum : s.value + sum (Multiset.replicate count x) = sum (Multiset.replicate count x + state.values) := by
      rw [sum_add, hvalue, add_comm]
    rw [hproduct, int64_eq (hparts _ (Multiset.le_add_right _ _)), done_bind, hsum,
      int64_eq (hparts (Multiset.replicate count x + state.values) (le_refl _))]
    exact returns_done ⟨rfl, rfl⟩
  | combine source target ihs iht =>
    refine (ihs h.1 fun part hpart => hparts part (hpart.trans (Multiset.le_add_right _ _))).bind ?_
    rintro s ⟨hsource, hset⟩
    refine (iht h.2 fun part hpart => hparts part (hpart.trans (Multiset.le_add_left _ _))).bind ?_
    rintro s' ⟨htarget, hset'⟩
    have hsum : s'.value + s.value = sum (source.values + target.values) := by rw [sum_add, hsource, htarget, add_comm]
    rw [hsum, int64_eq (hparts (source.values + target.values) (le_refl _))]
    exact returns_done ⟨rfl, by rw [hset, hset']; rfl⟩

theorem sumPropagateStats_bounds {maxCardinality : Option (BitVec 64)}
    {numericStats : Option (BitVec t.width × BitVec t.width)}
    (h : sumPropagateStats maxCardinality numericStats = .sumNoOverflow) :
    ∃ n s, maxCardinality = some n ∧ numericStats = some s ∧ s.2.toInt * n.toNat < 2 ^ 63 - 1 ∧
      -2 ^ 63 < s.1.toInt * n.toNat := by
  cases maxCardinality with
  | none => cases h
  | some n =>
    cases numericStats with
    | none => cases h
    | some s =>
      obtain ⟨least, greatest⟩ := s
      unfold sumPropagateStats at h
      dsimp only at h
      split at h
      next => cases h
      next hnot =>
        simp only [Bool.or_eq_true, greaterThanEquals_iff, lessThanEquals_iff, not_or, not_le] at hnot
        rw [toInt_multiply (toInt_bounds greatest) n.isLt, toInt_multiply (toInt_bounds least) n.isLt,
          toInt_convertInteger ⟨by decide, by decide⟩, toInt_convertInteger ⟨by decide, by decide⟩] at hnot
        exact ⟨n, (least, greatest), rfl, rfl, hnot.1, hnot.2⟩

theorem partialSum_inInt64 {maxCardinality : Option (BitVec 64)} {numericStats : Option (BitVec t.width × BitVec t.width)}
    {rows : Multiset (Option (BitVec t.width))} (h : Describes maxCardinality numericStats rows)
    (hchosen : sumPropagateStats maxCardinality numericStats = .sumNoOverflow) {part : Multiset (BitVec t.width)}
    (hpart : part ≤ rows.filterMap id) : InInt64 (sum part) := by
  obtain ⟨n, s, rfl, rfl, hpositive, hnegative⟩ := sumPropagateStats_bounds hchosen
  have hbounds : ∀ x ∈ part.map BitVec.toInt, s.1.toInt ≤ x ∧ x ≤ s.2.toInt := by
    intro x hx
    obtain ⟨y, hy, rfl⟩ := Multiset.mem_map.1 hx
    obtain ⟨row, hrow, hid⟩ := (Multiset.mem_filterMap _ _).1 (Multiset.mem_of_le hpart hy)
    exact h.bounds s rfl y (by rwa [← show row = some y from hid])
  have hcard : (Multiset.card part : Int) ≤ n.toNat := by
    have := (Multiset.card_le_card hpart).trans ((card_filterMap_le ..).trans (h.cardinality n rfl))
    exact_mod_cast this
  have hupper := Multiset.sum_le_card_nsmul _ _ fun x hx => (hbounds x hx).2
  have hlower := Multiset.card_nsmul_le_sum fun x hx => (hbounds x hx).1
  rw [Multiset.card_map, nsmul_eq_mul] at hupper hlower
  rw [InInt64, sum]
  constructor
  · rcases le_or_gt 0 s.1.toInt with hpos | hneg
    · have := mul_nonneg (Int.natCast_nonneg (Multiset.card part)) hpos
      omega
    · have := mul_le_mul_of_nonpos_right hcard hneg.le
      rw [mul_comm] at hnegative
      omega
  · rcases le_or_gt 0 s.2.toInt with hpos | hneg
    · have := mul_le_mul_of_nonneg_right hcard hpos
      rw [mul_comm] at hpositive
      omega
    · have := mul_nonpos_of_nonneg_of_nonpos (Int.natCast_nonneg (Multiset.card part)) hneg.le
      omega

/-! ## Exactness -/

/-- The sum is exact however it is evaluated; and where the statistics choose the sum of 64 bits, no partial sum of the values
leaves that range, and every evaluation of them returns what the sum of 128 bits returns. -/
theorem sum_exact (t : SumType) :
    (∀ e : Evaluation t, e.CountsFit → Multiset.card e.values ≤ 2 ^ 62 → e.toHugeint.value.toInt = sum e.values) ∧
      ∀ (maxCardinality : Option (BitVec 64)) (numericStats : Option (BitVec t.width × BitVec t.width))
        (rows : Multiset (Option (BitVec t.width))), Describes maxCardinality numericStats rows →
        sumPropagateStats maxCardinality numericStats = .sumNoOverflow →
        (∀ part ≤ rows.filterMap id, InInt64 (sum part)) ∧
          ∀ e : Evaluation t, e.CountsFit → e.values = rows.filterMap id →
            e.toHugeint.value.toInt = sum (rows.filterMap id) ∧
              e.toInteger.Returns fun s => s.value = sum (rows.filterMap id) ∧
                finalizeInteger s = finalizeHugeint e.toHugeint := by
  refine ⟨fun e he hcard => ?_, fun maxCardinality numericStats rows hrows hchosen => ?_⟩
  · obtain ⟨hlo, hhi⟩ := abs_sum_le e.values
    refine (stands_toHugeint he).toInt_eq ⟨?_, ?_⟩ <;> omega
  · have hparts : ∀ part ≤ rows.filterMap id, InInt64 (sum part) := fun part => partialSum_inInt64 hrows hchosen
    refine ⟨hparts, fun e he hvalues => ?_⟩
    obtain ⟨hlo, hhi⟩ := hparts _ (le_refl _)
    have hhuge : e.toHugeint.value.toInt = sum (rows.filterMap id) := by
      rw [← hvalues] at hlo hhi ⊢
      exact (stands_toHugeint he).toInt_eq ⟨by omega, by omega⟩
    refine ⟨hhuge, (toInteger_returns he (by rwa [hvalues])).mono ?_⟩
    rintro s ⟨hvalue, hset⟩
    rw [hvalues] at hvalue
    have hsame : convertInteger s.value = e.toHugeint.value := by
      apply Hugeint.toInt_injective
      rw [toInt_convertInteger ⟨by omega, by omega⟩, hvalue, hhuge]
    exact ⟨hvalue, by rw [finalizeInteger, finalizeHugeint, hset, hsame]⟩

/-- Three rows, of which one is NULL, in two states. -/
theorem sum_exact_minusFive :
    let e : Evaluation .int32 := .combine (.operation .initial (-7)) (.constantOperation .initial 2 1)
    e.toHugeint.value.toInt = -5 ∧ e.toInteger.Returns fun s => finalizeInteger s = finalizeHugeint e.toHugeint := by
  intro e
  have hcounts : e.CountsFit := ⟨trivial, trivial, by decide⟩
  have hrows : e.values = Multiset.filterMap id ({some (-7), none, some 2} : Multiset (Option (BitVec 32))) := rfl
  have hdescribes : Describes (t := .int32) (some 3) (some (-7, 2)) {some (-7), none, some 2} := by
    constructor
    · rintro n ⟨⟩
      decide
    · rintro s ⟨⟩ x hx
      simp only [Multiset.insert_eq_cons, Multiset.mem_cons, Multiset.mem_singleton, Option.some.injEq, reduceCtorEq,
        false_or] at hx
      rcases hx with rfl | rfl <;> decide
  obtain ⟨hexact, hstats⟩ := sum_exact .int32
  obtain ⟨-, hsame⟩ := hstats (some 3) (some (-7, 2)) _ hdescribes (by decide)
  exact ⟨hexact e hcounts (by decide), (hsame e hcounts hrows).2.mono fun _ h => h.2⟩

end Haybarn.Aggregate.IntegerSum
