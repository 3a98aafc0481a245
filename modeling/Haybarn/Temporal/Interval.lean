/-
Intervals of months, days and microseconds, from `interval.hpp`: how they are normalized, compared, hashed and encoded
for sorting.
-/
import Haybarn.Common.Radix
import Haybarn.Temporal.Numbers

namespace Haybarn.Temporal

open Lib Common

/-! ## Intervals -/

/-- `interval_t`. -/
structure Interval where
  months : BitVec 32
  days : BitVec 32
  micros : BitVec 64
deriving DecidableEq, Repr

namespace Interval

def daysPerMonth : Int := 30

def microsPerDay : Int := 86400000000

/-- `Normalize` into three `int64_t`: the months, the days and the microseconds. -/
def normalizeFields (i : Interval) : Int × Int × Int :=
  -- carry left
  let carryDays := i.micros.toInt.tdiv microsPerDay
  let micros := i.micros.toInt - carryDays * microsPerDay
  let days := i.days.toInt + carryDays
  let carryMonths := days.tdiv daysPerMonth
  (i.months.toInt + carryMonths, days - carryMonths * daysPerMonth, micros)

/-- `Borrow`: the less significant field and the field that is saturated. -/
def borrow (msf lsf scale : Int) : Int × Int :=
  if 2 ^ 31 - 1 < msf then (lsf + (msf - (2 ^ 31 - 1)) * scale, 2 ^ 31 - 1)
  else if msf < -2 ^ 31 then (lsf + (msf - -2 ^ 31) * scale, -2 ^ 31)
  else (lsf, msf)

/-- `Normalize` within the bounds of the fields. -/
def normalize (i : Interval) : Interval :=
  let (mm, dd, micros) := i.normalizeFields
  -- borrow right on overflow
  let (dd, months) := borrow mm dd daysPerMonth
  let (micros, days) := borrow dd micros microsPerDay
  ⟨BitVec.ofInt 32 months, BitVec.ofInt 32 days, BitVec.ofInt 64 micros⟩

/-- `operator==`. -/
def equals (left right : Interval) : Bool :=
  if left.months = right.months ∧ left.days = right.days ∧ left.micros = right.micros then true
  else
    let (lmonths, ldays, lmicros) := left.normalizeFields
    let (rmonths, rdays, rmicros) := right.normalizeFields
    decide (lmonths = rmonths ∧ ldays = rdays ∧ lmicros = rmicros)

/-- `operator>`. -/
def greaterThan (left right : Interval) : Bool :=
  let (lmonths, ldays, lmicros) := left.normalizeFields
  let (rmonths, rdays, rmicros) := right.normalizeFields
  if lmonths > rmonths then true
  else if lmonths < rmonths then false
  else if ldays > rdays then true
  else if ldays < rdays then false
  else decide (lmicros > rmicros)

/-- `operator<`. -/
def lessThan (left right : Interval) : Bool := right.greaterThan left

/-- `std::hash` of an interval, made of the hashes of numbers. -/
def hash (hash32 : BitVec 32 → BitVec 64) (hash64 : BitVec 64 → BitVec 64) (i : Interval) : BitVec 64 :=
  let (months, days, micros) := i.normalizeFields
  hash32 (BitVec.ofInt 32 days) ^^^ hash32 (BitVec.ofInt 32 months) ^^^ hash64 (BitVec.ofInt 64 micros)

def encodeData (i : Interval) : Bytes :=
  Common.encodeData .int32 i.months ++ Common.encodeData .int32 i.days ++ Common.encodeData .int64 i.micros

/-! ## Fields in order -/

/-- Three fields are compared from the left. -/
def compareFields (a b : Int × Int × Int) : Ordering :=
  (compare a.1 b.1).then ((compare a.2.1 b.2.1).then (compare a.2.2 b.2.2))

variable {a b : Int × Int × Int}

theorem compareFields_eq_lt :
    compareFields a b = .lt ↔ a.1 < b.1 ∨ a.1 = b.1 ∧ (a.2.1 < b.2.1 ∨ a.2.1 = b.2.1 ∧ a.2.2 < b.2.2) := by
  simp only [compareFields, Ordering.then_eq_lt, compare_lt_iff_lt, compare_eq_iff_eq]

theorem compareFields_eq_eq : compareFields a b = .eq ↔ a = b := by
  simp only [compareFields, Ordering.then_eq_eq, compare_eq_iff_eq, Prod.ext_iff]

theorem compareFields_eq_gt : compareFields a b = .gt ↔ compareFields b a = .lt := by
  rw [compareFields_eq_lt]
  simp only [compareFields, Ordering.then_eq_gt, compare_gt_iff_gt, compare_eq_iff_eq]
  omega

theorem compareFields_congr {a' b' : Int × Int × Int} (hlt : compareFields a b = .lt ↔ compareFields a' b' = .lt)
    (hgt : compareFields b a = .lt ↔ compareFields b' a' = .lt) : compareFields a b = compareFields a' b' := by
  rw [← compareFields_eq_gt, ← compareFields_eq_gt] at hgt
  cases h : compareFields a b with
  | lt => exact (hlt.mp h).symm
  | gt => exact (hgt.mp h).symm
  | eq =>
    cases h' : compareFields a' b' with
    | lt => exact absurd (hlt.mpr h') (by rw [h]; decide)
    | gt => exact absurd (hgt.mpr h') (by rw [h]; decide)
    | eq => rfl

/-- The fields as numbers. -/
def fields (i : Interval) : Int × Int × Int := (i.months.toInt, i.days.toInt, i.micros.toInt)

theorem encodeData_ordered : OrderedCode (fun a b : Interval => compareFields a.fields b.fields) encodeData := by
  have hmonths := (Common.encodeData_ordered .int32).comp Interval.months
  have hdays := (Common.encodeData_ordered .int32).comp Interval.days
  have hmicros := (Common.encodeData_ordered .int64).comp Interval.micros
  refine ((hmonths.append hdays).append hmicros).congr fun a b => ?_
  exact (Ordering.then_assoc _ _ _).symm

theorem greaterThan_iff (a b : Interval) :
    a.greaterThan b = true ↔ compareFields b.normalizeFields a.normalizeFields = .lt := by
  rw [compareFields_eq_lt]
  unfold greaterThan
  obtain ⟨lmonths, ldays, lmicros⟩ := a.normalizeFields
  obtain ⟨rmonths, rdays, rmicros⟩ := b.normalizeFields
  dsimp only
  split_ifs <;> simp only [decide_eq_true_eq, true_iff, false_iff] <;> omega

theorem equals_iff (a b : Interval) : a.equals b = true ↔ a.normalizeFields = b.normalizeFields := by
  unfold equals
  split_ifs with h
  · obtain ⟨hmonths, hdays, hmicros⟩ := h
    simp only [normalizeFields, hmonths, hdays, hmicros]
  · simp only [decide_eq_true_eq, Prod.ext_iff]

end Interval

end Haybarn.Temporal
