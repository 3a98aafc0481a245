/-
Times of day and timestamps, from `time.cpp` and `timestamp.cpp`, and the addition of an interval, from `interval.cpp`.
-/
import Haybarn.Temporal.Date
import Haybarn.Temporal.Interval

namespace Haybarn.Temporal

open Lib

/-! ## Checked arithmetic -/

/-- `TryAddOperator` and `TryMultiplyOperator` on `int32_t`. -/
def tryInt32 (n : Int) : Option Int := if InInt32 n then some n else none

/-- `TryAddOperator` and `TryMultiplyOperator` on `int64_t`. -/
def tryInt64 (n : Int) : Option Int := if InInt64 n then some n else none

theorem tryInt32_some {n : Int} (h : InInt32 n) : tryInt32 n = some n := if_pos h

theorem tryInt32_none {n : Int} (h : ¬ InInt32 n) : tryInt32 n = none := if_neg h

theorem tryInt64_some {n : Int} (h : InInt64 n) : tryInt64 n = some n := if_pos h

theorem tryInt64_none {n : Int} (h : ¬ InInt64 n) : tryInt64 n = none := if_neg h

/-! ## Times and timestamps -/

/-- `dtime_t`: microseconds since midnight. -/
structure Time where
  micros : BitVec 64
deriving DecidableEq, Repr

namespace Time

def toInt (time : Time) : Int := time.micros.toInt

/-- `dtime_t(micros)`, where the microseconds are an `int64_t`. -/
def ofInt (micros : Int) : Time := ⟨BitVec.ofInt 64 micros⟩

theorem toInt_ofInt {n : Int} (h : InInt64 n) : (ofInt n).toInt = n := toInt_ofInt64 h

end Time

/-- `timestamp_t`: microseconds since 1970-01-01. -/
structure Timestamp where
  value : BitVec 64
deriving DecidableEq, Repr

namespace Timestamp

open Temporal.Interval (microsPerDay)

def toInt (timestamp : Timestamp) : Int := timestamp.value.toInt

def ofInt (micros : Int) : Timestamp := ⟨BitVec.ofInt 64 micros⟩

theorem inInt64 (timestamp : Timestamp) : InInt64 timestamp.toInt := inInt64_toInt timestamp.value

theorem toInt_ofInt {n : Int} (h : InInt64 n) : (ofInt n).toInt = n := toInt_ofInt64 h

theorem ofInt_toInt (timestamp : Timestamp) : ofInt timestamp.toInt = timestamp := by
  unfold ofInt toInt
  rw [BitVec.ofInt_toInt]

def infinity : Timestamp := ofInt (2 ^ 63 - 1)

def ninfinity : Timestamp := ofInt (-(2 ^ 63 - 1))

def isFinite (timestamp : Timestamp) : Bool := timestamp != infinity && timestamp != ninfinity

def getDate (timestamp : Timestamp) : Date :=
  if timestamp = infinity then Date.infinity
  else if timestamp = ninfinity then Date.ninfinity
  else
    let negative : Int := if timestamp.toInt < 0 then 1 else 0
    Date.ofInt ((timestamp.toInt + negative).tdiv microsPerDay - negative)

def tryFromDatetime (date : Date) (time : Time) : Option Timestamp := do
  let value ← tryInt64 (date.toInt * microsPerDay)
  let value ← tryInt64 (value + time.toInt)
  let result := ofInt value
  if result.isFinite then some result else none

def fromDatetime (date : Date) (time : Time) : Outcome Timestamp :=
  match tryFromDatetime date time with
  | some result => .done result
  | none => .error "Date and time not in timestamp range"

def convert (timestamp : Timestamp) : Outcome (Date × Time) :=
  let date := timestamp.getDate
  match tryInt64 (date.toInt * microsPerDay) with
  | some daysMicros => do
    let time ← int64 (timestamp.toInt - daysMicros)
    .done (date, Time.ofInt time)
  | none => .error "Date out of range in timestamp conversion"

end Timestamp

/-! ## Adding an interval -/

namespace Date

def monthDays (year month : Int) : Outcome Int := lookup (if isLeapYear year then leapDays else normalDays) month

end Date

namespace Interval

def monthsPerYear : Int := 12

/-- A month before or after the year is carried to the year. -/
def carryYear (year month : Int) : Outcome (Int × Int) :=
  if month > monthsPerYear then do
    let year ← int32 (year + 1)
    .done (year, month - monthsPerYear)
  else if month ≤ 0 then do
    let year ← int32 (year - 1)
    .done (year, month + monthsPerYear)
  else .done (year, month)

/-- The months of an interval are added to a date. -/
def addMonths (left : Date) (months : Int) : Outcome Date := do
  let (year, month, day) ← left.convert
  let yearDiff := months.tdiv monthsPerYear
  let year ← int32 (year + yearDiff)
  let month ← int32 (month + (months - yearDiff * monthsPerYear))
  let (year, month) ← carryYear year month
  let days ← Date.monthDays year month
  Date.fromDate year month (min day days)

/-- `TryAddOperator` on the days of a date, or the exception. -/
def addDays (date : Date) (days : Int) : Outcome Date :=
  match tryInt32 (date.toInt + days) with
  | some days => .done (Date.ofInt days)
  | none => .error "Date out of range"

/-- `Add` to a date. -/
def addDate (left : Date) (right : Interval) : Outcome Date :=
  if !left.isFinite then .done left
  else do
    let result ← (if right.months.toInt ≠ 0 then addMonths left right.months.toInt else .done left)
    let result ← (if right.days.toInt ≠ 0 then addDays result right.days.toInt else .done result)
    let result ← (if right.micros.toInt ≠ 0 then addDays result (right.micros.toInt.tdiv microsPerDay)
      else .done result)
    if !result.isFinite then .error "Date out of range"
    else .done result

/-- `Add` to a time, where a day is carried to the date. -/
def addTime (left : Time) (right : Interval) (date : Date) : Outcome (Time × Date) := do
  let diff := right.micros.toInt - right.micros.toInt.tdiv microsPerDay * microsPerDay
  let left ← int64 (left.toInt + diff)
  if left ≥ microsPerDay then do
    let days ← int32 (date.toInt + 1)
    .done (Time.ofInt (left - microsPerDay), Date.ofInt days)
  else if left < 0 then do
    let days ← int32 (date.toInt - 1)
    .done (Time.ofInt (left + microsPerDay), Date.ofInt days)
  else .done (Time.ofInt left, date)

/-- `Add` to a timestamp. -/
def add (left : Timestamp) (right : Interval) : Outcome Timestamp :=
  if !left.isFinite then .done left
  else do
    let (date, time) ← left.convert
    let newDate ← addDate date right
    let (newTime, newDate) ← addTime time right newDate
    Timestamp.fromDatetime newDate newTime

end Interval

end Haybarn.Temporal
