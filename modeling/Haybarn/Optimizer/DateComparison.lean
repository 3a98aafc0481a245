/-
The rules for comparisons of dates with timestamps: `ComparisonSimplificationRule`, from `comparison_simplification.cpp`,
for `CAST(d AS TIMESTAMP) op T`, and `TimeStampComparison`, from `timestamp_comparison.cpp`, for `CAST(t AS DATE) = D`.
-/
import Haybarn.Optimizer.Conjunction
import Haybarn.Temporal.TimestampAdd

namespace Haybarn

namespace Temporal

open Lib
open Temporal.Interval (microsPerDay)

namespace Timestamp

def getTime (timestamp : Timestamp) : Outcome Time :=
  if !timestamp.isFinite then .error "Can't get TIME of infinite TIMESTAMP"
  else do
    let days ← int64 (timestamp.getDate.toInt * microsPerDay)
    let micros ← int64 (timestamp.toInt - days)
    .done (Time.ofInt micros)

end Timestamp

namespace Date

/-- `TryCast::Operation` from `date_t` to `timestamp_t`. -/
def tryCastTimestamp (date : Date) : Option Timestamp :=
  if date = infinity then some Timestamp.infinity
  else if date = ninfinity then some Timestamp.ninfinity
  else Timestamp.tryFromDatetime date (Time.ofInt 0)

/-- `CastExceptionText`, from `date_t` to `timestamp_t`, with the text of the date. -/
def castExceptionText (text : String) : String :=
  "Type INT32 with value " ++ text ++ " can't be cast to the destination type INT64"

/-- `Cast::Operation` from `date_t` to `timestamp_t`. -/
def castTimestamp (toString : Date → String) (date : Date) : Outcome Timestamp :=
  match date.tryCastTimestamp with
  | some timestamp => .done timestamp
  | none => .error (castExceptionText (toString date))

/-- `TryAddOperator::Operation`, of a date and days. -/
def tryAdd (left : Date) (right : Int) : Option Date :=
  if left = infinity ∨ left = ninfinity then some left
  else
    match tryInt32 (left.toInt + right) with
    | some days => if (ofInt days).isFinite then some (ofInt days) else none
    | none => none

end Date

end Temporal

namespace Optimizer

open Lib Temporal

/-! ## Expressions over a date -/

/-- An operand of type DATE. -/
inductive DateExpression where
  | column
  | constant (value : Option Date)
deriving DecidableEq

/-- A condition on a column of type DATE. -/
inductive DateCondition where
  | comparison (type : ComparisonType) (left right : DateExpression)
  | constant (value : Option Bool)
  /-- `ConstantOrNull`, of the column. -/
  | constantOrNull (value : Bool)
deriving DecidableEq

/-- The value of an operand, where the column has the value `d`. -/
def DateExpression.eval (d : Option Date) : DateExpression → Option Int
  | column => d.map Date.toInt
  | constant value => value.map Date.toInt

/-- The value of a condition, where the column has the value `d`. -/
def DateCondition.eval (d : Option Date) : DateCondition → Truth
  | comparison type left right => compareValues type (left.eval d) (right.eval d)
  | constant none => .null
  | constant (some value) => .ofBool value
  | constantOrNull value => if d.isNone then .null else .ofBool value

/-! ## `ComparisonSimplificationRule` -/

/-- `DateTimestampComparisonIsInvertible`: the constant to compare with, or what the comparison is replaced by. -/
def dateTimestampComparisonIsInvertible (type : ComparisonType) (constantValue : Timestamp) (castConstant : Date)
    (columnRefLeft : Bool) : Outcome (Date × Option DateCondition) := do
  let time ← constantValue.getTime
  if time = Time.ofInt 0 then .done (castConstant, none)
  else
    match type with
    -- a timestamp that is not midnight is equal to no date
    | .compareEqual => .done (castConstant, some (.constantOrNull false))
    | .compareNotEqual => .done (castConstant, some (.constantOrNull true))
    | .compareDistinctFrom => .done (castConstant, some (.constant (some true)))
    | .compareNotDistinctFrom => .done (castConstant, some (.constant (some false)))
    | .compareLessThan | .compareGreaterThanOrEqualTo => bump castConstant columnRefLeft
    | .compareLessThanOrEqualTo | .compareGreaterThan => bump castConstant (!columnRefLeft)
where
  /-- The next day, where one day has to be added. -/
  bump (castConstant : Date) (addOneDay : Bool) : Outcome (Date × Option DateCondition) :=
    if addOneDay then do
      let days ← int32 (castConstant.toInt + 1)
      .done (Date.ofInt days, none)
    else .done (castConstant, none)

/-- `ComparisonSimplificationRule::Apply`, of the comparison of a DATE column that is cast to TIMESTAMP with a constant. -/
def simplifyDateComparison (type : ComparisonType) (columnRefLeft : Bool) (constantValue : Option Timestamp) :
    Outcome DateCondition :=
  match constantValue with
  | none =>
    if type ≠ .compareNotDistinctFrom ∧ type ≠ .compareDistinctFrom then .done (.constant none)
    else .done (orderOperands none)
  | some constant => do
    let (castConstant, replacement) ←
      dateTimestampComparisonIsInvertible type constant constant.getDate columnRefLeft
    match replacement with
    | some replacement => .done replacement
    | none => .done (orderOperands (some castConstant))
where
  /-- The column replaces its cast, and the constant is put on the other side. -/
  orderOperands (constant : Option Date) : DateCondition :=
    if columnRefLeft then .comparison type .column (.constant constant)
    else .comparison type (.constant constant) .column

/-! ## `TimeStampComparison` -/

/-- `t >= lower AND t < upper`, on a column of type TIMESTAMP. -/
structure RangeTest where
  lower : Timestamp
  upper : Timestamp
deriving DecidableEq

/-- The value of the test, where the column has the value `t`. -/
def RangeTest.eval (test : RangeTest) (t : Option Timestamp) : Truth :=
  compareValues .compareGreaterThanOrEqualTo (t.map Timestamp.toInt) (some test.lower.toInt)
    ⊓ compareValues .compareLessThan (t.map Timestamp.toInt) (some test.upper.toInt)

/-- `TimeStampComparison::Apply`, with the value of the constant. -/
def timestampComparison (toString : Date → String) (constant : Option Date) : Outcome (Option RangeTest) :=
  match constant with
  | none => .error "Calling GetValueInternal on a value that is NULL"
  | some originalVal => do
    let originalValTs ← Timestamp.fromDatetime originalVal (Time.ofInt 0)
    match originalVal.tryAdd 1 with
    | none => .done none
    | some nextDate => do
      let plusOneDateTs ← nextDate.castTimestamp toString
      .done (some ⟨originalValTs, plusOneDateTs⟩)

end Optimizer

end Haybarn
