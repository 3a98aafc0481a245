/-
Comparing dates with timestamps is exact where the conversions inside the rules are defined, and there only.
-/
import Haybarn.Optimizer.DateComparison

namespace Haybarn

namespace Temporal

open Lib Outcome
open Temporal.Interval (microsPerDay)

/-! ## Dates as timestamps -/

/-- The last day whose midnight is a timestamp; the first one is its opposite. -/
def lastDay : Int := 106751991

theorem timestamp_infinity : Timestamp.infinity.toInt = 2 ^ 63 - 1 := Timestamp.toInt_ofInt (by decide)

theorem timestamp_ninfinity : Timestamp.ninfinity.toInt = -(2 ^ 63 - 1) := Timestamp.toInt_ofInt (by decide)

theorem date_infinity : Date.infinity.toInt = 2 ^ 31 - 1 := Date.toInt_ofInt (by decide)

theorem date_ninfinity : Date.ninfinity.toInt = -(2 ^ 31 - 1) := Date.toInt_ofInt (by decide)

theorem time_zero : (Time.ofInt 0).toInt = 0 := Time.toInt_ofInt (by decide)

variable {date : Date}

theorem tryFromDatetime_of_done {time : Time} {t : Timestamp}
    (h : Timestamp.fromDatetime date time = .done t) : Timestamp.tryFromDatetime date time = some t := by
  unfold Timestamp.fromDatetime at h
  split at h
  next => cases h; assumption
  next => cases h

theorem tryFromDatetime_of_error {time : Time} {message : String}
    (h : Timestamp.fromDatetime date time = .error message) : Timestamp.tryFromDatetime date time = none := by
  unfold Timestamp.fromDatetime at h
  split at h
  next => cases h
  next => assumption

theorem fromDatetime_midnight (date : Date) :
    (-lastDay ≤ date.toInt ∧ date.toInt ≤ lastDay ∧ ∃ t, Timestamp.tryFromDatetime date (Time.ofInt 0) = some t ∧
      t.toInt = date.toInt * microsPerDay) ∨
    ((date.toInt < -lastDay ∨ lastDay < date.toInt) ∧ Timestamp.tryFromDatetime date (Time.ofInt 0) = none) := by
  have h0 : 0 ≤ (Time.ofInt 0).toInt := by rw [time_zero]
  have hlt : (Time.ofInt 0).toInt < microsPerDay := by
    rw [time_zero]
    decide
  by_cases hin : -lastDay ≤ date.toInt ∧ date.toInt ≤ lastDay
  · have hdone := @Timestamp.fromDatetime_done date _ h0 hlt
      (by rw [time_zero]; simp only [Timestamp.first, lastDay, microsPerDay] at *; omega)
      (by rw [time_zero]; simp only [lastDay, microsPerDay] at *; omega)
    refine .inl ⟨hin.1, hin.2, _, tryFromDatetime_of_done hdone, ?_⟩
    rw [time_zero, add_zero]
    refine Timestamp.toInt_ofInt ?_
    unfold InInt64
    simp only [lastDay, microsPerDay] at *
    omega
  · obtain ⟨message, herror⟩ := @Timestamp.fromDatetime_error date _ h0 hlt
      (by rw [time_zero]; simp only [Timestamp.first, lastDay, microsPerDay] at *; omega)
    exact .inr ⟨by omega, tryFromDatetime_of_error herror⟩

/-- A date that is cast to a timestamp is infinite, or the timestamp is its midnight. -/
theorem tryCastTimestamp_spec {t : Timestamp} (h : date.tryCastTimestamp = some t) :
    (date.toInt = 2 ^ 31 - 1 ∧ t.toInt = 2 ^ 63 - 1) ∨ (date.toInt = -(2 ^ 31 - 1) ∧ t.toInt = -(2 ^ 63 - 1)) ∨
      (-lastDay ≤ date.toInt ∧ date.toInt ≤ lastDay ∧ t.toInt = date.toInt * microsPerDay) := by
  unfold Date.tryCastTimestamp at h
  split at h
  next hinf =>
    cases h
    exact .inl ⟨hinf ▸ date_infinity, timestamp_infinity⟩
  next =>
    split at h
    next hninf =>
      cases h
      exact .inr (.inl ⟨hninf ▸ date_ninfinity, timestamp_ninfinity⟩)
    next =>
      rcases fromDatetime_midnight date with ⟨hlo, hhi, t', ht', hvalue⟩ | ⟨-, hnone⟩
      · rw [ht'] at h
        cases h
        exact .inr (.inr ⟨hlo, hhi, hvalue⟩)
      · rw [hnone] at h
        cases h

namespace Timestamp

/-- The timestamp can be split into its date and its time. -/
def Splits (t : Timestamp) : Prop := t.isFinite = true ∧ Timestamp.first ≤ t.toInt

theorem getTime_done {t : Timestamp} (hsplits : Splits t) :
    t.getTime = .done (Time.ofInt (t.toInt % microsPerDay)) := by
  obtain ⟨h, hfirst⟩ := hsplits
  have hrange := t.inInt64
  have hdate := Timestamp.getDate_toInt h
  unfold InInt64 at hrange
  unfold Timestamp.getTime
  simp only [h, Bool.not_true, Bool.false_eq_true, if_false]
  simp only [hdate, Timestamp.first, microsPerDay] at *
  rw [int64_done (by unfold InInt64; omega), done_bind, int64_done (by unfold InInt64; omega), done_bind]
  exact congrArg (fun n => done (Time.ofInt n)) (by omega)

theorem splits_of_getTime {t : Timestamp} {time : Time} (h : t.getTime = .done time) : Splits t := by
  have hrange := t.inInt64
  unfold InInt64 at hrange
  unfold getTime at h
  split at h
  next => cases h
  next hfinite =>
    have hfinite : t.isFinite = true := by simpa using hfinite
    refine ⟨hfinite, ?_⟩
    by_contra hfirst
    rw [Timestamp.getDate_toInt hfinite, int64, if_neg] at h
    · cases h
    · unfold InInt64
      simp only [Timestamp.first, microsPerDay] at *
      omega

end Timestamp

end Temporal

namespace Optimizer

open Lib Temporal
open Temporal.Interval (microsPerDay)

/-! ## Comparisons -/

section Comparisons

variable {V W : Type} [LinearOrder V] [LinearOrder W]

theorem compareValues_congr (type : ComparisonType) {a b : V} {a' b' : W} (hlt : a < b ↔ a' < b')
    (hgt : b < a ↔ b' < a') : compareValues type (some a) (some b) = compareValues type (some a') (some b') := by
  have heq : a = b ↔ a' = b' := by
    constructor
    · intro h
      exact le_antisymm (not_lt.mp (hgt.not.mp (by simp [h]))) (not_lt.mp (hlt.not.mp (by simp [h])))
    · intro h
      exact le_antisymm (not_lt.mp (hgt.not.mpr (by simp [h]))) (not_lt.mp (hlt.not.mpr (by simp [h])))
  have hle : a ≤ b ↔ a' ≤ b' := by rw [← not_lt, ← not_lt, hgt]
  have hge : b ≤ a ↔ b' ≤ a' := by rw [← not_lt, ← not_lt, hlt]
  have hbeq : (a == b) = (a' == b') := by rw [Bool.eq_iff_iff, beq_iff_eq, beq_iff_eq, heq]
  cases type <;>
    simp only [compareValues, Option.some_beq_some, bne, hbeq, hlt, hgt, hle, hge]

theorem compareValues_none (type : ComparisonType) (b : V) (b' : W) :
    compareValues type none (some b) = compareValues type none (some b') := by
  cases type <;> rfl

theorem compareValues_null (type : ComparisonType) (b : V) (b' : W) :
    compareValues type (some b) none = compareValues type (some b') none := by
  cases type <;> rfl

theorem compareValues_of_not_distinct {type : ComparisonType}
    (h : type ≠ .compareNotDistinctFrom ∧ type ≠ .compareDistinctFrom) (l : Option V) :
    compareValues type l none = .null ∧ compareValues type none l = .null := by
  cases type with
  | compareDistinctFrom => exact absurd rfl h.2
  | compareNotDistinctFrom => exact absurd rfl h.1
  | _ => cases l <;> exact ⟨rfl, rfl⟩

theorem compareValues_flip (type : ComparisonType) (l r : Option V) :
    compareValues type.flip l r = compareValues type r l := by
  have hbeq (x y : Option V) : (x == y) = (y == x) := by rw [Bool.eq_iff_iff, beq_iff_eq, beq_iff_eq, eq_comm]
  have hbeq' (x y : V) : (x == y) = (y == x) := by rw [Bool.eq_iff_iff, beq_iff_eq, beq_iff_eq, eq_comm]
  cases type <;> cases l <;> cases r <;> simp only [compareValues, ComparisonType.flip, bne, hbeq, hbeq']

end Comparisons

/-! ## `ComparisonSimplificationRule` -/

/-- The cast of a DATE value to TIMESTAMP succeeds. -/
inductive CastsToTimestamp : Option Date → Option Timestamp → Prop
  | null : CastsToTimestamp none none
  | value {d : Date} {t : Timestamp} : d.tryCastTimestamp = some t → CastsToTimestamp (some d) (some t)

/-- The value of `CAST(d AS TIMESTAMP) op T`, or of the comparison with the constant on the left. -/
def compareTimestamps (type : ComparisonType) (columnRefLeft : Bool) (t constant : Option Timestamp) : Truth :=
  if columnRefLeft then compareValues type (t.map Timestamp.toInt) (constant.map Timestamp.toInt)
  else compareValues type (constant.map Timestamp.toInt) (t.map Timestamp.toInt)

/-- The rule raises no error, and its result has the value of the comparison. -/
def DateComparisonExact (type : ComparisonType) (columnRefLeft : Bool) (constant : Option Timestamp) : Prop :=
  (simplifyDateComparison type columnRefLeft constant).Returns fun result =>
    ∀ d t, CastsToTimestamp d t → result.eval d = compareTimestamps type columnRefLeft t constant

theorem bump_flip (type : ComparisonType) (constant : Timestamp) (castConstant : Date) :
    dateTimestampComparisonIsInvertible type constant castConstant false
      = dateTimestampComparisonIsInvertible type.flip constant castConstant true := by
  unfold dateTimestampComparisonIsInvertible
  cases type <;> rfl

variable {constant : Timestamp}

theorem midnight_order {d : Date} {t : Timestamp} (h : d.tryCastTimestamp = some t)
    (hsplits : Timestamp.Splits constant) (hmidnight : constant.toInt % microsPerDay = 0) :
    (d.toInt < constant.getDate.toInt ↔ t.toInt < constant.toInt) ∧
      (constant.getDate.toInt < d.toInt ↔ constant.toInt < t.toInt) := by
  obtain ⟨hfinite, hfirst⟩ := hsplits
  have hrange := constant.inInt64
  have hcast := tryCastTimestamp_spec h
  rw [Timestamp.getDate_toInt hfinite]
  unfold InInt64 at hrange
  simp only [Timestamp.first, microsPerDay, lastDay] at *
  omega

theorem withinDay_order {d : Date} {t : Timestamp} (h : d.tryCastTimestamp = some t)
    (hsplits : Timestamp.Splits constant) (hmidnight : constant.toInt % microsPerDay ≠ 0) :
    t.toInt ≠ constant.toInt ∧ (t.toInt < constant.toInt ↔ d.toInt ≤ constant.getDate.toInt) := by
  obtain ⟨hfinite, hfirst⟩ := hsplits
  have hrange := constant.inInt64
  have hnot := (Timestamp.isFinite_iff constant).mp hfinite
  have hcast := tryCastTimestamp_spec h
  rw [Timestamp.getDate_toInt hfinite]
  unfold InInt64 at hrange
  simp only [Timestamp.first, microsPerDay, lastDay] at *
  omega

theorem time_eq_zero_iff :
    Time.ofInt (constant.toInt % microsPerDay) = Time.ofInt 0 ↔ constant.toInt % microsPerDay = 0 := by
  constructor
  · intro h
    have hvalue := congrArg Time.toInt h
    rwa [time_zero, Time.toInt_ofInt] at hvalue
    unfold InInt64
    simp only [microsPerDay]
    omega
  · intro h
    rw [h]

/-- The day after the one of a timestamp is a date. -/
theorem nextDay_spec (hsplits : Timestamp.Splits constant) :
    InInt32 (constant.getDate.toInt + 1) := by
  have hrange := constant.inInt64
  rw [Timestamp.getDate_toInt hsplits.1]
  unfold InInt64 at hrange
  unfold InInt32
  simp only [microsPerDay]
  omega

/-- The comparison with a time within a day, by the kind of the comparison. -/
theorem withinDay_spec (type : ComparisonType) (hsplits : Timestamp.Splits constant)
    (hwithin : constant.toInt % microsPerDay ≠ 0) : DateComparisonExact type true (some constant) := by
  have hvalue {d : Date} {t : Timestamp} (h : d.tryCastTimestamp = some t) := withinDay_order h hsplits hwithin
  have hnext := nextDay_spec hsplits
  have hnextDay := Date.toInt_ofInt hnext
  unfold DateComparisonExact simplifyDateComparison dateTimestampComparisonIsInvertible
  simp only
  rw [Timestamp.getTime_done hsplits, Outcome.done_bind, if_neg (time_eq_zero_iff.not.mpr hwithin)]
  cases type with
  | compareEqual | compareNotEqual | compareDistinctFrom | compareNotDistinctFrom =>
    refine Outcome.returns_done fun d t hcast => ?_
    cases hcast with
    | null => rfl
    | value h =>
      have hbeq := beq_false_of_ne (hvalue h).1
      simp [DateCondition.eval, compareTimestamps, compareValues, bne, hbeq]
  | compareLessThan | compareGreaterThanOrEqualTo =>
    simp only [dateTimestampComparisonIsInvertible.bump, if_true]
    rw [int32_done hnext, Outcome.done_bind, Outcome.done_bind]
    refine Outcome.returns_done fun d t hcast => ?_
    cases hcast with
    | null => rfl
    | value h =>
      obtain ⟨hne, hlt⟩ := hvalue h
      simp only [simplifyDateComparison.orderOperands, if_true, DateCondition.eval, DateExpression.eval, Option.map_some,
        compareTimestamps, compareValues, hnextDay]
      exact congrArg Truth.ofBool (decide_eq_decide.mpr (by omega))
  | compareLessThanOrEqualTo | compareGreaterThan =>
    simp only [dateTimestampComparisonIsInvertible.bump, Bool.not_true, Bool.false_eq_true, if_false]
    rw [Outcome.done_bind]
    refine Outcome.returns_done fun d t hcast => ?_
    cases hcast with
    | null => rfl
    | value h =>
      obtain ⟨hne, hlt⟩ := hvalue h
      simp only [simplifyDateComparison.orderOperands, if_true, DateCondition.eval, DateExpression.eval, Option.map_some,
        compareTimestamps, compareValues]
      exact congrArg Truth.ofBool (decide_eq_decide.mpr (by omega))

/-- The comparison with a midnight. -/
theorem midnight_spec (type : ComparisonType) (hsplits : Timestamp.Splits constant)
    (hmidnight : constant.toInt % microsPerDay = 0) : DateComparisonExact type true (some constant) := by
  unfold DateComparisonExact simplifyDateComparison dateTimestampComparisonIsInvertible
  simp only
  rw [Timestamp.getTime_done hsplits, Outcome.done_bind, if_pos (time_eq_zero_iff.mpr hmidnight), Outcome.done_bind]
  refine Outcome.returns_done fun d t hcast => ?_
  simp only [simplifyDateComparison.orderOperands, if_true, DateCondition.eval, compareTimestamps]
  cases hcast with
  | null => exact compareValues_none type _ _
  | value hvalue =>
    obtain ⟨hlt, hgt⟩ := midnight_order hvalue hsplits hmidnight
    exact compareValues_congr type hlt hgt

theorem compareTimestamps_flip (type : ComparisonType) (t constant : Option Timestamp) :
    compareTimestamps type.flip true t constant = compareTimestamps type false t constant := by
  simp only [compareTimestamps, if_true, Bool.false_eq_true, if_false, compareValues_flip]

theorem DateComparisonExact.flip {type : ComparisonType}
    (h : DateComparisonExact type.flip true (some constant)) : DateComparisonExact type false (some constant) := by
  obtain ⟨result, hresult, heval⟩ := h
  simp only [compareTimestamps_flip] at heval
  unfold DateComparisonExact
  unfold simplifyDateComparison at hresult ⊢
  simp only at hresult ⊢
  rw [bump_flip]
  generalize dateTimestampComparisonIsInvertible type.flip constant constant.getDate true = outcome at *
  cases outcome with
  | done pair =>
    obtain ⟨castConstant, replacement⟩ := pair
    cases replacement with
    | some replacement =>
      cases hresult
      exact Outcome.returns_done heval
    | none =>
      cases hresult
      refine Outcome.returns_done fun d t hcast => ?_
      rw [← heval d t hcast]
      exact (compareValues_flip type _ _).symm
  | error message => cases hresult
  | fault => cases hresult
  | hang => cases hresult

theorem dateComparisonExact_null (type : ComparisonType) (columnRefLeft : Bool) :
    DateComparisonExact type columnRefLeft none := by
  unfold DateComparisonExact simplifyDateComparison
  simp only
  split
  next hdistinct =>
    refine Outcome.returns_done fun d t hcast => ?_
    have hnull := compareValues_of_not_distinct hdistinct (t.map Timestamp.toInt)
    cases columnRefLeft with
    | true => exact hnull.1.symm
    | false => exact hnull.2.symm
  next =>
    refine Outcome.returns_done fun d t hcast => ?_
    cases hcast with
    | null => cases columnRefLeft <;> rfl
    | value =>
      cases columnRefLeft with
      | true => exact compareValues_null type _ _
      | false => exact compareValues_none type _ _

theorem dateComparisonExact_iff (type : ComparisonType) (columnRefLeft : Bool) (constant : Option Timestamp) :
    DateComparisonExact type columnRefLeft constant ↔ ∀ c ∈ constant, Timestamp.Splits c := by
  cases constant with
  | none => exact iff_of_true (dateComparisonExact_null type columnRefLeft) (by simp)
  | some constant =>
    simp only [Option.mem_some_iff, forall_eq']
    constructor
    · rintro ⟨result, hresult, -⟩
      unfold simplifyDateComparison dateTimestampComparisonIsInvertible at hresult
      simp only at hresult
      cases htime : constant.getTime with
      | done time => exact Timestamp.splits_of_getTime htime
      | error message => rw [htime] at hresult; cases hresult
      | fault => rw [htime] at hresult; cases hresult
      | hang => rw [htime] at hresult; cases hresult
    · intro hsplits
      have hleft (type : ComparisonType) : DateComparisonExact type true (some constant) := by
        by_cases hmidnight : constant.toInt % microsPerDay = 0
        · exact midnight_spec type hsplits hmidnight
        · exact withinDay_spec type hsplits hmidnight
      cases columnRefLeft with
      | true => exact hleft type
      | false => exact (hleft type.flip).flip

/-! ## `TimeStampComparison` -/

/-- The rule raises no error, and its result has the value of `CAST(t AS DATE) = D`. -/
def RangeTestExact (toString : Date → String) (constant : Date) : Prop :=
  (timestampComparison toString (some constant)).Returns fun result => ∀ test ∈ result, ∀ t : Option Timestamp,
    test.eval t = compareValues .compareEqual (t.map (·.getDate.toInt)) (some constant.toInt)

theorem getDate_eq_iff {constant : Date} (hlo : -lastDay ≤ constant.toInt) (hhi : constant.toInt < lastDay)
    (t : Timestamp) : t.getDate.toInt = constant.toInt ↔
      constant.toInt * microsPerDay ≤ t.toInt ∧ t.toInt < (constant.toInt + 1) * microsPerDay := by
  have hrange := t.inInt64
  unfold InInt64 at hrange
  by_cases hfinite : t.isFinite = true
  · rw [Timestamp.getDate_toInt hfinite]
    simp only [microsPerDay]
    omega
  · have hdate : t.getDate.toInt = 2 ^ 31 - 1 ∨ t.getDate.toInt = -(2 ^ 31 - 1) := by
      unfold Timestamp.getDate
      split
      next => exact .inl date_infinity
      next =>
        split
        next => exact .inr date_ninfinity
        next hinf hninf => exact absurd (by simp [Timestamp.isFinite, hinf, hninf]) hfinite
    have hvalue := (Timestamp.isFinite_iff t).not.mp hfinite
    simp only [lastDay, microsPerDay] at *
    omega

theorem fromDatetime_of_tryFromDatetime {date : Date} {time : Time} :
    Timestamp.fromDatetime date time = match Timestamp.tryFromDatetime date time with
      | some t => .done t
      | none => .error "Date and time not in timestamp range" := rfl

/-- A day that is not infinite is followed by another day, and both are cast like finite dates. -/
theorem nextDate_spec {constant : Date} (hlo : -lastDay ≤ constant.toInt) (hhi : constant.toInt ≤ lastDay) :
    ∃ next, constant.tryAdd 1 = some next ∧ next.toInt = constant.toInt + 1 ∧
      next.tryCastTimestamp = Timestamp.tryFromDatetime next (Time.ofInt 0) := by
  have hnext : InInt32 (constant.toInt + 1) := by
    unfold InInt32
    simp only [lastDay] at *
    omega
  have hvalue := Date.toInt_ofInt hnext
  have hne (n : Int) (date other : Date) (hdate : date.toInt = n) (hother : other.toInt ≠ n) : other ≠ date := by
    rintro rfl
    exact hother hdate
  simp only [lastDay] at *
  have hinf := hne _ _ constant date_infinity (by omega)
  have hninf := hne _ _ constant date_ninfinity (by omega)
  have hinf' := hne _ _ (Date.ofInt (constant.toInt + 1)) date_infinity (by omega)
  have hninf' := hne _ _ (Date.ofInt (constant.toInt + 1)) date_ninfinity (by omega)
  refine ⟨Date.ofInt (constant.toInt + 1), ?_, hvalue, ?_⟩
  · unfold Date.tryAdd
    rw [if_neg (by simp [hinf, hninf]), tryInt32_some hnext]
    simp [Date.isFinite, hinf', hninf']
  · unfold Date.tryCastTimestamp
    rw [if_neg hinf', if_neg hninf']

theorem rangeTestExact_iff (toString : Date → String) (constant : Date) :
    RangeTestExact toString constant ↔ -lastDay ≤ constant.toInt ∧ constant.toInt < lastDay := by
  unfold RangeTestExact timestampComparison
  simp only [fromDatetime_of_tryFromDatetime]
  rcases fromDatetime_midnight constant with ⟨hlo, hhi, lower, hlower, hlowerValue⟩ | ⟨hout, hnone⟩
  · obtain ⟨next, hnext, hnextValue, hcast⟩ := nextDate_spec hlo hhi
    rw [hlower, Outcome.done_bind, hnext]
    simp only [Date.castTimestamp, hcast]
    rcases fromDatetime_midnight next with ⟨hlo', hhi', upper, hupper, hupperValue⟩ | ⟨hout', hnone'⟩
    · rw [hupper, Outcome.done_bind]
      refine iff_of_true (Outcome.returns_done ?_) ⟨hlo, by omega⟩
      rintro _ ⟨⟩ t
      cases t with
      | none => rfl
      | some t =>
        have hdate := getDate_eq_iff hlo (by omega) t
        rw [hnextValue] at hupperValue
        rw [← hlowerValue, ← hupperValue] at hdate
        simp only [RangeTest.eval, Option.map_some, compareValues, ← Truth.ofBool_and]
        refine congrArg Truth.ofBool (Bool.eq_iff_iff.mpr ?_)
        rw [Bool.and_eq_true, decide_eq_true_iff, decide_eq_true_iff, beq_iff_eq, hdate]
    · rw [hnone']
      refine iff_of_false ?_ (by omega)
      rintro ⟨result, hresult, -⟩
      cases hresult
  · rw [hnone]
    refine iff_of_false ?_ (by omega)
    rintro ⟨result, hresult, -⟩
    cases hresult

/-! ## Both rules -/

/-- The rules for dates and timestamps are exact, and raise no error, where the constant of the comparison with a cast
DATE is NULL or a timestamp that can be split into its date and its time, and where the constant of the comparison with
a cast TIMESTAMP is a day that starts and ends at a timestamp. -/
theorem dateTimestampRules_iff (type : ComparisonType) (columnRefLeft : Bool) (toString : Date → String)
    (timestamp : Option Timestamp) (date : Date) :
    DateComparisonExact type columnRefLeft timestamp ∧ RangeTestExact toString date ↔
      (∀ t ∈ timestamp, Timestamp.Splits t) ∧ -lastDay ≤ date.toInt ∧ date.toInt < lastDay := by
  rw [dateComparisonExact_iff, rangeTestExact_iff]

/-- The rule raises an error where a DATE is compared with the timestamp `infinity`, and so does the other one where the
date of a TIMESTAMP is compared with the date `infinity`. -/
theorem dateComparison_infinity :
    simplifyDateComparison .compareLessThan true (some Timestamp.infinity)
        = .error "Can't get TIME of infinite TIMESTAMP" ∧
      timestampComparison (fun _ => "infinity") (some Date.infinity) = .error "Date and time not in timestamp range" ∧
      ¬ (DateComparisonExact .compareLessThan true (some Timestamp.infinity) ∧
        RangeTestExact (fun _ => "infinity") Date.infinity) := by
  refine ⟨by rfl, by rfl, ?_⟩
  rintro ⟨⟨result, hresult, -⟩, -⟩
  have herror : simplifyDateComparison .compareLessThan true (some Timestamp.infinity)
      = .error "Can't get TIME of infinite TIMESTAMP" := by rfl
  rw [herror] at hresult
  cases hresult

end Optimizer

end Haybarn
