/-
What the conversions of dates return, for every date. They are a monotone bijection between the days and the dates of
the calendar; the ISO weeks are those of the standard, except for the days whose ISO year starts before the first date.
-/
import Haybarn.Temporal.Calendar

namespace Haybarn.Temporal.Date

open Lib Lib.Gregorian Outcome

variable {date : Date} {year month day : Int}

/-! ## Triples -/

theorem toInt_inj {a b : Date} : a.toInt = b.toInt ↔ a = b := by
  refine ⟨fun h => ?_, fun h => h ▸ rfl⟩
  rw [← ofInt_toInt a, ← ofInt_toInt b, h]

theorem convert_eq (h : IsDate year month day) (hday : dayNumber year month day = date.toInt) :
    date.convert = .done (year, month, day) := by
  obtain ⟨y, m, d, hconvert, hdate, hnumber⟩ := convert_spec date
  obtain ⟨rfl, rfl, rfl⟩ := dayNumber_inj h hdate (hday.trans hnumber.symm)
  exact hconvert

theorem isDate_of_isValid (h : isValid year month day = true) : IsDate year month day :=
  ((isValid_iff year month day).mp h).1

theorem exists_date_of_isValid (h : isValid year month day = true) :
    ∃ date, tryFromDate year month day = .done (some date) ∧ date.toInt = dayNumber year month day ∧
      date.convert = .done (year, month, day) := by
  obtain ⟨htry, hin⟩ := tryFromDate_spec h
  have hnumber := toInt_ofInt hin
  exact ⟨_, htry, hnumber, convert_eq (isDate_of_isValid h) hnumber.symm⟩

theorem convert_isValid_iff (date : Date) :
    (∃ year month day, date.convert = .done (year, month, day) ∧ isValid year month day = true ∧
      tryFromDate year month day = .done (some date)) ↔
      -(2 ^ 31 - 2) ≤ date.toInt ∧ date.toInt ≤ 2 ^ 31 - 2 := by
  obtain ⟨y, m, d, hconvert, hdate, hnumber⟩ := convert_spec date
  have hvalid := isValid_iff_dayNumber hdate
  rw [hnumber] at hvalid
  constructor
  · rintro ⟨y', m', d', hconvert', hvalid', -⟩
    rw [hconvert] at hconvert'
    cases hconvert'
    exact hvalid.mp hvalid'
  · intro h
    have hv := hvalid.mpr h
    obtain ⟨htry, -⟩ := tryFromDate_spec hv
    refine ⟨y, m, d, hconvert, hv, ?_⟩
    rw [htry, hnumber, ofInt_toInt]

/-! ## Days of the year and of the week -/

theorem extractDayOfTheYear_spec (date : Date) :
    ∃ year, yearStart year ≤ date.toInt ∧ date.toInt < yearStart (year + 1) ∧
      date.extractDayOfTheYear = .done (date.toInt - yearStart year + 1) := by
  obtain ⟨r, year, offset, hextract, h⟩ := extractYearOffset_spec (inInt32_toInt date.days)
  obtain ⟨hday, hlo, hhi, hlength⟩ := h.year
  have hlt := h.lt
  have hin : InInt32 (r - yearStart (1970 + offset) + 1) := by
    have := cumulativeYearDays_bounds h.nonneg hlt.le
    have := cumulativeYearDays_bounds (i := offset + 1) (by have := h.nonneg; omega) (by omega)
    have hstop := h.stop
    rw [add_assoc] at hstop
    unfold InInt32
    omega
  refine ⟨year, hlo, hhi, ?_⟩
  unfold extractDayOfTheYear
  rw [show extractYearOffset date.toInt = _ from hextract, done_bind]
  simp only
  rw [lookup_cumulativeYearDays h.nonneg hlt.le, done_bind, int32_done hin, hday]
  rfl

theorem extractISODayOfTheWeek_eq (date : Date) : date.extractISODayOfTheWeek = weekday date.toInt := by
  unfold extractISODayOfTheWeek weekday
  split_ifs with h
  · rw [Int.tmod_eq_emod_of_nonneg (by omega)]
    omega
  · rw [Int.tmod_eq_emod_of_nonneg (by omega)]

/-! ## ISO weeks -/

/-- The Monday of the first ISO week, the week of the first Thursday. -/
def weekOneMonday (year : Int) : Int :=
  if 4 < weekday (yearStart year) then yearStart year - weekday (yearStart year) + 8
  else yearStart year - weekday (yearStart year) + 1

theorem weekOneMonday_bounds (year : Int) :
    weekOneMonday year - 3 ≤ yearStart year ∧ yearStart year ≤ weekOneMonday year + 3 := by
  have := weekday_bounds (yearStart year)
  unfold weekOneMonday
  split_ifs <;> omega

/-- The days from the first Monday of a year are those of the weeks of the year or of a later one. -/
theorem weekOneMonday_spec (year n : Int) :
    (weekOneMonday year ≤ n ↔ yearStart year ≤ thursday n) ∧
      (thursday n - yearStart year) / 7 = (n - weekOneMonday year) / 7 := by
  unfold weekOneMonday thursday weekday
  split_ifs <;> omega

theorem pythonDivMod_eq (x : Int) : (pythonDivMod x 7).1 = x / 7 := by
  obtain ⟨hsum, hlo, hhi, hpos, hneg⟩ := tdiv_spec x (show 0 < 7 by decide)
  unfold pythonDivMod
  simp only
  split_ifs <;> simp only <;> omega

/-- The first week of a year whose first day is a valid date. -/
theorem getISOWeekOne_spec (hlo : minYear < year) (hhi : year ≤ maxYear) :
    getISOWeekOne year = .done (ofInt (weekOneMonday year)) ∧ InInt32 (weekOneMonday year) := by
  have hfirst : IsDate year 1 1 := ⟨by decide, by decide, by decide, (monthLength_pos year 1).trans' (by decide)⟩
  have hvalid : isValid year 1 1 = true := by
    refine (isValid_iff year 1 1).mpr ⟨hfirst, Or.inl hlo, ?_⟩
    rcases eq_or_lt_of_le hhi with rfl | h
    · exact Or.inr ⟨rfl, Or.inl (by decide)⟩
    · exact Or.inl h
  obtain ⟨htry, hin⟩ := tryFromDate_spec hvalid
  have hnumber : dayNumber year 1 1 = yearStart year := by
    unfold dayNumber
    rw [monthStart_one]
    omega
  rw [hnumber] at htry hin
  have hweekday := weekday_bounds (yearStart year)
  have hbounds : -(2 ^ 31 - 100) ≤ yearStart year ∧ yearStart year ≤ 2 ^ 31 - 100 := by
    unfold minYear at hlo
    unfold maxYear at hhi
    unfold yearStart
    omega
  refine ⟨?_, ?_⟩
  · unfold getISOWeekOne fromDate
    rw [htry, done_bind, done_bind, extractISODayOfTheWeek_eq, toInt_ofInt hin]
    simp only
    rw [int32_done (by unfold InInt32; omega), done_bind]
    unfold weekOneMonday
    split_ifs with h1 h2 h2
    · rw [int32_done (by unfold InInt32; omega), done_bind]
      exact congrArg (fun n => done (ofInt n)) (by omega)
    · omega
    · omega
    · exact congrArg (fun n => done (ofInt n)) (by omega)
  · unfold weekOneMonday InInt32
    split_ifs <;> omega

theorem getISOWeekOne_error (h : year ≤ minYear) : ∃ message, getISOWeekOne year = .error message := by
  have hvalid : ¬ isValid year 1 1 = true := by
    rw [isValid_iff]
    rintro ⟨-, hlo | ⟨-, hlo⟩, -⟩
    · omega
    · exact absurd hlo (by decide)
  unfold getISOWeekOne fromDate
  rw [tryFromDate_none hvalid, done_bind]
  exact ⟨_, rfl⟩

/-- The first day whose ISO year starts on a valid date. -/
def firstIsoDay : Int := -2147483453

theorem weekOneMonday_firstIsoDay : weekOneMonday (minYear + 1) = firstIsoDay := by decide

theorem isIsoWeek_of_thursday {n w : Int} (h : yearStart year ≤ thursday n) (h' : thursday n < yearStart (year + 1))
    (hw : w = (n - weekOneMonday year) / 7 + 1) : IsIsoWeek n year w :=
  ⟨h, h', by rw [hw, (weekOneMonday_spec year n).2]⟩

/-- The ISO year and week, where the first day of that year is a valid date. -/
theorem extractISOYearWeek_spec (date : Date) (h : firstIsoDay ≤ date.toInt) (hmax : date.toInt ≤ 2 ^ 31 - 2) :
    ∃ year week, date.extractISOYearWeek = .done (year, week) ∧ IsIsoWeek date.toInt year week := by
  obtain ⟨year, month, day, hconvert, hdate, hnumber⟩ := convert_spec date
  have hyear := hdate.bounds
  rw [hnumber] at hyear
  have hnext := yearStart_succ year
  have hfirst : yearStart (minYear + 1) = -2147483456 := by decide
  have hlast : yearStart maxYear = 2147483455 := by decide
  have hafter : yearStart (maxYear + 1) = 2147483821 := by decide
  have hlo : minYear < year := by
    by_contra hle
    rcases eq_or_lt_of_le (not_lt.mp hle) with rfl | hlt
    · unfold firstIsoDay at h
      omega
    · have : yearStart (year + 1) ≤ yearStart (minYear + 1) := yearStart_lt (by omega)
      unfold firstIsoDay at h
      omega
  have hhi : year ≤ maxYear := by
    by_contra hgt
    have : yearStart (maxYear + 1) ≤ yearStart year := yearStart_lt (by omega)
    omega
  obtain ⟨hone, hin⟩ := getISOWeekOne_spec hlo hhi
  obtain ⟨hle, hweek⟩ := weekOneMonday_spec year date.toInt
  obtain ⟨hle', -⟩ := weekOneMonday_spec (year + 1) date.toInt
  have hweekday := weekday_bounds date.toInt
  have hmonday := weekOneMonday_bounds year
  have hmonday' := weekOneMonday_bounds (year + 1)
  have hlength := yearLength_bounds year
  have hdays : InInt32 (date.toInt - weekOneMonday year) := by
    unfold InInt32
    omega
  have hthursday : date.toInt - 3 ≤ thursday date.toInt ∧ thursday date.toInt ≤ date.toInt + 3 := by
    unfold thursday
    omega
  unfold extractISOYearWeek
  rw [hconvert, done_bind]
  simp only
  rw [hone, done_bind, toInt_ofInt hin, int32_done hdays, done_bind, pythonDivMod_eq]
  by_cases hneg : (date.toInt - weekOneMonday year) / 7 < 0
  · -- a day of the last week of the year before
    have hlo' : minYear < year - 1 := by
      by_contra hle
      obtain rfl : year = minYear + 1 := by omega
      rw [weekOneMonday_firstIsoDay] at hneg
      omega
    have hprevious := yearStart_succ (year - 1)
    rw [sub_add_cancel] at hprevious
    have hlength' := yearLength_bounds (year - 1)
    have hmonday'' := weekOneMonday_bounds (year - 1)
    obtain ⟨hone', hin'⟩ := getISOWeekOne_spec hlo' (by omega)
    rw [if_pos hneg, hone', done_bind, toInt_ofInt hin', int32_done (by unfold InInt32; omega),
      done_bind, pythonDivMod_eq]
    refine ⟨_, _, rfl, isIsoWeek_of_thursday (by omega) ?_ rfl⟩
    rw [sub_add_cancel]
    omega
  · rw [if_neg hneg]
    by_cases hlate : (date.toInt - weekOneMonday year) / 7 ≥ 52
    · have hhi' : year + 1 ≤ maxYear := by
        by_contra hgt
        obtain rfl : year = maxYear := by omega
        omega
      obtain ⟨hone', hin'⟩ := @getISOWeekOne_spec (year + 1) (by omega) hhi'
      rw [if_pos hlate, hone', done_bind, toInt_ofInt hin']
      by_cases hover : date.toInt ≥ weekOneMonday (year + 1)
      · -- a day of the first week of the year after
        have hsecond := yearStart_succ (year + 1)
        have hlength' := yearLength_bounds (year + 1)
        rw [if_pos hover]
        exact ⟨_, _, rfl, isIsoWeek_of_thursday (by omega) (by omega) (by omega)⟩
      · rw [if_neg hover]
        exact ⟨_, _, rfl, isIsoWeek_of_thursday (by omega) (by omega) rfl⟩
    · rw [if_neg hlate]
      exact ⟨_, _, rfl, isIsoWeek_of_thursday (by omega) (by omega) rfl⟩

theorem extractISOYearWeek_error (date : Date) (h : date.toInt < firstIsoDay) :
    ∃ message, date.extractISOYearWeek = .error message := by
  obtain ⟨year, month, day, hconvert, hdate, hnumber⟩ := convert_spec date
  have hyear := hdate.bounds
  rw [hnumber] at hyear
  have hfirst : yearStart (minYear + 1) = -2147483456 := by decide
  have hsecond : yearStart (minYear + 1 + 1) = -2147483090 := by decide
  have hle : year ≤ minYear + 1 := by
    by_contra hgt
    have : yearStart (minYear + 1 + 1) ≤ yearStart year := yearStart_lt (by omega)
    unfold firstIsoDay at h
    omega
  unfold extractISOYearWeek
  rw [hconvert, done_bind]
  simp only
  rcases eq_or_lt_of_le hle with rfl | hlt
  · obtain ⟨hone, hin⟩ := @getISOWeekOne_spec (minYear + 1) (by decide) (by decide)
    obtain ⟨message, herror⟩ := @getISOWeekOne_error (minYear + 1 - 1) (by decide)
    rw [hone, done_bind, toInt_ofInt hin, weekOneMonday_firstIsoDay]
    have hneg : (date.toInt - firstIsoDay) / 7 < 0 := by omega
    rw [int32_done (by unfold InInt32; unfold firstIsoDay at *; omega), done_bind, pythonDivMod_eq, if_pos hneg,
      herror]
    exact ⟨_, rfl⟩
  · obtain ⟨message, herror⟩ := @getISOWeekOne_error year (by omega)
    rw [herror]
    exact ⟨_, rfl⟩

/-! ## Every date -/

/-- What is converted, extracted and converted back is what the calendar says. -/
structure Exact (date : Date) : Prop where
  valid : ∃ year month day, date.convert = .done (year, month, day) ∧ isValid year month day = true ∧
    tryFromDate year month day = .done (some date)
  dayOfTheYear : ∃ year, yearStart year ≤ date.toInt ∧ date.toInt < yearStart (year + 1) ∧
    date.extractDayOfTheYear = .done (date.toInt - yearStart year + 1)
  dayOfTheWeek : date.extractISODayOfTheWeek = weekday date.toInt
  yearWeek : ∃ year week, date.extractISOYearWeek = .done (year, week) ∧ IsIsoWeek date.toInt year week

theorem isFinite_iff (date : Date) :
    date.isFinite = true ↔ date.toInt ≠ 2 ^ 31 - 1 ∧ date.toInt ≠ -(2 ^ 31 - 1) := by
  have hinf : date = infinity ↔ date.toInt = 2 ^ 31 - 1 := by
    rw [← toInt_inj]
    exact Iff.of_eq (congrArg (date.toInt = ·) (toInt_ofInt (by decide)))
  have hninf : date = ninfinity ↔ date.toInt = -(2 ^ 31 - 1) := by
    rw [← toInt_inj]
    exact Iff.of_eq (congrArg (date.toInt = ·) (toInt_ofInt (by decide)))
  unfold isFinite
  rw [Bool.and_eq_true, bne_iff_ne, bne_iff_ne, ne_eq, ne_eq, hinf, hninf]

/-- The valid triples are converted to their day numbers and back, in their order, without an overflow. A finite day is
converted as the calendar says exactly when its ISO year starts on a valid date. -/
theorem calendar_exact (date : Date) :
    (∀ year month day, isValid year month day = true →
      ∃ date, tryFromDate year month day = .done (some date) ∧ date.toInt = dayNumber year month day ∧
        date.convert = .done (year, month, day)) ∧
    (∀ year month day year' month' day' date date', tryFromDate year month day = .done (some date) →
      tryFromDate year' month' day' = .done (some date') →
        (date.toInt < date'.toInt ↔ year < year' ∨ year = year' ∧ (month < month' ∨ month = month' ∧ day < day'))) ∧
    (date.isFinite = true → (date.Exact ↔ firstIsoDay ≤ date.toInt)) := by
  refine ⟨fun _ _ _ => exists_date_of_isValid, ?_, fun hfinite => ?_⟩
  · intro year month day year' month' day' date date' h h'
    have hvalid {y m d : Int} {e : Date} (h : tryFromDate y m d = .done (some e)) : isValid y m d = true := by
      by_contra hnot
      rw [tryFromDate_none hnot] at h
      exact absurd (Outcome.done.inj h) (Option.some_ne_none e).symm
    have hnumber {y m d : Int} {e : Date} (h : tryFromDate y m d = .done (some e)) : e.toInt = dayNumber y m d := by
      obtain ⟨e', he', hday, -⟩ := exists_date_of_isValid (hvalid h)
      rw [h] at he'
      cases he'
      exact hday
    rw [hnumber h, hnumber h']
    exact dayNumber_lt_iff (isDate_of_isValid (hvalid h)) (isDate_of_isValid (hvalid h'))
  · obtain ⟨hinf, hninf⟩ := (isFinite_iff date).mp hfinite
    have hrange := inInt32_toInt date.days
    constructor
    · rintro ⟨-, -, -, year, week, hweek, -⟩
      by_contra hlt
      obtain ⟨message, herror⟩ := extractISOYearWeek_error date (by omega)
      rw [herror] at hweek
      cases hweek
    · intro h
      have hmax : date.toInt ≤ 2 ^ 31 - 2 := by
        have : date.toInt < 2 ^ 31 := hrange.2
        omega
      refine ⟨(convert_isValid_iff date).mpr ⟨?_, hmax⟩, extractDayOfTheYear_spec date, extractISODayOfTheWeek_eq date,
        extractISOYearWeek_spec date h hmax⟩
      unfold firstIsoDay at h
      omega

/-- The ISO week of the first valid date cannot be extracted. -/
theorem not_exact_first : (ofInt (-(2 ^ 31 - 2))).isFinite = true ∧ ¬ (ofInt (-(2 ^ 31 - 2))).Exact := by
  refine ⟨by decide, ?_⟩
  rintro ⟨-, -, -, year, week, hweek, -⟩
  obtain ⟨message, herror⟩ := extractISOYearWeek_error (ofInt (-(2 ^ 31 - 2))) (by decide)
  rw [herror] at hweek
  cases hweek

end Haybarn.Temporal.Date
