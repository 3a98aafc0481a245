/-
The conversions of dates compute the proleptic Gregorian calendar. The tables are those of the calendar, the loops end
in the year of the date, and no step overflows.
-/
import Haybarn.Lib.Gregorian
import Haybarn.Temporal.Date

namespace Haybarn.Temporal.Date

open Lib Lib.Gregorian Outcome

/-! ## The tables -/

theorem cumulativeYearDays_eq : cumulativeYearDays = (List.range 401).map fun i : Nat => yearStart (1970 + i) := by
  decide +kernel

theorem lookup_cumulativeYearDays {i : Int} (h0 : 0 ≤ i) (h : i ≤ 400) :
    lookup cumulativeYearDays i = .done (yearStart (1970 + i)) := by
  refine lookup_done h0 ?_
  rw [cumulativeYearDays_eq, List.getElem?_map, List.getElem?_range (by omega), Option.map_some, Int.toNat_of_nonneg h0]

theorem isLeapYear_iff (year : Int) : isLeapYear year = true ↔ IsLeap year := by
  unfold isLeapYear IsLeap
  simp only [Bool.and_eq_true, Bool.or_eq_true, decide_eq_true_eq, tmod_eq_zero_iff, ne_eq]

theorem exists_year (year : Int) : ∃ y : Int, (y = 2000 ∨ y = 2001) ∧ (IsLeap year ↔ IsLeap y) := by
  by_cases h : IsLeap year
  · exact ⟨2000, Or.inl rfl, iff_of_true h (by decide)⟩
  · exact ⟨2001, Or.inr rfl, iff_of_false h (by decide)⟩

theorem isLeapYear_congr {year year' : Int} (h : IsLeap year ↔ IsLeap year') : isLeapYear year = isLeapYear year' := by
  rw [Bool.eq_iff_iff, isLeapYear_iff, isLeapYear_iff, h]

theorem cumulativeDays_getElem (year : Int) {m : Nat} (h : m ≤ 12) :
    (if isLeapYear year then cumulativeLeapDays else cumulativeDays)[m]? = some (monthStart year (m + 1)) := by
  obtain ⟨y, hy, hleap⟩ := exists_year year
  have htable : ∀ i : Fin 13,
      cumulativeLeapDays[i.val]? = some (monthStart 2000 (i + 1)) ∧
        cumulativeDays[i.val]? = some (monthStart 2001 (i + 1)) := by
    decide
  obtain ⟨h2000, h2001⟩ := htable ⟨m, by omega⟩
  rw [isLeapYear_congr hleap, monthStart_congr hleap]
  rcases hy with rfl | rfl
  · exact h2000
  · exact h2001

theorem lookup_cumulativeDays {year month : Int} (h1 : 1 ≤ month) (h12 : month ≤ 12) :
    lookup (if isLeapYear year then cumulativeLeapDays else cumulativeDays) (month - 1) =
      .done (monthStart year month) := by
  have hmonth : (((month - 1).toNat : Int) + 1) = month := by omega
  refine lookup_done (by omega) ?_
  rw [cumulativeDays_getElem year (by omega), hmonth]

theorem days_getElem (year : Int) {month : Int} (h1 : 1 ≤ month) (h12 : month ≤ 12) :
    (if isLeapYear year then leapDays else normalDays)[month.toNat]? = some (monthLength year month) := by
  obtain ⟨y, hy, hleap⟩ := exists_year year
  have htable : ∀ i : Fin 12, leapDays[i.val + 1]? = some (monthLength 2000 (i + 1)) ∧
      normalDays[i.val + 1]? = some (monthLength 2001 (i + 1)) := by
    decide
  obtain ⟨h2000, h2001⟩ := htable ⟨(month - 1).toNat, by omega⟩
  have hmonth : (((month - 1).toNat : Int) + 1) = month := by omega
  have hmonth' : (month - 1).toNat + 1 = month.toNat := by omega
  simp only [hmonth, hmonth'] at h2000 h2001
  rw [isLeapYear_congr hleap, monthLength_congr hleap]
  rcases hy with rfl | rfl
  · exact h2000
  · exact h2001

theorem days_eq_monthLength {year month : Int} (h1 : 1 ≤ month) (h12 : month ≤ 12) :
    (if isLeapYear year then leapDays else normalDays).getD month.toNat 0 = monthLength year month := by
  rw [List.getD_eq_getElem?_getD, days_getElem year h1 h12, Option.getD_some]

/-- The months of the days of a year, for the first `k` months. -/
def months (y : Int) (k : Nat) : List Int :=
  (List.range k).flatMap fun m : Nat => List.replicate (monthLength y (m + 1)).toNat ((m : Int) + 1)

theorem months_succ (y : Int) (k : Nat) :
    months y (k + 1) = months y k ++ List.replicate (monthLength y (k + 1)).toNat ((k : Int) + 1) := by
  rw [months, List.range_succ, List.flatMap_append, List.flatMap_singleton]
  rfl

theorem length_months (y : Int) (k : Nat) : ((months y k).length : Int) = monthStart y (k + 1) := by
  induction k with
  | zero => rfl
  | succ k ih =>
    have := monthLength_pos y (k + 1)
    rw [months_succ, List.length_append, List.length_replicate]
    push_cast
    rw [ih, monthStart_succ y (show 1 ≤ (k : Int) + 1 by omega), Int.toNat_of_nonneg (by omega)]

theorem months_getElem (y : Int) {i : Nat} : ∀ {k : Nat}, (i : Int) < monthStart y (k + 1) →
    ∃ m : Nat, m < k ∧ (months y k)[i]? = some ((m : Int) + 1) ∧ monthStart y (m + 1) ≤ i ∧ i < monthStart y (m + 1 + 1)
  | 0, h => by
    have : monthStart y (((0 : Nat) : Int) + 1) = 0 := rfl
    omega
  | k + 1, h => by
    have hlength := length_months y k
    rw [months_succ]
    by_cases hlt : (i : Int) < monthStart y (k + 1)
    · obtain ⟨m, hm, hmonth, hbounds⟩ := months_getElem y hlt
      rw [List.getElem?_append_left (by omega)]
      exact ⟨m, by omega, hmonth, hbounds⟩
    · have hsucc := monthStart_succ y (show 1 ≤ (k : Int) + 1 by omega)
      rw [List.getElem?_append_right (by omega), List.getElem?_replicate, if_pos]
      · exact ⟨k, by omega, rfl, by omega, h⟩
      · push_cast at h
        omega

theorem lookup_monthPerDayOfYear {year day : Int} (h0 : 0 ≤ day) (h : day < yearLength year) :
    ∃ month, lookup (if isLeapYear year then leapMonthPerDayOfYear else monthPerDayOfYear) day = .done month ∧
      1 ≤ month ∧ month ≤ 12 ∧ monthStart year month ≤ day ∧ day < monthStart year (month + 1) := by
  have htable : leapMonthPerDayOfYear = months 2000 12 ∧ monthPerDayOfYear = months 2001 12 := by decide +kernel
  obtain ⟨y, hy, hleap⟩ := exists_year year
  have hentry : (if isLeapYear year then leapMonthPerDayOfYear else monthPerDayOfYear) = months y 12 := by
    rw [isLeapYear_congr hleap]
    rcases hy with rfl | rfl
    · exact htable.1
    · exact htable.2
  have hday : ((day.toNat : Nat) : Int) = day := Int.toNat_of_nonneg h0
  rw [← monthStart_thirteen, monthStart_congr hleap] at h
  obtain ⟨m, hm, hmonth, hlo, hhi⟩ := months_getElem y (i := day.toNat) (k := 12) (hday ▸ h)
  rw [hday, ← monthStart_congr hleap] at hlo hhi
  rw [hentry]
  exact ⟨m + 1, lookup_done h0 hmonth, by omega, by omega, hlo, hhi⟩

/-! ## The year of a day -/

theorem yearStart_add_length_le {y i j : Int} (h : i ≤ j) : yearStart (y + i) ≤ yearStart (y + j) := by
  unfold yearStart
  omega

/-- The year offset is lowered to the last year that starts by the day. -/
theorem lowerYearOffset_spec {n : Int} (h0 : 0 ≤ n) : ∀ {offset : Nat}, offset ≤ 400 →
    n < yearStart (1970 + offset + 1) → ∃ k : Nat, k ≤ offset ∧ lowerYearOffset n offset = .done k ∧
      yearStart (1970 + k) ≤ n ∧ n < yearStart (1970 + k + 1)
  | 0, _, hlt => by
    have hstart : yearStart (1970 + ((0 : Nat) : Int)) = 0 := yearStart_epoch
    refine ⟨0, le_refl _, ?_, hstart ▸ h0, hlt⟩
    rw [lowerYearOffset, lookup_cumulativeYearDays (by decide) (by decide), done_bind]
    exact if_neg (not_lt.mpr (hstart ▸ h0))
  | offset + 1, hle, hlt => by
    rw [lowerYearOffset, lookup_cumulativeYearDays (by omega) (by omega), done_bind]
    by_cases h : n < yearStart (1970 + ((offset : Int) + 1))
    · rw [if_pos h]
      obtain ⟨k, hk, hdone, hspec⟩ := @lowerYearOffset_spec n h0 offset (by omega) (by rwa [add_assoc])
      exact ⟨k, by omega, hdone, hspec⟩
    · rw [if_neg h]
      exact ⟨offset + 1, le_refl _, rfl, by push_cast; omega, hlt⟩

/-- The day `r` within 400 years, and the year offset, stand for the day `n` of the year `year`. -/
structure YearOffset (n r year offset : Int) : Prop where
  shift : ∃ k, n = r + 146097 * k ∧ year = 1970 + offset + 400 * k
  nonneg : 0 ≤ offset
  lt : offset < 400
  start : yearStart (1970 + offset) ≤ r
  stop : r < yearStart (1970 + offset + 1)

variable {n : Int}

/-- The loops shift by whole cycles of the calendar, and end within the first one. -/
theorem normalize_spec (h : InInt32 n) :
    (loop (fun s : Int × Int => decide (s.1 < 0)) (fun s => do
      let n ← int32 (s.1 + daysPerYearInterval)
      let year ← int32 (s.2 - yearInterval)
      .done (n, year)) (n.natAbs + 1) (n, epochYear)).Returns fun s =>
        0 ≤ s.1 ∧ InInt32 s.1 ∧ ∃ k, n = s.1 + 146097 * k ∧ s.2 = 1970 + 400 * k ∧ -14700 ≤ k ∧ k ≤ 0 := by
  unfold InInt32 at *
  refine (returns_loop (μ := fun s => (-s.1).toNat)
    (I := fun s => s.1 < 2 ^ 31 ∧ ∃ k, n = s.1 + 146097 * k ∧ s.2 = 1970 + 400 * k ∧ -14700 ≤ k ∧ k ≤ 0)
    ?_ ?_ ?_).mono ?_
  · rintro ⟨r, year⟩ ⟨hlt, k, hn, hyear, hlo, hhi⟩ hc
    have hneg : r < 0 := of_decide_eq_true hc
    simp only at hn hyear hlt ⊢
    have hr : InInt32 (r + daysPerYearInterval) := by
      unfold InInt32 daysPerYearInterval
      omega
    have hy : InInt32 (year - yearInterval) := by
      unfold InInt32 yearInterval
      omega
    rw [int32_done hr, done_bind, int32_done hy, done_bind]
    unfold daysPerYearInterval yearInterval
    exact returns_done ⟨⟨by omega, k - 1, by omega, by omega, by omega, by omega⟩, by omega⟩
  · exact ⟨h.2, 0, by omega, rfl, by omega, le_refl _⟩
  · simp only
    omega
  · rintro ⟨r, year⟩ ⟨⟨hlt, hk⟩, hc⟩
    have := of_decide_eq_false hc
    simp only at hlt hk this ⊢
    exact ⟨by omega, by omega, hk⟩

theorem lower_spec {year : Int} (h0 : 0 ≤ n) (h : InInt32 n) (hy : -10000000 ≤ year ∧ year ≤ 1970) :
    (loop (fun s : Int × Int => decide (s.1 ≥ daysPerYearInterval)) (fun s => do
      let n ← int32 (s.1 - daysPerYearInterval)
      let year ← int32 (s.2 + yearInterval)
      .done (n, year)) (n.natAbs + 1) (n, year)).Returns fun s =>
        0 ≤ s.1 ∧ s.1 < 146097 ∧ ∃ k, n = s.1 + 146097 * k ∧ s.2 = year + 400 * k ∧ 0 ≤ k ∧ k ≤ 14700 := by
  unfold InInt32 at *
  refine (returns_loop (μ := fun s => s.1.toNat)
    (I := fun s => 0 ≤ s.1 ∧ ∃ k, n = s.1 + 146097 * k ∧ s.2 = year + 400 * k ∧ 0 ≤ k ∧ k ≤ 14700)
    ?_ ?_ ?_).mono ?_
  · rintro ⟨r, year'⟩ ⟨hnonneg, k, hn, hyear, hlo, hhi⟩ hc
    have hge : r ≥ daysPerYearInterval := of_decide_eq_true hc
    simp only [daysPerYearInterval] at hn hyear hnonneg hge ⊢
    have hr : InInt32 (r - 146097) := by
      unfold InInt32
      omega
    have hy' : InInt32 (year' + yearInterval) := by
      unfold InInt32 yearInterval
      omega
    rw [int32_done hr, done_bind, int32_done hy', done_bind]
    unfold yearInterval
    exact returns_done ⟨⟨by omega, k + 1, by omega, by omega, by omega, by omega⟩, by omega⟩
  · exact ⟨h0, 0, by omega, by omega, le_refl _, by omega⟩
  · simp only
    omega
  · rintro ⟨r, year'⟩ ⟨⟨hnonneg, hk⟩, hc⟩
    have := of_decide_eq_false hc
    simp only [daysPerYearInterval] at hnonneg hk this ⊢
    exact ⟨hnonneg, by omega, hk⟩

theorem extractYearOffset_spec (h : InInt32 n) :
    ∃ r year offset, extractYearOffset n = .done (r, year, offset) ∧ YearOffset n r year offset := by
  obtain ⟨⟨n1, year1⟩, hloop1, hn1, hin1, k1, hk1, hyear1, hlo1, hhi1⟩ := normalize_spec h
  simp only at hn1 hin1 hk1 hyear1
  obtain ⟨⟨n2, year2⟩, hloop2, hn2, hlt2, k2, hk2, hyear2, hlo2, hhi2⟩ :=
    @lower_spec _ year1 hn1 hin1 (by omega)
  simp only at hn2 hlt2 hk2 hyear2
  have hquotient : n2.tdiv 365 = n2 / 365 := Int.tdiv_eq_ediv_of_nonneg hn2
  obtain ⟨offset, hoffset, hlower, hstart, hstop⟩ := @lowerYearOffset_spec n2 hn2 (n2 / 365).toNat (by omega) (by
    unfold yearStart
    omega)
  refine ⟨n2, year2 + offset, offset, ?_, ⟨k1 + k2, by omega, by omega⟩, by omega, ?_, hstart, hstop⟩
  · have hyear : InInt32 (year2 + offset) := by
      unfold InInt32
      omega
    unfold extractYearOffset
    rw [hloop1, done_bind]
    simp only
    rw [hloop2, done_bind]
    simp only
    rw [hquotient, if_neg (by omega), hlower, done_bind, int32_done hyear, done_bind]
  · by_contra hge
    have : yearStart (1970 + 400) ≤ yearStart (1970 + offset) := yearStart_add_length_le (by omega)
    rw [show (1970 + 400 : Int) = 1970 + 400 * 1 by rfl, yearStart_add, yearStart_epoch] at this
    omega

theorem YearOffset.year {n r year offset : Int} (h : YearOffset n r year offset) :
    r - yearStart (1970 + offset) = n - yearStart year ∧ yearStart year ≤ n ∧ n < yearStart (year + 1) ∧
      yearStart (1970 + offset + 1) - yearStart (1970 + offset) = yearLength year := by
  obtain ⟨k, rfl, rfl⟩ := h.shift
  have hstart := h.start
  have hstop := h.stop
  have hlength : yearLength (1970 + offset + 400 * k) = yearLength (1970 + offset) := by
    simp only [yearLength, isLeap_add]
  rw [yearStart_succ, hlength, yearStart_add]
  rw [yearStart_succ] at hstop ⊢
  omega

/-! ## The conversions -/

theorem isValid_iff (year month day : Int) :
    isValid year month day = true ↔ IsDate year month day ∧
      (minYear < year ∨ year = minYear ∧ (minMonth < month ∨ month = minMonth ∧ minDay ≤ day)) ∧
      (year < maxYear ∨ year = maxYear ∧ (month < maxMonth ∨ month = maxMonth ∧ day ≤ maxDay)) := by
  unfold isValid
  by_cases hmonth : 1 ≤ month ∧ month ≤ 12
  · rw [if_neg (by omega), days_eq_monthLength hmonth.1 hmonth.2]
    constructor
    · intro h
      split_ifs at h with h1 h2 h3
      exact ⟨⟨hmonth.1, hmonth.2, by omega, of_decide_eq_true h⟩, by omega, by omega⟩
    · rintro ⟨⟨-, -, h3, h4⟩, hmin, hmax⟩
      rw [if_neg (by omega), if_neg (by omega), if_neg (by omega)]
      exact decide_eq_true h4
  · rw [if_pos (by omega)]
    exact ⟨fun h => absurd h Bool.false_ne_true, fun h => absurd ⟨h.1.one_le_month, h.1.month_le⟩ hmonth⟩

/-- Every day is converted to its date. -/
theorem convert_spec (date : Date) :
    ∃ year month day, convert date = .done (year, month, day) ∧ IsDate year month day ∧
      dayNumber year month day = date.toInt := by
  obtain ⟨r, year, offset, hextract, h⟩ := extractYearOffset_spec (inInt32_toInt date.days)
  obtain ⟨hday, hlo, hhi, hlength⟩ := h.year
  have hnonneg := h.nonneg
  have hlt := h.lt
  rw [yearStart_succ] at hhi
  obtain ⟨month, hmonth, h1, h12, hfirst, hlast⟩ := @lookup_monthPerDayOfYear year
    (r - yearStart (1970 + offset)) (by omega) (by omega)
  have hcumulative := @lookup_cumulativeDays year _ h1 h12
  have hbounds := yearLength_bounds year
  have hin : InInt32 (r - yearStart (1970 + offset)) := by
    unfold InInt32
    omega
  have hleap : yearLength year = 366 ↔ isLeapYear year = true := by
    rw [isLeapYear_iff]
    unfold yearLength
    split_ifs with hyear <;> simp [hyear]
  refine ⟨year, month, r - yearStart (1970 + offset) - monthStart year month + 1, ?_, ?_, ?_⟩
  · unfold convert
    rw [show extractYearOffset date.toInt = _ from hextract, done_bind]
    simp only
    rw [lookup_cumulativeYearDays hnonneg (by omega), done_bind,
      lookup_cumulativeYearDays (by omega) (by omega), done_bind, int32_done hin, done_bind,
      ← add_assoc, hlength]
    by_cases hyear : isLeapYear year = true
    · rw [if_pos hyear] at hmonth hcumulative
      rw [if_pos (hleap.mpr hyear), hmonth, done_bind, hcumulative, done_bind]
    · rw [if_neg hyear] at hmonth hcumulative
      rw [if_neg (mt hleap.mp hyear), hmonth, done_bind, hcumulative, done_bind]
  · rw [monthStart_succ year h1] at hlast
    exact ⟨h1, h12, by omega, by omega⟩
  · unfold dayNumber
    show _ = date.toInt
    have hn : date.toInt = date.days.toInt := rfl
    omega

theorem cumulativeYearDays_bounds {i : Int} (h0 : 0 ≤ i) (h : i ≤ 400) :
    0 ≤ yearStart (1970 + i) ∧ yearStart (1970 + i) ≤ 146097 := by
  unfold yearStart
  omega

theorem isValid_iff_dayNumber {year month day : Int} (h : IsDate year month day) :
    isValid year month day = true ↔ -(2 ^ 31 - 2) ≤ dayNumber year month day ∧ dayNumber year month day ≤ 2 ^ 31 - 2 := by
  have hmin : IsDate minYear minMonth minDay := by constructor <;> decide
  have hmax : IsDate maxYear maxMonth maxDay := by constructor <;> decide
  have hfirst : dayNumber minYear minMonth minDay = -(2 ^ 31 - 2) := by decide
  have hlast : dayNumber maxYear maxMonth maxDay = 2 ^ 31 - 2 := by decide
  have hlt := dayNumber_lt_iff h hmin
  have hgt := dayNumber_lt_iff hmax h
  rw [hfirst] at hlt
  rw [hlast] at hgt
  rw [isValid_iff]
  constructor
  · rintro ⟨-, hlo, hhi⟩
    have := mt hlt.mp (by omega)
    have := mt hgt.mp (by omega)
    omega
  · rintro ⟨hlo, hhi⟩
    have := mt hlt.mpr (by omega)
    have := mt hgt.mpr (by omega)
    exact ⟨h, by omega, by omega⟩

theorem inInt32 (date : Date) : InInt32 date.toInt := inInt32_toInt date.days

theorem toInt_ofInt (h : InInt32 n) : (ofInt n).toInt = n := toInt_ofInt32 h

theorem ofInt_toInt (date : Date) : ofInt date.toInt = date := by
  unfold ofInt toInt
  rw [BitVec.ofInt_toInt]

theorem tryFromDate_none {year month day : Int} (h : ¬ isValid year month day = true) :
    tryFromDate year month day = .done none := by
  unfold tryFromDate
  rw [if_neg h]

/-- A valid date is converted to its day number, and no step overflows. -/
theorem tryFromDate_spec {year month day : Int} (h : isValid year month day = true) :
    tryFromDate year month day = .done (some (ofInt (dayNumber year month day))) ∧
      InInt32 (dayNumber year month day) := by
  obtain ⟨hdate, hmin, hmax⟩ := (isValid_iff year month day).mp h
  obtain ⟨hlo, hhi⟩ := (isValid_iff_dayNumber hdate).mp h
  have h1 := hdate.one_le_month
  have h12 := hdate.month_le
  have hend := hdate.bounds
  rw [yearStart_succ] at hend
  have hlength := yearLength_bounds year
  unfold minYear at hmin
  unfold maxYear at hmax
  unfold dayNumber at *
  have hn : InInt32 (monthStart year month + (day - 1)) := by
    unfold InInt32
    omega
  refine ⟨?_, by unfold InInt32; omega⟩
  unfold tryFromDate
  rw [if_pos h, lookup_cumulativeDays h1 h12, done_bind, int32_done hn, done_bind]
  have hsum : yearStart year + monthStart year month + (day - 1) =
      monthStart year month + (day - 1) + yearStart year := by omega
  have hn366 : monthStart year month + (day - 1) < 366 := by omega
  rw [hsum] at hlo hhi ⊢
  generalize monthStart year month + (day - 1) = n at *
  by_cases hbefore : year < 1970
  · have hshift := yearStart_add year ((1970 - year) / 400 + 1)
    have hindex : 1970 + (400 - (1970 - year) % 400) = year + 400 * ((1970 - year) / 400 + 1) := by omega
    have hstart := cumulativeYearDays_bounds (i := 400 - (1970 - year) % 400) (by omega) (by omega)
    rw [hindex, hshift] at hstart
    rw [if_pos hbefore, int32_done (by unfold InInt32; omega), done_bind, Int.tmod_eq_emod_of_nonneg (by omega),
      Int.tdiv_eq_ediv_of_nonneg (by omega)]
    simp only [daysPerYearInterval]
    rw [lookup_cumulativeYearDays (by omega) (by omega), done_bind, hindex, hshift]
    generalize (1970 - year) / 400 = fractions at *
    rw [int32_done (by unfold InInt32; omega), done_bind, int32_done (by unfold InInt32; omega),
      done_bind, int32_done (by unfold InInt32; omega), done_bind,
      int32_done (by unfold InInt32; omega), done_bind]
    exact congrArg (fun n => done (some (ofInt n))) (by omega)
  · rw [if_neg hbefore]
    by_cases hafter : year ≥ 2370
    · have hshift := yearStart_add year (-((year - 2370) / 400) - 1)
      have hindex : 1970 + (year - 2370) % 400 = year + 400 * (-((year - 2370) / 400) - 1) := by omega
      have hstart := cumulativeYearDays_bounds (i := (year - 2370) % 400) (by omega) (by omega)
      rw [hindex, hshift] at hstart
      rw [if_pos hafter, int32_done (by unfold InInt32; omega), done_bind, Int.tmod_eq_emod_of_nonneg (by omega),
        Int.tdiv_eq_ediv_of_nonneg (by omega)]
      simp only [daysPerYearInterval]
      rw [lookup_cumulativeYearDays (by omega) (by omega), done_bind, hindex, hshift]
      generalize (year - 2370) / 400 = fractions at *
      rw [int32_done (by unfold InInt32; omega), done_bind, int32_done (by unfold InInt32; omega),
        done_bind, int32_done (by unfold InInt32; omega), done_bind,
        int32_done (by unfold InInt32; omega), done_bind]
      exact congrArg (fun n => done (some (ofInt n))) (by omega)
    · rw [if_neg hafter, lookup_cumulativeYearDays (by omega) (by omega), done_bind,
        show 1970 + (year - 1970) = year by omega, int32_done (by unfold InInt32; omega), done_bind]

end Haybarn.Temporal.Date
