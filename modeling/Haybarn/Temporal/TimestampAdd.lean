/-
Adding an interval to a timestamp is exact. The months move the date in the calendar, the days and the microseconds
are added to it, and what does not fit is refused.
-/
import Haybarn.Temporal.DateExact
import Haybarn.Temporal.Timestamp

namespace Haybarn.Temporal

open Lib Lib.Gregorian Outcome
open Temporal.Interval (microsPerDay monthsPerYear)

/-! ## Timestamps as days and times -/

namespace Timestamp

/-- The first timestamp, which is the first day whose microseconds fit into 64 bits. -/
def first : Int := -9223372022400000000

theorem isFinite_iff (t : Timestamp) : t.isFinite = true ↔ t.toInt ≠ 2 ^ 63 - 1 ∧ t.toInt ≠ -(2 ^ 63 - 1) := by
  have hinj (a b : Timestamp) : a = b ↔ a.toInt = b.toInt := by
    refine ⟨fun h => h ▸ rfl, fun h => ?_⟩
    rw [← ofInt_toInt a, ← ofInt_toInt b, h]
  have hinf : infinity.toInt = 2 ^ 63 - 1 := toInt_ofInt (by decide)
  have hninf : ninfinity.toInt = -(2 ^ 63 - 1) := toInt_ofInt (by decide)
  unfold isFinite
  rw [Bool.and_eq_true, bne_iff_ne, bne_iff_ne, ne_eq, ne_eq, hinj, hinj, hinf, hninf]

variable {t : Timestamp}

theorem getDate_toInt (h : t.isFinite = true) : t.getDate.toInt = t.toInt / microsPerDay := by
  have hrange := t.inInt64
  unfold isFinite at h
  rw [Bool.and_eq_true, bne_iff_ne, bne_iff_ne] at h
  unfold getDate
  rw [if_neg h.1, if_neg h.2]
  unfold InInt64 at hrange
  simp only [microsPerDay]
  split_ifs with hneg
  · obtain ⟨hsum, hlo, hhi, -, hsign⟩ := tdiv_spec (t.toInt + 1) (show 0 < 86400000000 by decide)
    have := hsign (by omega)
    rw [Date.toInt_ofInt (by unfold InInt32; omega)]
    omega
  · rw [add_zero, sub_zero, Int.tdiv_eq_ediv_of_nonneg (by omega), Date.toInt_ofInt (by unfold InInt32; omega)]

/-- A timestamp is split into its date and the time of the day. -/
theorem convert_spec (h : t.isFinite = true) (hfirst : first ≤ t.toInt) :
    t.convert = .done (t.getDate, Time.ofInt (t.toInt % microsPerDay)) := by
  have hrange := t.inInt64
  have hdate := getDate_toInt h
  unfold InInt64 at hrange
  unfold convert
  simp only [hdate, first, microsPerDay] at *
  rw [tryInt64_some (by unfold InInt64; omega)]
  simp only
  rw [int64_done (by unfold InInt64; omega), done_bind]
  exact congrArg (fun n => done (t.getDate, Time.ofInt n)) (by omega)

theorem convert_error (h : t.isFinite = true) (hfirst : t.toInt < first) :
    ∃ message, t.convert = .error message := by
  have hdate := getDate_toInt h
  unfold convert
  simp only [hdate, first, microsPerDay] at *
  rw [tryInt64_none (by unfold InInt64; omega)]
  exact ⟨_, rfl⟩

theorem fromDatetime_done {date : Date} {time : Time} (h0 : 0 ≤ time.toInt) (h : time.toInt < microsPerDay)
    (hlo : first ≤ date.toInt * microsPerDay + time.toInt)
    (hhi : date.toInt * microsPerDay + time.toInt < 2 ^ 63 - 1) :
    fromDatetime date time = .done (ofInt (date.toInt * microsPerDay + time.toInt)) := by
  have hday : InInt64 (date.toInt * microsPerDay) := by
    unfold InInt64
    simp only [first, microsPerDay] at *
    omega
  have hsum : InInt64 (date.toInt * microsPerDay + time.toInt) := by
    unfold InInt64
    simp only [first, microsPerDay] at *
    omega
  have hfinite : (ofInt (date.toInt * microsPerDay + time.toInt)).isFinite = true := by
    rw [isFinite_iff, toInt_ofInt hsum]
    simp only [first, microsPerDay] at *
    omega
  unfold fromDatetime tryFromDatetime
  rw [tryInt64_some hday]
  simp only [Option.bind_eq_bind, Option.bind_some]
  rw [tryInt64_some hsum]
  simp only [Option.bind_some, hfinite, if_true]

theorem fromDatetime_error {date : Date} {time : Time} (h0 : 0 ≤ time.toInt) (h : time.toInt < microsPerDay)
    (hout : ¬ (first ≤ date.toInt * microsPerDay + time.toInt ∧
      date.toInt * microsPerDay + time.toInt < 2 ^ 63 - 1)) :
    ∃ message, fromDatetime date time = .error message := by
  have hnone : tryFromDatetime date time = none := by
    unfold tryFromDatetime
    by_cases hday : InInt64 (date.toInt * microsPerDay)
    · by_cases hsum : InInt64 (date.toInt * microsPerDay + time.toInt)
      · have hfinite : ¬ (ofInt (date.toInt * microsPerDay + time.toInt)).isFinite = true := by
          rw [isFinite_iff, toInt_ofInt hsum]
          unfold InInt64 at hday hsum
          simp only [first, microsPerDay] at *
          omega
        rw [tryInt64_some hday]
        simp only [Option.bind_eq_bind, Option.bind_some]
        rw [tryInt64_some hsum]
        simp only [Option.bind_some, hfinite, if_false, Bool.false_eq_true]
      · rw [tryInt64_some hday]
        simp only [Option.bind_eq_bind, Option.bind_some]
        rw [tryInt64_none hsum]
        rfl
    · rw [tryInt64_none hday]
      rfl
  unfold fromDatetime
  rw [hnone]
  exact ⟨_, rfl⟩

end Timestamp

/-! ## Adding to a date -/

namespace Date

variable {month : Int}

theorem monthDays_spec (year : Int) (h1 : 1 ≤ month) (h12 : month ≤ 12) :
    monthDays year month = .done (monthLength year month) :=
  lookup_done (by omega) (days_getElem year h1 h12)

theorem fromDate_done {year day : Int} (h : IsDate year month day)
    (hrange : -(2 ^ 31 - 2) ≤ dayNumber year month day ∧ dayNumber year month day ≤ 2 ^ 31 - 2) :
    fromDate year month day = .done (ofInt (dayNumber year month day)) := by
  unfold fromDate
  rw [(tryFromDate_spec ((isValid_iff_dayNumber h).mpr hrange)).1, done_bind]

theorem fromDate_error {year day : Int} (h : IsDate year month day)
    (hrange : ¬ (-(2 ^ 31 - 2) ≤ dayNumber year month day ∧ dayNumber year month day ≤ 2 ^ 31 - 2)) :
    ∃ message, fromDate year month day = .error message := by
  unfold fromDate
  rw [tryFromDate_none (mt (isValid_iff_dayNumber h).mp hrange), done_bind]
  exact ⟨_, rfl⟩

end Date

namespace Interval

theorem carryYear_eq {year month : Int} (hyear : -2 ^ 30 ≤ year ∧ year ≤ 2 ^ 30) (hlo : -12 < month) (hhi : month ≤ 24) :
    carryYear year month = .done (year + (month - 1) / 12, (month - 1) % 12 + 1) := by
  have hdone {a b a' b' : Int} (ha : a = a') (hb : b = b') : done (a, b) = done (a', b') := by
    rw [ha, hb]
  unfold carryYear monthsPerYear
  by_cases hover : month > 12
  · rw [if_pos hover, int32_done (by unfold InInt32; omega), done_bind]
    exact hdone (by omega) (by omega)
  · rw [if_neg hover]
    by_cases hunder : month ≤ 0
    · rw [if_pos hunder, int32_done (by unfold InInt32; omega), done_bind]
      exact hdone (by omega) (by omega)
    · rw [if_neg hunder]
      exact hdone (by omega) (by omega)

variable {left : Date}

theorem addMonths_eq {months : Int} (hleft : -106751992 ≤ left.toInt ∧ left.toInt ≤ 106751992)
    (hmonths : InInt32 months) :
    ∃ y m d, IsDate y m d ∧ dayNumber y m d = left.toInt ∧
      addMonths left months = Date.fromDate (movedYear y m months) (movedMonth m months) (movedDay y m d months) := by
  obtain ⟨y, m, d, hconvert, hdate, hnumber⟩ := Date.convert_spec left
  have h1 := hdate.one_le_month
  have h12 := hdate.month_le
  have hyear : -400000 ≤ y ∧ y ≤ 400000 := by
    have hbounds := hdate.bounds
    rw [hnumber] at hbounds
    unfold yearStart at hbounds
    omega
  obtain ⟨hsum, hlo, hhi, -, -⟩ := tdiv_spec months (show 0 < monthsPerYear by decide)
  have hmoved := hdate.moved months
  refine ⟨y, m, d, hdate, hnumber, ?_⟩
  unfold addMonths
  rw [hconvert, done_bind]
  simp only
  unfold InInt32 at hmonths
  rw [show months - months.tdiv monthsPerYear * monthsPerYear = months.tmod monthsPerYear by omega]
  generalize months.tmod monthsPerYear = r at *
  generalize months.tdiv monthsPerYear = q at *
  simp only [monthsPerYear] at hsum hlo hhi
  rw [int32_done (by unfold InInt32; omega), done_bind, int32_done (by unfold InInt32; omega),
    done_bind, carryYear_eq (by omega) (by omega) (by omega)]
  have hyear' : y + q + (m + r - 1) / 12 = movedYear y m months := by
    unfold movedYear
    omega
  have hmonth' : (m + r - 1) % 12 + 1 = movedMonth m months := by
    unfold movedMonth
    omega
  rw [hyear', hmonth', done_bind]
  simp only
  rw [Date.monthDays_spec _ hmoved.one_le_month hmoved.month_le, done_bind]
  rfl

theorem addMonths_ite {months moved : Int} (hleft : -106751992 ≤ left.toInt ∧ left.toInt ≤ 106751992)
    (h : Moves left.toInt months moved) (hmonths : InInt32 months) :
    (-(2 ^ 31 - 2) ≤ moved ∧ moved ≤ 2 ^ 31 - 2 →
      (if months ≠ 0 then addMonths left months else .done left) = .done (Date.ofInt moved)) ∧
    (¬ (-(2 ^ 31 - 2) ≤ moved ∧ moved ≤ 2 ^ 31 - 2) →
      ∃ message, (if months ≠ 0 then addMonths left months else .done left) = .error message) := by
  by_cases h0 : months = 0
  · rw [h0] at h
    rw [if_neg (not_not.mpr h0), h.zero, Date.ofInt_toInt]
    exact ⟨fun _ => rfl, fun hout => by omega⟩
  · obtain ⟨y, m, d, hdate, hnumber, hadd⟩ := addMonths_eq hleft hmonths
    rw [if_pos h0, hadd, h.eq hdate hnumber]
    exact ⟨Date.fromDate_done (hdate.moved months), Date.fromDate_error (hdate.moved months)⟩

theorem addDays_ite {c : Prop} [Decidable c] {date : Date} {n : Int} (h : ¬ c → n = 0) :
    (if c then addDays date n else .done date) =
      if InInt32 (date.toInt + n) then .done (Date.ofInt (date.toInt + n)) else .error "Date out of range" := by
  by_cases hc : c
  · rw [if_pos hc]
    unfold addDays
    by_cases hin : InInt32 (date.toInt + n)
    · rw [tryInt32_some hin, if_pos hin]
    · rw [tryInt32_none hin, if_neg hin]
  · rw [if_neg hc, h hc, add_zero, if_pos date.inInt32, Date.ofInt_toInt]

/-- The days that are counted once the months are moved. -/
structure Counted (right : Interval) (moved : Int) : Prop where
  valid : -(2 ^ 31 - 2) ≤ moved ∧ moved ≤ 2 ^ 31 - 2
  days : InInt32 (moved + right.days.toInt)
  carried : InInt32 (moved + right.days.toInt + right.micros.toInt.tdiv microsPerDay)
  finite : moved + right.days.toInt + right.micros.toInt.tdiv microsPerDay ≠ 2 ^ 31 - 1 ∧
    moved + right.days.toInt + right.micros.toInt.tdiv microsPerDay ≠ -(2 ^ 31 - 1)

/-- The months, the days and the whole days of the microseconds are added to a date. -/
theorem addDate_spec (right : Interval) {moved : Int}
    (hleft : -106751992 ≤ left.toInt ∧ left.toInt ≤ 106751992) (h : Moves left.toInt right.months.toInt moved) :
    (Counted right moved → addDate left right =
      .done (Date.ofInt (moved + right.days.toInt + right.micros.toInt.tdiv microsPerDay))) ∧
    (¬ Counted right moved → ∃ message, addDate left right = .error message) := by
  have hfinite : left.isFinite = true := by
    rw [Date.isFinite_iff]
    omega
  obtain ⟨hdone, herror⟩ := addMonths_ite hleft h (inInt32_toInt right.months)
  unfold addDate
  simp only [hfinite, Bool.not_true, Bool.false_eq_true, if_false]
  by_cases hvalid : -(2 ^ 31 - 2) ≤ moved ∧ moved ≤ 2 ^ 31 - 2
  · have hmoved := Date.toInt_ofInt (n := moved) (by unfold InInt32; omega)
    rw [hdone hvalid, done_bind, addDays_ite (fun hc => not_not.mp hc), hmoved]
    by_cases hdays : InInt32 (moved + right.days.toInt)
    · rw [if_pos hdays, done_bind, addDays_ite, Date.toInt_ofInt hdays]
      · by_cases hcarried : InInt32 (moved + right.days.toInt + right.micros.toInt.tdiv microsPerDay)
        · rw [if_pos hcarried, done_bind]
          have hiff := Date.isFinite_iff
            (Date.ofInt (moved + right.days.toInt + right.micros.toInt.tdiv microsPerDay))
          rw [Date.toInt_ofInt hcarried] at hiff
          by_cases hfin : (Date.ofInt (moved + right.days.toInt + right.micros.toInt.tdiv microsPerDay)).isFinite = true
          · simp only [hfin, Bool.not_true, Bool.false_eq_true, if_false]
            exact ⟨fun _ => trivial, fun hnot => absurd ⟨hvalid, hdays, hcarried, hiff.mp hfin⟩ hnot⟩
          · simp only [hfin, Bool.not_false, if_true]
            exact ⟨fun hcounted => absurd (hiff.mpr hcounted.finite) hfin, fun _ => ⟨_, rfl⟩⟩
        · rw [if_neg hcarried]
          exact ⟨fun hcounted => absurd hcounted.carried hcarried, fun _ => ⟨_, rfl⟩⟩
      · intro hc
        rw [not_not.mp hc]
        rfl
    · rw [if_neg hdays]
      exact ⟨fun hcounted => absurd hcounted.days hdays, fun _ => ⟨_, rfl⟩⟩
  · obtain ⟨message, he⟩ := herror hvalid
    rw [he]
    exact ⟨fun hcounted => absurd hcounted.valid hvalid, fun _ => ⟨message, rfl⟩⟩

/-- The rest of the microseconds is added to the time, and a day is carried to the date. -/
theorem addTime_spec {left : Time} (right : Interval) {date : Date} (h0 : 0 ≤ left.toInt) (h : left.toInt < microsPerDay)
    (hmax : date.toInt ≠ 2 ^ 31 - 1)
    (hmin : ¬ (date.toInt = -2 ^ 31 ∧ left.toInt + right.micros.toInt.tmod microsPerDay < 0)) :
    ∃ time date', addTime left right date = .done (time, date') ∧ 0 ≤ time.toInt ∧ time.toInt < microsPerDay ∧
      date'.toInt * microsPerDay + time.toInt =
        date.toInt * microsPerDay + left.toInt + right.micros.toInt.tmod microsPerDay := by
  obtain ⟨hsum, hlo, hhi, -, -⟩ := tdiv_spec right.micros.toInt (show 0 < microsPerDay by decide)
  have hrange := date.inInt32
  unfold addTime
  rw [show right.micros.toInt - right.micros.toInt.tdiv microsPerDay * microsPerDay =
    right.micros.toInt.tmod microsPerDay by omega]
  simp only
  generalize right.micros.toInt.tmod microsPerDay = rest at *
  unfold InInt32 at hrange
  unfold microsPerDay at hlo hhi h ⊢
  rw [int64_done (by unfold InInt64; omega), done_bind]
  by_cases hover : left.toInt + rest ≥ 86400000000
  · have htime := Time.toInt_ofInt (n := left.toInt + rest - 86400000000) (by unfold InInt64; omega)
    have hdate := Date.toInt_ofInt (n := date.toInt + 1) (by unfold InInt32; omega)
    rw [if_pos hover, int32_done (by unfold InInt32; omega), done_bind]
    refine ⟨_, _, rfl, ?_⟩
    rw [htime, hdate]
    omega
  · rw [if_neg hover]
    by_cases hunder : left.toInt + rest < 0
    · have htime := Time.toInt_ofInt (n := left.toInt + rest + 86400000000) (by unfold InInt64; omega)
      have hdate := Date.toInt_ofInt (n := date.toInt - 1) (by unfold InInt32; omega)
      rw [if_pos hunder, int32_done (by unfold InInt32; omega), done_bind]
      refine ⟨_, _, rfl, ?_⟩
      rw [htime, hdate]
      omega
    · have htime := Time.toInt_ofInt (n := left.toInt + rest) (by unfold InInt64; omega)
      rw [if_neg hunder]
      refine ⟨_, _, rfl, ?_⟩
      rw [htime]
      omega

/-! ## Adding to a timestamp -/

/-- The moved day with the time of the day, and the days and the microseconds of the interval. -/
def sum (t : Timestamp) (right : Interval) (moved : Int) : Int :=
  moved * microsPerDay + t.toInt % microsPerDay + right.days.toInt * microsPerDay + right.micros.toInt

/-- The timestamp, the date that it is moved to and the sum are in range. -/
structure Representable (t : Timestamp) (right : Interval) (moved : Int) : Prop where
  first : Timestamp.first ≤ t.toInt
  valid : -(2 ^ 31 - 2) ≤ moved ∧ moved ≤ 2 ^ 31 - 2
  sum : Timestamp.first ≤ sum t right moved ∧ sum t right moved < 2 ^ 63 - 1

/-- Before the smallest number of days the carry of the time has no defined result. -/
def Underflows (t : Timestamp) (right : Interval) (moved : Int) : Prop :=
  moved + right.days.toInt + right.micros.toInt.tdiv microsPerDay = -2 ^ 31 ∧
    t.toInt % microsPerDay + right.micros.toInt.tmod microsPerDay < 0

/-- An interval is added exactly, or refused where a date or the sum is out of range. -/
theorem add_exact (t : Timestamp) (right : Interval) (moved : Int) (hfinite : t.isFinite = true)
    (hmoved : Moves (t.toInt / microsPerDay) right.months.toInt moved) (hunder : ¬ Underflows t right moved) :
    (Representable t right moved → ∃ result, add t right = .done result ∧ result.isFinite = true ∧
      result.toInt = sum t right moved) ∧
    (¬ Representable t right moved → ∃ message, add t right = .error message) := by
  unfold add
  simp only [hfinite, Bool.not_true, Bool.false_eq_true, if_false]
  by_cases hfirst : Timestamp.first ≤ t.toInt
  · rw [Timestamp.convert_spec hfinite hfirst, Outcome.done_bind]
    simp only
    have hrange := t.inInt64
    have hdate := Timestamp.getDate_toInt hfinite
    have hmod : 0 ≤ t.toInt % microsPerDay ∧ t.toInt % microsPerDay < microsPerDay := by
      unfold microsPerDay
      omega
    have htime := Time.toInt_ofInt (n := t.toInt % microsPerDay) (by
      unfold InInt64
      simp only [microsPerDay] at hmod ⊢
      omega)
    rw [← hdate] at hmoved
    obtain ⟨hdone, herror⟩ := @addDate_spec t.getDate right _ (by
      rw [hdate]
      unfold InInt64 at hrange
      simp only [Timestamp.first, microsPerDay] at *
      omega) hmoved
    obtain ⟨hmicros, hlo, hhi, -, -⟩ := tdiv_spec right.micros.toInt (show 0 < microsPerDay by decide)
    by_cases hcounted : Counted right moved
    · have hdays := Date.toInt_ofInt hcounted.carried
      obtain ⟨time, date', hadd, h0, hlt, htotal⟩ := @addTime_spec (Time.ofInt (t.toInt % microsPerDay)) right
        (Date.ofInt (moved + right.days.toInt + right.micros.toInt.tdiv microsPerDay))
        (by rw [htime]; exact hmod.1) (by rw [htime]; exact hmod.2) (by rw [hdays]; exact hcounted.finite.1)
        (by rw [hdays, htime]; exact hunder)
      have hsum : date'.toInt * microsPerDay + time.toInt = sum t right moved := by
        rw [htotal, hdays, htime]
        unfold sum microsPerDay at *
        omega
      rw [hdone hcounted, Outcome.done_bind, hadd, Outcome.done_bind]
      simp only
      by_cases hin : Timestamp.first ≤ sum t right moved ∧ sum t right moved < 2 ^ 63 - 1
      · have hint : InInt64 (sum t right moved) := by
          unfold InInt64
          unfold Timestamp.first at hin
          omega
        have hresult := @Timestamp.fromDatetime_done date' _ h0 hlt (by rw [hsum]; exact hin.1)
          (by rw [hsum]; exact hin.2)
        rw [hsum] at hresult
        refine ⟨fun _ => ⟨_, hresult, ?_, Timestamp.toInt_ofInt hint⟩, fun hnot => ?_⟩
        · rw [Timestamp.isFinite_iff, Timestamp.toInt_ofInt hint]
          unfold Timestamp.first at hin
          omega
        · exact absurd ⟨hfirst, hcounted.valid, hin⟩ hnot
      · obtain ⟨message, he⟩ := @Timestamp.fromDatetime_error date' _ h0 hlt (by rw [hsum]; exact hin)
        exact ⟨fun h => absurd h.sum hin, fun _ => ⟨message, he⟩⟩
    · obtain ⟨message, he⟩ := herror hcounted
      rw [he]
      refine ⟨fun h => absurd ?_ hcounted, fun _ => ⟨message, rfl⟩⟩
      -- days that are out of range lead to a sum that is out of range
      have hvalid := h.valid
      have hin := h.sum
      have hdays := inInt32_toInt right.days
      have hmicros' := inInt64_toInt right.micros
      unfold InInt32 at hdays
      unfold InInt64 at hmicros'
      unfold sum Timestamp.first at hin
      unfold microsPerDay at *
      refine ⟨hvalid, ?_, ?_, ?_⟩
      · unfold InInt32
        omega
      · unfold InInt32 microsPerDay
        omega
      · unfold microsPerDay
        omega
  · obtain ⟨message, he⟩ := Timestamp.convert_error hfinite (not_le.mp hfirst)
    rw [he]
    exact ⟨fun h => absurd h.first hfirst, fun _ => ⟨message, rfl⟩⟩

/-- A month after 1970-01-31 is 1970-02-28. -/
theorem add_month_end : ∃ result, add (Timestamp.ofInt (30 * microsPerDay)) ⟨1, 0, 0⟩ = .done result ∧
    result.isFinite = true ∧ result.toInt = 58 * microsPerDay := by
  have hmoves : Moves ((Timestamp.ofInt (30 * microsPerDay)).toInt / microsPerDay) (1 : BitVec 32).toInt 58 :=
    ⟨1970, 1, 31, ⟨by decide, by decide, by decide, by decide⟩, by decide, by decide⟩
  have hunder : ¬ Underflows (Timestamp.ofInt (30 * microsPerDay)) ⟨1, 0, 0⟩ 58 := fun h => absurd h.1 (by decide)
  exact (add_exact (Timestamp.ofInt (30 * microsPerDay)) ⟨1, 0, 0⟩ 58 (by decide) hmoves hunder).1
    ⟨by decide, by decide, by decide⟩

/-- A day after the last microsecond before the first timestamp is a timestamp, and so are the dates on the way valid,
but the addition is refused. -/
theorem add_before_first :
    (Timestamp.ofInt (Timestamp.first - 1)).isFinite = true ∧
      Moves ((Timestamp.ofInt (Timestamp.first - 1)).toInt / microsPerDay) 0 (-106751992) ∧
      Counted ⟨0, 1, 0⟩ (-106751992) ∧
      sum (Timestamp.ofInt (Timestamp.first - 1)) ⟨0, 1, 0⟩ (-106751992) = Timestamp.first - 1 + microsPerDay ∧
      (Timestamp.ofInt (Timestamp.first - 1 + microsPerDay)).isFinite = true ∧
      ∃ message, add (Timestamp.ofInt (Timestamp.first - 1)) ⟨0, 1, 0⟩ = .error message := by
  refine ⟨by decide, ?_, ⟨by decide, by decide, by decide, by decide⟩, by decide, by decide, ?_⟩
  · exact ⟨-290308, 12, 21, ⟨by decide, by decide, by decide, by decide⟩, by decide, by decide⟩
  · obtain ⟨message, he⟩ := Timestamp.convert_error (t := Timestamp.ofInt (Timestamp.first - 1)) (by decide) (by decide)
    unfold add
    rw [he]
    exact ⟨message, rfl⟩

end Interval

end Haybarn.Temporal
