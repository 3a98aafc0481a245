/-
The proleptic Gregorian calendar and its ISO weeks. Days are counted from 1970-01-01, which was a Thursday. Nothing
here names a particular program.
-/
import Mathlib.Data.Int.Basic
import Mathlib.Data.Int.Order.Basic
import Mathlib.Tactic.IntervalCases

namespace Haybarn.Lib.Gregorian

/-! ## Years -/

def IsLeap (y : Int) : Prop := y % 4 = 0 ∧ (y % 100 ≠ 0 ∨ y % 400 = 0)

instance (y : Int) : Decidable (IsLeap y) := inferInstanceAs (Decidable (_ ∧ _))

def yearLength (y : Int) : Int := if IsLeap y then 366 else 365

theorem yearLength_bounds (y : Int) : 365 ≤ yearLength y ∧ yearLength y ≤ 366 := by
  unfold yearLength
  split_ifs <;> decide

/-- The day number of the first day of a year: each year has 365 days, and the leap years before it one more. -/
def yearStart (y : Int) : Int := 365 * y + (y - 1) / 4 - (y - 1) / 100 + (y - 1) / 400 - 719527

@[simp] theorem yearStart_epoch : yearStart 1970 = 0 := by decide

theorem yearStart_succ (y : Int) : yearStart (y + 1) = yearStart y + yearLength y := by
  unfold yearStart yearLength IsLeap
  split_ifs <;> omega

/-- The calendar repeats every 400 years. -/
theorem yearStart_add (y k : Int) : yearStart (y + 400 * k) = yearStart y + 146097 * k := by
  unfold yearStart
  omega

theorem isLeap_add (y k : Int) : IsLeap (y + 400 * k) ↔ IsLeap y := by
  unfold IsLeap
  omega

variable {y y' m m' d d' : Int}

theorem yearStart_lt (h : y < y') : yearStart (y + 1) ≤ yearStart y' := by
  unfold yearStart
  omega

/-! ## Months -/

def monthLength (y m : Int) : Int :=
  if m = 2 then (if IsLeap y then 29 else 28) else if m = 4 ∨ m = 6 ∨ m = 9 ∨ m = 11 then 30 else 31

/-- The days of a year before a month. -/
def monthStart (y m : Int) : Int := ((List.range (m - 1).toNat).map fun i : Nat => monthLength y (i + 1)).sum

/-- The months only depend on whether the year is a leap year. -/
theorem monthLength_congr (h : IsLeap y ↔ IsLeap y') (m : Int) : monthLength y m = monthLength y' m := by
  simp only [monthLength, h]

theorem monthStart_congr (h : IsLeap y ↔ IsLeap y') (m : Int) : monthStart y m = monthStart y' m := by
  simp only [monthStart, monthLength_congr h]

theorem monthLength_pos (y m : Int) : 28 ≤ monthLength y m := by
  unfold monthLength
  split_ifs <;> decide

theorem monthStart_one (y : Int) : monthStart y 1 = 0 := rfl

theorem monthStart_succ (y : Int) (hm : 1 ≤ m) : monthStart y (m + 1) = monthStart y m + monthLength y m := by
  have hcast : (((m - 1).toNat : Int) + 1) = m := by omega
  unfold monthStart
  rw [show (m + 1 - 1).toNat = (m - 1).toNat + 1 by omega, List.range_succ, List.map_append, List.sum_append,
    List.map_singleton, List.sum_singleton, hcast]

theorem monthStart_lt (hm : 1 ≤ m) (h : m < m') : monthStart y m + monthLength y m ≤ monthStart y m' := by
  rw [← monthStart_succ y hm]
  induction m', show m + 1 ≤ m' from h using Int.leInduction with
  | base => exact le_refl _
  | succ k hk ih =>
    have := monthLength_pos y k
    rw [monthStart_succ y (show 1 ≤ k by omega)]
    have := ih (by omega)
    omega

theorem monthStart_nonneg (hm : 1 ≤ m) : 0 ≤ monthStart y m := by
  rcases eq_or_lt_of_le hm with rfl | h
  · exact le_refl _
  · have := monthStart_lt (y := y) (le_refl 1) h
    have := monthLength_pos y 1
    rw [monthStart_one] at *
    omega

/-- Twelve months make a year. -/
theorem monthStart_thirteen (y : Int) : monthStart y 13 = yearLength y := by
  unfold monthStart yearLength monthLength
  by_cases h : IsLeap y <;> simp [h] <;> decide

/-! ## Days -/

/-- The dates of the calendar. -/
structure IsDate (y m d : Int) : Prop where
  one_le_month : 1 ≤ m
  month_le : m ≤ 12
  one_le_day : 1 ≤ d
  day_le : d ≤ monthLength y m

/-- The days from 1970-01-01 to a date. -/
def dayNumber (y m d : Int) : Int := yearStart y + monthStart y m + (d - 1)

theorem IsDate.bounds (h : IsDate y m d) : yearStart y ≤ dayNumber y m d ∧ dayNumber y m d < yearStart (y + 1) := by
  have hnonneg := monthStart_nonneg (y := y) h.one_le_month
  have hend := monthStart_lt (y := y) h.one_le_month (show m < 13 by have := h.month_le; omega)
  have hday := h.day_le
  have hday' := h.one_le_day
  rw [monthStart_thirteen] at hend
  rw [yearStart_succ]
  unfold dayNumber
  omega

/-- Later dates have larger day numbers. -/
theorem dayNumber_lt (h : IsDate y m d) (h' : IsDate y' m' d')
    (hlt : y < y' ∨ y = y' ∧ (m < m' ∨ m = m' ∧ d < d')) : dayNumber y m d < dayNumber y' m' d' := by
  rcases hlt with hy | ⟨rfl, hm | ⟨rfl, hd⟩⟩
  · have := yearStart_lt hy
    have := h.bounds.2
    have := h'.bounds.1
    omega
  · have := monthStart_lt (y := y) h.one_le_month hm
    have := h.day_le
    have := h'.one_le_day
    unfold dayNumber
    omega
  · unfold dayNumber
    omega

theorem dayNumber_lt_iff (h : IsDate y m d) (h' : IsDate y' m' d') :
    dayNumber y m d < dayNumber y' m' d' ↔ y < y' ∨ y = y' ∧ (m < m' ∨ m = m' ∧ d < d') := by
  refine ⟨fun hlt => ?_, dayNumber_lt h h'⟩
  by_contra hle
  by_cases heq : y = y' ∧ m = m' ∧ d = d'
  · obtain ⟨rfl, rfl, rfl⟩ := heq
    omega
  · have := dayNumber_lt h' h (by omega)
    omega

theorem dayNumber_inj (h : IsDate y m d) (h' : IsDate y' m' d')
    (heq : dayNumber y m d = dayNumber y' m' d') : y = y' ∧ m = m' ∧ d = d' := by
  have hlt := mt (dayNumber_lt_iff h h').mpr (by omega)
  have hgt := mt (dayNumber_lt_iff h' h).mpr (by omega)
  omega

/-! ## Moving by months -/

/-- The year, the month and the day, clamped to the end of the month, after `k` months. -/
def movedYear (y m k : Int) : Int := y + (m - 1 + k) / 12

def movedMonth (m k : Int) : Int := (m - 1 + k) % 12 + 1

def movedDay (y m d k : Int) : Int := min d (monthLength (movedYear y m k) (movedMonth m k))

/-- The day `n` is moved by `k` months to the day `n'`. -/
def Moves (n k n' : Int) : Prop :=
  ∃ y m d, IsDate y m d ∧ dayNumber y m d = n ∧
    n' = dayNumber (movedYear y m k) (movedMonth m k) (movedDay y m d k)

theorem IsDate.moved (h : IsDate y m d) (k : Int) :
    IsDate (movedYear y m k) (movedMonth m k) (movedDay y m d k) := by
  have hday := h.one_le_day
  have hlength := monthLength_pos (movedYear y m k) (movedMonth m k)
  refine ⟨?_, ?_, ?_, min_le_right _ _⟩
  · unfold movedMonth
    omega
  · unfold movedMonth
    omega
  · unfold movedDay
    omega

/-- The day moved to is known by any date of the day. -/
theorem Moves.eq {n k n' : Int} (h : Moves n k n') (hdate : IsDate y m d) (hn : dayNumber y m d = n) :
    n' = dayNumber (movedYear y m k) (movedMonth m k) (movedDay y m d k) := by
  obtain ⟨y', m', d', hdate', hn', rfl⟩ := h
  obtain ⟨rfl, rfl, rfl⟩ := dayNumber_inj hdate hdate' (hn.trans hn'.symm)
  rfl

/-- No month does not move a day. -/
theorem Moves.zero {n n' : Int} (h : Moves n 0 n') : n' = n := by
  obtain ⟨y, m, d, hdate, rfl, rfl⟩ := h
  have h1 := hdate.one_le_month
  have h12 := hdate.month_le
  have hyear : movedYear y m 0 = y := by
    unfold movedYear
    omega
  have hmonth : movedMonth m 0 = m := by
    unfold movedMonth
    omega
  unfold movedDay
  rw [hyear, hmonth, min_eq_left hdate.day_le]

/-! ## Weeks -/

/-- The ISO day of the week, from Monday, which is 1, to Sunday, which is 7. -/
def weekday (n : Int) : Int := (n + 3) % 7 + 1

/-- The Thursday of the week of a day, which starts on Monday. -/
def thursday (n : Int) : Int := n - weekday n + 4

/-- The ISO year is the year of the Thursday of the week, and the weeks are counted by the Thursdays of the year. -/
structure IsIsoWeek (n y w : Int) : Prop where
  start : yearStart y ≤ thursday n
  stop : thursday n < yearStart (y + 1)
  week : w = (thursday n - yearStart y) / 7 + 1

theorem weekday_bounds (n : Int) : 1 ≤ weekday n ∧ weekday n ≤ 7 := by
  unfold weekday
  omega

end Haybarn.Lib.Gregorian
