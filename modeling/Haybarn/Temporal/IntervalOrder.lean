/-
When intervals compare like their durations. Carrying truncates, so that a larger number of months or days can stand
before a rest of the other sign; the sort key keeps whatever order the comparison has.
-/
import Haybarn.Temporal.Interval

namespace Haybarn.Temporal.Interval

open Lib Common

/-- The duration in microseconds, where a month has 30 days and a day has 24 hours. -/
def duration (i : Interval) : Int := (i.months.toInt * daysPerMonth + i.days.toInt) * microsPerDay + i.micros.toInt

/-- What is carried to the left, and what is left of it. -/
structure Carried (i : Interval) (carryDays carryMonths : Int) : Prop where
  months : i.normalizeFields.1 = i.months.toInt + carryMonths
  days : i.days.toInt + carryDays = carryMonths * daysPerMonth + i.normalizeFields.2.1
  micros : i.micros.toInt = carryDays * microsPerDay + i.normalizeFields.2.2
  days_bounds : -daysPerMonth < i.normalizeFields.2.1 ∧ i.normalizeFields.2.1 < daysPerMonth
  micros_bounds : -microsPerDay < i.normalizeFields.2.2 ∧ i.normalizeFields.2.2 < microsPerDay
  days_sign : (0 ≤ i.days.toInt + carryDays → 0 ≤ i.normalizeFields.2.1) ∧
    (i.days.toInt + carryDays ≤ 0 → i.normalizeFields.2.1 ≤ 0)
  micros_sign : (0 ≤ i.micros.toInt → 0 ≤ i.normalizeFields.2.2) ∧ (i.micros.toInt ≤ 0 → i.normalizeFields.2.2 ≤ 0)

theorem exists_carried (i : Interval) : ∃ carryDays carryMonths, i.Carried carryDays carryMonths := by
  obtain ⟨hmicros, hlo, hhi, hpos, hneg⟩ := tdiv_spec i.micros.toInt (show 0 < microsPerDay by decide)
  obtain ⟨hdays, hlo', hhi', hpos', hneg'⟩ :=
    tdiv_spec (i.days.toInt + i.micros.toInt.tdiv microsPerDay) (show 0 < daysPerMonth by decide)
  have hrest : i.normalizeFields.2.2 = i.micros.toInt.tmod microsPerDay := by
    simp only [normalizeFields]
    omega
  have hrest' : i.normalizeFields.2.1 = (i.days.toInt + i.micros.toInt.tdiv microsPerDay).tmod daysPerMonth := by
    simp only [normalizeFields]
    omega
  rw [← hrest] at hmicros hlo hhi hpos hneg
  rw [← hrest'] at hdays hlo' hhi' hpos' hneg'
  exact ⟨_, _, rfl, hdays, hmicros, ⟨hlo', hhi'⟩, ⟨hlo, hhi⟩, ⟨hpos', hneg'⟩, hpos, hneg⟩

theorem duration_eq (i : Interval) :
    i.duration = (i.normalizeFields.1 * daysPerMonth + i.normalizeFields.2.1) * microsPerDay + i.normalizeFields.2.2 := by
  obtain ⟨carryDays, carryMonths, h⟩ := i.exists_carried
  have hdays := h.days
  have hmicros := h.micros
  unfold duration
  rw [h.months]
  simp only [daysPerMonth, microsPerDay] at *
  omega

theorem bounds (i : Interval) :
    (-2 ^ 31 ≤ i.months.toInt ∧ i.months.toInt ≤ 2 ^ 31 - 1) ∧ (-2 ^ 31 ≤ i.days.toInt ∧ i.days.toInt ≤ 2 ^ 31 - 1) ∧
      (-2 ^ 63 ≤ i.micros.toInt ∧ i.micros.toInt ≤ 2 ^ 63 - 1) := by
  have h1 := i.months.le_toInt
  have h2 := i.months.toInt_lt
  have h3 := i.days.le_toInt
  have h4 := i.days.toInt_lt
  have h5 := i.micros.le_toInt
  have h6 := i.micros.toInt_lt
  omega

/-! ## The sort key -/

theorem add_mul_lt_iff {scale l l' q q' : Int} (h : 0 ≤ l ∧ 0 ≤ l' ∨ l ≤ 0 ∧ l' ≤ 0) (hl : -scale < l ∧ l < scale)
    (hl' : -scale < l' ∧ l' < scale) : l + q * scale < l' + q' * scale ↔ q < q' ∨ q = q' ∧ l < l' := by
  have hstep {p p' : Int} (hp : p < p') : p * scale + scale ≤ p' * scale := by
    rw [← add_one_mul]
    exact Int.mul_le_mul_of_nonneg_right hp (by omega)
  rcases lt_trichotomy q q' with hlt | rfl | hgt
  · have := hstep hlt
    omega
  · omega
  · have := hstep hgt
    omega

theorem borrow_lt_iff {scale m l m' l' : Int} (hl : -scale < l ∧ l < scale) (hl' : -scale < l' ∧ l' < scale)
    (hpos : 2 ^ 31 - 1 < m → 0 ≤ l) (hneg : m < -2 ^ 31 → l ≤ 0) (hpos' : 2 ^ 31 - 1 < m' → 0 ≤ l')
    (hneg' : m' < -2 ^ 31 → l' ≤ 0) :
    ((borrow m l scale).2 < (borrow m' l' scale).2 ∨
        (borrow m l scale).2 = (borrow m' l' scale).2 ∧ (borrow m l scale).1 < (borrow m' l' scale).1) ↔
      m < m' ∨ m = m' ∧ l < l' := by
  -- an excess counts for at least one unit of the field that it is borrowed from
  have habove {n : Int} (hn : 2 ^ 31 - 1 < n) : scale ≤ (n - (2 ^ 31 - 1)) * scale := by
    have : 1 * scale ≤ (n - (2 ^ 31 - 1)) * scale := Int.mul_le_mul_of_nonneg_right (by omega) (by omega)
    omega
  have hbelow {n : Int} (hn : n < -2 ^ 31) : (n - -2 ^ 31) * scale ≤ -scale := by
    have : (n - -2 ^ 31) * scale ≤ -1 * scale := Int.mul_le_mul_of_nonneg_right (by omega) (by omega)
    omega
  unfold borrow
  by_cases h1 : 2 ^ 31 - 1 < m
  · rw [if_pos h1]
    have := habove h1
    by_cases h1' : 2 ^ 31 - 1 < m'
    · rw [if_pos h1', add_mul_lt_iff (Or.inl ⟨hpos h1, hpos' h1'⟩) hl hl']
      omega
    · rw [if_neg h1']
      split_ifs <;> omega
  · rw [if_neg h1]
    by_cases h2 : m < -2 ^ 31
    · rw [if_pos h2]
      have := hbelow h2
      by_cases h2' : m' < -2 ^ 31
      · rw [if_neg (by omega), if_pos h2', add_mul_lt_iff (Or.inr ⟨hneg h2, hneg' h2'⟩) hl hl']
        omega
      · split_ifs <;> omega
    · rw [if_neg h2]
      split_ifs with h1' h2'
      · have := habove h1'
        omega
      · have := hbelow h2'
        omega
      · omega

theorem borrow_range (msf lsf scale : Int) :
    -2 ^ 31 ≤ (borrow msf lsf scale).2 ∧ (borrow msf lsf scale).2 < 2 ^ 31 := by
  unfold borrow
  split_ifs <;> omega

/-- The days after the months are saturated. -/
def spilledDays (i : Interval) : Int := (borrow i.normalizeFields.1 i.normalizeFields.2.1 daysPerMonth).1

theorem spilledDays_bounds {i : Interval} {carryDays carryMonths : Int} (h : i.Carried carryDays carryMonths) :
    (2 ^ 31 - 1 < i.spilledDays → 0 ≤ i.micros.toInt ∧ i.spilledDays - (2 ^ 31 - 1) ≤ carryDays) ∧
      (i.spilledDays < -2 ^ 31 → i.micros.toInt ≤ 0 ∧ carryDays ≤ i.spilledDays - -2 ^ 31) := by
  obtain ⟨hm, hd, hu⟩ := i.bounds
  have hmonths := h.months
  have hdays := h.days
  have hmicros := h.micros
  have hbounds := h.days_bounds
  have hbounds' := h.micros_bounds
  unfold spilledDays borrow
  simp only [daysPerMonth, microsPerDay] at *
  split_ifs <;> omega

theorem fields_normalize (i : Interval) :
    i.normalize.fields = ((borrow i.normalizeFields.1 i.normalizeFields.2.1 daysPerMonth).2,
      (borrow i.spilledDays i.normalizeFields.2.2 microsPerDay).2,
      (borrow i.spilledDays i.normalizeFields.2.2 microsPerDay).1) := by
  obtain ⟨carryDays, carryMonths, h⟩ := i.exists_carried
  obtain ⟨hpos, hneg⟩ := spilledDays_bounds h
  have hmonths := borrow_range i.normalizeFields.1 i.normalizeFields.2.1 daysPerMonth
  have hdays := borrow_range i.spilledDays i.normalizeFields.2.2 microsPerDay
  have hmicros : -2 ^ 63 ≤ (borrow i.spilledDays i.normalizeFields.2.2 microsPerDay).1 ∧
      (borrow i.spilledDays i.normalizeFields.2.2 microsPerDay).1 < 2 ^ 63 := by
    obtain ⟨-, -, hu⟩ := i.bounds
    have hmicros := h.micros
    have hbounds := h.micros_bounds
    have hsign := h.micros_sign
    unfold borrow
    simp only [microsPerDay] at *
    split_ifs <;> omega
  refine Prod.ext ?_ (Prod.ext ?_ ?_)
  · exact BitVec.toInt_ofInt_eq_self (by decide) hmonths.1 hmonths.2
  · exact BitVec.toInt_ofInt_eq_self (by decide) hdays.1 hdays.2
  · exact BitVec.toInt_ofInt_eq_self (by decide) hmicros.1 hmicros.2

theorem compareFields_normalize_lt (a b : Interval) :
    compareFields a.normalize.fields b.normalize.fields = .lt ↔
      compareFields a.normalizeFields b.normalizeFields = .lt := by
  obtain ⟨c, k, ha⟩ := a.exists_carried
  obtain ⟨c', k', hb⟩ := b.exists_carried
  obtain ⟨hpos, hneg⟩ := spilledDays_bounds ha
  obtain ⟨hpos', hneg'⟩ := spilledDays_bounds hb
  have hmonths (i : Interval) {c k : Int} (h : i.Carried c k) :
      (2 ^ 31 - 1 < i.normalizeFields.1 → 0 ≤ i.normalizeFields.2.1) ∧
        (i.normalizeFields.1 < -2 ^ 31 → i.normalizeFields.2.1 ≤ 0) := by
    obtain ⟨hm, -, -⟩ := i.bounds
    have h1 := h.months
    have h2 := h.days
    have h3 := h.days_bounds
    have h4 := h.days_sign
    simp only [daysPerMonth] at *
    omega
  have hfst := borrow_lt_iff ha.days_bounds hb.days_bounds (hmonths a ha).1 (hmonths a ha).2 (hmonths b hb).1
    (hmonths b hb).2
  have hfst' := borrow_lt_iff hb.days_bounds ha.days_bounds (hmonths b hb).1 (hmonths b hb).2 (hmonths a ha).1
    (hmonths a ha).2
  have hsnd := borrow_lt_iff ha.micros_bounds hb.micros_bounds (fun h => ha.micros_sign.1 (hpos h).1)
    (fun h => ha.micros_sign.2 (hneg h).1) (fun h => hb.micros_sign.1 (hpos' h).1)
    (fun h => hb.micros_sign.2 (hneg' h).1)
  rw [compareFields_eq_lt, compareFields_eq_lt, fields_normalize, fields_normalize, hsnd]
  unfold spilledDays
  omega

theorem compare_encodeData_normalize (a b : Interval) :
    compare a.normalize.encodeData b.normalize.encodeData = compareFields a.normalizeFields b.normalizeFields :=
  (encodeData_ordered.compare_eq a.normalize b.normalize).trans
    (compareFields_congr (compareFields_normalize_lt a b) (compareFields_normalize_lt b a))

/-! ## The exact condition -/

/-- The months with the whole months among the days and the microseconds. -/
def wholeMonths (i : Interval) : Int :=
  i.months.toInt + (i.days.toInt + i.micros.toInt.tdiv microsPerDay).tdiv daysPerMonth

/-- The days of no whole month. -/
def restDays (i : Interval) : Int := (i.days.toInt + i.micros.toInt.tdiv microsPerDay).tmod daysPerMonth

/-- The microseconds of no whole day. -/
def restMicros (i : Interval) : Int := i.micros.toInt.tmod microsPerDay

/-- `a` has one more month or day than `b`, and `b` makes up for it with its rest. -/
def MadeUp (a b : Interval) : Prop :=
  a.wholeMonths = b.wholeMonths + 1 ∧
      daysPerMonth * microsPerDay ≤
        (b.restDays * microsPerDay + b.restMicros) - (a.restDays * microsPerDay + a.restMicros) ∨
    a.wholeMonths = b.wholeMonths ∧ a.restDays = b.restDays + 1 ∧ microsPerDay ≤ b.restMicros - a.restMicros

instance (a b : Interval) : Decidable (MadeUp a b) := inferInstanceAs (Decidable (_ ∨ _))

theorem normalizeFields_eq (i : Interval) : i.normalizeFields = (i.wholeMonths, i.restDays, i.restMicros) := by
  obtain ⟨hmicros, -⟩ := tdiv_spec i.micros.toInt (show 0 < microsPerDay by decide)
  obtain ⟨hdays, -⟩ := tdiv_spec (i.days.toInt + i.micros.toInt.tdiv microsPerDay) (show 0 < daysPerMonth by decide)
  refine Prod.ext rfl (Prod.ext ?_ ?_)
  · simp only [normalizeFields, restDays]
    omega
  · simp only [normalizeFields, restMicros]
    omega

theorem lt_and_le_iff_madeUp (a b : Interval) :
    (compareFields a.normalizeFields b.normalizeFields = .lt ∧ b.duration ≤ a.duration) ↔ MadeUp b a := by
  obtain ⟨c, k, ha⟩ := a.exists_carried
  obtain ⟨c', k', hb⟩ := b.exists_carried
  have h1 := ha.days_bounds
  have h2 := ha.micros_bounds
  have h3 := hb.days_bounds
  have h4 := hb.micros_bounds
  rw [compareFields_eq_lt, duration_eq, duration_eq]
  rw [normalizeFields_eq] at *
  rw [normalizeFields_eq b] at *
  unfold MadeUp
  simp only [daysPerMonth, microsPerDay] at *
  omega

/-- Intervals compare, hash and sort as their durations do. -/
structure Ordered (hash32 : BitVec 32 → BitVec 64) (hash64 : BitVec 64 → BitVec 64) (a b : Interval) : Prop where
  greater : a.greaterThan b = true ↔ b.duration < a.duration
  equal : a.equals b = true ↔ a.duration = b.duration
  less : a.lessThan b = true ↔ a.duration < b.duration
  hash : a.equals b = true → a.hash hash32 hash64 = b.hash hash32 hash64
  sort : compare a.normalize.encodeData b.normalize.encodeData = .lt ↔ a.lessThan b = true

theorem hash_eq {hash32 : BitVec 32 → BitVec 64} {hash64 : BitVec 64 → BitVec 64} {a b : Interval}
    (h : a.equals b = true) : a.hash hash32 hash64 = b.hash hash32 hash64 := by
  unfold hash
  rw [(equals_iff a b).mp h]

/-- Intervals compare like their durations exactly when neither makes up for a lead of the other. -/
theorem ordered_iff (hash32 : BitVec 32 → BitVec 64) (hash64 : BitVec 64 → BitVec 64) (a b : Interval) :
    Ordered hash32 hash64 a b ↔ ¬ MadeUp a b ∧ ¬ MadeUp b a := by
  rw [← lt_and_le_iff_madeUp, ← lt_and_le_iff_madeUp]
  constructor
  · rintro ⟨hgreater, -, hless, -, -⟩
    rw [greaterThan_iff] at hgreater
    rw [lessThan, greaterThan_iff] at hless
    constructor
    · rintro ⟨hlt, hle⟩
      have := hgreater.mp hlt
      omega
    · rintro ⟨hlt, hle⟩
      have := hless.mp hlt
      omega
  · rintro ⟨hab, hba⟩
    have hless : compareFields a.normalizeFields b.normalizeFields = .lt → a.duration < b.duration := fun h =>
      not_le.mp fun hle => hba ⟨h, hle⟩
    have hgreater : compareFields b.normalizeFields a.normalizeFields = .lt → b.duration < a.duration := fun h =>
      not_le.mp fun hle => hab ⟨h, hle⟩
    have hsame : compareFields a.normalizeFields b.normalizeFields = .eq → a.duration = b.duration := by
      intro h
      rw [duration_eq, duration_eq, compareFields_eq_eq.mp h]
    have htotal : compareFields a.normalizeFields b.normalizeFields = .lt ∨
        compareFields a.normalizeFields b.normalizeFields = .eq ∨
        compareFields b.normalizeFields a.normalizeFields = .lt := by
      rw [← compareFields_eq_gt (a := a.normalizeFields)]
      cases compareFields a.normalizeFields b.normalizeFields <;> decide
    refine ⟨?_, ?_, ?_, hash_eq, ?_⟩
    · rw [greaterThan_iff]
      refine ⟨hgreater, fun h => ?_⟩
      rcases htotal with hlt | heq | hgt
      · have := hless hlt
        omega
      · have := hsame heq
        omega
      · exact hgt
    · rw [equals_iff, ← compareFields_eq_eq]
      refine ⟨hsame, fun h => ?_⟩
      rcases htotal with hlt | heq | hgt
      · have := hless hlt
        omega
      · exact heq
      · have := hgreater hgt
        omega
    · rw [lessThan, greaterThan_iff]
      refine ⟨hless, fun h => ?_⟩
      rcases htotal with hlt | heq | hgt
      · exact hlt
      · have := hsame heq
        omega
      · have := hgreater hgt
        omega
    · rw [compare_encodeData_normalize, lessThan, greaterThan_iff]

/-- A month less a day has 29 days, and compares as greater than 29 days. -/
theorem not_ordered_month_less_day :
    ¬ ∀ (hash32 : BitVec 32 → BitVec 64) (hash64 : BitVec 64 → BitVec 64), Ordered hash32 hash64 ⟨1, -1, 0⟩ ⟨0, 29, 0⟩ := by
  intro h
  have hgreater := (h (fun _ => 0) (fun _ => 0)).greater
  exact absurd hgreater (by decide)

end Haybarn.Temporal.Interval
