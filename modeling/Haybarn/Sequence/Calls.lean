/-
Calls of `NextValue` on one sequence, by any transactions: what a sequence without CYCLE hands out until it stops, and what one
with CYCLE hands out. The counter moves before the checks, also where they throw, so that a sequence without CYCLE is right
up to its first call that throws.
-/
import Haybarn.Sequence.System

namespace Haybarn.Sequence

/-! ## Calls -/

/-- A sequence and the undo buffers of the transactions. -/
structure Drawn where
  data : SequenceData
  undo : Nat → List UndoEntry

/-- What a call of `NextValue` returns, and the data before and after it. -/
structure Call where
  outcome : Except SequenceException Int
  before : SequenceData
  after : SequenceData

/-- `NextValue` in a transaction: the usage is pushed to its undo buffer, unless the sequence is temporary. -/
def Drawn.nextValue (temporary : Bool) (s : Drawn) (transaction : Nat) : Except SequenceException Int × Drawn :=
  match s.data.nextValue with
  | (.ok value, data) =>
    (.ok value,
      { data
        undo := if temporary then s.undo
          else Function.update s.undo transaction (pushSequenceUsage 0 data (s.undo transaction)) })
  | (.error e, data) => (.error e, { s with data })

/-- Calls by transactions, one after the other. -/
def calls (temporary : Bool) : Drawn → List Nat → List Call
  | _, [] => []
  | s, transaction :: transactions =>
    let (outcome, s') := s.nextValue temporary transaction
    ⟨outcome, s.data, s'.data⟩ :: calls temporary s' transactions

namespace SequenceData

variable (data : SequenceData)

/-- The data of a sequence that no value has been drawn from. -/
structure Started : Prop where
  counter : data.counter = data.startValue
  increment : data.increment ≠ 0
  min_le_start : data.minValue ≤ data.startValue
  start_le_max : data.startValue ≤ data.maxValue
  int64 : -2 ^ 63 ≤ data.minValue ∧ data.maxValue < 2 ^ 63
  increment_int64 : -2 ^ 63 ≤ data.increment ∧ data.increment < 2 ^ 63

instance : Decidable data.Started :=
  decidable_of_iff (data.counter = data.startValue ∧ data.increment ≠ 0 ∧ data.minValue ≤ data.startValue ∧
      data.startValue ≤ data.maxValue ∧ (-2 ^ 63 ≤ data.minValue ∧ data.maxValue < 2 ^ 63) ∧
      (-2 ^ 63 ≤ data.increment ∧ data.increment < 2 ^ 63))
    ⟨fun ⟨h1, h2, h3, h4, h5, h6⟩ => ⟨h1, h2, h3, h4, h5, h6⟩, fun ⟨h1, h2, h3, h4, h5, h6⟩ => ⟨h1, h2, h3, h4, h5, h6⟩⟩

/-- The value that comes after `n` values. -/
def value (n : Nat) : Int := data.startValue + n * data.increment

/-- The value is one that the sequence may hand out. -/
def InRange (x : Int) : Prop := data.minValue ≤ x ∧ x ≤ data.maxValue

instance (x : Int) : Decidable (data.InRange x) := inferInstanceAs (Decidable (_ ∧ _))

/-- The value that a sequence with CYCLE hands out after another. -/
def following (x : Int) : Int :=
  if data.InRange (x + data.increment) then x + data.increment
  else if data.increment < 0 then data.maxValue
  else data.minValue

end SequenceData

/-- Without CYCLE the values are handed out in order as long as they are in range, every other call throws, and a call that
throws changes nothing. With CYCLE no call throws, and each value is followed by the next, or by the other end. -/
structure CountsAndStops (data : SequenceData) (cs : List Call) : Prop where
  counts : data.cycle = false → ∀ n c, cs[n]? = some c →
    if data.InRange (data.value n) then c.outcome = .ok (data.value n) else ∃ e, c.outcome = .error e
  keeps : ∀ c ∈ cs, ∀ e, c.outcome = .error e → c.after = c.before
  never_throws : data.cycle = true → ∀ c ∈ cs, ∃ v, c.outcome = .ok v
  starts : data.cycle = true → ∀ c ∈ cs.head?, c.outcome = .ok data.startValue
  cycles : data.cycle = true → ∀ n c c' v, cs[n]? = some c → cs[n + 1]? = some c' → c.outcome = .ok v →
    c'.outcome = .ok (data.following v)

/-! ## One call -/

namespace SequenceData

variable {data : SequenceData}

theorem nextValue_of_inRange (hcycle : data.cycle = false) (hrange : data.InRange data.counter) (ho : data.NoOverflow) :
    data.nextValue = (.ok data.counter, { data with
      counter := data.counter + data.increment
      lastValue := data.counter
      usageCount := data.usageCount + 1 }) := by
  obtain ⟨hmin, hmax⟩ := hrange
  simp [nextValue, tryAdd_of_noOverflow ho, hcycle, not_lt.2 hmin, not_lt.2 hmax]

theorem nextValue_throws (hcycle : data.cycle = false) (h : ¬ (data.InRange data.counter ∧ data.NoOverflow)) :
    ∃ e, data.nextValue = (.error e, { data with counter := (tryAdd data.counter data.increment).1 }) := by
  have hadded : (tryAdd data.counter data.increment).2 = decide data.NoOverflow := rfl
  rw [nextValue]
  simp only [hadded, hcycle, Bool.false_eq_true, if_false]
  split
  next => exact ⟨_, rfl⟩
  next hlo =>
    split
    next => exact ⟨_, rfl⟩
    next hhi =>
      refine absurd ⟨⟨?_, ?_⟩, ?_⟩ h
      · by_contra hlt
        exact hlo (.inl (not_le.1 hlt))
      · by_contra hgt
        exact hhi (.inl (not_le.1 hgt))
      · by_contra hoverflow
        exact hhi (.inr (by simp [hoverflow]))

theorem tryAdd_ne {left right : Int} (hright : right ≠ 0) (hl : -2 ^ 63 ≤ right) (hu : right < 2 ^ 63) :
    (tryAdd left right).1 ≠ left := by
  intro h
  have hmod := Int.bmod_emod (x := left + right) (m := 2 ^ 64)
  rw [show (left + right).bmod (2 ^ 64) = left from h] at hmod
  push_cast at hmod
  omega

theorem nextValue_cycle (hcycle : data.cycle = true) (hrange : data.InRange data.counter)
    (hint64 : -2 ^ 63 ≤ data.minValue ∧ data.maxValue < 2 ^ 63) :
    data.nextValue = (.ok data.counter, { data with
      counter := data.following data.counter
      lastValue := data.counter
      usageCount := data.usageCount + 1 }) := by
  obtain ⟨hmin, hmax⟩ := hrange
  obtain ⟨hlo, hhi⟩ := hint64
  have hbelow : ¬ data.InRange (data.counter + data.increment) → data.increment < 0 →
      data.following data.counter = data.maxValue := fun h hneg => by rw [following, if_neg h, if_pos hneg]
  have habove : ¬ data.InRange (data.counter + data.increment) → ¬ data.increment < 0 →
      data.following data.counter = data.minValue := fun h hpos => by rw [following, if_neg h, if_neg hpos]
  by_cases ho : data.NoOverflow
  · simp only [nextValue, tryAdd_of_noOverflow ho, hcycle, Bool.not_true, Bool.false_eq_true, if_false, if_true]
    split
    next hlt => rw [hbelow (fun h => absurd h.1 (by omega)) (by omega)]
    next =>
      split
      next hgt => rw [habove (fun h => absurd h.2 (by omega)) (by omega)]
      next hgt => rw [following, if_pos ⟨by omega, by omega⟩]
  · have hadded : (tryAdd data.counter data.increment).2 = false := decide_eq_false ho
    have hout : ¬ data.InRange (data.counter + data.increment) := fun h => ho ⟨by have := h.1; omega, by have := h.2; omega⟩
    simp only [nextValue, hadded, hcycle, Bool.not_false, if_true]
    split
    next hneg => rw [hbelow hout hneg]
    next hpos => rw [habove hout hpos]

end SequenceData

/-! ## Runs -/

/-- The calls as the data alone determines them. -/
def draws : SequenceData → Nat → List Call
  | _, 0 => []
  | data, n + 1 => ⟨data.nextValue.1, data, data.nextValue.2⟩ :: draws data.nextValue.2 n

theorem calls_eq (temporary : Bool) : ∀ (transactions : List Nat) (s : Drawn),
    calls temporary s transactions = draws s.data transactions.length
  | [], _ => rfl
  | transaction :: transactions, s => by
    have hdata : (s.nextValue temporary transaction).1 = s.data.nextValue.1 ∧
        (s.nextValue temporary transaction).2.data = s.data.nextValue.2 := by
      rw [Drawn.nextValue]
      split
      next h => rw [h]; exact ⟨rfl, rfl⟩
      next h => rw [h]; exact ⟨rfl, rfl⟩
    rw [calls, List.length_cons, draws]
    dsimp only
    rw [calls_eq temporary transactions, hdata.1, hdata.2]

/-- The data after a number of calls. -/
def dataAfter (data : SequenceData) : Nat → SequenceData
  | 0 => data
  | n + 1 => (dataAfter data n).nextValue.2

theorem dataAfter_succ' (data : SequenceData) : ∀ n, dataAfter data (n + 1) = dataAfter data.nextValue.2 n
  | 0 => rfl
  | n + 1 => by rw [dataAfter, dataAfter_succ' data n]; rfl

theorem getElem?_draws : ∀ {data : SequenceData} {count n : Nat}, n < count →
    (draws data count)[n]? = some ⟨(dataAfter data n).nextValue.1, dataAfter data n, dataAfter data (n + 1)⟩
  | data, count + 1, 0, _ => rfl
  | data, count + 1, n + 1, h => by
    rw [draws, List.getElem?_cons_succ, getElem?_draws (by omega), ← dataAfter_succ', ← dataAfter_succ']

theorem length_draws : ∀ {data : SequenceData} {count : Nat}, (draws data count).length = count
  | _, 0 => rfl
  | data, count + 1 => by rw [draws, List.length_cons, length_draws]

theorem exists_of_mem_draws {data : SequenceData} {count : Nat} {c : Call} (hc : c ∈ draws data count) :
    ∃ n < count, c = ⟨(dataAfter data n).nextValue.1, dataAfter data n, dataAfter data (n + 1)⟩ := by
  obtain ⟨n, hn⟩ := List.getElem?_of_mem hc
  have hlt : n < count := by
    have := (List.getElem?_eq_some_iff.1 hn).1
    rwa [length_draws] at this
  rw [getElem?_draws hlt] at hn
  exact ⟨n, hlt, (Option.some.inj hn).symm⟩

/-- What a sequence never changes. -/
structure SameSequence (data data' : SequenceData) : Prop where
  increment : data'.increment = data.increment
  minValue : data'.minValue = data.minValue
  maxValue : data'.maxValue = data.maxValue
  cycle : data'.cycle = data.cycle

namespace SameSequence

variable {data data' : SequenceData} {x : Int}

theorem inRange_iff (h : SameSequence data data') : data'.InRange x ↔ data.InRange x := by
  rw [SequenceData.InRange, SequenceData.InRange, h.minValue, h.maxValue]

theorem following_eq (h : SameSequence data data') : data'.following x = data.following x := by
  simp only [SequenceData.following, h.inRange_iff, h.increment, h.minValue, h.maxValue]

end SameSequence

variable {data : SequenceData}

/-- The first `n` values are in range, and so is the sum after each of them in range of 64 bits. -/
def Holds64 (data : SequenceData) (n : Nat) : Prop :=
  ∀ k < n, data.InRange (data.value k) ∧ -2 ^ 63 ≤ data.value (k + 1) ∧ data.value (k + 1) < 2 ^ 63

instance (n : Nat) : Decidable (Holds64 data n) := inferInstanceAs (Decidable (∀ k < n, _))

theorem value_succ (n : Nat) : data.value (n + 1) = data.value n + data.increment := by
  rw [SequenceData.value, SequenceData.value]
  push_cast
  ring

theorem dataAfter_counts (h : data.Started) (hcycle : data.cycle = false) : ∀ {n : Nat}, Holds64 data n →
    (dataAfter data n).counter = data.value n ∧ SameSequence data (dataAfter data n)
  | 0, _ => ⟨by simp [dataAfter, SequenceData.value, h.counter], ⟨rfl, rfl, rfl, rfl⟩⟩
  | n + 1, hholds => by
    obtain ⟨hcounter, hsame⟩ := dataAfter_counts h hcycle (n := n) fun k hk => hholds k (by omega)
    obtain ⟨⟨hmin, hmax⟩, hlo, hhi⟩ := hholds n (by omega)
    rw [value_succ] at hlo hhi
    have hrange := hsame.inRange_iff.2 (hcounter ▸ ⟨hmin, hmax⟩ : data.InRange (dataAfter data n).counter)
    have ho : (dataAfter data n).NoOverflow := by
      rw [SequenceData.NoOverflow, hcounter, hsame.increment]
      exact ⟨hlo, hhi⟩
    rw [dataAfter, SequenceData.nextValue_of_inRange (hsame.cycle.trans hcycle) hrange ho]
    refine ⟨?_, ⟨hsame.increment, hsame.minValue, hsame.maxValue, hsame.cycle⟩⟩
    show (dataAfter data n).counter + (dataAfter data n).increment = _
    rw [hcounter, hsame.increment, value_succ]

theorem dataAfter_cycles (h : data.Started) (hcycle : data.cycle = true) : ∀ n,
    data.InRange (dataAfter data n).counter ∧ SameSequence data (dataAfter data n)
  | 0 => ⟨by
      rw [dataAfter, h.counter]
      exact ⟨h.min_le_start, h.start_le_max⟩, ⟨rfl, rfl, rfl, rfl⟩⟩
  | n + 1 => by
    obtain ⟨hrange, hsame⟩ := dataAfter_cycles h hcycle n
    have hnext := SequenceData.nextValue_cycle (hsame.cycle.trans hcycle)
      (hsame.inRange_iff.2 hrange) (by rw [hsame.minValue, hsame.maxValue]; exact h.int64)
    rw [dataAfter, hnext]
    refine ⟨?_, ⟨hsame.increment, hsame.minValue, hsame.maxValue, hsame.cycle⟩⟩
    have hmin := h.min_le_start
    have hmax := h.start_le_max
    show data.InRange ((dataAfter data n).following (dataAfter data n).counter)
    rw [hsame.following_eq, SequenceData.following]
    split
    next hin => exact hin
    next =>
      split
      next => exact ⟨by omega, le_refl _⟩
      next => exact ⟨le_refl _, by omega⟩

theorem nextValue_dataAfter (h : data.Started) (hcycle : data.cycle = true) (n : Nat) :
    (dataAfter data n).nextValue.1 = .ok (dataAfter data n).counter ∧
      (dataAfter data (n + 1)).counter = data.following (dataAfter data n).counter := by
  obtain ⟨hrange, hsame⟩ := dataAfter_cycles h hcycle n
  have hnext := SequenceData.nextValue_cycle (hsame.cycle.trans hcycle)
    (hsame.inRange_iff.2 hrange) (by rw [hsame.minValue, hsame.maxValue]; exact h.int64)
  rw [dataAfter, hnext]
  exact ⟨rfl, hsame.following_eq⟩

/-! ## Counting and stopping -/

theorem countsAndStops_draws_iff (h : data.Started) (hcycle : data.cycle = false) {n : Nat} :
    CountsAndStops data (draws data n) ↔ Holds64 data n := by
  constructor
  · intro hright
    have hstep : ∀ m ≤ n, Holds64 data m := by
      intro m
      induction m with
      | zero => exact fun _ k hk => absurd hk (Nat.not_lt_zero k)
      | succ m ih =>
        intro hm
        have hholds := ih (by omega)
        obtain ⟨hcounter, hsame⟩ := dataAfter_counts h hcycle hholds
        have hget := @getElem?_draws data n m (by omega)
        -- a call that throws has moved the counter
        by_contra hnot
        have hfails : ¬ ((dataAfter data m).InRange (dataAfter data m).counter ∧ (dataAfter data m).NoOverflow) := by
          rintro ⟨hrange, hlo, hhi⟩
          rw [hsame.inRange_iff, hcounter] at hrange
          rw [hcounter, hsame.increment, ← value_succ] at hlo hhi
          refine hnot fun k hk => ?_
          rcases Nat.lt_succ_iff_lt_or_eq.1 hk with hlt | rfl
          · exact hholds k hlt
          · exact ⟨hrange, hlo, hhi⟩
        obtain ⟨e, he⟩ := SequenceData.nextValue_throws (hsame.cycle.trans hcycle) hfails
        have hkeeps := hright.keeps _ (List.mem_of_getElem? hget) e (by rw [he])
        have hmoved : (dataAfter data (m + 1)).counter = (dataAfter data m).counter := congrArg SequenceData.counter hkeeps
        rw [dataAfter, he] at hmoved
        refine SequenceData.tryAdd_ne ?_ ?_ ?_ hmoved
        · rw [hsame.increment]
          exact h.increment
        · rw [hsame.increment]
          exact h.increment_int64.1
        · rw [hsame.increment]
          exact h.increment_int64.2
    exact hstep n (le_refl n)
  · intro hholds
    have hcall : ∀ m < n, (dataAfter data m).nextValue.1 = .ok (data.value m) := by
      intro m hm
      obtain ⟨hcounter, hsame⟩ := dataAfter_counts h hcycle fun k hk => hholds k (lt_trans hk hm)
      obtain ⟨hrange, hlo, hhi⟩ := hholds m hm
      rw [SequenceData.nextValue_of_inRange (hsame.cycle.trans hcycle) (by rwa [hsame.inRange_iff, hcounter]) (by
        rw [SequenceData.NoOverflow, hcounter, hsame.increment, ← value_succ]
        exact ⟨hlo, hhi⟩), hcounter]
    refine ⟨fun _ m c hc => ?_, fun c hc e he => ?_, fun h => ?_, fun h => ?_, fun h => ?_⟩
    · have hlt : m < n := by
        have := (List.getElem?_eq_some_iff.1 hc).1
        rwa [length_draws] at this
      rw [getElem?_draws hlt] at hc
      obtain rfl := Option.some.inj hc
      rw [if_pos (hholds m hlt).1]
      exact hcall m hlt
    · obtain ⟨m, hm, rfl⟩ := exists_of_mem_draws hc
      have := hcall m hm
      rw [show (dataAfter data m).nextValue.1 = _ from he] at this
      cases this
    all_goals
      rw [hcycle] at h
      cases h

theorem countsAndStops_draws_cycle (h : data.Started) (hcycle : data.cycle = true) (n : Nat) :
    CountsAndStops data (draws data n) := by
  have hcall := nextValue_dataAfter h hcycle
  refine ⟨fun hnot => ?_, fun c hc e he => ?_, fun _ c hc => ?_, fun _ c hc => ?_, fun _ m c c' v hc hc' hv => ?_⟩
  · rw [hcycle] at hnot
    cases hnot
  · obtain ⟨m, -, rfl⟩ := exists_of_mem_draws hc
    rw [show (dataAfter data m).nextValue.1 = _ from (hcall m).1] at he
    cases he
  · obtain ⟨m, -, rfl⟩ := exists_of_mem_draws hc
    exact ⟨_, (hcall m).1⟩
  · cases n with
    | zero => cases hc
    | succ n =>
      obtain rfl := Option.some.inj hc
      rw [← h.counter]
      exact (hcall 0).1
  · have hlt : m + 1 < n := by
      have := (List.getElem?_eq_some_iff.1 hc').1
      rwa [length_draws] at this
    rw [getElem?_draws (by omega)] at hc
    rw [getElem?_draws hlt] at hc'
    obtain rfl := Option.some.inj hc
    obtain rfl := Option.some.inj hc'
    have hvalue : v = (dataAfter data m).counter := by
      have hv' := hv
      rw [(hcall m).1] at hv'
      exact (Except.ok.inj hv').symm
    exact hvalue ▸ (hcall m).2 ▸ (hcall (m + 1)).1

/-- Calls by any transactions are right exactly if the sequence has CYCLE or none of them throws: each value is in range, and
so is the sum after it in range of 64 bits. -/
theorem calls_countAndStop_iff (data : SequenceData) (h : data.Started) (temporary : Bool) (undo : Nat → List UndoEntry)
    (transactions : List Nat) :
    CountsAndStops data (calls temporary ⟨data, undo⟩ transactions) ↔
      data.cycle = true ∨ Holds64 data transactions.length := by
  rw [calls_eq]
  cases hcycle : data.cycle with
  | true => exact iff_of_true (countsAndStops_draws_cycle h hcycle _) (.inl rfl)
  | false =>
    rw [countsAndStops_draws_iff h hcycle]
    simp

/-- A sequence from 1 to 3, with a call in each of three transactions. -/
theorem calls_countAndStop_iff_three :
    CountsAndStops ⟨0, 1, 1, 1, 1, 1, 3, false⟩
      (calls false ⟨⟨0, 1, 1, 1, 1, 1, 3, false⟩, fun _ => []⟩ [7, 8, 9]) :=
  (calls_countAndStop_iff ⟨0, 1, 1, 1, 1, 1, 3, false⟩ (by decide) false (fun _ => []) [7, 8, 9]).2 (by decide)

/-- A sequence whose greatest value is the greatest of 64 bits throws instead of handing it out, and starts again. -/
theorem calls_throw_and_wrap :
    let data : SequenceData := ⟨0, 2 ^ 63 - 2, 2 ^ 63 - 2, 1, 2 ^ 63 - 2, -2 ^ 63, 2 ^ 63 - 1, false⟩
    data.Started ∧ (calls false ⟨data, fun _ => []⟩ [0, 0, 0]).map (fun c => c.outcome) =
        [.ok (2 ^ 63 - 2), .error (.reachedMaximum (2 ^ 63 - 1)), .ok (-2 ^ 63)] ∧
      ¬ CountsAndStops data (calls false ⟨data, fun _ => []⟩ [0, 0, 0]) := by
  intro data
  have hstarted : data.Started := by decide
  have houtcomes : (calls false ⟨data, fun _ => []⟩ [0, 0, 0]).map (fun c => c.outcome) =
      [.ok (2 ^ 63 - 2), .error (.reachedMaximum (2 ^ 63 - 1)), .ok (-2 ^ 63)] := by decide
  refine ⟨hstarted, houtcomes, fun hright => ?_⟩
  rw [calls_eq, countsAndStops_draws_iff hstarted rfl] at hright
  exact absurd (hright 1 (by decide)) (by decide)

end Haybarn.Sequence
