/-
The data of a sequence and what `nextval` does to it: the counter moves by the increment, the value
it had is handed out if it is in range. For a sequence without CYCLE the value handed out is told by
the number of values drawn before, as long as no addition overflows.

Concurrent transactions on one sequence: its catalog versions, newest first, the undo buffers of the
active transactions, the log and the stored info that a restart reads. Beside them the system keeps
the history of the values that were handed out.
-/
import Mathlib.Tactic.Linarith
import Mathlib.Tactic.Ring
import Haybarn.Lib.Run

namespace Haybarn.Sequence

/-! ## The entry -/

/-- What CREATE SEQUENCE says, and what a checkpoint stores of a sequence. -/
structure CreateSequenceInfo where
  usageCount : Nat := 0
  increment : Int := 1
  minValue : Int := 1
  maxValue : Int := 2 ^ 63 - 1
  startValue : Int := 1
  cycle : Bool := false
  deriving Repr, DecidableEq

/-- What the parser accepts. -/
structure CreateSequenceInfo.Accepted (info : CreateSequenceInfo) : Prop where
  usageCount : info.usageCount = 0
  increment : info.increment ≠ 0
  min_lt_max : info.minValue < info.maxValue
  min_le_start : info.minValue ≤ info.startValue
  start_le_max : info.startValue ≤ info.maxValue
  int64 : -2 ^ 63 ≤ info.minValue ∧ info.maxValue < 2 ^ 63

/-- The state of a sequence. The usage count is a 64 bit word in the source; a sequence that does not
overflow has fewer values than that. -/
structure SequenceData where
  usageCount : Nat
  counter : Int
  lastValue : Int
  increment : Int
  startValue : Int
  minValue : Int
  maxValue : Int
  cycle : Bool
  deriving Repr, DecidableEq

def CreateSequenceInfo.data (info : CreateSequenceInfo) : SequenceData where
  usageCount := info.usageCount
  counter := info.startValue
  lastValue := info.startValue
  increment := info.increment
  startValue := info.startValue
  minValue := info.minValue
  maxValue := info.maxValue
  cycle := info.cycle

/-- The sum of two `int64_t`, wrapped, and whether it did not overflow. -/
def tryAdd (left right : Int) : Int × Bool :=
  (Int.bmod (left + right) (2 ^ 64), decide (-2 ^ 63 ≤ left + right ∧ left + right < 2 ^ 63))

/-- The errors of `nextval`. -/
inductive SequenceException where
  | reachedMinimum (minValue : Int)
  | reachedMaximum (maxValue : Int)
  deriving Repr, DecidableEq

namespace SequenceData

/-- `NextValue`: the outcome, and the data after it. The counter has moved also where it throws. -/
def nextValue (data : SequenceData) : Except SequenceException Int × SequenceData :=
  let result := data.counter
  let (counter, added) := tryAdd data.counter data.increment
  let overflow := !added
  if data.cycle then
    let counter :=
      if overflow then (if data.increment < 0 then data.maxValue else data.minValue)
      else if counter < data.minValue then data.maxValue
      else if counter > data.maxValue then data.minValue
      else counter
    (.ok result, { data with counter, lastValue := result, usageCount := data.usageCount + 1 })
  else if result < data.minValue ∨ overflow ∧ data.increment < 0 then
    (.error (.reachedMinimum data.minValue), { data with counter })
  else if result > data.maxValue ∨ overflow then
    (.error (.reachedMaximum data.maxValue), { data with counter })
  else (.ok result, { data with counter, lastValue := result, usageCount := data.usageCount + 1 })

def replayValue (data : SequenceData) (usageCount : Nat) (counter : Int) : SequenceData :=
  if usageCount > data.usageCount then { data with usageCount, counter } else data

/-- `GetInfo`: the start value of the info is the counter. -/
def getInfo (data : SequenceData) : CreateSequenceInfo where
  usageCount := data.usageCount
  increment := data.increment
  minValue := data.minValue
  maxValue := data.maxValue
  startValue := data.counter
  cycle := data.cycle

/-- The next call of `nextval` does not overflow. -/
def NoOverflow (data : SequenceData) : Prop :=
  -2 ^ 63 ≤ data.counter + data.increment ∧ data.counter + data.increment < 2 ^ 63

instance (data : SequenceData) : Decidable data.NoOverflow := inferInstanceAs (Decidable (_ ∧ _))

end SequenceData

theorem tryAdd_of_noOverflow {data : SequenceData} (h : data.NoOverflow) :
    tryAdd data.counter data.increment = (data.counter + data.increment, true) := by
  obtain ⟨hl, hu⟩ := h
  simp only [tryAdd, Prod.mk.injEq, decide_eq_true_eq]
  exact ⟨by rw [Int.bmod_eq_of_le] <;> omega, hl, hu⟩

/-! ## The values of a sequence -/

namespace CreateSequenceInfo

variable (info : CreateSequenceInfo)

/-- The value that comes after `n` values. -/
def value (n : Nat) : Int := info.startValue + n * info.increment

/-- The value is one the sequence may hand out. -/
def InRange (x : Int) : Prop := info.minValue ≤ x ∧ x ≤ info.maxValue

end CreateSequenceInfo

variable {info : CreateSequenceInfo}

theorem value_injective (hi : info.Accepted) : Function.Injective info.value := by
  intro m n h
  have h' : (m : Int) * info.increment = n * info.increment := by
    simpa [CreateSequenceInfo.value] using h
  exact_mod_cast Int.eq_of_mul_eq_mul_right hi.increment h'

theorem not_inRange_of_le (hi : info.Accepted) {m n : Nat} (h : ¬ info.InRange (info.value m)) (hmn : m ≤ n) :
    ¬ info.InRange (info.value n) := by
  have hs := hi.min_le_start
  have hs' := hi.start_le_max
  simp only [CreateSequenceInfo.InRange, CreateSequenceInfo.value, not_and_or, not_le] at h ⊢
  rcases lt_or_gt_of_ne hi.increment with hneg | hpos
  · have h₁ : (n : Int) * info.increment ≤ m * info.increment := by nlinarith
    have h₂ : (m : Int) * info.increment ≤ 0 := by nlinarith
    omega
  · have h₁ : (m : Int) * info.increment ≤ n * info.increment := by nlinarith
    have h₂ : 0 ≤ (m : Int) * info.increment := by nlinarith
    omega

/-- The data of a sequence without CYCLE that has not overflowed. The counter is the value after
`usageCount` values, or further where that one is out of range, as it moves on with each call that
throws. -/
structure Tracks (info : CreateSequenceInfo) (data : SequenceData) : Prop where
  increment : data.increment = info.increment
  minValue : data.minValue = info.minValue
  maxValue : data.maxValue = info.maxValue
  cycle : data.cycle = false
  counter : ∃ n, data.usageCount ≤ n ∧ data.counter = info.value n ∧
    (data.usageCount < n → ¬ info.InRange (info.value data.usageCount))

namespace Tracks

variable {data data' : SequenceData}

theorem init (hi : info.Accepted) (hc : info.cycle = false) : Tracks info info.data where
  increment := rfl
  minValue := rfl
  maxValue := rfl
  cycle := hc
  counter := ⟨0, by simp [CreateSequenceInfo.data, hi.usageCount], by
    simp [CreateSequenceInfo.data, CreateSequenceInfo.value], by simp [CreateSequenceInfo.data]⟩

theorem getInfo (h : Tracks info data) : Tracks info data.getInfo.data :=
  ⟨h.increment, h.minValue, h.maxValue, h.cycle, h.counter⟩

theorem replayValue (h : Tracks info data) (h' : Tracks info data') :
    Tracks info (data.replayValue data'.usageCount data'.counter) := by
  unfold SequenceData.replayValue
  split
  · exact ⟨h.increment, h.minValue, h.maxValue, h.cycle, h'.counter⟩
  · exact h

theorem nextValue_eq (h : Tracks info data) (ho : data.NoOverflow) :
    data.nextValue =
      if data.counter < info.minValue then
        (.error (.reachedMinimum info.minValue), { data with counter := data.counter + info.increment })
      else if data.counter > info.maxValue then
        (.error (.reachedMaximum info.maxValue), { data with counter := data.counter + info.increment })
      else (.ok data.counter, { data with
        counter := data.counter + info.increment
        lastValue := data.counter
        usageCount := data.usageCount + 1 }) := by
  have hadd := tryAdd_of_noOverflow ho
  rw [h.increment] at hadd
  simp [SequenceData.nextValue, hadd, h.increment, h.minValue, h.maxValue, h.cycle]

theorem nextValue_ok (hi : info.Accepted) (h : Tracks info data) (ho : data.NoOverflow) {value : Int}
    (hv : data.nextValue = (.ok value, data')) :
    value = info.value data.usageCount ∧ data'.usageCount = data.usageCount + 1 ∧ Tracks info data' := by
  obtain ⟨n, hn, hcounter, hout⟩ := h.counter
  rw [h.nextValue_eq ho] at hv
  split at hv
  · simp at hv
  · rename_i hmin
    split at hv
    · simp at hv
    · rename_i hmax
      obtain ⟨rfl, rfl⟩ : data.counter = value ∧ _ := by simpa using hv
      have hin : info.InRange (info.value n) := by
        rw [← hcounter]
        exact ⟨by omega, by omega⟩
      obtain rfl : data.usageCount = n := by
        by_contra hne
        exact not_inRange_of_le hi (hout (by omega)) hn hin
      refine ⟨hcounter, rfl, h.increment, h.minValue, h.maxValue, h.cycle, data.usageCount + 1, le_rfl, ?_, by simp⟩
      show data.counter + info.increment = _
      rw [hcounter, CreateSequenceInfo.value, CreateSequenceInfo.value]
      push_cast
      ring

theorem nextValue_error (h : Tracks info data) (ho : data.NoOverflow) {e : SequenceException}
    (hv : data.nextValue = (.error e, data')) : data'.usageCount = data.usageCount ∧ Tracks info data' := by
  obtain ⟨n, hn, hcounter, hout⟩ := h.counter
  have hmoved : ¬ info.InRange data.counter → Tracks info { data with counter := data.counter + info.increment } := by
    intro hr
    refine ⟨h.increment, h.minValue, h.maxValue, h.cycle, n + 1, by simp; omega, ?_, fun _ => ?_⟩
    · show data.counter + info.increment = _
      rw [hcounter, CreateSequenceInfo.value, CreateSequenceInfo.value]
      push_cast
      ring
    · rcases hn.lt_or_eq with hlt | heq
      · exact hout hlt
      · rw [heq, ← hcounter]
        exact hr
  rw [h.nextValue_eq ho] at hv
  split at hv
  · rename_i hmin
    obtain ⟨-, rfl⟩ : _ ∧ _ = data' := by simpa using hv
    exact ⟨rfl, hmoved fun hr => by have := hr.1; omega⟩
  · split at hv
    · rename_i hmax
      obtain ⟨-, rfl⟩ : _ ∧ _ = data' := by simpa using hv
      exact ⟨rfl, hmoved fun hr => by have := hr.2; omega⟩
    · simp at hv

end Tracks

/-! ## Versions and transactions -/

/-- The time stamp of a catalog entry: the id of the transaction that made it until that one commits,
then its commit id. -/
inductive Timestamp where
  | transaction (id : Nat)
  | commit (commitId : Nat)
  deriving Repr, DecidableEq

/-- A catalog version of the sequence. `copiedUsage` is the usage count of the data it was made from;
the code does not keep it. -/
structure Version where
  id : Nat
  timestamp : Timestamp
  data : SequenceData
  copiedUsage : Nat
  deriving Repr, DecidableEq

/-- The transaction that made the version has committed. -/
def Version.committed (v : Version) : Bool :=
  match v.timestamp with
  | .transaction _ => false
  | .commit _ => true

/-- An entry of an undo buffer about the sequence. -/
inductive UndoEntry where
  | alter
  | sequenceValue (entry usageCount : Nat) (counter : Int)
  deriving Repr, DecidableEq

/-- An active transaction. `copied` is the copy that a running ALTER has made. -/
structure Transaction where
  id : Nat
  startTime : Nat
  copied : Option SequenceData := none
  undo : List UndoEntry := []
  deriving Repr, DecidableEq

/-- A record of the log about the sequence. -/
inductive WalRecord where
  | alter
  | sequenceValue (usageCount : Nat) (counter : Int)
  deriving Repr, DecidableEq

/-- A value that `nextval` has handed out, and to whom. `entry` and `usage` say through which version
and how many values that one had counted. -/
structure Draw where
  transaction : Nat
  entry : Nat
  usage : Nat
  value : Int
  deriving Repr, DecidableEq

def Transaction.UseTimestamp (t : Transaction) (v : Version) : Prop :=
  match v.timestamp with
  | .transaction id => id = t.id
  | .commit commitId => commitId < t.startTime

instance (t : Transaction) (v : Version) : Decidable (t.UseTimestamp v) := by
  unfold Transaction.UseTimestamp
  cases v.timestamp <;> infer_instance

/-- `PushSequenceUsage`: a transaction has one undo entry for each version it draws from. -/
def pushSequenceUsage (entry : Nat) (data : SequenceData) : List UndoEntry → List UndoEntry
  | [] => [.sequenceValue entry data.usageCount data.counter]
  | .alter :: undo => .alter :: pushSequenceUsage entry data undo
  | .sequenceValue e usageCount counter :: undo =>
    if e = entry then .sequenceValue entry data.usageCount data.counter :: undo
    else .sequenceValue e usageCount counter :: pushSequenceUsage entry data undo

/-- What the commit writes to the log for an undo entry. -/
def UndoEntry.record : UndoEntry → WalRecord
  | .alter => .alter
  | .sequenceValue _ usageCount counter => .sequenceValue usageCount counter

/-- The replay of one record. An ALTER is done again: it copies the entry with its data. -/
def replay (data : SequenceData) : WalRecord → SequenceData
  | .alter => data
  | .sequenceValue usageCount counter => data.replayValue usageCount counter

/-! ## The system -/

/-- `info` is what the last checkpoint has stored. -/
structure System where
  temporary : Bool
  info : CreateSequenceInfo
  wal : List WalRecord := []
  versions : List Version
  active : List Transaction := []
  committed : List Nat := []
  draws : List Draw := []
  currentTimestamp : Nat := 1
  nextTransaction : Nat := 0
  nextEntry : Nat := 1
  deriving Repr, DecidableEq

/-- The sequence after the transaction that created it. -/
def initial (info : CreateSequenceInfo) (temporary : Bool) : System where
  temporary
  info
  versions := [{ id := 0, timestamp := .commit 0, data := info.data, copiedUsage := info.usageCount }]

/-- The calls. ALTER copies the entry it sees, and then puts the copy in front of the versions. -/
inductive Op where
  | start
  | nextValue (id : Nat)
  | copy (id : Nat)
  | alter (id : Nat)
  | commit (id : Nat)
  | rollback (id : Nat)
  | checkpoint
  | crash
  deriving Repr, DecidableEq

/-- `f` on the first version that the transaction sees. -/
def modifyVisible (t : Transaction) (f : Version → Version) : List Version → List Version
  | [] => []
  | v :: vs => if t.UseTimestamp v then f v :: vs else v :: modifyVisible t f vs

namespace System

/-- The data that a restart finds. -/
def recovered (s : System) : SequenceData := s.wal.foldl replay s.info.data

def find (s : System) (id : Nat) : Option Transaction := s.active.find? (·.id = id)

/-- `GetEntryForTransaction` -/
def visible (s : System) (t : Transaction) : Option Version := s.versions.find? (t.UseTimestamp ·)

/-- The active transactions after `f` on the one with this id. -/
def modifyActive (s : System) (id : Nat) (f : Transaction → Transaction) : List Transaction :=
  s.active.map fun t => if t.id = id then f t else t

/-- `nextval` in transaction `t`, which sees `v`. A temporary sequence is not logged. -/
def nextValue (s : System) (t : Transaction) (v : Version) : System :=
  match v.data.nextValue with
  | (.error _, data) => { s with versions := modifyVisible t ({ · with data }) s.versions }
  | (.ok value, data) => { s with
      versions := modifyVisible t ({ · with data }) s.versions
      draws := s.draws ++ [{ transaction := t.id, entry := v.id, usage := v.data.usageCount, value }]
      active := if s.temporary then s.active
        else s.modifyActive t.id fun t => { t with undo := pushSequenceUsage v.id data t.undo } }

/-- The second half of ALTER: there is a write-write conflict if the newest version is not one the
transaction sees. -/
def alter (s : System) (t : Transaction) (data : SequenceData) : System :=
  match s.versions with
  | [] => s
  | v :: _ =>
    if t.UseTimestamp v then { s with
      versions := { id := s.nextEntry, timestamp := .transaction t.id, data, copiedUsage := data.usageCount } ::
        s.versions
      nextEntry := s.nextEntry + 1
      active := s.modifyActive t.id fun t => { t with copied := none, undo := t.undo ++ [.alter] } }
    else { s with active := s.modifyActive t.id ({ · with copied := none }) }

/-- The other active transactions. -/
def others (s : System) (id : Nat) : List Transaction := s.active.filter (·.id ≠ id)

/-- The log is written from the undo buffer, then the versions of the transaction get the commit id. -/
def commit (s : System) (t : Transaction) : System := { s with
  wal := if s.temporary then s.wal else s.wal ++ t.undo.map (·.record)
  versions := s.versions.map fun v =>
    if v.timestamp = .transaction t.id then { v with timestamp := .commit s.currentTimestamp } else v
  currentTimestamp := s.currentTimestamp + 1
  active := s.others t.id
  committed := s.committed ++ [t.id] }

def rollback (s : System) (id : Nat) : System := { s with
  versions := s.versions.filter (·.timestamp ≠ .transaction id)
  active := s.others id }

/-- The newest committed version is stored, and the log starts anew. -/
def checkpoint (s : System) : System :=
  match s.versions.find? (·.committed) with
  | none => s
  | some v => if s.temporary then s else { s with info := v.data.getInfo, wal := [] }

/-- A restart. Temporary sequences are gone after it. -/
def crash (s : System) : System := { s with
  versions := if s.temporary then [] else
    [{ id := s.nextEntry, timestamp := .commit 0, data := s.recovered, copiedUsage := s.recovered.usageCount }]
  nextEntry := s.nextEntry + 1
  active := [] }

/-- One call. A call for a transaction that is not active is none. -/
def step (s : System) : Op → System
  | .start => { s with
      currentTimestamp := s.currentTimestamp + 1
      nextTransaction := s.nextTransaction + 1
      active := s.active ++ [{ id := s.nextTransaction, startTime := s.currentTimestamp }] }
  | .nextValue id => match s.find id with
    | none => s
    | some t => match s.visible t with
      | none => s
      | some v => s.nextValue t v
  | .copy id => match s.find id with
    | none => s
    | some t => { s with active := s.modifyActive id ({ · with copied := (s.visible t).map (·.data) }) }
  | .alter id => match s.find id with
    | none => s
    | some t => match t.copied with
      | none => s
      | some data => s.alter t data
  | .commit id => match s.find id with
    | none => s
    | some t => s.commit t
  | .rollback id => s.rollback id
  | .checkpoint => s.checkpoint
  | .crash => s.crash

/-- The values that `nextval` has handed out to transactions that committed. -/
def committedValues (s : System) : List Int := (s.draws.filter (·.transaction ∈ s.committed)).map (·.value)

/-! ## When no value is handed out twice -/

/-- The transaction draws from the newest committed version or from its own, and the addition of the
increment does not overflow. -/
def DrawsNewest (s : System) (t : Transaction) : Prop :=
  match s.visible t with
  | none => True
  | some v => v.data.NoOverflow ∧ ∀ w ∈ s.versions.takeWhile (¬ t.UseTimestamp ·), w.committed = false

/-- No older version has counted more values than the versions of the transaction had been made with:
none was drawn from the old data since ALTER has copied it. -/
def CopiesNewest (s : System) (t : Transaction) : Prop :=
  s.versions.Pairwise fun newer older =>
    newer.timestamp = .transaction t.id → older.data.usageCount ≤ newer.copiedUsage

/-- The calls after which the counter is in one place. -/
def Sound (s : System) : Op → Prop
  | .nextValue id => ∀ t ∈ s.find id, s.DrawsNewest t
  | .commit id => ∀ t ∈ s.find id, s.CopiesNewest t
  | _ => True

instance (s : System) (t : Transaction) : Decidable (s.DrawsNewest t) := by
  unfold DrawsNewest
  cases s.visible t <;> infer_instance

instance (s : System) (t : Transaction) : Decidable (s.CopiesNewest t) :=
  inferInstanceAs (Decidable (List.Pairwise _ _))

instance (s : System) : ∀ op, Decidable (s.Sound op)
  | .nextValue id => inferInstanceAs (Decidable (∀ t ∈ s.find id, s.DrawsNewest t))
  | .commit id => inferInstanceAs (Decidable (∀ t ∈ s.find id, s.CopiesNewest t))
  | .start | .copy _ | .alter _ | .rollback _ | .checkpoint | .crash => .isTrue trivial

end System

end Haybarn.Sequence
