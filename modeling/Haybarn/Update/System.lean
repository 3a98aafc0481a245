/-
Transactions that update one vector, and what they should see of it. The system keeps, beside the
updates of the vector, what each transaction has effectively written to it; the committed writers are
kept newest first. From these, and not from the update chain, it says which value a transaction is
to see.

What one call does to the updates of a vector, row by row: an update that returns has moved the
replaced values to the node of its transaction and the new ones to the root, a rollback moves them
back, a commit renames a node, and a cleanup takes one out.
-/
import Haybarn.Lib.Run
import Haybarn.Lib.SortedAssoc
import Haybarn.Update.Segment
import Haybarn.Update.Merge

namespace Haybarn.Update

open Lib Transaction

variable {α : Type}

/-! ## Writers -/

/-- A transaction with its latest effective write to each row. -/
structure Writer (α : Type) where
  startTime : Nat
  transactionId : Nat
  writes : Nat → Option α := fun _ => none

/-- A committed transaction. -/
structure CommittedWriter (α : Type) extends Writer α where
  commitId : Nat

/-- The transaction after it has written these entries. -/
def Writer.write (t : Writer α) (update : List (Nat × α)) : Writer α :=
  { t with writes := fun row => (update.lookup row).or (t.writes row) }

/-- The updates of a vector, the counters of the transaction manager, and the transactions that have
not been rolled back. -/
structure System (α : Type) where
  updates : UpdateVector α := {}
  currentStartTimestamp : Nat := 2
  currentTransactionId : Nat := transactionIdStart
  active : List (Writer α) := []
  committed : List (CommittedWriter α) := []

/-! ## What a transaction is to see -/

/-- The value that the last transaction with a commit id below the bound wrote to the row. -/
def System.lastCommitted (s : System α) (bound row : Nat) : Option α :=
  s.committed.findSome? fun w => if w.commitId < bound then w.writes row else none

/-- What a transaction is to see of a row: its own write, or that of the last transaction that had
committed when it started. There is neither if the row has its base value. -/
def System.expected (s : System α) (t : Writer α) (row : Nat) : Option α :=
  (t.writes row).or (s.lastCommitted t.startTime row)

/-- The value is the written one, or that of the column data if there is no write. The data of a row
that is NULL there means nothing. -/
def BaseData.Delivers (base : BaseData α) (row : Nat) (expected : Option α) (v : α) : Prop :=
  match expected with
  | some w => v = w
  | none => base.valid row = true → v = base.data row

/-! ## Runs -/

/-- The calls of the transactions. `update` has the row ids with their new values, NULL for none, and
what a new node holds where the update does not write it. -/
inductive Op (α : Type) where
  | start
  | update (transactionId : Nat) (update : List (Nat × Option α)) (uninitialized : Nat → α)
  | commit (transactionId : Nat)
  | rollback (transactionId : Nat)
  | cleanup (commitId : Nat)

namespace System

/-- The other active transactions. -/
def others (s : System α) (transactionId : Nat) : List (Writer α) := s.active.filter (·.transactionId ≠ transactionId)

/-- One call. -/
def step [BEq α] (sort : RowSort α) (base : BaseData α) (s : System α) : Op α → System α
  | .start => { s with
      currentStartTimestamp := s.currentStartTimestamp + 1
      currentTransactionId := s.currentTransactionId + 1
      active := { startTime := s.currentStartTimestamp, transactionId := s.currentTransactionId } :: s.active }
  | .update id update uninitialized => match s.active.find? (·.transactionId = id) with
    | none => s
    | some t => match s.updates.update sort base t.startTime id true uninitialized update with
      | (updates, .error _) => { s with updates }
      | (updates, .ok ()) => { s with
          updates
          active := s.active.map fun t =>
            if t.transactionId = id then t.write (s.updates.effectiveUpdates sort base update) else t }
  | .commit id => match s.active.find? (·.transactionId = id) with
    | none => s
    | some t => { s with
        updates := s.updates.commitUpdate id s.currentStartTimestamp
        currentStartTimestamp := s.currentStartTimestamp + 1
        active := s.others id
        committed := { t with commitId := s.currentStartTimestamp } :: s.committed }
  | .rollback id => { s with updates := s.updates.rollbackUpdate id, active := s.others id }
  | .cleanup commitId => { s with updates := s.updates.cleanupUpdate commitId }

/-- The transaction is active. -/
def IsActive (s : System α) (transactionId : Nat) : Prop := ∃ t ∈ s.active, t.transactionId = transactionId

/-- Time stamps are below the transaction ids. Only active transactions update rows of the vector,
commit and roll back; a node is cleaned up when its commit id is below the start of every active
transaction. -/
def Allowed (N : Nat) (s : System α) : Op α → Prop
  | .start => s.currentStartTimestamp < transactionIdStart
  | .update id update _ => s.IsActive id ∧ ∀ e ∈ update, e.1 < N
  | .commit id => s.IsActive id ∧ s.currentStartTimestamp < transactionIdStart
  | .rollback id => s.IsActive id
  | .cleanup commitId => (∃ w ∈ s.committed, w.commitId = commitId) ∧ ∀ t ∈ s.active, commitId < t.startTime

instance (s : System α) (transactionId : Nat) : Decidable (s.IsActive transactionId) :=
  inferInstanceAs (Decidable (∃ t ∈ s.active, _))

instance (N : Nat) (s : System α) : ∀ op, Decidable (s.Allowed N op)
  | .start => inferInstanceAs (Decidable (_ < _))
  | .update .. => inferInstanceAs (Decidable (s.IsActive _ ∧ ∀ e ∈ _, _))
  | .commit _ => inferInstanceAs (Decidable (s.IsActive _ ∧ _ < _))
  | .rollback id => inferInstanceAs (Decidable (s.IsActive id))
  | .cleanup _ => inferInstanceAs (Decidable ((∃ w ∈ s.committed, _) ∧ ∀ t ∈ s.active, _))

/-- The systems that allowed calls lead to. -/
def Reachable [BEq α] (N : Nat) (sort : RowSort α) (base : BaseData α) (s : System α) : Prop :=
  ∃ ops, Lib.Steps (step sort base) (Allowed N) {} ops ∧ Lib.run (step sort base) {} ops = s

/-! ## Committed writes below a bound -/

theorem lastCommitted_congr {s : System α} {a b row : Nat}
    (h : ∀ w ∈ s.committed, (w.writes row).isSome → (w.commitId < a ↔ w.commitId < b)) :
    s.lastCommitted a row = s.lastCommitted b row := by
  unfold lastCommitted
  refine Lib.findSome?_congr fun w hw => ?_
  cases hv : w.writes row with
  | none => simp
  | some v => simp only [h w hw (by rw [hv]; rfl)]

theorem lastCommitted_cons (s : System α) (w : CommittedWriter α) (bound row : Nat) :
    ({ s with committed := w :: s.committed } : System α).lastCommitted bound row =
      ((if w.commitId < bound then w.writes row else none).or (s.lastCommitted bound row)) := by
  unfold lastCommitted
  rw [List.findSome?_cons]
  cases (if w.commitId < bound then w.writes row else none) <;> rfl

end System

/-- The value of a row in the root. -/
def UpdateVector.rootValue (u : UpdateVector α) (row : Nat) : Option α := u.root.bind (·.tuples.lookup row)

/-- The node contains the row. -/
def UpdateInfo.Has (info : UpdateInfo α) (row : Nat) : Prop := (info.tuples.lookup row).isSome

variable {info : UpdateInfo α} {update : List (Nat × α)} {u : UpdateVector α}

theorem UpdateInfo.has_iff {row : Nat} : info.Has row ↔ row ∈ info.tuples.map (·.1) :=
  lookup_isSome_iff_mem

theorem UpdateInfo.Has.of_lookup {row : Nat} {v : α} (h : info.tuples.lookup row = some v) :
    info.Has row := by
  unfold UpdateInfo.Has
  rw [h]
  rfl

/-- The root as it should be: it has the version number of roots, and increasing rows. -/
def UpdateVector.RootShape (u : UpdateVector α) : Prop :=
  ∀ root, u.root = some root → root.versionNumber = rootVersion ∧ Increasing root.tuples

/-! ## Update -/

/-- An update that writes the entries has changed the node of the transaction, or added one at the head
of the chain. The node keeps the values it had and has the replaced ones for the other rows. -/
structure Written (base : BaseData α) (transactionId : Nat) (update : List (Nat × α)) (u u' : UpdateVector α)
    (newer own older : List (UpdateInfo α)) (node : UpdateInfo α) : Prop where
  before : u.chain = newer ++ own ++ older
  after : u'.chain = newer ++ node :: older
  place : own = [] ∧ newer = [] ∧ (∀ info ∈ u.chain, info.versionNumber ≠ transactionId) ∨
    ∃ info, own = [info] ∧ info.versionNumber = transactionId
  version : node.versionNumber = transactionId
  increasing : Increasing node.tuples
  has : ∀ row, node.Has row ↔ (∃ info ∈ own, info.Has row) ∨ row ∈ update.map (·.1)
  kept : ∀ info ∈ own, ∀ row v, info.tuples.lookup row = some v → node.tuples.lookup row = some v
  replaced : ∀ row v, (∀ info ∈ own, ¬ info.Has row) → node.tuples.lookup row = some v →
    base.Delivers row (u.rootValue row) v
  root : ∀ row, u'.rootValue row = (update.lookup row).or (u.rootValue row)
  shape : u'.RootShape
  isSome : u'.root.isSome

theorem Written.mem_chain {base : BaseData α} {transactionId : Nat} {u' : UpdateVector α}
    {newer own older : List (UpdateInfo α)} {node : UpdateInfo α}
    (h : Written base transactionId update u u' newer own older node) :
    info ∈ u'.chain ↔ info = node ∨ info ∈ newer ∨ info ∈ older := by
  rw [h.after, List.mem_append, List.mem_cons]
  exact or_left_comm

theorem map_fst_initializeUpdateData (base : BaseData α) (uninitialized : Nat → α) (update : List (Nat × α)) :
    (initializeUpdateData base uninitialized update).map (·.1) = update.map (·.1) := by
  unfold initializeUpdateData
  refine List.ext_getElem (by simp) fun i h1 h2 => ?_
  simp

theorem initializeUpdateData_valid {base : BaseData α} {uninitialized : Nat → α} {e : Nat × α}
    (h : e ∈ initializeUpdateData base uninitialized update) (hv : base.valid e.1 = true) : e.2 = base.data e.1 := by
  unfold initializeUpdateData at h
  obtain ⟨i, hi, rfl⟩ := List.mem_mapIdx.1 h
  simp only at hv ⊢
  rw [if_pos hv]

theorem written_first (base : BaseData α) (transactionId : Nat) (uninitialized : Nat → α)
    (hinc : Increasing update) (hroot : u.root = none) (hchain : u.chain = []) :
    Written base transactionId update u
      { root := some { versionNumber := rootVersion, tuples := update }
        chain := [{ versionNumber := transactionId, tuples := initializeUpdateData base uninitialized update }] }
      [] [] [] { versionNumber := transactionId, tuples := initializeUpdateData base uninitialized update } where
  before := hchain
  after := rfl
  place := .inl ⟨rfl, rfl, fun info hi => absurd (hchain ▸ hi) List.not_mem_nil⟩
  version := rfl
  increasing := by
    have hkeys : (update.map (·.1)).Pairwise (· < ·) := List.pairwise_map.2 hinc
    rw [← map_fst_initializeUpdateData base uninitialized] at hkeys
    exact List.pairwise_map.1 hkeys
  has row := by
    rw [UpdateInfo.has_iff, map_fst_initializeUpdateData]
    exact (or_iff_right fun ⟨info, hi, _⟩ => absurd hi List.not_mem_nil).symm
  kept info hi := absurd hi List.not_mem_nil
  replaced row v _ hv := by
    have hnone : u.rootValue row = none := by
      unfold UpdateVector.rootValue
      rw [hroot]
      rfl
    rw [hnone]
    intro hvalid
    exact initializeUpdateData_valid (mem_of_lookup hv) hvalid
  root row := by
    unfold UpdateVector.rootValue
    rw [hroot]
    exact (Option.or_none ..).symm
  shape root hr := by
    cases hr
    exact ⟨rfl, hinc⟩
  isSome := rfl

theorem written_merge (base : BaseData α) {transactionId : Nat} (hinc : Increasing update)
    {root node : UpdateInfo α} (hroot : u.root = some root) (hr : u.RootShape)
    {newer own older : List (UpdateInfo α)} (hbefore : u.chain = newer ++ own ++ older)
    (hown : (own = [] ∧ newer = [] ∧ (∀ info ∈ u.chain, info.versionNumber ≠ transactionId)) ∧ node.tuples = [] ∨
      own = [node]) (hversion : node.versionNumber = transactionId) (hn : Increasing node.tuples) :
    Written base transactionId update u
      { root := some (mergeUpdateLoop base root node update).1
        chain := newer ++ (mergeUpdateLoop base root node update).2 :: older }
      newer own older (mergeUpdateLoop base root node update).2 := by
  obtain ⟨hrv, hri⟩ := hr root hroot
  have hids : (update.map (·.1)).Pairwise (· < ·) := List.pairwise_map.2 hinc
  obtain ⟨hmi, -, hml⟩ := mergeReplaced_spec base hids hri hn
  obtain ⟨hli, hll⟩ := mergeLoop_spec hinc hri
  have hvalue : ∀ row, u.rootValue row = root.tuples.lookup row := fun row => by
    unfold UpdateVector.rootValue
    rw [hroot]
    rfl
  -- the rows of the node are the rows of the transaction's nodes before
  have hrows : ∀ row, node.Has row ↔ ∃ info ∈ own, info.Has row := by
    intro row
    rcases hown with ⟨⟨rfl, -, -⟩, hnil⟩ | rfl
    · refine iff_of_false ?_ fun ⟨info, hi, _⟩ => absurd hi List.not_mem_nil
      simp [UpdateInfo.Has, hnil]
    · exact ⟨fun h => ⟨node, List.mem_singleton.2 rfl, h⟩, fun ⟨info, hi, h⟩ => List.mem_singleton.1 hi ▸ h⟩
  refine ⟨hbefore, rfl, ?_, hversion, hmi, fun row => ?_, fun info hi row v hv => ?_, fun row v hnot hv => ?_,
    fun row => ?_, fun r hr => ?_, rfl⟩
  · rcases hown with ⟨hnew, -⟩ | rfl
    · exact .inl hnew
    · exact .inr ⟨node, rfl, hversion⟩
  · rw [← hrows row]
    unfold UpdateInfo.Has mergeUpdateLoop
    rw [hml row, Option.isSome_or]
    by_cases hmem : row ∈ update.map (·.1) <;> simp [hmem]
  · rcases hown with ⟨⟨rfl, -, -⟩, -⟩ | rfl
    · exact absurd hi List.not_mem_nil
    · obtain rfl := List.mem_singleton.1 hi
      exact (hml row).trans (by rw [hv]; rfl)
  · have hnone : node.tuples.lookup row = none := by
      refine Option.not_isSome_iff_eq_none.1 fun hs => ?_
      obtain ⟨info, hi, hh⟩ := (hrows row).1 hs
      exact hnot info hi hh
    have hv := (hml row).symm.trans hv
    rw [hnone, Option.none_or] at hv
    split at hv
    · obtain rfl := Option.some.inj hv
      rw [hvalue]
      cases root.tuples.lookup row with
      | none => exact fun _ => rfl
      | some x => rfl
    · cases hv
  · rw [hvalue]
    exact hll row
  · cases hr
    exact ⟨hrv, hli⟩

/-- What `Update` of a transaction can do: nothing to write, a conflict that changes nothing, or the
entries are written and no node conflicts. -/
theorem update_cases [BEq α] (sort : RowSort α) (base : BaseData α) (startTime transactionId : Nat)
    (uninitialized : Nat → α) (entries : List (Nat × Option α))
    (hchain : ∀ info ∈ u.chain, Increasing info.tuples) (hroot : u.RootShape) (hnone : u.root = none → u.chain = []) :
    let update := u.effectiveUpdates sort base entries
    let result := u.update sort base startTime transactionId true uninitialized entries
    (update = [] ∧ result = (u, .ok ())) ∨
    (result = (u, .error .conflictOnUpdate) ∧ ∃ info ∈ u.chain, info.ConflictsWith startTime transactionId (update.map (·.1))) ∨
    (update ≠ [] ∧ result.2 = .ok () ∧
      (∀ info ∈ u.chain, ¬ info.ConflictsWith startTime transactionId (update.map (·.1))) ∧
      ∃ newer own older node, Written base transactionId update u result.1 newer own older node) := by
  obtain ⟨hinc, -⟩ := effectiveUpdates_spec sort base u entries
  unfold UpdateVector.update
  dsimp only
  generalize u.effectiveUpdates sort base entries = update at hinc ⊢
  have hids : (update.map (·.1)).Pairwise (· < ·) := List.pairwise_map.2 hinc
  split
  · next hempty => exact .inl ⟨List.isEmpty_iff.1 hempty, rfl⟩
  · next hempty =>
    have hne : update ≠ [] := fun h => hempty (List.isEmpty_iff.2 h)
    cases hr : u.root with
    | none =>
      have hnil := hnone hr
      exact .inr (.inr ⟨hne, rfl, fun info hi => absurd (hnil ▸ hi) List.not_mem_nil, _, _, _, _,
        written_first base transactionId uninitialized hinc hr hnil⟩)
    | some root =>
      dsimp only
      have herror := checkForConflicts_error_iff startTime transactionId hids hchain 0 none
      cases hc : checkForConflicts startTime transactionId (update.map (·.1)) u.chain 0 none with
      | error e =>
        rw [hc] at herror
        exact .inr (.inl ⟨rfl, herror.1 rfl⟩)
      | ok found =>
        have hfree : ∀ info ∈ u.chain, ¬ info.ConflictsWith startTime transactionId (update.map (·.1)) := by
          intro info hi hconf
          exact nomatch hc.symm.trans (herror.2 ⟨info, hi, hconf⟩)
        rcases checkForConflicts_ok hc with ⟨hother, rfl⟩ | ⟨pos, node, hpos, hversion, rfl⟩
        · exact .inr (.inr ⟨hne, rfl, hfree, _, _, _, _, written_merge base hinc hr hroot
            (show u.chain = [] ++ [] ++ u.chain from rfl) (.inl ⟨⟨rfl, rfl, hother⟩, rfl⟩) rfl .nil⟩)
        · rw [Nat.zero_add]
          dsimp only
          rw [hpos]
          obtain ⟨hlt, hget⟩ := List.getElem?_eq_some_iff.1 hpos
          have hsplit : u.chain = u.chain.take pos ++ [node] ++ u.chain.drop (pos + 1) := by
            rw [List.append_assoc, List.singleton_append, ← hget, List.getElem_cons_drop, List.take_append_drop]
          have hset : u.chain.set pos (mergeUpdateLoop base root node update).2 =
              u.chain.take pos ++ (mergeUpdateLoop base root node update).2 :: u.chain.drop (pos + 1) :=
            List.set_eq_take_append_cons_drop .. |>.trans (if_pos hlt)
          dsimp only
          rw [hset]
          exact .inr (.inr ⟨hne, rfl, hfree, _, _, _, _, written_merge base hinc hr hroot hsplit (.inr rfl) hversion
            (hchain node (List.mem_of_getElem? hpos))⟩)

end Haybarn.Update
