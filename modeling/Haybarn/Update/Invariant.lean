/-
What holds in every system of transactions that update one vector. The writers of a row follow each
other: at most one is active, and each started after the one before had committed. The nodes of the
writers that some active transaction must not see are all in the chain, newest first, and each holds
what the row was before its writer.
-/
import Haybarn.Update.System
import Mathlib.Data.List.Nodup

namespace Haybarn.Update

open Lib Transaction

variable {α : Type}

namespace System

/-! ## The invariant -/

/-- The counters are above what they have handed out, and time stamps are used once. -/
structure Clocks (s : System α) : Prop where
  clock : s.currentStartTimestamp ≤ transactionIdStart
  next : transactionIdStart ≤ s.currentTransactionId
  starts : ∀ t ∈ s.active, t.startTime < s.currentStartTimestamp
  ids : ∀ t ∈ s.active, transactionIdStart ≤ t.transactionId ∧ t.transactionId < s.currentTransactionId
  distinct : s.active.Pairwise (·.transactionId ≠ ·.transactionId)
  commits : ∀ w ∈ s.committed, w.startTime < w.commitId ∧ w.commitId < s.currentStartTimestamp
  order : s.committed.Pairwise (·.commitId > ·.commitId)
  apart : ∀ t ∈ s.active, ∀ w ∈ s.committed, t.startTime ≠ w.commitId

/-- The writers of a row follow each other. -/
structure Serial (s : System α) : Prop where
  oneWriter : ∀ t ∈ s.active, ∀ t' ∈ s.active, ∀ row, (t.writes row).isSome → (t'.writes row).isSome →
    t.transactionId = t'.transactionId
  after : ∀ t ∈ s.active, ∀ w ∈ s.committed, ∀ row, (t.writes row).isSome → (w.writes row).isSome →
    w.commitId < t.startTime
  serial : ∀ w ∈ s.committed, ∀ w' ∈ s.committed, w'.commitId < w.commitId → ∀ row, (w.writes row).isSome →
    (w'.writes row).isSome → w'.commitId < w.startTime

/-- The version number belongs to a transaction with these writes. -/
def IsWriter (s : System α) (version : Nat) (writes : Nat → Option α) : Prop :=
  (∃ t ∈ s.active, t.transactionId = version ∧ t.writes = writes) ∨
    ∃ w ∈ s.committed, w.commitId = version ∧ w.writes = writes

/-- The newest value of a row: that of its active writer, or of the last committed one. -/
def current (s : System α) (row : Nat) : Option α :=
  (s.active.findSome? (·.writes row)).or (s.lastCommitted s.currentStartTimestamp row)

/-- The root and the chain. A node has the rows of its writer; the nodes with a row are ordered by
version, and the nodes ahead of that of an active transaction are later than its start. A node is
there as long as some active transaction must not see its writer. -/
structure Chain (N : Nat) (base : BaseData α) (s : System α) : Prop where
  increasing : ∀ info ∈ s.updates.chain, Increasing info.tuples
  nonempty : ∀ info ∈ s.updates.chain, info.tuples ≠ []
  rows : ∀ info ∈ s.updates.chain, ∀ row, info.Has row → row < N
  writer : ∀ info ∈ s.updates.chain, ∃ writes, s.IsWriter info.versionNumber writes ∧
    ∀ row, info.Has row ↔ (writes row).isSome
  versions : s.updates.chain.Pairwise (·.versionNumber ≠ ·.versionNumber)
  ordered : s.updates.chain.Pairwise fun info later =>
    ∀ row, info.Has row → later.Has row → later.versionNumber < info.versionNumber
  ahead : s.updates.chain.Pairwise fun info later =>
    ∀ t ∈ s.active, later.versionNumber = t.transactionId → t.startTime < info.versionNumber
  value : ∀ info ∈ s.updates.chain, ∀ row v, info.tuples.lookup row = some v →
    base.Delivers row (s.lastCommitted info.versionNumber row) v
  activeNode : ∀ t ∈ s.active, ∀ row, (t.writes row).isSome →
    ∃ info ∈ s.updates.chain, info.versionNumber = t.transactionId
  committedNode : ∀ w ∈ s.committed, ∀ row, (w.writes row).isSome → (∃ t ∈ s.active, t.startTime < w.commitId) →
    ∃ info ∈ s.updates.chain, info.versionNumber = w.commitId
  root : s.updates.RootShape
  noRoot : s.updates.root = none → s.updates.chain = []
  rootRows : ∀ row, (s.updates.rootValue row).isSome → row < N
  rootValue : ∀ row v, s.updates.rootValue row = some v → base.Delivers row (s.current row) v
  noRootValue : ∀ row, s.updates.rootValue row = none → s.current row = none

structure Inv (N : Nat) (base : BaseData α) (s : System α) : Prop where
  clocks : s.Clocks
  serial : s.Serial
  chain : s.Chain N base

theorem Inv.init (N : Nat) (base : BaseData α) : Inv N base ({} : System α) := by
  have h2 : (2 : Nat) ≤ transactionIdStart := by decide
  refine ⟨⟨h2, Nat.le_refl _, ?_, ?_, .nil, ?_, .nil, ?_⟩, ⟨?_, ?_, ?_⟩,
    ⟨?_, ?_, ?_, ?_, .nil, .nil, .nil, ?_, ?_, ?_, ?_, fun _ => rfl, ?_, ?_, fun _ _ => rfl⟩⟩
  all_goals simp [UpdateVector.RootShape, UpdateVector.rootValue]

/-! ## Consequences -/

section Consequences

variable {N : Nat} {base : BaseData α} {s : System α}

variable {t : Writer α} {w : CommittedWriter α} {info : UpdateInfo α} {row : Nat}

theorem Clocks.active_eq (h : s.Clocks) {t' : Writer α} (ht : t ∈ s.active) (ht' : t' ∈ s.active)
    (hid : t.transactionId = t'.transactionId) : t = t' := by
  have hn : (s.active.map (·.transactionId)).Nodup := List.pairwise_map.2 h.distinct
  exact List.inj_on_of_nodup_map hn ht ht' hid

theorem Clocks.committed_eq (h : s.Clocks) {w' : CommittedWriter α} (hw : w ∈ s.committed) (hw' : w' ∈ s.committed)
    (hid : w.commitId = w'.commitId) : w = w' := by
  have hn : (s.committed.map (·.commitId)).Nodup := List.pairwise_map.2 (h.order.imp Nat.ne_of_gt)
  exact List.inj_on_of_nodup_map hn hw hw' hid

theorem Clocks.commit_lt (h : s.Clocks) (hw : w ∈ s.committed) : w.commitId < transactionIdStart :=
  Nat.lt_of_lt_of_le (h.commits w hw).2 h.clock

theorem Clocks.commit_ne (h : s.Clocks) (ht : t ∈ s.active) (hw : w ∈ s.committed) :
    w.commitId ≠ t.transactionId := by
  have h1 := h.commit_lt hw
  have h2 := (h.ids t ht).1
  omega

theorem Inv.has_active (h : Inv N base s) (ht : t ∈ s.active)
    (hi : info ∈ s.updates.chain) (hv : info.versionNumber = t.transactionId) (row : Nat) :
    info.Has row ↔ (t.writes row).isSome := by
  obtain ⟨writes, hw, hrows⟩ := h.chain.writer info hi
  rw [hrows row]
  rcases hw with ⟨t', ht', hid, rfl⟩ | ⟨w, hw, hid, rfl⟩
  · rw [h.clocks.active_eq ht' ht (hid.trans hv)]
  · exact absurd (hid.trans hv) (h.clocks.commit_ne ht hw)

theorem Inv.has_committed (h : Inv N base s) (hw : w ∈ s.committed)
    (hi : info ∈ s.updates.chain) (hv : info.versionNumber = w.commitId) (row : Nat) :
    info.Has row ↔ (w.writes row).isSome := by
  obtain ⟨writes, hwr, hrows⟩ := h.chain.writer info hi
  rw [hrows row]
  rcases hwr with ⟨t, ht, hid, rfl⟩ | ⟨w', hw', hid, rfl⟩
  · exact absurd (hid.trans hv).symm (h.clocks.commit_ne ht hw)
  · rw [h.clocks.committed_eq hw' hw (hid.trans hv)]

theorem Inv.node_of_active (h : Inv N base s) (ht : t ∈ s.active) (hr : (t.writes row).isSome) :
    ∃ info ∈ s.updates.chain, info.versionNumber = t.transactionId ∧ info.Has row := by
  obtain ⟨info, hi, hv⟩ := h.chain.activeNode t ht row hr
  exact ⟨info, hi, hv, (h.has_active ht hi hv row).2 hr⟩

theorem Inv.node_of_committed (h : Inv N base s) (hw : w ∈ s.committed)
    (hr : (w.writes row).isSome) (ht : t ∈ s.active) (hlt : t.startTime < w.commitId) :
    ∃ info ∈ s.updates.chain, info.versionNumber = w.commitId ∧ info.Has row := by
  obtain ⟨info, hi, hv⟩ := h.chain.committedNode w hw row hr ⟨t, ht, hlt⟩
  exact ⟨info, hi, hv, (h.has_committed hw hi hv row).2 hr⟩

theorem Clocks.lastCommitted_eq (h : s.Clocks) {bound : Nat} (hb : s.currentStartTimestamp ≤ bound) (row : Nat) :
    s.lastCommitted bound row = s.lastCommitted s.currentStartTimestamp row := by
  refine lastCommitted_congr fun w hw _ => ?_
  have := (h.commits w hw).2
  omega

theorem Serial.current_of_active (hs : s.Serial) (hc : s.Clocks) (ht : t ∈ s.active) {v : α}
    (hv : t.writes row = some v) : s.current row = some v := by
  have hfind : s.active.findSome? (·.writes row) = some v := by
    cases hf : s.active.findSome? (·.writes row) with
    | none => rw [List.findSome?_eq_none_iff.1 hf t ht] at hv; cases hv
    | some v' =>
      obtain ⟨t', ht', hv'⟩ := List.exists_of_findSome?_eq_some hf
      have hid := hs.oneWriter t ht t' ht' row (by rw [hv]; rfl) (by rw [hv']; rfl)
      rw [← hc.active_eq ht ht' hid, hv] at hv'
      exact hv'.symm
  rw [current, hfind]
  rfl

theorem current_of_none (h : ∀ t ∈ s.active, t.writes row = none) :
    s.current row = s.lastCommitted s.currentStartTimestamp row := by
  rw [current, List.findSome?_eq_none_iff.2 h]
  rfl

theorem Inv.version_lt (h : Inv N base s) (hi : info ∈ s.updates.chain) :
    info.versionNumber < s.currentTransactionId := by
  obtain ⟨writes, ⟨t, ht, hid, -⟩ | ⟨w, hw, hid, -⟩, -⟩ := h.chain.writer info hi
  · exact hid ▸ (h.clocks.ids t ht).2
  · exact hid ▸ Nat.lt_of_lt_of_le (h.clocks.commit_lt hw) h.clocks.next

end Consequences

end System

end Haybarn.Update
