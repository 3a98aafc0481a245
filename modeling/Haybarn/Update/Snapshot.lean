/-
Snapshot reads and conflicts of updates. Every active transaction reads its own writes and otherwise
what was committed when it started; an update throws exactly if it would overwrite a row that the
transaction does not see, and so no update is lost.
-/
import Haybarn.Update.Finish
import Mathlib.Data.List.Sort

namespace Haybarn.Update.System

open Lib Transaction List

variable {α : Type} {N : Nat} {base : BaseData α} {s : System α}

/-! ## Reads -/

variable {t : Writer α} {row : Nat}

/-- A node applies to an active transaction if it is of another one and later than its start. A commit
id that equals the number of the root is later than every start. -/
theorem Inv.applies_iff (h : Inv N base s) (ht : t ∈ s.active) {info : UpdateInfo α}
    (hi : info ∈ s.updates.chain) : info.appliesToTransaction t.startTime t.transactionId = true ↔
      t.startTime < info.versionNumber ∧ info.versionNumber ≠ t.transactionId := by
  have hclock := h.clocks.clock
  have hstart := h.clocks.starts t ht
  unfold UpdateInfo.appliesToTransaction
  split
  · next hr =>
    unfold rootVersion at hr
    refine iff_of_true rfl ?_
    obtain ⟨writes, ⟨t', ht', hid, -⟩ | ⟨w, hw, hid, -⟩, -⟩ := h.chain.writer info hi
    · have := (h.clocks.ids t' ht').1
      omega
    · have h1 := h.clocks.apart t ht w hw
      have h2 := h.clocks.commit_ne ht hw
      exact ⟨by omega, hid ▸ h2⟩
  · simp

theorem Inv.fetchUpdates_eq (h : Inv N base s) (t : Writer α) (hrow : row < N) :
    s.updates.fetchUpdates N t.startTime t.transactionId base.data row =
      mergedValue (s.updates.chain.filter (·.appliesToTransaction t.startTime t.transactionId)) row
        ((s.updates.rootValue row).getD (base.data row)) := by
  unfold UpdateVector.fetchUpdates UpdateVector.rootValue
  cases hr : s.updates.root with
  | none =>
    rw [h.chain.noRoot hr]
    rfl
  | some root =>
    obtain ⟨hrv, hri⟩ := h.chain.root root hr
    have hroot : root.appliesToTransaction t.startTime t.transactionId = true := if_pos hrv
    have hrows : ∀ e ∈ root.tuples, e.1 < N := by
      intro e he
      refine h.chain.rootRows e.1 ?_
      unfold UpdateVector.rootValue
      rw [hr]
      exact Option.isSome_of_eq_some (hri.lookup_of_mem he)
    have hshape : ∀ info ∈ root :: s.updates.chain.filter (·.appliesToTransaction t.startTime t.transactionId),
        Increasing info.tuples ∧ ∀ e ∈ info.tuples, e.1 < N := by
      refine forall_mem_cons.2 ⟨⟨hri, hrows⟩, fun info hi => ?_⟩
      have hi := (mem_filter.1 hi).1
      refine ⟨h.chain.increasing info hi, fun e he => h.chain.rows info hi e.1 ?_⟩
      exact .of_lookup ((h.chain.increasing info hi).lookup_of_mem he)
    dsimp only
    rw [filter_cons, if_pos hroot, foldl_mergeUpdateInfo hrow hshape]
    rfl

theorem Inv.writes_none_of_applies (h : Inv N base s) (ht : t ∈ s.active) {info : UpdateInfo α}
    (hi : info ∈ s.updates.chain) (ha : t.startTime < info.versionNumber ∧ info.versionNumber ≠ t.transactionId)
    (hr : info.Has row) : t.writes row = none := by
  refine Option.not_isSome_iff_eq_none.1 fun hw => ?_
  obtain ⟨writes, ⟨t', ht', hid, rfl⟩ | ⟨w, hwc, hid, rfl⟩, hrows⟩ := h.chain.writer info hi
  · exact ha.2 (hid.symm.trans (h.serial.oneWriter t' ht' t ht row ((hrows row).1 hr) hw))
  · have := h.serial.after t ht w hwc row hw ((hrows row).1 hr)
    omega

theorem Inv.fetch (h : Inv N base s) (ht : t ∈ s.active) (hrow : row < N) :
    base.Delivers row (s.expected t row)
      (s.updates.fetchUpdates N t.startTime t.transactionId base.data row) := by
  rw [h.fetchUpdates_eq t hrow]
  -- a committed writer that the transaction must not see has a node that applies
  have hlate : ∀ w ∈ s.committed, (w.writes row).isSome → ¬ w.commitId < t.startTime →
      ∃ info ∈ s.updates.chain.filter (·.appliesToTransaction t.startTime t.transactionId),
        info.versionNumber = w.commitId ∧ info.Has row := by
    intro w hw hr hge
    have hne := h.clocks.apart t ht w hw
    obtain ⟨info, hi, hv, hhas⟩ := h.node_of_committed hw hr ht (by omega)
    refine ⟨info, mem_filter.2 ⟨hi, (h.applies_iff ht hi).2 ⟨by omega, ?_⟩⟩, hv, hhas⟩
    exact hv ▸ h.clocks.commit_ne ht hw
  by_cases hex : ∃ info ∈ s.updates.chain.filter (·.appliesToTransaction t.startTime t.transactionId), info.Has row
  · obtain ⟨before, info, after, v, hsplit, hv, hafter, hval⟩ := mergedValue_of_some
      (v := (s.updates.rootValue row).getD (base.data row)) hex
    have hmem : info ∈ s.updates.chain.filter (·.appliesToTransaction t.startTime t.transactionId) := by
      rw [hsplit]
      exact mem_append_right _ (mem_cons_self ..)
    obtain ⟨hi, happ⟩ := mem_filter.1 hmem
    have happ := (h.applies_iff ht hi).1 happ
    have hhas : info.Has row := .of_lookup hv
    -- no committed writer is between the start of the transaction and the node
    have hlast : s.lastCommitted info.versionNumber row = s.lastCommitted t.startTime row := by
      refine lastCommitted_congr fun w hw hr => ⟨fun hlt => ?_, fun hlt => by omega⟩
      by_contra hge
      obtain ⟨info', hi', hv', hhas'⟩ := hlate w hw hr hge
      rw [hsplit] at hi'
      rcases mem_append.1 hi' with hi' | hi'
      · have hord := h.chain.ordered.sublist (filter_sublist (p := (·.appliesToTransaction t.startTime t.transactionId)))
        rw [hsplit] at hord
        have := (pairwise_append.1 hord).2.2 info' hi' info (mem_cons_self ..) row hhas' hhas
        omega
      · rcases mem_cons.1 hi' with rfl | hi'
        · omega
        · rw [UpdateInfo.Has, hafter info' hi'] at hhas'
          cases hhas'
    rw [hval, expected, h.writes_none_of_applies ht hi happ hhas, Option.none_or, ← hlast]
    exact h.chain.value info hi row v hv
  · have hnone : ∀ info ∈ s.updates.chain.filter (·.appliesToTransaction t.startTime t.transactionId),
        info.tuples.lookup row = none := fun info hi =>
      Option.not_isSome_iff_eq_none.1 fun hs => hex ⟨info, hi, hs⟩
    rw [mergedValue_of_none hnone]
    -- the newest value of the row is the one to see
    have hcurrent : s.current row = s.expected t row := by
      cases hw : t.writes row with
      | some v =>
        rw [h.serial.current_of_active h.clocks ht hw, expected, hw]
        rfl
      | none =>
        have hothers : ∀ t' ∈ s.active, t'.writes row = none := by
          intro t' ht'
          refine Option.not_isSome_iff_eq_none.1 fun hr => ?_
          obtain ⟨info, hi, hv, hhas⟩ := h.node_of_active ht' hr
          have hne : t'.transactionId ≠ t.transactionId := by
            intro hid
            rw [h.clocks.active_eq ht' ht hid, hw] at hr
            cases hr
          have h1 := h.clocks.starts t ht
          have h2 := h.clocks.clock
          have h3 := (h.clocks.ids t' ht').1
          exact hex ⟨info, mem_filter.2 ⟨hi, (h.applies_iff ht hi).2 ⟨by omega, hv ▸ hne⟩⟩, hhas⟩
        rw [current_of_none hothers, expected, hw, Option.none_or]
        refine lastCommitted_congr fun w hwc hr => ⟨fun _ => ?_, fun _ => (h.clocks.commits w hwc).2⟩
        by_contra hge
        obtain ⟨info, hi, -, hhas⟩ := hlate w hwc hr hge
        exact hex ⟨info, hi, hhas⟩
    rw [← hcurrent]
    cases hroot : s.updates.rootValue row with
    | none =>
      rw [h.chain.noRootValue row hroot]
      exact fun _ => rfl
    | some v => exact h.chain.rootValue row v hroot

variable [BEq α] {sort : RowSort α}

/-- Every active transaction reads its own last write to a row, else what the last transaction that had
committed when it started wrote to it, else the column data. -/
theorem fetchUpdates_snapshot (h : Reachable N sort base s) {t : Writer α} (ht : t ∈ s.active) {row : Nat} (hrow : row < N) :
    base.Delivers row (s.expected t row)
      (s.updates.fetchUpdates N t.startTime t.transactionId base.data row) :=
  (reachable_inv h).fetch ht hrow

/-- Sorting by insertion. -/
def rowInsertionSort (α : Type) : RowSort α where
  sort := List.insertionSort (·.1 ≤ ·.1)
  perm := List.perm_insertionSort _
  sorted l := by
    have : Std.Total (fun x y : Nat × α => x.1 ≤ y.1) := ⟨fun _ _ => Nat.le_total ..⟩
    have : IsTrans (Nat × α) (fun x y => x.1 ≤ y.1) := ⟨fun _ _ _ => Nat.le_trans⟩
    exact List.pairwise_insertionSort _ l

def zeros : BaseData Nat := { data := fun _ => 0, valid := fun _ => true }

/-- Two transactions start; the first writes the rows 3 and 5 and commits, then a third one starts. -/
def threeTransactions : List (Op Nat) :=
  [.start, .start, .update transactionIdStart [(5, some 7), (3, some 1), (5, some 7)] (fun _ => 0),
    .commit transactionIdStart, .start]

/-- The second transaction reads the column data, and the third one what the first has committed. -/
theorem fetchUpdates_snapshot_threeTransactions :
    let s := run (step (rowInsertionSort Nat) zeros) {} threeTransactions
    s.updates.fetchUpdates 2048 3 (transactionIdStart + 1) zeros.data 5 = 0 ∧
      s.updates.fetchUpdates 2048 5 (transactionIdStart + 2) zeros.data 5 = 7 := by
  have h : Reachable 2048 (rowInsertionSort Nat) zeros (run (step (rowInsertionSort Nat) zeros) {} threeTransactions) :=
    ⟨threeTransactions, by decide +kernel, rfl⟩
  have hrow : 5 < 2048 := by decide
  constructor
  · exact fetchUpdates_snapshot h (t := { startTime := 3, transactionId := transactionIdStart + 1 })
      (.tail _ (.head _)) hrow rfl
  · exact fetchUpdates_snapshot h (t := { startTime := 5, transactionId := transactionIdStart + 2 }) (.head _) hrow

/-! ## Conflicts -/

theorem Inv.update_error_iff (h : Inv N base s) (t : Writer α) (uninitialized : Nat → α)
    (entries : List (Nat × Option α)) :
    (s.updates.update sort base t.startTime t.transactionId true uninitialized entries).2 = .error .conflictOnUpdate ↔
      ∃ info ∈ s.updates.chain, info.ConflictsWith t.startTime t.transactionId
        ((s.updates.effectiveUpdates sort base entries).map (·.1)) := by
  rcases update_cases sort base t.startTime t.transactionId uninitialized entries h.chain.increasing h.chain.root
    h.chain.noRoot with ⟨hempty, hres⟩ | ⟨hres, hconf⟩ | ⟨-, hres, hfree, -⟩
  · rw [hres, hempty]
    refine iff_of_false nofun ?_
    rintro ⟨info, -, -, -, id, hid, -⟩
    exact absurd hid not_mem_nil
  · exact iff_of_true (by rw [hres]) hconf
  · rw [hres]
    refine iff_of_false nofun ?_
    rintro ⟨info, hi, hconf⟩
    exact hfree info hi hconf

theorem Inv.update_error (h : Inv N base s) {uninitialized : Nat → α} {entries : List (Nat × Option α)}
    (herror : (s.updates.update sort base t.startTime t.transactionId true uninitialized entries).2 =
      .error .conflictOnUpdate) :
    (s.updates.update sort base t.startTime t.transactionId true uninitialized entries).1 = s.updates := by
  rcases update_cases sort base t.startTime t.transactionId uninitialized entries h.chain.increasing h.chain.root
    h.chain.noRoot with ⟨-, hres⟩ | ⟨hres, -⟩ | ⟨-, hres, -⟩
  · rw [hres]
  · rw [hres]
  · rw [hres] at herror
    cases herror

omit [BEq α] in
theorem Inv.not_overlapping (h : Inv N base s) {w w' : CommittedWriter α} (hw : w ∈ s.committed)
    (hw' : w' ∈ s.committed) (hne : w.commitId ≠ w'.commitId) (hr : (w.writes row).isSome)
    (hr' : (w'.writes row).isSome) : w.commitId < w'.startTime ∨ w'.commitId < w.startTime := by
  rcases Nat.lt_or_gt_of_ne hne with hlt | hlt
  · exact .inl (h.serial.serial w' hw' w hw hlt row hr' hr)
  · exact .inr (h.serial.serial w hw w' hw' hlt row hr hr')

/-- No update is lost: `Update` of an active transaction throws exactly if a node that is not its own,
with a version after its start, has one of the rows to write; when it throws nothing changes; and of two
committed transactions that wrote the same row, one had committed when the other started. -/
theorem update_no_lost_update (h : Reachable N sort base s) :
    (∀ t ∈ s.active, ∀ (uninitialized : Nat → α) (entries : List (Nat × Option α)),
      let result := s.updates.update sort base t.startTime t.transactionId true uninitialized entries
      (result.2 = .error .conflictOnUpdate ↔ ∃ info ∈ s.updates.chain,
        info.ConflictsWith t.startTime t.transactionId ((s.updates.effectiveUpdates sort base entries).map (·.1))) ∧
      (result.2 = .error .conflictOnUpdate → result.1 = s.updates)) ∧
    ∀ w ∈ s.committed, ∀ w' ∈ s.committed, w.commitId ≠ w'.commitId →
      ∀ row, (w.writes row).isSome → (w'.writes row).isSome → w.commitId < w'.startTime ∨ w'.commitId < w.startTime := by
  have hinv := reachable_inv h
  constructor
  · intro t _ uninitialized entries
    exact ⟨hinv.update_error_iff t uninitialized entries, hinv.update_error⟩
  · intro w hw w' hw' hne row hr hr'
    exact hinv.not_overlapping hw hw' hne hr hr'

/-- The second transaction must not write row 5, and may write row 4. -/
theorem update_no_lost_update_threeTransactions :
    let s := run (step (rowInsertionSort Nat) zeros) {} threeTransactions
    let update entries :=
      s.updates.update (rowInsertionSort Nat) zeros 3 (transactionIdStart + 1) true (fun _ => 0) entries
    (update [(5, some 9)]).2 = .error .conflictOnUpdate ∧ (update [(5, some 9)]).1 = s.updates ∧
      (update [(4, some 9)]).2 ≠ .error .conflictOnUpdate := by
  have h : Reachable 2048 (rowInsertionSort Nat) zeros (run (step (rowInsertionSort Nat) zeros) {} threeTransactions) :=
    ⟨threeTransactions, by decide +kernel, rfl⟩
  obtain ⟨hupdate, -⟩ := update_no_lost_update h
  have ht := hupdate { startTime := 3, transactionId := transactionIdStart + 1 } (.tail _ (.head _)) fun _ => 0
  have herror := (ht [(5, some 9)]).1.2 ⟨{ versionNumber := 4, tuples := [(3, 0), (5, 0)] }, .head _,
    by unfold UpdateInfo.ConflictsWith; decide⟩
  refine ⟨herror, (ht [(5, some 9)]).2 herror, fun hconf => ?_⟩
  obtain ⟨info, hi, -, -, id, hid, hrow⟩ := (ht [(4, some 9)]).1.1 hconf
  obtain rfl := List.mem_singleton.1 hi
  obtain rfl := List.mem_singleton.1 hid
  exact absurd hrow (by decide)

end Haybarn.Update.System
