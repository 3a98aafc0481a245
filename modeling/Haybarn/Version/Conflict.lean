/-
The version information of one vector in a row group: it refines the per-row insert and delete ids,
and neither its compression nor its cleanup can be observed.

A delete that runs into a conflict. Its loop compacts the rows it has marked to the front of the array, and when a row turns
out to belong to another transaction it resets the rows in front of that index, of the array as it then is: the rows it has
marked, and the rows behind them that it has skipped since its transaction had deleted them before.
-/
import Haybarn.Version.Invariant
import Mathlib.Data.Finset.Card
import Mathlib.Data.Finset.Image

namespace Haybarn.Version

open Transaction Common

namespace RowGroup

open RowVersionManager
open ChunkVectorInfo (DeleteInfo Folded ScanRight)

/-! ## Example row groups -/

/-- A vector of a new row group with two committed rows, the first of which is deleted by an open
transaction. -/
def oneDeleted : List Op :=
  [.appendVersionInfo transactionIdStart 2, .commitAppend ⟨transactionIdStart, 0, 2⟩ 3,
    .deleteRows 0 (transactionIdStart + 1) (fun _ => 0) 1]

/-- A new row group with one row whose append is open. -/
def oneOpen : List Op := [.appendVersionInfo transactionIdStart 1]

/-- The row group after calls on an empty one. -/
def after (N : Nat) (ops : List Op) : RowGroup := Lib.run (step N) {} ops

theorem oneOpen_reachable : Reachable standardVectorSize (after standardVectorSize oneOpen) := by
  refine ⟨oneOpen, ⟨⟨by decide, by decide, by decide, by decide, ?_⟩, trivial⟩, rfl⟩
  intro p hp
  exact absurd hp List.not_mem_nil

theorem oneDeleted_reachable : Reachable standardVectorSize (after standardVectorSize oneDeleted) := by
  refine ⟨oneDeleted, ⟨⟨by decide, by decide, by decide, by decide, ?_⟩, ⟨?_, by decide⟩, ⟨by decide, by decide, by decide, ?_⟩,
    trivial⟩, rfl⟩
  · intro p hp
    exact absurd hp List.not_mem_nil
  · exact List.mem_singleton.2 rfl
  · intro i _
    exact ⟨show 0 < standardVectorSize by decide, show 0 * standardVectorSize + 0 < 2 by decide⟩

/-! ## Refinement of per-row ids -/

theorem Inv.append_insertId {N : Nat} {g : RowGroup} (h : Inv N g) {v : Nat} {info : ChunkVectorInfo}
    (hv : g.versionInfo.getChunkInfo v = some info) (transactionId fin r : Nat) (hr : r < fin) :
    (info.append (g.count - v * N) fin transactionId).insertId r =
      if g.count - v * N ≤ r then transactionId else info.insertId r := by
  rcases Nat.eq_zero_or_pos (g.count - v * N) with h0 | hpos
  · have hnone : info.insertedData = none := by
      by_contra hne
      have := (h.inserted v info hv (Option.isSome_iff_ne_none.2 hne)).1
      omega
    rw [h0, ChunkVectorInfo.append_zero_insertId hnone, if_pos (Nat.zero_le r)]
  · rw [ChunkVectorInfo.append_insertId _ hpos]
    simp only [hr, and_true]

/-- The representation of the version ids refines the two functions of the row. For every vector of
every reachable row group: an append at the row count and the commit of an open append set the ids
of their rows and keep those of the other rows of the row group; a delete that does not throw, its
commit or rollback, and the changes between array and mask set the delete ids of their rows and keep
all others; every kind of scan returns the number of selected rows, and lists them in increasing
order if they are some but not all; a fetch is membership in the standard scan. -/
theorem vector_refines_row_ids {N : Nat} (hN : 0 < N) {g : RowGroup} (hg : Reachable N g) {v : Nat}
    {info : ChunkVectorInfo} (hv : g.versionInfo.getChunkInfo v = some info) :
    (∀ transactionId fin, v * N ≤ g.count → g.count - v * N < fin → fin ≤ N →
      (∀ r < fin, (info.append (g.count - v * N) fin transactionId).insertId r =
        if g.count - v * N ≤ r then transactionId else info.insertId r) ∧
      (info.append (g.count - v * N) fin transactionId).deleteId = info.deleteId) ∧
    (∀ p ∈ g.pending, v ∈ vectorsOf N p.start (p.start + p.count) → ∀ commitId,
      (∀ r < N, v * N + r < g.count →
        (info.commitAppend commitId (vectorRange N p.start (p.start + p.count) v).1
          (vectorRange N p.start (p.start + p.count) v).2).insertId r =
        if p.covers (v * N + r) then commitId else info.insertId r) ∧
      (info.commitAppend commitId (vectorRange N p.start (p.start + p.count) v).1
        (vectorRange N p.start (p.start + p.count) v).2).deleteId = info.deleteId) ∧
    (∀ transactionId rows count n, (info.delete N transactionId rows count).result = .ok n →
      (∀ r < N, (info.delete N transactionId rows count).info.deleteId r =
        if r ∈ (List.range count).map rows then transactionId else info.deleteId r) ∧
      (info.delete N transactionId rows count).info.insertId = info.insertId) ∧
    (∀ commitId di, (∀ r < N, (info.commitDelete N commitId di).deleteId r =
        if r ∈ DeleteInfo.rowList di then commitId else info.deleteId r) ∧
      (info.commitDelete N commitId di).insertId = info.insertId) ∧
    (∀ ids maskId, info.deleted = .array ids →
      (∀ r < N, (info.compressDeleteToMask N maskId).deleteId r =
        if info.deleteId r = notDeletedId then notDeletedId else maskId) ∧
      (info.compressDeleteToMask N maskId).insertId = info.insertId) ∧
    (info.decompressDeleteMask.deleteId = info.deleteId ∧ info.decompressDeleteMask.insertId = info.insertId) ∧
    (∀ (t : Snapshot) insertType deleteType sel maxCount, maxCount ≤ N →
      ScanRight sel maxCount (info.selected ⟨t.toTransactionData, insertType, deleteType⟩ maxCount)
        (info.getSelVector ⟨t.toTransactionData, insertType, deleteType⟩ sel maxCount)) ∧
    ∀ (t : Snapshot) maxCount r, r < maxCount → (info.fetch t.toTransactionData r = true ↔
      r ∈ info.selected ⟨t.toTransactionData, .standard, .standard⟩ maxCount) := by
  have h := reachable_inv hN hg
  refine ⟨fun transactionId fin _ _ _ => ?_, fun p hp hin commitId => ?_, fun transactionId rows count n hok => ?_,
    fun commitId di => ?_, fun ids maskId hids => ?_, ?_, fun t insertType deleteType sel maxCount _ => ?_,
    fun t maxCount r hr => ?_⟩
  · exact ⟨h.append_insertId hv transactionId fin, ChunkVectorInfo.append_deleteId ..⟩
  · exact ⟨fun r hr hc => h.commitAppend_insertId hN hp hin hv commitId hr hc, ChunkVectorInfo.commitAppend_deleteId ..⟩
  · exact ⟨fun r hr => ChunkVectorInfo.delete_ok hok hr, ChunkVectorInfo.delete_insertId ..⟩
  · exact ⟨fun r hr => ChunkVectorInfo.commitDelete_deleteId info commitId di hr,
      ChunkVectorInfo.commitDelete_insertId ..⟩
  · exact ⟨fun r hr => ChunkVectorInfo.compressDeleteToMask_deleteId hids maskId hr,
      ChunkVectorInfo.compressDeleteToMask_insertId ..⟩
  · exact ⟨ChunkVectorInfo.decompressDeleteMask_deleteId info, ChunkVectorInfo.decompressDeleteMask_insertId info⟩
  · exact ChunkVectorInfo.getSelVector_right info t insertType deleteType sel maxCount
  · rw [ChunkVectorInfo.fetch_eq_visible, ChunkVectorInfo.selected, List.mem_filter]
    exact ⟨fun hvis => ⟨List.mem_range.2 hr, hvis⟩, fun hsel => hsel.2⟩

/-- What a fetch sees of the two rows of which an open transaction has deleted one. -/
theorem vector_refines_row_ids_oneDeleted : ∃ info,
    (after standardVectorSize oneDeleted).versionInfo.getChunkInfo 0 = some info ∧
    ∀ (t : Snapshot) (row : Nat), row < 2 → (info.fetch t.toTransactionData row = true ↔
      row ∈ info.selected ⟨t.toTransactionData, .standard, .standard⟩ 2) :=
  ⟨_, rfl, fun t row hrow =>
    (vector_refines_row_ids (v := 0) (by decide) oneDeleted_reachable rfl).2.2.2.2.2.2.2 t 2 row hrow⟩

/-- The commit of an append that has its vector for itself also changes the ids of the positions past
the last row, which have no row. -/
theorem commitAppend_changes_positions_past_rows :
    ¬ ∀ (N : Nat) (g : RowGroup) (v : Nat) (info : ChunkVectorInfo) (p : PendingAppend) (commitId r : Nat),
      Reachable N g → g.versionInfo.getChunkInfo v = some info → p ∈ g.pending →
      v ∈ vectorsOf N p.start (p.start + p.count) → r < N →
      (info.commitAppend commitId (vectorRange N p.start (p.start + p.count) v).1
        (vectorRange N p.start (p.start + p.count) v).2).insertId r =
      if p.covers (v * N + r) then commitId else info.insertId r := by
  intro h
  have hrow := h standardVectorSize (after standardVectorSize oneOpen) 0 _ ⟨transactionIdStart, 0, 1⟩ 7 1
    oneOpen_reachable rfl (List.mem_singleton.2 rfl) (by decide) (by decide)
  revert hrow
  decide

/-! ## Compression and cleanup -/

/-- Compression and cleanup cannot be observed. A snapshot that starts at the bound or later gets the
same rows from a scan and a fetch after a compression as before. A delete of some rows by any
transaction after a compression whose bound is a start time returns or throws the same, leaves the
same row array, and marks the same rows. Where a cleanup drops the info, and the insert ids do not
decrease and are no active start time, every row was visible to these snapshots anyway. -/
theorem compression_and_cleanup_invisible {N : Nat} (hN : 0 < N) {g : RowGroup} (hg : Reachable N g) {v : Nat}
    {info : ChunkVectorInfo} (hv : g.versionInfo.getChunkInfo v = some info) :
    (∀ (lowest : Nat) (t : Snapshot), lowest ≤ t.startTime →
      (∀ sel maxCount, maxCount ≤ N → ∃ rows,
        ScanRight sel maxCount rows (info.getSelVector ⟨t.toTransactionData, .standard, .standard⟩ sel maxCount) ∧
        ScanRight sel maxCount rows
          ((info.compressVersionIds N lowest).1.getSelVector ⟨t.toTransactionData, .standard, .standard⟩ sel maxCount)) ∧
      ∀ r < N, (info.compressVersionIds N lowest).1.fetch t.toTransactionData r = info.fetch t.toTransactionData r) ∧
    (∀ (lowest transactionId : Nat) (rows : Nat → Nat) (count : Nat), lowest ≤ transactionIdStart →
      transactionIdStart ≤ transactionId → 0 < count → (∀ i < count, rows i < N) →
      ((info.compressVersionIds N lowest).1.delete N transactionId rows count).result =
        (info.delete N transactionId rows count).result ∧
      ((info.compressVersionIds N lowest).1.delete N transactionId rows count).rows =
        (info.delete N transactionId rows count).rows ∧
      ∀ r < N,
        (((info.compressVersionIds N lowest).1.delete N transactionId rows count).info.deleteId r = transactionId ↔
          (info.delete N transactionId rows count).info.deleteId r = transactionId) ∧
        (((info.compressVersionIds N lowest).1.delete N transactionId rows count).info.deleteId r = notDeletedId ↔
          (info.delete N transactionId rows count).info.deleteId r = notDeletedId)) ∧
    ∀ (lowest : Nat), info.cleanup N lowest = true → (∀ i j, i ≤ j → j < N → info.insertId i ≤ info.insertId j) →
      ∀ (t : Snapshot), lowest ≤ t.startTime → (∀ r < N, info.insertId r ≠ t.startTime) →
        ∀ r < N, info.fetch t.toTransactionData r = true := by
  have h := reachable_inv hN hg
  refine ⟨fun lowest t hlow => ⟨fun sel maxCount hmax => ?_, fun r hr => ?_⟩,
    fun lowest transactionId rows count hlow hid hcount hrows => ?_, fun lowest hcl hmono t hlow hne r hr => ?_⟩
  · refine ⟨_, ChunkVectorInfo.getSelVector_right info t .standard .standard sel maxCount, ?_⟩
    have hsame : ∀ r < maxCount, (info.compressVersionIds N lowest).1.visible t.toTransactionData r =
        info.visible t.toTransactionData r := fun r hr =>
      ChunkVectorInfo.compressVersionIds_visible info hlow (Nat.lt_of_lt_of_le hr hmax)
    rw [← ChunkVectorInfo.selected_congr hsame]
    exact ChunkVectorInfo.getSelVector_right _ t .standard .standard sel maxCount
  · rw [ChunkVectorInfo.fetch_eq_visible, ChunkVectorInfo.fetch_eq_visible]
    exact ChunkVectorInfo.compressVersionIds_visible info hlow hr
  · have hle := Nat.le_trans hlow hid
    have hd := ChunkVectorInfo.delete_compressVersionIds info hle hcount hrows
    exact ⟨hd.result, hd.rows, fun r hr => ⟨(hd.folded r hr).eq_iff hle, (hd.folded r hr).eq_notDeletedId_iff⟩⟩
  · rw [ChunkVectorInfo.fetch_eq_visible]
    exact ChunkVectorInfo.visible_of_cleanup hcl hmono (fun hs => (h.inserted v info hv hs).2) hlow hr (hne r hr)

/-- A vector with a delete that is not committed, and the same delete again before and after a
compression up to its start time. -/
theorem compression_and_cleanup_invisible_oneDeleted : ∃ info,
    (after standardVectorSize oneDeleted).versionInfo.getChunkInfo 0 = some info ∧
    ((info.compressVersionIds standardVectorSize 4).1.delete standardVectorSize (transactionIdStart + 1)
      (fun _ => 0) 1).result = (info.delete standardVectorSize (transactionIdStart + 1) (fun _ => 0) 1).result :=
  ⟨_, rfl, ((compression_and_cleanup_invisible (v := 0) (by decide) oneDeleted_reachable rfl).2.1 4
    (transactionIdStart + 1) (fun _ => 0) 1 (by decide) (by decide) (by decide) fun _ _ => by decide).1⟩

/-- With a bound above the ids of open transactions a compression folds their deletes, and such a
transaction then conflicts with itself. -/
theorem compression_above_ids_changes_delete :
    ¬ ∀ (N : Nat) (g : RowGroup) (v : Nat) (info : ChunkVectorInfo) (lowest transactionId : Nat) (rows : Nat → Nat)
      (count : Nat), Reachable N g → g.versionInfo.getChunkInfo v = some info →
      transactionIdStart ≤ transactionId → (∀ i < count, rows i < N) →
      ((info.compressVersionIds N lowest).1.delete N transactionId rows count).result.isOk =
        (info.delete N transactionId rows count).result.isOk := by
  intro h
  have hsame := h standardVectorSize (after standardVectorSize oneDeleted) 0 _ maxTransactionId (transactionIdStart + 1)
    (fun _ => 0) 1 oneDeleted_reachable rfl (by decide) fun _ _ => by decide
  revert hsame
  decide +kernel

end RowGroup

namespace ChunkVectorInfo

/-! ## The loop up to a conflict -/

/-- The alive rows among the first entries of the array, each once. -/
def aliveRows (deleted : Nat → Nat) (rows : Nat → Nat) (i : Nat) : Finset Nat :=
  ((Finset.range i).image rows).filter (deleted · = notDeletedId)

theorem mem_aliveRows {deleted rows : Nat → Nat} {i row : Nat} :
    row ∈ aliveRows deleted rows i ↔ (∃ j < i, rows j = row) ∧ deleted row = notDeletedId := by
  simp [aliveRows]

theorem aliveRows_succ (deleted rows : Nat → Nat) (i : Nat) : aliveRows deleted rows (i + 1) =
    if deleted (rows i) = notDeletedId then insert (rows i) (aliveRows deleted rows i) else aliveRows deleted rows i := by
  unfold aliveRows
  rw [Finset.range_add_one, Finset.image_insert, Finset.filter_insert]

/-- The loop has come to an index without a conflict: it has marked the alive rows, and they are in front of the array. -/
structure LoopAt (transactionId : Nat) (before rows : Nat → Nat) (i deletedTuples : Nat) (deleted rows' : Nat → Nat) : Prop where
  own : ∀ j < i, before (rows j) = transactionId ∨ before (rows j) = notDeletedId
  count : deletedTuples = (aliveRows before rows i).card
  le : deletedTuples ≤ i
  deleted : ∀ row, deleted row = if row ∈ aliveRows before rows i then transactionId else before row
  front : ∀ row, (∃ j < deletedTuples, rows' j = row) ↔ row ∈ aliveRows before rows i
  behind : ∀ j, deletedTuples ≤ j → rows' j = rows j

variable {transactionId : Nat} {before rows deleted rows' : Nat → Nat} {i deletedTuples : Nat}

theorem loopAt_zero (transactionId : Nat) (before rows : Nat → Nat) : LoopAt transactionId before rows 0 0 before rows := by
  constructor <;> simp [aliveRows]

theorem LoopAt.skip (h : LoopAt transactionId before rows i deletedTuples deleted rows') (hid : transactionId ≠ notDeletedId)
    (hrow : deleted (rows' i) = transactionId) : LoopAt transactionId before rows (i + 1) deletedTuples deleted rows' := by
  rw [h.behind i h.le] at hrow
  have hdeleted := h.deleted (rows i)
  have hsame : aliveRows before rows (i + 1) = aliveRows before rows i := by
    rw [aliveRows_succ]
    split
    · rename_i halive
      apply Finset.insert_eq_of_mem
      by_contra hnot
      rw [if_neg hnot, hrow, halive] at hdeleted
      exact hid hdeleted
    · rfl
  have hown : before (rows i) = transactionId ∨ before (rows i) = notDeletedId := by
    by_cases hmem : rows i ∈ aliveRows before rows i
    · exact .inr (mem_aliveRows.1 hmem).2
    · rw [if_neg hmem, hrow] at hdeleted
      exact .inl hdeleted.symm
  constructor
  · intro j hj
    rcases Nat.lt_succ_iff_lt_or_eq.1 hj with hj | rfl
    · exact h.own j hj
    · exact hown
  · rw [hsame]
    exact h.count
  · exact Nat.le_succ_of_le h.le
  · rw [hsame]
    exact h.deleted
  · rw [hsame]
    exact h.front
  · exact h.behind

theorem LoopAt.mark (h : LoopAt transactionId before rows i deletedTuples deleted rows') (hid : transactionId ≠ notDeletedId)
    (hrow : deleted (rows' i) = notDeletedId) :
    LoopAt transactionId before rows (i + 1) (deletedTuples + 1) (Function.update deleted (rows' i) transactionId)
      (Function.update rows' deletedTuples (rows' i)) := by
  have hle := h.le
  rw [h.behind i hle] at hrow ⊢
  have hnew : rows i ∉ aliveRows before rows i := by
    intro hmem
    rw [h.deleted, if_pos hmem] at hrow
    exact hid hrow
  have halive : before (rows i) = notDeletedId := by
    rwa [h.deleted, if_neg hnew] at hrow
  have hsucc : aliveRows before rows (i + 1) = insert (rows i) (aliveRows before rows i) := by
    rw [aliveRows_succ, if_pos halive]
  constructor
  · intro j hj
    rcases Nat.lt_succ_iff_lt_or_eq.1 hj with hj | rfl
    · exact h.own j hj
    · exact .inr halive
  · rw [hsucc, Finset.card_insert_of_notMem hnew, h.count]
  · omega
  · intro row
    rw [hsucc]
    simp only [Finset.mem_insert]
    by_cases heq : row = rows i
    · rw [heq, Function.update_self, if_pos (.inl rfl)]
    · rw [Function.update_of_ne heq, h.deleted]
      simp only [heq, false_or]
  · intro row
    rw [hsucc, Finset.mem_insert, ← h.front row]
    constructor
    · rintro ⟨j, hj, rfl⟩
      rcases Nat.lt_succ_iff_lt_or_eq.1 hj with hj | rfl
      · rw [Function.update_of_ne (by omega)]
        exact .inr ⟨j, hj, rfl⟩
      · rw [Function.update_self]
        exact .inl rfl
    · rintro (rfl | ⟨j, hj, rfl⟩)
      · exact ⟨deletedTuples, Nat.lt_succ_self _, Function.update_self ..⟩
      · exact ⟨j, by omega, Function.update_of_ne (by omega) ..⟩
  · intro j hj
    rw [Function.update_of_ne (by omega)]
    exact h.behind j (by omega)

theorem LoopAt.conflict (hid : transactionId ≠ notDeletedId) : ∀ {remaining i deletedTuples : Nat} {deleted rows' : Nat → Nat},
    LoopAt transactionId before rows i deletedTuples deleted rows' →
    ∀ {deleted' rows'' : Nat → Nat} {e : DeleteException},
    deleteLoop transactionId remaining i deleted rows' deletedTuples = (deleted', rows'', .error e) →
    ∃ m k deletedAt rowsAt, m < i + remaining ∧ LoopAt transactionId before rows m k deletedAt rowsAt ∧
      before (rows m) ≠ transactionId ∧ before (rows m) ≠ notDeletedId ∧
      deleted' = (List.range m).foldl (fun deleted k => Function.update deleted (rowsAt k) notDeletedId) deletedAt
  | 0, _, _, _, _, _, _, _, _, hloop => by
    simp [deleteLoop] at hloop
  | remaining + 1, i, deletedTuples, deleted, rows', h, deleted', rows'', e, hloop => by
    unfold deleteLoop at hloop
    split at hloop
    · rename_i hown
      obtain ⟨m, k, deletedAt, rowsAt, hm, hrest⟩ := (h.skip hid hown).conflict hid hloop
      exact ⟨m, k, deletedAt, rowsAt, by omega, hrest⟩
    · rename_i hown
      split at hloop
      · rename_i hother
        rw [h.behind i h.le] at hown hother
        have hnew : rows i ∉ aliveRows before rows i := by
          intro hmem
          rw [h.deleted, if_pos hmem] at hown
          exact hown rfl
        rw [h.deleted, if_neg hnew] at hown hother
        simp only [Prod.mk.injEq] at hloop
        exact ⟨i, deletedTuples, deleted, rows', by omega, h, hown, hother, hloop.1.symm⟩
      · rename_i halive
        obtain ⟨m, k, deletedAt, rowsAt, hm, hrest⟩ := (h.mark hid (not_not.1 halive)).conflict hid hloop
        exact ⟨m, k, deletedAt, rowsAt, by omega, hrest⟩

/-! ## What is reset -/

theorem foldl_reset (deleted rows : Nat → Nat) (row : Nat) : ∀ m,
    (List.range m).foldl (fun deleted k => Function.update deleted (rows k) notDeletedId) deleted row
      = if ∃ k < m, rows k = row then notDeletedId else deleted row
  | 0 => by simp
  | m + 1 => by
    rw [List.range_succ, List.foldl_append, List.foldl_cons, List.foldl_nil]
    by_cases heq : row = rows m
    · rw [heq, Function.update_self, if_pos ⟨m, Nat.lt_succ_self m, rfl⟩]
    · rw [Function.update_of_ne heq, foldl_reset deleted rows row m]
      congr 1
      apply propext
      constructor
      · rintro ⟨k, hk, hrow⟩
        exact ⟨k, Nat.lt_succ_of_lt hk, hrow⟩
      · rintro ⟨k, hk, hrow⟩
        rcases Nat.lt_succ_iff_lt_or_eq.1 hk with hk | rfl
        · exact ⟨k, hk, hrow⟩
        · exact absurd hrow.symm heq

theorem LoopAt.reset_iff (h : LoopAt transactionId before rows i deletedTuples deleted rows') :
    (List.range i).foldl (fun deleted k => Function.update deleted (rows' k) notDeletedId) deleted = before ↔
      ∀ k, deletedTuples ≤ k → k < i → before (rows k) = notDeletedId := by
  constructor
  · intro heq k hk hki
    have hreset := foldl_reset deleted rows' (rows k) i
    rw [heq, if_pos ⟨k, hki, h.behind k hk⟩] at hreset
    exact hreset
  · intro hall
    funext row
    rw [foldl_reset]
    split
    · rename_i hrow
      obtain ⟨k, hki, rfl⟩ := hrow
      by_cases hk : k < deletedTuples
      · exact ((mem_aliveRows.1 ((h.front _).1 ⟨k, hk, rfl⟩)).2).symm
      · rw [h.behind k (by omega)]
        exact (hall k (by omega) hki).symm
    · rename_i hrow
      rw [h.deleted, if_neg]
      intro hmem
      obtain ⟨k, hk, hkrow⟩ := (h.front row).2 hmem
      exact hrow ⟨k, by have := h.le; omega, hkrow⟩

/-! ## A conflicting delete -/

/-- The row of an index is deleted by another transaction. -/
def Conflicts (info : ChunkVectorInfo) (transactionId : Nat) (rows : Nat → Nat) (i : Nat) : Prop :=
  info.deleteId (rows i) ≠ transactionId ∧ info.deleteId (rows i) ≠ notDeletedId

/-- No row that was deleted before is reset: none stands in the array between as many rows as are alive and the row of the
conflict. -/
def KeepsOwnDeletes (info : ChunkVectorInfo) (transactionId : Nat) (rows : Nat → Nat) (count : Nat) : Prop :=
  ∀ i < count, info.Conflicts transactionId rows i → (∀ j < i, ¬info.Conflicts transactionId rows j) →
    ∀ k, (aliveRows info.deleteId rows i).card ≤ k → k < i → info.deleteId (rows k) = notDeletedId

theorem deleteLoop_notDeletedId : ∀ {remaining i deletedTuples : Nat} {deleted rows deleted' rows' : Nat → Nat} {e : DeleteException},
    (∀ j < i, deleted (rows j) = notDeletedId) →
    deleteLoop notDeletedId remaining i deleted rows deletedTuples = (deleted', rows', .error e) → deleted' = deleted
  | 0, _, _, _, _, _, _, _, _, h => by simp [deleteLoop] at h
  | remaining + 1, i, deletedTuples, deleted, rows, deleted', rows', e, hrows, h => by
    unfold deleteLoop at h
    split at h
    · rename_i halive
      apply deleteLoop_notDeletedId _ h
      intro j hj
      rcases Nat.lt_succ_iff_lt_or_eq.1 hj with hj | rfl
      · exact hrows j hj
      · exact halive
    · simp only [Prod.mk.injEq] at h
      rw [← h.1]
      funext row
      rw [foldl_reset]
      split
      · rename_i hrow
        obtain ⟨k, hk, rfl⟩ := hrow
        exact (hrows k hk).symm
      · rfl

theorem deleteRows_conflict_iff {info : ChunkVectorInfo} {count : Nat} {e : DeleteException}
    (h : (info.deleteRows transactionId rows count).result = .error e) :
    (info.deleteRows transactionId rows count).info.deleteId = info.deleteId ↔ info.KeepsOwnDeletes transactionId rows count := by
  unfold deleteRows at h ⊢
  rcases hloop : deleteLoop transactionId count 0 info.getInitializedDeletedPointer rows 0 with ⟨deleted', rows', result⟩
  rw [hloop] at h
  obtain rfl : result = .error e := h
  rw [getInitializedDeletedPointer_eq] at hloop
  show deleted' = info.deleteId ↔ _
  by_cases hid : transactionId = notDeletedId
  · subst hid
    constructor
    · intro _ i _ _ hbefore k _ hk
      have hk := hbefore k hk
      by_contra hne
      exact hk ⟨hne, hne⟩
    · intro _
      exact deleteLoop_notDeletedId (by simp) hloop
  · obtain ⟨m, k, deletedAt, rowsAt, hm, hat, hown, hother, rfl⟩ := (loopAt_zero transactionId info.deleteId rows).conflict hid hloop
    rw [Nat.zero_add] at hm
    have hfirst : ∀ j < m, ¬info.Conflicts transactionId rows j := by
      rintro j hj ⟨hj1, hj2⟩
      rcases hat.own j hj with h | h
      · exact hj1 h
      · exact hj2 h
    rw [hat.reset_iff, hat.count]
    constructor
    · intro hall i hi hconflict hbefore
      obtain rfl : i = m := by
        rcases Nat.lt_trichotomy i m with hlt | heq | hgt
        · exact absurd hconflict (hfirst i hlt)
        · exact heq
        · exact absurd ⟨hown, hother⟩ (hbefore m hgt)
      exact hall
    · intro hkeeps
      exact hkeeps m hm ⟨hown, hother⟩ hfirst

/-- A delete that throws leaves every delete id, and with it what every transaction sees, exactly where its undo resets no row
that its transaction had deleted before. -/
theorem delete_conflict_unchanged_iff (N : Nat) (info : ChunkVectorInfo) (transactionId : Nat) (rows : Nat → Nat) (count : Nat)
    (h : (info.delete N transactionId rows count).result = .error .conflictOnTupleDeletion) :
    (info.delete N transactionId rows count).info.deleteId = info.deleteId ↔ info.KeepsOwnDeletes transactionId rows count := by
  unfold delete at h ⊢
  split
  · rename_i id hdeleted
    simp only [hdeleted] at h
    have hconstant : ∀ row, info.deleteId row = id := by
      intro row
      rw [deleteId, hdeleted]
    split
    · -- all rows belong to another transaction
      rename_i hne
      rw [if_pos hne] at h
      have hother : id ≠ transactionId := by
        intro heq
        rw [if_pos heq] at h
        cases h
      constructor
      · intro _ i hi _ hbefore k _ hk
        exfalso
        apply hbefore k hk
        constructor
        · rwa [hconstant]
        · rwa [hconstant]
      · exact fun _ => rfl
    · rename_i hne
      rw [if_neg hne] at h
      split
      · rename_i hall
        rw [if_pos hall] at h
        cases h
      · rename_i hall
        rw [if_neg hall] at h
        exact deleteRows_conflict_iff h
  · rename_i hconstant
    split at h
    · rename_i id hdeleted
      exact absurd hdeleted (hconstant id)
    · exact deleteRows_conflict_iff h

/-- A vector of which another transaction has deleted the row 2. -/
def otherDeleted : ChunkVectorInfo := { start := 0, deleted := .array fun row => if row = 2 then 5 else notDeletedId }

/-- The rows 0 and 1 are deleted, and then undone when the row 2 conflicts. -/
theorem delete_conflict_unchanged_iff_otherDeleted :
    (otherDeleted.delete 2048 7 id 3).info.deleteId = otherDeleted.deleteId ↔ otherDeleted.KeepsOwnDeletes 7 id 3 :=
  delete_conflict_unchanged_iff 2048 otherDeleted 7 id 3 rfl

end ChunkVectorInfo

namespace RowGroup

/-- Two committed rows, each deleted by an open transaction. -/
def twoDeleted : List Op :=
  [.appendVersionInfo transactionIdStart 2, .commitAppend ⟨transactionIdStart, 0, 2⟩ 3,
    .deleteRows 0 (transactionIdStart + 1) (fun _ => 0) 1, .deleteRows 0 (transactionIdStart + 2) (fun _ => 1) 1]

theorem twoDeleted_reachable : Reachable standardVectorSize (after standardVectorSize twoDeleted) := by
  refine ⟨twoDeleted, ⟨⟨by decide, by decide, by decide, by decide, ?_⟩, ⟨?_, by decide⟩, ⟨by decide, by decide, by decide, ?_⟩,
    ⟨by decide, by decide, by decide, ?_⟩, trivial⟩, rfl⟩
  · intro p hp
    exact absurd hp List.not_mem_nil
  · exact List.mem_singleton.2 rfl
  · intro i _
    exact ⟨show 0 < standardVectorSize by decide, show 0 * standardVectorSize + 0 < 2 by decide⟩
  · intro i _
    exact ⟨show 1 < standardVectorSize by decide, show 0 * standardVectorSize + 1 < 2 by decide⟩

/-- The first of the transactions deletes both rows: it is told of the conflict, and its own row is alive again. -/
theorem conflicting_delete_revives_row : ∃ info,
    (after standardVectorSize twoDeleted).versionInfo.getChunkInfo 0 = some info ∧
    (info.delete standardVectorSize (transactionIdStart + 1) id 2).result = .error .conflictOnTupleDeletion ∧
    info.fetch ⟨transactionIdStart + 1, 4⟩ 0 = false ∧
    (info.delete standardVectorSize (transactionIdStart + 1) id 2).info.fetch ⟨transactionIdStart + 1, 4⟩ 0 = true ∧
    Reachable standardVectorSize (after standardVectorSize twoDeleted) :=
  ⟨_, rfl, by decide, by decide, by decide, twoDeleted_reachable⟩

end RowGroup

end Haybarn.Version
