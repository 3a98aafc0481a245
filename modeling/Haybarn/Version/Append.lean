/-
Appended rows. A row that an append adds and a commit makes visible stays visible until it is deleted,
exactly if its position carried no delete before the append. A checkpoint stores the positions of
appends that are open or were reverted as deleted, so a position can carry one.
-/
import Haybarn.Version.DeleteIds
import Haybarn.Version.Stored

namespace Haybarn.Version.RowGroup

open Transaction Common RowVersionManager
open ChunkVectorInfo (DeleteInfo)

/-! ## A row that stays -/

/-- The row is in the row group, inserted at the commit id or before, and not deleted. -/
structure Shown (N : Nat) (g : RowGroup) (commitId row : Nat) : Prop where
  inside : row < g.count
  inserted : ∀ info, g.versionInfo.getChunkInfo (row / N) = some info → info.insertId (row % N) ≤ commitId
  alive : g.versionInfo.deleteId (row / N) (row % N) = notDeletedId

/-- The call does not delete the row, revert the append that added it, or drop the version information. -/
def KeepsRow (N row : Nat) : Op → Prop
  | .deleteRows v _ rows count => ¬ (row / N = v ∧ ∃ j < count, rows j = row % N)
  | .commitDelete v _ info => ¬ (row / N = v ∧ row % N ∈ info.rowList)
  | .revertAppend newCount => row < newCount
  | .reload _ => False
  | _ => True

variable {N commitId row transactionId count : Nat} {g : RowGroup}

theorem Shown.visible (h : Shown N g commitId row) (t : Snapshot)
    (ht : commitId < t.startTime) : g.versionInfo.visible N t.toTransactionData row = true := by
  unfold RowVersionManager.visible
  cases hi : g.versionInfo.getChunkInfo (row / N) with
  | none => rfl
  | some info =>
    have hdel := h.alive
    rw [deleteId_of_some hi] at hdel
    have huse : useVersion t.toTransactionData (info.insertId (row % N)) = true :=
      ChunkVectorInfo.useVersion_of_lt (Nat.le_refl _) (Nat.lt_of_le_of_lt (h.inserted info hi) ht)
    rw [Option.all_some, ChunkVectorInfo.visible, huse, hdel, ChunkVectorInfo.not_useVersion_notDeletedId t]
    rfl

theorem Shown.of_kept {m : RowVersionManager} (h : Shown N g commitId row)
    (hk : ∀ v, VectorKept N (g.versionInfo.getChunkInfo v) (m.getChunkInfo v))
    (halive : m.deleteId (row / N) (row % N) = notDeletedId) : Shown N { g with versionInfo := m } commitId row := by
  refine ⟨h.inside, fun info hv => ?_, halive⟩
  cases hold : g.versionInfo.getChunkInfo (row / N) with
  | none =>
    rw [insertId_of_none ((hk _).1 hold info hv)]
    exact Nat.zero_le _
  | some old =>
    obtain ⟨info', hnew, ⟨hi, -⟩ | ⟨-, hi, -⟩⟩ := (hk _).2 old hold
    · obtain rfl : info' = info := Option.some.inj (hnew.symm.trans hv)
      rw [hi]
      exact h.inserted old hold
    · obtain rfl : info' = info := Option.some.inj (hnew.symm.trans hv)
      rw [hi]
      exact Nat.zero_le _

theorem Shown.append (h : Shown N g commitId row) (hN : 0 < N)
    (hinv : Inv N g) (hcount : 0 < count) :
    Shown N (g.step N (.appendVersionInfo transactionId count)) commitId row := by
  have hrow : row / N * N + row % N = row := Nat.div_add_mod' row N
  have hlt := h.inside
  refine ⟨Nat.lt_of_lt_of_le h.inside (Nat.le_add_right ..), fun info hv => ?_, ?_⟩
  · replace hv := (getChunkInfo_appendVersionInfo N g.versionInfo transactionId g.count (g.count + count) _).symm.trans hv
    split at hv
    · next hin =>
      obtain rfl := Option.some.inj hv
      rw [(hinv.appendInfo transactionId hN hcount hin).1 _ (Nat.mod_lt row hN) (by omega)]
      cases hi : g.versionInfo.getChunkInfo (row / N) with
      | none => exact Nat.zero_le _
      | some old => exact h.inserted old hi
    · exact h.inserted info hv
  · refine (deleteId_appendVersionInfo N g.versionInfo transactionId g.count (g.count + count) _ _).trans ?_
    split
    · rfl
    · exact h.alive

theorem Shown.commitAppend (h : Shown N g commitId row) (hN : 0 < N)
    (hinv : Inv N g) (hid : commitId < transactionIdStart) {p : PendingAppend} (hp : p ∈ g.pending) (id : Nat) :
    Shown N (g.step N (.commitAppend p id)) commitId row := by
  have hpos := (hinv.inside p hp).1
  have hrow : row / N * N + row % N = row := Nat.div_add_mod' row N
  have hlt := h.inside
  refine ⟨h.inside, fun info hv => ?_, (deleteId_commitAppend g.versionInfo id p.start hpos _ _).trans h.alive⟩
  replace hv := (getChunkInfo_commitAppend (N := N) g.versionInfo id p.start hpos _).symm.trans hv
  split at hv
  · next hin =>
    obtain ⟨old, hold, rfl⟩ := Option.map_eq_some_iff.1 hv
    rw [hinv.commitAppend_insertId hN hp hin hold id (Nat.mod_lt row hN) (by omega), if_neg]
    · exact h.inserted old hold
    · -- a row of an open append has a transaction id
      intro hcov
      obtain ⟨old', hold', hopen⟩ := hinv.opened p hp _ _ (Nat.mod_lt row hN) hcov
      have hle := h.inserted old' hold'
      have hge := hinv.ids p hp
      omega
  · exact h.inserted info hv

theorem Shown.step (h : Shown N g commitId row) (hN : 0 < N) (hinv : Inv N g)
    (hid : commitId < transactionIdStart) {op : Op} (ha : Allowed N g op) (hk : KeepsRow N row op) :
    Shown N (g.step N op) commitId row := by
  have hmod := Nat.mod_lt row hN
  cases op with
  | appendVersionInfo transactionId count => exact h.append hN hinv ha.1
  | commitAppend p id => exact h.commitAppend hN hinv hid ha.1 id
  | revertAppend newCount =>
    have hget := getChunkInfo_revertAppend N g.versionInfo newCount (row / N)
    refine ⟨hk, fun info hv => ?_, ?_⟩
    · replace hv := hget.symm.trans hv
      split at hv
      · cases hv
      · exact h.inserted info hv
    · simp only [RowGroup.step]
      split at hget
      · rw [deleteId, hget]
      · rw [deleteId_congr hget]
        exact h.alive
  | cleanupAppend lowest start count =>
    rcases Nat.eq_zero_or_pos count with rfl | hc
    · exact h
    · have hget := getChunkInfo_cleanupAppend (N := N) g.versionInfo lowest start hc (row / N)
      refine ⟨h.inside, fun info hv => ?_, ?_⟩
      · rcases hget with hsame | ⟨-, -, -, hnone⟩
        · exact h.inserted info (hsame.symm.trans hv)
        · exact absurd (hnone.symm.trans hv) (by simp)
      · simp only [RowGroup.step]
        rcases hget with hsame | ⟨-, -, -, hnone⟩
        · rw [deleteId_congr hsame]
          exact h.alive
        · rw [deleteId, hnone]
  | deleteRows v transactionId rows count =>
    refine h.of_kept (deleteRows_kept g.versionInfo v transactionId rows count) ?_
    rcases deleteRows_marked g.versionInfo v transactionId rows count (row / N) hmod with hsame | ⟨hnamed, -, -⟩
    · exact hsame.trans h.alive
    · exact absurd hnamed hk
  | commitDelete v id di =>
    refine h.of_kept (commitDelete_kept g.versionInfo v id di) ?_
    rw [deleteId_commitDelete _ _ _ _ _ hmod, if_neg hk]
    exact h.alive
  | compressVersionIds lowest =>
    refine h.of_kept (compressVersionIds_kept ha g.versionInfo) ?_
    exact (deleteId_compressVersionIds g.versionInfo lowest (row / N) hmod).1.eq_notDeletedId_iff.2 h.alive
  | checkpoint checkpointId =>
    refine h.of_kept (fun v => getChunkInfo_checkpoint N g.versionInfo checkpointId v ▸ .refl ..) ?_
    rw [deleteId_congr (getChunkInfo_checkpoint N g.versionInfo checkpointId _)]
    exact h.alive
  | reload count => exact absurd hk id

/-! ## After an append and its commit -/

/-- The row group after a transaction has appended rows and committed. -/
def appended (N : Nat) (g : RowGroup) (transactionId count commitId : Nat) : RowGroup :=
  (g.step N (.appendVersionInfo transactionId count)).step N (.commitAppend ⟨transactionId, g.count, count⟩ commitId)

theorem appended_deleteId (g : RowGroup) (transactionId : Nat) (hcount : 0 < count)
    (commitId v r : Nat) : (appended N g transactionId count commitId).versionInfo.deleteId v r =
      if v ∈ vectorsOf N g.count (g.count + count) ∧ vectorRange N g.count (g.count + count) v = (0, N)
      then notDeletedId else g.versionInfo.deleteId v r :=
  (deleteId_commitAppend _ commitId g.count hcount v r).trans (deleteId_appendVersionInfo ..)

theorem appended_insertId (h : Inv N g) (hN : 0 < N)
    (ha : Allowed N g (.appendVersionInfo transactionId count)) (commitId : Nat) {v r : Nat} (hr : r < N)
    (hrow : g.count ≤ v * N + r ∧ v * N + r < g.count + count) {info : ChunkVectorInfo}
    (hv : (appended N g transactionId count commitId).versionInfo.getChunkInfo v = some info) :
    info.insertId r = commitId := by
  have hinv : Inv N (g.step N (.appendVersionInfo transactionId count)) := step_inv hN h ha
  have hp : ⟨transactionId, g.count, count⟩ ∈ (g.step N (.appendVersionInfo transactionId count)).pending :=
    List.mem_append_right _ (List.mem_singleton.2 rfl)
  have hin : v ∈ vectorsOf N g.count (g.count + count) := row_div (v := v) hr ▸ mem_vectorsOf_of_row hrow.1 hrow.2
  replace hv := (getChunkInfo_commitAppend (N := N) _ commitId g.count ha.1 v).symm.trans hv
  rw [if_pos hin] at hv
  obtain ⟨old, hold, rfl⟩ := Option.map_eq_some_iff.1 hv
  rw [hinv.commitAppend_insertId hN hp hin hold commitId hr hrow.2]
  exact if_pos hrow

/-- Every appended row is visible to every transaction that starts after the commit, in fetches and
scans, through all later calls that do not delete or drop it. -/
def StaysVisible (N : Nat) (g : RowGroup) (transactionId count commitId : Nat) : Prop :=
  ∀ row, g.count ≤ row → row < g.count + count → ∀ ops,
    Lib.Steps (step N) (fun g op => Allowed N g op ∧ KeepsRow N row op) (appended N g transactionId count commitId) ops →
    ∀ (t : Snapshot), commitId < t.startTime →
      (Lib.run (step N) (appended N g transactionId count commitId) ops).versionInfo.fetch N t.toTransactionData row =
        true ∧
      ∀ maxCount, row % N < maxCount → ChunkVectorInfo.reports maxCount
        ((Lib.run (step N) (appended N g transactionId count commitId) ops).versionInfo.getSelVector
          ⟨t.toTransactionData, .standard, .standard⟩ (row / N) maxCount) (row % N)

/-- No position of the append carries a delete, but for those in vectors that it covers. -/
def PositionsAlive (N : Nat) (g : RowGroup) (count : Nat) : Prop :=
  ∀ row, g.count ≤ row → row < g.count + count →
    vectorRange N g.count (g.count + count) (row / N) = (0, N) ∨
      g.versionInfo.deleteId (row / N) (row % N) = notDeletedId

theorem shown_appended (h : Inv N g) (hN : 0 < N)
    (ha : Allowed N g (.appendVersionInfo transactionId count)) (commitId : Nat) (halive : PositionsAlive N g count)
    (hge : g.count ≤ row) (hlt : row < g.count + count) :
    Shown N (appended N g transactionId count commitId) commitId row := by
  have hdm : row / N * N + row % N = row := Nat.div_add_mod' row N
  refine ⟨hlt, fun info hv => ?_, ?_⟩
  · exact Nat.le_of_eq (appended_insertId h hN ha commitId (Nat.mod_lt row hN) (by omega) hv)
  · rw [appended_deleteId g transactionId ha.1]
    rcases halive row hge hlt with hfull | hnot
    · rw [if_pos ⟨mem_vectorsOf_of_row hge hlt, hfull⟩]
    · rw [hnot, ite_self]

/-- Appended rows stay visible exactly if none of their positions carried a delete. -/
theorem appended_rows_visible_iff {N : Nat} (hN : 0 < N) {g : RowGroup} (hg : Reachable N g)
    {transactionId count commitId : Nat} (ha : Allowed N g (.appendVersionInfo transactionId count))
    (hid : commitId < transactionIdStart) :
    StaysVisible N g transactionId count commitId ↔ PositionsAlive N g count := by
  have hinv := reachable_inv hN hg
  have htis := transactionIdStart_lt_notDeletedId
  constructor
  · intro hvis row hge hlt
    by_contra hdead
    obtain ⟨hfull, hdel⟩ := not_or.1 hdead
    have hnow : (appended N g transactionId count commitId).versionInfo.deleteId (row / N) (row % N) =
        g.versionInfo.deleteId (row / N) (row % N) := by
      rw [appended_deleteId g transactionId ha.1, if_neg fun h => hfull h.2]
    -- a transaction with the id of the delete does not see the row
    have hsee := (hvis row hge hlt [] trivial
      ⟨⟨g.versionInfo.deleteId (row / N) (row % N), commitId + 1⟩, Nat.succ_le_of_lt (by omega), hdel⟩
      (Nat.lt_succ_self _)).1
    rw [Lib.run_nil, RowVersionManager.fetch_eq_visible, RowVersionManager.visible] at hsee
    cases hi : (appended N g transactionId count commitId).versionInfo.getChunkInfo (row / N) with
    | none =>
      rw [deleteId, hi] at hnow
      exact hdel hnow.symm
    | some info =>
      rw [deleteId_of_some hi] at hnow
      rw [hi, Option.all_some, ChunkVectorInfo.visible, hnow] at hsee
      simp [useVersion] at hsee
  · intro halive row hge hlt ops hops t ht
    have hstart : Inv N (appended N g transactionId count commitId) ∧
        Shown N (appended N g transactionId count commitId) commitId row :=
      ⟨step_inv hN (step_inv hN hinv ha) ⟨List.mem_append_right _ (List.mem_singleton.2 rfl), hid⟩,
        shown_appended hinv hN ha commitId halive hge hlt⟩
    have hend := Lib.run_inv_of_steps (P := fun g => Inv N g ∧ Shown N g commitId row)
      (fun g op hs hop => ⟨step_inv hN hs.1 hop.1, hs.2.step hN hs.1 hid hop.1 hop.2⟩) ops hstart hops
    have hvis := hend.2.visible t ht
    refine ⟨(RowVersionManager.fetch_eq_visible ..).trans hvis, fun maxCount hmax => ?_⟩
    refine (reports_iff_visible _ t (Nat.mod_lt row hN) hmax).2 ?_
    rw [Nat.div_add_mod' row N]
    exact hvis

/-- Three rows are committed, two more are appended and reverted, and one is deleted. The checkpoint
stores the positions of the reverted rows as deleted, and they are so when it is read back. -/
def revertedReloaded : List Op :=
  [.appendVersionInfo transactionIdStart 3, .commitAppend ⟨transactionIdStart, 0, 3⟩ 3,
    .appendVersionInfo (transactionIdStart + 1) 2, .revertAppend 3,
    .deleteRows 0 (transactionIdStart + 2) (fun _ => 0) 1, .commitDelete 0 4 ⟨false, 1, fun _ => 0⟩, .checkpoint 4,
    .reload 3]

theorem revertedReloaded_reachable :
    Reachable 64 (Lib.run (step 64) {} revertedReloaded) := by
  have hrow : ∀ row, row = 0 → row < 64 ∧ 0 * 64 + row < 3 := by
    rintro row rfl
    decide
  refine ⟨revertedReloaded, ⟨⟨by decide, by decide, by decide, by decide, fun p hp => absurd hp List.not_mem_nil⟩,
    ⟨List.mem_singleton.2 rfl, by decide⟩,
    ⟨by decide, by decide, by decide, by decide, fun p hp => absurd hp List.not_mem_nil⟩,
    ⟨by decide, fun p hp => .inr ?_⟩, ⟨by decide, by decide, by decide, fun i _ => hrow 0 rfl⟩,
    ⟨by decide, by decide, fun row hmem => hrow row (List.mem_singleton.1 hmem)⟩, trivial,
    show 3 ≤ maxRowGroupSize by decide, trivial⟩, rfl⟩
  obtain rfl := List.mem_singleton.1 hp
  exact Nat.le_refl 3

theorem revertedReloaded_eq : (Lib.run (step 64) {} revertedReloaded).count = 3 ∧
    (Lib.run (step 64) {} revertedReloaded).pending = [] ∧
    (appended 64 (Lib.run (step 64) {} revertedReloaded) (transactionIdStart + 3) 2
      6).versionInfo.fetch 64 ⟨transactionIdStart + 4, 7⟩ 3 = false := by
  decide +kernel

theorem revertedReloaded_allowed : Allowed 64 (Lib.run (step 64) {} revertedReloaded)
    (.appendVersionInfo (transactionIdStart + 3) 2) := by
  obtain ⟨hcount, hnone, -⟩ := revertedReloaded_eq
  refine ⟨by decide, ?_, by decide, by decide, fun p hp => ?_⟩
  · rw [hcount]
    decide
  · rw [hnone] at hp
    exact absurd hp List.not_mem_nil

/-- An append to this row group. -/
theorem appended_rows_visible_iff_reloaded :
    StaysVisible 64 (Lib.run (step 64) {} revertedReloaded) (transactionIdStart + 3) 2 6 ↔
      PositionsAlive 64 (Lib.run (step 64) {} revertedReloaded) 2 :=
  appended_rows_visible_iff (by decide) revertedReloaded_reachable revertedReloaded_allowed (by decide)

/-- Two rows that are appended to it and committed are visible to nobody. -/
theorem appended_rows_hidden :
    ¬ ∀ (N : Nat) (g : RowGroup) (transactionId count commitId : Nat), 0 < N → Reachable N g →
      Allowed N g (.appendVersionInfo transactionId count) → commitId < transactionIdStart →
      StaysVisible N g transactionId count commitId := by
  intro hall
  obtain ⟨hcount, -, hhidden⟩ := revertedReloaded_eq
  have hreach := revertedReloaded_reachable
  have hallowed := revertedReloaded_allowed
  generalize Lib.run (step 64) {} revertedReloaded = g at hcount hhidden hreach hallowed
  have hvis := hall 64 g (transactionIdStart + 3) 2 6 (by decide) hreach hallowed (by decide) 3 (by omega)
    (by omega) [] trivial ⟨⟨transactionIdStart + 4, 7⟩, by decide, by decide⟩ (by decide)
  exact Bool.false_ne_true (hhidden.symm.trans hvis.1)

end Haybarn.Version.RowGroup
