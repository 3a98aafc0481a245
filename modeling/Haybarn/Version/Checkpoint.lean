/-
Checkpoints of version information. What a checkpoint returns, read back, shows to every transaction
the rows that the checkpoint saw, also where it returned the pointers of an earlier one, provided
that no earlier checkpoint of a vector hid a position for its insert id and then took itself for the
last word on it.
-/
import Haybarn.Version.DeleteIds
import Haybarn.Version.Stored

namespace Haybarn.Version

open Transaction Common
open ChunkVectorInfo (StoredInfo DeleteInfo checkpointTransaction)

/-! ## What a checkpoint stores -/

theorem ChunkVectorInfo.lt_deleteId_of_hasDeletes {N : Nat} {info : ChunkVectorInfo} {checkpointId : Nat}
    (hid : checkpointId < transactionIdStart) (h : info.hasDeletes N checkpointId = false) {r : Nat} (hr : r < N) :
    checkpointId < info.deleteId r := by
  have htis := transactionIdStart_lt_notDeletedId
  have hmax := notDeletedId_lt_maxTransactionId
  unfold hasDeletes at h
  split at h
  · cases h
  · rw [if_neg (by omega : ¬ checkpointId = maxTransactionId)] at h
    unfold deleteId
    rcases hd : info.deleted with id | ⟨mask, id⟩ | ids
    · simp only [anyDeleted, hd] at h ⊢
      by_cases hne : id = notDeletedId
      · omega
      · simpa [hne] using h
    · simp only [anyDeleted, hd] at h ⊢
      have hlt : checkpointId < id := by simpa using h
      split <;> omega
    · simp only [anyDeleted, hd] at h ⊢
      have hall : ∀ i < N, checkpointId < ids i := by simpa using h
      exact hall r hr

namespace RowVersionManager

variable {N checkpointId : Nat} {m : RowVersionManager}

theorem mem_toSerialize {v : Nat} {info : ChunkVectorInfo} :
    (v, info) ∈ m.toSerialize N checkpointId ↔
      m.getChunkInfo v = some info ∧ info.hasDeletes N checkpointId = true := by
  unfold toSerialize
  rw [List.mem_filterMap]
  constructor
  · rintro ⟨w, -, hw⟩
    split at hw
    · next info' hi =>
      split at hw
      · next hd =>
        cases hw
        exact ⟨hi, hd⟩
      · cases hw
    · cases hw
  · rintro ⟨hi, hd⟩
    refine ⟨v, ?_, by rw [hi]; exact if_pos hd⟩
    have hlen : v < m.vectorInfo.length := by
      by_contra hge
      simp [getChunkInfo, List.getElem?_eq_none (Nat.le_of_not_lt hge)] at hi
    exact List.mem_range.2 hlen

theorem nodup_toSerialize (N : Nat) (m : RowVersionManager) (checkpointId : Nat) :
    ((m.toSerialize N checkpointId).map (·.1)).Nodup := by
  unfold toSerialize
  rw [List.map_filterMap]
  refine List.nodup_range.filterMap fun v w x hv hw => ?_
  obtain ⟨e, he, rfl⟩ := Option.map_eq_some_iff.1 hv
  obtain ⟨e', he', heq⟩ := Option.map_eq_some_iff.1 hw
  -- an entry is kept under its own position
  split at he
  · split at he'
    · split at he <;> split at he' <;> cases he <;> cases he'
      exact heq.symm
    · cases he'
  · cases he

/-- The entries that a checkpoint writes. -/
def written (N : Nat) (m : RowVersionManager) (checkpointId : Nat) : List (Nat × StoredInfo) :=
  (m.toSerialize N checkpointId).map fun e => (e.1, e.2.write N checkpointId)

theorem checkpoint_of_none (h : m.uncheckpointedDeleteCommit = none)
    (checkpointId : Nat) : m.checkpoint N checkpointId = m := by
  unfold checkpoint
  rw [h]

theorem checkpoint_of_some {last : Nat} (h : m.uncheckpointedDeleteCommit = some last)
    (checkpointId : Nat) : (m.checkpoint N checkpointId).storagePointers = m.written N checkpointId ∧
      (m.checkpoint N checkpointId).uncheckpointedDeleteCommit = if last ≤ checkpointId then none else some last := by
  unfold checkpoint
  rw [h]
  exact ⟨rfl, rfl⟩

theorem readable_written (hid : checkpointId < transactionIdStart)
    (hrange : ∀ v info, m.getChunkInfo v = some info → v * N < maxRowGroupSize) :
    Readable N (m.written N checkpointId) := by
  refine ⟨?_, fun e he => ?_, fun e he => ?_⟩
  · rw [written, List.map_map]
    exact nodup_toSerialize N m checkpointId
  · obtain ⟨⟨v, info⟩, hmem, rfl⟩ := List.mem_map.1 he
    exact hrange v info (mem_toSerialize.1 hmem).1
  · obtain ⟨⟨v, info⟩, -, rfl⟩ := List.mem_map.1 he
    exact (ChunkVectorInfo.write_spec info hid).2

theorem deletes_written (hid : checkpointId < transactionIdStart)
    {v r : Nat} (hr : r < N) : Deletes (m.written N checkpointId) v r ↔
      ∃ info, (v, info) ∈ m.toSerialize N checkpointId ∧ info.visible (checkpointTransaction checkpointId) r = false := by
  constructor
  · rintro ⟨s, hs, hdel⟩
    obtain ⟨⟨w, info⟩, hmem, heq⟩ := List.mem_map.1 hs
    cases heq
    rw [(ChunkVectorInfo.write_spec info hid).1 r hr] at hdel
    exact ⟨info, hmem, by simpa using hdel⟩
  · rintro ⟨info, hmem, hvis⟩
    refine ⟨_, List.mem_map.2 ⟨_, hmem, rfl⟩, ?_⟩
    rw [(ChunkVectorInfo.write_spec info hid).1 r hr, hvis]
    rfl

/-- For a row whose insert the checkpoint sees, being written as deleted means that the checkpoint
sees its delete. The vectors that are skipped have no such row. -/
theorem deletes_written_iff (hid : checkpointId < transactionIdStart)
    {v r : Nat} (hr : r < N) (hbound : m.deleteId v r ≤ notDeletedId)
    (hins : ∀ info, (v, info) ∈ m.toSerialize N checkpointId → info.insertId r ≤ checkpointId) :
    Deletes (m.written N checkpointId) v r ↔ m.deleteId v r ≤ checkpointId := by
  have htis := transactionIdStart_lt_notDeletedId
  rw [deletes_written hid hr]
  constructor
  · rintro ⟨info, hmem, hvis⟩
    have hi := (mem_toSerialize.1 hmem).1
    have hsee := hins info hmem
    rw [deleteId_of_some hi] at hbound ⊢
    rw [ChunkVectorInfo.visible, ChunkVectorInfo.useVersion_checkpointTransaction hid (by omega),
      ChunkVectorInfo.useVersion_checkpointTransaction hid hbound, decide_eq_true hsee] at hvis
    simpa using hvis
  · intro hdel
    cases hi : m.getChunkInfo v with
    | none =>
      rw [deleteId, hi] at hdel
      dsimp only at hdel
      omega
    | some info =>
      rw [deleteId_of_some hi] at hdel
      have hhas : info.hasDeletes N checkpointId = true := by
        by_contra hno
        have := ChunkVectorInfo.lt_deleteId_of_hasDeletes hid (by simpa using hno) hr
        omega
      refine ⟨info, mem_toSerialize.2 ⟨hi, hhas⟩, ?_⟩
      rw [ChunkVectorInfo.visible, ChunkVectorInfo.useVersion_checkpointTransaction hid (by omega : info.deleteId r ≤ notDeletedId),
        decide_eq_true hdel]
      simp

end RowVersionManager

/-! ## Runs with checkpoints -/

namespace RowVersionManager

/-- The manager has the same pointers and the same mark for deletes that are not checkpointed. -/
def SameStored (m m' : RowVersionManager) : Prop :=
  m'.storagePointers = m.storagePointers ∧ m'.uncheckpointedDeleteCommit = m.uncheckpointedDeleteCommit

theorem foldl_sameStored {f : RowVersionManager → Nat → RowVersionManager} (hf : ∀ m v, SameStored m (f m v)) :
    ∀ (l : List Nat) (m : RowVersionManager), SameStored m (l.foldl f m)
  | [], _ => ⟨rfl, rfl⟩
  | v :: l, m => by
    obtain ⟨h1, h2⟩ := foldl_sameStored hf l (f m v)
    exact ⟨h1.trans (hf m v).1, h2.trans (hf m v).2⟩

theorem appendVersionInfo_sameStored (N : Nat) (m : RowVersionManager) (transactionId a b : Nat) :
    SameStored m (m.appendVersionInfo N transactionId a b) := by
  have hturn : ∀ (m : RowVersionManager) v, SameStored m (appendVector N transactionId a b m v) := by
    intro m v
    unfold appendVector
    dsimp only
    split <;> exact ⟨rfl, rfl⟩
  have hloop := foldl_sameStored hturn (vectorsOf N a b) { m.fillVectorInfo ((b - 1) / N) with needsCompressionCheck := true }
  exact hloop

theorem commitAppend_sameStored (N : Nat) (m : RowVersionManager) (commitId a count : Nat) :
    SameStored m (m.commitAppend N commitId a count) := by
  have hturn : ∀ (m : RowVersionManager) v, SameStored m (commitVector N commitId a (a + count) m v) := by
    intro m v
    unfold commitVector
    dsimp only
    split <;> exact ⟨rfl, rfl⟩
  unfold commitAppend
  split
  · exact ⟨rfl, rfl⟩
  · exact foldl_sameStored hturn ..

theorem compressVersionIds_sameStored (N : Nat) (m : RowVersionManager) (lowest : Nat) :
    SameStored m (m.compressVersionIds N lowest) := by
  unfold compressVersionIds
  split <;> exact ⟨rfl, rfl⟩

end RowVersionManager

/-- A row group and the id of its last checkpoint. -/
structure CheckpointedGroup where
  group : RowGroup := {}
  lastCheckpoint : Nat := 0

namespace CheckpointedGroup

open RowVersionManager
open RowGroup (Op)

def step (N : Nat) (s : CheckpointedGroup) (op : Op) : CheckpointedGroup where
  group := s.group.step N op
  lastCheckpoint := match op with
    | .checkpoint checkpointId => checkpointId
    | _ => s.lastCheckpoint

/-- The calls that work on the version information of a row group in memory, and its checkpoints. -/
def versionCall : Op → Bool
  | .revertAppend _ => false
  | .cleanupAppend .. => false
  | .reload _ => false
  | _ => true

/-- Checkpoint ids are commit ids and do not decrease. A checkpoint that writes the version information
for the last time until the next delete finds the inserts of the vectors it writes committed. -/
def Settled (N : Nat) (s : CheckpointedGroup) : Op → Prop
  | .checkpoint checkpointId => s.lastCheckpoint ≤ checkpointId ∧ checkpointId < transactionIdStart ∧
      ∀ last ≤ checkpointId, s.group.versionInfo.uncheckpointedDeleteCommit = some last →
        ∀ e ∈ s.group.versionInfo.toSerialize N checkpointId, ∀ r < N, e.2.insertId r ≤ checkpointId
  | _ => True

def Allowed (N : Nat) (s : CheckpointedGroup) (op : Op) : Prop :=
  versionCall op = true ∧ s.group.Allowed N op ∧ s.Settled N op

/-- A bound on the ids of committed deletes: the last checkpoint, or the last delete since. -/
def bound (s : CheckpointedGroup) : Nat :=
  max s.lastCheckpoint (s.group.versionInfo.uncheckpointedDeleteCommit.getD 0)

/-- The invariant of these runs. Past the rows nothing is deleted. A committed delete is not above the
bound. The pointers can be read back, and while no delete has committed since they were written,
they name the rows with a committed delete. -/
structure Inv (N : Nat) (s : CheckpointedGroup) : Prop where
  rows : s.group.Inv N
  bounded : s.group.Bounded N
  start : ∀ v info, s.group.versionInfo.getChunkInfo v = some info → v * N < s.group.count
  size : s.group.count ≤ maxRowGroupSize
  past : ∀ v r, r < N → s.group.count ≤ v * N + r → s.group.versionInfo.deleteId v r = notDeletedId
  committed : ∀ v r, r < N → s.group.versionInfo.deleteId v r < transactionIdStart →
    s.group.versionInfo.deleteId v r ≤ s.bound
  readable : Readable N s.group.versionInfo.storagePointers
  clean : s.group.versionInfo.uncheckpointedDeleteCommit = none → ∀ v r, r < N →
    (Deletes s.group.versionInfo.storagePointers v r ↔ s.group.versionInfo.deleteId v r < transactionIdStart)

theorem Inv.init (N : Nat) : Inv N {} := by
  have htis := transactionIdStart_lt_notDeletedId
  have hdel : ∀ v r, ¬ ({} : RowVersionManager).deleteId v r < transactionIdStart := by
    intro v r
    simp only [deleteId, getChunkInfo, List.getElem?_nil, Option.join_none]
    omega
  refine ⟨RowGroup.Inv.init N, RowGroup.Bounded.init N, fun v info hv => ?_, Nat.zero_le _, fun _ _ _ _ => rfl,
    fun v r _ hlt => absurd hlt (hdel v r), ⟨.nil, ?_, ?_⟩, fun _ v r _ => iff_of_false ?_ (hdel v r)⟩
  · simp [getChunkInfo] at hv
  · exact fun e he => absurd he List.not_mem_nil
  · exact fun e he => absurd he List.not_mem_nil
  · rintro ⟨s, hs, -⟩
    exact absurd hs List.not_mem_nil

/-- A change of a delete id that no checkpoint sees. -/
def Unseen (bound old new : Nat) : Prop :=
  new = old ∨ transactionIdStart ≤ old ∧ transactionIdStart ≤ new ∨
    old < transactionIdStart ∧ new < transactionIdStart ∧ new ≤ bound

variable {N v checkpointId : Nat} {s : CheckpointedGroup}

theorem Inv.of_unseen {g : RowGroup} (h : Inv N s) (hrows : g.Inv N)
    (hbounded : g.Bounded N) (hsame : SameStored s.group.versionInfo g.versionInfo)
    (hstart : ∀ v info, g.versionInfo.getChunkInfo v = some info → v * N < g.count) (hsize : g.count ≤ maxRowGroupSize)
    (hpast : ∀ v r, r < N → g.count ≤ v * N + r → g.versionInfo.deleteId v r = notDeletedId)
    (hunseen : ∀ v r, r < N → Unseen s.bound (s.group.versionInfo.deleteId v r) (g.versionInfo.deleteId v r)) :
    Inv N { s with group := g } := by
  obtain ⟨hptr, hdirty⟩ := hsame
  have hbound : ({ s with group := g } : CheckpointedGroup).bound = s.bound := by
    simp only [bound, hdirty]
  refine ⟨hrows, hbounded, hstart, hsize, hpast, fun v r hr hlt => ?_, ?_, fun hclean v r hr => ?_⟩
  · rw [hbound]
    have hlt : g.versionInfo.deleteId v r < transactionIdStart := hlt
    rcases hunseen v r hr with heq | ⟨-, hge⟩ | ⟨-, -, hle⟩
    · rw [heq] at hlt ⊢
      exact h.committed v r hr hlt
    · omega
    · exact hle
  · rw [hptr]
    exact h.readable
  · rw [hptr, h.clean (hdirty ▸ hclean) v r hr]
    rcases hunseen v r hr with heq | ⟨hold, hnew⟩ | ⟨hold, hnew, -⟩
    · rw [heq]
    · exact iff_of_false (Nat.not_lt.2 hold) (Nat.not_lt.2 hnew)
    · exact iff_of_true hold hnew

theorem Inv.append (h : Inv N s) (hN : 0 < N) {transactionId count : Nat}
    (ha : s.group.Allowed N (.appendVersionInfo transactionId count)) :
    Inv N (s.step N (.appendVersionInfo transactionId count)) := by
  have hab : s.group.count < s.group.count + count := Nat.lt_add_of_pos_right ha.1
  -- a vector that is replaced had no deletes, as it had no rows
  have hid : ∀ v r, r < N →
      (s.group.step N (.appendVersionInfo transactionId count)).versionInfo.deleteId v r =
        s.group.versionInfo.deleteId v r := by
    intro v r hr
    have hid := deleteId_appendVersionInfo N s.group.versionInfo transactionId s.group.count (s.group.count + count) v r
    refine hid.trans ?_
    split
    · next hfull =>
      have hle := RowGroup.le_of_vectorRange_zero hN hab hfull.1 (congrArg Prod.fst hfull.2)
      exact (h.past v r hr (by omega)).symm
    · rfl
  refine h.of_unseen (RowGroup.step_inv hN h.rows ha)
    (RowGroup.step_bounded (fun p hp => (h.rows.inside p hp).1) h.bounded ha)
    (appendVersionInfo_sameStored ..) (fun v info hv => ?_) ha.2.1 (fun v r hr hge => ?_) fun v r hr => .inl (hid v r hr)
  · have hget := getChunkInfo_appendVersionInfo N s.group.versionInfo transactionId s.group.count (s.group.count + count) v
    replace hv := hget.symm.trans hv
    show v * N < s.group.count + count
    split at hv
    · next hin =>
      have hlast := (mem_vectorsOf.1 hin).2
      have hmul := (Nat.le_div_iff_mul_le hN).1 hlast
      omega
    · exact Nat.lt_of_lt_of_le (h.start v info hv) (Nat.le_add_right ..)
  · have hge : s.group.count + count ≤ v * N + r := hge
    rw [hid v r hr]
    exact h.past v r hr (by omega)

theorem Inv.commitAppend (h : Inv N s) (hN : 0 < N) {p : PendingAppend} {commitId : Nat}
    (ha : s.group.Allowed N (.commitAppend p commitId)) : Inv N (s.step N (.commitAppend p commitId)) := by
  have hpos := (h.rows.inside p ha.1).1
  have hid : ∀ v r, (s.group.step N (.commitAppend p commitId)).versionInfo.deleteId v r =
      s.group.versionInfo.deleteId v r := deleteId_commitAppend s.group.versionInfo commitId p.start hpos
  refine h.of_unseen (RowGroup.step_inv hN h.rows ha)
    (RowGroup.step_bounded (fun p hp => (h.rows.inside p hp).1) h.bounded ha)
    (commitAppend_sameStored ..) (fun v info hv => ?_) h.size (fun v r hr hge => (hid v r).trans (h.past v r hr hge))
    fun v r _ => .inl (hid v r)
  have hget := getChunkInfo_commitAppend (N := N) s.group.versionInfo commitId p.start hpos v
  replace hv := hget.symm.trans hv
  split at hv
  · obtain ⟨old, hold, -⟩ := Option.map_eq_some_iff.1 hv
    exact h.start v old hold
  · exact h.start v info hv

theorem Inv.start_setInfo (h : Inv N s) (hv : v * N < s.group.count)
    (new : ChunkVectorInfo) (w : Nat) (info : ChunkVectorInfo)
    (hw : (s.group.versionInfo.setInfo v (some new)).getChunkInfo w = some info) : w * N < s.group.count := by
  rw [getChunkInfo_setInfo] at hw
  split at hw
  · next heq => exact heq ▸ hv
  · exact h.start w info hw

theorem Inv.deleteRows (h : Inv N s) (hN : 0 < N) {transactionId count : Nat}
    {rows : Nat → Nat} (ha : s.group.Allowed N (.deleteRows v transactionId rows count)) :
    Inv N (s.step N (.deleteRows v transactionId rows count)) := by
  have htis := transactionIdStart_lt_notDeletedId
  obtain ⟨hge, hlt, hpos, hrows⟩ := id ha
  have hv : v * N < s.group.count := by
    have := (hrows 0 hpos).2
    omega
  have hmark : ∀ w r, r < N → ChunkVectorInfo.Marked transactionId (w = v ∧ ∃ j < count, rows j = r)
      (s.group.versionInfo.deleteId w r)
      ((s.group.step N (.deleteRows v transactionId rows count)).versionInfo.deleteId w r) := fun w r hr =>
    deleteRows_marked s.group.versionInfo v transactionId rows count w hr
  refine h.of_unseen (RowGroup.step_inv hN h.rows ha)
    (RowGroup.step_bounded (fun p hp => (h.rows.inside p hp).1) h.bounded ha)
    ⟨rfl, rfl⟩ (fun w info hw => h.start_setInfo hv _ w info hw) h.size (fun w r hr hpast => ?_) fun w r hr => ?_
  · have hpast : s.group.count ≤ w * N + r := hpast
    rcases hmark w r hr with hsame | ⟨⟨rfl, j, hj, rfl⟩, -, -⟩
    · exact hsame.trans (h.past w r hr hpast)
    · have := (hrows j hj).2
      omega
  · rcases hmark w r hr with hsame | ⟨-, hold, hnew⟩
    · exact .inl hsame
    · refine .inr (.inl ⟨?_, ?_⟩)
      · rcases hold with hold | hold <;> omega
      · rcases hnew with hnew | hnew <;> omega

theorem Inv.commitDelete (h : Inv N s) (hN : 0 < N) {commitId : Nat} {di : DeleteInfo}
    (ha : s.group.Allowed N (.commitDelete v commitId di)) : Inv N (s.step N (.commitDelete v commitId di)) := by
  obtain ⟨-, hpos, hrows⟩ := id ha
  have hv : v * N < s.group.count := by
    obtain ⟨row, hrow⟩ := List.exists_mem_of_length_pos (l := di.rowList) (by
      unfold DeleteInfo.rowList
      split <;> simpa using hpos)
    have := (hrows row hrow).2
    omega
  have hid : ∀ w r, r < N → (s.group.step N (.commitDelete v commitId di)).versionInfo.deleteId w r =
      if w = v ∧ r ∈ di.rowList then commitId else s.group.versionInfo.deleteId w r := fun w r hr =>
    deleteId_commitDelete s.group.versionInfo v commitId di w hr
  -- the mark is the largest id of a delete since the last checkpoint
  have hmark : ∃ last, (s.group.step N (.commitDelete v commitId di)).versionInfo.uncheckpointedDeleteCommit = some last ∧
      commitId ≤ last ∧ s.group.versionInfo.uncheckpointedDeleteCommit.getD 0 ≤ last := by
    simp only [RowGroup.step, RowVersionManager.commitDelete]
    cases s.group.versionInfo.uncheckpointedDeleteCommit with
    | none => exact ⟨commitId, rfl, Nat.le_refl _, Nat.zero_le _⟩
    | some last =>
      dsimp only
      split
      · next hgt => exact ⟨commitId, rfl, Nat.le_refl _, Nat.le_of_lt hgt⟩
      · next hgt => exact ⟨last, rfl, Nat.le_of_not_lt hgt, Nat.le_refl _⟩
  obtain ⟨last, hlast, hcommit, hold⟩ := hmark
  have hbound : (s.step N (.commitDelete v commitId di)).bound = max s.lastCheckpoint last := by
    simp only [bound, step, hlast, Option.getD_some]
  refine ⟨RowGroup.step_inv hN h.rows ha,
    RowGroup.step_bounded (fun p hp => (h.rows.inside p hp).1) h.bounded ha,
    fun w info hw => h.start_setInfo hv _ w info hw, h.size, fun w r hr hpast => ?_, fun w r hr hlt => ?_, h.readable,
    fun hnone => absurd (hlast.symm.trans hnone) (by simp)⟩
  · have hpast : s.group.count ≤ w * N + r := hpast
    refine (hid w r hr).trans ?_
    rw [if_neg]
    · exact h.past w r hr hpast
    · rintro ⟨rfl, hmem⟩
      have := (hrows r hmem).2
      omega
  · rw [hbound]
    have hid := hid w r hr
    simp only [step] at hlt ⊢
    rw [hid] at hlt ⊢
    split
    · exact Nat.le_trans hcommit (Nat.le_max_right ..)
    · next hnot =>
      rw [if_neg hnot] at hlt
      have hle := h.committed w r hr hlt
      unfold bound at hle
      omega

theorem Inv.compress (h : Inv N s) (hN : 0 < N) {lowest : Nat}
    (ha : s.group.Allowed N (.compressVersionIds lowest)) : Inv N (s.step N (.compressVersionIds lowest)) := by
  have hlow : lowest ≤ transactionIdStart := ha
  have hid : ∀ v r, r < N → _ := fun v r hr => deleteId_compressVersionIds (r := r) s.group.versionInfo lowest v hr
  refine h.of_unseen (RowGroup.step_inv hN h.rows ha)
    (RowGroup.step_bounded (fun p hp => (h.rows.inside p hp).1) h.bounded ha)
    (compressVersionIds_sameStored ..) (fun v info hv => ?_) h.size (fun v r hr hpast => ?_) fun v r hr => ?_
  · have hget := getChunkInfo_compressVersionIds N s.group.versionInfo lowest v
    replace hv := hget.symm.trans hv
    split at hv
    · obtain ⟨old, hold, -⟩ := Option.map_eq_some_iff.1 hv
      exact h.start v old hold
    · exact h.start v info hv
  · exact (hid v r hr).1.eq_notDeletedId_iff.2 (h.past v r hr hpast)
  · obtain ⟨hfold, hbound⟩ := hid v r hr
    rcases hbound s.bound fun r hr hlt => h.committed v r hr (by omega) with hsame | hle
    · exact .inl hsame
    · rcases hfold with hsame | ⟨hold, hnew, -, -⟩
      · exact .inl hsame
      · exact .inr (.inr ⟨Nat.lt_of_lt_of_le hold hlow, Nat.lt_of_lt_of_le hnew hlow, hle⟩)

theorem Inv.range (h : Inv N s) (v : Nat) (info : ChunkVectorInfo)
    (hv : s.group.versionInfo.getChunkInfo v = some info) : v * N < maxRowGroupSize :=
  Nat.lt_of_lt_of_le (h.start v info hv) h.size

theorem Inv.checkpoint (h : Inv N s)
    (hs : s.Settled N (.checkpoint checkpointId)) : Inv N (s.step N (.checkpoint checkpointId)) := by
  obtain ⟨hlast, hid, hins⟩ := hs
  have hget : ∀ v, (s.step N (.checkpoint checkpointId)).group.versionInfo.getChunkInfo v =
      s.group.versionInfo.getChunkInfo v := RowGroup.getChunkInfo_checkpoint N s.group.versionInfo checkpointId
  have hdel : ∀ v r, (s.step N (.checkpoint checkpointId)).group.versionInfo.deleteId v r =
      s.group.versionInfo.deleteId v r := fun v r => deleteId_congr (hget v) r
  have hrows : (s.step N (.checkpoint checkpointId)).group.Inv N :=
    h.rows.of_kept fun v => hget v ▸ .refl ..
  have hstart : ∀ v info, (s.step N (.checkpoint checkpointId)).group.versionInfo.getChunkInfo v = some info →
      v * N < s.group.count := fun v info hv => h.start v info ((hget v).symm.trans hv)
  cases hd : s.group.versionInfo.uncheckpointedDeleteCommit with
  | none =>
    have hsame : (s.step N (.checkpoint checkpointId)).group.versionInfo = s.group.versionInfo :=
      checkpoint_of_none hd checkpointId
    refine ⟨hrows, fun v r hr => (hdel v r).symm ▸ h.bounded v r hr, hstart, h.size,
      fun v r hr hpast => (hdel v r).trans (h.past v r hr hpast), fun v r hr hlt => ?_, ?_, fun _ v r hr => ?_⟩
    · rw [hdel] at hlt ⊢
      have hle := h.committed v r hr hlt
      simp only [bound, hd, step, Option.getD_none] at hle ⊢
      omega
    · rw [hsame]
      exact h.readable
    · rw [hsame]
      exact h.clean hd v r hr
  | some last =>
    obtain ⟨hptr, hdirty⟩ : (s.step N (.checkpoint checkpointId)).group.versionInfo.storagePointers = _ ∧
      (s.step N (.checkpoint checkpointId)).group.versionInfo.uncheckpointedDeleteCommit = _ :=
      checkpoint_of_some hd checkpointId
    have hbound : s.bound = max s.lastCheckpoint last := by rw [bound, hd, Option.getD_some]
    refine ⟨hrows, fun v r hr => (hdel v r).symm ▸ h.bounded v r hr, hstart, h.size,
      fun v r hr hpast => (hdel v r).trans (h.past v r hr hpast), fun v r hr hlt => ?_, ?_, fun hclean v r hr => ?_⟩
    · rw [hdel] at hlt ⊢
      have hle := h.committed v r hr hlt
      rw [bound, hdirty]
      simp only [step]
      split
      · rw [Option.getD_none]
        omega
      · rw [Option.getD_some]
        omega
    · rw [hptr]
      exact readable_written hid h.range
    · have hle : last ≤ checkpointId := by
        by_contra hgt
        rw [hdirty, if_neg hgt] at hclean
        cases hclean
      rw [hptr, hdel, deletes_written_iff hid hr (h.bounded v r hr) fun info hmem => hins last hle hd _ hmem r hr]
      refine ⟨fun hdel => Nat.lt_of_le_of_lt hdel hid, fun hlt => ?_⟩
      have := h.committed v r hr hlt
      omega

theorem step_inv (hN : 0 < N) {op : Op} (h : Inv N s) (ha : s.Allowed N op) :
    Inv N (s.step N op) := by
  obtain ⟨hcall, hallowed, hset⟩ := ha
  cases op with
  | appendVersionInfo transactionId count => exact h.append hN hallowed
  | commitAppend p commitId => exact h.commitAppend hN hallowed
  | revertAppend newCount => cases hcall
  | cleanupAppend lowest start count => cases hcall
  | deleteRows v transactionId rows count => exact h.deleteRows hN hallowed
  | commitDelete v commitId di => exact h.commitDelete hN hallowed
  | compressVersionIds lowest => exact h.compress hN hallowed
  | checkpoint checkpointId => exact h.checkpoint hset
  | reload count => cases hcall

theorem run_inv (hN : 0 < N) {ops : List Op} (h : Lib.Steps (step N) (Allowed N) {} ops) :
    Inv N (Lib.run (step N) {} ops) :=
  Lib.run_inv_of_steps (fun _ _ hs ha => step_inv hN hs ha) ops (Inv.init N) h

/-! ## Reading a checkpoint back -/

/-- Every row of the row group was inserted by a transaction that committed with the id or before. -/
def insertedBy (N : Nat) (g : RowGroup) (checkpointId : Nat) : Prop :=
  ∀ v info r, g.versionInfo.getChunkInfo v = some info → r < N → v * N + r < g.count → info.insertId r ≤ checkpointId

/-- A row of the row group is stored as deleted exactly if the checkpoint sees its delete, whether
the version information was written for this checkpoint or not. -/
theorem Inv.deletes_checkpoint (h : Inv N s)
    (hlast : s.lastCheckpoint ≤ checkpointId) (hid : checkpointId < transactionIdStart)
    (hins : insertedBy N s.group checkpointId) {r : Nat} (hr : r < N) (hrow : v * N + r < s.group.count) :
    Deletes (s.group.versionInfo.checkpoint N checkpointId).storagePointers v r ↔
      s.group.versionInfo.deleteId v r ≤ checkpointId := by
  cases hd : s.group.versionInfo.uncheckpointedDeleteCommit with
  | none =>
    rw [checkpoint_of_none hd, h.clean hd v r hr]
    refine ⟨fun hlt => ?_, fun hle => Nat.lt_of_le_of_lt hle hid⟩
    have hle := h.committed v r hr hlt
    rw [bound, hd, Option.getD_none] at hle
    omega
  | some last =>
    rw [(checkpoint_of_some hd checkpointId).1]
    exact deletes_written_iff hid hr (h.bounded v r hr) fun info hmem =>
      hins v info r (mem_toSerialize.1 hmem).1 hr hrow

theorem Inv.readable_checkpoint (h : Inv N s)
    (hid : checkpointId < transactionIdStart) :
    Readable N (s.group.versionInfo.checkpoint N checkpointId).storagePointers := by
  cases hd : s.group.versionInfo.uncheckpointedDeleteCommit with
  | none =>
    rw [checkpoint_of_none hd]
    exact h.readable
  | some last =>
    rw [(checkpoint_of_some hd checkpointId).1]
    exact readable_written hid h.range

theorem visible_checkpoint_iff {g : RowGroup} (hid : checkpointId < transactionIdStart)
    (hbounded : g.Bounded N) (hins : insertedBy N g checkpointId) {r : Nat} (hr : r < N) (hrow : v * N + r < g.count) :
    g.versionInfo.visible N ⟨invalidIndex, checkpointId + 1⟩ (v * N + r) = true ↔
      ¬ g.versionInfo.deleteId v r ≤ checkpointId := by
  have htis := transactionIdStart_lt_notDeletedId
  have hbound := hbounded v r hr
  have htrans : (⟨invalidIndex, checkpointId + 1⟩ : TransactionData) = checkpointTransaction checkpointId := by
    rw [← ChunkVectorInfo.checkpointTransaction_startTime hid]
    rfl
  rw [visible, row_div hr, row_mod hr, htrans]
  cases hi : g.versionInfo.getChunkInfo v with
  | none =>
    rw [deleteId, hi]
    exact iff_of_true rfl (by dsimp only; omega)
  | some info =>
    have hsee := hins v info r hi hr hrow
    rw [deleteId_of_some hi] at hbound ⊢
    rw [Option.all_some, ChunkVectorInfo.visible, ChunkVectorInfo.useVersion_checkpointTransaction hid (by omega),
      ChunkVectorInfo.useVersion_checkpointTransaction hid hbound, decide_eq_true hsee]
    simp

/-- The pointers that a checkpoint of the row group returns, read back, show to every transaction
exactly the rows that were visible at the checkpoint, to fetches and to scans. If there are no
pointers there is no manager, and every row is visible. -/
def ShowsCheckpoint (N : Nat) (g : RowGroup) (checkpointId : Nat) : Prop :=
  ∃ reloaded, deserialize N (g.step N (.checkpoint checkpointId)).versionInfo.storagePointers = .ok reloaded ∧
    ∀ (t : Snapshot), 0 < t.startTime →
      (∀ row < g.count, reloaded.all (·.fetch N t.toTransactionData row) =
        g.versionInfo.fetch N ⟨invalidIndex, checkpointId + 1⟩ row) ∧
      ∀ v r maxCount, r < N → r < maxCount → v * N + r < g.count →
        ((∀ m, reloaded = some m → ChunkVectorInfo.reports maxCount
          (m.getSelVector ⟨t.toTransactionData, .standard, .standard⟩ v maxCount) r) ↔
        g.versionInfo.fetch N ⟨invalidIndex, checkpointId + 1⟩ (v * N + r) = true)

/-- Along runs in which checkpoint ids do not decrease, and a checkpoint that clears the mark for
deletes finds the inserts of the vectors it writes committed, every checkpoint can be read back to
what it saw. -/
theorem checkpoint_shows_rows {N : Nat} (hN : 0 < N) {ops : List Op} (h : Lib.Steps (step N) (Allowed N) {} ops)
    {checkpointId : Nat} (hlast : (Lib.run (step N) {} ops).lastCheckpoint ≤ checkpointId)
    (hid : checkpointId < transactionIdStart) (hins : insertedBy N (Lib.run (step N) {} ops).group checkpointId) :
    ShowsCheckpoint N (Lib.run (step N) {} ops).group checkpointId := by
  have hinv := run_inv hN h
  generalize Lib.run (step N) {} ops = s at hinv hlast hins
  obtain ⟨reloaded, hok, hshow⟩ := deserialize_ok (hinv.readable_checkpoint hid)
  have hrow : ∀ (t : Snapshot), 0 < t.startTime → ∀ v r, r < N → v * N + r < s.group.count →
      (reloaded.all (·.visible N t.toTransactionData (v * N + r)) = true ↔
        s.group.versionInfo.visible N ⟨invalidIndex, checkpointId + 1⟩ (v * N + r) = true) := by
    intro t hpos v r hr hlt
    rw [hshow t hpos v r hr, hinv.deletes_checkpoint hlast hid hins hr hlt,
      visible_checkpoint_iff hid hinv.bounded hins hr hlt]
  refine ⟨reloaded, hok, fun t hpos => ⟨fun row hlt => ?_, fun v r maxCount hr hmax hlt => ?_⟩⟩
  · have hdm : row / N * N + row % N = row := Nat.div_add_mod' row N
    have hsame := hrow t hpos (row / N) (row % N) (Nat.mod_lt row hN) (by omega)
    rw [hdm] at hsame
    simp only [fetch_eq_visible]
    exact Bool.eq_iff_iff.2 hsame
  · rw [fetch_eq_visible, ← hrow t hpos v r hr hlt]
    cases reloaded with
    | none => exact iff_of_true (fun m hm => nomatch hm) rfl
    | some m =>
      rw [Option.all_some, ← reports_iff_visible m t hr hmax]
      exact ⟨fun hall => hall m rfl, fun hrep m' hm' => Option.some.inj hm' ▸ hrep⟩

/-- Two rows are committed, one of them is deleted, and a checkpoint is taken. -/
def deleteCheckpointed : List Op :=
  [.appendVersionInfo transactionIdStart 2, .commitAppend ⟨transactionIdStart, 0, 2⟩ 3,
    .deleteRows 0 (transactionIdStart + 1) (fun _ => 0) 1, .commitDelete 0 4 ⟨false, 1, fun _ => 0⟩, .checkpoint 4]

theorem eq_zero_of_getChunkInfo {m : RowVersionManager} (hlen : m.vectorInfo.length = 1)
    {info : ChunkVectorInfo} (h : m.getChunkInfo v = some info) : v = 0 := by
  by_contra hv
  rw [getChunkInfo, List.getElem?_eq_none (by omega)] at h
  cases h

theorem deleteCheckpointed_insertId {r : Nat} {info : ChunkVectorInfo} (h : (Lib.run (step standardVectorSize) {}
    (deleteCheckpointed.take 4)).group.versionInfo.getChunkInfo v = some info) : info.insertId r = 3 := by
  have hconst : ((Lib.run (step standardVectorSize) {} (deleteCheckpointed.take 4)).group.versionInfo.getChunkInfo 0).all
    (fun info => info.insertedData.isNone && info.constantInsertId == 3) = true := by decide +kernel
  obtain rfl := eq_zero_of_getChunkInfo (by decide +kernel) h
  rw [h, Option.all_some, Bool.and_eq_true, beq_iff_eq, Option.isNone_iff_eq_none] at hconst
  rw [ChunkVectorInfo.insertId, hconst.1]
  exact hconst.2

theorem deleteCheckpointed_allowed : Lib.Steps (step standardVectorSize) (Allowed standardVectorSize) {}
    deleteCheckpointed := by
  have hrow : ∀ row, row = 0 → row < standardVectorSize ∧ 0 * standardVectorSize + row < 2 := by
    rintro row rfl
    decide
  refine ⟨⟨rfl, ⟨by decide, by decide, by decide, by decide, fun p hp => absurd hp List.not_mem_nil⟩, trivial⟩,
    ⟨rfl, ⟨List.mem_singleton.2 rfl, by decide⟩, trivial⟩,
    ⟨rfl, ⟨by decide, by decide, by decide, fun i _ => hrow 0 rfl⟩, trivial⟩,
    ⟨rfl, ⟨by decide, by decide, fun row hmem => hrow row (List.mem_singleton.1 hmem)⟩, trivial⟩,
    ⟨rfl, trivial, by decide, by decide, fun last _ _ e he r _ => ?_⟩, trivial⟩
  exact Nat.le_trans (Nat.le_of_eq (deleteCheckpointed_insertId (mem_toSerialize.1 he).1)) (by decide)

/-- A later checkpoint returns the pointers of the first one. -/
theorem checkpoint_shows_rows_deleteCheckpointed :
    ShowsCheckpoint standardVectorSize (Lib.run (step standardVectorSize) {} deleteCheckpointed).group 5 := by
  refine checkpoint_shows_rows (by decide) deleteCheckpointed_allowed (by decide) (by decide) fun v info r hv hr hlt => ?_
  have hget := (RowGroup.getChunkInfo_checkpoint ..).symm.trans hv
  exact Nat.le_trans (Nat.le_of_eq (deleteCheckpointed_insertId hget)) (by decide)

/-- A row is committed, another is appended by an open transaction, and the first is deleted. The
checkpoint hides the open row with the deleted one and clears the mark; then the append commits. -/
def openCheckpointed : List Op :=
  [.appendVersionInfo transactionIdStart 1, .commitAppend ⟨transactionIdStart, 0, 1⟩ 3,
    .appendVersionInfo (transactionIdStart + 1) 1, .deleteRows 0 (transactionIdStart + 2) (fun _ => 0) 1,
    .commitDelete 0 4 ⟨false, 1, fun _ => 0⟩, .checkpoint 4, .commitAppend ⟨transactionIdStart + 1, 1, 1⟩ 5]

/-- The commit of an append does not set the mark, so the next checkpoint returns the old pointers, and
the committed row is gone when they are read back, with vectors of 64 rows. -/
theorem checkpoint_hides_committed_row :
    ¬ ∀ (N : Nat) (ops : List Op) (checkpointId : Nat), 0 < N →
      Lib.Steps (step N) (fun s op => versionCall op = true ∧ s.group.Allowed N op) {} ops →
      (Lib.run (step N) {} ops).lastCheckpoint ≤ checkpointId → checkpointId < transactionIdStart →
      insertedBy N (Lib.run (step N) {} ops).group checkpointId →
      ShowsCheckpoint N (Lib.run (step N) {} ops).group checkpointId := by
  intro hall
  have hrow : ∀ row, row = 0 → row < 64 ∧ 0 * 64 + row < 2 := by
    rintro row rfl
    decide
  have hsteps : Lib.Steps (step 64)
      (fun s op => versionCall op = true ∧ s.group.Allowed 64 op) {} openCheckpointed := by
    refine ⟨⟨rfl, by decide, by decide, by decide, by decide, fun p hp => absurd hp List.not_mem_nil⟩,
      ⟨rfl, List.mem_singleton.2 rfl, by decide⟩,
      ⟨rfl, by decide, by decide, by decide, by decide, fun p hp => absurd hp List.not_mem_nil⟩,
      ⟨rfl, by decide, by decide, by decide, fun i _ => hrow 0 rfl⟩,
      ⟨rfl, by decide, by decide, fun row hmem => hrow row (List.mem_singleton.1 hmem)⟩, ⟨rfl, trivial⟩,
      ⟨rfl, List.mem_singleton.2 rfl, by decide⟩, trivial⟩
  have hins : insertedBy 64 (Lib.run (step 64) {} openCheckpointed).group 5 := by
    intro v info r hv hr hlt
    have hids : ((Lib.run (step 64) {} openCheckpointed).group.versionInfo.getChunkInfo 0).all
      (fun info => info.insertId 0 ≤ 5 && info.insertId 1 ≤ 5) = true := by decide +kernel
    obtain rfl := eq_zero_of_getChunkInfo (by decide +kernel) hv
    rw [hv, Option.all_some, Bool.and_eq_true, decide_eq_true_eq, decide_eq_true_eq] at hids
    have hlt : 0 * 64 + r < 2 := hlt
    obtain rfl | rfl : r = 0 ∨ r = 1 := by omega
    · exact hids.1
    · exact hids.2
  obtain ⟨reloaded, hok, hshow⟩ := hall 64 openCheckpointed 5 (by decide) hsteps (by decide) (by decide) hins
  have hsame := (hshow ⟨⟨transactionIdStart + 3, 6⟩, by decide, by decide⟩ (by decide)).1 1 (by decide)
  have hhidden : (match deserialize 64 ((Lib.run (step 64) {} openCheckpointed).group.step
      64 (.checkpoint 5)).versionInfo.storagePointers with
    | .ok reloaded => reloaded.all (·.fetch 64 ⟨transactionIdStart + 3, 6⟩ 1)
    | .error _ => false) = false := by decide +kernel
  rw [hok] at hhidden
  have hseen : (Lib.run (step 64) {} openCheckpointed).group.versionInfo.fetch 64
    ⟨invalidIndex, 6⟩ 1 = true := by decide +kernel
  rw [show (5 : Nat) + 1 = 6 from rfl, hseen] at hsame
  exact Bool.false_ne_true (hhidden.symm.trans hsame)

end CheckpointedGroup

end Haybarn.Version
