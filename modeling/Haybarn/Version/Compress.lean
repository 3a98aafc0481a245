/-
Compression of version ids: what `CompressVersionIds` may do to the id of a row, and that neither
scans of the snapshots it is meant for nor later deletes can tell.
-/
import Haybarn.Version.Refine
import Mathlib.Tactic.SplitIfs

namespace Haybarn.Version.ChunkVectorInfo

open Transaction Common Function List

/-! ## The scan over the delete ids -/

section Scan

variable (lowest : Nat) (s : DeleteScan) (id : Nat)

theorem next_rowsAlive : (s.next lowest id).rowsAlive = (s.rowsAlive || id == notDeletedId) := by
  unfold DeleteScan.next DeleteScan.share DeleteScan.compare
  split_ifs <;> simp_all

theorem next_deletesPending :
    (s.next lowest id).deletesPending = (s.deletesPending || id != notDeletedId && decide (lowest ≤ id)) := by
  unfold DeleteScan.next DeleteScan.share DeleteScan.compare
  split_ifs <;> simp_all

theorem next_deletesUncommitted : (s.next lowest id).deletesUncommitted =
    (s.deletesUncommitted || id != notDeletedId && decide (lowest ≤ id) && decide (transactionIdStart ≤ id)) := by
  unfold DeleteScan.next DeleteScan.share DeleteScan.compare
  by_cases hid : id = notDeletedId
  · simp [hid]
  · have hne : (id != notDeletedId) = true := by simpa using hid
    rw [hne]
    split_ifs <;> simp_all

theorem next_maxDeleteId : (s.next lowest id).maxDeleteId =
    if id ≠ notDeletedId ∧ id < lowest then max s.maxDeleteId id else s.maxDeleteId := by
  unfold DeleteScan.next DeleteScan.share DeleteScan.compare
  split_ifs <;> first | rfl | (exfalso; omega)

theorem next_sharedDeleteId : (s.next lowest id).sharedDeleteId =
    if id ≠ notDeletedId ∧ s.sharedDeleteId = notDeletedId then id else s.sharedDeleteId := by
  unfold DeleteScan.next DeleteScan.share DeleteScan.compare
  split_ifs <;> simp_all

theorem next_deletesEqual : (s.next lowest id).deletesEqual =
    (s.deletesEqual && (id == notDeletedId || s.sharedDeleteId == notDeletedId || id == s.sharedDeleteId)) := by
  unfold DeleteScan.next DeleteScan.share DeleteScan.compare
  split_ifs <;> simp_all

end Scan

/-- What the variables of the scan say about the ids it has seen. -/
structure ScanInv (lowest : Nat) (ids : List Nat) (s : DeleteScan) : Prop where
  alive : s.rowsAlive = false → ∀ id ∈ ids, id ≠ notDeletedId
  pending : s.deletesPending = false → ∀ id ∈ ids, id ≠ notDeletedId → id < lowest
  uncommitted : s.deletesUncommitted = false → ∀ id ∈ ids, id ≠ notDeletedId → lowest ≤ id → id < transactionIdStart
  max : s.maxDeleteId = 0 ∨ s.maxDeleteId < lowest ∧ s.maxDeleteId ≠ notDeletedId ∧ s.maxDeleteId ∈ ids
  shared : s.sharedDeleteId = notDeletedId → ∀ id ∈ ids, id = notDeletedId
  equal : s.deletesEqual = true → ∀ id ∈ ids, id ≠ notDeletedId → id = s.sharedDeleteId

theorem ScanInv.init (lowest : Nat) : ScanInv lowest [] {} :=
  ⟨by simp, by simp, by simp, .inl rfl, by simp, by simp⟩

theorem ScanInv.next {lowest : Nat} {ids : List Nat} {s : DeleteScan} (h : ScanInv lowest ids s) (id : Nat) :
    ScanInv lowest (ids ++ [id]) (s.next lowest id) := by
  have hmem : ∀ {P : Nat → Prop}, (∀ x ∈ ids, P x) → P id → ∀ x ∈ ids ++ [id], P x := by
    intro P h1 h2 x hx
    rcases mem_append.1 hx with hx | hx
    · exact h1 x hx
    · rw [mem_singleton.1 hx]
      exact h2
  refine ⟨fun ha => ?_, fun hp => ?_, fun hu => ?_, ?_, fun hs => ?_, fun he => ?_⟩
  · rw [next_rowsAlive, Bool.or_eq_false_iff] at ha
    exact hmem (h.alive ha.1) (by simpa using ha.2)
  · rw [next_deletesPending, Bool.or_eq_false_iff] at hp
    refine hmem (h.pending hp.1) fun hne => ?_
    simpa [hne] using hp.2
  · rw [next_deletesUncommitted, Bool.or_eq_false_iff] at hu
    refine hmem (h.uncommitted hu.1) fun hne hle => ?_
    simpa [hne, hle] using hu.2
  · rw [next_maxDeleteId]
    split
    · next hid =>
      rcases Nat.le_total s.maxDeleteId id with hle | hle
      · rw [Nat.max_eq_right hle]
        exact .inr ⟨hid.2, hid.1, mem_append_right _ (mem_singleton.2 rfl)⟩
      · rw [Nat.max_eq_left hle]
        exact h.max.imp_right fun hm => ⟨hm.1, hm.2.1, mem_append_left _ hm.2.2⟩
    · exact h.max.imp_right fun hm => ⟨hm.1, hm.2.1, mem_append_left _ hm.2.2⟩
  · rw [next_sharedDeleteId] at hs
    split at hs
    · next hid => exact absurd hs hid.1
    · next hid => exact hmem (h.shared hs) (by_contra fun hne => hid ⟨hne, hs⟩)
  · rw [next_deletesEqual, Bool.and_eq_true] at he
    rw [next_sharedDeleteId]
    split
    · next hid => exact hmem (fun x hx hne => absurd (h.shared hid.2 x hx) hne) fun _ => rfl
    · next hid =>
      refine hmem (h.equal he.1) fun hne => ?_
      have hsome : s.sharedDeleteId ≠ notDeletedId := fun hs => hid ⟨hne, hs⟩
      simpa [hne, hsome] using he.2

theorem scanInv_foldl (lowest : Nat) : ∀ (l ids : List Nat) (s : DeleteScan), ScanInv lowest ids s →
    ScanInv lowest (ids ++ l) (l.foldl (DeleteScan.next lowest) s)
  | [], ids, s, h => by rwa [append_nil]
  | id :: l, ids, s, h => by
    rw [foldl_cons, append_cons]
    exact scanInv_foldl lowest l (ids ++ [id]) (s.next lowest id) (h.next id)

theorem scanInv_vector (N lowest : Nat) (ids : Nat → Nat) :
    ScanInv lowest ((range N).map ids) (((range N).map ids).foldl (DeleteScan.next lowest) {}) := by
  have h := scanInv_foldl lowest ((range N).map ids) [] {} (ScanInv.init lowest)
  rwa [nil_append] at h

/-! ## What compression does to an id -/

/-- An id before and after a compression: unchanged, or a delete below the bound that stays one. -/
def Folded (lowest id id' : Nat) : Prop :=
  id' = id ∨ id < lowest ∧ id' < lowest ∧ id ≠ notDeletedId ∧ id' ≠ notDeletedId

theorem Folded.refl (lowest id : Nat) : Folded lowest id id := .inl rfl

theorem zero_ne_notDeletedId : 0 ≠ notDeletedId := by decide

variable {N row lowest id id' transactionId count : Nat} {t : TransactionData} {info info' : ChunkVectorInfo}
  {rows : Nat → Nat}

theorem compressDeletes_deleteId_cases (info : ChunkVectorInfo) (lowest : Nat) (hrow : row < N) :
    (compressDeletes N lowest info).1.deleteId row = info.deleteId row ∨
    info.deleteId row < lowest ∧ info.deleteId row ≠ notDeletedId ∧
      ((compressDeletes N lowest info).1.deleteId row = 0 ∨ ∃ r < N,
        (compressDeletes N lowest info).1.deleteId row = info.deleteId r ∧ info.deleteId r < lowest ∧
          info.deleteId r ≠ notDeletedId) := by
  unfold compressDeletes
  rcases hd : info.deleted with id | ⟨mask, id⟩ | ids
  · exact .inl rfl
  · exact .inl rfl
  have hid : ∀ r, info.deleteId r = ids r := fun r => by rw [deleteId, hd]
  have hmem : ids row ∈ (range N).map ids := mem_map_of_mem (mem_range.2 hrow)
  have h := scanInv_vector N lowest ids
  dsimp only
  generalize ((range N).map ids).foldl (DeleteScan.next lowest) {} = s at h ⊢
  split
  · next hc =>
    -- every row is deleted and below the bound, and the constant is the largest of these ids
    obtain ⟨ha, hp⟩ : s.rowsAlive = false ∧ s.deletesPending = false := by simpa using hc
    have hne := h.alive ha _ hmem
    refine .inr ⟨hid row ▸ h.pending hp _ hmem hne, hid row ▸ hne, ?_⟩
    rcases h.max with hz | ⟨hlt, hne', hin⟩
    · exact .inl hz
    · obtain ⟨r, hr, hrid⟩ := mem_map.1 hin
      refine .inr ⟨r, mem_range.1 hr, ?_⟩
      rw [hid r, hrid]
      exact ⟨rfl, hlt, hne'⟩
  · split
    · exact .inl rfl
    · split
      · next hp =>
        have hp : s.deletesPending = false := by simpa using hp
        rw [compressDeleteToMask_deleteId hd 0 hrow]
        split
        · next hn => exact .inl hn.symm
        · next hn => exact .inr ⟨hid row ▸ h.pending hp _ hmem (hid row ▸ hn), hn, .inl rfl⟩
      · split
        · next he =>
          have he : s.deletesEqual = true := by simp at he; exact he.1
          rw [compressDeleteToMask_deleteId hd _ hrow]
          split
          · next hn => exact .inl hn.symm
          · next hn => exact .inl (hid row ▸ (h.equal he _ hmem (hid row ▸ hn)).symm)
        · exact .inl rfl

theorem compressDeletes_deleteId (info : ChunkVectorInfo) (lowest : Nat) (hrow : row < N) :
    Folded lowest (info.deleteId row) ((compressDeletes N lowest info).1.deleteId row) := by
  rcases compressDeletes_deleteId_cases info lowest hrow with h | ⟨hlt, hne, h | ⟨r, -, h, hrlt, hrne⟩⟩
  · exact .inl h
  · rw [h]
    exact .inr ⟨hlt, Nat.zero_lt_of_lt hlt, hne, zero_ne_notDeletedId⟩
  · rw [h]
    exact .inr ⟨hlt, hrlt, hne, hrne⟩

theorem compressDeletes_insertedData (N lowest : Nat) (info : ChunkVectorInfo) :
    (compressDeletes N lowest info).1.insertedData = info.insertedData ∧
      (compressDeletes N lowest info).1.constantInsertId = info.constantInsertId := by
  have hmask : ∀ id, (info.compressDeleteToMask N id).insertedData = info.insertedData ∧
      (info.compressDeleteToMask N id).constantInsertId = info.constantInsertId := by
    intro id
    unfold compressDeleteToMask
    split <;> exact ⟨rfl, rfl⟩
  unfold compressDeletes
  split
  · dsimp only
    split
    · exact ⟨rfl, rfl⟩
    · split
      · exact ⟨rfl, rfl⟩
      · split
        · exact hmask 0
        · split
          · exact hmask _
          · exact ⟨rfl, rfl⟩
  · exact ⟨rfl, rfl⟩

theorem compressInserts_cases (N lowest : Nat) (info : ChunkVectorInfo) :
    (compressInserts N lowest info).1 = info ∨
      (∀ r < N, info.insertId r < lowest) ∧
        (compressInserts N lowest info).1 = { info with insertedData := none, constantInsertId := 0 } := by
  unfold compressInserts
  cases hi : info.insertedData with
  | none => exact .inl rfl
  | some inserted =>
    dsimp only
    split
    · next hall =>
      refine .inr ⟨fun r hr => ?_, rfl⟩
      have h := all_eq_true.1 hall r (mem_range.2 hr)
      rw [insertId, hi]
      simpa using h
    · exact .inl rfl

theorem compressVersionIds_eq (N lowest : Nat) (info : ChunkVectorInfo) :
    (info.compressVersionIds N lowest).1 = info ∨ ∃ b, (info.compressVersionIds N lowest).1 =
      { (compressInserts N lowest (compressDeletes N lowest info).1).1 with recheckCompression := b } := by
  unfold compressVersionIds
  dsimp only
  split
  · exact .inl rfl
  · exact .inr ⟨_, rfl⟩

theorem compressInserts_deleteId (N lowest : Nat) (info : ChunkVectorInfo) :
    (compressInserts N lowest info).1.deleteId = info.deleteId := by
  rcases compressInserts_cases N lowest info with h | ⟨-, h⟩
  · rw [h]
  · rw [h]
    rfl

theorem compressVersionIds_deleteId (info : ChunkVectorInfo) (lowest : Nat) (hrow : row < N) :
    Folded lowest (info.deleteId row) ((info.compressVersionIds N lowest).1.deleteId row) := by
  rcases compressVersionIds_eq N lowest info with h | ⟨b, h⟩
  · rw [h]
    exact .refl ..
  · have hd : (info.compressVersionIds N lowest).1.deleteId = (compressDeletes N lowest info).1.deleteId := by
      rw [h]
      exact compressInserts_deleteId N lowest _
    rw [hd]
    exact compressDeletes_deleteId info lowest hrow

theorem compressVersionIds_deleteId_le (info : ChunkVectorInfo) {bound : Nat}
    (hb : ∀ r < N, info.deleteId r < lowest → info.deleteId r ≤ bound) (hrow : row < N) :
    (info.compressVersionIds N lowest).1.deleteId row = info.deleteId row ∨
      (info.compressVersionIds N lowest).1.deleteId row ≤ bound := by
  rcases compressVersionIds_eq N lowest info with h | ⟨b, h⟩
  · exact .inl (by rw [h])
  · have hd : (info.compressVersionIds N lowest).1.deleteId = (compressDeletes N lowest info).1.deleteId := by
      rw [h]
      exact compressInserts_deleteId N lowest _
    rw [hd]
    rcases compressDeletes_deleteId_cases info lowest hrow with h | ⟨-, -, h | ⟨r, hr, h, hlt, -⟩⟩
    · exact .inl h
    · exact .inr (h ▸ Nat.zero_le bound)
    · exact .inr (h ▸ hb r hr hlt)

theorem compressVersionIds_inserted (N lowest : Nat) (info : ChunkVectorInfo) :
    ((info.compressVersionIds N lowest).1.insertId = info.insertId ∧
      (info.compressVersionIds N lowest).1.insertedData = info.insertedData) ∨
    (∀ r < N, info.insertId r < lowest) ∧ (info.compressVersionIds N lowest).1.insertId = (fun _ => 0) ∧
      (info.compressVersionIds N lowest).1.insertedData = none := by
  rcases compressVersionIds_eq N lowest info with h | ⟨b, h⟩
  · exact .inl (by rw [h]; exact ⟨rfl, rfl⟩)
  · obtain ⟨h1, h2⟩ := compressDeletes_insertedData N lowest info
    have hid : (compressDeletes N lowest info).1.insertId = info.insertId := by
      funext r
      simp only [insertId, h1, h2]
    rcases compressInserts_cases N lowest (compressDeletes N lowest info).1 with hc | ⟨hlt, hc⟩
    · refine .inl ?_
      rw [h, hc]
      exact ⟨hid, h1⟩
    · refine .inr ⟨hid ▸ hlt, ?_⟩
      rw [h, hc]
      exact ⟨rfl, rfl⟩

/-! ## Scans do not see it -/

theorem useVersion_of_lt (h : lowest ≤ t.startTime) (hid : id < lowest) :
    useVersion t id = true := by
  have hlt : id < t.startTime := by omega
  simp [useVersion, hlt]

theorem Folded.useVersion_eq (h : lowest ≤ t.startTime)
    (hf : Folded lowest id id') : useVersion t id' = useVersion t id := by
  rcases hf with rfl | ⟨h1, h2, -, -⟩
  · rfl
  · rw [useVersion_of_lt h h1, useVersion_of_lt h h2]

theorem compressVersionIds_visible (info : ChunkVectorInfo)
    (h : lowest ≤ t.startTime) (hrow : row < N) :
    (info.compressVersionIds N lowest).1.visible t row = info.visible t row := by
  have hdel := (compressVersionIds_deleteId info lowest hrow).useVersion_eq h
  have hins : useVersion t ((info.compressVersionIds N lowest).1.insertId row) = useVersion t (info.insertId row) := by
    rcases compressVersionIds_inserted N lowest info with ⟨he, -⟩ | ⟨hlt, he, -⟩
    · rw [he]
    · have hlt := hlt row hrow
      rw [he, useVersion_of_lt h hlt, useVersion_of_lt h (Nat.zero_lt_of_lt hlt)]
  rw [visible, visible, hdel, hins]

theorem selected_congr {maxCount : Nat}
    (h : ∀ row < maxCount, info'.visible t row = info.visible t row) :
    info'.selected ⟨t, .standard, .standard⟩ maxCount = info.selected ⟨t, .standard, .standard⟩ maxCount :=
  filter_congr fun row hrow => h row (mem_range.1 hrow)

/-! ## Deletes do not see it -/

theorem Folded.eq_iff (hf : Folded lowest id id') (h : lowest ≤ transactionId) :
    id' = transactionId ↔ id = transactionId := by
  rcases hf with rfl | ⟨h1, h2, -, -⟩
  · rfl
  · omega

theorem Folded.eq_notDeletedId_iff (hf : Folded lowest id id') :
    id' = notDeletedId ↔ id = notDeletedId := by
  rcases hf with rfl | ⟨-, -, h3, h4⟩
  · rfl
  · exact iff_of_false h4 h3

theorem deleteLoop_folded {N lowest transactionId : Nat} (hlow : lowest ≤ transactionId) :
    ∀ {remaining i k : Nat} {deleted deleted' rows : Nat → Nat},
    (∀ row < N, Folded lowest (deleted row) (deleted' row)) → (∀ j < i + remaining, rows j < N) →
    (deleteLoop transactionId remaining i deleted' rows k).2 =
      (deleteLoop transactionId remaining i deleted rows k).2 ∧
    ∀ row < N, Folded lowest ((deleteLoop transactionId remaining i deleted rows k).1 row)
      ((deleteLoop transactionId remaining i deleted' rows k).1 row)
  | 0, i, k, deleted, deleted', rows, hf, _ => ⟨rfl, hf⟩
  | remaining + 1, i, k, deleted, deleted', rows, hf, hrows => by
    have hi := hf (rows i) (hrows i (by omega))
    unfold deleteLoop
    by_cases hid : deleted (rows i) = transactionId
    · rw [if_pos hid, if_pos ((hi.eq_iff hlow).2 hid)]
      exact deleteLoop_folded hlow hf fun j hj => hrows j (by omega)
    · rw [if_neg hid, if_neg fun h => hid ((hi.eq_iff hlow).1 h)]
      by_cases hnd : deleted (rows i) = notDeletedId
      · rw [if_neg (not_not.2 hnd), if_neg (not_not.2 (hi.eq_notDeletedId_iff.2 hnd))]
        refine deleteLoop_folded hlow (fun row hrow => ?_) fun j hj => ?_
        · by_cases hr : row = rows i
          · rw [hr, update_self, update_self]
            exact .refl ..
          · rw [update_of_ne hr, update_of_ne hr]
            exact hf row hrow
        · by_cases hjk : j = k
          · rw [hjk, update_self]
            exact hrows i (by omega)
          · rw [update_of_ne hjk]
            exact hrows j (by omega)
      · rw [if_pos hnd, if_pos fun h => hnd (hi.eq_notDeletedId_iff.1 h)]
        refine ⟨rfl, fun row hrow => ?_⟩
        have hfold : ∀ f : Nat → Nat, (range i).foldl (fun d k => update d (rows k) notDeletedId) f =
            ((range i).map rows).foldl (fun ids r => update ids r notDeletedId) f := fun f => by
          rw [foldl_map]
        dsimp only
        rw [hfold, hfold, foldl_update, foldl_update]
        split
        · exact .refl ..
        · exact hf row hrow

theorem deleteRows_folded
    (hlow : lowest ≤ transactionId) (hrows : ∀ i < count, rows i < N)
    (hf : ∀ row < N, Folded lowest (info.deleteId row) (info'.deleteId row)) :
    (info'.deleteRows transactionId rows count).result = (info.deleteRows transactionId rows count).result ∧
    (info'.deleteRows transactionId rows count).rows = (info.deleteRows transactionId rows count).rows ∧
    ∀ row < N, Folded lowest ((info.deleteRows transactionId rows count).info.deleteId row)
      ((info'.deleteRows transactionId rows count).info.deleteId row) := by
  have hrows' : ∀ j < 0 + count, rows j < N := fun j hj => hrows j (by omega)
  have hloop : _ ∧ _ := deleteLoop_folded hlow hf hrows' (k := 0)
  rw [← getInitializedDeletedPointer_eq, ← getInitializedDeletedPointer_eq] at hloop
  obtain ⟨hsame, hfold⟩ := hloop
  exact ⟨congrArg (·.2) hsame, congrArg (·.1) hsame, hfold⟩

/-- Two deletes end alike: the same return value or exception, the same row array, and delete ids
that differ by a compression. -/
structure SameDelete (N lowest : Nat) (r r' : DeleteResult) : Prop where
  result : r'.result = r.result
  rows : r'.rows = r.rows
  folded : ∀ row < N, Folded lowest (r.info.deleteId row) (r'.info.deleteId row)

theorem delete_constant_conflict
    {ids : Nat → Nat} (hlow : lowest ≤ transactionId) (hcount : 0 < count)
    (hrows : ∀ i < count, rows i < N) (hids : info.deleted = .array ids) (hconst : info'.deleted = .constant id)
    (hf : ∀ row < N, Folded lowest (info.deleteId row) (info'.deleteId row)) (hid : id < lowest ∧ id ≠ notDeletedId) :
    SameDelete N lowest (info.delete N transactionId rows count) (info'.delete N transactionId rows count) := by
  obtain ⟨n, rfl⟩ : ∃ n, count = n + 1 := ⟨count - 1, by omega⟩
  have hrow := hf (rows 0) (hrows 0 (by omega))
  have hnew : info'.deleteId (rows 0) = id := by rw [deleteId, hconst]
  have hold : info.deleteId (rows 0) = ids (rows 0) := by rw [deleteId, hids]
  have hne : ids (rows 0) ≠ transactionId := fun h => by
    have := (hrow.eq_iff hlow).2 (hold.trans h)
    omega
  have hnd : ids (rows 0) ≠ notDeletedId := fun h => hid.2 (hnew ▸ hrow.eq_notDeletedId_iff.2 (hold.trans h))
  have hidne : id ≠ transactionId := by omega
  have hloop : info.deleteRows transactionId rows (n + 1) =
      ⟨{ info with recheckCompression := true, deleted := .array ids }, rows, .error .conflictOnTupleDeletion⟩ := by
    simp [deleteRows, deleteLoop, getInitializedDeletedPointer, hids, hne, hnd]
  have hnewdel : info'.delete N transactionId rows (n + 1) = ⟨info', rows, .error .conflictOnTupleDeletion⟩ := by
    simp [delete, hconst, hid.2, hidne]
  have holddel : info.delete N transactionId rows (n + 1) = info.deleteRows transactionId rows (n + 1) := by
    simp [delete, hids]
  rw [holddel, hloop, hnewdel]
  refine ⟨rfl, rfl, fun row hr => ?_⟩
  have h := hf row hr
  rwa [deleteId, hids] at h

theorem delete_of_not_constant (h : info.hasConstantDeleteId = false)
    (transactionId : Nat) (rows : Nat → Nat) (count : Nat) :
    info.delete N transactionId rows count = info.deleteRows transactionId rows count := by
  unfold hasConstantDeleteId at h
  unfold delete
  split
  · next hd => simp [hd] at h
  · rfl

theorem compressDeletes_deleted (N lowest : Nat) (info : ChunkVectorInfo) :
    (compressDeletes N lowest info).1.deleted = info.deleted ∨
    (∃ ids, info.deleted = .array ids) ∧
      ((compressDeletes N lowest info).1.hasConstantDeleteId = false ∨
        ∃ id, (compressDeletes N lowest info).1.deleted = .constant id ∧ (0 < N → id < lowest ∧ id ≠ notDeletedId)) := by
  unfold compressDeletes
  rcases hd : info.deleted with id | ⟨mask, id⟩ | ids
  · exact .inl hd
  · exact .inl hd
  have hmask : ∀ id, (info.compressDeleteToMask N id).hasConstantDeleteId = false := fun id => by
    simp [hasConstantDeleteId, compressDeleteToMask, hd]
  have h := scanInv_vector N lowest ids
  dsimp only
  generalize ((range N).map ids).foldl (DeleteScan.next lowest) {} = s at h ⊢
  split
  · next hc =>
    obtain ⟨ha, hp⟩ : s.rowsAlive = false ∧ s.deletesPending = false := by simpa using hc
    refine .inr ⟨⟨ids, rfl⟩, .inr ⟨s.maxDeleteId, rfl, fun hN => ?_⟩⟩
    have hmem : ids 0 ∈ (range N).map ids := mem_map_of_mem (mem_range.2 hN)
    have hlt := h.pending hp _ hmem (h.alive ha _ hmem)
    rcases h.max with hz | ⟨hz, hne, -⟩
    · exact hz ▸ ⟨Nat.zero_lt_of_lt hlt, zero_ne_notDeletedId⟩
    · exact ⟨hz, hne⟩
  · split
    · exact .inl hd
    · split
      · exact .inr ⟨⟨ids, rfl⟩, .inl (hmask 0)⟩
      · split
        · exact .inr ⟨⟨ids, rfl⟩, .inl (hmask _)⟩
        · exact .inl hd

theorem compressVersionIds_deleted (N lowest : Nat) (info : ChunkVectorInfo) :
    (info.compressVersionIds N lowest).1.deleted = info.deleted ∨
      (info.compressVersionIds N lowest).1.deleted = (compressDeletes N lowest info).1.deleted := by
  rcases compressVersionIds_eq N lowest info with h | ⟨b, h⟩
  · exact .inl (by rw [h])
  · refine .inr ?_
    rw [h]
    rcases compressInserts_cases N lowest (compressDeletes N lowest info).1 with hc | ⟨-, hc⟩ <;> rw [hc]

theorem delete_congr
    (hlow : lowest ≤ transactionId) (hrows : ∀ i < count, rows i < N) (h : info'.deleted = info.deleted) :
    SameDelete N lowest (info.delete N transactionId rows count) (info'.delete N transactionId rows count) := by
  have hid : info'.deleteId = info.deleteId := by
    funext row
    simp only [deleteId, h]
  have hf : ∀ row < N, Folded lowest (info.deleteId row) (info'.deleteId row) := fun row _ => hid ▸ .refl ..
  obtain ⟨h1, h2, h3⟩ := deleteRows_folded hlow hrows hf
  unfold delete
  rw [h]
  rcases info.deleted with id | ⟨mask, id⟩ | ids
  · dsimp only
    split
    · exact ⟨rfl, rfl, hf⟩
    · split
      · exact ⟨rfl, rfl, fun row _ => .refl ..⟩
      · exact ⟨h1, h2, h3⟩
  · exact ⟨h1, h2, h3⟩
  · exact ⟨h1, h2, h3⟩

theorem delete_compressVersionIds (info : ChunkVectorInfo)
    (hlow : lowest ≤ transactionId) (hcount : 0 < count) (hrows : ∀ i < count, rows i < N) :
    SameDelete N lowest (info.delete N transactionId rows count)
      ((info.compressVersionIds N lowest).1.delete N transactionId rows count) := by
  have hf : ∀ row < N, Folded lowest (info.deleteId row) ((info.compressVersionIds N lowest).1.deleteId row) :=
    fun row hrow => compressVersionIds_deleteId info lowest hrow
  rcases compressVersionIds_deleted N lowest info with hsame | hcomp
  · exact delete_congr hlow hrows hsame
  · rcases compressDeletes_deleted N lowest info with hsame | ⟨⟨ids, hids⟩, hnot | ⟨id, hconst, hid⟩⟩
    · exact delete_congr hlow hrows (hcomp.trans hsame)
    · -- the ids went to a mask: both deletes work on per-row ids
      have hold : info.hasConstantDeleteId = false := by simp [hasConstantDeleteId, hids]
      have hnew : (info.compressVersionIds N lowest).1.hasConstantDeleteId = false := by
        rwa [hasConstantDeleteId, hcomp]
      rw [delete_of_not_constant hold, delete_of_not_constant hnew]
      obtain ⟨h1, h2, h3⟩ := deleteRows_folded hlow hrows hf
      exact ⟨h1, h2, h3⟩
    · exact delete_constant_conflict hlow hcount hrows hids (hcomp.trans hconst) hf
        (hid (Nat.zero_lt_of_lt (hrows 0 hcount)))

/-! ## Cleanup -/

/-- Where `Cleanup` allows it, every row is visible to the snapshots at or after the bound, given that
the insert ids do not decrease and none of them is the snapshot's start time. -/
theorem visible_of_cleanup (h : info.cleanup N lowest = true)
    (hmono : ∀ i j, i ≤ j → j < N → info.insertId i ≤ info.insertId j) (hN : info.insertedData.isSome → 2 ≤ N)
    {t : Snapshot} (hlow : lowest ≤ t.startTime) (hrow : row < N) (hne : info.insertId row ≠ t.startTime) :
    info.visible t.toTransactionData row = true := by
  unfold cleanup at h
  split at h
  · cases h
  next hany =>
  have hdel : info.deleteId row = notDeletedId := by
    unfold anyDeleted at hany
    unfold deleteId
    rcases hd : info.deleted with id | ⟨mask, id⟩ | ids
    · rw [hd] at hany
      simpa using hany
    · simp [hd] at hany
    · simp [hd] at hany
  have hins : info.insertId row ≤ lowest := by
    cases hi : info.insertedData with
    | none =>
      rw [hi] at h
      rw [insertId, hi]
      simpa using h
    | some inserted =>
      rw [hi] at h
      have hall : ∀ idx, 1 ≤ idx → idx < N → info.insertId idx ≤ lowest := by
        intro idx h1 h2
        have := all_eq_true.1 h idx (mem_range'_1.2 (by omega))
        rw [insertId, hi]
        simpa using this
      have hN := hN (by simp [hi])
      -- the loop skips the first row, whose id is at most the second one's
      rcases Nat.eq_zero_or_pos row with h0 | hpos
      · subst h0
        exact Nat.le_trans (hmono 0 1 (by omega) (by omega)) (hall 1 (by omega) (by omega))
      · exact hall row hpos hrow
  have hlt : info.insertId row < t.startTime := by omega
  rw [visible, hdel, not_useVersion_notDeletedId]
  simp [useVersion, hlt]

end Haybarn.Version.ChunkVectorInfo
