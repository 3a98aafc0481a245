/-
What holds in every row group: the rows of an open append carry the id of its transaction, every
other row a commit id, and per-row insert ids exist only where the vector has rows. The insert ids of
a row group are looked at row by row; each call is described by what it does to them.
-/
import Haybarn.Version.Compress
import Haybarn.Version.Manager
import Mathlib.Data.List.Nodup

namespace Haybarn.Version

open Transaction Common List
open ChunkVectorInfo (StoredInfo DeleteInfo)

namespace RowVersionManager

/-! ## The entries of vector_info -/

theorem getChunkInfo_fillVectorInfo (m : RowVersionManager) (v w : Nat) :
    (m.fillVectorInfo v).getChunkInfo w = m.getChunkInfo w := by
  unfold getChunkInfo fillVectorInfo
  dsimp only
  rw [getElem?_append]
  split
  · rfl
  · next h =>
    rw [getElem?_eq_none (by omega : m.vectorInfo.length ≤ w), getElem?_replicate]
    split <;> rfl

theorem getChunkInfo_setInfo (m : RowVersionManager) (v w : Nat) (info : Option ChunkVectorInfo) :
    (m.setInfo v info).getChunkInfo w = if w = v then info else m.getChunkInfo w := by
  by_cases h : w = v
  · subst h
    have hlen : w < (m.fillVectorInfo w).vectorInfo.length := by
      simp only [fillVectorInfo, length_append, length_replicate]
      omega
    simp [getChunkInfo, setInfo, hlen]
  · rw [if_neg h, ← getChunkInfo_fillVectorInfo m v w]
    simp only [getChunkInfo, setInfo]
    rw [getElem?_set_ne (Ne.symm h)]

theorem getChunkInfo_foldl {f : RowVersionManager → Nat → RowVersionManager}
    {g : Nat → Option ChunkVectorInfo → Option ChunkVectorInfo}
    (hf : ∀ m v w, (f m v).getChunkInfo w = if w = v then g v (m.getChunkInfo v) else m.getChunkInfo w) :
    ∀ {l : List Nat} (m : RowVersionManager), l.Nodup → ∀ w,
      (l.foldl f m).getChunkInfo w = if w ∈ l then g w (m.getChunkInfo w) else m.getChunkInfo w
  | [], m, _, w => by simp
  | v :: l, m, hn, w => by
    obtain ⟨hv, hl⟩ := nodup_cons.1 hn
    rw [foldl_cons, getChunkInfo_foldl hf (f m v) hl w, hf]
    by_cases hw : w = v
    · subst hw
      simp [hv]
    · simp [hw]

/-! ## The vectors of a range of rows -/

variable {N v a b : Nat}

theorem row_div {r : Nat} (hr : r < N) : (v * N + r) / N = v := by
  rw [Nat.mul_comm, Nat.mul_add_div (by omega), Nat.div_eq_of_lt hr, Nat.add_zero]

theorem row_mod {r : Nat} (hr : r < N) : (v * N + r) % N = r := by
  rw [Nat.mul_comm, Nat.mul_add_mod, Nat.mod_eq_of_lt hr]

theorem mem_vectorsOf : v ∈ vectorsOf N a b ↔ a / N ≤ v ∧ v ≤ (b - 1) / N := by
  unfold vectorsOf
  rw [mem_range'_1]
  omega

theorem nodup_vectorsOf (N a b : Nat) : (vectorsOf N a b).Nodup := nodup_range' ..

theorem vectorRange_iff {r : Nat} (hN : 0 < N) (hab : a < b) (hv : v ∈ vectorsOf N a b) (hr : r < N) :
    (vectorRange N a b v).1 ≤ r ∧ r < (vectorRange N a b v).2 ↔ a ≤ v * N + r ∧ v * N + r < b := by
  obtain ⟨h1, h2⟩ := mem_vectorsOf.1 hv
  have ha : a / N * N ≤ a := Nat.div_mul_le_self a N
  have ha' : a < a / N * N + N := Nat.lt_div_mul_add hN
  have hb : (b - 1) / N * N ≤ b - 1 := Nat.div_mul_le_self (b - 1) N
  unfold vectorRange
  dsimp only
  refine and_congr ?_ ?_
  · split
    · next h => rw [h]; omega
    · next h =>
      have hle : (a / N + 1) * N ≤ v * N := Nat.mul_le_mul_right N (by omega)
      rw [Nat.succ_mul] at hle
      omega
  · split
    · next h => rw [h]; omega
    · next h =>
      have hle : (v + 1) * N ≤ (b - 1) / N * N := Nat.mul_le_mul_right N (by omega)
      rw [Nat.succ_mul] at hle
      omega

theorem vectorRange_le (hN : 0 < N) (_ : a < b) : (vectorRange N a b v).2 ≤ N := by
  have hb : b - 1 < (b - 1) / N * N + N := Nat.lt_div_mul_add hN
  unfold vectorRange
  dsimp only
  split <;> omega

theorem vectorRange_lt (hN : 0 < N) (hab : a < b) (hv : v ∈ vectorsOf N a b) :
    (vectorRange N a b v).1 < (vectorRange N a b v).2 := by
  obtain ⟨h1, h2⟩ := mem_vectorsOf.1 hv
  have ha : a / N * N ≤ a := Nat.div_mul_le_self a N
  have ha' : a < a / N * N + N := Nat.lt_div_mul_add hN
  have hb : (b - 1) / N * N ≤ b - 1 := Nat.div_mul_le_self (b - 1) N
  unfold vectorRange
  dsimp only
  split
  · next h =>
    split
    · next h' => rw [← h', h]; omega
    · omega
  · split <;> omega

theorem mem_vectorsOf_of_row {row : Nat} (ha : a ≤ row) (hb : row < b) : row / N ∈ vectorsOf N a b :=
  mem_vectorsOf.2 ⟨Nat.div_le_div_right ha, Nat.div_le_div_right (by omega)⟩

/-! ## What the calls do to a vector -/

/-- The info an append leaves for a vector. -/
def appendInfo (N transactionId a b v : Nat) (old : Option ChunkVectorInfo) : ChunkVectorInfo :=
  if (vectorRange N a b v).1 = 0 ∧ (vectorRange N a b v).2 = N then { start := v * N, constantInsertId := transactionId }
  else (old.getD { start := v * N }).append (vectorRange N a b v).1 (vectorRange N a b v).2 transactionId

theorem getChunkInfo_appendVersionInfo (N : Nat) (m : RowVersionManager) (transactionId a b w : Nat) :
    (m.appendVersionInfo N transactionId a b).getChunkInfo w =
      if w ∈ vectorsOf N a b then some (appendInfo N transactionId a b w (m.getChunkInfo w)) else m.getChunkInfo w := by
  have hf : ∀ (m : RowVersionManager) (v w : Nat), (appendVector N transactionId a b m v).getChunkInfo w =
      if w = v then some (appendInfo N transactionId a b v (m.getChunkInfo v)) else m.getChunkInfo w := by
    intro m v w
    unfold appendVector appendInfo
    dsimp only
    split
    · exact getChunkInfo_setInfo ..
    · exact getChunkInfo_setInfo ..
  have hstart : ∀ w, ({ m.fillVectorInfo ((b - 1) / N) with needsCompressionCheck := true } :
      RowVersionManager).getChunkInfo w = m.getChunkInfo w := getChunkInfo_fillVectorInfo m _
  unfold appendVersionInfo
  rw [getChunkInfo_foldl (g := fun v old => some (appendInfo N transactionId a b v old)) hf _ (nodup_vectorsOf N a b),
    hstart]

theorem getChunkInfo_commitAppend (m : RowVersionManager) (commitId a : Nat) {count : Nat} (hc : 0 < count)
    (w : Nat) : (m.commitAppend N commitId a count).getChunkInfo w =
      if w ∈ vectorsOf N a (a + count) then (m.getChunkInfo w).map fun info =>
        info.commitAppend commitId (vectorRange N a (a + count) w).1 (vectorRange N a (a + count) w).2
      else m.getChunkInfo w := by
  have hf : ∀ (m : RowVersionManager) (v w : Nat), (commitVector N commitId a (a + count) m v).getChunkInfo w =
      if w = v then (m.getChunkInfo v).map fun info =>
        info.commitAppend commitId (vectorRange N a (a + count) v).1 (vectorRange N a (a + count) v).2
      else m.getChunkInfo w := by
    intro m v w
    unfold commitVector
    dsimp only
    split
    · next info h => rw [getChunkInfo_setInfo, h, Option.map_some]
    · next h =>
      rw [h, Option.map_none]
      split
      · next hw => rw [hw, h]
      · rfl
  unfold commitAppend
  rw [if_neg (by omega), getChunkInfo_foldl (g := fun v old => old.map fun info =>
    info.commitAppend commitId (vectorRange N a (a + count) v).1 (vectorRange N a (a + count) v).2) hf _
    (nodup_vectorsOf N a (a + count))]

theorem getChunkInfo_cleanupAppend (m : RowVersionManager) (lowest a : Nat) {count : Nat} (hc : 0 < count)
    (w : Nat) : (m.cleanupAppend N lowest a count).getChunkInfo w = m.getChunkInfo w ∨
      w ∈ vectorsOf N a (a + count) ∧ (vectorRange N a (a + count) w).2 = N ∧
        (∃ info, m.getChunkInfo w = some info ∧ info.cleanup N lowest = true) ∧
        (m.cleanupAppend N lowest a count).getChunkInfo w = none := by
  have hf : ∀ (m : RowVersionManager) (v w : Nat), (cleanupVector N lowest a (a + count) m v).getChunkInfo w =
      if w = v then (if (vectorRange N a (a + count) v).2 ≠ N then m.getChunkInfo v
        else (m.getChunkInfo v).filter fun info => !info.cleanup N lowest) else m.getChunkInfo w := by
    intro m v w
    unfold cleanupVector
    split
    · split
      · next hw => rw [hw]
      · rfl
    · split
      · next info h =>
        split
        · next hcl => rw [getChunkInfo_setInfo, h]; simp [Option.filter, hcl]
        · next hcl =>
          split
          · next hw => rw [hw, h]; simp [Option.filter, hcl]
          · rfl
      · next h =>
        split
        · next hw => rw [hw, h]; rfl
        · rfl
  have heq := getChunkInfo_foldl (g := fun v old => if (vectorRange N a (a + count) v).2 ≠ N then old
    else old.filter fun info => !info.cleanup N lowest) hf m (nodup_vectorsOf N a (a + count)) w
  unfold cleanupAppend
  rw [if_neg (by omega), heq]
  split
  · next hw =>
    split
    · exact .inl rfl
    · next hN =>
      cases hi : m.getChunkInfo w with
      | none => exact .inl rfl
      | some info =>
        by_cases hcl : info.cleanup N lowest = true
        · exact .inr ⟨hw, not_not.1 hN, ⟨info, rfl, hcl⟩, by simp [Option.filter, hcl]⟩
        · exact .inl (by simp [Option.filter, hcl])
  · exact .inl rfl

theorem getChunkInfo_revertAppend (N : Nat) (m : RowVersionManager) (newCount w : Nat) :
    (m.revertAppend N newCount).getChunkInfo w =
      if (newCount + (N - 1)) / N ≤ w then none else m.getChunkInfo w := by
  simp only [getChunkInfo, revertAppend, getElem?_mapIdx]
  cases m.vectorInfo[w]? with
  | none => simp
  | some info => split <;> simp [*]

theorem getChunkInfo_compressVersionIds (N : Nat) (m : RowVersionManager) (lowest w : Nat) :
    (m.compressVersionIds N lowest).getChunkInfo w = if m.needsCompressionCheck
      then (m.getChunkInfo w).map (fun info => (info.compressVersionIds N lowest).1) else m.getChunkInfo w := by
  unfold compressVersionIds
  cases m.needsCompressionCheck with
  | false => rfl
  | true =>
    simp only [Bool.not_true, Bool.false_eq_true, if_false, if_true, getChunkInfo, getElem?_map, map_map]
    cases m.vectorInfo[w]? with
    | none => rfl
    | some info => cases info <;> rfl

/-! ## Reading version information back -/

theorem readEntry_ok {m m' : RowVersionManager} {entry : Nat × StoredInfo}
    (h : m.readEntry N entry = .ok m') : ∃ info, ChunkVectorInfo.read N entry.2 = .ok info ∧
      m'.storagePointers = m.storagePointers ∧ m'.uncheckpointedDeleteCommit = m.uncheckpointedDeleteCommit ∧
      ∀ w, m'.getChunkInfo w = if w = entry.1 then info else m.getChunkInfo w := by
  unfold readEntry at h
  split at h
  · cases h
  · split at h
    · cases h
    · next info hr =>
      cases h
      exact ⟨info, hr, rfl, rfl, fun w => getChunkInfo_setInfo m entry.1 w info⟩

theorem foldlM_readEntry_forall {N : Nat} {P : ChunkVectorInfo → Prop}
    (hread : ∀ s info, ChunkVectorInfo.read N s = .ok (some info) → P info) :
    ∀ {entries : List (Nat × StoredInfo)} {m m' : RowVersionManager}, entries.foldlM (readEntry N) m = .ok m' →
      (∀ w info, m.getChunkInfo w = some info → P info) → ∀ w info, m'.getChunkInfo w = some info → P info
  | [], m, m', h, hm => by
    cases h
    exact hm
  | entry :: entries, m, m', h, hm => by
    rw [foldlM_cons] at h
    cases hr : m.readEntry N entry with
    | error e => rw [hr] at h; cases h
    | ok m₁ =>
      rw [hr] at h
      refine foldlM_readEntry_forall hread h fun w info hw => ?_
      obtain ⟨info', hread', -, -, hget⟩ := readEntry_ok hr
      rw [hget] at hw
      split at hw
      · exact hread _ _ (hw ▸ hread')
      · exact hm w info hw

theorem read_some {s : StoredInfo} {info : ChunkVectorInfo}
    (h : ChunkVectorInfo.read N s = .ok (some info)) : info.insertedData = none ∧ info.constantInsertId = 0 := by
  unfold ChunkVectorInfo.read at h
  split at h
  · cases h
  · cases h
    exact ⟨rfl, rfl⟩
  · split at h
    · cases h
    · cases h
      exact ⟨rfl, rfl⟩

theorem deserialize_some {stored : List (Nat × StoredInfo)} {m : RowVersionManager}
    (h : deserialize N stored = .ok (some m)) {w : Nat} {info : ChunkVectorInfo} (hw : m.getChunkInfo w = some info) :
    info.insertedData = none ∧ info.constantInsertId = 0 := by
  unfold deserialize at h
  split at h
  · cases h
  · cases hf : stored.foldlM (readEntry N) { storagePointers := stored } with
    | error e => rw [hf] at h; cases h
    | ok m' =>
      rw [hf] at h
      cases h
      exact foldlM_readEntry_forall (fun _ _ => read_some) hf (fun w info hw => by simp [getChunkInfo] at hw) w info hw

end RowVersionManager

namespace RowGroup

open RowVersionManager

/-! ## The invariant -/

/-- The invariant of a row group. Per-row insert ids exist only in vectors with rows. A row has a
commit id, or the id of the open append it lies in; the rows of an open append have its id. Open
appends have different transaction ids and lie below the row count. -/
structure Inv (N : Nat) (g : RowGroup) : Prop where
  inserted : ∀ v info, g.versionInfo.getChunkInfo v = some info → info.insertedData.isSome →
    v * N < g.count ∧ 2 ≤ N
  committed : ∀ v info r, g.versionInfo.getChunkInfo v = some info → r < N → v * N + r < g.count →
    info.insertId r < transactionIdStart ∨ ∃ p ∈ g.pending, p.covers (v * N + r) ∧ p.transactionId = info.insertId r
  opened : ∀ p ∈ g.pending, ∀ v r, r < N → p.covers (v * N + r) →
    ∃ info, g.versionInfo.getChunkInfo v = some info ∧ info.insertId r = p.transactionId
  ids : ∀ p ∈ g.pending, transactionIdStart ≤ p.transactionId
  distinct : g.pending.Pairwise (·.transactionId ≠ ·.transactionId)
  inside : ∀ p ∈ g.pending, 0 < p.count ∧ p.start + p.count ≤ g.count

theorem Inv.init (N : Nat) : Inv N {} := by
  refine ⟨?_, ?_, ?_, ?_, .nil, ?_⟩ <;> simp [getChunkInfo]

/-- A vector's insert ids are kept, or are all commit ids and become 0; a new info has insert id 0. -/
def VectorKept (N : Nat) (old new : Option ChunkVectorInfo) : Prop :=
  (old = none → ∀ i, new = some i → i.insertedData = none ∧ i.constantInsertId = 0) ∧
  ∀ i, old = some i → ∃ i', new = some i' ∧ ((i'.insertId = i.insertId ∧ i'.insertedData = i.insertedData) ∨
    (∀ r < N, i.insertId r < transactionIdStart) ∧ i'.insertId = (fun _ => 0) ∧ i'.insertedData = none)

theorem VectorKept.refl (N : Nat) (old : Option ChunkVectorInfo) : VectorKept N old old :=
  ⟨fun h _ hi => (nomatch h.symm.trans hi), fun i hi => ⟨i, hi, .inl ⟨rfl, rfl⟩⟩⟩

variable {info : ChunkVectorInfo} {N : Nat} {g : RowGroup} {p : PendingAppend}

theorem insertId_of_none (h : info.insertedData = none ∧ info.constantInsertId = 0) (r : Nat) :
    info.insertId r = 0 := by
  rw [ChunkVectorInfo.insertId, h.1]
  exact h.2

theorem zero_lt_transactionIdStart : 0 < transactionIdStart := by decide

theorem Inv.of_kept {m : RowVersionManager} (h : Inv N g)
    (hk : ∀ v, VectorKept N (g.versionInfo.getChunkInfo v) (m.getChunkInfo v)) : Inv N { g with versionInfo := m } := by
  refine ⟨fun v info hv hs => ?_, fun v info r hv hr hc => ?_, fun p hp v r hr hcov => ?_, h.ids, h.distinct, h.inside⟩
  · cases hold : g.versionInfo.getChunkInfo v with
    | none =>
      rw [((hk v).1 hold info hv).1] at hs
      cases hs
    | some old =>
      obtain ⟨info', hnew, ⟨-, hd⟩ | ⟨-, -, hd⟩⟩ := (hk v).2 old hold
      · obtain rfl : info' = info := Option.some.inj (hnew.symm.trans hv)
        exact h.inserted v old hold (hd ▸ hs)
      · obtain rfl : info' = info := Option.some.inj (hnew.symm.trans hv)
        rw [hd] at hs
        cases hs
  · cases hold : g.versionInfo.getChunkInfo v with
    | none =>
      rw [insertId_of_none ((hk v).1 hold info hv)]
      exact .inl zero_lt_transactionIdStart
    | some old =>
      obtain ⟨info', hnew, ⟨hi, -⟩ | ⟨-, hi, -⟩⟩ := (hk v).2 old hold
      · obtain rfl : info' = info := Option.some.inj (hnew.symm.trans hv)
        rw [hi]
        exact h.committed v old r hold hr hc
      · obtain rfl : info' = info := Option.some.inj (hnew.symm.trans hv)
        rw [hi]
        exact .inl zero_lt_transactionIdStart
  · obtain ⟨old, hold, hid⟩ := h.opened p hp v r hr hcov
    obtain ⟨info', hnew, ⟨hi, -⟩ | ⟨hlt, -, -⟩⟩ := (hk v).2 old hold
    · exact ⟨info', hnew, (congrFun hi r).trans hid⟩
    · -- a vector with an open row is not folded
      have hge := h.ids p hp
      have hlt := hlt r hr
      omega

/-! ## Deletes, compression and checkpoints -/

theorem setInfo_kept (m : RowVersionManager) (v : Nat)
    (hi : info.insertId = (m.getVectorInfo N v).insertId) (hd : info.insertedData = (m.getVectorInfo N v).insertedData)
    (hc : info.constantInsertId = (m.getVectorInfo N v).constantInsertId) (w : Nat) :
    VectorKept N (m.getChunkInfo w) ((m.setInfo v (some info)).getChunkInfo w) := by
  rw [getChunkInfo_setInfo]
  split
  · next hw =>
    subst hw
    unfold getVectorInfo at hi hd hc
    refine ⟨fun hnone i heq => ?_, fun i hsome => ⟨info, rfl, .inl ?_⟩⟩
    · obtain rfl := Option.some.inj heq
      rw [hnone] at hd hc
      exact ⟨hd, hc⟩
    · rw [hsome] at hi hd
      exact ⟨hi, hd⟩
  · exact .refl ..

theorem delete_insertedData (N : Nat) (info : ChunkVectorInfo) (transactionId : Nat) (rows : Nat → Nat) (count : Nat) :
    (info.delete N transactionId rows count).info.insertedData = info.insertedData ∧
      (info.delete N transactionId rows count).info.constantInsertId = info.constantInsertId := by
  unfold ChunkVectorInfo.delete
  split
  · split
    · exact ⟨rfl, rfl⟩
    · split
      · exact ⟨rfl, rfl⟩
      · exact ⟨rfl, rfl⟩
  · exact ⟨rfl, rfl⟩

theorem commitDelete_insertedData (N : Nat) (info : ChunkVectorInfo) (id : Nat) (di : DeleteInfo) :
    (info.commitDelete N id di).insertedData = info.insertedData ∧
      (info.commitDelete N id di).constantInsertId = info.constantInsertId := by
  unfold ChunkVectorInfo.commitDelete
  split
  · exact ⟨rfl, rfl⟩
  · split
    · split
      · exact ⟨rfl, rfl⟩
      · exact ⟨rfl, rfl⟩
    · exact ⟨rfl, rfl⟩

theorem deleteRows_kept (m : RowVersionManager) (v transactionId : Nat) (rows : Nat → Nat) (count w : Nat) :
    VectorKept N (m.getChunkInfo w) ((m.deleteRows N v transactionId rows count).1.getChunkInfo w) :=
  setInfo_kept m v (ChunkVectorInfo.delete_insertId ..) (delete_insertedData ..).1 (delete_insertedData ..).2 w

theorem commitDelete_kept (m : RowVersionManager) (v commitId : Nat) (di : DeleteInfo) (w : Nat) :
    VectorKept N (m.getChunkInfo w) ((m.commitDelete N v commitId di).getChunkInfo w) :=
  setInfo_kept m v (ChunkVectorInfo.commitDelete_insertId ..) (commitDelete_insertedData ..).1
    (commitDelete_insertedData ..).2 w

theorem compressVersionIds_kept {lowest : Nat} (h : lowest ≤ transactionIdStart) (m : RowVersionManager) (w : Nat) :
    VectorKept N (m.getChunkInfo w) ((m.compressVersionIds N lowest).getChunkInfo w) := by
  rw [getChunkInfo_compressVersionIds]
  split
  · refine ⟨fun hnone i hi => ?_, fun i hi => ?_⟩
    · rw [hnone] at hi
      cases hi
    · refine ⟨(i.compressVersionIds N lowest).1, by rw [hi]; rfl, ?_⟩
      rcases ChunkVectorInfo.compressVersionIds_inserted N lowest i with hsame | ⟨hlt, h0⟩
      · exact .inl hsame
      · exact .inr ⟨fun r hr => Nat.lt_of_lt_of_le (hlt r hr) h, h0⟩
  · exact .refl ..

theorem getChunkInfo_checkpoint (N : Nat) (m : RowVersionManager) (checkpointId w : Nat) :
    (m.checkpoint N checkpointId).getChunkInfo w = m.getChunkInfo w := by
  unfold RowVersionManager.checkpoint
  split <;> rfl

/-! ## Appends -/

theorem append_insertedData {start fin id : Nat}
    (h : (info.append start fin id).insertedData.isSome) : info.insertedData.isSome ∨ 0 < start := by
  unfold ChunkVectorInfo.append at h
  split at h
  · exact .inl h
  · exact .inr (by omega)

theorem Inv.appendInfo {N : Nat} {g : RowGroup} (h : Inv N g) (transactionId : Nat) {count v : Nat} (hN : 0 < N)
    (hcount : 0 < count) (hv : v ∈ vectorsOf N g.count (g.count + count)) :
    (∀ r < N, v * N + r < g.count → (appendInfo N transactionId g.count (g.count + count) v
        (g.versionInfo.getChunkInfo v)).insertId r =
      ((g.versionInfo.getChunkInfo v).getD { start := v * N }).insertId r) ∧
    (∀ r < N, g.count ≤ v * N + r → v * N + r < g.count + count →
      (appendInfo N transactionId g.count (g.count + count) v (g.versionInfo.getChunkInfo v)).insertId r =
        transactionId) ∧
    ((appendInfo N transactionId g.count (g.count + count) v (g.versionInfo.getChunkInfo v)).insertedData.isSome →
      v * N < g.count + count ∧ 2 ≤ N) := by
  have hab : g.count < g.count + count := by omega
  have hlt := vectorRange_lt hN hab hv
  have hle : (vectorRange N g.count (g.count + count) v).2 ≤ N := vectorRange_le hN hab
  have hrange : ∀ r < N, _ := fun r hr => vectorRange_iff (r := r) hN hab hv hr
  unfold RowVersionManager.appendInfo
  generalize vectorRange N g.count (g.count + count) v = vr at hlt hle hrange ⊢
  obtain ⟨vs, ve⟩ := vr
  dsimp only at hlt hle hrange ⊢
  -- the vector starts below the row count exactly if its part of the append does not start at 0
  have hzero : vs = 0 → g.count ≤ v * N := fun h0 => by
    have := (hrange 0 hN).1 ⟨by omega, by omega⟩
    omega
  split
  · next hfull =>
    have hge := hzero hfull.1
    exact ⟨fun r _ hc => absurd hc (by omega), fun _ _ _ _ => rfl, fun hs => by cases hs⟩
  · rcases Nat.eq_zero_or_pos vs with h0 | hpos
    · have hge := hzero h0
      have hnone : ((g.versionInfo.getChunkInfo v).getD { start := v * N }).insertedData = none := by
        cases hi : g.versionInfo.getChunkInfo v with
        | none => rfl
        | some info =>
          by_contra hne
          have := (h.inserted v info hi (Option.isSome_iff_ne_none.2 hne)).1
          omega
      subst h0
      refine ⟨fun r _ hc => absurd hc (by omega), fun r _ _ _ => ChunkVectorInfo.append_zero_insertId hnone _ _ r,
        fun hs => ?_⟩
      rcases append_insertedData hs with hs | hs
      · rw [hnone] at hs
        cases hs
      · omega
    · refine ⟨fun r hr hc => ?_, fun r hr h1 h2 => ?_, fun _ => ?_⟩
      · rw [ChunkVectorInfo.append_insertId _ hpos, if_neg fun hin => by have := (hrange r hr).1 hin; omega]
      · rw [ChunkVectorInfo.append_insertId _ hpos, if_pos ((hrange r hr).2 ⟨h1, h2⟩)]
      · have hvs := (hrange vs (by omega)).1 ⟨Nat.le_refl _, hlt⟩
        exact ⟨by omega, by omega⟩

theorem Inv.append (h : Inv N g) (hN : 0 < N) {transactionId count : Nat} (hcount : 0 < count)
    (hid : transactionIdStart ≤ transactionId) (hnew : ∀ p ∈ g.pending, p.transactionId ≠ transactionId) :
    Inv N (g.step N (.appendVersionInfo transactionId count)) := by
  have hget : ∀ v, (g.step N (.appendVersionInfo transactionId count)).versionInfo.getChunkInfo v = _ :=
    fun v => getChunkInfo_appendVersionInfo N g.versionInfo transactionId g.count (g.count + count) v
  have hmem : ∀ {P : PendingAppend → Prop}, (∀ p ∈ g.pending, P p) → P ⟨transactionId, g.count, count⟩ →
      ∀ p ∈ g.pending ++ [⟨transactionId, g.count, count⟩], P p := by
    intro P h1 h2 p hp
    rcases mem_append.1 hp with hp | hp
    · exact h1 p hp
    · exact mem_singleton.1 hp ▸ h2
  have hcovers : ∀ v r, r < N → PendingAppend.covers ⟨transactionId, g.count, count⟩ (v * N + r) →
      v ∈ vectorsOf N g.count (g.count + count) := by
    intro v r hr hc
    exact row_div (v := v) hr ▸ mem_vectorsOf_of_row hc.1 hc.2
  refine ⟨fun v info hv hs => ?_, fun v info r hv hr hc => ?_, hmem (fun p hp v r hr hcov => ?_) fun v r hr hcov => ?_,
    hmem h.ids hid, ?_, hmem (fun p hp => ?_) ⟨hcount, Nat.le_refl _⟩⟩
  · rw [hget] at hv
    split at hv
    · next hin =>
      obtain rfl := Option.some.inj hv
      exact (h.appendInfo transactionId hN hcount hin).2.2 hs
    · have := h.inserted v info hv hs
      exact ⟨Nat.lt_of_lt_of_le this.1 (Nat.le_add_right ..), this.2⟩
  · have hc : v * N + r < g.count + count := hc
    rw [hget] at hv
    split at hv
    · next hin =>
      obtain rfl := Option.some.inj hv
      obtain ⟨hold, hrow, -⟩ := h.appendInfo transactionId hN hcount hin
      by_cases hlt : v * N + r < g.count
      · rw [hold r hr hlt]
        cases hi : g.versionInfo.getChunkInfo v with
        | none => exact .inl zero_lt_transactionIdStart
        | some info =>
          rcases h.committed v info r hi hr hlt with h1 | ⟨p, hp, hcov, hpid⟩
          · exact .inl h1
          · exact .inr ⟨p, mem_append_left _ hp, hcov, hpid⟩
      · rw [hrow r hr (by omega) hc]
        exact .inr ⟨_, mem_append_right _ (mem_singleton.2 rfl), ⟨Nat.le_of_not_lt hlt, hc⟩, rfl⟩
    · next hout =>
      by_cases hlt : v * N + r < g.count
      · rcases h.committed v info r hv hr hlt with h1 | ⟨p, hp, hcov, hpid⟩
        · exact .inl h1
        · exact .inr ⟨p, mem_append_left _ hp, hcov, hpid⟩
      · exact absurd (hcovers v r hr ⟨Nat.le_of_not_lt hlt, hc⟩) hout
  · obtain ⟨old, hold, hid⟩ := h.opened p hp v r hr hcov
    have hlt : v * N + r < g.count := Nat.lt_of_lt_of_le hcov.2 (h.inside p hp).2
    rw [hget]
    split
    · next hin =>
      refine ⟨_, rfl, ?_⟩
      rw [(h.appendInfo transactionId hN hcount hin).1 r hr hlt, hold]
      exact hid
    · exact ⟨old, hold, hid⟩
  · have hin := hcovers v r hr hcov
    rw [hget, if_pos hin]
    exact ⟨_, rfl, (h.appendInfo transactionId hN hcount hin).2.1 r hr hcov.1 hcov.2⟩
  · refine pairwise_append.2 ⟨h.distinct, pairwise_singleton .., fun p hp q hq => ?_⟩
    rw [mem_singleton.1 hq]
    exact hnew p hp
  · have := h.inside p hp
    exact ⟨this.1, Nat.le_trans this.2 (Nat.le_add_right ..)⟩

theorem Inv.pending_eq (h : Inv N g) {q : PendingAppend} (hp : p ∈ g.pending)
    (hq : q ∈ g.pending) (hid : p.transactionId = q.transactionId) : p = q := by
  have hn : (g.pending.map (·.transactionId)).Nodup := pairwise_map.2 h.distinct
  exact inj_on_of_nodup_map hn hp hq hid

/-- The commit of an open append gives its rows the commit id and leaves the other rows of the row
group alone. A constant insert id in one of its vectors means that it covers all rows there. -/
theorem Inv.commitAppend_insertId (h : Inv N g) (hN : 0 < N)
    (hp : p ∈ g.pending) {v : Nat} (hv : v ∈ vectorsOf N p.start (p.start + p.count))
    (hi : g.versionInfo.getChunkInfo v = some info) (commitId : Nat) {r : Nat} (hr : r < N) (hc : v * N + r < g.count) :
    (info.commitAppend commitId (vectorRange N p.start (p.start + p.count) v).1
      (vectorRange N p.start (p.start + p.count) v).2).insertId r =
        if p.covers (v * N + r) then commitId else info.insertId r := by
  obtain ⟨hpos, -⟩ := h.inside p hp
  have hab : p.start < p.start + p.count := by omega
  have hrange := vectorRange_iff hN hab hv hr
  rw [ChunkVectorInfo.commitAppend_insertId]
  by_cases hcov : p.covers (v * N + r)
  · rw [if_pos (.inr (hrange.2 hcov)), if_pos hcov]
  · rw [if_neg hcov, if_neg]
    rintro (hnone | hin)
    · -- some row of the vector is in the append, so the constant is its id, and so is this row's
      have hlt := vectorRange_lt hN hab hv
      have hle : (vectorRange N p.start (p.start + p.count) v).2 ≤ N := vectorRange_le hN hab
      have hfirst := (vectorRange_iff hN hab hv (by omega)).1 ⟨Nat.le_refl _, hlt⟩
      obtain ⟨info', hi', hid⟩ := h.opened p hp v _ (by omega) hfirst
      obtain rfl : info' = info := Option.some.inj (hi'.symm.trans hi)
      have hconst : ∀ r, info'.insertId r = p.transactionId := fun r => by
        rw [← hid, ChunkVectorInfo.insertId, ChunkVectorInfo.insertId, Option.isNone_iff_eq_none.1 hnone]
      rcases h.committed v info' r hi hr hc with hlow | ⟨q, hq, hqc, hqid⟩
      · have := h.ids p hp
        rw [hconst] at hlow
        omega
      · have hpq := h.pending_eq hq hp (hqid.trans (hconst r))
        exact hcov (hpq ▸ hqc)
    · exact hcov (hrange.1 hin)

theorem commitAppend_insertedData (info : ChunkVectorInfo) (id start fin : Nat) :
    (info.commitAppend id start fin).insertedData.isSome = info.insertedData.isSome := by
  unfold ChunkVectorInfo.commitAppend
  cases info.insertedData <;> simp

theorem Inv.commit (h : Inv N g) (hN : 0 < N) (hp : p ∈ g.pending)
    {commitId : Nat} (hid : commitId < transactionIdStart) : Inv N (g.step N (.commitAppend p commitId)) := by
  obtain ⟨hpos, hpc⟩ := h.inside p hp
  have hget : ∀ v, (g.step N (.commitAppend p commitId)).versionInfo.getChunkInfo v = _ :=
    fun v => getChunkInfo_commitAppend g.versionInfo commitId p.start hpos v
  have hsub : ∀ q ∈ g.pending.erase p, q ∈ g.pending := fun q hq => mem_of_mem_erase hq
  have hnot : ∀ q ∈ g.pending.erase p, ∀ row, q.covers row → ∀ v r, r < N → row = v * N + r → ¬ p.covers row := by
    intro q hq row hqc v r hr hrow hpc
    subst hrow
    obtain ⟨i1, hi1, hid1⟩ := h.opened q (hsub q hq) v r hr hqc
    obtain ⟨i2, hi2, hid2⟩ := h.opened p hp v r hr hpc
    obtain rfl : i1 = i2 := Option.some.inj (hi1.symm.trans hi2)
    have hqp := h.pending_eq (hsub q hq) hp (hid1.symm.trans hid2)
    have hnd : g.pending.Nodup := h.distinct.imp fun hne heq => hne (by rw [heq])
    exact (List.Nodup.mem_erase_iff hnd).1 hq |>.1 hqp
  refine ⟨fun v info hv hs => ?_, fun v info r hv hr hc => ?_, fun q hq v r hr hcov => ?_,
    fun q hq => h.ids q (hsub q hq), h.distinct.sublist erase_sublist, fun q hq => h.inside q (hsub q hq)⟩
  · rw [hget] at hv
    split at hv
    · obtain ⟨old, hold, rfl⟩ := Option.map_eq_some_iff.1 hv
      rw [commitAppend_insertedData] at hs
      exact h.inserted v old hold hs
    · exact h.inserted v info hv hs
  · rw [hget] at hv
    split at hv
    · next hin =>
      obtain ⟨old, hold, rfl⟩ := Option.map_eq_some_iff.1 hv
      rw [h.commitAppend_insertId hN hp hin hold commitId hr hc]
      split
      · exact .inl hid
      · next hncov =>
        rcases h.committed v old r hold hr hc with h1 | ⟨q, hq, hqc, hqid⟩
        · exact .inl h1
        · have hne : q ≠ p := fun heq => hncov (heq ▸ hqc)
          exact .inr ⟨q, (mem_erase_of_ne hne).2 hq, hqc, hqid⟩
    · next hout =>
      rcases h.committed v info r hv hr hc with h1 | ⟨q, hq, hqc, hqid⟩
      · exact .inl h1
      · refine .inr ⟨q, (mem_erase_of_ne fun heq => hout ?_).2 hq, hqc, hqid⟩
        subst heq
        exact row_div (v := v) hr ▸ mem_vectorsOf_of_row hqc.1 hqc.2
  · obtain ⟨old, hold, hoid⟩ := h.opened q (hsub q hq) v r hr hcov
    rw [hget]
    split
    · next hin =>
      refine ⟨_, by rw [hold]; rfl, ?_⟩
      have hlt : v * N + r < g.count := Nat.lt_of_lt_of_le hcov.2 (h.inside q (hsub q hq)).2
      rw [h.commitAppend_insertId hN hp hin hold commitId hr hlt, if_neg (hnot q hq _ hcov v r hr rfl)]
      exact hoid
    · exact ⟨old, hold, hoid⟩

/-! ## Reverts, cleanup and reloads -/

theorem Inv.revert (h : Inv N g) (hN : 0 < N) {newCount : Nat} (hle : newCount ≤ g.count)
    (hcut : ∀ p ∈ g.pending, p.start + p.count ≤ newCount ∨ newCount ≤ p.start) :
    Inv N (g.step N (.revertAppend newCount)) := by
  have hget : ∀ v, (g.step N (.revertAppend newCount)).versionInfo.getChunkInfo v = _ :=
    fun v => getChunkInfo_revertAppend N g.versionInfo newCount v
  have hkeep : ∀ p ∈ g.pending.filter (·.start < newCount), p ∈ g.pending ∧ p.start + p.count ≤ newCount := by
    intro p hp
    obtain ⟨hmem, hlt⟩ := mem_filter.1 hp
    have hlt : p.start < newCount := by simpa using hlt
    rcases hcut p hmem with hin | hout
    · exact ⟨hmem, hin⟩
    · omega
  -- a vector that is kept starts below the new count, and one with rows below it is kept
  have hvec : ∀ v, ¬ (newCount + (N - 1)) / N ≤ v → v * N < newCount := by
    intro v hv
    have h1 : (v + 1) * N ≤ newCount + (N - 1) := (Nat.le_div_iff_mul_le hN).1 (by omega)
    rw [Nat.succ_mul] at h1
    omega
  have hrow : ∀ v r, v * N + r < newCount → ¬ (newCount + (N - 1)) / N ≤ v := by
    intro v r hlt hge
    have h1 : newCount + (N - 1) < (v + 1) * N := (Nat.div_lt_iff_lt_mul hN).1 (by omega)
    rw [Nat.succ_mul] at h1
    omega
  refine ⟨fun v info hv hs => ?_, fun v info r hv hr hc => ?_, fun p hp v r hr hcov => ?_,
    fun p hp => h.ids p (hkeep p hp).1, h.distinct.sublist filter_sublist, fun p hp => ?_⟩
  · rw [hget] at hv
    split at hv
    · cases hv
    · next hlt => exact ⟨hvec v hlt, (h.inserted v info hv hs).2⟩
  · have hc : v * N + r < newCount := hc
    rw [hget, if_neg (hrow v r hc)] at hv
    rcases h.committed v info r hv hr (by omega) with h1 | ⟨p, hp, hpc, hpid⟩
    · exact .inl h1
    · have hlt : p.start < newCount := Nat.lt_of_le_of_lt hpc.1 hc
      exact .inr ⟨p, mem_filter.2 ⟨hp, by simpa using hlt⟩, hpc, hpid⟩
  · obtain ⟨hmem, hin⟩ := hkeep p hp
    rw [hget, if_neg (hrow v r (Nat.lt_of_lt_of_le hcov.2 hin))]
    exact h.opened p hmem v r hr hcov
  · exact ⟨(h.inside p (hkeep p hp).1).1, (hkeep p hp).2⟩

theorem Inv.cleanup (h : Inv N g) (hN : 0 < N) {lowest start count : Nat}
    (hafter : ∀ p ∈ g.pending, start + count ≤ p.start) : Inv N (g.step N (.cleanupAppend lowest start count)) := by
  rcases Nat.eq_zero_or_pos count with h0 | hpos
  · subst h0
    exact h
  have hget : ∀ v, (g.step N (.cleanupAppend lowest start count)).versionInfo.getChunkInfo v =
      g.versionInfo.getChunkInfo v ∨ _ := fun v => getChunkInfo_cleanupAppend g.versionInfo lowest start hpos v
  refine ⟨fun v info hv hs => ?_, fun v info r hv hr hc => ?_, fun p hp v r hr hcov => ?_, h.ids, h.distinct, h.inside⟩
  · rcases hget v with hsame | ⟨-, -, -, hnone⟩
    · exact h.inserted v info (hsame ▸ hv) hs
    · exact nomatch hnone.symm.trans hv
  · rcases hget v with hsame | ⟨-, -, -, hnone⟩
    · exact h.committed v info r (hsame ▸ hv) hr hc
    · exact nomatch hnone.symm.trans hv
  · rcases hget v with hsame | ⟨hin, hend, -, -⟩
    · rw [hsame]
      exact h.opened p hp v r hr hcov
    · -- a vector that is cleaned up lies below the end of the cleaned append
      have hab : start < start + count := by omega
      have hlast := (vectorRange_iff (r := N - 1) hN hab hin (by omega))
      have hlt := vectorRange_lt hN hab hin
      have hrow := (hlast.1 ⟨by omega, by omega⟩).2
      have := hafter p hp
      have := hcov.1
      omega

theorem Inv.reload (h : Inv N g) (count : Nat) : Inv N (g.step N (.reload count)) := by
  simp only [step]
  split
  · next m hm =>
    have hinfo : ∀ v info, m.getChunkInfo v = some info → info.insertedData = none ∧ info.constantInsertId = 0 :=
      fun v info hv => deserialize_some hm hv
    refine ⟨fun v info hv hs => ?_, fun v info r hv _ _ => .inl ?_, fun p hp => ?_, fun p hp => ?_, .nil, fun p hp => ?_⟩
    · rw [(hinfo v info hv).1] at hs
      cases hs
    · rw [insertId_of_none (hinfo v info hv)]
      exact zero_lt_transactionIdStart
    all_goals exact absurd hp not_mem_nil
  · refine ⟨?_, ?_, ?_, ?_, .nil, ?_⟩ <;> simp [getChunkInfo]
  · exact h

/-! ## Runs -/

theorem step_inv (hN : 0 < N) {op : Op} (h : Inv N g) (ha : Allowed N g op) :
    Inv N (g.step N op) := by
  cases op with
  | appendVersionInfo transactionId count =>
    obtain ⟨hcount, -, hid, -, hnew⟩ := ha
    exact h.append hN hcount hid hnew
  | commitAppend p commitId => exact h.commit hN ha.1 ha.2
  | revertAppend newCount => exact h.revert hN ha.1 ha.2
  | cleanupAppend lowest start count => exact h.cleanup hN ha.2
  | deleteRows v transactionId rows count => exact h.of_kept (deleteRows_kept g.versionInfo v transactionId rows count)
  | commitDelete v commitId di => exact h.of_kept (commitDelete_kept g.versionInfo v commitId di)
  | compressVersionIds lowest => exact h.of_kept (compressVersionIds_kept ha g.versionInfo)
  | checkpoint checkpointId =>
    exact h.of_kept fun v => getChunkInfo_checkpoint N g.versionInfo checkpointId v ▸ .refl ..
  | reload count => exact h.reload count

theorem reachable_inv (hN : 0 < N) (h : Reachable N g) : Inv N g := by
  obtain ⟨ops, hsteps, rfl⟩ := h
  exact Lib.run_inv_of_steps (fun g op hg ha => step_inv hN hg ha) ops (Inv.init N) hsteps

end RowGroup

end Haybarn.Version
