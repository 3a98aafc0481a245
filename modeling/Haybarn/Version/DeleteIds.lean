/-
The delete ids of a row group, row by row: what each call on the version manager does to them. A
vector without info has no deleted rows.
-/
import Haybarn.Version.Invariant

namespace Haybarn.Version

open Transaction Common
open ChunkVectorInfo (StoredInfo DeleteInfo Folded Marked)

namespace RowVersionManager

/-- The delete id of a row of a vector. -/
def deleteId (m : RowVersionManager) (v r : Nat) : Nat := match m.getChunkInfo v with
  | none => notDeletedId
  | some info => info.deleteId r

theorem deleteId_of_some {m : RowVersionManager} {v : Nat} {info : ChunkVectorInfo} (h : m.getChunkInfo v = some info)
    (r : Nat) : m.deleteId v r = info.deleteId r := by
  unfold deleteId
  rw [h]

theorem deleteId_congr {m m' : RowVersionManager} {v : Nat} (h : m'.getChunkInfo v = m.getChunkInfo v) (r : Nat) :
    m'.deleteId v r = m.deleteId v r := by
  unfold deleteId
  rw [h]

theorem getVectorInfo_deleteId (N : Nat) (m : RowVersionManager) (v r : Nat) :
    (m.getVectorInfo N v).deleteId r = m.deleteId v r := by
  unfold getVectorInfo deleteId
  cases m.getChunkInfo v <;> rfl

/-! ## What the calls do to a row -/

theorem deleteId_appendVersionInfo (N : Nat) (m : RowVersionManager) (transactionId a b v r : Nat) :
    (m.appendVersionInfo N transactionId a b).deleteId v r =
      if v ∈ vectorsOf N a b ∧ vectorRange N a b v = (0, N) then notDeletedId else m.deleteId v r := by
  have hget := getChunkInfo_appendVersionInfo N m transactionId a b v
  by_cases hv : v ∈ vectorsOf N a b
  · rw [if_pos hv] at hget
    rw [deleteId_of_some hget, appendInfo]
    split
    · next hfull => rw [if_pos ⟨hv, Prod.ext hfull.1 hfull.2⟩]; rfl
    · next hfull =>
      rw [if_neg fun h => hfull ⟨congrArg Prod.fst h.2, congrArg Prod.snd h.2⟩, ChunkVectorInfo.append_deleteId]
      exact getVectorInfo_deleteId N m v r
  · rw [if_neg hv] at hget
    rw [deleteId_congr hget, if_neg fun h => hv h.1]

theorem deleteId_commitAppend {N : Nat} (m : RowVersionManager) (commitId a : Nat) {count : Nat} (hc : 0 < count)
    (v r : Nat) : (m.commitAppend N commitId a count).deleteId v r = m.deleteId v r := by
  have hget := getChunkInfo_commitAppend (N := N) m commitId a hc v
  split at hget
  · unfold deleteId
    rw [hget]
    cases m.getChunkInfo v with
    | none => rfl
    | some info => exact congrFun (ChunkVectorInfo.commitAppend_deleteId ..) r
  · exact deleteId_congr hget r

theorem deleteId_setInfo (m : RowVersionManager) (v w : Nat) (info : ChunkVectorInfo) (r : Nat) :
    (m.setInfo v (some info)).deleteId w r = if w = v then info.deleteId r else m.deleteId w r := by
  have hget := getChunkInfo_setInfo m v w (some info)
  split
  · next hw => rw [if_pos hw] at hget; exact deleteId_of_some hget r
  · next hw => rw [if_neg hw] at hget; exact deleteId_congr hget r

theorem deleteRows_marked {N : Nat} (m : RowVersionManager) (v transactionId : Nat) (rows : Nat → Nat) (count w : Nat)
    {r : Nat} (hr : r < N) : Marked transactionId (w = v ∧ ∃ j < count, rows j = r) (m.deleteId w r)
      ((m.deleteRows N v transactionId rows count).1.deleteId w r) := by
  have hset : (m.deleteRows N v transactionId rows count).1.deleteId w r = _ := deleteId_setInfo m v w _ r
  rw [hset]
  split
  · next hw =>
    subst hw
    have hmark := ChunkVectorInfo.delete_marked (m.getVectorInfo N w) transactionId rows count hr
    rw [getVectorInfo_deleteId] at hmark
    rcases hmark with hsame | ⟨hnamed, hold, hnew⟩
    · exact .inl hsame
    · exact .inr ⟨⟨rfl, hnamed⟩, hold, hnew⟩
  · exact .inl rfl

theorem deleteId_commitDelete {N : Nat} (m : RowVersionManager) (v commitId : Nat) (di : DeleteInfo) (w : Nat) {r : Nat}
    (hr : r < N) : (m.commitDelete N v commitId di).deleteId w r =
      if w = v ∧ r ∈ di.rowList then commitId else m.deleteId w r := by
  have hset : (m.commitDelete N v commitId di).deleteId w r = _ := deleteId_setInfo m v w _ r
  rw [hset]
  by_cases hw : w = v
  · subst hw
    rw [if_pos rfl, ChunkVectorInfo.commitDelete_deleteId _ commitId di hr, getVectorInfo_deleteId]
    simp only [true_and]
  · rw [if_neg hw, if_neg fun h => hw h.1]

theorem deleteId_compressVersionIds {N : Nat} (m : RowVersionManager) (lowest v : Nat) {r : Nat} (hr : r < N) :
    Folded lowest (m.deleteId v r) ((m.compressVersionIds N lowest).deleteId v r) ∧
    ∀ bound, (∀ r < N, m.deleteId v r < lowest → m.deleteId v r ≤ bound) →
      (m.compressVersionIds N lowest).deleteId v r = m.deleteId v r ∨
      (m.compressVersionIds N lowest).deleteId v r ≤ bound := by
  have hget := getChunkInfo_compressVersionIds N m lowest v
  split at hget
  · cases hi : m.getChunkInfo v with
    | none =>
      rw [hi] at hget
      have hsame := deleteId_congr (hget.trans hi.symm) r
      exact ⟨hsame ▸ .refl .., fun _ _ => .inl hsame⟩
    | some info =>
      rw [hi] at hget
      simp only [deleteId_of_some hget, deleteId_of_some hi]
      exact ⟨ChunkVectorInfo.compressVersionIds_deleteId info lowest hr,
        fun bound hb => ChunkVectorInfo.compressVersionIds_deleteId_le info hb hr⟩
  · have hsame := deleteId_congr hget r
    exact ⟨hsame ▸ .refl .., fun _ _ => .inl hsame⟩

end RowVersionManager

namespace RowGroup

open RowVersionManager

/-! ## Appends at the row count -/

theorem le_of_vectorRange_zero {N a b v : Nat} (hN : 0 < N) (hab : a < b) (hv : v ∈ vectorsOf N a b)
    (h : (vectorRange N a b v).1 = 0) : a ≤ v * N := by
  have hlt := vectorRange_lt hN hab hv
  have hrow := (vectorRange_iff hN hab hv hN).1 ⟨by omega, by omega⟩
  omega

/-! ## Bounds -/

theorem read_deleteId {N : Nat} {s : StoredInfo} {info : ChunkVectorInfo} (h : ChunkVectorInfo.read N s = .ok (some info))
    (r : Nat) : info.deleteId r ≤ notDeletedId := by
  cases s with
  | emptyInfo => cases h
  | constantInfo start =>
    cases h
    exact Nat.zero_le _
  | vectorInfo start mask =>
    simp only [ChunkVectorInfo.read] at h
    split at h
    · cases h
    · cases h
      simp only [ChunkVectorInfo.deleteId]
      split <;> omega

theorem deserialize_deleteId {N : Nat} {stored : List (Nat × StoredInfo)} {m : RowVersionManager}
    (h : deserialize N stored = .ok (some m)) (v r : Nat) : m.deleteId v r ≤ notDeletedId := by
  unfold deserialize at h
  split at h
  · cases h
  · cases hf : stored.foldlM (readEntry N) { storagePointers := stored } with
    | error e => rw [hf] at h; cases h
    | ok m' =>
      rw [hf] at h
      cases h
      cases hi : m.getChunkInfo v with
      | none => rw [deleteId, hi]
      | some info =>
        have hall := foldlM_readEntry_forall (P := fun info => ∀ r, info.deleteId r ≤ notDeletedId)
          (fun _ _ hread r => read_deleteId hread r) hf (fun w info hw => by simp [getChunkInfo] at hw)
        rw [deleteId_of_some hi]
        exact hall v info hi r

/-- Every delete id is at most `NOT_DELETED_ID`. -/
def Bounded (N : Nat) (g : RowGroup) : Prop := ∀ v r, r < N → g.versionInfo.deleteId v r ≤ notDeletedId

theorem Bounded.init (N : Nat) : Bounded N {} := fun _ _ _ => Nat.le_refl _

theorem step_bounded {N : Nat} {g : RowGroup} {op : Op} (hpos : ∀ p ∈ g.pending, 0 < p.count) (h : Bounded N g)
    (ha : Allowed N g op) : Bounded N (g.step N op) := by
  intro v r hr
  have hold := h v r hr
  cases op with
  | appendVersionInfo transactionId count =>
    have hid := deleteId_appendVersionInfo N g.versionInfo transactionId g.count (g.count + count) v r
    simp only [step]
    rw [hid]
    split <;> omega
  | commitAppend p commitId =>
    simp only [step]
    rwa [deleteId_commitAppend _ _ _ (hpos p ha.1)]
  | revertAppend newCount =>
    have hget := getChunkInfo_revertAppend N g.versionInfo newCount v
    simp only [step]
    split at hget
    · rw [deleteId, hget]
    · rwa [deleteId_congr hget]
  | cleanupAppend lowest start count =>
    simp only [step]
    rcases Nat.eq_zero_or_pos count with rfl | hc
    · exact hold
    · rcases getChunkInfo_cleanupAppend (N := N) g.versionInfo lowest start hc v with hsame | ⟨-, -, -, hnone⟩
      · rwa [deleteId_congr hsame]
      · rw [deleteId, hnone]
  | deleteRows w transactionId rows count =>
    obtain ⟨-, hlt, -⟩ := ha
    simp only [step]
    rcases deleteRows_marked g.versionInfo w transactionId rows count v hr with hsame | ⟨-, -, hnew | hnew⟩ <;> omega
  | commitDelete w commitId di =>
    obtain ⟨hle, -⟩ := ha
    simp only [step]
    rw [deleteId_commitDelete _ _ _ _ _ hr]
    split <;> omega
  | compressVersionIds lowest =>
    have hlow : lowest ≤ transactionIdStart := ha
    have htis := transactionIdStart_lt_notDeletedId
    simp only [step]
    rcases (deleteId_compressVersionIds g.versionInfo lowest v hr).1 with hsame | ⟨-, hlt, -⟩ <;> omega
  | checkpoint checkpointId =>
    simp only [step]
    rwa [deleteId_congr (getChunkInfo_checkpoint N g.versionInfo checkpointId v)]
  | reload count =>
    simp only [step]
    split
    · next m hm => exact deserialize_deleteId hm v r
    · exact Nat.le_refl _
    · exact hold

end RowGroup

end Haybarn.Version
