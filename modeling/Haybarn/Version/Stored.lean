/-
Serialized version information: what `Write` stores is exactly the rows that the checkpoint does not
see, reading it back never fails, and a reloaded manager hides the stored rows from every
transaction and no other row.
-/
import Haybarn.Version.Invariant

namespace Haybarn.Version

open Transaction Common List
open ChunkVectorInfo (StoredInfo DeleteInfo ScanRight checkpointTransaction)

/-! ## One vector -/

/-- The row is stored as deleted. -/
def ChunkVectorInfo.StoredInfo.deletes : StoredInfo → Nat → Bool
  | .emptyInfo, _ => false
  | .constantInfo _, _ => true
  | .vectorInfo _ mask, r => mask.rowIsValid r

namespace ChunkVectorInfo

/-- The transaction that `Write` scans with, for the id of a committed transaction. -/
def checkpointSnapshot {checkpointId : Nat} (h : checkpointId < transactionIdStart) : Snapshot where
  toTransactionData := checkpointTransaction checkpointId
  startTime_le := by
    have h1 := transactionIdStart_lt_notDeletedId
    unfold checkpointTransaction
    dsimp only
    split <;> omega
  transactionId_ne := Nat.ne_of_gt notDeletedId_lt_invalidIndex

variable {checkpointId : Nat}

theorem checkpointTransaction_startTime (h : checkpointId < transactionIdStart) :
    (checkpointTransaction checkpointId).startTime = checkpointId + 1 := by
  have h1 := transactionIdStart_lt_notDeletedId
  have h2 := notDeletedId_lt_maxTransactionId
  exact if_neg (by omega)

theorem useVersion_checkpointTransaction {id : Nat} (h : checkpointId < transactionIdStart)
    (hid : id ≤ notDeletedId) : useVersion (checkpointTransaction checkpointId) id = decide (id ≤ checkpointId) := by
  have hne : id ≠ invalidIndex := Nat.ne_of_lt (Nat.lt_of_le_of_lt hid notDeletedId_lt_invalidIndex)
  have hbeq : (id == (checkpointTransaction checkpointId).transactionId) = false := beq_eq_false_iff_ne.2 hne
  rw [useVersion, checkpointTransaction_startTime h, hbeq, Bool.or_false]
  exact decide_eq_decide.2 Nat.lt_succ_iff

theorem length_filter_range_eq {N : Nat} {p : Nat → Bool} (h : ((range N).filter p).length = N) :
    ∀ r < N, p r = true := by
  intro r hr
  have hself := filter_eq_self.1 (filter_sublist.eq_of_length (by rw [h, length_range]))
  exact hself r (mem_range.2 hr)

theorem rowIsValid_foldl_setInvalid_all (i : Nat) (l : List Nat) :
    (l.foldl (fun mask j => mask.setInvalid j) ValidityMask.initialized).rowIsValid i = !decide (i ∈ l) := by
  have h := rowIsValid_foldl_setInvalid (fun _ => True) i l .initialized
  simpa using h

/-- `Write` stores the rows that the checkpoint does not see, and `Read` accepts what it stored. -/
theorem write_spec {N : Nat} (info : ChunkVectorInfo) (h : checkpointId < transactionIdStart) :
    (∀ r < N, (info.write N checkpointId).deletes r = !info.visible (checkpointTransaction checkpointId) r) ∧
    ∃ stored, read N (info.write N checkpointId) = .ok stored := by
  have hscan := getSelVector_right info (checkpointSnapshot h) .standard .standard true N
  have hsel : info.selected ⟨checkpointTransaction checkpointId, .standard, .standard⟩ N =
      (range N).filter (info.visible (checkpointTransaction checkpointId)) := rfl
  obtain ⟨hcount, hrows⟩ : ScanRight true N _ (info.getSelVector ⟨checkpointTransaction checkpointId, .standard,
    .standard⟩ true N) := hscan
  rw [show (checkpointSnapshot h).toTransactionData = checkpointTransaction checkpointId from rfl, hsel] at hcount hrows
  unfold write
  generalize info.getSelVector ⟨checkpointTransaction checkpointId, .standard, .standard⟩ true N = res at hcount hrows ⊢
  obtain ⟨count, sel⟩ := res
  dsimp only at hcount hrows ⊢
  subst hcount
  split
  · next hall =>
    have hvis := length_filter_range_eq hall
    exact ⟨fun r hr => by rw [hvis r hr]; rfl, none, rfl⟩
  · next hne =>
    split
    · next hzero =>
      have hnil := filter_eq_nil_iff.1 (length_eq_zero_iff.1 hzero)
      refine ⟨fun r hr => ?_, _, rfl⟩
      have hr := hnil r (mem_range.2 hr)
      simp only [StoredInfo.deletes]
      simpa using hr
    · next hpos =>
      have hlt : ((range N).filter (info.visible (checkpointTransaction checkpointId))).length < N := by
        have := length_filter_le (info.visible (checkpointTransaction checkpointId)) (range N)
        rw [length_range] at this
        omega
      have hsel' := hrows rfl (by omega) hlt
      have hdel : ∀ r < N, (sel.foldl (fun mask i => mask.setInvalid i) ValidityMask.initialized).rowIsValid r =
          !info.visible (checkpointTransaction checkpointId) r := by
        intro r hr
        rw [rowIsValid_foldl_setInvalid_all, hsel']
        congr 1
        simp [hr]
      refine ⟨hdel, ?_⟩
      -- some rows are alive and some are not, so the mask is neither full nor empty
      have hcv := ValidityMask.countValid_eq (sel.foldl (fun mask i => mask.setInvalid i) .initialized) N
      have hcongr : (range N).filter
          (sel.foldl (fun mask i => mask.setInvalid i) ValidityMask.initialized).rowIsValid =
          (range N).filter fun r => !info.visible (checkpointTransaction checkpointId) r :=
        filter_congr fun r hr => hdel r (mem_range.1 hr)
      rw [hcongr, length_filter_not] at hcv
      refine ⟨_, if_neg ?_⟩
      simp only [ValidityMask.checkAllValid, ValidityMask.checkAllInvalid, hcv, Bool.or_eq_true, beq_iff_eq]
      omega

theorem read_visible {N : Nat} {s : StoredInfo} {stored : Option ChunkVectorInfo} (h : read N s = .ok stored)
    (t : Snapshot) (hpos : 0 < t.startTime) (r : Nat) :
    stored.all (·.visible t.toTransactionData r) = !s.deletes r := by
  have h0 : useVersion t.toTransactionData 0 = true := by simp [useVersion, hpos]
  cases s with
  | emptyInfo =>
    cases h
    rfl
  | constantInfo start =>
    cases h
    simp [visible, insertId, deleteId, h0, StoredInfo.deletes]
  | vectorInfo start mask =>
    simp only [read] at h
    split at h
    · cases h
    · cases h
      by_cases hm : mask.rowIsValid r = true
      · simp [visible, insertId, deleteId, StoredInfo.deletes, hm, h0]
      · simp [visible, insertId, deleteId, StoredInfo.deletes, hm, h0, not_useVersion_notDeletedId t]

/-! ## Scans of a vector that may have no info -/

/-- The row is among those a scan reports: all of them, or the listed ones. -/
def reports (maxCount : Nat) (res : Nat × List Nat) (r : Nat) : Prop :=
  r < maxCount ∧ (res.1 = maxCount ∨ res.1 ≠ 0 ∧ r ∈ res.2)

theorem ScanRight.reports_iff {maxCount : Nat} {p : Nat → Bool} {res : Nat × List Nat}
    (h : ScanRight true maxCount ((range maxCount).filter p) res) {r : Nat} (hr : r < maxCount) :
    reports maxCount res r ↔ p r = true := by
  obtain ⟨hcount, hrows⟩ := h
  have hle := length_filter_le p (range maxCount)
  rw [length_range] at hle
  constructor
  · rintro ⟨-, hall | ⟨hne, hmem⟩⟩
    · exact length_filter_range_eq (hcount ▸ hall) r hr
    · by_cases hfull : ((range maxCount).filter p).length = maxCount
      · exact length_filter_range_eq hfull r hr
      · rw [hrows rfl (by omega) (by omega)] at hmem
        exact (mem_filter.1 hmem).2
  · intro hp
    have hmem : r ∈ (range maxCount).filter p := mem_filter.2 ⟨mem_range.2 hr, hp⟩
    have hpos := length_pos_of_mem hmem
    refine ⟨hr, ?_⟩
    by_cases hfull : ((range maxCount).filter p).length = maxCount
    · exact .inl (hcount.trans hfull)
    · refine .inr ⟨by omega, ?_⟩
      rw [hrows rfl hpos (by omega)]
      exact hmem

end ChunkVectorInfo

namespace RowVersionManager

/-- The row is visible in the manager; a vector without info shows every row. -/
def visible (N : Nat) (m : RowVersionManager) (t : TransactionData) (row : Nat) : Bool :=
  (m.getChunkInfo (row / N)).all (·.visible t (row % N))

theorem fetch_eq_visible (N : Nat) (m : RowVersionManager) (t : TransactionData) (row : Nat) :
    m.fetch N t row = m.visible N t row := by
  unfold fetch visible
  cases m.getChunkInfo (row / N) with
  | none => rfl
  | some info => exact info.fetch_eq_visible t (row % N)

theorem reports_iff_visible {N : Nat} (m : RowVersionManager) (t : Snapshot) {v r maxCount : Nat} (hr : r < N)
    (hmax : r < maxCount) :
    ChunkVectorInfo.reports maxCount (m.getSelVector ⟨t.toTransactionData, .standard, .standard⟩ v maxCount) r ↔
      m.visible N t.toTransactionData (v * N + r) = true := by
  unfold getSelVector visible
  rw [row_div hr, row_mod hr]
  cases m.getChunkInfo v with
  | none => exact iff_of_true ⟨hmax, .inl rfl⟩ rfl
  | some info =>
    exact (ChunkVectorInfo.getSelVector_right info t .standard .standard true maxCount).reports_iff hmax

/-! ## Reading a manager back -/

/-- Entries that can be read back: one for each vector, in range, and each readable. -/
structure Readable (N : Nat) (stored : List (Nat × StoredInfo)) : Prop where
  nodup : (stored.map (·.1)).Nodup
  range : ∀ e ∈ stored, e.1 * N < maxRowGroupSize
  read : ∀ e ∈ stored, ∃ info, ChunkVectorInfo.read N e.2 = .ok info

/-- The row of a vector is stored as deleted. -/
def Deletes (stored : List (Nat × StoredInfo)) (v r : Nat) : Prop := ∃ s, (v, s) ∈ stored ∧ s.deletes r = true

theorem foldlM_readEntry_ok {N : Nat} : ∀ {stored : List (Nat × StoredInfo)} (m : RowVersionManager),
    Readable N stored → ∃ m', stored.foldlM (readEntry N) m = .ok m' ∧
      (∀ e ∈ stored, ChunkVectorInfo.read N e.2 = .ok (m'.getChunkInfo e.1)) ∧
      ∀ w, w ∉ stored.map (·.1) → m'.getChunkInfo w = m.getChunkInfo w
  | [], m, _ => ⟨m, rfl, fun e he => absurd he not_mem_nil, fun _ _ => rfl⟩
  | e :: stored, m, h => by
    obtain ⟨hnot, hnd⟩ := nodup_cons.1 h.nodup
    obtain ⟨info, hread⟩ := h.read e (mem_cons_self ..)
    have hrange : ¬ e.1 * N ≥ maxRowGroupSize := Nat.not_le_of_lt (h.range e (mem_cons_self ..))
    obtain ⟨m₁, hm₁⟩ : ∃ m₁, m.readEntry N e = .ok m₁ := by
      simp only [readEntry, if_neg hrange, hread]
      exact ⟨_, rfl⟩
    obtain ⟨info', hread', -, -, hget⟩ := readEntry_ok hm₁
    obtain rfl : info = info' := Except.ok.inj (hread.symm.trans hread')
    have hrest : Readable N stored :=
      ⟨hnd, fun e he => h.range e (mem_cons_of_mem _ he), fun e he => h.read e (mem_cons_of_mem _ he)⟩
    obtain ⟨m', hm', hin, hout⟩ := foldlM_readEntry_ok m₁ hrest
    refine ⟨m', ?_, fun e' he' => ?_, fun w hw => ?_⟩
    · rw [foldlM_cons, hm₁]
      exact hm'
    · rcases mem_cons.1 he' with rfl | he'
      · rw [hout _ hnot, hget, if_pos rfl]
        exact hread
      · exact hin e' he'
    · obtain ⟨hne, hw⟩ : w ≠ e.1 ∧ w ∉ stored.map (·.1) := by simpa [not_or] using hw
      rw [hout w hw, hget, if_neg hne]

/-- Reading readable entries back gives a manager, or none if there are no entries, that hides the
stored rows from every transaction and no other row. -/
theorem deserialize_ok {N : Nat} {stored : List (Nat × StoredInfo)} (h : Readable N stored) :
    ∃ reloaded, deserialize N stored = .ok reloaded ∧ ∀ (t : Snapshot), 0 < t.startTime → ∀ v r, r < N →
      (reloaded.all (·.visible N t.toTransactionData (v * N + r)) = true ↔ ¬ Deletes stored v r) := by
  unfold deserialize
  split
  · next hempty =>
    obtain rfl := isEmpty_iff.1 hempty
    exact ⟨none, rfl, fun t _ v r _ => iff_of_true rfl fun ⟨s, hs, _⟩ => absurd hs not_mem_nil⟩
  · obtain ⟨m, hm, hin, hout⟩ := foldlM_readEntry_ok { storagePointers := stored } h
    refine ⟨some m, by rw [hm]; rfl, fun t hpos v r hr => ?_⟩
    rw [Option.all_some, visible, row_div hr, row_mod hr]
    by_cases hv : v ∈ stored.map (·.1)
    · obtain ⟨⟨v', s⟩, he, hv'⟩ := mem_map.1 hv
      dsimp only at hv'
      subst hv'
      rw [ChunkVectorInfo.read_visible (hin _ he) t hpos r]
      have huniq : ∀ s', (v', s') ∈ stored → s' = s := fun s' hs' =>
        congrArg Prod.snd (inj_on_of_nodup_map h.nodup hs' he rfl)
      constructor
      · rintro hnot ⟨s', hs', hdel⟩
        rw [huniq s' hs'] at hdel
        simp [hdel] at hnot
      · intro hnot
        by_contra hdel
        exact hnot ⟨s, he, by simpa using hdel⟩
    · rw [hout v hv]
      refine iff_of_true (by simp [getChunkInfo]) fun ⟨s, hs, _⟩ => hv (mem_map.2 ⟨_, hs, rfl⟩)

end RowVersionManager

end Haybarn.Version
