/-
The per-row meaning of version information: every representation of the insert and delete ids stands
for two functions of the row, each operation acts on them row by row, and scans and fetches select
the rows that these functions make visible.
-/
import Haybarn.Version.ChunkInfo

namespace Haybarn.Version.ChunkVectorInfo

open Transaction Common Function List

/-! ## The two functions -/

/-- The insert id of a row. -/
def insertId (info : ChunkVectorInfo) (row : Nat) : Nat := match info.insertedData with
  | none => info.constantInsertId
  | some inserted => inserted row

/-- The delete id of a row, `NOT_DELETED_ID` for an alive row. -/
def deleteId (info : ChunkVectorInfo) (row : Nat) : Nat := match info.deleted with
  | .constant id => id
  | .masked mask id => if mask.rowIsValid row then id else notDeletedId
  | .array ids => ids row

/-- The row is selected by a scan. -/
def selects (info : ChunkVectorInfo) (options : ScanOptions) (row : Nat) : Bool :=
  options.insertType.useInsertedVersion options.transaction (info.insertId row) &&
    !options.deleteType.isDeleted options.transaction (info.deleteId row)

/-- The row is visible to the transaction. -/
def visible (info : ChunkVectorInfo) (t : TransactionData) (row : Nat) : Bool :=
  useVersion t (info.insertId row) && !useVersion t (info.deleteId row)

/-- The rows below `maxCount` that a scan selects, in increasing order. -/
def selected (info : ChunkVectorInfo) (options : ScanOptions) (maxCount : Nat) : List Nat :=
  (List.range maxCount).filter (info.selects options)

theorem getInitializedInsertedPointer_eq (info : ChunkVectorInfo) :
    info.getInitializedInsertedPointer = info.insertId := by
  funext row
  unfold getInitializedInsertedPointer insertId
  cases info.insertedData <;> rfl

theorem getInitializedDeletedPointer_eq (info : ChunkVectorInfo) :
    info.getInitializedDeletedPointer = info.deleteId := by
  funext row
  unfold getInitializedDeletedPointer deleteId
  cases info.deleted <;> rfl

/-! ## Scans and fetches -/

theorem not_useVersion_notDeletedId (t : Snapshot) : useVersion t.toTransactionData notDeletedId = false := by
  have h1 := t.startTime_le
  have h2 := t.transactionId_ne
  simp only [useVersion, Bool.or_eq_false_iff, decide_eq_false_iff_not, beq_eq_false_iff_ne]
  exact ⟨by omega, fun h => h2 h.symm⟩

theorem not_isDeleted_notDeletedId (t : Snapshot) (deleteType : DeletedScanType) :
    deleteType.isDeleted t.toTransactionData notDeletedId = false := by
  cases deleteType with
  | standard => exact not_useVersion_notDeletedId t
  | includeAllDeleted => rfl
  | omitCommittedDeletes =>
    have h := t.startTime_le
    simp only [DeletedScanType.isDeleted, decide_eq_false_iff_not]
    omega

theorem selectRows_eq (keep : Nat → Bool) (maxCount : Nat) :
    selectRows keep 0 maxCount = (range maxCount).filter keep := by
  rw [selectRows, range_eq_range', Nat.sub_zero]

theorem selectAlive_eq (mask : ValidityMask) (maxCount : Nat) :
    selectAlive mask maxCount = (range maxCount).filter fun i => !mask.rowIsValid i := by
  have hblocks : range maxCount = (range (ValidityMask.entryCount maxCount)).flatMap (Lib.block 64 maxCount) :=
    (Lib.flatMap_block (by decide) maxCount).symm
  rw [hblocks, filter_flatMap]
  refine congrArg (flatMap · _) (funext fun e => ?_)
  have hrow : ∀ i ∈ Lib.block 64 maxCount e, mask.rowIsValid i = (mask.entry e).getLsbD (i - e * 64) ∧ i - e * 64 < 64 := by
    intro i hi
    obtain ⟨h1, h2, h3⟩ := Lib.mem_block.1 hi
    have hdiv : i / 64 = e := by omega
    have hmod : i % 64 = i - e * 64 := by omega
    rw [ValidityMask.rowIsValid_eq, hdiv, hmod]
    exact ⟨rfl, by omega⟩
  simp only [bitsPerValue]
  split
  · next hall =>
    have hones : mask.entry e = BitVec.allOnes 64 := by simpa [ValidityMask.allValid] using hall
    symm
    refine filter_eq_nil_iff.2 fun i hi => ?_
    obtain ⟨hv, hlt⟩ := hrow i hi
    rw [hv, hones, BitVec.getLsbD_allOnes, decide_eq_true hlt]
    simp
  · split
    · next hnone =>
      have hzero : mask.entry e = 0#64 := by simpa [ValidityMask.noneValid] using hnone
      symm
      refine filter_eq_self.2 fun i hi => ?_
      rw [(hrow i hi).1, hzero]
      simp
    · refine filter_congr fun i hi => ?_
      obtain ⟨hv, hlt⟩ := hrow i hi
      rw [hv, ValidityMask.entryRowIsValid_eq _ hlt]

theorem length_filter_not (p : Nat → Bool) (n : Nat) :
    ((range n).filter fun i => !p i).length = n - ((range n).filter p).length := by
  have h := length_eq_length_filter_add (l := range n) p
  rw [length_range] at h
  omega

/-- A scan result is right for the rows to select: the count is, and so are the indices whenever some
but not all rows are selected and there is a selection vector. -/
def ScanRight (sel : Bool) (maxCount : Nat) (rows : List Nat) (r : Nat × List Nat) : Prop :=
  r.1 = rows.length ∧ (sel = true → 0 < rows.length → rows.length < maxCount → r.2 = rows)

theorem scanRight_emit (sel : Bool) (maxCount : Nat) (rows : List Nat) : ScanRight sel maxCount rows (emit sel rows) :=
  ⟨rfl, fun h _ _ => if_pos h⟩

theorem scanRight_none {sel : Bool} {maxCount : Nat} {rows : List Nat} (h : rows = []) :
    ScanRight sel maxCount rows (0, []) :=
  ⟨by rw [h]; rfl, fun _ _ _ => h.symm⟩

theorem scanRight_all {sel : Bool} {maxCount : Nat} {rows : List Nat} (h : rows = range maxCount) :
    ScanRight sel maxCount rows (maxCount, []) := by
  have hlen : rows.length = maxCount := by rw [h, length_range]
  exact ⟨hlen.symm, fun _ _ hlt => absurd hlen (Nat.ne_of_lt hlt)⟩

theorem templatedGetSelVector_right (info : ChunkVectorInfo) {useInserted isDeleted : Nat → Bool}
    (hnot : isDeleted notDeletedId = false) (sel : Bool) (maxCount : Nat) :
    ScanRight sel maxCount
      ((range maxCount).filter fun i => useInserted (info.insertId i) && !isDeleted (info.deleteId i))
      (info.templatedGetSelVector useInserted isDeleted sel maxCount) := by
  unfold templatedGetSelVector insertId deleteId
  rcases hd : info.deleted with id | ⟨mask, id⟩ | ids
  · dsimp only
    by_cases hdel : isDeleted id = true
    · rw [if_pos hdel]
      exact scanRight_none (filter_eq_nil_iff.2 fun i _ => by simp [hdel])
    · rw [if_neg hdel]
      have hdel : isDeleted id = false := by simpa using hdel
      cases hi : info.insertedData with
      | none =>
        dsimp only
        split
        · next hu => exact scanRight_all (filter_eq_self.2 fun i _ => by simp [hu, hdel])
        · next hu => exact scanRight_none (filter_eq_nil_iff.2 fun i _ => by simp [hu])
      | some inserted =>
        simp only [selectRows_eq, hdel, Bool.not_false, Bool.and_true]
        exact scanRight_emit ..
  · dsimp only
    have hkeep : ∀ i, (!isDeleted (if mask.rowIsValid i then id else notDeletedId)) =
        !(isDeleted id && mask.rowIsValid i) := by
      intro i
      by_cases hv : mask.rowIsValid i = true
      · simp [hv]
      · simp [hv, hnot]
    simp only [hkeep]
    cases hi : info.insertedData with
    | none =>
      dsimp only
      split
      · next hu => exact scanRight_none (filter_eq_nil_iff.2 fun i _ => by simp at hu; simp [hu])
      · next hu =>
        have hu : useInserted info.constantInsertId = true := by simpa using hu
        split
        · next hm =>
          have hm : isDeleted id = false := by simpa using hm
          exact scanRight_all (filter_eq_self.2 fun i _ => by simp [hu, hm])
        · next hm =>
          have hm : isDeleted id = true := by simpa using hm
          simp only [hu, hm, Bool.true_and]
          split
          · next hs =>
            refine ⟨?_, fun h => absurd h (by simpa using hs)⟩
            rw [length_filter_not, ValidityMask.countValid_eq]
          · next hs =>
            have hs : sel = true := by simpa using hs
            rw [selectAlive_eq, hs]
            exact scanRight_emit ..
    | some inserted =>
      simp only [selectRows_eq]
      exact scanRight_emit ..
  · dsimp only
    cases hi : info.insertedData with
    | none =>
      dsimp only
      split
      · next hu => exact scanRight_none (filter_eq_nil_iff.2 fun i _ => by simp at hu; simp [hu])
      · next hu =>
        have hu : useInserted info.constantInsertId = true := by simpa using hu
        simp only [selectRows_eq, hu, Bool.true_and]
        exact scanRight_emit ..
    | some inserted =>
      simp only [selectRows_eq]
      exact scanRight_emit ..

theorem getSelVector_right (info : ChunkVectorInfo) (t : Snapshot) (insertType : InsertedScanType)
    (deleteType : DeletedScanType) (sel : Bool) (maxCount : Nat) :
    ScanRight sel maxCount (info.selected ⟨t.toTransactionData, insertType, deleteType⟩ maxCount)
      (info.getSelVector ⟨t.toTransactionData, insertType, deleteType⟩ sel maxCount) := by
  unfold getSelVector selected selects
  split
  · next h =>
    obtain ⟨h1, h2⟩ := h
    dsimp only at h1 h2
    subst h1 h2
    exact scanRight_all (filter_eq_self.2 fun i _ => rfl)
  · exact templatedGetSelVector_right info (not_isDeleted_notDeletedId t deleteType) sel maxCount

theorem fetch_eq_visible (info : ChunkVectorInfo) (t : TransactionData) (row : Nat) :
    info.fetch t row = info.visible t row := by
  unfold fetch visible insertId deleteId
  cases info.insertedData <;> cases info.deleted <;> rfl

/-! ## Appends -/

theorem append_insertId (info : ChunkVectorInfo) {start fin id : Nat} (h : 0 < start) (row : Nat) :
    (info.append start fin id).insertId row = if start ≤ row ∧ row < fin then id else info.insertId row := by
  unfold append
  rw [if_neg (by omega)]
  split
  · next hc =>
    -- a constant that is the id already
    have hnone : info.insertedData = none := by simpa [hasConstantInsertionId] using hc.1
    have hid : info.insertId row = id := by rw [insertId, hnone]; exact hc.2
    rw [hid, ite_self]
  · rw [getInitializedInsertedPointer_eq]
    rfl

variable {info : ChunkVectorInfo} {count N row : Nat} {rows : Nat → Nat}

theorem append_zero_insertId (h : info.insertedData = none) (fin id row : Nat) :
    (info.append 0 fin id).insertId row = id := by
  simp [append, insertId, h]

theorem append_deleteId (info : ChunkVectorInfo) (start fin id : Nat) :
    (info.append start fin id).deleteId = info.deleteId := by
  unfold append
  split
  · rfl
  · split
    · rfl
    · rfl

theorem commitAppend_insertId (info : ChunkVectorInfo) (id start fin row : Nat) :
    (info.commitAppend id start fin).insertId row =
      if info.insertedData.isNone ∨ start ≤ row ∧ row < fin then id else info.insertId row := by
  unfold commitAppend
  cases h : info.insertedData with
  | none => simp [insertId]
  | some inserted => simp [insertId, h, fillRange]

theorem commitAppend_deleteId (info : ChunkVectorInfo) (id start fin : Nat) :
    (info.commitAppend id start fin).deleteId = info.deleteId := by
  unfold commitAppend
  cases info.insertedData <;> rfl

/-! ## Deletes -/

/-- Where the loop of `Delete` does not throw, it gives the transaction's id to the rows that it has
left to look at. Rewriting the row array does not disturb it, as it writes behind the index only. -/
theorem deleteLoop_ok {transactionId : Nat} : ∀ {remaining i deletedTuples n : Nat} {deleted rows deleted' rows' : Nat → Nat},
    deletedTuples ≤ i → deleteLoop transactionId remaining i deleted rows deletedTuples = (deleted', rows', .ok n) →
    ∀ row, deleted' row = if row ∈ (range' i remaining).map rows then transactionId else deleted row
  | 0, i, k, n, deleted, rows, deleted', rows', _, h, row => by
    cases h
    simp
  | remaining + 1, i, k, n, deleted, rows, deleted', rows', hk, h, row => by
    simp only [range'_succ, map_cons, mem_cons]
    unfold deleteLoop at h
    split at h
    · next hid =>
      rw [deleteLoop_ok (by omega) h row]
      by_cases hrow : row = rows i
      · rw [if_pos (Or.inl hrow), hrow, hid, ite_self]
      · simp only [hrow, false_or]
    · split at h
      · cases h
      · rw [deleteLoop_ok (by omega) h row]
        have hsame : (range' (i + 1) remaining).map (update rows k (rows i)) =
            (range' (i + 1) remaining).map rows := by
          refine map_congr_left fun j hj => update_of_ne ?_ ..
          have := mem_range'_1.1 hj
          omega
        rw [hsame]
        by_cases hrow : row = rows i
        · rw [if_pos (Or.inl hrow), hrow, update_self, ite_self]
        · rw [update_of_ne hrow]
          simp only [hrow, false_or]

theorem deleteRows_ok {transactionId n : Nat}
    (h : (info.deleteRows transactionId rows count).result = .ok n) (row : Nat) :
    (info.deleteRows transactionId rows count).info.deleteId row =
      if row ∈ (range count).map rows then transactionId else info.deleteId row := by
  unfold deleteRows at h ⊢
  rcases hl : deleteLoop transactionId count 0 info.getInitializedDeletedPointer rows 0 with ⟨deleted, rows', result⟩
  rw [hl] at h
  obtain rfl : result = .ok n := h
  have hspec := deleteLoop_ok (Nat.le_refl 0) hl row
  rw [getInitializedDeletedPointer_eq, ← range_eq_range'] at hspec
  exact hspec

theorem deletesEntireVector_iff :
    deletesEntireVector rows count = true ↔ ∀ i < count, rows i = i := by
  simp [deletesEntireVector]

theorem delete_ok {transactionId n : Nat}
    (h : (info.delete N transactionId rows count).result = .ok n) (hrow : row < N) :
    (info.delete N transactionId rows count).info.deleteId row =
      if row ∈ (range count).map rows then transactionId else info.deleteId row := by
  unfold delete at h ⊢
  rcases hd : info.deleted with id | ⟨mask, id⟩ | ids
  · rw [hd] at h
    dsimp only at h ⊢
    split
    · next hne =>
      rw [if_pos hne] at h
      dsimp only at h ⊢
      have hid : id = transactionId := by
        by_contra hc
        rw [if_neg hc] at h
        cases h
      simp [deleteId, hd, hid]
    · next hne =>
      rw [if_neg hne] at h
      split
      · next hall =>
        obtain ⟨hcount, hall⟩ := hall
        rw [deletesEntireVector_iff] at hall
        rw [if_pos (mem_map.2 ⟨row, mem_range.2 (by omega), hall row (by omega)⟩)]
        rfl
      · next hall =>
        rw [if_neg hall] at h
        exact deleteRows_ok h row
  · rw [hd] at h
    exact deleteRows_ok h row
  · rw [hd] at h
    exact deleteRows_ok h row

theorem delete_insertId (N : Nat) (info : ChunkVectorInfo) (transactionId : Nat) (rows : Nat → Nat) (count : Nat) :
    (info.delete N transactionId rows count).info.insertId = info.insertId := by
  unfold delete
  split
  · split
    · rfl
    · split
      · rfl
      · rfl
  · rfl

theorem foldl_update (id : Nat) : ∀ (l : List Nat) (f : Nat → Nat) (row : Nat),
    l.foldl (fun ids r => update ids r id) f row = if row ∈ l then id else f row
  | [], _, _ => rfl
  | a :: l, f, row => by
    rw [foldl_cons, foldl_update id l]
    by_cases ha : row = a
    · subst ha
      simp
    · rw [update_of_ne ha]
      simp [ha]

/-- What a delete can do to the id of a row, also if it throws: it stays, or the row is named, and is
alive or marked by the transaction before and after. -/
def Marked (transactionId : Nat) (named : Prop) (old new : Nat) : Prop :=
  new = old ∨ named ∧ (old = transactionId ∨ old = notDeletedId) ∧ (new = transactionId ∨ new = notDeletedId)

theorem deleteLoop_marked (transactionId : Nat) : ∀ (remaining : Nat) {i k : Nat} (deleted rows : Nat → Nat), k ≤ i →
    (∀ j < i, deleted (rows j) = transactionId) → ∀ row, Marked transactionId (∃ j < i + remaining, rows j = row)
      (deleted row) ((deleteLoop transactionId remaining i deleted rows k).1 row)
  | 0, _, _, _, _, _, _, _ => .inl rfl
  | remaining + 1, i, k, deleted, rows, hk, hmark, row => by
    unfold deleteLoop
    split
    · next hid =>
      have hmark' : ∀ j < i + 1, deleted (rows j) = transactionId := by
        intro j hj
        rcases Nat.lt_succ_iff_lt_or_eq.1 hj with hj | rfl
        · exact hmark j hj
        · exact hid
      have hrest := deleteLoop_marked transactionId remaining (k := k) deleted rows (by omega) hmark' row
      rwa [show i + 1 + remaining = i + (remaining + 1) by omega] at hrest
    · split
      · -- the rows to reset are among the first ones
        have hreset := foldl_update notDeletedId ((range i).map rows) deleted row
        rw [foldl_map] at hreset
        dsimp only
        rw [hreset]
        split
        · next hmem =>
          obtain ⟨j, hj, rfl⟩ := mem_map.1 hmem
          have hj := mem_range.1 hj
          exact .inr ⟨⟨j, by omega, rfl⟩, .inl (hmark j hj), .inr rfl⟩
        · exact .inl rfl
      · next hnot =>
        have hnot : deleted (rows i) = notDeletedId := not_not.1 hnot
        have hmark' : ∀ j < i + 1, update deleted (rows i) transactionId
            (update rows k (rows i) j) = transactionId := by
          intro j hj
          by_cases hjk : j = k
          · rw [hjk, update_self, update_self]
          · rw [update_of_ne hjk]
            by_cases hji : rows j = rows i
            · rw [hji, update_self]
            · rw [update_of_ne hji]
              exact hmark j (by have : j ≠ i := fun h => hji (h ▸ rfl); omega)
        have hnamed : (∃ j < i + 1 + remaining, update rows k (rows i) j = row) →
            ∃ j < i + (remaining + 1), rows j = row := by
          rintro ⟨j, hj, hrow⟩
          by_cases hjk : j = k
          · rw [hjk, update_self] at hrow
            exact ⟨i, by omega, hrow⟩
          · rw [update_of_ne hjk] at hrow
            exact ⟨j, by omega, hrow⟩
        have hrest := deleteLoop_marked transactionId remaining (k := k + 1) _ _ (by omega) hmark' row
        by_cases hrow : row = rows i
        · subst hrow
          rw [update_self] at hrest
          refine .inr ⟨⟨i, by omega, rfl⟩, .inr hnot, ?_⟩
          rcases hrest with hsame | ⟨-, -, hnew⟩
          · exact .inl hsame
          · exact hnew
        · rw [update_of_ne hrow] at hrest
          rcases hrest with hsame | ⟨hex, hold, hnew⟩
          · exact .inl hsame
          · exact .inr ⟨hnamed hex, hold, hnew⟩

theorem deleteRows_marked (info : ChunkVectorInfo) (transactionId : Nat) (rows : Nat → Nat) (count row : Nat) :
    Marked transactionId (∃ j < count, rows j = row) (info.deleteId row)
      ((info.deleteRows transactionId rows count).info.deleteId row) := by
  have hloop := deleteLoop_marked transactionId count info.deleteId rows (Nat.le_refl 0)
    (fun j hj => absurd hj (Nat.not_lt_zero j)) row
  rw [Nat.zero_add] at hloop
  unfold deleteRows
  rw [getInitializedDeletedPointer_eq]
  exact hloop

theorem delete_marked (info : ChunkVectorInfo) (transactionId : Nat) (rows : Nat → Nat) (count : Nat)
    (hrow : row < N) : Marked transactionId (∃ j < count, rows j = row) (info.deleteId row)
      ((info.delete N transactionId rows count).info.deleteId row) := by
  unfold delete
  split
  · next id hd =>
    split
    · exact .inl rfl
    · next hid =>
      split
      · next hall =>
        have hself := deletesEntireVector_iff.1 hall.2 row (by omega)
        refine .inr ⟨⟨row, by omega, hself⟩, .inr ?_, .inl rfl⟩
        rw [deleteId, hd]
        exact not_not.1 hid
      · exact deleteRows_marked info transactionId rows count row
  · exact deleteRows_marked info transactionId rows count row

theorem commitRows_deleteId (info : ChunkVectorInfo) (id : Nat) (di : DeleteInfo) (hrow : row < N) :
    (info.commitRows N id di).deleteId row = if row ∈ di.rowList then id else info.deleteId row := by
  have hfold := foldl_update id di.rowList info.getInitializedDeletedPointer row
  rw [getInitializedDeletedPointer_eq] at hfold
  unfold commitRows
  rw [← hfold, getInitializedDeletedPointer_eq]
  simp only [deleteId]
  split
  · next hd =>
    split at hd
    · next hall =>
      cases hd
      have h := all_eq_true.1 hall row (mem_range.2 hrow)
      exact (by simpa using h : _ = id).symm
    · cases hd
  · next hd => split at hd <;> cases hd
  · next hd =>
    split at hd
    · cases hd
    · cases hd
      rfl

theorem commitDelete_deleteId (info : ChunkVectorInfo) (id : Nat) (di : DeleteInfo)
    (hrow : row < N) :
    (info.commitDelete N id di).deleteId row = if row ∈ di.rowList then id else info.deleteId row := by
  unfold commitDelete
  split
  · next hall =>
    have hmem : row ∈ di.rowList := by
      rw [DeleteInfo.rowList, if_pos hall.1, hall.2]
      exact mem_range.2 hrow
    rw [if_pos hmem]
    rfl
  · split
    · next id' hd =>
      split
      · next heq =>
        have hid : info.deleteId row = id := by rw [deleteId, hd]; exact heq
        rw [hid, ite_self]
      · exact commitRows_deleteId info id di hrow
    · exact commitRows_deleteId info id di hrow

theorem commitDelete_insertId (N : Nat) (info : ChunkVectorInfo) (id : Nat) (di : DeleteInfo) :
    (info.commitDelete N id di).insertId = info.insertId := by
  unfold commitDelete
  split
  · rfl
  · split
    · split
      · rfl
      · rfl
    · rfl

/-! ## Masks -/

theorem rowIsValid_foldl_setInvalid (p : Nat → Prop) [DecidablePred p] (i : Nat) : ∀ (l : List Nat) (mask : ValidityMask),
    (l.foldl (fun mask j => if p j then mask.setInvalid j else mask) mask).rowIsValid i =
      (mask.rowIsValid i && !decide (i ∈ l ∧ p i))
  | [], mask => by simp
  | j :: l, mask => by
    rw [foldl_cons, rowIsValid_foldl_setInvalid p i l]
    by_cases hp : p j
    · rw [if_pos hp, ValidityMask.rowIsValid_setInvalid, Bool.and_assoc]
      congr 1
      by_cases hij : i = j
      · subst hij
        simp [hp]
      · simp [hij]
    · rw [if_neg hp]
      congr 2
      by_cases hij : i = j
      · subst hij
        simp [hp]
      · simp [hij]

theorem compressDeleteToMask_deleteId {ids : Nat → Nat} (h : info.deleted = .array ids)
    (maskId : Nat) (hrow : row < N) : (info.compressDeleteToMask N maskId).deleteId row =
      if info.deleteId row = notDeletedId then notDeletedId else maskId := by
  have hid : info.deleteId row = ids row := by rw [deleteId, h]
  rw [hid, compressDeleteToMask, h]
  simp only [deleteId]
  rw [rowIsValid_foldl_setInvalid (fun i => ids i = notDeletedId)]
  by_cases hn : ids row = notDeletedId
  · simp [hn, hrow]
  · simp [hn]

theorem compressDeleteToMask_insertId (N : Nat) (info : ChunkVectorInfo) (maskId : Nat) :
    (info.compressDeleteToMask N maskId).insertId = info.insertId := by
  unfold compressDeleteToMask
  split <;> rfl

theorem decompressDeleteMask_deleteId (info : ChunkVectorInfo) : info.decompressDeleteMask.deleteId = info.deleteId := by
  unfold decompressDeleteMask
  split
  · next mask id h => funext row; rw [deleteId, deleteId, h]
  · rfl

theorem decompressDeleteMask_insertId (info : ChunkVectorInfo) : info.decompressDeleteMask.insertId = info.insertId := by
  unfold decompressDeleteMask
  split <;> rfl

end Haybarn.Version.ChunkVectorInfo
