/-
The layout of a segment. A group is written as a list of bytes behind the data, and a word with its mode and its offset in
front of the metadata; the two never meet, and when a segment is finished the words are moved to the end of the data, so
that word and bytes of every group are found from the size of the segment.
-/
import Haybarn.Bitpacking.Analysis
import Haybarn.Bitpacking.Segment

namespace Haybarn.Bitpacking

open Lib Wal List Nat

variable {t : IntType} (packing : Packing t.bits)

/-! ## The bytes of a group -/

/-- Values that are packed. -/
def packed (values : Nat → t.Value) (count width : Nat) : List UInt8 :=
  (List.range (roundUpToAlgorithmGroupSize count / algorithmGroupSize)).flatMap fun group =>
    packing.pack width (CompressionState.algorithmGroup values count group)

theorem roundUp_eq (count : Nat) :
    roundUpToAlgorithmGroupSize count = algorithmGroupSize * (roundUpToAlgorithmGroupSize count / algorithmGroupSize) := by
  unfold roundUpToAlgorithmGroupSize algorithmGroupSize
  split <;> omega

theorem roundUp_le {count : Nat} (h : count ≤ metadataGroupSize) : roundUpToAlgorithmGroupSize count ≤ metadataGroupSize := by
  unfold roundUpToAlgorithmGroupSize algorithmGroupSize
  unfold metadataGroupSize at h ⊢
  split <;> omega

theorem algorithmGroup_ptr (group width : Nat) : algorithmGroupSize * group * width / 8 = group * (4 * width) := by
  have h : algorithmGroupSize * group * width = 8 * (group * (4 * width)) := by
    unfold algorithmGroupSize
    ring
  rw [h, Nat.mul_div_cancel_left _ (by decide)]

theorem length_packed (values : Nat → t.Value) (count width : Nat) :
    (packed packing values count width).length = getRequiredSize count width := by
  unfold packed getRequiredSize
  rw [length_flatMap]
  simp only [packing.length_pack, map_const', length_range, sum_replicate_nat]
  rw [← algorithmGroup_ptr, ← roundUp_eq]

theorem packBuffer_eq (block : Block) (ptr : Nat) (values : Nat → t.Value) (count width : Nat) :
    CompressionState.packBuffer packing block ptr values count width = block.write ptr (packed packing values count width) := by
  unfold CompressionState.packBuffer packed
  rw [← Cells.foldl_write (packing.length_pack width)]
  simp only [algorithmGroup_ptr]

/-- The bytes of a group, in the order they are written. -/
def Group.bytes : Group t → List UInt8
  | constant c _ => writeWord t.bytes c.toNat
  | constantDelta c frameOfReference _ => writeWord t.bytes frameOfReference.toNat ++ writeWord t.bytes c.toNat
  | deltaFor values width frameOfReference deltaOffset count =>
    writeWord t.bytes frameOfReference.toNat ++ (writeWord t.bytes width ++ (writeWord t.bytes deltaOffset.toNat
      ++ packed packing values count width))
  | for_ values width frameOfReference count =>
    writeWord t.bytes frameOfReference.toNat ++ (writeWord t.bytes width ++ packed packing values count width)

theorem getRequiredSize_le {count width : Nat} (hcount : count ≤ metadataGroupSize) (hwidth : width ≤ t.bits) :
    getRequiredSize count width ≤ metadataGroupSize * t.bytes := by
  have h := Nat.mul_le_mul (roundUp_le hcount) hwidth
  unfold getRequiredSize
  rw [IntType.bits, Nat.mul_left_comm] at h
  exact Nat.div_le_of_le_mul h

theorem Group.length_bytes_le {g : Group t} (hcount : g.count ≤ metadataGroupSize) (hwidth : g.WidthOk) :
    (g.bytes packing).length ≤ metadataGroupSize * t.bytes + 3 * t.bytes := by
  cases g with
  | constant c count =>
    rw [bytes, writeWord_length]
    omega
  | constantDelta c frameOfReference count =>
    rw [bytes, length_append, writeWord_length, writeWord_length]
    omega
  | deltaFor values width frameOfReference deltaOffset count =>
    have h : getRequiredSize count width ≤ metadataGroupSize * t.bytes := getRequiredSize_le hcount hwidth
    simp only [bytes, length_append, writeWord_length, length_packed]
    omega
  | for_ values width frameOfReference count =>
    have h : getRequiredSize count width ≤ metadataGroupSize * t.bytes := getRequiredSize_le hcount hwidth
    simp only [bytes, length_append, writeWord_length, length_packed]
    omega

/-! ## Writing a group -/

namespace CompressionState

variable {blockSize : Nat} {uninitialized : Nat → Block} {c c' : CompressionState t} {g : Group t} {gs : List (Group t)}

/-- The state behind a group that is written. -/
def put (c : CompressionState t) (g : Group t) : CompressionState t :=
  { c with
    block := (c.block.write (c.metadataPtr - metadataSize) (writeWord 4 (encodeMeta g.mode c.dataPtr))).write c.dataPtr
      (g.bytes packing)
    count := c.count + g.count
    dataPtr := c.dataPtr + (g.bytes packing).length
    metadataPtr := c.metadataPtr - metadataSize }

theorem writeGroup_eq (c : CompressionState t) (g : Group t) :
    c.writeGroup packing blockSize uninitialized g
      = (c.reserveSpace blockSize uninitialized (g.bytes packing).length).map (put packing · g) := by
  cases g with
  | constant a count =>
    rw [writeGroup, Group.bytes, writeWord_length]
    cases c.reserveSpace blockSize uninitialized t.bytes with
    | error e => rfl
    | ok c =>
      show Except.ok _ = Except.ok _
      simp only [put, Group.bytes, Group.mode, Group.count, writeMetaData, writeData, updateStats, writeWord_length]
  | constantDelta a frameOfReference count =>
    rw [writeGroup, Group.bytes, length_append, writeWord_length, writeWord_length, ← two_mul]
    cases c.reserveSpace blockSize uninitialized (2 * t.bytes) with
    | error e => rfl
    | ok c =>
      show Except.ok _ = Except.ok _
      simp only [put, Group.bytes, Group.mode, Group.count, writeMetaData, writeData, updateStats, length_append,
        writeWord_length, ← Cells.write_write_append, add_assoc]
  | deltaFor values width frameOfReference deltaOffset count =>
    have hlength : (Group.bytes packing (.deltaFor values width frameOfReference deltaOffset count)).length
        = getRequiredSize count width + 3 * t.bytes := by
      simp only [Group.bytes, length_append, writeWord_length, length_packed]
      omega
    rw [writeGroup, hlength]
    cases c.reserveSpace blockSize uninitialized (getRequiredSize count width + 3 * t.bytes) with
    | error e => rfl
    | ok c =>
      show Except.ok _ = Except.ok _
      simp only [put, Group.bytes, Group.mode, Group.count, writeMetaData, writeData, writePacked, packBuffer_eq, updateStats,
        length_append, writeWord_length, length_packed, ← Cells.write_write_append, add_assoc]
  | for_ values width frameOfReference count =>
    have hlength : (Group.bytes packing (.for_ values width frameOfReference count)).length
        = getRequiredSize count width + 2 * t.bytes := by
      simp only [Group.bytes, length_append, writeWord_length, length_packed]
      omega
    rw [writeGroup, hlength]
    cases c.reserveSpace blockSize uninitialized (getRequiredSize count width + 2 * t.bytes) with
    | error e => rfl
    | ok c =>
      show Except.ok _ = Except.ok _
      simp only [put, Group.bytes, Group.mode, Group.count, writeMetaData, writeData, writePacked, packBuffer_eq, updateStats,
        length_append, writeWord_length, length_packed, ← Cells.write_write_append, add_assoc]

end CompressionState

/-! ## Segments -/

/-- Groups that are stored in a block: from the size, the words lead to the bytes. -/
structure Stored (block : Block) (base size : Nat) (gs : List (Group t)) : Prop where
  header : block.Has base (writeWord 8 size)
  le_size : headerSize + metadataSize * gs.length ≤ size
  groups : ∀ k g, gs[k]? = some g → ∃ offset, headerSize ≤ offset ∧
    offset + (g.bytes packing).length + metadataSize * gs.length ≤ size ∧ block.Has (base + offset) (g.bytes packing) ∧
    block.Has (base + (size - metadataSize * (k + 1))) (writeWord 4 (encodeMeta g.mode offset))

theorem Stored.move {block block' : Block} {base base' size : Nat} {gs : List (Group t)}
    (h : Stored packing block base size gs) (hsame : ∀ i, i < size → block' (base' + i) = block (base + i)) :
    Stored packing block' base' size gs := by
  have hmove : ∀ {offset : Nat} {bytes : List UInt8}, offset + bytes.length ≤ size → block.Has (base + offset) bytes →
      block'.Has (base' + offset) bytes := by
    intro offset bytes hle hhas
    apply hhas.congr
    intro i hi
    rw [add_assoc, add_assoc]
    exact hsame _ (by omega)
  have hsize := h.le_size
  refine ⟨?_, hsize, ?_⟩
  · refine hmove (show 0 + (writeWord 8 size).length ≤ size from ?_) h.header
    rw [writeWord_length]
    unfold headerSize at hsize
    omega
  · intro k g hg
    obtain ⟨offset, hoffset, hle, hbytes, hmeta⟩ := h.groups k g hg
    have hk : k < gs.length := (List.getElem?_eq_some_iff.1 hg).1
    refine ⟨offset, hoffset, hle, hmove (by omega) hbytes, hmove ?_ hmeta⟩
    rw [writeWord_length]
    unfold metadataSize at hle ⊢
    omega

/-- A finished segment of groups. -/
structure SegmentOf (blockSize : Nat) (segment : Segment) (gs : List (Group t)) : Prop where
  stored : Stored packing segment.bytes 0 segment.size gs
  size_le : segment.size ≤ blockSize
  count : segment.count = (gs.map Group.count).sum

namespace CompressionState

variable {blockSize : Nat} {uninitialized : Nat → Block} {c c' : CompressionState t} {g : Group t} {gs : List (Group t)}

/-- The groups of the segment that is written. -/
structure Written (blockSize : Nat) (c : CompressionState t) (gs : List (Group t)) : Prop where
  metadataPtr : c.metadataPtr + metadataSize * gs.length = blockSize
  le_dataPtr : headerSize ≤ c.dataPtr
  dataPtr_le : c.dataPtr + headerSize ≤ c.metadataPtr
  count : c.count = (gs.map Group.count).sum
  groups : ∀ k g, gs[k]? = some g → ∃ offset, headerSize ≤ offset ∧ offset + (g.bytes packing).length ≤ c.dataPtr ∧
    c.block.Has offset (g.bytes packing) ∧
    c.block.Has (blockSize - metadataSize * (k + 1)) (writeWord 4 (encodeMeta g.mode offset))

variable {packing}

theorem Written.put (h : c.Written packing blockSize gs)
    (hspace : c.canStore blockSize (g.bytes packing).length metadataSize) :
    (c.put packing g).Written packing blockSize (gs ++ [g]) := by
  have hptr := h.metadataPtr
  have hlow := h.le_dataPtr
  have hroom : c.dataPtr + (g.bytes packing).length + headerSize + metadataSize ≤ c.metadataPtr := by
    have hle := h.dataPtr_le
    unfold canStore alignValue at hspace
    simp only [headerSize, metadataSize] at hspace hptr hlow hle ⊢
    omega
  constructor
  · simp only [CompressionState.put, List.length_append, List.length_singleton]
    unfold metadataSize headerSize at *
    omega
  · simp only [CompressionState.put]
    omega
  · simp only [CompressionState.put]
    omega
  · simp only [CompressionState.put, h.count, List.map_append, List.sum_append, List.map_cons, List.map_nil,
      List.sum_cons, List.sum_nil, add_zero]
  · intro k g' hg'
    have hend : c.metadataPtr - metadataSize + (writeWord 4 (encodeMeta g.mode c.dataPtr)).length = c.metadataPtr := by
      rw [writeWord_length]
      unfold metadataSize at *
      omega
    by_cases hk : k < gs.length
    · -- a group in front: neither of the writes meets it
      rw [List.getElem?_append_left hk] at hg'
      obtain ⟨offset, hoffset, hle, hbytes, hmeta⟩ := h.groups k g' hg'
      have hword : c.metadataPtr ≤ blockSize - metadataSize * (k + 1) := by
        unfold metadataSize at *
        omega
      refine ⟨offset, hoffset, ?_, ?_, ?_⟩
      · simp only [CompressionState.put]
        omega
      · exact (hbytes.write (.inl (by omega))).write (.inl (by omega))
      · exact (hmeta.write (.inr (by omega))).write (.inr (by omega))
    · have hlt := (List.getElem?_eq_some_iff.1 hg').1
      rw [List.length_append, List.length_singleton] at hlt
      obtain rfl : k = gs.length := by omega
      rw [List.getElem?_concat_length, Option.some.injEq] at hg'
      subst hg'
      have hword : blockSize - metadataSize * (gs.length + 1) = c.metadataPtr - metadataSize := by
        rw [mul_succ]
        omega
      refine ⟨c.dataPtr, hlow, le_refl _, Cells.has_write _ _ _, ?_⟩
      rw [hword]
      exact (Cells.has_write _ _ _).write (.inr (by omega))

theorem alignValue_le (n : Nat) : n ≤ alignValue n ∧ alignValue n < n + 8 := by
  unfold alignValue
  omega

theorem Written.flushSegment (h : c.Written packing blockSize gs) : ∃ segment,
    c.flushSegment blockSize = .ok { c with segments := c.segments ++ [segment] } ∧ SegmentOf packing blockSize segment gs := by
  have hptr := h.metadataPtr
  have hlow := h.le_dataPtr
  have hle := h.dataPtr_le
  have halign := alignValue_le c.dataPtr
  have hspace : c.canStore blockSize 0 0 := by
    unfold canStore alignValue
    unfold headerSize at *
    simp only
    omega
  unfold CompressionState.flushSegment
  rw [if_neg (not_not.2 hspace)]
  refine ⟨_, rfl, ⟨?_, ?_, ?_⟩, ?_, h.count⟩
  · show (c.compact blockSize).Has 0 _
    exact Cells.has_write _ _ _
  · show headerSize + metadataSize * gs.length ≤ alignValue c.dataPtr + (blockSize - c.metadataPtr)
    omega
  · intro k g hg
    obtain ⟨offset, hoffset, hend, hbytes, hmeta⟩ := h.groups k g hg
    have hk : k < gs.length := (List.getElem?_eq_some_iff.1 hg).1
    have hk' : metadataSize * (k + 1) ≤ metadataSize * gs.length := Nat.mul_le_mul_left _ hk
    refine ⟨offset, hoffset, ?_, ?_, ?_⟩
    · show _ ≤ alignValue c.dataPtr + (blockSize - c.metadataPtr)
      omega
    · show (c.compact blockSize).Has (0 + offset) _
      rw [Nat.zero_add]
      apply Cells.Has.write _ (.inr (by rw [writeWord_length]; exact hoffset))
      apply Cells.Has.write _ (.inl (by omega))
      exact hbytes.write (.inl (by omega))
    · -- the word has moved with the metadata
      show (c.compact blockSize).Has (0 + (alignValue c.dataPtr + (blockSize - c.metadataPtr) - metadataSize * (k + 1))) _
      apply Cells.Has.write
      · have hplace : 0 + (alignValue c.dataPtr + (blockSize - c.metadataPtr) - metadataSize * (k + 1))
            = alignValue c.dataPtr + (blockSize - metadataSize * (k + 1) - c.metadataPtr) := by
          omega
        rw [hplace]
        apply Cells.Has.copy
        · rw [Nat.add_sub_cancel' (by omega)]
          apply hmeta.write
          right
          rw [List.length_replicate]
          unfold headerSize at *
          omega
        · rw [writeWord_length]
          unfold metadataSize at *
          omega
      · right
        rw [writeWord_length]
        unfold headerSize at *
        omega
  · show alignValue c.dataPtr + (blockSize - c.metadataPtr) ≤ blockSize
    unfold headerSize at *
    omega

end CompressionState

end Haybarn.Bitpacking
