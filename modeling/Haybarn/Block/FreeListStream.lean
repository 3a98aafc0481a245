/-
The stream of the free list. When the sub-blocks that were taken have room for it, it is written without running out of
them, and `LoadFreeList` reads the words that were written.
-/
import Haybarn.Block.FreeList
import Haybarn.Metadata.Room
import Mathlib.Algebra.GroupWithZero.Nat

namespace Haybarn.Block

open Metadata Wal List

/-! ## Writing -/

/-- The handles of a writer of the free list are the blocks that were taken, in order. -/
def FreeListBlocks.supply (freeListBlocks : List MetadataPointer) (b : FreeListBlocks) (chain : List MetadataPointer) : Prop :=
  b.freeListBlocks = freeListBlocks ∧ b.index = chain.length ∧ chain <+: freeListBlocks

variable {freeListBlocks : List MetadataPointer}

theorem FreeListBlocks.freshHandles (hnodup : freeListBlocks.Nodup) (hfits : ∀ p ∈ freeListBlocks, p.Fits) :
    FreshHandles FreeListBlocks.nextHandle (FreeListBlocks.supply freeListBlocks) := by
  rintro b chain p b' ⟨hblocks, hindex, rest, hrest⟩ hnext
  unfold FreeListBlocks.nextHandle at hnext
  rw [hblocks, hindex, ← hrest, getElem?_append_right (Nat.le_refl _), Nat.sub_self] at hnext
  cases rest with
  | nil => cases hnext
  | cons q rest =>
    cases hnext
    rw [← hrest] at hnodup hfits
    refine ⟨hfits p (by simp), fun hp => ?_, hrest, by simp, rest, by rw [← hrest]; simp⟩
    exact (nodup_append.1 hnodup).2.2 p hp p mem_cons_self rfl

theorem FreeListBlocks.supplies :
    Supplies FreeListBlocks.nextHandle (FreeListBlocks.supply freeListBlocks) freeListBlocks.length := by
  rintro b chain ⟨hblocks, hindex, -⟩ hlt
  unfold FreeListBlocks.nextHandle
  rw [hblocks, hindex, getElem?_eq_getElem hlt]
  exact ⟨_, _, rfl⟩

/-- The bytes of words, each with its size. -/
def wordsBytes (words : List (Nat × Nat)) : List UInt8 := (words.map fun word => writeWord word.1 word.2).flatten

@[simp] theorem wordsBytes_nil : wordsBytes [] = [] := rfl

@[simp] theorem wordsBytes_cons (word : Nat × Nat) (words : List (Nat × Nat)) :
    wordsBytes (word :: words) = writeWord word.1 word.2 ++ wordsBytes words := rfl

@[simp] theorem wordsBytes_append (words words' : List (Nat × Nat)) :
    wordsBytes (words ++ words') = wordsBytes words ++ wordsBytes words' := by
  unfold wordsBytes
  rw [map_append, flatten_append]

theorem length_wordsBytes (words : List (Nat × Nat)) : (wordsBytes words).length = (words.map Prod.fst).sum := by
  unfold wordsBytes
  rw [length_flatten, map_map]
  congr 1
  exact map_congr_left fun word _ => writeWord_length word.1 word.2

/-- What is on disk of a stream that was written. -/
structure Written (size : BlockSize) (memory : Memory) (freeListBlocks : List MetadataPointer) (pointer : BitVec 64)
    (words : List (Nat × Nat)) (chain : List MetadataPointer) : Prop where
  subset : ∀ p ∈ chain, p ∈ freeListBlocks
  holds : Holds size.metadataBlockSize memory chain (wordsBytes words)
  room : (wordsBytes words).length ≤ chain.length * (size.metadataBlockSize - pointerSize)
  valid : pointer ≠ BitVec.allOnes 64
  sees : (Reader.start ⟨pointer, 0⟩).Sees size.metadataBlockSize chain (wordsBytes words) (wordsBytes words)

theorem writeFreeList_ok {size : BlockSize} (memory : Memory) {words : List (Nat × Nat)} (hne : freeListBlocks ≠ [])
    (hnodup : freeListBlocks.Nodup) (hfits : ∀ p ∈ freeListBlocks, p.Fits)
    (hroom : (wordsBytes words).length ≤ freeListBlocks.length * (size.metadataBlockSize - pointerSize)) :
    ∃ pointer memory' chain, writeFreeList size freeListBlocks memory words = .ok (pointer, memory')
      ∧ Written size memory' freeListBlocks pointer words chain := by
  have hfresh := FreeListBlocks.freshHandles hnodup hfits
  have hsize := size.lt_metadataBlockSize
  have hpos : 0 < freeListBlocks.length := length_pos_iff.2 hne
  have hstart : Wrote size.metadataBlockSize (FreeListBlocks.supply freeListBlocks)
      ({ supply := ⟨freeListBlocks, 0⟩, memory } : Writer FreeListBlocks) [] [] :=
    ⟨⟨nodup_nil, nofun, nofun, nofun, nofun⟩, ⟨rfl, rfl, nil_prefix⟩, .inl ⟨rfl, rfl, rfl, rfl⟩⟩
  obtain ⟨w₁, hnext⟩ := hstart.nextBlock_ok FreeListBlocks.supplies hpos
  have hpointer : Writer.getMetaBlockPointer FreeListBlocks.nextHandle size.metadataBlockSize
      ({ supply := ⟨freeListBlocks, 0⟩, memory } : Writer FreeListBlocks) = .ok (getDiskPointer w₁.currentPointer w₁.offset, w₁) := by
    unfold Writer.getMetaBlockPointer
    rw [if_pos (Nat.le_refl 0), hnext]
    rfl
  obtain ⟨p, hwrote, hblock, hoffset⟩ := hstart.nextBlock hfresh hsize (Nat.le_refl 0) hnext
  obtain ⟨w₂, hrun⟩ := Wrote.run_ok hfresh FreeListBlocks.supplies hsize (words.map fun word => writeWord word.1 word.2) w₁
    _ _ hwrote (by simp) (by simpa [wordsBytes] using hroom)
  obtain ⟨more, hmore⟩ := Wrote.run hfresh hsize _ w₁ _ _ w₂ hwrote hrun
  have hbytes : ([] : List UInt8) ++ (((words.map fun word => writeWord word.1 word.2).map WriterOp.writeData).map
      WriterOp.bytes).flatten = wordsBytes words := by
    rw [nil_append, map_map]
    congr 1
    exact map_id _
  rw [hbytes] at hmore
  obtain ⟨hsupply, -, hprefix⟩ := hmore.supply
  have hfirst : w₁.currentPointer = p := by
    obtain ⟨-, -, -, full, hfull, -⟩ := hblock
    exact (append_inj_right' hfull rfl |> singleton_inj.1).symm
  have hmem : p ∈ ([] ++ [p]) ++ more := by simp
  refine ⟨(getDiskPointer p w₁.offset).blockPointer, w₂.flush, ([] ++ [p]) ++ more, ?_,
    fun q hq => hprefix.subset hq, hmore.flush, hmore.length_le, blockPointer_ne_allOnes (hmore.holds.fits p hmem), ?_⟩
  · rw [map_map] at hrun
    unfold writeFreeList
    rw [if_neg hne]
    dsimp only
    rw [hpointer, ← hfirst]
    exact congrArg (fun run => run >>= fun w => Except.ok ((getDiskPointer w₁.currentPointer w₁.offset).blockPointer, w.flush)) hrun
  · exact ⟨0, .inl ⟨0, 0, p, 0, rfl, by omega, by simp, rfl, rfl⟩, Nat.zero_le _, rfl⟩

/-! ## Reading -/

section Reading

variable {size : BlockSize} {blocks : Memory} {chain : List MetadataPointer} {written rest : List UInt8}
  (hholds : Holds size.metadataBlockSize blocks chain written)
  (hroom : written.length ≤ chain.length * (size.metadataBlockSize - pointerSize))

include hholds hroom

theorem Loading.read_ok {l : Loading} {n v : Nat} (hv : v < 256 ^ n)
    (hl : l.reader.Sees size.metadataBlockSize chain written (writeWord n v ++ rest)) :
    ∃ l', l.read blocks size n = .ok (v, l') ∧ l'.reader.Sees size.metadataBlockSize chain written rest := by
  obtain ⟨r', hread, hr'⟩ := hl.readData size.lt_metadataBlockSize hholds hroom (fun _ => true) fun _ _ => rfl
  rw [writeWord_length] at hread
  refine ⟨⟨r', l.metadata.registerBlock r'.pointer.blockIndex⟩, ?_, hr'⟩
  unfold Loading.read
  rw [hread]
  show Except.ok (wordValue (writeWord n v), _) = _
  rw [wordValue_writeWord hv]

theorem Loading.readFreeList_ok : ∀ (ids : List Nat) (l : Loading) (freeList : Finset Nat), (∀ id ∈ ids, id < 256 ^ 8) →
    l.reader.Sees size.metadataBlockSize chain written (wordsBytes (ids.map ((8, ·))) ++ rest) →
    ∃ l', l.readFreeList blocks size ids.length freeList = .ok (freeList ∪ ids.toFinset, l')
      ∧ l'.reader.Sees size.metadataBlockSize chain written rest
  | [], l, freeList, _, hl => ⟨l, by simp [Loading.readFreeList], hl⟩
  | id :: ids, l, freeList, hids, hl => by
    rw [map_cons, wordsBytes_cons, append_assoc] at hl
    obtain ⟨l₁, hread, hl₁⟩ := Loading.read_ok hholds hroom (hids id mem_cons_self) hl
    obtain ⟨l₂, hrest, hl₂⟩ := Loading.readFreeList_ok ids l₁ (insert id freeList)
      (fun i hi => hids i (mem_cons_of_mem _ hi)) hl₁
    refine ⟨l₂, ?_, hl₂⟩
    rw [length_cons, Loading.readFreeList, hread]
    refine hrest.trans ?_
    rw [toFinset_cons, Finset.insert_union, Finset.union_insert]

theorem Loading.readMultiUseBlocks_ok : ∀ (entries : List (Σ _ : Nat, Nat)) (l : Loading) (multiUseBlocks : AList fun _ : Nat => Nat),
    (∀ entry ∈ entries, entry.1 < 256 ^ 8 ∧ entry.2 < 256 ^ 4) →
    l.reader.Sees size.metadataBlockSize chain written
      (wordsBytes (entries.flatMap fun entry => [(8, entry.1), (4, entry.2)]) ++ rest) →
    ∃ l', l.readMultiUseBlocks blocks size entries.length multiUseBlocks
        = .ok (entries.foldl (fun multiUseBlocks entry => multiUseBlocks.insert entry.1 entry.2) multiUseBlocks, l')
      ∧ l'.reader.Sees size.metadataBlockSize chain written rest
  | [], l, _, _, hl => ⟨l, rfl, hl⟩
  | entry :: entries, l, multiUseBlocks, hentries, hl => by
    obtain ⟨hid, hcount⟩ := hentries entry mem_cons_self
    simp only [flatMap_cons, cons_append, nil_append, wordsBytes_cons, append_assoc] at hl
    obtain ⟨l₁, hread₁, hl₁⟩ := Loading.read_ok hholds hroom hid hl
    obtain ⟨l₂, hread₂, hl₂⟩ := Loading.read_ok hholds hroom hcount hl₁
    obtain ⟨l₃, hrest, hl₃⟩ := Loading.readMultiUseBlocks_ok entries l₂ (multiUseBlocks.insert entry.1 entry.2)
      (fun e he => hentries e (mem_cons_of_mem _ he)) hl₂
    refine ⟨l₃, ?_, hl₃⟩
    rw [length_cons, Loading.readMultiUseBlocks]
    simp only [bind, Except.bind, hread₁, hread₂]
    exact hrest

theorem Loading.readMetadata_ok : ∀ (entries : List (Σ _ : Nat, BitVec 64)) (l : Loading),
    (∀ entry ∈ entries, entry.1 < 256 ^ 8) →
    l.reader.Sees size.metadataBlockSize chain written
      (wordsBytes (entries.flatMap fun entry => [(8, entry.1), (8, entry.2.toNat)]) ++ rest) →
    ∃ l', l.readMetadata blocks size entries.length = .ok l'
  | [], l, _, _ => ⟨l, rfl⟩
  | entry :: entries, l, hentries, hl => by
    have hmask : entry.2.toNat < 256 ^ 8 := entry.2.isLt
    simp only [flatMap_cons, cons_append, nil_append, wordsBytes_cons, append_assoc] at hl
    obtain ⟨l₁, hread₁, hl₁⟩ := Loading.read_ok hholds hroom (hentries entry mem_cons_self) hl
    obtain ⟨l₂, hread₂, hl₂⟩ := Loading.read_ok hholds hroom hmask hl₁
    obtain ⟨l₃, hrest⟩ := Loading.readMetadata_ok entries
      { l₂ with metadata := l₂.metadata.readBlock ⟨entry.1, BitVec.ofNat 64 entry.2.toNat⟩ }
      (fun e he => hentries e (mem_cons_of_mem _ he)) hl₂
    refine ⟨l₃, ?_⟩
    rw [length_cons, Loading.readMetadata]
    simp only [bind, Except.bind, hread₁, hread₂]
    exact hrest

end Reading

theorem lookup_foldl_insert : ∀ (entries : List (Σ _ : Nat, Nat)), entries.NodupKeys → ∀ (m : AList fun _ : Nat => Nat) (b : Nat),
    (entries.foldl (fun m entry => m.insert entry.1 entry.2) m).lookup b = (entries.dlookup b).or (m.lookup b)
  | [], _, m, b => by simp
  | ⟨id, count⟩ :: entries, hnodup, m, b => by
    rw [nodupKeys_cons] at hnodup
    rw [foldl_cons, lookup_foldl_insert entries hnodup.2]
    rcases eq_or_ne b id with rfl | hne
    · rw [dlookup_eq_none.2 hnodup.1, AList.lookup_insert, dlookup_cons_eq]
      rfl
    · rw [AList.lookup_insert_ne hne, dlookup_cons_ne _ _ hne]

theorem wordsBytes_freeListWords (header : Header) (image : AList fun _ : Nat => BitVec 64) :
    wordsBytes (freeListWords header image) = writeWord 8 header.freeList.card
      ++ (wordsBytes ((header.freeList.sort (· ≤ ·)).map ((8, ·)))
      ++ (writeWord 8 header.multiUseBlocks.entries.length
      ++ (wordsBytes (header.multiUseBlocks.entries.flatMap fun entry => [(8, entry.1), (4, entry.2)])
      ++ (writeWord 8 image.entries.length
      ++ (wordsBytes (image.entries.flatMap fun entry => [(8, entry.1), (8, entry.2.toNat)]) ++ []))))) := by
  simp only [freeListWords, cons_append, wordsBytes_cons, wordsBytes_append, append_assoc, append_nil]

/-- What can be written in words: the numbers of blocks have eight bytes, and the counts have four. -/
structure Header.Small (header : Header) : Prop where
  card : header.freeList.card < 256 ^ 8
  freeList : ∀ b ∈ header.freeList, b < 256 ^ 8
  length : header.multiUseBlocks.entries.length < 256 ^ 8
  multiUseBlocks : ∀ entry ∈ header.multiUseBlocks.entries, entry.1 < 256 ^ 8 ∧ entry.2 < 256 ^ 4

theorem Disk.load_ok {size : BlockSize} {disk : Disk} {header : Header} {image : AList fun _ : Nat => BitVec 64}
    {chain : List MetadataPointer}
    (hwritten : Written size disk.blocks freeListBlocks disk.header.freeList (freeListWords header image) chain)
    (hsmall : header.Small) (hlength : image.entries.length < 256 ^ 8) (himage : ∀ entry ∈ image.entries, entry.1 < 256 ^ 8) :
    ∃ manager metadata, disk.load size = .ok (manager, metadata) ∧ manager.freeList = header.freeList
      ∧ (∀ b, manager.multiUseBlocks.lookup b = header.multiUseBlocks.lookup b)
      ∧ manager.maxBlock = disk.header.blockCount := by
  obtain ⟨-, hholds, hroom, hvalid, pos, hat, hpos, hdrop⟩ := hwritten
  obtain ⟨l₁, hread₁, hl₁⟩ := Loading.read_ok (l := ⟨.start ⟨disk.header.freeList, 0⟩, .empty⟩) hholds hroom hsmall.card
    ⟨pos, hat, hpos, hdrop.trans (wordsBytes_freeListWords header image)⟩
  obtain ⟨l₂, hread₂, hl₂⟩ := Loading.readFreeList_ok hholds hroom (header.freeList.sort (· ≤ ·)) l₁ ∅
    (fun b hb => hsmall.freeList b ((Finset.mem_sort _).1 hb)) hl₁
  obtain ⟨l₃, hread₃, hl₃⟩ := Loading.read_ok hholds hroom hsmall.length hl₂
  obtain ⟨l₄, hread₄, hl₄⟩ := Loading.readMultiUseBlocks_ok hholds hroom _ l₃ ∅ hsmall.multiUseBlocks hl₃
  obtain ⟨l₅, hread₅, hl₅⟩ := Loading.read_ok hholds hroom hlength hl₄
  obtain ⟨l₆, hread₆⟩ := Loading.readMetadata_ok hholds hroom _ l₅ himage hl₅
  rw [Finset.length_sort, Finset.sort_toFinset, Finset.empty_union] at hread₂
  refine ⟨.load ⟨header.freeList, header.multiUseBlocks.entries.foldl (fun m entry => m.insert entry.1 entry.2) ∅,
    disk.header.blockCount⟩ l₆.metadata.markBlocksAsModified.1.blocks.keys.toFinset,
    l₆.metadata.markBlocksAsModified.1, ?_, rfl, fun b => ?_, rfl⟩
  · unfold Disk.load
    rw [if_neg hvalid]
    simp only [hread₁, hread₂, hread₃, hread₄, hread₅, hread₆, bind, Except.bind]
    rfl
  · refine (lookup_foldl_insert _ header.multiUseBlocks.nodupKeys ∅ b).trans ?_
    rw [AList.lookup_empty, Option.or_none]
    rfl

end Haybarn.Block
