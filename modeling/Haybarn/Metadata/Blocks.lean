/-
The metadata manager, one operation at a time: which sub-blocks are in use after each of them. Masks are looked
through bit by bit, and the loop over the modified blocks block by block.
-/
import Haybarn.Common.ValidityMask
import Haybarn.Metadata.Manager

namespace Haybarn.Metadata

open List

/-! ## Masks -/

theorem getLsbD_one_shiftLeft (index : Nat) {i : Nat} (hi : i < 64) : (1#64 <<< index).getLsbD i = decide (i = index) := by
  rcases Nat.lt_trichotomy i index with h | rfl | h
  · simp [h, Nat.ne_of_lt h]
  · simp [hi]
  · have hne : i - index ≠ 0 := by omega
    simp [hne, Nat.ne_of_gt h]

theorem getLsbD_freeBlocksToInteger (freeBlocks : List Nat) {i : Nat} (hi : i < 64) :
    (freeBlocksToInteger freeBlocks).getLsbD i = decide (i ∈ freeBlocks) := by
  have hfold : ∀ (freeBlocks : List Nat) (result : BitVec 64),
      (freeBlocks.foldl (fun result index => result ||| 1#64 <<< index) result).getLsbD i
        = (result.getLsbD i || decide (i ∈ freeBlocks)) := by
    intro freeBlocks
    induction freeBlocks with
    | nil => simp
    | cons index freeBlocks ih =>
      intro result
      rw [foldl_cons, ih, BitVec.getLsbD_or, getLsbD_one_shiftLeft index hi, Bool.or_assoc, ← Bool.decide_or]
      simp only [mem_cons]
  simpa [freeBlocksToInteger] using hfold freeBlocks 0#64

theorem mem_freeBlocksFromInteger (freeList : BitVec 64) (i : Nat) :
    i ∈ freeBlocksFromInteger freeList ↔ i < 64 ∧ freeList.getLsbD i = true := by
  unfold freeBlocksFromInteger
  split
  next hzero => simp [hzero]
  next =>
    unfold blocksFromInteger metadataBlockCount
    rw [mem_filter, mem_reverse, mem_range]
    refine and_congr_right fun hi => ?_
    rw [← Common.ValidityMask.entryRowIsValid_eq freeList hi, Common.ValidityMask.entryRowIsValid]
    simp

theorem nodup_freeBlocksFromInteger (freeList : BitVec 64) : (freeBlocksFromInteger freeList).Nodup := by
  unfold freeBlocksFromInteger blocksFromInteger
  split
  · exact nodup_nil
  · exact (nodup_reverse.2 nodup_range).filter _

theorem eq_allOnes_iff (v : BitVec 64) : v = BitVec.allOnes 64 ↔ ∀ i < 64, v.getLsbD i = true := by
  constructor
  · rintro rfl i hi
    rw [BitVec.getLsbD_allOnes, decide_eq_true hi]
  · intro h
    refine BitVec.eq_of_getLsbD_eq fun i hi => ?_
    rw [h i hi, BitVec.getLsbD_allOnes, decide_eq_true hi]

/-! ## Sub-blocks in use -/

variable {m : MetadataManager} {order : List Nat} {peekNextBlockId newBlockId : Nat}

/-- A sub-block of a block of the manager that is not free. -/
def MetadataManager.InUse (m : MetadataManager) (p : MetadataPointer) : Prop :=
  ∃ block, m.blocks.lookup p.blockIndex = some block ∧ p.index < 64 ∧ p.index ∉ block.freeBlocks

/-- The free lists of the blocks have each sub-block at most once. -/
structure MetadataManager.Ok (m : MetadataManager) : Prop where
  nodup : ∀ blockId block, m.blocks.lookup blockId = some block → block.freeBlocks.Nodup
  lt : ∀ blockId block, m.blocks.lookup blockId = some block → ∀ i ∈ block.freeBlocks, i < 64

variable {p : MetadataPointer} {block : MetadataBlock}

theorem inUse_iff (h : m.blocks.lookup p.blockIndex = some block) :
    m.InUse p ↔ p.index < 64 ∧ p.index ∉ block.freeBlocks := by
  constructor
  · rintro ⟨block', hblock', hp⟩
    rw [h, Option.some.injEq] at hblock'
    rwa [hblock']
  · exact fun hp => ⟨block, h, hp⟩

/-! ## Allocation -/

/-- What an allocation does to the sub-blocks in use. -/
structure Allocates (m : MetadataManager) (a : MetadataManager.Allocation) : Prop where
  ok : a.manager.Ok
  index_lt : a.pointer.index < 64
  fresh : ¬m.InUse a.pointer
  inUse : ∀ p, a.manager.InUse p ↔ m.InUse p ∨ p = a.pointer
  modifiedBlocks : a.manager.modifiedBlocks = m.modifiedBlocks
  blocks : ∀ blockId, blockId ∈ a.manager.blocks ↔ blockId ∈ m.blocks ∨ blockId = a.pointer.blockIndex

theorem takeSubBlock_allocates {blockId : Nat} (hok : m.Ok)
    (hblock : m.blocks.lookup blockId = some block) (hfree : block.freeBlocks ≠ []) :
    Allocates m (m.takeSubBlock blockId block) := by
  obtain ⟨rest, index, hlist⟩ := (eq_nil_or_concat block.freeBlocks).resolve_left hfree
  rw [concat_eq_append] at hlist
  have hnodup := hok.nodup blockId block hblock
  have hlt := hok.lt blockId block hblock
  rw [hlist] at hnodup hlt
  have hnot : index ∉ rest := fun h => (nodup_append.1 hnodup).2.2 index h index (mem_singleton_self index) rfl
  have htake : m.takeSubBlock blockId block = ⟨⟨blockId, index⟩,
      { m with blocks := m.blocks.insert blockId ⟨rest, false, true⟩ }, if block.persistent then some blockId else none⟩ := by
    unfold MetadataManager.takeSubBlock
    rw [hlist, dropLast_concat, getLastD_concat]
  rw [htake]
  refine ⟨⟨?_, ?_⟩, hlt index (mem_append_right rest (mem_singleton_self index)), ?_, fun p => ?_, rfl,
    fun id => ?_⟩
  · intro id block' hblock'
    rcases eq_or_ne id blockId with rfl | hne
    · rw [AList.lookup_insert, Option.some.injEq] at hblock'
      rw [← hblock']
      exact (nodup_append.1 hnodup).1
    · rw [AList.lookup_insert_ne hne] at hblock'
      exact hok.nodup id block' hblock'
  · intro id block' hblock'
    rcases eq_or_ne id blockId with rfl | hne
    · rw [AList.lookup_insert, Option.some.injEq] at hblock'
      rw [← hblock']
      exact fun i hi => hlt i (mem_append_left _ hi)
    · rw [AList.lookup_insert_ne hne] at hblock'
      exact hok.lt id block' hblock'
  · rw [inUse_iff (p := ⟨blockId, index⟩) hblock, hlist]
    exact fun h => h.2 (mem_append_right rest (mem_singleton_self index))
  · rcases eq_or_ne p.blockIndex blockId with hp | hne
    · have hbefore : m.InUse p ↔ p.index < 64 ∧ p.index ∉ rest ++ [index] := by
        rw [← hlist]
        exact inUse_iff (by rwa [hp])
      have hafter : MetadataManager.InUse { m with blocks := m.blocks.insert blockId ⟨rest, false, true⟩ } p
          ↔ p.index < 64 ∧ p.index ∉ rest := by
        have hlookup : (m.blocks.insert blockId ⟨rest, false, true⟩).lookup p.blockIndex = some ⟨rest, false, true⟩ := by
          rw [hp]
          exact AList.lookup_insert _
        exact inUse_iff (m := { m with blocks := m.blocks.insert blockId ⟨rest, false, true⟩ }) hlookup
      rw [hbefore, hafter, mem_append, mem_singleton]
      have hpointer : p = ⟨blockId, index⟩ ↔ p.index = index :=
        ⟨fun h => h ▸ rfl, fun h => by rw [← hp, ← h]⟩
      rw [hpointer]
      constructor
      · rintro ⟨hlt, hnotin⟩
        by_cases hindex : p.index = index
        · exact .inr hindex
        · exact .inl ⟨hlt, fun h => h.elim hnotin hindex⟩
      · rintro (⟨hlt, hnotin⟩ | hindex)
        · exact ⟨hlt, fun h => hnotin (.inl h)⟩
        · rw [hindex]
          exact ⟨hlt index (mem_append_right rest (mem_singleton_self index)), hnot⟩
    · have hother : p ≠ ⟨blockId, index⟩ := fun h => hne (h ▸ rfl)
      unfold MetadataManager.InUse
      dsimp only
      rw [AList.lookup_insert_ne hne]
      simp only [hother, or_false]
  · dsimp only
    rw [AList.mem_insert, or_comm]

/-- A new block has all its sub-blocks free. -/
theorem allocateNewBlock_spec {m' : MetadataManager} (hok : m.Ok) (h : m.allocateNewBlock newBlockId = .ok m') :
    m'.Ok ∧ (∀ p, m'.InUse p ↔ m.InUse p) ∧ m'.modifiedBlocks = m.modifiedBlocks
      ∧ (∀ blockId, blockId ∈ m'.blocks ↔ blockId = newBlockId ∨ blockId ∈ m.blocks)
      ∧ ∃ block, m'.blocks.lookup newBlockId = some block ∧ block.freeBlocks ≠ [] := by
  unfold MetadataManager.allocateNewBlock at h
  split at h
  next => cases h
  next hnew =>
    cases h
    have hfree : ∀ i, i ∈ (range metadataBlockCount).map (metadataBlockCount - · - 1) ↔ i < 64 := by
      unfold metadataBlockCount
      intro i
      rw [mem_map]
      constructor
      · rintro ⟨j, hj, rfl⟩
        have hj := mem_range.1 hj
        omega
      · exact fun hi => ⟨63 - i, mem_range.2 (by omega), by omega⟩
    have hnodup : ((range metadataBlockCount).map (metadataBlockCount - · - 1)).Nodup := by decide
    refine ⟨⟨?_, ?_⟩, fun p => ?_, rfl, fun id => AList.mem_insert _, ⟨_, AList.lookup_insert _, by decide⟩⟩
    · intro id block hblock
      rcases eq_or_ne id newBlockId with rfl | hne
      · rw [AList.lookup_insert, Option.some.injEq] at hblock
        rw [← hblock]
        exact hnodup
      · rw [AList.lookup_insert_ne hne] at hblock
        exact hok.nodup id block hblock
    · intro id block hblock
      rcases eq_or_ne id newBlockId with rfl | hne
      · rw [AList.lookup_insert, Option.some.injEq] at hblock
        rw [← hblock]
        exact fun i => (hfree i).1
      · rw [AList.lookup_insert_ne hne] at hblock
        exact hok.lt id block hblock
    · unfold MetadataManager.InUse
      dsimp only
      rcases eq_or_ne p.blockIndex newBlockId with hp | hne
      · rw [hp, AList.lookup_insert, AList.lookup_eq_none.2 hnew]
        constructor
        · rintro ⟨block, hblock, hlt, hnotin⟩
          cases hblock
          exact absurd ((hfree _).2 hlt) hnotin
        · rintro ⟨block, hblock, -⟩
          cases hblock
      · rw [AList.lookup_insert_ne hne]

theorem allocateHandle_allocates {a : MetadataManager.Allocation} (hok : m.Ok)
    (h : m.allocateHandle order peekNextBlockId newBlockId = .ok a) : Allocates m a := by
  unfold MetadataManager.allocateHandle at h
  split at h
  next =>
    rcases hnew : m.allocateNewBlock newBlockId with e | m'
    · rw [hnew] at h
      cases h
    · rw [hnew] at h
      obtain ⟨hok', hinUse, hmodified, hblocks, block, hblock, hfree⟩ := allocateNewBlock_spec hok hnew
      have ha : a = m'.takeSubBlock newBlockId block := by
        have hpure : Except.ok (m'.takeSubBlock newBlockId ((m'.blocks.lookup newBlockId).getD ⟨[], false, false⟩))
            = (Except.ok a : Except MetadataError _) := h
        rw [hblock] at hpure
        exact (Except.ok.inj hpure).symm
      have htake := takeSubBlock_allocates hok' hblock hfree
      rw [← ha] at htake
      have hindex : a.pointer.blockIndex = newBlockId := by rw [ha]; rfl
      refine ⟨htake.ok, htake.index_lt, fun hp => htake.fresh ((hinUse _).2 hp), fun p => ?_,
        htake.modifiedBlocks.trans hmodified, fun id => ?_⟩
      · rw [htake.inUse, hinUse]
      · rw [htake.blocks, hblocks, hindex]
        tauto
  next freeBlock hfreeBlock =>
    obtain ⟨hfind, -⟩ := Option.filter_eq_some_iff.1 hfreeBlock
    have hany := find?_some hfind
    rcases hblock : m.blocks.lookup freeBlock with _ | block
    · rw [hblock] at hany
      cases hany
    · rw [hblock] at hany h
      cases h
      exact takeSubBlock_allocates hok hblock (by simpa using hany)

theorem allocateHandle_blockIndex {a : MetadataManager.Allocation}
    (h : m.allocateHandle order peekNextBlockId newBlockId = .ok a) :
    a.pointer.blockIndex ∈ m.blocks ∨ a.pointer.blockIndex = newBlockId := by
  unfold MetadataManager.allocateHandle at h
  split at h
  next =>
    rcases hnew : m.allocateNewBlock newBlockId with e | m'
    all_goals
      rw [hnew] at h
      cases h
    exact .inr rfl
  next freeBlock hfreeBlock =>
    cases h
    have hany := find?_some (Option.filter_eq_some_iff.1 hfreeBlock).1
    refine .inl (AList.lookup_isSome.1 ?_)
    rcases hblock : m.blocks.lookup freeBlock with _ | block
    · rw [hblock] at hany
      cases hany
    · rw [show m.blocks.lookup (m.takeSubBlock freeBlock _).pointer.blockIndex = some block from hblock]
      rfl

/-! ## Modified blocks -/

/-- What the loop over the modified blocks does to one block. -/
def releasedBlock (modifiedList : BitVec 64) (block : MetadataBlock) : Option MetadataBlock :=
  let newFreeBlocks := freeBlocksToInteger block.freeBlocks ||| modifiedList
  if newFreeBlocks = BitVec.allOnes 64 then none else some { block with freeBlocks := freeBlocksFromInteger newFreeBlocks }

/-- One round. -/
theorem releaseModified_spec (s : (AList fun _ : Nat => MetadataBlock) × List Nat) (entry : Σ _ : Nat, BitVec 64) :
    (MetadataManager.releaseModified s entry).1.lookup entry.1 = (s.1.lookup entry.1).bind (releasedBlock entry.2)
      ∧ (∀ blockId ≠ entry.1, (MetadataManager.releaseModified s entry).1.lookup blockId = s.1.lookup blockId)
      ∧ ∀ blockId, blockId ∈ (MetadataManager.releaseModified s entry).2
        ↔ blockId ∈ s.2 ∨ blockId = entry.1 ∧ ∃ block, s.1.lookup blockId = some block ∧ releasedBlock entry.2 block = none := by
  unfold MetadataManager.releaseModified releasedBlock
  rcases hblock : s.1.lookup entry.1 with _ | block
  · refine ⟨hblock, fun _ _ => rfl, fun blockId => ⟨.inl, ?_⟩⟩
    rintro (h | ⟨rfl, block, hsome, -⟩)
    · exact h
    · rw [hblock] at hsome
      cases hsome
  · dsimp only
    split
    next hall =>
      refine ⟨?_, fun blockId hne => AList.lookup_erase_ne hne, fun blockId => ?_⟩
      · rw [Option.bind_some, if_pos hall]
        exact AList.lookup_erase _ _
      · rw [mem_append, mem_singleton]
        refine or_congr_right ⟨fun h => ⟨h, block, by rw [h]; exact hblock, if_pos hall⟩, And.left⟩
    next hsome =>
      refine ⟨?_, fun blockId hne => AList.lookup_insert_ne hne, fun blockId => ⟨.inl, ?_⟩⟩
      · rw [Option.bind_some, if_neg hsome]
        exact AList.lookup_insert _
      · rintro (h | ⟨rfl, block', hblock', hnone⟩)
        · exact h
        · rw [hblock, Option.some.injEq] at hblock'
          rw [← hblock', if_neg hsome] at hnone
          cases hnone

theorem foldl_releaseModified : ∀ (entries : List (Σ _ : Nat, BitVec 64)), entries.NodupKeys →
    ∀ (s : (AList fun _ : Nat => MetadataBlock) × List Nat) (blockId : Nat),
      (entries.foldl MetadataManager.releaseModified s).1.lookup blockId
          = (match entries.dlookup blockId with
            | none => s.1.lookup blockId
            | some modifiedList => (s.1.lookup blockId).bind (releasedBlock modifiedList))
        ∧ (blockId ∈ (entries.foldl MetadataManager.releaseModified s).2 ↔ blockId ∈ s.2
          ∨ ∃ modifiedList, entries.dlookup blockId = some modifiedList
            ∧ ∃ block, s.1.lookup blockId = some block ∧ releasedBlock modifiedList block = none)
  | [], _, s, blockId => by simp
  | entry :: entries, hnodup, s, blockId => by
    obtain ⟨hnot, hnodup⟩ := nodupKeys_cons.1 hnodup
    obtain ⟨hself, hother, hreleased⟩ := releaseModified_spec s entry
    obtain ⟨hlookup, hmem⟩ := foldl_releaseModified entries hnodup (MetadataManager.releaseModified s entry) blockId
    rw [foldl_cons, hlookup, hmem, hreleased]
    obtain ⟨id, mask⟩ := entry
    dsimp only at *
    rcases eq_or_ne blockId id with rfl | hne
    · rw [dlookup_cons_eq, dlookup_eq_none.2 hnot, hself]
      simp
    · rw [dlookup_cons_ne _ _ hne, hother blockId hne]
      simp [hne]

/-- A sub-block that the next checkpoint releases. -/
def MetadataManager.Modified (m : MetadataManager) (p : MetadataPointer) : Prop :=
  ∃ modifiedList, m.modifiedBlocks.lookup p.blockIndex = some modifiedList ∧ modifiedList.getLsbD p.index = true

theorem releasedBlock_eq_none {modifiedList : BitVec 64} :
    releasedBlock modifiedList block = none
      ↔ ∀ i < 64, i ∈ block.freeBlocks ∨ modifiedList.getLsbD i = true := by
  have hbits : (∀ i < 64, (freeBlocksToInteger block.freeBlocks ||| modifiedList).getLsbD i = true)
      ↔ ∀ i < 64, i ∈ block.freeBlocks ∨ modifiedList.getLsbD i = true := by
    refine forall₂_congr fun i hi => ?_
    rw [BitVec.getLsbD_or, getLsbD_freeBlocksToInteger _ hi, Bool.or_eq_true, decide_eq_true_eq]
  unfold releasedBlock
  rw [← hbits, ← eq_allOnes_iff]
  simp

theorem releasedBlock_eq_some {modifiedList : BitVec 64} {block' : MetadataBlock}
    (h : releasedBlock modifiedList block = some block') :
    block'.freeBlocks.Nodup ∧ ∀ i, i ∈ block'.freeBlocks ↔ i < 64 ∧ (i ∈ block.freeBlocks ∨ modifiedList.getLsbD i = true) := by
  unfold releasedBlock at h
  dsimp only at h
  split at h
  next => cases h
  next =>
    cases h
    refine ⟨nodup_freeBlocksFromInteger _, fun i => ?_⟩
    rw [mem_freeBlocksFromInteger]
    refine and_congr_right fun hi => ?_
    rw [BitVec.getLsbD_or, getLsbD_freeBlocksToInteger _ hi, Bool.or_eq_true, decide_eq_true_eq]

theorem lookup_markBlocksAsModified (m : MetadataManager) (blockId : Nat) :
    m.markBlocksAsModified.1.blocks.lookup blockId
      = (match m.modifiedBlocks.lookup blockId with
        | none => m.blocks.lookup blockId
        | some modifiedList => (m.blocks.lookup blockId).bind (releasedBlock modifiedList)) :=
  (foldl_releaseModified m.modifiedBlocks.entries m.modifiedBlocks.nodupKeys (m.blocks, []) blockId).1

theorem inUse_markBlocksAsModified (m : MetadataManager) (p : MetadataPointer) :
    m.markBlocksAsModified.1.InUse p ↔ m.InUse p ∧ ¬m.Modified p := by
  unfold MetadataManager.InUse MetadataManager.Modified
  rw [lookup_markBlocksAsModified]
  rcases hmodified : m.modifiedBlocks.lookup p.blockIndex with _ | modifiedList
  · simp
  · simp only [Option.some.injEq, exists_eq_left']
    constructor
    · rintro ⟨block', hblock', hlt, hnot⟩
      obtain ⟨block, hblock, hreleased⟩ := Option.bind_eq_some_iff.1 hblock'
      obtain ⟨-, hfree⟩ := releasedBlock_eq_some hreleased
      rw [hfree] at hnot
      exact ⟨⟨block, hblock, hlt, fun h => hnot ⟨hlt, .inl h⟩⟩, fun h => hnot ⟨hlt, .inr h⟩⟩
    · rintro ⟨⟨block, hblock, hlt, hnot⟩, hbit⟩
      rcases hreleased : releasedBlock modifiedList block with _ | block'
      · exact absurd (releasedBlock_eq_none.1 hreleased p.index hlt) fun h => h.elim hnot hbit
      · obtain ⟨-, hfree⟩ := releasedBlock_eq_some hreleased
        refine ⟨block', by rw [hblock, Option.bind_some, hreleased], hlt, fun h => ?_⟩
        exact ((hfree p.index).1 h).2.elim hnot hbit

theorem mem_released (m : MetadataManager) (blockId : Nat) :
    blockId ∈ m.markBlocksAsModified.2 ↔ blockId ∈ m.modifiedBlocks ∧ blockId ∈ m.blocks
      ∧ ∀ i < 64, ¬m.markBlocksAsModified.1.InUse ⟨blockId, i⟩ := by
  have hfold := (foldl_releaseModified m.modifiedBlocks.entries m.modifiedBlocks.nodupKeys (m.blocks, []) blockId).2
  refine hfold.trans ?_
  simp only [not_mem_nil, false_or, inUse_markBlocksAsModified]
  constructor
  · rintro ⟨modifiedList, hmodified, block, hblock, hreleased⟩
    refine ⟨AList.lookup_isSome.1 (Option.isSome_of_eq_some hmodified), AList.lookup_isSome.1 (Option.isSome_of_eq_some hblock),
      fun i hi h => ?_⟩
    have hbit := releasedBlock_eq_none.1 hreleased i hi
    obtain ⟨⟨block', hblock', -, hnot⟩, hmod⟩ := h
    rw [hblock, Option.some.injEq] at hblock'
    rw [← hblock'] at hnot
    exact hbit.elim hnot fun h => hmod ⟨modifiedList, hmodified, h⟩
  · rintro ⟨hmodified, hblocks, hall⟩
    obtain ⟨modifiedList, hmodified⟩ := Option.isSome_iff_exists.1 (AList.lookup_isSome.2 hmodified)
    obtain ⟨block, hblock⟩ := Option.isSome_iff_exists.1 (AList.lookup_isSome.2 hblocks)
    refine ⟨modifiedList, hmodified, block, hblock, releasedBlock_eq_none.2 fun i hi => ?_⟩
    by_contra hnot
    rw [not_or] at hnot
    refine hall i hi ⟨⟨block, hblock, hi, hnot.1⟩, ?_⟩
    rintro ⟨modifiedList', hmodified', hbit⟩
    rw [hmodified, Option.some.injEq] at hmodified'
    rw [← hmodified'] at hbit
    exact hnot.2 hbit

theorem mem_blocks_markBlocksAsModified (m : MetadataManager) (blockId : Nat) :
    blockId ∈ m.markBlocksAsModified.1.blocks ↔ blockId ∈ m.blocks ∧ blockId ∉ m.markBlocksAsModified.2 := by
  have hfold := (foldl_releaseModified m.modifiedBlocks.entries m.modifiedBlocks.nodupKeys (m.blocks, []) blockId).2
  have hreleased : blockId ∈ m.markBlocksAsModified.2 ↔ ∃ modifiedList, m.modifiedBlocks.lookup blockId = some modifiedList
      ∧ ∃ block, m.blocks.lookup blockId = some block ∧ releasedBlock modifiedList block = none := by
    refine hfold.trans ?_
    simp only [not_mem_nil, false_or]
    rfl
  rw [hreleased, ← AList.lookup_isSome, ← AList.lookup_isSome, lookup_markBlocksAsModified]
  rcases m.modifiedBlocks.lookup blockId with _ | modifiedList
  · simp
  · rcases m.blocks.lookup blockId with _ | block
    · simp
    · simp [Option.isSome_iff_ne_none]

theorem markBlocksAsModified_ok (hok : m.Ok) : m.markBlocksAsModified.1.Ok := by
  have hcases : ∀ blockId block', m.markBlocksAsModified.1.blocks.lookup blockId = some block' →
      block'.freeBlocks.Nodup ∧ ∀ i ∈ block'.freeBlocks, i < 64 := by
    intro blockId block' h
    rw [lookup_markBlocksAsModified] at h
    rcases hmodified : m.modifiedBlocks.lookup blockId with _ | modifiedList
    all_goals rw [hmodified] at h
    · exact ⟨hok.nodup blockId block' h, hok.lt blockId block' h⟩
    · obtain ⟨block, -, hreleased⟩ := Option.bind_eq_some_iff.1 h
      obtain ⟨hnodup, hfree⟩ := releasedBlock_eq_some hreleased
      exact ⟨hnodup, fun i hi => ((hfree i).1 hi).1⟩
  exact ⟨fun blockId block' h => (hcases blockId block' h).1, fun blockId block' h => (hcases blockId block' h).2⟩

theorem lookup_mapBlocks {β : Type} (f : MetadataBlock → β) (blocks : AList fun _ : Nat => MetadataBlock) (blockId : Nat) :
    (MetadataManager.mapBlocks f blocks).lookup blockId = (blocks.lookup blockId).map f :=
  dlookup_map₂ (f := fun (_ : Nat) => f) blockId

theorem modified_occupiedLists (blocks : AList fun _ : Nat => MetadataBlock) (hp : p.index < 64) :
    (MetadataManager.mk blocks (MetadataManager.occupiedLists blocks)).Modified p
      ↔ (MetadataManager.mk blocks (MetadataManager.occupiedLists blocks)).InUse p := by
  unfold MetadataManager.Modified MetadataManager.InUse MetadataManager.occupiedLists
  dsimp only
  rw [lookup_mapBlocks]
  rcases blocks.lookup p.blockIndex with _ | block
  · simp
  · simp only [Option.map_some, Option.some.injEq, exists_eq_left', BitVec.getLsbD_not, getLsbD_freeBlocksToInteger _ hp,
      hp, decide_true, Bool.true_and, Bool.not_eq_true', decide_eq_false_iff_not, true_and]

theorem modified_markBlocksAsModified (m : MetadataManager) (hp : p.index < 64) :
    m.markBlocksAsModified.1.Modified p ↔ m.markBlocksAsModified.1.InUse p := modified_occupiedLists _ hp

theorem mem_modifiedBlocks_markBlocksAsModified (m : MetadataManager) (blockId : Nat) :
    blockId ∈ m.markBlocksAsModified.1.modifiedBlocks ↔ blockId ∈ m.markBlocksAsModified.1.blocks := by
  have hlookup : m.markBlocksAsModified.1.modifiedBlocks.lookup blockId
      = (m.markBlocksAsModified.1.blocks.lookup blockId).map fun block => ~~~freeBlocksToInteger block.freeBlocks :=
    lookup_mapBlocks _ _ _
  rw [← AList.lookup_isSome, ← AList.lookup_isSome, hlookup, Option.isSome_map]

/-- The sub-block that a pointer on disk is to. -/
def MetaBlockPointer.subBlock (pointer : MetaBlockPointer) : MetadataPointer := ⟨pointer.getBlockId, pointer.getBlockIndex⟩

/-- `ClearModifiedBlocks` of blocks that are modified keeps their sub-blocks. -/
theorem clearModifiedBlocks_spec : ∀ (pointers : List MetaBlockPointer) (m : MetadataManager),
    (∀ pointer ∈ pointers, pointer.getBlockId ∈ m.modifiedBlocks) →
    ∃ m', m.clearModifiedBlocks pointers = .ok m' ∧ m'.blocks = m.blocks
      ∧ (∀ blockId, blockId ∈ m'.modifiedBlocks ↔ blockId ∈ m.modifiedBlocks)
      ∧ ∀ p, p.index < 64 → (m'.Modified p ↔ m.Modified p ∧ p ∉ pointers.map MetaBlockPointer.subBlock)
  | [], m, _ => ⟨m, rfl, rfl, fun _ => Iff.rfl, by simp⟩
  | pointer :: pointers, m, h => by
    have hpointer : pointer.getBlockId ∈ m.modifiedBlocks := h pointer mem_cons_self
    obtain ⟨modifiedList, hmodified⟩ := Option.isSome_iff_exists.1 (AList.lookup_isSome.2 hpointer)
    unfold MetadataManager.clearModifiedBlocks
    rw [hmodified]
    dsimp only
    obtain ⟨m', hclear, hblocks, hkeys, hmod⟩ := clearModifiedBlocks_spec pointers
      { m with modifiedBlocks := m.modifiedBlocks.insert pointer.getBlockId
                (modifiedList &&& ~~~(1#64 <<< pointer.getBlockIndex)) }
      fun pointer' hpointer' => (AList.mem_insert _).2 (.inr (h pointer' (mem_cons_of_mem pointer hpointer')))
    refine ⟨m', hclear, hblocks, fun blockId => ?_, fun p hp => ?_⟩
    · rw [hkeys, AList.mem_insert]
      exact ⟨fun h => h.elim (fun he => he ▸ hpointer) id, .inr⟩
    · rw [hmod p hp, map_cons, mem_cons, not_or, ← and_assoc]
      refine and_congr_left fun _ => ?_
      unfold MetadataManager.Modified
      dsimp only
      rcases eq_or_ne p.blockIndex pointer.getBlockId with hid | hne
      · rw [hid, AList.lookup_insert, hmodified]
        have hsame : p = pointer.subBlock ↔ p.index = pointer.getBlockIndex :=
          ⟨fun h => by rw [h]; rfl, fun h => by rw [MetaBlockPointer.subBlock, ← hid, ← h]⟩
        simp only [Option.some.injEq, exists_eq_left', BitVec.getLsbD_and, BitVec.getLsbD_not, getLsbD_one_shiftLeft _ hp,
          hp, decide_true, Bool.true_and, Bool.and_eq_true, Bool.not_eq_true', decide_eq_false_iff_not, hsame]
      · have hother : p ≠ pointer.subBlock := fun he => hne (by rw [he]; rfl)
        rw [AList.lookup_insert_ne hne]
        simp [hother]

/-! ## Disk -/

theorem lookup_foldl_readBlock : ∀ (entries : List (Σ _ : Nat, BitVec 64)), entries.NodupKeys →
    ∀ (m : MetadataManager) (blockId : Nat),
      (entries.foldl MetadataManager.readBlock m).blocks.lookup blockId
        = match entries.dlookup blockId with
          | none => m.blocks.lookup blockId
          | some freeList => some { (m.blocks.lookup blockId).getD ⟨[], true, false⟩ with
              freeBlocks := freeBlocksFromInteger freeList }
  | [], _, m, blockId => rfl
  | entry :: entries, hnodup, m, blockId => by
    obtain ⟨hnot, hnodup⟩ := nodupKeys_cons.1 hnodup
    rw [foldl_cons, lookup_foldl_readBlock entries hnodup]
    obtain ⟨id, mask⟩ := entry
    unfold MetadataManager.readBlock
    dsimp only at *
    rcases eq_or_ne blockId id with rfl | hne
    · rw [dlookup_cons_eq, dlookup_eq_none.2 hnot, AList.lookup_insert]
    · rw [dlookup_cons_ne _ _ hne, AList.lookup_insert_ne hne]

theorem modifiedBlocks_foldl_readBlock (entries : List (Σ _ : Nat, BitVec 64)) (m : MetadataManager) :
    (entries.foldl MetadataManager.readBlock m).modifiedBlocks = m.modifiedBlocks := by
  induction entries generalizing m with
  | nil => rfl
  | cons entry entries ih => exact ih _

theorem mem_foldl_registerBlock (chain : List Nat) (m : MetadataManager) (blockId : Nat) :
    (blockId ∈ (chain.foldl MetadataManager.registerBlock m).blocks ↔ blockId ∈ m.blocks ∨ blockId ∈ chain)
      ∧ (chain.foldl MetadataManager.registerBlock m).modifiedBlocks = m.modifiedBlocks := by
  induction chain generalizing m with
  | nil => simp
  | cons id chain ih =>
    rw [foldl_cons, (ih _).1, (ih _).2]
    unfold MetadataManager.registerBlock
    split
    next hid =>
      refine ⟨⟨fun h => h.imp_right (mem_cons_of_mem id), fun h => ?_⟩, rfl⟩
      rcases h with h | h
      · exact .inl h
      · rcases mem_cons.1 h with rfl | h
        · exact .inl hid
        · exact .inr h
    next =>
      refine ⟨?_, rfl⟩
      rw [AList.mem_insert, mem_cons]
      tauto

end Haybarn.Metadata
