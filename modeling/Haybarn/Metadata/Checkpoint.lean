/-
Runs of a metadata manager over checkpoints and restarts. Beside the manager, a run keeps the sub-blocks that the last
checkpoint occupies, the ones that were allocated since, and the ones that are to be kept: the masks of the manager
are these sets.
-/
import Haybarn.Lib.Run
import Haybarn.Metadata.Blocks
import Mathlib.Algebra.GroupWithZero.Nat

namespace Haybarn.Metadata

open Option

/-! ## Runs -/

/-- A metadata manager and what its last checkpoint wrote, with the sub-blocks by what they are for. -/
structure System where
  manager : MetadataManager
  image : AList fun _ : Nat => BitVec 64
  occupied : Finset MetadataPointer
  allocated : Finset MetadataPointer
  kept : Finset MetadataPointer

/-- An operation of a run. `load` is a start from the last checkpoint, which first registers the blocks that the free
list was written to. -/
inductive Op where
  | allocateHandle (order : List Nat) (peekNextBlockId newBlockId : Nat)
  | clearModifiedBlocks (pointers : List MetaBlockPointer)
  | checkpoint
  | load (freeListBlocks : List Nat)

/-- A new database. -/
def System.new : System := ⟨.empty, ∅, ∅, ∅, ∅⟩

def System.step (s : System) : Op → System
  | .allocateHandle order peekNextBlockId newBlockId =>
    match s.manager.allocateHandle order peekNextBlockId newBlockId with
    | .ok a => { s with manager := a.manager, allocated := insert a.pointer s.allocated }
    | .error _ => s
  | .clearModifiedBlocks pointers =>
    match s.manager.clearModifiedBlocks pointers with
    | .ok manager => { s with manager, kept := s.kept ∪ (pointers.map MetaBlockPointer.subBlock).toFinset }
    | .error _ => s
  | .checkpoint =>
    let manager := s.manager.markBlocksAsModified.1
    { manager, image := manager.write, occupied := s.allocated ∪ s.kept, allocated := ∅, kept := ∅ }
  | .load freeListBlocks =>
    let manager := ((freeListBlocks.foldl MetadataManager.registerBlock .empty).read s.image).markBlocksAsModified.1
    { s with manager, allocated := ∅, kept := ∅ }

/-- Pointers to be kept are of sub-blocks that the last checkpoint occupies, and so are the blocks of its free list. The
number of a block has 56 bits: a file of so many blocks has no room in 64 bits. -/
def System.Allowed (s : System) : Op → Prop
  | .allocateHandle _ _ newBlockId => newBlockId < 2 ^ 56
  | .clearModifiedBlocks pointers => ∀ pointer ∈ pointers, pointer.subBlock ∈ s.occupied
  | .checkpoint => True
  | .load freeListBlocks => ∀ blockId ∈ freeListBlocks, ∃ p ∈ s.occupied, p.blockIndex = blockId

instance (s : System) : ∀ op, Decidable (s.Allowed op)
  | .allocateHandle _ _ newBlockId => inferInstanceAs (Decidable (newBlockId < 2 ^ 56))
  | .clearModifiedBlocks pointers => inferInstanceAs (Decidable (∀ pointer ∈ pointers, pointer.subBlock ∈ s.occupied))
  | .checkpoint => .isTrue trivial
  | .load freeListBlocks =>
    inferInstanceAs (Decidable (∀ blockId ∈ freeListBlocks, ∃ p ∈ s.occupied, p.blockIndex = blockId))

/-! ## The invariant -/

/-- The manager has the sets of the run. -/
structure System.Inv (s : System) : Prop where
  ok : s.manager.Ok
  inUse : ∀ p, s.manager.InUse p ↔ p ∈ s.occupied ∨ p ∈ s.allocated
  apart : ∀ p ∈ s.allocated, p ∉ s.occupied
  kept : ∀ p ∈ s.kept, p ∈ s.occupied
  modified : ∀ p, p.index < 64 → (s.manager.Modified p ↔ p ∈ s.occupied ∧ p ∉ s.kept)
  known : ∀ blockId ∈ s.manager.modifiedBlocks, blockId ∈ s.manager.blocks
  isModified : ∀ p ∈ s.occupied, p.blockIndex ∈ s.manager.modifiedBlocks
  isNew : ∀ blockId ∈ s.manager.blocks, blockId ∉ s.manager.modifiedBlocks → ∃ p ∈ s.allocated, p.blockIndex = blockId
  image : ∀ p, p ∈ s.occupied ↔ ∃ freeList, s.image.lookup p.blockIndex = some freeList ∧ p.index < 64
    ∧ freeList.getLsbD p.index = false
  small : ∀ blockId ∈ s.manager.blocks, blockId < 2 ^ 56
  imageSmall : ∀ blockId ∈ s.image, blockId < 2 ^ 56

theorem System.inv_new : System.new.Inv where
  ok := ⟨nofun, nofun⟩
  inUse p := ⟨fun ⟨_, h, _⟩ => absurd h nofun, by simp [System.new]⟩
  apart := by simp [System.new]
  kept := by simp [System.new]
  modified p _ := ⟨fun ⟨_, h, _⟩ => absurd h nofun, by simp [System.new]⟩
  known := by simp [System.new, MetadataManager.empty]
  isModified := by simp [System.new]
  isNew := by simp [System.new, MetadataManager.empty]
  image p := ⟨by simp [System.new], fun ⟨_, h, _⟩ => absurd h nofun⟩
  small := by simp [System.new, MetadataManager.empty]
  imageSmall := by simp [System.new]

variable {s : System}

theorem System.Inv.allocateHandle {order : List Nat} {peekNextBlockId newBlockId : Nat} {a : MetadataManager.Allocation}
    (h : s.Inv) (ha : s.manager.allocateHandle order peekNextBlockId newBlockId = .ok a) :
    a.pointer ∉ s.occupied ∧ a.pointer ∉ s.allocated
      ∧ (newBlockId < 2 ^ 56 → ({ s with manager := a.manager, allocated := insert a.pointer s.allocated } : System).Inv) := by
  have hspec := allocateHandle_allocates h.ok ha
  have hfresh : a.pointer ∉ s.occupied ∧ a.pointer ∉ s.allocated := by
    rw [← not_or, ← h.inUse]
    exact hspec.fresh
  refine ⟨hfresh.1, hfresh.2, fun hnew => ⟨hspec.ok, fun p => ?_, fun p hp => ?_, h.kept, fun p hp => ?_, fun id hid => ?_,
    fun p hp => ?_, fun id hid hnot => ?_, h.image, fun id hid => ?_, h.imageSmall⟩⟩
  · rw [hspec.inUse, h.inUse, Finset.mem_insert]
    tauto
  · rcases Finset.mem_insert.1 hp with rfl | hp
    · exact hfresh.1
    · exact h.apart p hp
  · rw [← h.modified p hp]
    unfold MetadataManager.Modified
    rw [hspec.modifiedBlocks]
  · rw [hspec.modifiedBlocks] at hid
    exact (hspec.blocks id).2 (.inl (h.known id hid))
  · rw [hspec.modifiedBlocks]
    exact h.isModified p hp
  · rw [hspec.modifiedBlocks] at hnot
    rcases (hspec.blocks id).1 hid with hid | rfl
    · obtain ⟨p, hp, hindex⟩ := h.isNew id hid hnot
      exact ⟨p, Finset.mem_insert_of_mem hp, hindex⟩
    · exact ⟨a.pointer, Finset.mem_insert_self _ _, rfl⟩
  · rcases (hspec.blocks id).1 hid with hid | rfl
    · exact h.small id hid
    · rcases allocateHandle_blockIndex ha with hid | hid
      · exact h.small _ hid
      · rwa [hid]

theorem System.Inv.clearModifiedBlocks {pointers : List MetaBlockPointer} (h : s.Inv)
    (hpointers : ∀ pointer ∈ pointers, pointer.subBlock ∈ s.occupied) :
    ∃ manager, s.manager.clearModifiedBlocks pointers = .ok manager
      ∧ ({ s with manager, kept := s.kept ∪ (pointers.map MetaBlockPointer.subBlock).toFinset } : System).Inv := by
  obtain ⟨manager, hclear, hblocks, hkeys, hmodified⟩ := clearModifiedBlocks_spec pointers s.manager
    fun pointer hpointer => h.isModified _ (hpointers pointer hpointer)
  refine ⟨manager, hclear, ⟨?_, ?_⟩, fun p => ?_, h.apart, fun p hp => ?_, fun p hp => ?_, fun id hid => ?_, fun p hp => ?_,
    fun id hid hnot => ?_, h.image, fun id hid => h.small id (hblocks ▸ hid), h.imageSmall⟩
  · dsimp only
    rw [hblocks]
    exact h.ok.nodup
  · dsimp only
    rw [hblocks]
    exact h.ok.lt
  · rw [← h.inUse]
    unfold MetadataManager.InUse
    dsimp only
    rw [hblocks]
  · rcases Finset.mem_union.1 hp with hp | hp
    · exact h.kept p hp
    · obtain ⟨pointer, hpointer, rfl⟩ := List.mem_map.1 (List.mem_toFinset.1 hp)
      exact hpointers pointer hpointer
  · rw [hmodified p hp, h.modified p hp, Finset.mem_union, List.mem_toFinset]
    tauto
  · dsimp only at hid ⊢
    rw [hblocks]
    exact h.known id ((hkeys id).1 hid)
  · exact (hkeys _).2 (h.isModified p hp)
  · dsimp only at hid hnot
    rw [hblocks] at hid
    exact h.isNew id hid fun hmem => hnot ((hkeys id).2 hmem)

theorem System.Inv.inUse_markBlocksAsModified (h : s.Inv) (p : MetadataPointer) :
    s.manager.markBlocksAsModified.1.InUse p ↔ p ∈ s.allocated ∨ p ∈ s.kept := by
  rw [Metadata.inUse_markBlocksAsModified]
  constructor
  · rintro ⟨huse, hmodified⟩
    have hlt : p.index < 64 := huse.choose_spec.2.1
    rw [h.modified p hlt] at hmodified
    rcases (h.inUse p).1 huse with hp | hp
    · exact .inr (by_contra fun hnot => hmodified ⟨hp, hnot⟩)
    · exact .inl hp
  · intro hp
    have huse : s.manager.InUse p := by
      rw [h.inUse]
      exact hp.elim .inr fun hp => .inl (h.kept p hp)
    have hlt : p.index < 64 := huse.choose_spec.2.1
    refine ⟨huse, ?_⟩
    rw [h.modified p hlt]
    rintro ⟨hoccupied, hnot⟩
    exact hp.elim (fun hp => h.apart p hp hoccupied) hnot

theorem System.Inv.mem_released (h : s.Inv) {blockId : Nat} (hblock : blockId ∈ s.manager.blocks) :
    blockId ∈ s.manager.markBlocksAsModified.2
      ↔ ∀ i < 64, (⟨blockId, i⟩ : MetadataPointer) ∉ s.allocated ∧ (⟨blockId, i⟩ : MetadataPointer) ∉ s.kept := by
  rw [Metadata.mem_released]
  simp only [h.inUse_markBlocksAsModified, not_or]
  refine ⟨fun hreleased => hreleased.2.2, fun hnone => ⟨?_, hblock, hnone⟩⟩
  by_contra hnot
  obtain ⟨p, hp, rfl⟩ := h.isNew blockId hblock hnot
  have hlt : p.index < 64 := ((h.inUse p).2 (.inr hp)).choose_spec.2.1
  exact (hnone p.index hlt).1 hp

theorem inUse_iff_write (m : MetadataManager) (p : MetadataPointer) :
    m.InUse p ↔ ∃ freeList, m.write.lookup p.blockIndex = some freeList ∧ p.index < 64 ∧ freeList.getLsbD p.index = false := by
  unfold MetadataManager.InUse MetadataManager.write
  rw [lookup_mapBlocks]
  rcases m.blocks.lookup p.blockIndex with _ | block
  · simp
  · simp only [some.injEq, exists_eq_left', map_some]
    refine and_congr_right fun hlt => ?_
    rw [getLsbD_freeBlocksToInteger _ hlt, decide_eq_false_iff_not]

theorem mem_write (m : MetadataManager) (blockId : Nat) : blockId ∈ m.write ↔ blockId ∈ m.blocks := by
  unfold MetadataManager.write
  rw [← AList.lookup_isSome, ← AList.lookup_isSome, lookup_mapBlocks, isSome_map]

theorem System.Inv.checkpoint (h : s.Inv) : (s.step .checkpoint).Inv := by
  have hinUse : ∀ p, s.manager.markBlocksAsModified.1.InUse p ↔ p ∈ s.allocated ∪ s.kept := fun p => by
    rw [h.inUse_markBlocksAsModified, Finset.mem_union]
  refine ⟨markBlocksAsModified_ok h.ok, fun p => ?_, by simp [System.step], by simp [System.step], fun p hp => ?_,
    fun id hid => ?_, fun p hp => ?_, fun id hid hnot => ?_, fun p => ?_,
    fun id hid => h.small id ((mem_blocks_markBlocksAsModified _ _).1 hid).1, fun id hid => ?_⟩
  · simpa [System.step] using hinUse p
  · have hmodified := modified_markBlocksAsModified s.manager hp
    rw [hinUse] at hmodified
    simpa [System.step] using hmodified
  · exact (mem_modifiedBlocks_markBlocksAsModified s.manager id).1 hid
  · obtain ⟨block, hblock, -⟩ := (hinUse p).2 hp
    exact (mem_modifiedBlocks_markBlocksAsModified s.manager _).2 (AList.lookup_isSome.1 (isSome_of_eq_some hblock))
  · exact absurd ((mem_modifiedBlocks_markBlocksAsModified s.manager id).2 hid) hnot
  · exact (hinUse p).symm.trans (inUse_iff_write s.manager.markBlocksAsModified.1 p)
  · have hid : id ∈ s.manager.markBlocksAsModified.1.blocks := (mem_write _ _).1 hid
    exact h.small id ((mem_blocks_markBlocksAsModified _ _).1 hid).1

theorem inUse_read {image : AList fun _ : Nat => BitVec 64} {freeListBlocks : List Nat}
    (hknown : ∀ blockId ∈ freeListBlocks, blockId ∈ image) (p : MetadataPointer) :
    ((freeListBlocks.foldl MetadataManager.registerBlock .empty).read image).InUse p
      ↔ ∃ freeList, image.lookup p.blockIndex = some freeList ∧ p.index < 64 ∧ freeList.getLsbD p.index = false := by
  unfold MetadataManager.InUse MetadataManager.read
  rw [lookup_foldl_readBlock image.entries image.nodupKeys]
  have himage : image.entries.dlookup p.blockIndex = image.lookup p.blockIndex := rfl
  rw [himage]
  rcases hlookup : image.lookup p.blockIndex with _ | freeList
  · have hnot : p.blockIndex ∉ (freeListBlocks.foldl MetadataManager.registerBlock .empty).blocks := by
      rw [(mem_foldl_registerBlock freeListBlocks .empty p.blockIndex).1]
      rintro (h | h)
      · exact absurd h (AList.notMem_empty _)
      · exact AList.lookup_eq_none.1 hlookup (hknown _ h)
    rw [AList.lookup_eq_none.2 hnot]
    simp
  · simp only [some.injEq, exists_eq_left', mem_freeBlocksFromInteger, not_and, Bool.not_eq_true]
    exact and_congr_right fun hlt => ⟨fun h => h hlt, fun h _ => h⟩

theorem mem_read (m : MetadataManager) (image : AList fun _ : Nat => BitVec 64) (blockId : Nat) :
    blockId ∈ (m.read image).blocks ↔ blockId ∈ m.blocks ∨ blockId ∈ image := by
  unfold MetadataManager.read
  rw [← AList.lookup_isSome, ← AList.lookup_isSome, ← AList.lookup_isSome,
    lookup_foldl_readBlock image.entries image.nodupKeys]
  have himage : image.entries.dlookup blockId = image.lookup blockId := rfl
  rw [himage]
  rcases image.lookup blockId with _ | freeList
  · simp
  · simp

theorem read_ok {image : AList fun _ : Nat => BitVec 64} {m : MetadataManager} (hok : m.Ok) : (m.read image).Ok := by
  have hcases : ∀ blockId block, (m.read image).blocks.lookup blockId = some block →
      block.freeBlocks.Nodup ∧ ∀ i ∈ block.freeBlocks, i < 64 := by
    intro blockId block h
    unfold MetadataManager.read at h
    rw [lookup_foldl_readBlock image.entries image.nodupKeys] at h
    rcases hlookup : image.entries.dlookup blockId with _ | freeList
    all_goals rw [hlookup] at h
    · exact ⟨hok.nodup blockId block h, hok.lt blockId block h⟩
    · cases h
      exact ⟨nodup_freeBlocksFromInteger _, fun i hi => ((mem_freeBlocksFromInteger _ i).1 hi).1⟩
  exact ⟨fun blockId block h => (hcases blockId block h).1, fun blockId block h => (hcases blockId block h).2⟩

theorem foldl_registerBlock_ok : ∀ (freeListBlocks : List Nat) {m : MetadataManager}, m.Ok →
    (freeListBlocks.foldl MetadataManager.registerBlock m).Ok
  | [], _, h => h
  | blockId :: freeListBlocks, m, h => by
    refine foldl_registerBlock_ok freeListBlocks ?_
    unfold MetadataManager.registerBlock
    split
    · exact h
    · refine ⟨fun id block hblock => ?_, fun id block hblock => ?_⟩
      all_goals
        rcases eq_or_ne id blockId with rfl | hne
        · rw [AList.lookup_insert, some.injEq] at hblock
          rw [← hblock]
          simp
        · rw [AList.lookup_insert_ne hne] at hblock
          first
            | exact h.nodup id block hblock
            | exact h.lt id block hblock

theorem System.Inv.load {freeListBlocks : List Nat} (h : s.Inv)
    (hknown : ∀ blockId ∈ freeListBlocks, ∃ p ∈ s.occupied, p.blockIndex = blockId) : (s.step (.load freeListBlocks)).Inv := by
  have himage : ∀ blockId ∈ freeListBlocks, blockId ∈ s.image := by
    intro blockId hblockId
    obtain ⟨p, hp, rfl⟩ := hknown blockId hblockId
    obtain ⟨freeList, hlookup, -⟩ := (h.image p).1 hp
    exact AList.lookup_isSome.1 (isSome_of_eq_some hlookup)
  obtain ⟨m, hm⟩ : ∃ m, (freeListBlocks.foldl MetadataManager.registerBlock .empty).read s.image = m := ⟨_, rfl⟩
  have hempty : m.modifiedBlocks = ∅ := by
    rw [← hm]
    exact (modifiedBlocks_foldl_readBlock _ _).trans (mem_foldl_registerBlock freeListBlocks .empty 0).2
  have hinUse : ∀ p, m.markBlocksAsModified.1.InUse p ↔ p ∈ s.occupied := by
    intro p
    rw [Metadata.inUse_markBlocksAsModified, h.image, ← inUse_read himage, hm]
    refine and_iff_left ?_
    rintro ⟨modifiedList, hlookup, -⟩
    rw [hempty] at hlookup
    cases hlookup
  have hok : m.Ok := by
    rw [← hm]
    exact read_ok (foldl_registerBlock_ok freeListBlocks ⟨nofun, nofun⟩)
  have hstep : s.step (.load freeListBlocks) = { s with manager := m.markBlocksAsModified.1, allocated := ∅, kept := ∅ } := by
    rw [← hm]
    rfl
  rw [hstep]
  refine ⟨markBlocksAsModified_ok hok, fun p => ?_, by simp, by simp, fun p hp => ?_,
    fun id hid => ?_, fun p hp => ?_, fun id hid hnot => ?_, h.image, fun id hid => ?_, h.imageSmall⟩
  · simpa using hinUse p
  · have hmodified := modified_markBlocksAsModified m hp
    rw [hinUse] at hmodified
    simpa using hmodified
  · exact (mem_modifiedBlocks_markBlocksAsModified m id).1 hid
  · obtain ⟨block, hblock, -⟩ := (hinUse p).2 hp
    exact (mem_modifiedBlocks_markBlocksAsModified m _).2 (AList.lookup_isSome.1 (isSome_of_eq_some hblock))
  · exact absurd ((mem_modifiedBlocks_markBlocksAsModified m id).2 hid) hnot
  · have hid : id ∈ m.blocks := ((mem_blocks_markBlocksAsModified m id).1 hid).1
    rw [← hm, mem_read] at hid
    rcases hid with hid | hid
    · rcases (mem_foldl_registerBlock freeListBlocks .empty id).1.1 hid with hid | hid
      · exact absurd hid (AList.notMem_empty _)
      · exact h.imageSmall id (himage id hid)
    · exact h.imageSmall id hid

theorem System.Inv.step (h : s.Inv) (op : Op) (hop : s.Allowed op) : (s.step op).Inv := by
  cases op with
  | allocateHandle order peekNextBlockId newBlockId =>
    unfold System.step
    dsimp only
    rcases ha : s.manager.allocateHandle order peekNextBlockId newBlockId with e | a
    · exact h
    · exact (h.allocateHandle ha).2.2 hop
  | clearModifiedBlocks pointers =>
    obtain ⟨manager, hclear, hinv⟩ := h.clearModifiedBlocks hop
    unfold System.step
    dsimp only
    rw [hclear]
    exact hinv
  | checkpoint => exact h.checkpoint
  | load freeListBlocks => exact h.load hop

theorem System.inv_run (ops : List Op) (hops : Lib.Steps System.step System.Allowed System.new ops) :
    (Lib.run System.step System.new ops).Inv :=
  Lib.run_inv_of_steps (P := System.Inv) (fun _ op h hop => h.step op hop) ops System.inv_new hops

end Haybarn.Metadata
