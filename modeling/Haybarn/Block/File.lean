/-
Runs of a block manager together with its metadata manager. The metadata manager has a reference of its own to each of
its blocks, and none of them is newly used; the operations of either manager keep this.
-/
import Haybarn.Block.FreeList
import Haybarn.Block.Invariant
import Haybarn.Metadata.Checkpoint

namespace Haybarn.Block

open Metadata Function List

/-! ## Runs -/

inductive FileOp where
  | block (op : Op)
  | allocateHandle (order : List Nat)
  | clearModifiedBlocks (pointers : List MetaBlockPointer)
  | flush
  | writeHeader (orders : Nat → List Nat) (readers : Finset Nat) (memory disk : Memory)

namespace File

def step (size : BlockSize) (f : File) : FileOp → File
  | .block op => { f with system := f.system.step op }
  | .allocateHandle order =>
    match f.allocateHandle order with
    | .ok (_, f') => f'
    | .error _ => f
  | .clearModifiedBlocks pointers =>
    match f.metadata.clearModifiedBlocks pointers with
    | .ok metadata => { f with metadata }
    | .error _ => f
  | .flush =>
    match f.flush with
    | .ok f' => f'
    | .error _ => f
  | .writeHeader orders readers memory disk =>
    match f.writeHeader size orders readers memory disk with
    | .ok (_, f') => f'
    | .error _ => f

/-- A header is written together with the metadata, and the reference of the metadata manager to a block is its own. -/
def Allowed (f : File) : FileOp → Prop
  | .block op => op ≠ .writeHeader ∧ f.system.Allowed op ∧ f.system.Counted op
    ∧ ∀ blockId ∈ f.metadata.blocks, op = .markBlockAsModified blockId → 1 < f.system.references blockId
  | _ => True

instance (f : File) : ∀ op, Decidable (f.Allowed op)
  | .block op => inferInstanceAs (Decidable (op ≠ .writeHeader ∧ f.system.Allowed op ∧ f.system.Counted op
    ∧ ∀ blockId ∈ f.metadata.blocks.keys, op = .markBlockAsModified blockId → 1 < f.system.references blockId))
  | .allocateHandle _ | .clearModifiedBlocks _ | .flush | .writeHeader .. => .isTrue trivial

/-- A database that is loaded, with the blocks of its metadata manager. -/
def load (header : Header) (image : AList fun _ : Nat => BitVec 64) (freeListBlocks : List Nat) : File :=
  let metadata := ((freeListBlocks.foldl MetadataManager.registerBlock .empty).read image).markBlocksAsModified.1
  ⟨.load header metadata.blocks.keys.toFinset, metadata⟩

/-! ## The invariant -/

structure Inv (f : File) : Prop where
  system : f.system.Inv False
  ok : f.metadata.Ok
  owned : ∀ b ∈ f.metadata.blocks, 0 < f.system.references b ∧ b ∉ f.system.manager.newlyUsedBlocks
  modified : ∀ p, p.index < 64 → f.metadata.Modified p → f.metadata.InUse p
  backed : ∀ b block, f.metadata.blocks.lookup b = some block → block.persistent = true ∨ block.dirty = true

end File

/-! ## Blocks that are owned -/

@[simp] theorem BlockManager.newlyUsedBlocks_increaseBlockReferenceCount (m : BlockManager) (id : Nat) :
    (m.increaseBlockReferenceCount id).newlyUsedBlocks = m.newlyUsedBlocks := by
  unfold increaseBlockReferenceCount
  split
  · rfl
  · rfl

@[simp] theorem BlockManager.newlyUsedBlocks_markBlockAsUsed (m : BlockManager) (id : Nat) :
    (m.markBlockAsUsed id).newlyUsedBlocks = m.newlyUsedBlocks := by
  unfold markBlockAsUsed
  split_ifs
  · rfl
  · rfl
  · exact m.newlyUsedBlocks_increaseBlockReferenceCount id

@[simp] theorem BlockManager.newlyUsedBlocks_addFreeBlock (m : BlockManager) (id : Nat) :
    (m.addFreeBlock id).newlyUsedBlocks = m.newlyUsedBlocks := by
  unfold addFreeBlock
  split
  · rfl
  · rfl

variable {id b : Nat} {s : System} {β : Nat → Type}

theorem BlockManager.newlyUsedBlocks_markBlockAsModified {m m' : BlockManager}
    (h : m.markBlockAsModified id = .ok m') : m'.newlyUsedBlocks ⊆ m.newlyUsedBlocks := by
  unfold markBlockAsModified at h
  split at h
  next =>
    dsimp only at h
    split at h <;> cases h <;> exact Finset.Subset.refl _
  next =>
    split_ifs at h <;> cases h
    · rw [newlyUsedBlocks_addFreeBlock]
      exact Finset.erase_subset _ _
    · exact Finset.Subset.refl _

@[simp] theorem BlockManager.newlyUsedBlocks_unregisterBlock (m : BlockManager) (id : Nat) :
    (m.unregisterBlock id).newlyUsedBlocks = m.newlyUsedBlocks := by
  unfold unregisterBlock
  dsimp only
  split
  · rfl
  · rfl

theorem System.Inv.owned_step (hs : s.Inv False) {op : Op}
    (hb : 0 < s.references b ∧ b ∉ s.manager.newlyUsedBlocks) (hlast : op = .markBlockAsModified b → 1 < s.references b) :
    0 < (s.step op).references b ∧ b ∉ (s.step op).manager.newlyUsedBlocks := by
  have hpeek := hs.peekFreeBlockId.1
  cases op with
  | getFreeBlockId | getFreeBlockIdForCheckpoint =>
    have hne : b ≠ s.manager.peekFreeBlockId := fun h => by rw [← h] at hpeek; omega
    simp only [System.step, System.getFreeBlockId, hs.getFreeBlockIdInternal_eq]
    simp [hne, hb]
  | markBlockAsCheckpointed id => exact ⟨hb.1, fun h => hb.2 (Finset.mem_of_mem_erase h)⟩
  | markBlockAsUsed id =>
    simp only [System.step, BlockManager.newlyUsedBlocks_markBlockAsUsed, update_apply]
    exact ⟨by split <;> omega, hb.2⟩
  | markBlockAsModified id =>
    unfold System.step
    dsimp only
    rcases hmodified : s.manager.markBlockAsModified id with e | manager
    · exact hb
    · refine ⟨?_, fun h => hb.2 (BlockManager.newlyUsedBlocks_markBlockAsModified hmodified h)⟩
      simp only [update_apply]
      split
      next hid =>
        have := hlast (by rw [hid])
        rw [← hid]
        omega
      next => exact hb.1
  | increaseBlockReferenceCount id =>
    simp only [System.step, BlockManager.newlyUsedBlocks_increaseBlockReferenceCount, update_apply]
    exact ⟨by split <;> omega, hb.2⟩
  | registerBlock id => exact hb
  | unregisterBlock id => simpa only [System.step, BlockManager.newlyUsedBlocks_unregisterBlock] using hb
  | truncate => exact hb
  | writeHeader => simpa only [System.step, BlockManager.writeHeader_eq] using hb

/-! ## Metadata blocks -/

theorem lookup_allocateHandle {m : MetadataManager} {order : List Nat} {peekNextBlockId newBlockId : Nat}
    {a : MetadataManager.Allocation} (h : m.allocateHandle order peekNextBlockId newBlockId = .ok a) :
    (∃ freeBlocks, a.manager.blocks.lookup a.pointer.blockIndex = some ⟨freeBlocks, false, true⟩)
      ∧ (∀ b ≠ a.pointer.blockIndex, a.manager.blocks.lookup b = m.blocks.lookup b)
      ∧ ∀ b, a.unregistered = some b → b = a.pointer.blockIndex ∧ b ∈ m.blocks := by
  unfold MetadataManager.allocateHandle at h
  split at h
  next =>
    unfold MetadataManager.allocateNewBlock at h
    split at h
    next => cases h
    next =>
      cases h
      refine ⟨⟨_, AList.lookup_insert _⟩, fun b hb => ?_, fun b hb => ?_⟩
      · exact (AList.lookup_insert_ne hb).trans (AList.lookup_insert_ne hb)
      · simp only [MetadataManager.takeSubBlock, AList.lookup_insert, Option.getD_some, Bool.false_eq_true, if_false] at hb
        cases hb
  next freeBlock hfreeBlock =>
    cases h
    have hany := find?_some (Option.filter_eq_some_iff.1 hfreeBlock).1
    refine ⟨⟨_, AList.lookup_insert _⟩, fun b hb => AList.lookup_insert_ne hb, fun b hb => ?_⟩
    unfold MetadataManager.takeSubBlock at hb
    dsimp only at hb
    split at hb
    · cases hb
      refine ⟨rfl, AList.lookup_isSome.1 ?_⟩
      rcases hblock : m.blocks.lookup freeBlock with _ | block
      · rw [hblock] at hany
        cases hany
      · rfl
    · cases hb

theorem length_entries (m : AList β) : m.entries.length = m.keys.toFinset.card := by
  rw [toFinset_card_of_nodup m.keys_nodup]
  exact (length_map _).symm

theorem length_entries_le_succ {γ : Nat → Type} {m : AList β} {m' : AList γ}
    (h : ∀ b, b ∈ m' → b ∈ m ∨ b = id) : m'.entries.length ≤ m.entries.length + 1 := by
  rw [length_entries, length_entries]
  refine (Finset.card_le_card fun b hb => ?_).trans (Finset.card_insert_le id m.keys.toFinset)
  rw [Finset.mem_insert, mem_toFinset]
  exact (h b (mem_toFinset.1 hb)).symm

theorem BlockManager.unregisterBlock_eq {m : BlockManager} (h : id ∉ m.freeBlocksInUse) :
    m.unregisterBlock id = { m with registered := m.registered.erase id } := if_neg h

theorem System.Inv.notMem_freeBlocksInUse (hs : s.Inv False) (hb : 0 < s.references b) :
    b ∉ s.manager.freeBlocksInUse := fun h => by
  have := ((hs b).inUse h).2.1
  omega

/-- A block is dirty when it is to be written. -/
def Dirty (m : MetadataManager) (b : Nat) : Prop :=
  (m.blocks.lookup b).any (·.dirty) = true

namespace File

variable {f f' : File}

/-- What a file has after a sub-block was taken. -/
structure Takes (f f' : File) (p : MetadataPointer) : Prop where
  inv : f'.Inv
  index_lt : p.index < 64
  fresh : ¬f.metadata.InUse p
  inUse : ∀ q, f'.metadata.InUse q ↔ f.metadata.InUse q ∨ q = p
  modifiedBlocks : f'.metadata.modifiedBlocks = f.metadata.modifiedBlocks
  dirty : ∀ b, Dirty f.metadata b ∨ b = p.blockIndex → Dirty f'.metadata b
  totalSize : f'.totalSize ≤ f.totalSize + 16
  maxBlock : f'.system.manager.maxBlock ≤ f.system.manager.maxBlock + 1
  freeBlocksInUse : f'.system.manager.freeBlocksInUse = f.system.manager.freeBlocksInUse

/-- What the block manager has after it gave the block of a sub-block. -/
structure Gives (f : File) (system : System) (blockId : Nat) : Prop where
  inv : system.Inv False
  owned : ∀ b, b ∈ f.metadata.blocks ∨ b = blockId → 0 < system.references b ∧ b ∉ system.manager.newlyUsedBlocks
  freeList : system.manager.freeList.card ≤ f.system.manager.freeList.card
  freeBlocksInUse : system.manager.freeBlocksInUse = f.system.manager.freeBlocksInUse
  newlyUsedBlocks : system.manager.newlyUsedBlocks = f.system.manager.newlyUsedBlocks
  modifiedBlocks : system.manager.modifiedBlocks = f.system.manager.modifiedBlocks
  multiUseBlocks : system.manager.multiUseBlocks = f.system.manager.multiUseBlocks
  maxBlock : system.manager.maxBlock ≤ f.system.manager.maxBlock + 1

theorem Inv.nextBlock (h : f.Inv) (order : List Nat) :
    ∃ blockId system, f.nextBlock order = .ok (blockId, system) ∧ f.Gives system blockId
      ∧ ∃ a, f.metadata.allocateHandle order f.system.manager.peekFreeBlockId blockId = .ok a
        ∧ a.pointer.blockIndex = blockId := by
  unfold File.nextBlock
  split
  next blockId hexisting =>
    have hmem : blockId ∈ f.metadata.blocks := by
      have hany := find?_some (Option.filter_eq_some_iff.1 hexisting).1
      rw [← AList.lookup_isSome]
      rcases hblock : f.metadata.blocks.lookup blockId with _ | block
      · rw [hblock] at hany
        cases hany
      · rfl
    refine ⟨blockId, f.system, rfl, ⟨h.system, fun b hb => h.owned b ?_, le_rfl, rfl, rfl, rfl, rfl, Nat.le_succ _⟩, ?_⟩
    · rcases hb with hb | rfl
      · exact hb
      · exact hmem
    · unfold MetadataManager.allocateHandle
      rw [hexisting]
      exact ⟨_, rfl, rfl⟩
  next hnone =>
    obtain ⟨hreferences, -, -⟩ := h.system.peekFreeBlockId
    have hnew : f.system.manager.peekFreeBlockId ∉ f.metadata.blocks := fun hmem => by
      have := (h.owned _ hmem).1
      omega
    have hallocate : ∃ a, f.metadata.allocateHandle order f.system.manager.peekFreeBlockId f.system.manager.peekFreeBlockId
        = .ok a ∧ a.pointer.blockIndex = f.system.manager.peekFreeBlockId := by
      unfold MetadataManager.allocateHandle MetadataManager.allocateNewBlock
      rw [hnone, if_neg hnew]
      exact ⟨_, rfl, rfl⟩
    have hstep := h.system.getFreeBlockId .checkpointedBlock
    have hsystem : f.system.step .getFreeBlockIdForCheckpoint =
        { f.system with
          manager := { f.system.manager with
            freeList := f.system.manager.freeList.erase f.system.manager.peekFreeBlockId
            maxBlock := if f.system.manager.freeList.Nonempty then f.system.manager.maxBlock
              else f.system.manager.maxBlock + 1 }
          references := update f.system.references f.system.manager.peekFreeBlockId 1 } := by
      simp only [System.step, System.getFreeBlockId, h.system.getFreeBlockIdInternal_eq]
      rfl
    rw [h.system.getFreeBlockIdInternal_eq]
    refine ⟨f.system.manager.peekFreeBlockId, f.system.step .getFreeBlockIdForCheckpoint, rfl,
      ⟨hstep, ?_, ?_, ?_, ?_, ?_, ?_, ?_⟩, hallocate⟩
    · rintro b (hb | rfl)
      · exact h.system.owned_step (h.owned b hb) (by simp)
      · have hnewly : f.system.manager.peekFreeBlockId ∉ f.system.manager.newlyUsedBlocks := by
          have hblock := h.system f.system.manager.peekFreeBlockId
          obtain ⟨-, hmem⟩ | ⟨-, hpeek⟩ := f.system.manager.peekFreeBlockId_cases
          · exact (hblock.free hmem).2.2.2.1
          · exact fun hmem => absurd (hblock.newly hmem) (by omega)
        rw [hsystem]
        simpa using hnewly
    all_goals rw [hsystem]
    · exact Finset.card_erase_le
    · dsimp only
      split <;> omega

theorem Gives.convertToTransient {system : System} {blockId : Nat} (h : f.Gives system blockId) {unregistered : Option Nat}
    (hmem : ∀ b, unregistered = some b → b ∈ f.metadata.blocks) :
    f.Gives (File.convertToTransient system unregistered) blockId := by
  cases unregistered with
  | none => exact h
  | some b =>
    have hwaiting := h.inv.notMem_freeBlocksInUse (h.owned b (.inl (hmem b rfl))).1
    have hstep : system.step (.unregisterBlock b)
        = { system with manager := { system.manager with registered := system.manager.registered.erase b } } := by
      unfold System.step
      dsimp only
      rw [BlockManager.unregisterBlock_eq hwaiting]
    have hinv := h.inv.unregisterBlock b
    show f.Gives (system.step (.unregisterBlock b)) blockId
    rw [hstep] at hinv ⊢
    exact ⟨hinv, h.owned, h.freeList, h.freeBlocksInUse, h.newlyUsedBlocks, h.modifiedBlocks, h.multiUseBlocks, h.maxBlock⟩

theorem Inv.allocateHandle (h : f.Inv) (order : List Nat) :
    ∃ p f', f.allocateHandle order = .ok (p, f') ∧ f.Takes f' p := by
  obtain ⟨blockId, system, hnext, hgives, a, ha, rfl⟩ := h.nextBlock order
  obtain ⟨⟨freeBlocks, hlookup⟩, hother, hunregistered⟩ := lookup_allocateHandle ha
  have hspec := allocateHandle_allocates h.ok ha
  have hgives := hgives.convertToTransient fun b hb => (hunregistered b hb).2
  refine ⟨a.pointer, ⟨File.convertToTransient system a.unregistered, a.manager⟩, ?_, ⟨⟨hgives.inv, hspec.ok, fun b hb => hgives.owned b ((hspec.blocks b).1 hb),
    fun p hp hmodified => (hspec.inUse p).2 (.inl (h.modified p hp ?_)), fun b block hblock => ?_⟩, hspec.index_lt, hspec.fresh,
    hspec.inUse, hspec.modifiedBlocks, fun b hb => ?_, ?_, hgives.maxBlock, hgives.freeBlocksInUse⟩⟩
  · simp only [File.allocateHandle, bind, Except.bind, hnext, ha]
  · unfold MetadataManager.Modified at hmodified ⊢
    rwa [hspec.modifiedBlocks] at hmodified
  · by_cases hb : b = a.pointer.blockIndex
    · rw [hb, hlookup, Option.some.injEq] at hblock
      exact .inr (by rw [← hblock])
    · rw [hother b hb] at hblock
      exact h.backed b block hblock
  · unfold Dirty
    by_cases hindex : b = a.pointer.blockIndex
    · rw [hindex, hlookup]
      rfl
    · rw [hother b hindex]
      exact hb.resolve_right hindex
  · have hmetadata : a.manager.blocks.entries.length ≤ f.metadata.blocks.entries.length + 1 :=
      length_entries_le_succ fun b hb => (hspec.blocks b).1 hb
    have hfree := hgives.freeList
    unfold totalSize
    dsimp only
    rw [hgives.freeBlocksInUse, hgives.newlyUsedBlocks, hgives.modifiedBlocks, hgives.multiUseBlocks]
    omega

end File

/-! ## Metadata blocks that are released -/

/-- The number of blocks in the lists of the free list. -/
def BlockManager.listed (m : BlockManager) : Nat :=
  m.freeList.card + m.modifiedBlocks.card + m.freeBlocksInUse.card + m.newlyUsedBlocks.card

theorem length_entries_le {γ : Nat → Type} {m : AList β} {m' : AList γ} (h : ∀ b, b ∈ m' → b ∈ m) :
    m'.entries.length ≤ m.entries.length := by
  rw [length_entries, length_entries]
  refine Finset.card_le_card fun b hb => ?_
  rw [mem_toFinset] at hb ⊢
  exact h b hb

/-- What the block manager has after metadata blocks were released. -/
structure Releases (s s' : System) (blockIds : List Nat) : Prop where
  inv : s'.Inv False
  owned : ∀ b ∉ blockIds, 0 < s.references b ∧ b ∉ s.manager.newlyUsedBlocks →
    0 < s'.references b ∧ b ∉ s'.manager.newlyUsedBlocks
  listed : s'.manager.listed ≤ s.manager.listed + blockIds.length
  multiUseBlocks : s'.manager.multiUseBlocks.entries.length ≤ s.manager.multiUseBlocks.entries.length
  freeBlocksInUse : s'.manager.freeBlocksInUse = s.manager.freeBlocksInUse
  maxBlock : s'.manager.maxBlock = s.manager.maxBlock

theorem System.Inv.markBlockAsModified_ok (hs : s.Inv False) (hpos : 0 < s.references b)
    (hnewly : b ∉ s.manager.newlyUsedBlocks) :
    (s.manager.markBlockAsModified b = .ok { s.manager with modifiedBlocks := insert b s.manager.modifiedBlocks })
      ∨ ∃ multiUseBlocks, (∀ id, id ∈ multiUseBlocks → id ∈ s.manager.multiUseBlocks)
        ∧ s.manager.markBlockAsModified b = .ok { s.manager with multiUseBlocks } := by
  have hb := hs b
  unfold BlockManager.markBlockAsModified
  rw [hb.multi]
  by_cases hcount : 2 ≤ s.references b
  · have hmem : b ∈ s.manager.multiUseBlocks := by
      rw [← AList.lookup_isSome, hb.multi, if_pos hcount]
      rfl
    rw [if_pos hcount]
    dsimp only
    split
    · exact .inr ⟨s.manager.multiUseBlocks.erase b, fun id hid => (AList.mem_erase.1 hid).2, rfl⟩
    · refine .inr ⟨s.manager.multiUseBlocks.insert b _, fun id hid => ?_, rfl⟩
      rcases (AList.mem_insert _).1 hid with rfl | hid
      · exact hmem
      · exact hid
  · have hfree : b ∉ s.manager.freeList := fun h => by have := (hb.free h).2.1; omega
    have hmodified : b ∉ s.manager.modifiedBlocks := fun h => by have := (hb.modified h).2.1; omega
    rw [if_neg hcount]
    dsimp only
    rw [if_neg hmodified, if_neg hfree, if_neg hnewly]
    exact .inl rfl

theorem System.Inv.releaseBlock (hs : s.Inv False)
    (hb : 0 < s.references b ∧ b ∉ s.manager.newlyUsedBlocks) (readers : Finset Nat) :
    ∃ s', File.releaseBlock readers s b = .ok s' ∧ Releases s s' [b] := by
  -- the handle only makes a difference for `registered`
  obtain ⟨registered, hhandle⟩ : ∃ registered, (if b ∈ readers then s else s.step (.unregisterBlock b))
      = { s with manager := { s.manager with registered } } := by
    split
    · exact ⟨s.manager.registered, rfl⟩
    · refine ⟨s.manager.registered.erase b, ?_⟩
      unfold System.step
      dsimp only
      rw [BlockManager.unregisterBlock_eq (hs.notMem_freeBlocksInUse hb.1)]
  have hs' : ({ s with manager := { s.manager with registered } } : System).Inv False := by
    rw [← hhandle]
    split
    · exact hs
    · exact hs.unregisterBlock b
  have hinv : (System.step _ (.markBlockAsModified b)).Inv False := hs'.markBlockAsModified hb.1
  have howned : ∀ id ∉ [b], 0 < s.references id ∧ id ∉ s.manager.newlyUsedBlocks →
      0 < (System.step _ (.markBlockAsModified b)).references id
        ∧ id ∉ (System.step _ (.markBlockAsModified b)).manager.newlyUsedBlocks := fun id hid h =>
    hs'.owned_step h fun heq => absurd (mem_singleton.2 (Op.markBlockAsModified.inj heq).symm) hid
  unfold File.releaseBlock
  rw [hhandle]
  dsimp only
  obtain hok | ⟨multiUseBlocks, hmulti, hok⟩ := hs'.markBlockAsModified_ok hb.1 hb.2
  · have hstep : ({ s with manager := { s.manager with registered } } : System).step (.markBlockAsModified b)
        = { s with
            manager := { s.manager with registered, modifiedBlocks := insert b s.manager.modifiedBlocks }
            references := update s.references b (s.references b - 1) } := by
      unfold System.step
      dsimp only
      rw [hok]
    rw [hok]
    refine ⟨_, rfl, hinv, howned, ?_, ?_, ?_, ?_⟩
    all_goals rw [hstep]
    have hcard := Finset.card_insert_le b s.manager.modifiedBlocks
    unfold BlockManager.listed
    dsimp only [length_singleton]
    omega
  · have hstep : ({ s with manager := { s.manager with registered } } : System).step (.markBlockAsModified b)
        = { s with
            manager := { s.manager with registered, multiUseBlocks }
            references := update s.references b (s.references b - 1) } := by
      unfold System.step
      dsimp only
      rw [hok]
    rw [hok]
    refine ⟨_, rfl, hinv, howned, ?_, ?_, ?_, ?_⟩
    all_goals rw [hstep]
    · exact Nat.le_succ _
    · exact length_entries_le hmulti

theorem System.Inv.releaseBlocks (readers : Finset Nat) : ∀ (blockIds : List Nat) {s : System}, s.Inv False → blockIds.Nodup →
    (∀ b ∈ blockIds, 0 < s.references b ∧ b ∉ s.manager.newlyUsedBlocks) →
    ∃ s', blockIds.foldlM (File.releaseBlock readers) s = .ok s' ∧ Releases s s' blockIds
  | [], s, hs, _, _ => ⟨s, rfl, hs, fun _ _ => id, Nat.le_refl _, Nat.le_refl _, rfl, rfl⟩
  | b :: blockIds, s, hs, hnodup, howned => by
    obtain ⟨hnot, hnodup⟩ := nodup_cons.1 hnodup
    obtain ⟨s₁, hrelease, h₁⟩ := hs.releaseBlock (howned b mem_cons_self) readers
    have howned₁ : ∀ id ∈ blockIds, 0 < s₁.references id ∧ id ∉ s₁.manager.newlyUsedBlocks := fun id hid =>
      h₁.owned id (fun h => hnot (mem_singleton.1 h ▸ hid)) (howned id (mem_cons_of_mem _ hid))
    obtain ⟨s₂, hrest, h₂⟩ := System.Inv.releaseBlocks readers blockIds h₁.inv hnodup howned₁
    refine ⟨s₂, ?_, h₂.inv, fun id hid h => ?_, ?_, h₂.multiUseBlocks.trans h₁.multiUseBlocks,
      h₂.freeBlocksInUse.trans h₁.freeBlocksInUse, h₂.maxBlock.trans h₁.maxBlock⟩
    · rw [foldlM_cons, hrelease]
      exact hrest
    · rw [mem_cons, not_or] at hid
      exact h₂.owned id hid.2 (h₁.owned id (fun h => hid.1 (mem_singleton.1 h)) h)
    · have hlisted₁ := h₁.listed
      have hlisted₂ := h₂.listed
      rw [length_singleton] at hlisted₁
      rw [length_cons]
      omega

theorem nodup_foldl_releaseModified : ∀ (entries : List (Σ _ : Nat, BitVec 64)), entries.NodupKeys →
    ∀ (s : (AList fun _ : Nat => MetadataBlock) × List Nat), s.2.Nodup → (∀ b ∈ s.2, b ∉ entries.keys) →
    (entries.foldl MetadataManager.releaseModified s).2.Nodup
  | [], _, _, hs, _ => hs
  | entry :: entries, hnodup, s, hs, hnot => by
    rw [nodupKeys_cons] at hnodup
    have hnot : ∀ b ∈ s.2, b ≠ entry.1 ∧ b ∉ entries.keys := fun b hb => by
      have hb := hnot b hb
      rwa [keys_cons, mem_cons, not_or] at hb
    have hentry : entry.1 ∉ s.2 := fun h => (hnot entry.1 h).1 rfl
    refine nodup_foldl_releaseModified entries hnodup.2 _ ?_ ?_
    all_goals
      unfold MetadataManager.releaseModified
      split
    · exact hs
    · dsimp only
      split
      · exact nodup_append.2 ⟨hs, nodup_singleton _, fun a ha b hb => by
          rw [mem_singleton.1 hb]
          exact (hnot a ha).1⟩
      · exact hs
    · exact fun b hb => (hnot b hb).2
    · dsimp only
      split
      · intro b hb
        rcases mem_append.1 hb with hb | hb
        · exact (hnot b hb).2
        · rw [mem_singleton.1 hb]
          exact hnodup.1
      · exact fun b hb => (hnot b hb).2

theorem nodup_released (m : MetadataManager) : m.markBlocksAsModified.2.Nodup :=
  nodup_foldl_releaseModified m.modifiedBlocks.entries m.modifiedBlocks.nodupKeys (m.blocks, []) nodup_nil nofun

theorem length_markBlocksAsModified (m : MetadataManager) :
    m.markBlocksAsModified.1.blocks.entries.length + m.markBlocksAsModified.2.length = m.blocks.entries.length := by
  have hsdiff : m.markBlocksAsModified.1.blocks.keys.toFinset
      = m.blocks.keys.toFinset \ m.markBlocksAsModified.2.toFinset := by
    ext b
    simp only [Finset.mem_sdiff, mem_toFinset]
    exact mem_blocks_markBlocksAsModified m b
  have hsubset : m.markBlocksAsModified.2.toFinset ⊆ m.blocks.keys.toFinset := fun b hb =>
    mem_toFinset.2 ((mem_released m b).1 (mem_toFinset.1 hb)).2.1
  rw [length_entries, length_entries, hsdiff, ← toFinset_card_of_nodup (nodup_released m)]
  exact Finset.card_sdiff_add_card_eq_card hsubset

namespace File

variable {f f' : File}

theorem flags_markBlocksAsModified {m : MetadataManager} {b : Nat} {block : MetadataBlock}
    (h : m.markBlocksAsModified.1.blocks.lookup b = some block) :
    ∃ block', m.blocks.lookup b = some block' ∧ block'.persistent = block.persistent ∧ block'.dirty = block.dirty := by
  rw [lookup_markBlocksAsModified] at h
  rcases hmodified : m.modifiedBlocks.lookup b with _ | modifiedList
  all_goals rw [hmodified] at h
  · exact ⟨block, h, rfl, rfl⟩
  · obtain ⟨block', hblock', hreleased⟩ := Option.bind_eq_some_iff.1 h
    unfold releasedBlock at hreleased
    dsimp only at hreleased
    split at hreleased
    · cases hreleased
    · cases hreleased
      exact ⟨block', hblock', rfl, rfl⟩

theorem Inv.markBlocksAsModified (h : f.Inv) (readers : Finset Nat) :
    ∃ f', f.markBlocksAsModified readers = .ok f' ∧ f'.Inv ∧ f'.metadata = f.metadata.markBlocksAsModified.1
      ∧ f'.system.manager.listed + f'.metadata.blocks.entries.length
        ≤ f.system.manager.listed + f.metadata.blocks.entries.length
      ∧ f'.metadata.blocks.entries.length ≤ f.metadata.blocks.entries.length
      ∧ f'.system.manager.multiUseBlocks.entries.length ≤ f.system.manager.multiUseBlocks.entries.length
      ∧ f'.system.manager.freeBlocksInUse = f.system.manager.freeBlocksInUse
      ∧ f'.system.manager.maxBlock = f.system.manager.maxBlock := by
  have hmem : ∀ b ∈ f.metadata.markBlocksAsModified.2, b ∈ f.metadata.blocks := fun b hb =>
    ((mem_released f.metadata b).1 hb).2.1
  obtain ⟨system, hfold, hreleases⟩ := System.Inv.releaseBlocks readers _ h.system (nodup_released f.metadata)
    fun b hb => h.owned b (hmem b hb)
  refine ⟨⟨system, f.metadata.markBlocksAsModified.1⟩, ?_, ⟨hreleases.inv, markBlocksAsModified_ok h.ok, fun b hb => ?_,
    fun p hp hmodified => (modified_markBlocksAsModified f.metadata hp).1 hmodified, fun b block hblock => ?_⟩, rfl, ?_, ?_,
    hreleases.multiUseBlocks, hreleases.freeBlocksInUse, hreleases.maxBlock⟩
  · unfold File.markBlocksAsModified
    rw [hfold]
    rfl
  · obtain ⟨hb, hnot⟩ := (mem_blocks_markBlocksAsModified f.metadata b).1 hb
    exact hreleases.owned b hnot (h.owned b hb)
  · obtain ⟨block', hblock', hpersistent, hdirty⟩ := flags_markBlocksAsModified hblock
    rw [← hpersistent, ← hdirty]
    exact h.backed b block' hblock'
  · have hlisted := hreleases.listed
    have hlength := length_markBlocksAsModified f.metadata
    dsimp only
    omega
  · exact length_entries_le fun b hb => ((mem_blocks_markBlocksAsModified f.metadata b).1 hb).1

end File

end Haybarn.Block
