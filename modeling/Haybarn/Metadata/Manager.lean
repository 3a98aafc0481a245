/-
The metadata manager: the model of `metadata_manager.cpp`. A block of the file has 64 sub-blocks for metadata. A
sub-block that the last checkpoint occupies is only released at the next one, so there are two sets for each
block: the sub-blocks that are free now, and the ones that the next checkpoint releases.
-/
import Mathlib.Data.List.AList
import Mathlib.Data.Finset.Image
import Mathlib.Algebra.Group.Nat.Defs

namespace Haybarn.Metadata

/-! ## Pointers -/

def metadataBlockCount : Nat := 64

/-- `MetadataPointer`: a block and one of its sub-blocks. -/
structure MetadataPointer where
  blockIndex : Nat
  index : Nat
deriving DecidableEq, Repr

/-- `MetaBlockPointer`: a sub-block as it is written to disk, and an offset in it. -/
structure MetaBlockPointer where
  blockPointer : BitVec 64
  offset : Nat
deriving DecidableEq, Repr

/-- `BlockPointer`. The offset is one of 32 bits. -/
structure BlockPointer where
  blockId : Nat
  offset : Nat
deriving DecidableEq, Repr

def getDiskPointer (pointer : MetadataPointer) (offset : Nat) : MetaBlockPointer where
  blockPointer := BitVec.ofNat 64 pointer.blockIndex ||| BitVec.ofNat 64 pointer.index <<< 56
  offset

def MetaBlockPointer.getBlockId (pointer : MetaBlockPointer) : Nat :=
  (pointer.blockPointer &&& ~~~(0xFF#64 <<< 56)).toNat

def MetaBlockPointer.getBlockIndex (pointer : MetaBlockPointer) : Nat := (pointer.blockPointer >>> 56).toNat

def toBlockPointer (pointer : MetaBlockPointer) (metadataBlockSize : Nat) : BlockPointer where
  blockId := pointer.getBlockId
  offset := (pointer.getBlockIndex * metadataBlockSize + pointer.offset) % 2 ^ 32

/-- `FromBlockPointer` of a valid pointer. -/
def fromBlockPointer (pointer : BlockPointer) (metadataBlockSize : Nat) : MetaBlockPointer where
  blockPointer := BitVec.ofNat 64 pointer.blockId ||| BitVec.ofNat 64 (pointer.offset / metadataBlockSize) <<< 56
  offset := pointer.offset % metadataBlockSize

/-! ## Blocks -/

/-- `MetadataBlock`. A block is persistent when it is backed by its block of the file, and transient otherwise. -/
structure MetadataBlock where
  freeBlocks : List Nat
  persistent : Bool
  dirty : Bool
deriving DecidableEq, Repr

def freeBlocksToInteger (freeBlocks : List Nat) : BitVec 64 :=
  freeBlocks.foldl (fun result index => result ||| 1#64 <<< index) 0#64

/-- `BlocksFromInteger`, from the highest sub-block down. -/
def blocksFromInteger (freeList : BitVec 64) : List Nat :=
  (List.range metadataBlockCount).reverse.filter fun index => freeList &&& (1#64 <<< index) ≠ 0#64

def freeBlocksFromInteger (freeList : BitVec 64) : List Nat :=
  if freeList = 0#64 then [] else blocksFromInteger freeList

structure MetadataManager where
  blocks : AList fun _ : Nat => MetadataBlock
  modifiedBlocks : AList fun _ : Nat => BitVec 64

inductive MetadataError where
  /-- `AddBlock`. -/
  | blockExists (blockId : Nat)
  /-- `ClearModifiedBlocks`. -/
  | notModified (blockId : Nat)
  /-- `FromDiskPointer`. -/
  | failedToLoad (blockId index : Nat)
  /-- `NextHandle` of the writer of the free list. -/
  | ranOutOfBlocks (allocated : Nat)
  /-- `ReadNextBlock`. -/
  | noMoreData
  | nextOffsetTooLarge
  /-- `Flush`. -/
  | transientNotDirty
deriving DecidableEq, Repr

namespace MetadataManager

/-- A new manager. -/
def empty : MetadataManager := ⟨∅, ∅⟩

/-- The first block with a free sub-block, in the order of the hash table. -/
def findFreeBlock (m : MetadataManager) (order : List Nat) : Option Nat :=
  order.find? fun blockId => (m.blocks.lookup blockId).any (·.freeBlocks ≠ [])

/-- `AllocateNewBlock`, with the block that the block manager gives. -/
def allocateNewBlock (m : MetadataManager) (newBlockId : Nat) : Except MetadataError MetadataManager :=
  if newBlockId ∈ m.blocks then .error (.blockExists newBlockId)
  else
    let freeBlocks := (List.range metadataBlockCount).map (metadataBlockCount - · - 1)
    .ok { m with blocks := m.blocks.insert newBlockId ⟨freeBlocks, false, true⟩ }

/-- What `AllocateHandle` gives: the sub-block, and the block that is unregistered when it becomes transient. -/
structure Allocation where
  pointer : MetadataPointer
  manager : MetadataManager
  unregistered : Option Nat

/-- The sub-block that is taken from a block. -/
def takeSubBlock (m : MetadataManager) (blockId : Nat) (block : MetadataBlock) : Allocation where
  pointer := ⟨blockId, block.freeBlocks.getLastD 0⟩
  manager := { m with blocks := m.blocks.insert blockId ⟨block.freeBlocks.dropLast, false, true⟩ }
  unregistered := if block.persistent then some blockId else none

/-- The block that `AllocateHandle` takes a sub-block from, if it does not take a new block. -/
def existingBlock (m : MetadataManager) (order : List Nat) (peekNextBlockId : Nat) : Option Nat :=
  (m.findFreeBlock order).filter (· ≤ peekNextBlockId)

/-- `AllocateHandle`. `newBlockId` is what the block manager gives when a new block is needed. -/
def allocateHandle (m : MetadataManager) (order : List Nat) (peekNextBlockId newBlockId : Nat) :
    Except MetadataError Allocation :=
  match m.existingBlock order peekNextBlockId with
  | none => do
    let m ← m.allocateNewBlock newBlockId
    pure (m.takeSubBlock newBlockId ((m.blocks.lookup newBlockId).getD ⟨[], false, false⟩))
  | some freeBlock => .ok (m.takeSubBlock freeBlock ((m.blocks.lookup freeBlock).getD ⟨[], false, false⟩))

/-- One round of the first loop of `MarkBlocksAsModified`. A block without any sub-block in use is released. -/
def releaseModified (s : (AList fun _ : Nat => MetadataBlock) × List Nat) (entry : Σ _ : Nat, BitVec 64) :
    (AList fun _ : Nat => MetadataBlock) × List Nat :=
  match s.1.lookup entry.1 with
  | none => s
  | some block =>
    let newFreeBlocks := freeBlocksToInteger block.freeBlocks ||| entry.2
    if newFreeBlocks = BitVec.allOnes 64 then (s.1.erase entry.1, s.2 ++ [entry.1])
    else (s.1.insert entry.1 { block with freeBlocks := freeBlocksFromInteger newFreeBlocks }, s.2)

/-- Something for each block. -/
def mapBlocks {β : Type} (f : MetadataBlock → β) (blocks : AList fun _ : Nat => MetadataBlock) : AList fun _ : Nat => β where
  entries := blocks.entries.map (Sigma.map id fun _ => f)
  nodupKeys := by
    have hkeys : (blocks.entries.map (Sigma.map id fun _ => f) : List (Σ _ : Nat, β)).keys = blocks.keys := by
      unfold List.keys
      rw [List.map_map]
      rfl
    unfold List.NodupKeys
    rw [hkeys]
    exact blocks.keys_nodup

/-- The second loop of `MarkBlocksAsModified`: what is occupied now is released at the next checkpoint. -/
def occupiedLists (blocks : AList fun _ : Nat => MetadataBlock) : AList fun _ : Nat => BitVec 64 :=
  mapBlocks (fun block => ~~~freeBlocksToInteger block.freeBlocks) blocks

/-- `MarkBlocksAsModified`, and the blocks it releases. -/
def markBlocksAsModified (m : MetadataManager) : MetadataManager × List Nat :=
  let (blocks, released) := m.modifiedBlocks.entries.foldl releaseModified (m.blocks, [])
  (⟨blocks, occupiedLists blocks⟩, released)

def clearModifiedBlocks (m : MetadataManager) : List MetaBlockPointer → Except MetadataError MetadataManager
  | [] => .ok m
  | pointer :: pointers =>
    match m.modifiedBlocks.lookup pointer.getBlockId with
    | none => .error (.notModified pointer.getBlockId)
    | some modifiedList =>
      -- unset the bit
      let modifiedList := modifiedList &&& ~~~(1#64 <<< pointer.getBlockIndex)
      clearModifiedBlocks { m with modifiedBlocks := m.modifiedBlocks.insert pointer.getBlockId modifiedList } pointers

/-- `Write`: the blocks and their free sub-blocks. -/
def write (m : MetadataManager) : AList fun _ : Nat => BitVec 64 :=
  mapBlocks (fun block => freeBlocksToInteger block.freeBlocks) m.blocks

/-- `RegisterDiskPointer`: a block that is not known yet is added, without a free list. -/
def registerBlock (m : MetadataManager) (blockId : Nat) : MetadataManager :=
  if blockId ∈ m.blocks then m else { m with blocks := m.blocks.insert blockId ⟨[], true, false⟩ }

/-- One block of `Read`. Of a block that is known already only the free list is copied. -/
def readBlock (m : MetadataManager) (entry : Σ _ : Nat, BitVec 64) : MetadataManager :=
  let block := (m.blocks.lookup entry.1).getD ⟨[], true, false⟩
  { m with blocks := m.blocks.insert entry.1 { block with freeBlocks := freeBlocksFromInteger entry.2 } }

def read (m : MetadataManager) (image : AList fun _ : Nat => BitVec 64) : MetadataManager :=
  image.entries.foldl readBlock m

end MetadataManager

end Haybarn.Metadata
