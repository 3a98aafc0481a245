/-
The blocks of a database file: the model of the block lists of `single_file_block_manager.cpp`. A block that is given
back may still be needed: by the last checkpoint, until the next one is written, or by a handle that is registered.

Runs of the block manager. Beside its lists, a run counts the references that each block has, and keeps the header that
was written last. The invariant is stated for one block: which of the lists it is in says how many references it has,
and a block that the last header left out of its free list is in none of the lists that blocks are taken from.
-/
import Mathlib.Data.Finset.Max
import Mathlib.Data.Finset.Sort
import Mathlib.Data.List.AList
import Mathlib.Order.Interval.Finset.Nat
import Haybarn.Lib.Run

namespace Haybarn.Block

/-! ## State -/

/-- The lists of `SingleFileBlockManager`, and the blocks that have a handle. -/
structure BlockManager where
  freeList : Finset Nat
  freeBlocksInUse : Finset Nat
  newlyUsedBlocks : Finset Nat
  multiUseBlocks : AList fun _ : Nat => Nat
  modifiedBlocks : Finset Nat
  maxBlock : Nat
  registered : Finset Nat

inductive FreeBlockType where
  | newlyUsedBlock
  | checkpointedBlock
deriving DecidableEq, Repr

inductive BlockError where
  /-- `GetFreeBlockIdInternal`. -/
  | alreadyRegistered (blockId : Nat)
  /-- `MarkBlockAsModified`. -/
  | alreadyModified (blockId : Nat)
  | alreadyFreed (blockId : Nat)
deriving DecidableEq, Repr

/-- What `WriteHeader` writes: the free list, the blocks with several references, and the number of blocks. -/
structure Header where
  freeList : Finset Nat
  multiUseBlocks : AList fun _ : Nat => Nat
  blockCount : Nat

namespace BlockManager

/-! ## Operations -/

/-- The block of `GetFreeBlockIdInternal` and `PeekFreeBlockId`: the first of the free list, or one behind the end. -/
def peekFreeBlockId (m : BlockManager) : Nat :=
  if h : m.freeList.Nonempty then m.freeList.min' h else m.maxBlock

def getFreeBlockIdInternal (m : BlockManager) (type : FreeBlockType) : Except BlockError Nat × BlockManager :=
  let blockId := m.peekFreeBlockId
  let m := if m.freeList.Nonempty then { m with freeList := m.freeList.erase blockId } else { m with maxBlock := m.maxBlock + 1 }
  let m := if type = .newlyUsedBlock then { m with newlyUsedBlocks := insert blockId m.newlyUsedBlocks } else m
  if blockId ∈ m.registered then (.error (.alreadyRegistered blockId), m) else (.ok blockId, m)

def markBlockAsCheckpointed (m : BlockManager) (blockId : Nat) : BlockManager :=
  { m with newlyUsedBlocks := m.newlyUsedBlocks.erase blockId }

/-- `IncreaseBlockReferenceCountInternal`. The counts have 32 bits. -/
def increaseBlockReferenceCount (m : BlockManager) (blockId : Nat) : BlockManager :=
  match m.multiUseBlocks.lookup blockId with
  | some count => { m with multiUseBlocks := m.multiUseBlocks.insert blockId ((count + 1) % 2 ^ 32) }
  | none => { m with multiUseBlocks := m.multiUseBlocks.insert blockId 2 }

/-- `MarkBlockAsUsed`. Blocks that are skipped are free. -/
def markBlockAsUsed (m : BlockManager) (blockId : Nat) : BlockManager :=
  if m.maxBlock ≤ blockId then
    { m with freeList := m.freeList ∪ Finset.Ico m.maxBlock blockId, maxBlock := blockId + 1 }
  else if blockId ∈ m.freeList then { m with freeList := m.freeList.erase blockId }
  else m.increaseBlockReferenceCount blockId

def addFreeBlock (m : BlockManager) (blockId : Nat) : BlockManager :=
  if blockId ∈ m.registered then { m with freeBlocksInUse := insert blockId m.freeBlocksInUse }
  else { m with freeList := insert blockId m.freeList }

def markBlockAsModified (m : BlockManager) (blockId : Nat) : Except BlockError BlockManager :=
  match m.multiUseBlocks.lookup blockId with
  | some count =>
    -- the count has 32 bits
    let count := (count + 2 ^ 32 - 1) % 2 ^ 32
    if count ≤ 1 then .ok { m with multiUseBlocks := m.multiUseBlocks.erase blockId }
    else .ok { m with multiUseBlocks := m.multiUseBlocks.insert blockId count }
  | none =>
    if blockId ∈ m.modifiedBlocks then .error (.alreadyModified blockId)
    else if blockId ∈ m.freeList then .error (.alreadyFreed blockId)
    else if blockId ∈ m.newlyUsedBlocks then
      .ok (addFreeBlock { m with newlyUsedBlocks := m.newlyUsedBlocks.erase blockId } blockId)
    else .ok { m with modifiedBlocks := insert blockId m.modifiedBlocks }

def registerBlock (m : BlockManager) (blockId : Nat) : BlockManager :=
  { m with registered := insert blockId m.registered }

def unregisterBlock (m : BlockManager) (blockId : Nat) : BlockManager :=
  let m := { m with registered := m.registered.erase blockId }
  if blockId ∈ m.freeBlocksInUse then
    { m with freeList := insert blockId m.freeList, freeBlocksInUse := m.freeBlocksInUse.erase blockId }
  else m

/-- The loop of `Truncate` over the free list, from the last block down. -/
def truncateLoop : List Nat → Nat → Nat
  | [], maxBlock => maxBlock
  | blockId :: freeList, maxBlock => if blockId + 1 ≠ maxBlock then maxBlock else truncateLoop freeList (maxBlock - 1)

def truncate (m : BlockManager) : BlockManager :=
  let maxBlock := truncateLoop (m.freeList.sort (· ≤ ·)).reverse m.maxBlock
  { m with freeList := m.freeList.filter (· < maxBlock), maxBlock }

/-- `WriteHeader`, with the lock held: the modified blocks become free, and the lists are written. The calls of the
metadata manager before it are operations of their own. -/
def writeHeader (m : BlockManager) : Header × BlockManager :=
  let allFreeBlocks := m.freeList ∪ m.modifiedBlocks
  let m' := (m.modifiedBlocks.sort (· ≤ ·)).foldl addFreeBlock m
  -- newly used blocks are still free for this checkpoint
  let writtenMultiUseBlocks := (m.newlyUsedBlocks.sort (· ≤ ·)).foldl (fun blocks blockId => blocks.erase blockId) m.multiUseBlocks
  ({ freeList := allFreeBlocks ∪ m.newlyUsedBlocks, multiUseBlocks := writtenMultiUseBlocks, blockCount := m'.maxBlock },
    { m' with modifiedBlocks := ∅ })

/-- `Initialize` and `LoadFreeList`. The blocks of the metadata manager are registered. -/
def load (header : Header) (metadataBlocks : Finset Nat) : BlockManager where
  freeList := header.freeList
  freeBlocksInUse := ∅
  newlyUsedBlocks := ∅
  multiUseBlocks := header.multiUseBlocks
  modifiedBlocks := ∅
  maxBlock := header.blockCount
  registered := metadataBlocks

end BlockManager

/-! ## Runs -/

structure System where
  manager : BlockManager
  references : Nat → Nat
  header : Header

inductive Op where
  | getFreeBlockId
  | getFreeBlockIdForCheckpoint
  | markBlockAsCheckpointed (blockId : Nat)
  | markBlockAsUsed (blockId : Nat)
  | markBlockAsModified (blockId : Nat)
  | increaseBlockReferenceCount (blockId : Nat)
  | registerBlock (blockId : Nat)
  | unregisterBlock (blockId : Nat)
  | truncate
  | writeHeader
deriving DecidableEq, Repr

/-- A block that is returned has one reference. -/
def System.getFreeBlockId (s : System) (type : FreeBlockType) : System :=
  match s.manager.getFreeBlockIdInternal type with
  | (.ok blockId, manager) => { s with manager, references := Function.update s.references blockId 1 }
  | (.error _, manager) => { s with manager }

def System.step (s : System) : Op → System
  | .getFreeBlockId => s.getFreeBlockId .newlyUsedBlock
  | .getFreeBlockIdForCheckpoint => s.getFreeBlockId .checkpointedBlock
  | .markBlockAsCheckpointed blockId => { s with manager := s.manager.markBlockAsCheckpointed blockId }
  | .markBlockAsUsed blockId =>
    { s with
      manager := s.manager.markBlockAsUsed blockId
      references := Function.update s.references blockId (s.references blockId + 1) }
  | .markBlockAsModified blockId =>
    match s.manager.markBlockAsModified blockId with
    | .ok manager => { s with manager, references := Function.update s.references blockId (s.references blockId - 1) }
    | .error _ => s
  | .increaseBlockReferenceCount blockId =>
    { s with
      manager := s.manager.increaseBlockReferenceCount blockId
      references := Function.update s.references blockId (s.references blockId + 1) }
  | .registerBlock blockId => { s with manager := s.manager.registerBlock blockId }
  | .unregisterBlock blockId => { s with manager := s.manager.unregisterBlock blockId }
  | .truncate => { s with manager := s.manager.truncate }
  | .writeHeader => { s with manager := s.manager.writeHeader.2, header := s.manager.writeHeader.1 }

/-- A reference is given back or doubled only where there is one, and a handle is made only for a block that is not
free. -/
def System.Allowed (s : System) : Op → Prop
  | .markBlockAsModified blockId | .increaseBlockReferenceCount blockId => 0 < s.references blockId
  | .registerBlock blockId => blockId < s.manager.maxBlock ∧ blockId ∉ s.manager.freeList
  | _ => True

instance (s : System) : ∀ op, Decidable (s.Allowed op)
  | .markBlockAsModified id | .increaseBlockReferenceCount id => inferInstanceAs (Decidable (0 < s.references id))
  | .registerBlock id => inferInstanceAs (Decidable (id < s.manager.maxBlock ∧ id ∉ s.manager.freeList))
  | .getFreeBlockId | .getFreeBlockIdForCheckpoint | .markBlockAsCheckpointed _ | .markBlockAsUsed _ | .unregisterBlock _
  | .truncate | .writeHeader => .isTrue trivial

/-- The steps that keep the counts right: no block is marked as used while it is about to become free, and the
references of a block fit into 32 bits. -/
def System.Counted (s : System) : Op → Prop
  | .markBlockAsUsed blockId =>
    blockId ∉ s.manager.modifiedBlocks ∧ blockId ∉ s.manager.freeBlocksInUse ∧ s.references blockId + 1 < 2 ^ 32
  | .increaseBlockReferenceCount blockId => s.references blockId + 1 < 2 ^ 32
  | _ => True

instance (s : System) : ∀ op, Decidable (s.Counted op)
  | .markBlockAsUsed id => inferInstanceAs (Decidable (id ∉ s.manager.modifiedBlocks ∧ id ∉ s.manager.freeBlocksInUse
    ∧ s.references id + 1 < 2 ^ 32))
  | .increaseBlockReferenceCount id => inferInstanceAs (Decidable (s.references id + 1 < 2 ^ 32))
  | .getFreeBlockId | .getFreeBlockIdForCheckpoint | .markBlockAsCheckpointed _ | .markBlockAsModified _
  | .registerBlock _ | .unregisterBlock _ | .truncate | .writeHeader => .isTrue trivial

/-- No header is written while a block that was freed waits for its handles. -/
def System.NoneWaiting (s : System) (op : Op) : Prop := op = .writeHeader → s.manager.freeBlocksInUse = ∅

instance (s : System) (op : Op) : Decidable (s.NoneWaiting op) :=
  inferInstanceAs (Decidable (op = .writeHeader → s.manager.freeBlocksInUse = ∅))

/-- A header that can be loaded: the free blocks are blocks of the file, and the blocks with several references are
not free. -/
structure Header.WellFormed (header : Header) : Prop where
  freeList : ∀ blockId ∈ header.freeList, blockId < header.blockCount
  multiUseBlocks : ∀ blockId count, header.multiUseBlocks.lookup blockId = some count →
    blockId < header.blockCount ∧ blockId ∉ header.freeList ∧ 2 ≤ count ∧ count < 2 ^ 32

/-- The blocks that the checkpoint of a header refers to: the ones it left out of its free list. -/
def Header.LeftOut (header : Header) (blockId : Nat) : Prop := blockId < header.blockCount ∧ blockId ∉ header.freeList

instance (header : Header) (blockId : Nat) : Decidable (header.LeftOut blockId) :=
  inferInstanceAs (Decidable (blockId < header.blockCount ∧ blockId ∉ header.freeList))

/-- The references of a block that is loaded. -/
def Header.references (header : Header) (blockId : Nat) : Nat :=
  if blockId < header.blockCount ∧ blockId ∉ header.freeList then (header.multiUseBlocks.lookup blockId).getD 1 else 0

/-- A database that is loaded. -/
def System.load (header : Header) (metadataBlocks : Finset Nat) : System where
  manager := .load header metadataBlocks
  references := header.references
  header

/-- A new database has no blocks. -/
def Header.new : Header := ⟨∅, ∅, 0⟩

/-! ## The invariant -/

/-- What holds of one block. The last field is about the runs in which no header is written while a freed block waits
for its handles: these runs are `strict`. -/
@[grind cases]
structure System.BlockOk (strict : Prop) (s : System) (b : Nat) : Prop where
  free : b ∈ s.manager.freeList → b < s.manager.maxBlock ∧ s.references b = 0 ∧ b ∉ s.manager.freeBlocksInUse
    ∧ b ∉ s.manager.newlyUsedBlocks ∧ b ∉ s.manager.modifiedBlocks ∧ b ∉ s.manager.registered
  inUse : b ∈ s.manager.freeBlocksInUse → b < s.manager.maxBlock ∧ s.references b = 0 ∧ b ∉ s.manager.newlyUsedBlocks
    ∧ b ∉ s.manager.modifiedBlocks
  modified : b ∈ s.manager.modifiedBlocks → b < s.manager.maxBlock ∧ s.references b = 0 ∧ b ∉ s.manager.newlyUsedBlocks
  newly : b ∈ s.manager.newlyUsedBlocks → b < s.manager.maxBlock
  behind : s.manager.maxBlock ≤ b → s.references b = 0 ∧ b ∉ s.manager.registered
  used : b < s.manager.maxBlock → b ∉ s.manager.freeList → b ∉ s.manager.freeBlocksInUse → b ∉ s.manager.modifiedBlocks →
    0 < s.references b
  bound : s.references b < 2 ^ 32
  multi : s.manager.multiUseBlocks.lookup b = if 2 ≤ s.references b then some (s.references b) else none
  leftOut : strict → s.header.LeftOut b → b < s.manager.maxBlock ∧ b ∉ s.manager.freeList
    ∧ b ∉ s.manager.freeBlocksInUse ∧ b ∉ s.manager.newlyUsedBlocks

def System.Inv (strict : Prop) (s : System) : Prop := ∀ b, s.BlockOk strict b

variable {strict : Prop}

theorem lookup_cases (blocks : AList fun _ : Nat => Nat) (b : Nat) :
    blocks.lookup b = none ∨ ∃ count : Nat, blocks.lookup b = some count := by
  cases blocks.lookup b with
  | none => exact .inl rfl
  | some count => exact .inr ⟨count, rfl⟩

theorem Header.references_eq (header : Header) (b : Nat) : header.references b =
    if b < header.blockCount ∧ b ∉ header.freeList then (header.multiUseBlocks.lookup b).getD 1 else 0 := rfl

theorem System.inv_load {header : Header} (hheader : header.WellFormed) {metadataBlocks : Finset Nat}
    (hmetadata : ∀ b ∈ metadataBlocks, header.LeftOut b) : (System.load header metadataBlocks).Inv strict := by
  intro b
  have hfree := hheader.freeList b
  have hmetadata := hmetadata b
  unfold Header.LeftOut at hmetadata
  have hmulti := hheader.multiUseBlocks b
  have hreferences := header.references_eq b
  constructor
  all_goals simp only [System.load, BlockManager.load, Header.LeftOut, Finset.notMem_empty]
  case multi =>
    obtain hnone | ⟨count, hcount⟩ := lookup_cases header.multiUseBlocks b
    · rw [hnone] at hreferences ⊢
      simp only [Option.getD_none] at hreferences
      grind
    · rw [hcount] at hreferences ⊢
      have hcount := hmulti count hcount
      simp only [Option.getD_some] at hreferences
      grind
  all_goals obtain hnone | ⟨count, hcount⟩ := lookup_cases header.multiUseBlocks b
  all_goals grind

end Haybarn.Block
