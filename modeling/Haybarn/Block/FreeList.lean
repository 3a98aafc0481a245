/-
The free list on disk: the model of `GetFreeListBlocks`, `WriteHeader` and `LoadFreeList` of
`single_file_block_manager.cpp`. The free list is a stream of metadata, so that writing it takes sub-blocks, and with
them perhaps blocks, of which it has to be the list: the sub-blocks are taken first, until they are enough.
-/
import Haybarn.Block.System
import Haybarn.Metadata.Stream
import Haybarn.Wal.Serializer

namespace Haybarn.Block

open Metadata Wal

/-! ## State -/

/-- A block manager and its metadata manager. -/
structure File where
  system : System
  metadata : MetadataManager

inductive FileError where
  | block (error : BlockError)
  | metadata (error : MetadataError)
deriving DecidableEq, Repr

/-- The fields of `DatabaseHeader` that the block manager is loaded from. -/
structure DatabaseHeader where
  freeList : BitVec 64
  blockCount : Nat

/-- The sub-blocks on disk, and the header. -/
structure Disk where
  blocks : Memory
  header : DatabaseHeader

namespace File

/-! ## Metadata blocks -/

/-- The block that `AllocateHandle` takes a sub-block from. A new one comes from the block manager. -/
def nextBlock (f : File) (order : List Nat) : Except FileError (Nat × System) :=
  match f.metadata.existingBlock order f.system.manager.peekFreeBlockId with
  | some blockId => .ok (blockId, f.system)
  | none =>
    match (f.system.manager.getFreeBlockIdInternal .checkpointedBlock).1 with
    | .ok blockId => .ok (blockId, f.system.step .getFreeBlockIdForCheckpoint)
    | .error e => .error (.block e)

/-- `ConvertToTransient` of a block that is persistent. -/
def convertToTransient (system : System) : Option Nat → System
  | some blockId => system.step (.unregisterBlock blockId)
  | none => system

/-- `AllocateHandle`, with the order of the hash table. -/
def allocateHandle (f : File) (order : List Nat) : Except FileError (MetadataPointer × File) := do
  let (blockId, system) ← f.nextBlock order
  match f.metadata.allocateHandle order f.system.manager.peekFreeBlockId blockId with
  | .ok a =>
    .ok (a.pointer, ⟨convertToTransient system a.unregistered, a.manager⟩)
  | .error e => .error (.metadata e)

/-- A metadata block that is released. Its handle is destroyed, unless it is still read. -/
def releaseBlock (readers : Finset Nat) (system : System) (blockId : Nat) : Except FileError System :=
  let system := if blockId ∈ readers then system else system.step (.unregisterBlock blockId)
  match system.manager.markBlockAsModified blockId with
  | .ok _ => .ok (system.step (.markBlockAsModified blockId))
  | .error e => .error (.block e)

/-- `MarkBlocksAsModified` of the metadata manager. -/
def markBlocksAsModified (f : File) (readers : Finset Nat) : Except FileError File := do
  let system ← f.metadata.markBlocksAsModified.2.foldlM (releaseBlock readers) f.system
  pure ⟨system, f.metadata.markBlocksAsModified.1⟩

/-! ## Writing -/

/-- The size of the stream that `GetFreeListBlocks` computes. -/
def totalSize (f : File) : Nat :=
  let m := f.system.manager
  let freeListCount := m.freeList.card + m.modifiedBlocks.card + m.freeBlocksInUse.card + m.newlyUsedBlocks.card
  let freeListSize := 8 + 8 * freeListCount
  let multiUseBlocksSize := 8 + (8 + 4) * m.multiUseBlocks.entries.length
  let metadataBlocks := 8 + (8 + 8) * f.metadata.blocks.entries.length
  freeListSize + multiUseBlocksSize + metadataBlocks

/-- The loop of `GetFreeListBlocks`. -/
def getFreeListBlocksLoop (blockSize : Nat) (orders : Nat → List Nat) :
    Nat → File → Nat → List MetadataPointer → Except FileError (List MetadataPointer × File)
  | 0, f, _, freeListBlocks => .ok (freeListBlocks, f)
  | fuel + 1, f, allocatedSize, freeListBlocks =>
    if f.totalSize < allocatedSize then .ok (freeListBlocks, f)
    else do
      let (pointer, f) ← f.allocateHandle (orders freeListBlocks.length)
      getFreeListBlocksLoop blockSize orders fuel f (allocatedSize + blockSize) (freeListBlocks ++ [pointer])

/-- `GetFreeListBlocks`. A round adds at most the entry of one block to the stream, and a sub-block has room for
more. -/
def getFreeListBlocks (f : File) (size : BlockSize) (orders : Nat → List Nat) :
    Except FileError (List MetadataPointer × File) :=
  getFreeListBlocksLoop (size.metadataBlockSize - pointerSize) orders (f.totalSize + 2) f 0 []

end File

/-- The blocks of `FreeListBlockWriter`. -/
structure FreeListBlocks where
  freeListBlocks : List MetadataPointer
  index : Nat

/-- `NextHandle` of `FreeListBlockWriter`. -/
def FreeListBlocks.nextHandle (b : FreeListBlocks) : Except MetadataError (MetadataPointer × FreeListBlocks) :=
  match b.freeListBlocks[b.index]? with
  | some pointer => .ok (pointer, { b with index := b.index + 1 })
  | none => .error (.ranOutOfBlocks b.freeListBlocks.length)

/-- The words that `WriteHeader` writes, each with its size: the free list, the blocks with several references, and the
blocks of the metadata manager. -/
def freeListWords (header : Header) (image : AList fun _ : Nat => BitVec 64) : List (Nat × Nat) :=
  (8, header.freeList.card) :: (header.freeList.sort (· ≤ ·)).map ((8, ·))
    ++ (8, header.multiUseBlocks.entries.length) :: header.multiUseBlocks.entries.flatMap (fun entry => [(8, entry.1), (4, entry.2)])
    ++ (8, image.entries.length) :: image.entries.flatMap fun entry => [(8, entry.1), (8, entry.2.toNat)]

/-- The stream of the free list is written to the blocks that were taken for it. -/
def writeFreeList (size : BlockSize) (freeListBlocks : List MetadataPointer) (memory : Memory)
    (words : List (Nat × Nat)) : Except MetadataError (BitVec 64 × Memory) :=
  -- no blocks in the free list
  if freeListBlocks = [] then .ok (BitVec.allOnes 64, memory)
  else do
    let w : Writer FreeListBlocks := { supply := ⟨freeListBlocks, 0⟩, memory }
    let (pointer, w) ← w.getMetaBlockPointer FreeListBlocks.nextHandle size.metadataBlockSize
    let w ← w.run FreeListBlocks.nextHandle size.metadataBlockSize (words.map fun word => .writeData (writeWord word.1 word.2))
    pure (pointer.blockPointer, w.flush)

/-- What `Flush` of the metadata manager writes to disk: the blocks that are dirty. -/
def flushMemory (metadata : MetadataManager) (memory disk : Memory) : Memory where
  next p := if (metadata.blocks.lookup p.blockIndex).any (·.dirty) then memory.next p else disk.next p
  data p := if (metadata.blocks.lookup p.blockIndex).any (·.dirty) then memory.data p else disk.data p

/-- What `Flush` does to one block: a block that is dirty becomes persistent. -/
def flushBlock (block : MetadataBlock) : MetadataBlock :=
  if block.dirty then { block with persistent := true, dirty := false } else block

namespace File

/-- `Flush` of the metadata manager. A block that becomes persistent gets a handle. -/
def flush (f : File) : Except FileError File :=
  if f.metadata.blocks.entries.any fun entry => !entry.2.dirty && !entry.2.persistent then
    .error (.metadata .transientNotDirty)
  else
    let transient := f.metadata.blocks.entries.filter fun entry => !entry.2.persistent
    .ok ⟨transient.foldl (fun system entry => system.step (.registerBlock entry.1)) f.system,
      { f.metadata with blocks := MetadataManager.mapBlocks flushBlock f.metadata.blocks }⟩

/-- `WriteHeader`, of what is in memory over what is on disk. -/
def writeHeader (f : File) (size : BlockSize) (orders : Nat → List Nat) (readers : Finset Nat) (memory disk : Memory) :
    Except FileError (Disk × File) := do
  let (freeListBlocks, f) ← f.getFreeListBlocks size orders
  -- add all modified blocks to the free list: they can now be written to again
  let f ← f.markBlocksAsModified readers
  let system := f.system.step .writeHeader
  match writeFreeList size freeListBlocks memory (freeListWords system.header f.metadata.write) with
  | .error e => .error (.metadata e)
  | .ok (freeList, memory) =>
    let f' ← flush ⟨system, f.metadata⟩
    pure (⟨flushMemory f.metadata memory disk, ⟨freeList, f'.system.manager.maxBlock⟩⟩, f')

end File

/-! ## Loading -/

/-- What `LoadFreeList` has read so far. -/
structure Loading where
  reader : Reader
  metadata : MetadataManager

namespace Loading

variable (blocks : Memory) (size : BlockSize)

/-- `Read` of a word. The block of a sub-block that the reader enters is registered; a word is shorter than a
sub-block, so that it enters one at most. -/
def read (l : Loading) (n : Nat) : Except MetadataError (Nat × Loading) := do
  let (bytes, reader) ← l.reader.readData blocks size.metadataBlockSize (fun _ => true) n
  pure (wordValue bytes, ⟨reader, l.metadata.registerBlock reader.pointer.blockIndex⟩)

/-- The loop over the free list. -/
def readFreeList : Nat → Loading → Finset Nat → Except MetadataError (Finset Nat × Loading)
  | 0, l, freeList => .ok (freeList, l)
  | count + 1, l, freeList => do
    let (block, l) ← l.read blocks size 8
    readFreeList count l (insert block freeList)

/-- The loop over the blocks with several references. -/
def readMultiUseBlocks : Nat → Loading → (AList fun _ : Nat => Nat) → Except MetadataError ((AList fun _ : Nat => Nat) × Loading)
  | 0, l, multiUseBlocks => .ok (multiUseBlocks, l)
  | count + 1, l, multiUseBlocks => do
    let (blockId, l) ← l.read blocks size 8
    let (usageCount, l) ← l.read blocks size 4
    readMultiUseBlocks count l (multiUseBlocks.insert blockId usageCount)

/-- `Read` of the metadata manager. -/
def readMetadata : Nat → Loading → Except MetadataError Loading
  | 0, l => .ok l
  | count + 1, l => do
    let (blockId, l) ← l.read blocks size 8
    let (freeList, l) ← l.read blocks size 8
    readMetadata count { l with metadata := l.metadata.readBlock ⟨blockId, BitVec.ofNat 64 freeList⟩ }

end Loading

/-- `Initialize` and `LoadFreeList`. The blocks of the metadata manager are registered. -/
def Disk.load (disk : Disk) (size : BlockSize) : Except MetadataError (BlockManager × MetadataManager) :=
  -- no free list
  if disk.header.freeList = BitVec.allOnes 64 then .ok (.load ⟨∅, ∅, disk.header.blockCount⟩ ∅, .empty)
  else do
    let l : Loading := ⟨.start ⟨disk.header.freeList, 0⟩, .empty⟩
    let (freeListCount, l) ← l.read disk.blocks size 8
    let (freeList, l) ← l.readFreeList disk.blocks size freeListCount ∅
    let (multiUseBlocksCount, l) ← l.read disk.blocks size 8
    let (multiUseBlocks, l) ← l.readMultiUseBlocks disk.blocks size multiUseBlocksCount ∅
    let (blockCount, l) ← l.read disk.blocks size 8
    let l ← l.readMetadata disk.blocks size blockCount
    -- nothing was modified before, so that no block is released
    let metadata := l.metadata.markBlocksAsModified.1
    pure (.load ⟨freeList, multiUseBlocks, disk.header.blockCount⟩ metadata.blocks.keys.toFinset, metadata)

end Haybarn.Block
