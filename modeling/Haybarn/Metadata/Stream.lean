/-
Streams of metadata: the model of `metadata_writer.cpp` and `metadata_reader.cpp`. A stream goes through sub-blocks that
are linked: the first eight bytes of a sub-block have the pointer to the next one.
-/
import Haybarn.Metadata.Manager
import Mathlib.Logic.Function.Basic

namespace Haybarn.Metadata

/-! ## Sizes -/

/-- The sizes that `VerifyBlockAllocSize` and `VerifyBlockHeaderSize` let through. -/
structure BlockSize where
  allocSize : Nat
  headerSize : Nat
  allocSize_pow : ∃ k, allocSize = 2 ^ k
  min_le_allocSize : 16384 ≤ allocSize
  allocSize_le_max : allocSize ≤ 262144
  headerSize_aligned : headerSize % 8 = 0
  min_le_headerSize : 8 ≤ headerSize
  headerSize_le_max : headerSize ≤ 128

/-- Blocks of the default size, with the default header. -/
def defaultBlockSize : BlockSize := ⟨262144, 8, ⟨18, rfl⟩, by decide, by decide, by decide, by decide, by decide⟩

/-- `GetMetadataBlockSize`. -/
def BlockSize.metadataBlockSize (size : BlockSize) : Nat := (size.allocSize - size.headerSize) / metadataBlockCount / 8 * 8

/-- `sizeof(idx_t)`, the size of the pointer to the next sub-block. -/
def pointerSize : Nat := 8

/-! ## Memory -/

/-- The contents of the sub-blocks: the pointer at the start, and the bytes behind it by their offset. -/
structure Memory where
  next : MetadataPointer → BitVec 64
  data : MetadataPointer → Nat → UInt8

/-- Bytes are copied to an offset of a sub-block. -/
def Memory.copyTo (memory : Memory) (p : MetadataPointer) (offset : Nat) (bytes : List UInt8) : Memory :=
  { memory with data := fun q o =>
      if q = p ∧ offset ≤ o ∧ o < offset + bytes.length then bytes.getD (o - offset) 0 else memory.data q o }

/-- Bytes are copied from an offset of a sub-block. -/
def Memory.copyFrom (memory : Memory) (p : MetadataPointer) (offset count : Nat) : List UInt8 :=
  (List.range count).map fun i => memory.data p (offset + i)

/-! ## Writing -/

/-- `MetadataWriter`, with the memory it writes to and what its handles come from. -/
structure Writer (σ : Type) where
  supply : σ
  memory : Memory
  currentPointer : MetadataPointer := ⟨0, 0⟩
  capacity : Nat := 0
  offset : Nat := 0

namespace Writer

variable {σ : Type} (nextHandle : σ → Except MetadataError (MetadataPointer × σ)) (metadataBlockSize : Nat)

def nextBlock (w : Writer σ) : Except MetadataError (Writer σ) := do
  let (pointer, supply) ← nextHandle w.supply
  -- the pointer to the new block goes to the start of the current block
  let next := if w.capacity > 0 then
    Function.update w.memory.next w.currentPointer (getDiskPointer pointer 0).blockPointer else w.memory.next
  let memory := { w.memory with next := Function.update next pointer (BitVec.allOnes 64) }
  pure { supply, memory, currentPointer := pointer, capacity := metadataBlockSize, offset := pointerSize }

/-- `memcpy` to the current block. -/
def copy (w : Writer σ) (buffer : List UInt8) : Writer σ :=
  { w with
    memory := w.memory.copyTo w.currentPointer w.offset buffer
    offset := w.offset + buffer.length }

/-- The loop of `WriteData`. Every round but the first copies something. -/
def writeLoop : Nat → Writer σ → List UInt8 → Except MetadataError (Writer σ)
  | 0, w, _ => .ok w
  | fuel + 1, w, buffer =>
    if w.offset + buffer.length > w.capacity then do
      let copyAmount := w.capacity - w.offset
      let w ← (w.copy (buffer.take copyAmount)).nextBlock nextHandle metadataBlockSize
      writeLoop fuel w (buffer.drop copyAmount)
    else .ok (w.copy buffer)

def writeData (w : Writer σ) (buffer : List UInt8) : Except MetadataError (Writer σ) :=
  writeLoop nextHandle metadataBlockSize (buffer.length + 2) w buffer

def getMetaBlockPointer (w : Writer σ) : Except MetadataError (MetaBlockPointer × Writer σ) := do
  let w ← if w.offset ≥ w.capacity then w.nextBlock nextHandle metadataBlockSize else pure w
  pure (getDiskPointer w.currentPointer w.offset, w)

/-- `Flush`: the rest of the block is cleared. -/
def flush (w : Writer σ) : Memory :=
  if w.offset < w.capacity then w.memory.copyTo w.currentPointer w.offset (List.replicate (w.capacity - w.offset) 0)
  else w.memory

end Writer

/-- A call of a writer. -/
inductive WriterOp where
  | writeData (buffer : List UInt8)
  | getMetaBlockPointer

/-- The bytes that a call writes. -/
def WriterOp.bytes : WriterOp → List UInt8
  | .writeData buffer => buffer
  | .getMetaBlockPointer => []

/-- The calls of a writer, one after the other. -/
def Writer.run {σ : Type} (nextHandle : σ → Except MetadataError (MetadataPointer × σ)) (metadataBlockSize : Nat) :
    Writer σ → List WriterOp → Except MetadataError (Writer σ)
  | w, [] => .ok w
  | w, .writeData buffer :: ops => do
    let w ← w.writeData nextHandle metadataBlockSize buffer
    run nextHandle metadataBlockSize w ops
  | w, .getMetaBlockPointer :: ops => do
    let (_, w) ← w.getMetaBlockPointer nextHandle metadataBlockSize
    run nextHandle metadataBlockSize w ops

/-! ## Reading -/

/-- `MetadataReader`. -/
structure Reader where
  nextPointer : MetaBlockPointer
  hasNextBlock : Bool
  pointer : MetadataPointer
  offset : Nat
  nextOffset : Nat
  capacity : Nat
deriving DecidableEq, Repr

namespace Reader

/-- The constructor. -/
def start (pointer : MetaBlockPointer) : Reader := ⟨pointer, true, ⟨0, 0⟩, 0, pointer.offset, 0⟩

section

variable (memory : Memory) (metadataBlockSize : Nat) (known : Nat → Bool)

/-- `FromDiskPointer`. A reader of `REGISTER_BLOCKS` knows every block. -/
def fromDiskPointer (pointer : MetaBlockPointer) : Except MetadataError MetadataPointer :=
  if known pointer.getBlockId then .ok ⟨pointer.getBlockId, pointer.getBlockIndex⟩
  else .error (.failedToLoad pointer.getBlockId pointer.getBlockIndex)

def readNextBlock (r : Reader) : Except MetadataError Reader := do
  if !r.hasNextBlock then .error .noMoreData
  let pointer ← fromDiskPointer known r.nextPointer
  let nextBlock := memory.next pointer
  let isLast := nextBlock = BitVec.allOnes 64
  let nextOffset := if r.nextOffset < pointerSize then pointerSize else r.nextOffset
  if nextOffset > metadataBlockSize then .error .nextOffsetTooLarge
  pure {
    nextPointer := if isLast then r.nextPointer else ⟨nextBlock, 0⟩
    hasNextBlock := !isLast
    pointer
    offset := nextOffset
    nextOffset := pointerSize
    capacity := metadataBlockSize }

/-- The loop of `ReadData`. The offset that is set before `ReadNextBlock` is overwritten there. -/
def readLoop : Nat → Reader → Nat → Except MetadataError (List UInt8 × Reader)
  | 0, r, _ => .ok ([], r)
  | fuel + 1, r, readSize =>
    if r.offset + readSize > r.capacity then do
      let toRead := r.capacity - r.offset
      let bytes := memory.copyFrom r.pointer r.offset toRead
      let readSize := readSize - toRead
      let r := if toRead > 0 then { r with offset := r.offset + readSize } else r
      let r ← r.readNextBlock memory metadataBlockSize known
      let (rest, r) ← readLoop fuel r readSize
      pure (bytes ++ rest, r)
    else .ok (memory.copyFrom r.pointer r.offset readSize, { r with offset := r.offset + readSize })

def readData (r : Reader) (readSize : Nat) : Except MetadataError (List UInt8 × Reader) :=
  readLoop memory metadataBlockSize known (readSize + 2) r readSize

/-- Reads of several sizes, one after the other. -/
def readAll : Reader → List Nat → Except MetadataError (List (List UInt8))
  | _, [] => .ok []
  | r, size :: sizes => do
    let (bytes, r) ← r.readData memory metadataBlockSize known size
    let rest ← readAll r sizes
    pure (bytes :: rest)

end

end Reader

end Haybarn.Metadata
