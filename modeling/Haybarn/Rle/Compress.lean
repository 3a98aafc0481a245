/-
RLE compression: the model of the compressor of `rle.cpp`. Rows are folded into runs of a value and a count of sixteen bits,
and NULLs into the run they stand in. A segment keeps the values in front, and behind the room for all of them the counts,
which are moved together when it is flushed.
-/
import Haybarn.Lib.Cells
import Haybarn.Metadata.Stream
import Haybarn.Wal.Serializer

namespace Haybarn.Rle

open Lib Wal
open Metadata (BlockSize)

/-! ## Types -/

/-- A type of the values that are compressed, with the bytes they are stored as. -/
structure FixedWidth (T : Type) where
  /-- `sizeof(T)`. -/
  size : Nat
  bytes : T → List UInt8
  ofBytes : List UInt8 → T
  /-- The operator `==`. -/
  eq : T → T → Bool
  /-- `NullValue`. -/
  nullValue : T
  length_bytes : ∀ v, (bytes v).length = size
  ofBytes_bytes : ∀ v, ofBytes (bytes v) = v
  size_pos : 0 < size
  size_le : size ≤ 16

/-- `GetBlockSize`. -/
def blockSize (size : BlockSize) : Nat := size.allocSize - size.headerSize

/-- `AlignValue` to eight bytes. -/
def alignValue (n : Nat) : Nat := (n + 7) / 8 * 8

/-- `AlignValueFloor` to eight bytes. -/
def alignValueFloor (n : Nat) : Nat := n / 8 * 8

def rleHeaderSize : Nat := 8

/-- `sizeof(rle_count_t)`. -/
def sizeofRleCount : Nat := 2

/-- The largest `rle_count_t`. -/
def maximumRleCount : Nat := 65535

variable {T σ : Type} (type : FixedWidth T)

/-! ## Runs -/

structure RLEState (T : Type) where
  seenCount : Nat
  lastValue : T
  lastSeenCount : Nat
  allNull : Bool

def RLEState.new : RLEState T where
  seenCount := 0
  lastValue := type.nullValue
  lastSeenCount := 0
  allNull := true

/-- `Flush`, with the operation that it is a template of. -/
def RLEState.flush (s : RLEState T) (op : T → Nat → Bool → σ → σ) (c : σ) : σ := op s.lastValue s.lastSeenCount s.allNull c

/-- The counter has sixteen bits. -/
def increment (count : Nat) : Nat := (count + 1) % 2 ^ 16

/-- `Update` of the run, in front of the test for a full counter. -/
def RLEState.updateRun (s : RLEState T) (op : T → Nat → Bool → σ → σ) (row : T × Bool) (c : σ) : RLEState T × σ :=
  if row.2 = true then
    if s.allNull = true then
      -- NULLs in front of the first valid value are counted with it
      ({ lastValue := row.1, seenCount := s.seenCount + 1, lastSeenCount := increment s.lastSeenCount, allNull := false }, c)
    else if type.eq s.lastValue row.1 = true then ({ s with lastSeenCount := increment s.lastSeenCount }, c)
    else if 0 < s.lastSeenCount then
      ({ s with seenCount := s.seenCount + 1, lastValue := row.1, lastSeenCount := 1 }, s.flush op c)
    else ({ s with lastValue := row.1, lastSeenCount := 1 }, c)
  else ({ s with lastSeenCount := increment s.lastSeenCount }, c)

def RLEState.update (s : RLEState T) (op : T → Nat → Bool → σ → σ) (row : T × Bool) (c : σ) : RLEState T × σ :=
  let (s, c) := s.updateRun type op row c
  if s.lastSeenCount = maximumRleCount then ({ s with lastSeenCount := 0, seenCount := s.seenCount + 1 }, s.flush op c)
  else (s, c)

/-! ## Segments -/

/-- A segment that was flushed: its bytes, how many of them there are, and the number of its rows. -/
structure Segment where
  bytes : Cells UInt8
  size : Nat
  count : Nat

structure CompressState where
  handle : Cells UInt8
  /-- `current_segment->count`. -/
  count : Nat
  entryCount : Nat
  segments : List Segment

variable (size : BlockSize) (uninitialized : Nat → Cells UInt8)

def maxRleCount : Nat := alignValueFloor ((blockSize size - rleHeaderSize) / (type.size + sizeofRleCount))

namespace CompressState

/-- `CreateEmptySegment`, over memory that holds anything. -/
def createEmptySegment (c : CompressState) : CompressState :=
  { c with handle := uninitialized c.segments.length, count := 0, entryCount := 0 }

def new : CompressState where
  handle := uninitialized 0
  count := 0
  entryCount := 0
  segments := []

/-- The handle of a segment that is complete. -/
def compact (c : CompressState) : Cells UInt8 :=
  let countsSize := sizeofRleCount * c.entryCount
  let originalRleOffset := rleHeaderSize + maxRleCount type size * type.size
  let minimalRleOffset := rleHeaderSize + type.size * c.entryCount
  let alignedRleOffset := alignValue minimalRleOffset
  let handle := if minimalRleOffset < alignedRleOffset then c.handle.fill minimalRleOffset alignedRleOffset 0 else c.handle
  -- `memmove`, and `Store` of the offset
  (handle.write alignedRleOffset (handle.read originalRleOffset countsSize)).write 0 (writeWord 8 alignedRleOffset)

/-- `FlushSegment`. A segment without rows is dropped by the checkpoint state. -/
def flushSegment (c : CompressState) : CompressState :=
  if c.count = 0 then c
  else
    let alignedRleOffset := alignValue (rleHeaderSize + type.size * c.entryCount)
    { c with
      segments := c.segments
        ++ [⟨c.compact type size, alignedRleOffset + sizeofRleCount * c.entryCount, c.count⟩] }

/-- `WriteValue`, in front of the test for a full segment. -/
def writeEntry (value : T) (count : Nat) (c : CompressState) : CompressState :=
  let values := c.handle.write (rleHeaderSize + c.entryCount * type.size) (type.bytes value)
  let handle := values.write (rleHeaderSize + maxRleCount type size * type.size + sizeofRleCount * c.entryCount)
    (writeWord sizeofRleCount count)
  { c with handle, entryCount := c.entryCount + 1, count := c.count + count }

def writeValue (value : T) (count : Nat) (_isNull : Bool) (c : CompressState) : CompressState :=
  let c := c.writeEntry type size value count
  if c.entryCount = maxRleCount type size then (c.flushSegment type size).createEmptySegment uninitialized else c

end CompressState

/-- `RLECompress` of all rows, and `RLEFinalizeCompress`. A row is a value and whether it is valid. -/
def compress (rows : List (T × Bool)) : List Segment :=
  let op := CompressState.writeValue type size uninitialized
  let (s, c) := rows.foldl (fun (s, c) row => s.update type op row c) (RLEState.new type, .new uninitialized)
  ((s.flush op c).flushSegment type size).segments

end Haybarn.Rle
