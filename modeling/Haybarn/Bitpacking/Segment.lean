/-
Segments of groups: the model of the second part of `bitpacking.cpp`. In the block of a segment the data of the groups
grow upwards and their metadata downwards; a scan, a skip and a fetch of one row each decode the groups on their own.
-/
import Haybarn.Bitpacking.State
import Haybarn.Lib.Cells
import Haybarn.Wal.Serializer

namespace Haybarn.Bitpacking

open Lib Wal

/-! ## Bytes -/

/-- The bytes of a block. -/
abbrev Block := Cells UInt8

/-- `Load` of a word. -/
def load (block : Block) (ptr bytes : Nat) : Nat := wordValue (block.read ptr bytes)

/-- The packing primitives: 32 values are packed to a number of bits each. -/
structure Packing (w : Nat) where
  pack : Nat → (Nat → BitVec w) → List UInt8
  unpack : Nat → List UInt8 → Nat → BitVec w
  length_pack : ∀ width values, (pack width values).length = 4 * width
  unpack_pack : ∀ width values i, width ≤ w → i < algorithmGroupSize →
    (unpack width (pack width values) i).toNat = (values i).toNat % 2 ^ width

/-! ## Compression -/

def BitpackingMode.code : BitpackingMode → Nat
  | .invalid => 0
  | .auto => 1
  | .constant => 2
  | .constantDelta => 3
  | .deltaFor => 4
  | .for_ => 5

def BitpackingMode.ofCode : Nat → BitpackingMode
  | 1 => .auto
  | 2 => .constant
  | 3 => .constantDelta
  | 4 => .deltaFor
  | 5 => .for_
  | _ => .invalid

/-- `EncodeMeta`: the mode in the highest of four bytes. -/
def encodeMeta (mode : BitpackingMode) (offset : Nat) : Nat := offset ||| mode.code <<< 24

def decodeMeta (encoded : Nat) : BitpackingMode × Nat := (.ofCode (encoded >>> 24 &&& 0xFF), encoded &&& 0x00FFFFFF)

/-- `sizeof(bitpacking_metadata_encoded_t)`. -/
def metadataSize : Nat := 4

/-- `BITPACKING_HEADER_SIZE`. -/
def headerSize : Nat := 8

/-- A segment that is finished. -/
structure Segment where
  bytes : Block
  size : Nat
  count : Nat

/-- `BitpackingCompressionState`: the segments that are finished, and the one that is written. -/
structure CompressionState (t : IntType) where
  state : BitpackingState t
  segments : List Segment
  block : Block
  count : Nat
  dataPtr : Nat
  metadataPtr : Nat

inductive CompressionError where
  /-- `FlushSegment`. -/
  | sizeCalculation
deriving DecidableEq, Repr

namespace CompressionState

variable {t : IntType} (packing : Packing t.bits) (blockSize : Nat) (uninitialized : Nat → Block)

/-- `CreateEmptySegment`. What is in the blocks, one for each segment, is not initialized. -/
def createEmptySegment (c : CompressionState t) : CompressionState t :=
  { c with block := uninitialized c.segments.length, count := 0, dataPtr := headerSize, metadataPtr := blockSize }

def new (state : BitpackingState t) : CompressionState t :=
  ⟨state, [], uninitialized 0, 0, headerSize, blockSize⟩

def canStore (c : CompressionState t) (dataBytes metaBytes : Nat) : Prop :=
  let requiredDataBytes := alignValue dataBytes
  let requiredMetaBytes := blockSize - (c.metadataPtr - c.dataPtr) + metaBytes
  requiredDataBytes + requiredMetaBytes ≤ blockSize - headerSize

instance (c : CompressionState t) (dataBytes metaBytes : Nat) : Decidable (c.canStore blockSize dataBytes metaBytes) :=
  inferInstanceAs (Decidable (_ ≤ _))

/-- The bytes of a segment that is finished: the metadata are moved next to the data. -/
def compact (c : CompressionState t) : Block :=
  let metadataOffset := alignValue c.dataPtr
  let metadataSize := blockSize - c.metadataPtr
  let block := c.block.write c.dataPtr (List.replicate (metadataOffset - c.dataPtr) 0)
  let block := block.write metadataOffset (block.read c.metadataPtr metadataSize)
  block.write 0 (writeWord 8 (metadataOffset + metadataSize))

def flushSegment (c : CompressionState t) : Except CompressionError (CompressionState t) :=
  let totalSegmentSize := alignValue c.dataPtr + (blockSize - c.metadataPtr)
  if ¬c.canStore blockSize 0 0 then .error .sizeCalculation
  else .ok { c with segments := c.segments ++ [⟨c.compact blockSize, totalSegmentSize, c.count⟩] }

def reserveSpace (c : CompressionState t) (dataBytes : Nat) : Except CompressionError (CompressionState t) :=
  if c.canStore blockSize dataBytes metadataSize then .ok c
  else (c.flushSegment blockSize).map (createEmptySegment blockSize uninitialized)

def writeMetaData (c : CompressionState t) (mode : BitpackingMode) : CompressionState t :=
  let metadataPtr := c.metadataPtr - metadataSize
  { c with metadataPtr, block := c.block.write metadataPtr (writeWord 4 (encodeMeta mode c.dataPtr)) }

/-- `WriteData` of a value. -/
def writeData (c : CompressionState t) (value : Nat) : CompressionState t :=
  { c with block := c.block.write c.dataPtr (writeWord t.bytes value), dataPtr := c.dataPtr + t.bytes }

/-- The values of an algorithm group. The last one is filled up with zeroes. -/
def algorithmGroup (values : Nat → t.Value) (count group : Nat) : Nat → t.Value := fun i =>
  if algorithmGroupSize * group + i < count then values (algorithmGroupSize * group + i) else 0

def packBuffer (block : Block) (ptr : Nat) (values : Nat → t.Value) (count width : Nat) : Block :=
  (List.range (roundUpToAlgorithmGroupSize count / algorithmGroupSize)).foldl
    (fun block group => block.write (ptr + algorithmGroupSize * group * width / 8)
      (packing.pack width (algorithmGroup values count group))) block

/-- Values that are packed, behind the values in front of them. -/
def writePacked (c : CompressionState t) (values : Nat → t.Value) (count width : Nat) : CompressionState t :=
  { c with
    block := packBuffer packing c.block c.dataPtr values count width
    dataPtr := c.dataPtr + getRequiredSize count width }

/-- `UpdateStats`, without the statistics of the segment. -/
def updateStats (c : CompressionState t) (count : Nat) : CompressionState t := { c with count := c.count + count }

/-- The functions of `BitpackingWriter`. -/
def writeGroup (c : CompressionState t) : Group t → Except CompressionError (CompressionState t)
  | .constant constant count => do
    let c ← c.reserveSpace blockSize uninitialized t.bytes
    pure (((c.writeMetaData .constant).writeData constant.toNat).updateStats count)
  | .constantDelta constant frameOfReference count => do
    let c ← c.reserveSpace blockSize uninitialized (2 * t.bytes)
    pure ((((c.writeMetaData .constantDelta).writeData frameOfReference.toNat).writeData constant.toNat).updateStats count)
  | .deltaFor values width frameOfReference deltaOffset count => do
    let c ← c.reserveSpace blockSize uninitialized (getRequiredSize count width + 3 * t.bytes)
    let c := ((c.writeMetaData .deltaFor).writeData frameOfReference.toNat).writeData width
    pure (((c.writeData deltaOffset.toNat).writePacked packing values count width).updateStats count)
  | .for_ values width frameOfReference count => do
    let c ← c.reserveSpace blockSize uninitialized (getRequiredSize count width + 2 * t.bytes)
    let c := ((c.writeMetaData .for_).writeData frameOfReference.toNat).writeData width
    pure ((c.writePacked packing values count width).updateStats count)

/-- What `Update` and `Flush` write. Whether they succeed is not looked at. -/
def writeFlushed (c : CompressionState t) (flushed : BitpackingState.Flushed t) : Except CompressionError (CompressionState t) :=
  let c := { c with state := flushed.state }
  match flushed.group with
  | some group => c.writeGroup packing blockSize uninitialized group
  | none => .ok c

/-- `Append`, of the values of all vectors. -/
def append (c : CompressionState t) : List (t.Value × Bool) → Except CompressionError (CompressionState t)
  | [] => .ok c
  | (value, isValid) :: rows => do
    let c ← c.writeFlushed packing blockSize uninitialized (c.state.update value isValid)
    append c rows

/-- `Finalize`: the segments. -/
def finalize (c : CompressionState t) : Except CompressionError (List Segment) := do
  let c ← c.writeFlushed packing blockSize uninitialized c.state.flush
  let c ← c.flushSegment blockSize
  pure c.segments

end CompressionState

/-! ## Scan -/

/-- `BitpackingScanState`. -/
structure ScanState (t : IntType) where
  mode : BitpackingMode
  currentWidth : Nat
  currentFrameOfReference : t.Value
  currentConstant : t.Value
  currentDeltaOffset : t.Value
  currentGroupOffset : Nat
  currentGroupPtr : Nat
  bitpackingMetadataPtr : Nat

inductive ScanError where
  /-- The constructor. -/
  | offsetOutOfRange
  /-- `LoadNextGroup`. -/
  | invalidMode
deriving DecidableEq, Repr

namespace ScanState

variable {t : IntType} (packing : Packing t.bits) (block : Block) (blockOffset : Nat)

/-- A value of the type. -/
def loadValue (ptr : Nat) : t.Value := BitVec.ofNat t.bits (load block ptr t.bytes)

def loadNextGroup (s : ScanState t) : Except ScanError (ScanState t) :=
  let (mode, offset) := decodeMeta (load block s.bitpackingMetadataPtr metadataSize)
  let ptr := blockOffset + offset
  let s := { s with mode, currentGroupOffset := 0, bitpackingMetadataPtr := s.bitpackingMetadataPtr - metadataSize }
  match mode with
  | .constant => .ok { s with currentConstant := loadValue block ptr, currentGroupPtr := ptr + t.bytes }
  | .constantDelta =>
    .ok { s with
      currentFrameOfReference := loadValue block ptr
      currentConstant := loadValue block (ptr + t.bytes)
      currentGroupPtr := ptr + t.bytes + t.bytes }
  | .for_ =>
    .ok { s with
      currentFrameOfReference := loadValue block ptr
      currentWidth := load block (ptr + t.bytes) t.bytes % 256
      currentGroupPtr := ptr + t.bytes + t.bytes }
  | .deltaFor =>
    .ok { s with
      currentFrameOfReference := loadValue block ptr
      currentWidth := load block (ptr + t.bytes) t.bytes % 256
      currentDeltaOffset := loadValue block (ptr + t.bytes + t.bytes)
      currentGroupPtr := ptr + t.bytes + t.bytes + t.bytes }
  | .invalid | .auto => .error .invalidMode

/-- The constructor. -/
def new (blockSize : Nat) : Except ScanError (ScanState t) :=
  let metadataOffset := load block blockOffset 8
  let bitpackingMetadataPtr := blockOffset + metadataOffset - metadataSize
  if bitpackingMetadataPtr ≥ blockSize then .error .offsetOutOfRange
  else loadNextGroup block blockOffset ⟨.invalid, 0, 0, 0, 0, 0, 0, bitpackingMetadataPtr⟩

def unPackBlock (s : ScanState t) (decompressionGroupStartPointer : Nat) : Nat → t.Value :=
  packing.unpack s.currentWidth (block.read decompressionGroupStartPointer (4 * s.currentWidth))

/-- The start of the algorithm group of the current offset. -/
def decompressionGroupStartPointer (s : ScanState t) : Nat :=
  let offsetInCompressionGroup := s.currentGroupOffset % algorithmGroupSize
  let currentPositionPtr := s.currentGroupPtr + s.currentGroupOffset * s.currentWidth / 8
  currentPositionPtr - offsetInCompressionGroup * s.currentWidth / 8

def applyFrameOfReference (frameOfReference : t.Value) (values : List t.Value) : List t.Value :=
  if frameOfReference = 0 then values else values.map (· + frameOfReference)

/-- `DeltaDecode`: each value is added to the one before. -/
def deltaDecode (previousValue : t.Value) : List t.Value → List t.Value
  | [] => []
  | value :: values => (value + previousValue) :: deltaDecode (value + previousValue) values

/-- The values of one algorithm group from the current offset on, and the state behind them. -/
def decodeAlgorithmGroup (s : ScanState t) (count : Nat) : List t.Value × ScanState t :=
  let offsetInCompressionGroup := s.currentGroupOffset % algorithmGroupSize
  let decompressionBuffer := s.unPackBlock packing block s.decompressionGroupStartPointer
  let values := (List.range count).map fun i => decompressionBuffer (offsetInCompressionGroup + i)
  let values := applyFrameOfReference s.currentFrameOfReference values
  if s.mode = .deltaFor then
    let values := deltaDecode s.currentDeltaOffset values
    (values, { s with currentDeltaOffset := values.getLastD 0, currentGroupOffset := s.currentGroupOffset + count })
  else (values, { s with currentGroupOffset := s.currentGroupOffset + count })

/-- The loop of `Skip` over algorithm groups. -/
def skipLoop : Nat → ScanState t → Nat → ScanState t
  | 0, s, _ => s
  | fuel + 1, s, remainingToSkip =>
    if remainingToSkip = 0 then s
    else
      let count := min remainingToSkip (algorithmGroupSize - s.currentGroupOffset % algorithmGroupSize)
      skipLoop fuel (s.decodeAlgorithmGroup packing block count).2 (remainingToSkip - count)

/-- The part of `Skip` that goes to the metadata group, and how much it skips. -/
def skipGroups (s : ScanState t) (skipCount : Nat) : Except ScanError (ScanState t × Nat) :=
  let metaGroupsToSkip := (skipCount + s.currentGroupOffset) / metadataGroupSize
  if metaGroupsToSkip ≠ 0 then
    -- the pointer is at the next metadata
    (loadNextGroup block blockOffset
      { s with bitpackingMetadataPtr := s.bitpackingMetadataPtr - (metaGroupsToSkip - 1) * metadataSize }).map fun s' =>
        (s', metadataGroupSize - s.currentGroupOffset + (metaGroupsToSkip - 1) * metadataGroupSize)
  else .ok (s, 0)

/-- The part of `Skip` in the group: differences have to be decoded. -/
def skipRows (s : ScanState t) (remainingToSkip : Nat) : ScanState t :=
  if s.mode = .deltaFor then skipLoop packing block (remainingToSkip + 1) s remainingToSkip
  else { s with currentGroupOffset := s.currentGroupOffset + remainingToSkip }

def skip (s : ScanState t) (skipCount : Nat) : Except ScanError (ScanState t) :=
  (s.skipGroups block blockOffset skipCount).map fun (s, skipped) => s.skipRows packing block (skipCount - skipped)

/-- A metadata group that is exhausted is left for the next one. -/
def loadExhausted (s : ScanState t) : Except ScanError (ScanState t) :=
  if s.currentGroupOffset = metadataGroupSize then loadNextGroup block blockOffset s else .ok s

/-- One round of the loop of `BitpackingScanPartial`. -/
def scanRound (s : ScanState t) (remaining : Nat) : List t.Value × ScanState t :=
  match s.mode with
  | .constant =>
    let toScan := min remaining (metadataGroupSize - s.currentGroupOffset)
    (List.replicate toScan s.currentConstant, { s with currentGroupOffset := s.currentGroupOffset + toScan })
  | .constantDelta =>
    let toScan := min remaining (metadataGroupSize - s.currentGroupOffset)
    ((List.range toScan).map fun i =>
      s.currentConstant * BitVec.ofNat t.bits (s.currentGroupOffset + i) + s.currentFrameOfReference,
      { s with currentGroupOffset := s.currentGroupOffset + toScan })
  | _ => s.decodeAlgorithmGroup packing block (min remaining (algorithmGroupSize - s.currentGroupOffset % algorithmGroupSize))

/-- The loop of `BitpackingScanPartial`. Every round scans something. -/
def scanLoop : Nat → ScanState t → Nat → Except ScanError (List t.Value × ScanState t)
  | 0, s, _ => .ok ([], s)
  | fuel + 1, s, remaining =>
    if remaining = 0 then .ok ([], s)
    else do
      let s ← s.loadExhausted block blockOffset
      let (values, s) := s.scanRound packing block remaining
      let (rest, s) ← scanLoop fuel s (remaining - values.length)
      pure (values ++ rest, s)

/-- `BitpackingScanPartial`: the values that are scanned. -/
def scanPartial (s : ScanState t) (scanCount : Nat) : Except ScanError (List t.Value × ScanState t) :=
  scanLoop packing block blockOffset (scanCount + 1) s scanCount

end ScanState

/-! ## Fetch -/

/-- `TryCast` of an offset. A value that does not fit is not written. -/
def castMultiplier (t : IntType) (offset : Nat) (uninitialized : t.Value) : t.Value :=
  if (offset : Int) ≤ toInt t.signed (maximumLimit t.signed : t.Value) then BitVec.ofNat t.bits offset else uninitialized

/-- The value at the current offset, as `BitpackingFetchRow` decodes it. The multiplier is not initialized. -/
def ScanState.fetch {t : IntType} (packing : Packing t.bits) (block : Block) (s : ScanState t) (uninitialized : t.Value) :
    t.Value :=
  match s.mode with
  | .constant => s.currentConstant
  | .constantDelta =>
    let multiplier := castMultiplier t s.currentGroupOffset uninitialized
    multiplier * s.currentConstant + s.currentFrameOfReference
  | mode =>
    let offsetInCompressionGroup := s.currentGroupOffset % algorithmGroupSize
    let decompressionGroupStartPointer :=
      s.currentGroupPtr + (s.currentGroupOffset - offsetInCompressionGroup) * s.currentWidth / 8
    let decompressionBuffer := s.unPackBlock packing block decompressionGroupStartPointer
    let value := decompressionBuffer offsetInCompressionGroup + s.currentFrameOfReference
    if mode = .deltaFor then value + s.currentDeltaOffset else value

/-- `BitpackingFetchRow`. -/
def fetchRow {t : IntType} (packing : Packing t.bits) (block : Block) (blockOffset blockSize rowId : Nat)
    (uninitialized : t.Value) : Except ScanError t.Value := do
  let s ← ScanState.new (t := t) block blockOffset blockSize
  let s ← s.skip packing block blockOffset rowId
  pure (s.fetch packing block uninitialized)

end Haybarn.Bitpacking
