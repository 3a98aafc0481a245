/-
The compression of validity with roaring containers. The data of the containers of a segment is written from the front of a
block, each container at a place that its kind aligns, and the metadata is written behind it when the segment is flushed:
whether a container still goes into the segment is decided by counting both.
-/
import Haybarn.Bitpacking.State
import Mathlib.Algebra.Order.Group.Nat

namespace Haybarn.Roaring

open Bitpacking (getRequiredSize roundUpToAlgorithmGroupSize algorithmGroupSize)

/-! ## Constants -/

def compressedSegmentSize : Nat := 256

def roaringContainerSize : Nat := 2048

/-- `UNCOMPRESSED_SIZE`, in bytes. -/
def uncompressedSize : Nat := roaringContainerSize / 8

def compressedSegmentCount : Nat := roaringContainerSize / compressedSegmentSize

def maxRunIdx : Nat := (uncompressedSize - compressedSegmentCount) / 2

def maxArrayIdx : Nat := uncompressedSize - compressedSegmentCount

def bitsetContainerSentinelValue : Nat := maxArrayIdx + 1

def compressedArrayThreshold : Nat := 8

def compressedRunThreshold : Nat := 4

def containerTypeBitwidth : Nat := 2

def runContainerSizeBitwidth : Nat := 7

def bitsPerValue : Nat := 64

/-- `sizeof(idx_t)`. -/
def sizeofIdx : Nat := 8

def alignValue (val n : Nat) : Nat := (n + (val - 1)) / val * val

/-- What is assigned to a `uint16_t`. -/
def uint16 (n : Nat) : Nat := n % 2 ^ 16

/-- The exceptions that are thrown. -/
inductive Exception where
  | numericCast (value : Nat)
  | metadataMismatch
  | metadataOutsideBlock
  | outOfBounds (index : Nat)
deriving DecidableEq, Repr

/-- Bytes that are written, or kept for a container. -/
structure Range where
  start : Nat
  size : Nat
deriving DecidableEq, Repr

namespace Range

/-- No byte is in both. -/
def Apart (a b : Range) : Prop := a.start + a.size ≤ b.start ∨ b.start + b.size ≤ a.start

/-- The bytes are between two addresses. -/
def Between (r : Range) (lo hi : Nat) : Prop := lo ≤ r.start ∧ r.start + r.size ≤ hi

end Range

/-! ## The metadata of a container -/

inductive ContainerType where
  | run
  | array
  | bitset
deriving DecidableEq, Repr

structure ContainerMetadata where
  containerType : ContainerType
  nulls : Bool
  count : Nat
deriving DecidableEq, Repr

namespace ContainerMetadata

def runContainer (runs : Nat) : ContainerMetadata := ⟨.run, true, runs⟩

def arrayContainer (arraySize : Nat) (nulls : Bool) : ContainerMetadata := ⟨.array, nulls, arraySize⟩

def bitsetContainer (containerSize : Nat) : ContainerMetadata := ⟨.bitset, true, containerSize⟩

def isUncompressed (m : ContainerMetadata) : Bool := m.containerType = .bitset

def isRun (m : ContainerMetadata) : Bool := m.containerType = .run

def isInverted (m : ContainerMetadata) : Bool := m.nulls

def arrayCost (cardinality : Nat) : Nat :=
  uint16 (if cardinality < compressedArrayThreshold then cardinality * 2 else compressedSegmentCount + cardinality)

def runCost (runs : Nat) : Nat :=
  uint16 (if runs < compressedRunThreshold then runs * 4 else compressedSegmentCount + runs * 2)

def createMetadata (count arrayNull arrayNonNull runs : Nat) : ContainerMetadata :=
  let canUseRun := runs < maxRunIdx
  let canUseArray := arrayNull < maxArrayIdx ∨ arrayNonNull < maxArrayIdx
  if ¬ canUseArray ∧ ¬ canUseRun then bitsetContainer count
  else
    let lowestArrayCost := min (arrayCost arrayNull) (arrayCost arrayNonNull)
    let lowestRunCost := runCost runs
    let bitsetCost := uint16 (alignValue bitsPerValue count / bitsPerValue * 8)
    if min lowestArrayCost lowestRunCost > bitsetCost then bitsetContainer count
    else if lowestArrayCost ≤ lowestRunCost then
      if arrayNull ≤ arrayNonNull then arrayContainer arrayNull true else arrayContainer arrayNonNull false
    else runContainer runs

def getDataSizeInBytes (m : ContainerMetadata) (containerSize : Nat) : Nat :=
  if m.isUncompressed then containerSize / bitsPerValue * 8
  else if m.isRun then
    if m.count ≥ compressedRunThreshold then compressedSegmentCount + m.count * 2 else 4 * m.count
  else if m.count ≥ compressedArrayThreshold then compressedSegmentCount + m.count else 2 * m.count

end ContainerMetadata

/-! ## The metadata of a segment -/

structure ContainerMetadataCollection where
  containerType : List Nat := []
  numberOfRuns : List Nat := []
  cardinality : List Nat := []
  countInSegment : Nat := 0
  runsInSegment : Nat := 0
  arraysInSegment : Nat := 0
deriving DecidableEq, Repr

namespace ContainerMetadataCollection

variable (c : ContainerMetadataCollection)

/-- `NumericCast<uint8_t>`. -/
def numericCastUint8 (value : Nat) : Except Exception Nat :=
  if value < 2 ^ 8 then .ok value else .error (.numericCast value)

def addContainerType (isRun isInverted : Bool) : ContainerMetadataCollection :=
  { c with containerType := c.containerType ++ [(if isRun then 2 else 0) ||| if isInverted then 1 else 0] }

def addBitsetContainer : ContainerMetadataCollection :=
  let c := c.addContainerType false false
  { c with
    cardinality := c.cardinality ++ [bitsetContainerSentinelValue]
    arraysInSegment := c.arraysInSegment + 1
    countInSegment := c.countInSegment + 1 }

def addArrayContainer (amount : Nat) (isInverted : Bool) : Except Exception ContainerMetadataCollection := do
  let c := c.addContainerType false isInverted
  let amount ← numericCastUint8 amount
  return { c with
    cardinality := c.cardinality ++ [amount]
    arraysInSegment := c.arraysInSegment + 1
    countInSegment := c.countInSegment + 1 }

def addRunContainer (amount : Nat) (isInverted : Bool) : Except Exception ContainerMetadataCollection := do
  let c := c.addContainerType true isInverted
  let amount ← numericCastUint8 amount
  return { c with
    numberOfRuns := c.numberOfRuns ++ [amount]
    runsInSegment := c.runsInSegment + 1
    countInSegment := c.countInSegment + 1 }

def addMetadata (m : ContainerMetadata) : Except Exception ContainerMetadataCollection :=
  if m.isRun then c.addRunContainer m.count m.isInverted
  else if m.isUncompressed then .ok c.addBitsetContainer
  else c.addArrayContainer m.count m.isInverted

def getMetadataSize (containerCount runContainers arrayContainers : Nat) : Nat :=
  getRequiredSize containerCount containerTypeBitwidth + getRequiredSize runContainers runContainerSizeBitwidth +
    arrayContainers

def getMetadataSizeForSegment : Nat :=
  getMetadataSize (c.runsInSegment + c.arraysInSegment) c.runsInSegment c.arraysInSegment

def flushSegment : ContainerMetadataCollection :=
  { c with runsInSegment := 0, countInSegment := 0, arraysInSegment := 0 }

/-- The bytes that `PackBuffer<uint8_t>` writes, a group at a time. -/
def packBuffer (dest count width : Nat) : List Range :=
  (List.range (roundUpToAlgorithmGroupSize count / algorithmGroupSize)).map fun group =>
    ⟨dest + algorithmGroupSize * group * width / 8, algorithmGroupSize * width / 8⟩

/-- `Serialize`: the bytes that are written, and how many it returns. -/
def serialize (dest : Nat) : List Range × Nat :=
  let typesSize := getRequiredSize c.countInSegment containerTypeBitwidth
  let runsSize := getRequiredSize c.runsInSegment runContainerSizeBitwidth
  let arraysSize := c.arraysInSegment
  let types := packBuffer dest c.countInSegment containerTypeBitwidth
  let dest := dest + typesSize
  let runs := if c.numberOfRuns ≠ [] then packBuffer dest c.runsInSegment runContainerSizeBitwidth else []
  let dest := if c.numberOfRuns ≠ [] then dest + runsSize else dest
  let arrays := if c.cardinality ≠ [] then [⟨dest, c.arraysInSegment⟩] else []
  (types ++ runs ++ arrays, typesSize + runsSize + arraysSize)

end ContainerMetadataCollection

/-! ## Compression -/

/-- What the compression is given: the size of a block, where the blocks that are pinned are, the number of values, and the
containers that the analysis has chosen for them. -/
structure Config where
  blockSize : Nat
  ptr : Nat → Nat
  totalCount : Nat
  containerMetadata : List ContainerMetadata

/-- `RoaringCompressState`, with the bytes that are kept for the containers of the segment. Of the container that is being
filled, only how many values it has. -/
structure CompressState where
  segments : Nat
  handle : Nat
  dataPtr : Nat
  metadataPtr : Nat
  count : Nat
  collection : ContainerMetadataCollection
  totalCount : Nat
  length : Nat
  lastBitSet : Bool
  appendedCount : Nat
  kept : List Range

/-- What a flush has written: the metadata, and the two sizes that are stored with the segment. -/
structure Flushed where
  metadata : List Range
  metadataStart : Nat
  totalSegmentSize : Nat

namespace CompressState

variable (cfg : Config) (s : CompressState)

def getUsedDataSpace : Nat := s.dataPtr - (s.handle + sizeofIdx)

def getAvailableSpace : Nat := s.metadataPtr - (s.handle + sizeofIdx)

def getContainerIndex : Nat := s.totalCount / roaringContainerSize

def canStore (containerSize : Nat) (m : ContainerMetadata) : Bool :=
  let alignment := if m.isUncompressed then alignValue 8 s.dataPtr - s.dataPtr else 0
  let newDataSpace := alignment + m.getDataSizeInBytes containerSize
  let runsCount := if m.isRun then s.collection.runsInSegment + 1 else s.collection.runsInSegment
  let arraysCount := if m.isRun then s.collection.arraysInSegment else s.collection.arraysInSegment + 1
  let newMetadataSpace := ContainerMetadataCollection.getMetadataSize (runsCount + arraysCount) runsCount arraysCount
  let requiredDataSpace := alignValue 8 (s.getUsedDataSpace + newDataSpace)
  ¬ requiredDataSpace + newMetadataSpace > s.getAvailableSpace

def createEmptySegment : CompressState :=
  { s with
    segments := s.segments + 1
    handle := cfg.ptr s.segments
    dataPtr := cfg.ptr s.segments + sizeofIdx
    metadataPtr := cfg.ptr s.segments + cfg.blockSize
    count := 0
    kept := [] }

def flushSegment : Except Exception (Option Flushed × CompressState) :=
  let basePtr := s.handle + sizeofIdx
  let unalignedDataSize := s.dataPtr - basePtr
  let dataSize := alignValue 8 unalignedDataSize
  let s := { s with dataPtr := s.dataPtr + (dataSize - unalignedDataSize) }
  let metadataSize := s.collection.getMetadataSizeForSegment
  if s.count = 0 then .ok (none, s)
  else
    let (metadata, serializedMetadataSize) := s.collection.serialize s.dataPtr
    if metadataSize ≠ serializedMetadataSize then .error .metadataMismatch
    else
      let s := { s with collection := s.collection.flushSegment }
      let metadataStart := s.dataPtr - basePtr
      if metadataStart > cfg.blockSize then .error .metadataOutsideBlock
      else .ok (some ⟨metadata, metadataStart, sizeofIdx + dataSize + metadataSize⟩, s)

/-- `OverrideUncompressed`: where it leaves the destination. -/
def overrideUncompressed (destination : Nat) : Nat := alignValue 8 destination

def overrideRun (destination count : Nat) : Nat :=
  if count ≥ compressedRunThreshold then destination else alignValue 4 destination

def overrideArray (destination count : Nat) : Nat :=
  if count ≥ compressedArrayThreshold then destination else alignValue 2 destination

/-- Where the data of a container starts: `InitializeContainer` aligns it for its kind. -/
def containerStart (destination : Nat) (m : ContainerMetadata) : Nat :=
  if m.isUncompressed then overrideUncompressed (alignValue 8 destination)
  else if m.isRun then overrideRun destination m.count
  else overrideArray destination m.count

/-- The end of `InitializeContainer`: the data pointer is aligned and the bytes of the container are kept. -/
def placeContainer (containerSize : Nat) (m : ContainerMetadata) : Except Exception CompressState := do
  let start := containerStart s.dataPtr m
  let size := m.getDataSizeInBytes containerSize
  let collection ← s.collection.addMetadata m
  return { s with dataPtr := start + size, collection, kept := s.kept ++ [⟨start, size⟩] }

/-- The size of the next container. -/
def nextContainerSize : Nat :=
  alignValue bitsPerValue (min (cfg.totalCount - s.appendedCount) roaringContainerSize)

def initializeContainer : Except Exception CompressState :=
  if s.totalCount = cfg.totalCount then .ok s
  else
    match cfg.containerMetadata[s.getContainerIndex]? with
    | none => .error (.outOfBounds s.getContainerIndex)
    | some m =>
      let containerSize := s.nextContainerSize cfg
      if s.canStore containerSize m then s.placeContainer containerSize m
      else
        match s.flushSegment cfg with
        | .error e => .error e
        | .ok (_, s) => (s.createEmptySegment cfg).placeContainer containerSize m

/-- The first part of the constructor, before the first container is initialised. -/
def construct : CompressState :=
  let s : CompressState :=
    { segments := 0, handle := 0, dataPtr := 0, metadataPtr := 0, count := 0, collection := {}, totalCount := 0,
      length := 0, lastBitSet := false, appendedCount := 0, kept := [] }
  s.createEmptySegment cfg

/-- `Append` of the values that wait. -/
def append (amount : Nat) : CompressState := { s with appendedCount := s.appendedCount + amount }

/-- Values of one kind: `HandleBit`, `HandleAllValid` and `HandleNoneValid`. -/
def handleValues (bitSet : Bool) (amount : Nat) : CompressState :=
  let s := if s.length ≠ 0 ∧ s.lastBitSet ≠ bitSet then { s.append s.length with length := 0 } else s
  { s with length := s.length + amount, lastBitSet := bitSet }

def handleBit (bitSet : Bool) : CompressState := s.handleValues bitSet 1

def handleAllValid (amount : Nat) : CompressState := s.handleValues true amount

def handleNoneValid (amount : Nat) : CompressState := s.handleValues false amount

/-- `Count`. -/
def waiting : Nat := s.appendedCount + s.length

def flushContainer : CompressState :=
  let s := if s.length ≠ 0 then { s.append s.length with length := 0 } else s
  if s.appendedCount = 0 then s
  else
    { s with
      totalCount := s.totalCount + s.appendedCount
      count := s.count + s.appendedCount
      length := 0
      appendedCount := 0 }

def nextContainer : Except Exception CompressState := s.flushContainer.initializeContainer cfg

def finalize : Except Exception (Option Flushed × CompressState) := s.flushContainer.flushSegment cfg

end CompressState

/-- Where the compression is: a container is to be initialised, or is being filled. -/
inductive Stage where
  | next
  | filling
deriving DecidableEq, Repr

/-- The states that the compression reaches, over whatever values it is given: no more of them than were analysed, and in
parts that end where a container is full. -/
inductive Reached (cfg : Config) : Stage → CompressState → Prop where
  | construct : Reached cfg .next (CompressState.construct cfg)
  | initializeContainer {s s' : CompressState} : Reached cfg .next s → s.initializeContainer cfg = .ok s' →
      Reached cfg .filling s'
  | handleValues {s : CompressState} (bitSet : Bool) (amount : Nat) : Reached cfg .filling s →
      s.waiting + amount ≤ roaringContainerSize → s.totalCount + s.waiting + amount ≤ cfg.totalCount →
      Reached cfg .filling (s.handleValues bitSet amount)
  | flushContainer {s : CompressState} : Reached cfg .filling s → s.waiting = roaringContainerSize →
      Reached cfg .next s.flushContainer

end Haybarn.Roaring
