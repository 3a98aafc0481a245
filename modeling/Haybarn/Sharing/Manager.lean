/-
Blocks that several segments share: the model of `partial_block_manager.cpp`, and of the partial blocks that a checkpoint
and an optimistic write fill, in `column_checkpoint_state.cpp`. A manager keeps the blocks that still have room by the
room they have, copies the bytes of a segment behind the last one, and writes a block when it is too full to be kept.

A block that is being filled: its segments and its uninitialized regions lie side by side in front of the offset. Adding
a segment and merging another block keep it so, and clearing the rest leaves a block that holds its segments and zeroes.
-/
import Haybarn.Block.System
import Haybarn.Lib.Layout
import Haybarn.Lib.Outcome
import Haybarn.Lib.SortedAssoc
import Haybarn.Metadata.Stream
import Mathlib.Data.UInt

namespace Haybarn.Sharing

open Lib Block
open Metadata (BlockSize)

/-- `GetBlockSize`. -/
def blockSize (size : BlockSize) : Nat := size.allocSize - size.headerSize

/-- `AlignValue` to eight bytes. -/
def alignValue (n : Nat) : Nat := (n + 7) / 8 * 8

/-! ## Partial blocks -/

/-- `PartialBlockType`. The blocks of an in-memory checkpoint are never written, and are left out. -/
inductive PartialBlockType where
  | fullCheckpoint
  | appendToTable
deriving DecidableEq, Repr

structure UninitializedRegion where
  start : Nat
  stop : Nat
deriving DecidableEq, Repr

/-- The block id is none for `INVALID_BLOCK`. -/
structure PartialBlockState where
  blockId : Option Nat
  blockSize : Nat
  offset : Nat
  blockUseCount : Nat
deriving DecidableEq, Repr

/-- A segment is the bytes that were to be written. -/
structure PartialColumnSegment where
  segment : List UInt8
  offsetInBlock : Nat
deriving DecidableEq, Repr

/-- `PartialBlockForCheckpoint`. The buffer is that of the first segment. -/
structure PartialBlock where
  state : PartialBlockState
  uninitializedRegions : List UninitializedRegion
  buffer : Cells UInt8
  segments : List PartialColumnSegment

/-- A block in the file, with the segments that point to it. -/
structure WrittenBlock where
  blockId : Nat
  buffer : Cells UInt8
  segments : List PartialColumnSegment

/-- The block manager, and the blocks that were written through it. -/
structure Storage where
  blocks : Block.System
  written : List WrittenBlock

/-- `GetFreeBlockId` and `GetFreeBlockIdForCheckpoint`. -/
def getFreeBlockId (blocks : Block.System) (type : FreeBlockType) : Outcome (Nat × Block.System) :=
  match (blocks.manager.getFreeBlockIdInternal type).1 with
  | .ok blockId => .done (blockId, blocks.getFreeBlockId type)
  | .error _ => .error "Free block is already registered"

def increaseBlockReferenceCount (blocks : Block.System) (blockId : Nat) : Block.System :=
  blocks.step (.increaseBlockReferenceCount blockId)

namespace PartialBlock

def addUninitializedRegion (p : PartialBlock) (start stop : Nat) : PartialBlock :=
  { p with uninitializedRegions := p.uninitializedRegions ++ [⟨start, stop⟩] }

def addSegmentToTail (p : PartialBlock) (segment : List UInt8) (offsetInBlock : Nat) : PartialBlock :=
  { p with segments := p.segments ++ [⟨segment, offsetInBlock⟩] }

/-- The constructor. The buffer of the segment has the size of a block, and behind the segment it holds what the memory
held before. -/
def create (segment : List UInt8) (memory : Cells UInt8) (state : PartialBlockState) : PartialBlock where
  state
  uninitializedRegions := []
  buffer := memory.write 0 segment
  segments := [⟨segment, 0⟩]

/-- The copy of `FlushSegmentInternal`. -/
def copySegment (p : PartialBlock) (segment : List UInt8) (offsetInBlock : Nat) : PartialBlock :=
  { p with buffer := p.buffer.write offsetInBlock segment }

def flushInternal (size : BlockSize) (p : PartialBlock) (freeSpaceLeft : Nat) : Cells UInt8 :=
  if 0 < freeSpaceLeft ∨ p.uninitializedRegions ≠ [] then
    let buffer := p.uninitializedRegions.foldl (fun buffer region => buffer.fill region.start region.stop 0) p.buffer
    buffer.fill (blockSize size - freeSpaceLeft) (blockSize size) 0
  else p.buffer

/-- The offsets that the segments point to: `ConvertToPersistent` points the first one to the start of the block. -/
def markAsPersistent : List PartialColumnSegment → List PartialColumnSegment
  | [] => []
  | segment :: segments => { segment with offsetInBlock := 0 } :: segments

def flush (size : BlockSize) (p : PartialBlock) (storage : Storage) (freeSpaceLeft : Nat) : Outcome Storage :=
  if p.segments = [] then .error "Flush called on partial block that was already flushed"
  else
    let buffer := p.flushInternal size freeSpaceLeft
    match p.state.blockId with
    | some blockId =>
      .done
        { blocks := storage.blocks.step (.registerBlock blockId)
          written := storage.written ++ [⟨blockId, buffer, markAsPersistent p.segments⟩] }
    | none =>
      getFreeBlockId storage.blocks .newlyUsedBlock >>= fun (blockId, blocks) =>
        let blocks := blocks.step (.registerBlock blockId)
        -- every segment but the first adds a reference
        .done
          { blocks := p.segments.tail.foldl (fun blocks _ => increaseBlockReferenceCount blocks blockId) blocks
            written := storage.written ++ [⟨blockId, buffer, markAsPersistent p.segments⟩] }

def merge (p other : PartialBlock) (offset otherSize : Nat) : PartialBlock :=
  { p with
    buffer := p.buffer.write offset (other.buffer.read 0 otherSize)
    uninitializedRegions := p.uninitializedRegions
      ++ other.uninitializedRegions.map fun region => ⟨region.start + offset, region.stop + offset⟩
    segments := p.segments
      ++ other.segments.map fun segment => { segment with offsetInBlock := segment.offsetInBlock + offset } }

end PartialBlock

/-! ## The manager -/

/-- What a block that is being filled has room for comes first in the list. -/
structure PartialBlockManager where
  partialBlockType : PartialBlockType
  partiallyFilledBlocks : List (Nat × PartialBlock)
  maxPartialBlockSize : Nat
  maxUseCount : Nat

structure PartialBlockAllocation where
  state : PartialBlockState
  partialBlock : Option PartialBlock

def maxBlockMapSize : Nat := 2 ^ 31

/-- The block that `lower_bound` finds, and the map without it. -/
def lowerBound (n : Nat) : List (Nat × PartialBlock) → Option (PartialBlock × List (Nat × PartialBlock))
  | [] => none
  | e :: blocks =>
    if e.1 < n then (lowerBound n blocks).map fun (p, rest) => (p, e :: rest) else some (e.2, blocks)

namespace PartialBlockManager

variable (size : BlockSize)

/-- `GetPartialBlock`, where the segment is small enough for it. -/
def getPartialBlock (m : PartialBlockManager) (segmentSize : Nat) : Option (PartialBlock × List (Nat × PartialBlock)) :=
  if segmentSize ≤ m.maxPartialBlockSize then lowerBound segmentSize m.partiallyFilledBlocks else none

def hasBlockAllocation (m : PartialBlockManager) (segmentSize : Nat) : Bool := (m.getPartialBlock segmentSize).isSome

def allocateBlock (m : PartialBlockManager) (blocks : Block.System) : Outcome (PartialBlockState × Block.System) :=
  match m.partialBlockType with
  | .fullCheckpoint =>
    getFreeBlockId blocks .checkpointedBlock >>= fun (blockId, blocks) =>
      .done (⟨some blockId, blockSize size, 0, 1⟩, blocks)
  | .appendToTable => .done (⟨none, blockSize size, 0, 1⟩, blocks)

def getBlockAllocation (m : PartialBlockManager) (blocks : Block.System) (segmentSize : Nat) :
    Outcome (PartialBlockAllocation × PartialBlockManager × Block.System) :=
  match m.getPartialBlock segmentSize with
  | some (p, rest) =>
    let p := { p with state := { p.state with blockUseCount := p.state.blockUseCount + 1 } }
    let m := { m with partiallyFilledBlocks := rest }
    match m.partialBlockType, p.state.blockId with
    | .fullCheckpoint, some blockId => .done (⟨p.state, some p⟩, m, increaseBlockReferenceCount blocks blockId)
    -- a block of a checkpoint has an id
    | .fullCheckpoint, none => .fault
    | .appendToTable, _ => .done (⟨p.state, some p⟩, m, blocks)
  | none =>
    m.allocateBlock size blocks >>= fun (state, blocks) => .done (⟨state, none⟩, m, blocks)

/-- The end of `RegisterPartialBlock` for a block that stays in the map: where the map grew too large, the block with the
least room is written. -/
def keepPartialBlock (m : PartialBlockManager) (storage : Storage) (spaceLeft : Nat) (p : PartialBlock) :
    Outcome (PartialBlockManager × Storage) :=
  match insertKey spaceLeft p m.partiallyFilledBlocks with
  | [] => .done (m, storage)
  | e :: blocks =>
    if maxBlockMapSize < blocks.length + 1 then
      e.2.flush size storage e.1 >>= fun storage => .done ({ m with partiallyFilledBlocks := blocks }, storage)
    else .done ({ m with partiallyFilledBlocks := e :: blocks }, storage)

/-- The offset of a block that a segment was added to, and the region behind the segment. -/
def advance (p : PartialBlock) (allocationSize : Nat) : PartialBlock :=
  let unalignedSize := allocationSize + p.state.offset
  let newSize := alignValue unalignedSize
  let p := if newSize ≠ unalignedSize then p.addUninitializedRegion unalignedSize newSize else p
  { p with state := { p.state with offset := newSize } }

def registerPartialBlock (m : PartialBlockManager) (storage : Storage) (allocationSize : Nat) (p : PartialBlock) :
    Outcome (PartialBlockManager × Storage) :=
  let flushBlock (p : PartialBlock) :=
    p.flush size storage (p.state.blockSize - p.state.offset) >>= fun storage => .done (m, storage)
  if p.state.blockUseCount < m.maxUseCount then
    let p := advance p allocationSize
    let newSpaceLeft := p.state.blockSize - p.state.offset
    -- the difference is one of unsigned words
    if (blockSize size + 2 ^ 64 - m.maxPartialBlockSize) % 2 ^ 64 ≤ newSpaceLeft then
      m.keepPartialBlock size storage newSpaceLeft p
    else flushBlock p
  -- the offset is still that in front of the segment
  else flushBlock p

/-- `FlushSegmentInternal`, for a segment that is not constant. -/
def flushSegmentInternal (m : PartialBlockManager) (storage : Storage) (segment : List UInt8) (memory : Cells UInt8) :
    Outcome (PartialBlockManager × Storage) :=
  if blockSize size < segment.length then
    .error "segment size exceeds block size in ColumnCheckpointState::FlushSegmentInternal"
  else if segment.length = 0 then .done (m, storage)
  else
    m.getBlockAllocation size storage.blocks segment.length >>= fun (allocation, m, blocks) =>
      let p := match allocation.partialBlock with
        | some p => (p.copySegment segment allocation.state.offset).addSegmentToTail segment allocation.state.offset
        | none => .create segment memory allocation.state
      m.registerPartialBlock size { storage with blocks } segment.length p

/-- One turn of `Merge`. -/
def mergePartialBlock : PartialBlockManager × Storage → Nat × PartialBlock → Outcome (PartialBlockManager × Storage)
  | (m, storage), e =>
    let usedSpace := blockSize size - e.1
    if m.hasBlockAllocation usedSpace then
      m.getBlockAllocation size storage.blocks usedSpace >>= fun (allocation, m, blocks) =>
        match allocation.partialBlock with
        | some p =>
          m.registerPartialBlock size { storage with blocks } usedSpace (p.merge e.2 allocation.state.offset usedSpace)
        | none => .fault
    else .done ({ m with partiallyFilledBlocks := insertKey e.1 e.2 m.partiallyFilledBlocks }, storage)

/-- `Merge`. The other manager is left without blocks. -/
def merge (m : PartialBlockManager) (storage : Storage) (other : PartialBlockManager) :
    Outcome (PartialBlockManager × Storage) :=
  Outcome.serveAll (mergePartialBlock size) (m, storage) other.partiallyFilledBlocks

def flushPartialBlocks (m : PartialBlockManager) (storage : Storage) : Outcome (PartialBlockManager × Storage) :=
  Outcome.serveAll (fun storage e => e.2.flush size storage e.1) storage m.partiallyFilledBlocks >>= fun storage =>
    .done ({ m with partiallyFilledBlocks := [] }, storage)

end PartialBlockManager

/-! ## Runs -/

/-- Any number of managers that write through one block manager. -/
structure System (n : Nat) where
  managers : Fin n → PartialBlockManager
  storage : Storage

inductive Op (n : Nat) where
  | flushSegment (manager : Fin n) (segment : List UInt8) (memory : Cells UInt8)
  | merge (manager other : Fin n)
  | flushPartialBlocks (manager : Fin n)

variable {n : Nat} (size : BlockSize)

def System.put (s : System n) (i : Fin n) : PartialBlockManager × Storage → System n
  | (m, storage) => { managers := Function.update s.managers i m, storage }

def System.step (s : System n) : Op n → Outcome (System n)
  | .flushSegment i segment memory =>
    (s.managers i).flushSegmentInternal size s.storage segment memory >>= fun r => .done (s.put i r)
  | .merge i j =>
    if i = j then .error "Cannot merge into itself"
    else
      (s.managers i).merge size s.storage (s.managers j) >>= fun r =>
        .done ((s.put i r).put j ({ s.managers j with partiallyFilledBlocks := [] }, r.2))
  | .flushPartialBlocks i => (s.managers i).flushPartialBlocks size s.storage >>= fun r => .done (s.put i r)

variable {size} {blocks blocks' : Block.System} {p other : PartialBlock}

/-! ## Sizes -/

theorem blockSize_aligned (size : BlockSize) : blockSize size % 8 = 0 := by
  obtain ⟨k, hk⟩ := size.allocSize_pow
  have hmin := size.min_le_allocSize
  have halloc : size.allocSize % 8 = 0 := by
    have hle : 3 ≤ k := by
      by_contra hlt
      have hpow : 2 ^ k ≤ 2 ^ 3 := Nat.pow_le_pow_right (by decide) (by omega)
      omega
    rw [hk, show k = 3 + (k - 3) by omega, pow_add]
    exact Nat.mul_mod_right 8 _
  have hheader := size.headerSize_aligned
  unfold blockSize
  omega

theorem blockSize_lt (size : BlockSize) : blockSize size < 2 ^ 32 - 1 := by
  have hmax := size.allocSize_le_max
  unfold blockSize
  omega

/-! ## Blocks that are being filled -/

def PartialColumnSegment.part (s : PartialColumnSegment) : Nat × List UInt8 := (s.offsetInBlock, s.segment)

def UninitializedRegion.gap (r : UninitializedRegion) : Nat × Nat := (r.start, r.stop)

/-- What holds of a block between two writes. -/
structure PartialBlock.Filled (size : BlockSize) (blocks : Block.System) (p : PartialBlock) : Prop where
  size_eq : p.state.blockSize = blockSize size
  offset_le : p.state.offset ≤ blockSize size
  aligned : p.state.offset % 8 = 0
  layout : Layout p.buffer (p.segments.map (·.part)) (p.uninitializedRegions.map (·.gap)) p.state.offset
  first : ∃ s segments, p.segments = s :: segments ∧ s.offsetInBlock = 0
  few : p.segments.length ≤ p.state.offset
  references : ∀ b, p.state.blockId = some b → blocks.references b = p.segments.length

open PartialBlockManager (advance)

theorem filled_advance (segments : List PartialColumnSegment) {segment : List UInt8} (hsize : p.state.blockSize = blockSize size)
    (hfits : p.state.offset + segment.length ≤ blockSize size) (haligned : p.state.offset % 8 = 0)
    (hlayout : Layout p.buffer (segments.map (·.part)) (p.uninitializedRegions.map (·.gap)) p.state.offset)
    (hhas : p.buffer.Has p.state.offset segment) (hsegments : p.segments = segments ++ [⟨segment, p.state.offset⟩])
    (hfirst : ∃ s rest, p.segments = s :: rest ∧ s.offsetInBlock = 0) (hpos : 0 < segment.length)
    (hfew : segments.length ≤ p.state.offset)
    (hreferences : ∀ b, p.state.blockId = some b → blocks.references b = p.segments.length) :
    (advance p segment.length).Filled size blocks := by
  have hblock := blockSize_aligned size
  have hnew : alignValue (segment.length + p.state.offset) = p.state.offset + alignValue segment.length := by
    unfold alignValue
    omega
  have hle : segment.length ≤ alignValue segment.length := by
    unfold alignValue
    omega
  have hsingle : Layout (fun i => p.buffer (p.state.offset + i)) [(0, segment)]
      (if alignValue segment.length ≠ segment.length then [(segment.length, alignValue segment.length)] else [])
      (alignValue segment.length) := by
    refine .single (hhas.congr fun i _ => ?_) hle
    rw [Nat.zero_add]
  have hmoved := hlayout.append hsingle p.buffer (fun _ _ => rfl) (fun _ _ _ _ => rfl)
  have hfields : (advance p segment.length).state = { p.state with offset := p.state.offset + alignValue segment.length }
      ∧ (advance p segment.length).buffer = p.buffer ∧ (advance p segment.length).segments = p.segments
      ∧ (advance p segment.length).uninitializedRegions.map (·.gap) = p.uninitializedRegions.map (·.gap)
        ++ (if alignValue segment.length ≠ segment.length then [(segment.length, alignValue segment.length)] else []).map
          fun gap => (gap.1 + p.state.offset, gap.2 + p.state.offset) := by
    unfold advance
    simp only [hnew]
    by_cases heq : alignValue segment.length = segment.length
    · rw [if_neg (by omega), if_neg (by omega)]
      simp
    · rw [if_pos (by omega), if_pos heq]
      simp [PartialBlock.addUninitializedRegion, UninitializedRegion.gap, Nat.add_comm]
  obtain ⟨hstate, hbuffer, hsame, hgaps⟩ := hfields
  constructor
  case size_eq => rw [hstate, hsize]
  case offset_le =>
    rw [hstate]
    unfold alignValue
    dsimp only
    omega
  case aligned =>
    rw [hstate]
    unfold alignValue
    dsimp only
    omega
  case layout =>
    rw [hbuffer, hsame, hsegments, hgaps, hstate, List.map_append]
    simpa [PartialColumnSegment.part] using hmoved
  case first => rwa [hsame]
  case few =>
    rw [hsame, hsegments, hstate, List.length_append, List.length_singleton]
    dsimp only
    omega
  case references =>
    rw [hsame, hstate]
    exact hreferences

theorem PartialBlock.Filled.addSegment (h : p.Filled size blocks) (segment : List UInt8) (useCount : Nat)
    (hfits : p.state.offset + segment.length ≤ blockSize size) (hpos : 0 < segment.length)
    (hreferences : ∀ b, p.state.blockId = some b → blocks'.references b = p.segments.length + 1) :
    (advance ((({ p with state := { p.state with blockUseCount := useCount } } : PartialBlock).copySegment segment
      p.state.offset).addSegmentToTail segment p.state.offset) segment.length).Filled size blocks' := by
  obtain ⟨s, rest, hsegments, hzero⟩ := h.first
  refine filled_advance p.segments h.size_eq hfits h.aligned ?_ ?_ rfl ?_ hpos h.few ?_
  · have hsame := h.layout.append (.nil (m := fun _ => 0)) (p.buffer.write p.state.offset segment) (fun i hi => ?_) (by simp)
    · simpa [PartialBlock.addSegmentToTail, PartialBlock.copySegment] using hsame
    · exact Cells.write_apply_outside (.inl hi)
  · exact Cells.has_write _ _ _
  · exact ⟨s, rest ++ [⟨segment, p.state.offset⟩], by simp [PartialBlock.addSegmentToTail, PartialBlock.copySegment, hsegments],
      hzero⟩
  · intro b hb
    rw [hreferences b hb]
    simp [PartialBlock.addSegmentToTail, PartialBlock.copySegment]

theorem filled_create {segment : List UInt8} {memory : Cells UInt8} {blockId : Option Nat}
    (hfits : segment.length ≤ blockSize size) (hpos : 0 < segment.length)
    (hreferences : ∀ b, blockId = some b → blocks.references b = 1) :
    (advance (.create segment memory ⟨blockId, blockSize size, 0, 1⟩) segment.length).Filled size blocks :=
  filled_advance [] rfl (by simpa [PartialBlock.create] using hfits) rfl .nil
    (Cells.has_write memory 0 segment) rfl ⟨_, [], rfl, rfl⟩ hpos (Nat.zero_le _) hreferences

theorem PartialBlock.Filled.merge (h : p.Filled size blocks) (ho : other.Filled size blocks) (useCount : Nat)
    (hfits : p.state.offset + other.state.offset ≤ blockSize size)
    (hreferences : ∀ b, p.state.blockId = some b → blocks'.references b = p.segments.length + other.segments.length) :
    (advance (({ p with state := { p.state with blockUseCount := useCount } } : PartialBlock).merge other p.state.offset
      other.state.offset) other.state.offset).Filled size blocks' := by
  have haligned := h.aligned
  have haligned' := ho.aligned
  have hfew := h.few
  have hfew' := ho.few
  have hnew : alignValue (other.state.offset + p.state.offset) = other.state.offset + p.state.offset := by
    unfold alignValue
    omega
  obtain ⟨s, rest, hsegments, hzero⟩ := h.first
  have hmoved := h.layout.append ho.layout (p.buffer.write p.state.offset (other.buffer.read 0 other.state.offset))
    (fun i hi => Cells.write_apply_outside (.inl hi)) (fun part hpart i hi => ?_)
  · unfold advance PartialBlock.merge
    dsimp only
    rw [if_neg (by rw [hnew]; exact fun hne => hne rfl), hnew]
    constructor
    case size_eq => exact h.size_eq
    case offset_le =>
      dsimp only
      omega
    case aligned =>
      dsimp only
      omega
    case layout =>
      rw [Nat.add_comm p.state.offset] at hmoved
      simpa [List.map_append, Function.comp_def, PartialColumnSegment.part, UninitializedRegion.gap] using hmoved
    case first => exact ⟨s, _, by rw [hsegments, List.cons_append], hzero⟩
    case few =>
      simp only [List.length_append, List.length_map]
      omega
    case references =>
      intro b hb
      rw [hreferences b hb]
      simp
  · have hin := ho.layout.inside part hpart
    rw [Cells.write_read_apply _ _ _ _ (by unfold Within at hi; omega), Nat.zero_add]

/-! ## Blocks that are written -/

theorem PartialBlock.Filled.holds_flushInternal (h : p.Filled size blocks) :
    Holds (p.flushInternal size (blockSize size - p.state.offset)) (p.segments.map (·.part)) (blockSize size) := by
  have hle := h.offset_le
  have hclear := h.layout.holds_clear hle
  rw [List.foldl_map] at hclear
  unfold PartialBlock.flushInternal
  split
  · rwa [show blockSize size - (blockSize size - p.state.offset) = p.state.offset by omega]
  next hfull =>
    obtain ⟨hfull, hregions⟩ := not_or.1 hfull
    rw [not_not.1 hregions, show p.state.offset = blockSize size by omega] at hclear
    simpa using hclear

theorem PartialBlock.Filled.markAsPersistent_eq (h : p.Filled size blocks) :
    PartialBlock.markAsPersistent p.segments = p.segments := by
  obtain ⟨s, rest, hsegments, hzero⟩ := h.first
  rw [hsegments]
  unfold PartialBlock.markAsPersistent
  rw [← hzero]

end Haybarn.Sharing
