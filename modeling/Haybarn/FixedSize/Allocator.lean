/-
Index pointers: the model of `IndexPointer`, a word of 64 bits with the id of a buffer in its lower half and the offset of a
segment in the 24 bits above it. Ids and offsets that fit are read back as they were.

The fixed-size allocator: the model of `FixedSizeAllocator`, whose buffers are in memory. The buffers with a free segment are
kept in a set, and the one that is filled next is cached; a vacuum takes the buffers with the most free segments out of the
set and moves what is left in them.
-/
import Mathlib.Data.Nat.Bitwise
import Mathlib.Data.Set.Function
import Haybarn.FixedSize.Buffer
import Haybarn.FixedSize.Layout
import Mathlib.Data.Finset.Sort
import Mathlib.Data.List.AList
import Mathlib.Data.List.Sort

namespace Haybarn.FixedSize

@[ext] structure IndexPointer where
  data : Nat
deriving DecidableEq

namespace IndexPointer

def shiftOffset : Nat := 32

def andOffset : Nat := 0x0000000000FFFFFF

def andBufferId : Nat := 0x00000000FFFFFFFF

/-- The constructor from an id and an offset of 32 bits each. -/
def ofParts (bufferId offset : Nat) : IndexPointer :=
  ⟨((offset % 2 ^ 32) <<< shiftOffset + bufferId % 2 ^ 32) % 2 ^ 64⟩

def getOffset (ptr : IndexPointer) : Nat := (ptr.data >>> shiftOffset) &&& andOffset

def getBufferId (ptr : IndexPointer) : Nat := ptr.data &&& andBufferId

def increaseBufferId (ptr : IndexPointer) (summand : Nat) : IndexPointer := ⟨(ptr.data + summand) % 2 ^ 64⟩

end IndexPointer

/-! ## Slots -/

/-- A segment by the id of its buffer and its offset. -/
abbrev Slot := Nat × Nat

/-- The pointer to a segment. -/
def Slot.pointer (k : Slot) : IndexPointer := .ofParts k.1 k.2

/-- The segments that a pointer can tell apart. -/
def Slot.valid : Set Slot := { k | k.1 < 2 ^ 32 ∧ k.2 < 2 ^ 24 }

/-- The segment a pointer names. -/
def IndexPointer.slot (ptr : IndexPointer) : Slot := (ptr.getBufferId, ptr.getOffset)

/-- `IncreaseBufferId` of a segment. -/
def Slot.shift (n : Nat) (k : Slot) : Slot := (k.1 + n, k.2)

theorem Slot.shift_injective (n : Nat) : Function.Injective (Slot.shift n) := by
  rintro ⟨a, b⟩ ⟨c, d⟩ h
  simp only [Slot.shift, Prod.mk.injEq] at h ⊢
  omega

theorem Slot.data_pointer {k : Slot} (hk : k ∈ valid) : k.pointer.data = k.2 * 2 ^ 32 + k.1 := by
  obtain ⟨hid, hoffset⟩ := hk
  simp only [pointer, IndexPointer.ofParts, IndexPointer.shiftOffset, Nat.shiftLeft_eq]
  omega

theorem Slot.slot_pointer {k : Slot} (hk : k ∈ valid) : k.pointer.slot = k := by
  have hdata := data_pointer hk
  obtain ⟨hid, hoffset⟩ := hk
  have h24 : IndexPointer.andOffset = 2 ^ 24 - 1 := rfl
  have h32 : IndexPointer.andBufferId = 2 ^ 32 - 1 := rfl
  simp only [IndexPointer.slot, IndexPointer.getBufferId, IndexPointer.getOffset, hdata, h24, h32,
    Nat.and_two_pow_sub_one_eq_mod, IndexPointer.shiftOffset, Nat.shiftRight_eq_div_pow]
  apply Prod.ext <;> dsimp only <;> omega

theorem Slot.pointer_injOn : Set.InjOn pointer valid := by
  intro k hk k' hk' h
  rw [← slot_pointer hk, ← slot_pointer hk', h]

theorem Slot.increaseBufferId_pointer {n : Nat} {k : Slot} (hk : k ∈ valid) (hn : k.shift n ∈ valid) :
    k.pointer.increaseBufferId n = (k.shift n).pointer := by
  have hdata := data_pointer hk
  have hdata' := data_pointer hn
  obtain ⟨hid, hoffset⟩ := hn
  apply IndexPointer.ext
  simp only [shift] at hid hoffset hdata' ⊢
  rw [hdata', IndexPointer.increaseBufferId, hdata]
  dsimp only
  omega

open Common Lib

/-- The order in which the unordered containers are walked. -/
structure HashOrder where
  walkSet : List Nat → List Nat
  walkMap : List Nat → List Nat
  walkSet_perm : ∀ ids, (walkSet ids).Perm ids
  walkMap_perm : ∀ ids, (walkMap ids).Perm ids

/-- `begin` of an unordered set, unless it is empty. -/
def HashOrder.begin (order : HashOrder) (ids : Finset Nat) : Option Nat := (order.walkSet ids.sort).head?

/-- Buffers by their id. -/
abbrev Buffers := AList fun _ : Nat => FixedSizeBuffer

/-- The buffers that pass a test; the others are erased. -/
def Buffers.keep (buffers : Buffers) (test : Nat → FixedSizeBuffer → Bool) : Buffers :=
  ⟨buffers.entries.filter fun e => test e.1 e.2, buffers.nodupKeys.sublist List.filter_sublist⟩

structure FixedSizeAllocator where
  layout : Layout
  totalSegmentCount : Nat
  buffers : Buffers
  buffersWithFreeSpace : Finset Nat
  bufferWithFreeSpace : Option Nat
  vacuumBuffers : Finset Nat

namespace FixedSizeAllocator

/-- The constructor, once the layout is computed. -/
def create (layout : Layout) : FixedSizeAllocator := ⟨layout, 0, ∅, ∅, none, ∅⟩

abbrev available (a : FixedSizeAllocator) : Nat := a.layout.availableSegmentsPerBuffer

/-! ## Segments -/

/-- `GetHandle`: the buffer of a segment, and where it starts there. -/
def getHandle (a : FixedSizeAllocator) (ptr : IndexPointer) : Outcome (FixedSizeBuffer × Nat) :=
  match a.buffers.lookup ptr.getBufferId with
  | none => .fault
  | some b =>
    let offset := ptr.getOffset * a.layout.segmentSize + a.layout.bitmaskOffset
    if offset + a.layout.segmentSize ≤ a.layout.blockSize then .done (b, offset) else .fault

/-- The bytes of a segment. -/
def readSegment (a : FixedSizeAllocator) (ptr : IndexPointer) : Outcome (List UInt8) := do
  let (b, offset) ← a.getHandle ptr
  .done (b.memory.read offset a.layout.segmentSize)

/-- Bytes are written to a segment. -/
def writeSegment (a : FixedSizeAllocator) (ptr : IndexPointer) (bytes : List UInt8) : Outcome FixedSizeAllocator := do
  let (b, offset) ← a.getHandle ptr
  .done { a with buffers := a.buffers.insert ptr.getBufferId { b with memory := b.memory.write offset bytes } }

/-! ## Allocation -/

def nextBufferWithFreeSpace (order : HashOrder) (a : FixedSizeAllocator) : FixedSizeAllocator :=
  { a with bufferWithFreeSpace := order.begin a.buffersWithFreeSpace }

/-- The loop of `GetAvailableBufferId`, from an id downwards. -/
def availableFrom (buffers : Buffers) : Nat → Nat
  | 0 => 0
  | id + 1 => if id + 1 ∈ buffers then availableFrom buffers id else id + 1

def getAvailableBufferId (a : FixedSizeAllocator) : Nat := availableFrom a.buffers a.buffers.keys.length

/-- What `New` does where no buffer has a free segment. -/
def addBuffer (a : FixedSizeAllocator) : FixedSizeAllocator :=
  let bufferId := a.getAvailableBufferId
  let buffer := FixedSizeBuffer.new
  { a with
    buffers := a.buffers.insert bufferId { buffer with mask := buffer.mask.setAllValid a.available }
    buffersWithFreeSpace := insert bufferId a.buffersWithFreeSpace
    bufferWithFreeSpace := some bufferId }

/-- What `GetIndex` throws. -/
def invalidIndex : String := "Attempting to get the index of an optional_idx that is not set"

/-- What `New` does once a buffer is cached. -/
def takeSegment (order : HashOrder) (a : FixedSizeAllocator) : Outcome (IndexPointer × FixedSizeAllocator) :=
  match a.bufferWithFreeSpace with
  | none => .error invalidIndex
  | some bufferId =>
    match a.buffers.lookup bufferId with
    | none => .fault
    | some b => do
      let (offset, b) ← b.getOffset a.layout.bitmaskCount
      let b := { b with segmentCount := b.segmentCount + 1 }
      let a := { a with
        totalSegmentCount := a.totalSegmentCount + 1
        buffers := a.buffers.insert bufferId b }
      let a := if b.segmentCount = a.available then
          { a with buffersWithFreeSpace := a.buffersWithFreeSpace.erase bufferId }.nextBufferWithFreeSpace order
        else a
      .done (.ofParts bufferId offset, a)

def new (order : HashOrder) (a : FixedSizeAllocator) : Outcome (IndexPointer × FixedSizeAllocator) :=
  (if a.bufferWithFreeSpace.isNone then a.addBuffer else a).takeSegment order

/-- `Free`: a buffer that has become empty is kept where it is the only one with free segments, and erased otherwise. -/
def free (order : HashOrder) (a : FixedSizeAllocator) (ptr : IndexPointer) : Outcome FixedSizeAllocator :=
  let bufferId := ptr.getBufferId
  match a.buffers.lookup bufferId with
  | none => .fault
  | some b =>
    let b := { b with segmentCount := b.segmentCount - 1, mask := b.mask.setValid ptr.getOffset }
    let a := { a with
      totalSegmentCount := a.totalSegmentCount - 1
      buffers := a.buffers.insert bufferId b }
    if b.segmentCount ≠ 0 then
      .done { a with
        buffersWithFreeSpace := insert bufferId a.buffersWithFreeSpace
        bufferWithFreeSpace := a.bufferWithFreeSpace.or (some bufferId) }
    else if a.buffersWithFreeSpace.card = 1 then .done a
    else
      let a := { a with
        buffersWithFreeSpace := a.buffersWithFreeSpace.erase bufferId
        buffers := a.buffers.erase bufferId }
      match a.bufferWithFreeSpace with
      | none => .error invalidIndex
      | some next => .done (if next = bufferId then a.nextBufferWithFreeSpace order else a)

def reset (a : FixedSizeAllocator) : FixedSizeAllocator :=
  { a with buffers := ∅, buffersWithFreeSpace := ∅, bufferWithFreeSpace := none, totalSegmentCount := 0 }

def removeEmptyBuffers (order : HashOrder) (a : FixedSizeAllocator) : FixedSizeAllocator :=
  { a with
    buffers := a.buffers.keep fun _ b => b.segmentCount != 0
    buffersWithFreeSpace := a.buffersWithFreeSpace.filter fun id =>
      (a.buffers.lookup id).all fun b : FixedSizeBuffer => b.segmentCount != 0 }.nextBufferWithFreeSpace order

/-! ## Merging -/

def getUpperBoundBufferId (a : FixedSizeAllocator) : Nat :=
  a.buffers.keys.foldl (fun upperBoundId id => if upperBoundId ≤ id then id + 1 else upperBoundId) 0

/-- The buffers of another allocator are inserted behind an id; `insert` leaves an id that is taken. -/
def insertBuffers (buffers : Buffers) (upperBoundId : Nat) (entries : List (Σ _ : Nat, FixedSizeBuffer)) : Buffers :=
  entries.foldl (fun buffers e =>
    if e.1 + upperBoundId ∈ buffers then buffers else buffers.insert (e.1 + upperBoundId) e.2) buffers

def merge (order : HashOrder) (a other : FixedSizeAllocator) : FixedSizeAllocator :=
  let upperBoundId := a.getUpperBoundBufferId
  { a with
    buffers := insertBuffers a.buffers upperBoundId other.buffers.entries
    buffersWithFreeSpace := a.buffersWithFreeSpace ∪ other.buffersWithFreeSpace.image (· + upperBoundId)
    totalSegmentCount := a.totalSegmentCount + other.totalSegmentCount }.nextBufferWithFreeSpace order

/-! ## Vacuuming -/

/-- `VACUUM_THRESHOLD`, in percent. -/
def vacuumThreshold : Nat := 10

/-- The free segments of a buffer and its id, for every buffer, in the order they are walked. -/
def freeSegments (order : HashOrder) (a : FixedSizeAllocator) : List (Nat × Nat) :=
  (order.walkMap a.buffers.keys).filterMap fun id =>
    (a.buffers.lookup id).map fun b => (a.available - b.segmentCount, id)

/-- The multimap that the buffers are entered in: a buffer goes behind the ones with as many free segments. -/
def temporaryVacuumBuffers (order : HashOrder) (a : FixedSizeAllocator) : List (Nat × Nat) :=
  (a.freeSegments order).insertionSort fun x y => x.1 ≤ y.1

def getInMemorySize (a : FixedSizeAllocator) : Nat := a.buffers.keys.length * a.layout.blockSize

def initializeVacuum (order : HashOrder) (a : FixedSizeAllocator) : Outcome (Bool × FixedSizeAllocator) :=
  if a.totalSegmentCount = 0 then .done (false, a.reset)
  else
    let a := a.removeEmptyBuffers order
    let temporaryVacuumBuffers := a.temporaryVacuumBuffers order
    let availableSegmentsInMemory := ((a.freeSegments order).map (·.1)).sum
    if temporaryVacuumBuffers = [] then .done (false, a)
    else
      let excessBufferCount := availableSegmentsInMemory / a.available
      -- the code compares the two quotients as floating-point numbers
      if excessBufferCount * a.layout.blockSize * 100 < vacuumThreshold * a.getInMemorySize then .done (false, a)
      -- the multimap is erased from the front until its size is the count
      else if temporaryVacuumBuffers.length < excessBufferCount then .fault
      else
        let vacuumed := ((temporaryVacuumBuffers.drop (temporaryVacuumBuffers.length - excessBufferCount)).map (·.2)).toFinset
        let a := { a with buffersWithFreeSpace := a.buffersWithFreeSpace \ vacuumed }.nextBufferWithFreeSpace order
        .done (true, { a with vacuumBuffers := a.vacuumBuffers ∪ vacuumed })

def needsVacuum (a : FixedSizeAllocator) (ptr : IndexPointer) : Bool := ptr.getBufferId ∈ a.vacuumBuffers

def vacuumPointer (order : HashOrder) (a : FixedSizeAllocator) (oldPtr : IndexPointer) :
    Outcome (IndexPointer × FixedSizeAllocator) := do
  let (newPtr, a) ← a.new order
  let a := { a with totalSegmentCount := a.totalSegmentCount - 1 }
  let bytes ← a.readSegment oldPtr
  let a ← a.writeSegment newPtr bytes
  .done (newPtr, a)

def finalizeVacuum (a : FixedSizeAllocator) : FixedSizeAllocator :=
  { a with buffers := a.buffers.keep fun id _ => id ∉ a.vacuumBuffers, vacuumBuffers := ∅ }

end FixedSizeAllocator

end Haybarn.FixedSize
