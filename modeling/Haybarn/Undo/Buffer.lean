/-
The undo buffer of a transaction. Entries are records of a header and a payload, one behind the other in blocks, and the
blocks are linked both ways: the newest is the head, the oldest the tail. What goes through the entries reads the headers
again, and follows the links.
-/
import Haybarn.Lib.Cells
import Haybarn.Wal.Serializer
import Mathlib.Data.Nat.Size

namespace Haybarn.Undo

open Lib Wal

inductive UndoFlags where
  | emptyEntry
  | catalogEntry
  | insertTuple
  | deleteTuple
  | updateTuple
  | sequenceValue
  | attachedDatabase
deriving DecidableEq, Repr

/-- The number that is stored. -/
def UndoFlags.code : UndoFlags → Nat
  | emptyEntry => 0
  | catalogEntry => 1
  | insertTuple => 2
  | deleteTuple => 3
  | updateTuple => 4
  | sequenceValue => 5
  | attachedDatabase => 6

/-- `sizeof(UndoFlags)`. -/
def sizeofUndoFlags : Nat := 4

/-- `sizeof(uint32_t)`. -/
def sizeofLen : Nat := 4

def undoEntryHeaderSize : Nat := sizeofUndoFlags + sizeofLen

/-- Arithmetic of `idx_t`. -/
def idx (n : Nat) : Nat := n % 2 ^ 64

/-- `AlignValue` to eight bytes. -/
def alignValue (n : Nat) : Nat := idx (n + 7) / 8 * 8

/-- `Load` of a word of four bytes. -/
def load (block : Cells UInt8) (ptr : Nat) : Nat := wordValue (block.read ptr 4)

/-- `Store` of a word of four bytes. -/
def store (block : Cells UInt8) (ptr value : Nat) : Cells UInt8 := block.write ptr (writeWord 4 value)

/-- `NextPowerOfTwo`; nothing where it throws. -/
def nextPowerOfTwo (v : Nat) : Option Nat :=
  if v < 1 then some 2
  else
    let power := 2 ^ (v - 1).size
    if power < 2 ^ 64 then some power else none

/-! ## Allocation -/

/-- `UndoBufferEntry`, with the bytes of its block. Positions are those of memory that there is, so their sums are not cut. -/
structure UndoBufferEntry where
  block : Cells UInt8
  position : Nat
  capacity : Nat
  next : Option Nat
  prev : Option Nat

/-- `UndoBufferAllocator`: the blocks by their address. -/
structure UndoBufferAllocator where
  entries : List UndoBufferEntry
  head : Option Nat
  tail : Option Nat

structure UndoBufferReference where
  entry : Nat
  position : Nat
deriving DecidableEq, Repr

/-- The buffer manager: the size of a block, and what is in the memory that it gives out. -/
structure BufferManager where
  blockSize : Nat
  memory : Nat → Cells UInt8

namespace UndoBufferAllocator

variable (manager : BufferManager) (a : UndoBufferAllocator)

def empty : UndoBufferAllocator := ⟨[], none, none⟩

/-- The block that `head` points to. -/
def headEntry : Option UndoBufferEntry := a.head.bind fun head => a.entries[head]?

/-- The capacity of a new block. -/
def newCapacity (allocLen : Nat) : Option Nat :=
  let capacity := if a.head = none ∧ allocLen ≤ 4096 then 4096 else manager.blockSize
  if capacity < allocLen then nextPowerOfTwo allocLen else some capacity

/-- A new block at the head of the chain. -/
def push (capacity : Nat) : UndoBufferAllocator :=
  let address := a.entries.length
  let entry : UndoBufferEntry :=
    { block := manager.memory address, position := 0, capacity, next := a.head, prev := none }
  match a.head with
  | some head =>
    { entries := a.entries.modify head (fun e => { e with prev := some address }) ++ [entry]
      head := some address
      tail := a.tail }
  | none => { entries := a.entries ++ [entry], head := some address, tail := some address }

/-- The end of `Allocate`: the next bytes of the head. -/
def bump (allocLen : Nat) : Option (UndoBufferReference × UndoBufferAllocator) := do
  let head ← a.head
  let entry ← a.entries[head]?
  return (⟨head, entry.position⟩,
    { a with entries := a.entries.modify head fun e => { e with position := e.position + allocLen } })

def allocate (allocLen : Nat) : Option (UndoBufferReference × UndoBufferAllocator) :=
  match a.headEntry with
  | some entry =>
    if entry.position + allocLen > entry.capacity then do
      let capacity ← a.newCapacity manager allocLen
      (a.push manager capacity).bump allocLen
    else a.bump allocLen
  | none => do
    let capacity ← a.newCapacity manager allocLen
    (a.push manager capacity).bump allocLen

/-- What is written to a block. -/
def update (entry : Nat) (f : Cells UInt8 → Cells UInt8) : UndoBufferAllocator :=
  { a with entries := a.entries.modify entry fun e => { e with block := f e.block } }

end UndoBufferAllocator

/-- `CreateEntry`: the place of the payload. -/
def createEntry (manager : BufferManager) (a : UndoBufferAllocator) (type : UndoFlags) (len : Nat) :
    Option (UndoBufferReference × UndoBufferAllocator) := do
  let allocLen := alignValue (idx (len + undoEntryHeaderSize))
  let (handle, a) ← a.allocate manager allocLen
  let a := a.update handle.entry fun block => store block handle.position type.code
  let a := a.update handle.entry fun block =>
    store block (handle.position + sizeofUndoFlags) (idx (allocLen + 2 ^ 64 - undoEntryHeaderSize) % 2 ^ 32)
  return (⟨handle.entry, handle.position + undoEntryHeaderSize⟩, a)

/-! ## Traversal -/

/-- What a callback is given: the type, and the place of the payload. -/
structure Visit where
  type : Nat
  payload : UndoBufferReference
deriving DecidableEq, Repr

/-- `IteratorState`. The places are those in the block of `current`, which stays where it is while the state is there. -/
structure IteratorState where
  current : Option Nat
  start : Nat
  stop : Nat
  started : Bool

section Traversal

variable {α ε : Type} (callback : α → Visit → Except ε α)

/-- The loop over the entries of a block: where it has come to, and what the callbacks have come to. -/
def visitEntries (entry : Nat) (block : Cells UInt8) (stop start : Nat) (acc : α) : Nat × Except ε α :=
  if start < stop then
    let lenPosition := start + sizeofUndoFlags
    let payloadPosition := lenPosition + sizeofLen
    let type := load block start
    let len := load block lenPosition
    match callback acc ⟨type, ⟨entry, payloadPosition⟩⟩ with
    | .error e => (start, .error e)
    | .ok acc => visitEntries entry block stop (payloadPosition + len) acc
  else (start, .ok acc)
termination_by stop - start
decreasing_by
  unfold sizeofUndoFlags sizeofLen
  omega

/-- The loop of `IterateEntries` over the blocks, from the oldest to the newest: as many turns as there are blocks, and one
to see the end. -/
def iterateBlocks (a : UndoBufferAllocator) : Nat → IteratorState → α → IteratorState × Except ε α
  | 0, state, acc => (state, .ok acc)
  | turns + 1, state, acc =>
    match state.current.bind fun current => a.entries[current]?.map fun entry => (current, entry) with
    | none => (state, .ok acc)
    | some (current, entry) =>
      let (start, result) := visitEntries callback current entry.block entry.position 0 acc
      let state := { state with start, stop := entry.position }
      match result with
      | .error e => (state, .error e)
      | .ok acc => iterateBlocks a turns { state with current := entry.prev } acc

/-- `IterateEntries`: the state that it leaves, also where a callback throws. -/
def iterateEntries (a : UndoBufferAllocator) (acc : α) : IteratorState × Except ε α :=
  iterateBlocks callback a (a.entries.length + 1) ⟨a.tail, 0, 0, true⟩ acc

/-- The loop of the second `IterateEntries` over the blocks. -/
def iterateBlocksUntil (a : UndoBufferAllocator) (endState : IteratorState) : Nat → Option Nat → α → Except ε α
  | 0, _, acc => .ok acc
  | turns + 1, state, acc =>
    match state.bind fun current => a.entries[current]?.map fun entry => (current, entry) with
    | none => .ok acc
    | some (current, entry) =>
      let stop := if some current = endState.current then endState.start else entry.position
      match (visitEntries callback current entry.block stop 0 acc).2 with
      | .error e => .error e
      | .ok acc =>
        if some current = endState.current then .ok acc else iterateBlocksUntil a endState turns entry.prev acc

/-- `IterateEntries` up to where another has come. -/
def iterateEntriesUntil (a : UndoBufferAllocator) (endState : IteratorState) (acc : α) : Except ε α :=
  if ¬ endState.started then .ok acc
  else iterateBlocksUntil callback a endState (a.entries.length + 1) a.tail acc

/-- The nodes of a block, as `ReverseIterateEntries` gathers them. -/
def gatherNodes (entry : Nat) (block : Cells UInt8) (stop start : Nat) (nodes : List Visit) : List Visit :=
  if start < stop then
    let lenPosition := start + sizeofUndoFlags
    let payloadPosition := lenPosition + sizeofLen
    let type := load block start
    let len := load block lenPosition
    gatherNodes entry block stop (payloadPosition + len) (nodes ++ [⟨type, ⟨entry, payloadPosition⟩⟩])
  else nodes
termination_by stop - start
decreasing_by
  unfold sizeofUndoFlags sizeofLen
  omega

/-- The loop of `ReverseIterateEntries` over the blocks, from the newest to the oldest. -/
def reverseIterateBlocks (a : UndoBufferAllocator) : Nat → Option Nat → α → Except ε α
  | 0, _, acc => .ok acc
  | turns + 1, current, acc =>
    match current.bind fun current => a.entries[current]?.map fun entry => (current, entry) with
    | none => .ok acc
    | some (current, entry) =>
      let nodes := gatherNodes current entry.block entry.position 0 []
      match nodes.reverse.foldlM callback acc with
      | .error e => .error e
      | .ok acc => reverseIterateBlocks a turns entry.next acc

def reverseIterateEntries (a : UndoBufferAllocator) (acc : α) : Except ε α :=
  reverseIterateBlocks callback a (a.entries.length + 1) a.head acc

end Traversal

/-! ## Runs -/

/-- An entry that is created: its type, and what is then written to its payload. -/
structure Entry where
  type : UndoFlags
  payload : List UInt8

/-- An entry is created and its payload written. -/
def create (manager : BufferManager) (state : List Visit × UndoBufferAllocator) (entry : Entry) :
    Option (List Visit × UndoBufferAllocator) := do
  let (payload, a) ← createEntry manager state.2 entry.type entry.payload.length
  return (state.1 ++ [⟨entry.type.code, payload⟩],
    a.update payload.entry fun block => block.write payload.position entry.payload)

/-- Entries are created, one after the other: what the traversals are to visit, and the buffer. -/
def createEntries (manager : BufferManager) (entries : List Entry) : Option (List Visit × UndoBufferAllocator) :=
  entries.foldlM (create manager) ([], .empty)

end Haybarn.Undo
