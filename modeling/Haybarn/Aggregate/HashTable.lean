/-
The hash table of a grouped aggregation: rows with a group and the state of its aggregates, in partitions by the bits of
the hash, and a table of pointers to them that is probed by salts. Groups are found or created a chunk at a time, in
rounds in which every row of the chunk that is left claims a free entry or is compared with the row of one. An entry of
the table is modelled with the three states that it goes through, and these are what the operations on its 64 bits make
of it, of which the upper 16 are the salt and the lower 48 the pointer.
-/
import Haybarn.Lib.Outcome
import Mathlib.Algebra.Group.Defs
import Mathlib.Data.BitVec
import Mathlib.Data.List.FinRange

namespace Haybarn.Aggregate

open Lib Outcome

/-- `hash_t`. -/
abbrev Hash := BitVec 64

def pointerMask : Hash := 0x0000FFFFFFFFFFFF#64

def saltMask : Hash := 0xFFFF000000000000#64

theorem saltMask_eq : saltMask = ~~~pointerMask := by decide

def extractSalt (hash : Hash) : Hash := hash ||| pointerMask

/-! ## Bits -/

/-- `ht_entry_t`. -/
structure HtEntry where
  value : Hash
  deriving DecidableEq

namespace HtEntry

def isOccupied (e : HtEntry) : Bool := e.value ≠ 0

def getPointer (e : HtEntry) : Hash := e.value &&& pointerMask

def getSalt (e : HtEntry) : Hash := extractSalt e.value

def setPointer (e : HtEntry) (pointer : Hash) : HtEntry := ⟨e.value &&& (pointer ||| saltMask)⟩

def setSalt (_ : HtEntry) (salt : Hash) : HtEntry := ⟨salt⟩

end HtEntry

/-! ## States -/

/-- What an entry says: it is free, it is claimed by a salt whose row is not there yet, or it points to a row. -/
inductive Entry where
  | empty
  | claimed (salt : Hash)
  | full (salt : Hash) (pointer : Nat)
  deriving DecidableEq

namespace Entry

def isOccupied : Entry → Bool
  | empty => false
  | _ => true

def getSalt : Entry → Hash
  | empty => extractSalt 0
  | claimed salt => salt
  | full salt _ => salt

def setSalt (_ : Entry) (salt : Hash) : Entry := claimed salt

def setPointer (e : Entry) (pointer : Nat) : Entry := full e.getSalt pointer

/-- The bits of the entry, where rows stand at the addresses. -/
def bits (address : Nat → Hash) : Entry → HtEntry
  | empty => ⟨0⟩
  | claimed salt => ⟨salt⟩
  | full salt pointer => ⟨salt &&& (address pointer ||| saltMask)⟩

/-- Salts have all bits of the pointer set, and rows stand at addresses of 48 bits, not at zero. -/
structure Fits (address : Nat → Hash) (e : Entry) : Prop where
  salt : extractSalt e.getSalt = e.getSalt
  pointer : ∀ salt p, e = full salt p → address p &&& saltMask = 0 ∧ address p ≠ 0

variable {address : Nat → Hash} {e : Entry} {salt : Hash} {p : Nat}

theorem extractSalt_idem (hash : Hash) : extractSalt (extractSalt hash) = extractSalt hash := by
  unfold extractSalt
  ext i
  simp

theorem and_pointerMask {salt pointer : Hash} (hs : extractSalt salt = salt) (hp : pointer &&& saltMask = 0) :
    salt &&& (pointer ||| saltMask) &&& pointerMask = pointer := by
  rw [saltMask_eq] at *
  unfold extractSalt at hs
  ext i hi
  have hs : (salt[i] || pointerMask[i]) = salt[i] := by
    rw [← BitVec.getElem_or]
    exact congrArg (fun b : Hash => b[i]) hs
  have hp : (pointer[i] && !pointerMask[i]) = false := by simpa using congrArg (fun b : Hash => b[i]) hp
  rw [BitVec.getElem_and, BitVec.getElem_and, BitVec.getElem_or, BitVec.getElem_not]
  cases hsalt : salt[i] <;> cases hpointer : pointer[i] <;> cases hmask : pointerMask[i] <;> simp_all

theorem or_pointerMask {salt pointer : Hash} (hs : extractSalt salt = salt) :
    extractSalt (salt &&& (pointer ||| saltMask)) = salt := by
  rw [saltMask_eq] at *
  unfold extractSalt at *
  ext i hi
  have hs : (salt[i] || pointerMask[i]) = salt[i] := by
    rw [← BitVec.getElem_or]
    exact congrArg (fun b : Hash => b[i]) hs
  rw [BitVec.getElem_or, BitVec.getElem_and, BitVec.getElem_or, BitVec.getElem_not]
  cases hsalt : salt[i] <;> cases hmask : pointerMask[i] <;> simp_all

theorem ne_zero_of_extractSalt (hs : extractSalt salt = salt) : salt ≠ 0 := by
  rintro rfl
  exact absurd hs (by decide)

theorem bits_isOccupied (h : e.Fits address) : (e.bits address).isOccupied = e.isOccupied := by
  cases e with
  | empty => rfl
  | claimed salt => exact decide_eq_true (ne_zero_of_extractSalt h.salt)
  | full salt p =>
    obtain ⟨hp, hne⟩ := h.pointer salt p rfl
    refine decide_eq_true fun h0 => hne ?_
    have h0 : salt &&& (address p ||| saltMask) = 0 := h0
    have hsalt : extractSalt salt = salt := h.salt
    rw [← and_pointerMask hsalt hp, h0]
    decide

theorem bits_getSalt (h : e.Fits address) : (e.bits address).getSalt = e.getSalt := by
  cases e with
  | empty => rfl
  | claimed salt => exact h.salt
  | full salt p => exact or_pointerMask h.salt

theorem bits_getPointer (h : (full salt p).Fits address) : ((full salt p).bits address).getPointer = address p :=
  and_pointerMask h.salt (h.pointer salt p rfl).1

theorem bits_setSalt : (e.bits address).setSalt salt = (e.setSalt salt).bits address := rfl

theorem bits_setPointer : ((claimed salt).bits address).setPointer (address p) =
    ((claimed salt).setPointer p).bits address := rfl

/-- What the operations make of the bits of an entry are the bits of what they make of the entry, and salt and pointer are
read back as they were set, for every salt of a hash and every address of 48 bits. -/
theorem bits_refine (h : e.Fits address) (hash : Hash) (hp : address p &&& saltMask = 0) (hne : address p ≠ 0) :
    (e.bits address).isOccupied = e.isOccupied ∧ (e.bits address).getSalt = e.getSalt ∧
    (∀ salt q, e = full salt q → (e.bits address).getPointer = address q) ∧
    ((e.setSalt (extractSalt hash)).Fits address ∧
      (e.bits address).setSalt (extractSalt hash) = (e.setSalt (extractSalt hash)).bits address) ∧
    ∀ salt, e = claimed salt → (e.setPointer p).Fits address ∧
      (e.bits address).setPointer (address p) = (e.setPointer p).bits address := by
  refine ⟨bits_isOccupied h, bits_getSalt h, ?_, ⟨⟨extractSalt_idem hash, fun _ _ he => nomatch he⟩, bits_setSalt⟩, ?_⟩
  · rintro salt q rfl
    exact bits_getPointer h
  · rintro salt rfl
    refine ⟨⟨h.salt, ?_⟩, bits_setPointer⟩
    rintro _ _ ⟨⟩
    exact ⟨hp, hne⟩

theorem bits_refine_claimed : ((claimed (extractSalt 5)).bits fun _ => 8).getSalt = extractSalt 5 :=
  (bits_refine (e := claimed (extractSalt 5)) (p := 0) ⟨extractSalt_idem 5, fun _ _ he => nomatch he⟩ 5 (by decide)
    (by decide)).2.1

end Entry

/-! ## Rows and partitions -/

def standardVectorSize : Nat := 2048

/-- A row of the table: the hash and the columns of its group, and the state of its aggregates. -/
structure Row (G M : Type) where
  hash : Hash
  group : G
  state : M

/-- `PartitionedTupleData`, as the pointers to the rows of each partition. -/
abbrev Partitions := List (List Nat)

namespace Partitions

/-- `RadixPartitioning::RadixBitsOfPowerOfTwo` of the number of partitions. -/
def radixBits (p : Partitions) : Nat := Nat.log2 p.length

def init (radixBits : Nat) : Partitions := List.replicate (2 ^ radixBits) []

/-- The partition of a hash: the bits below the salt. -/
def partitionIndex (radixBits : Nat) (hash : Hash) : Nat := hash.toNat >>> (48 - radixBits) % 2 ^ radixBits

def append (p : Partitions) (hash : Hash) (pointer : Nat) : Partitions :=
  p.modify (partitionIndex p.radixBits hash) (· ++ [pointer])

end Partitions

section Rows

variable {G M : Type}

/-- `InterruptException`. -/
def interrupt {α : Type} : Outcome α := error "Interrupted!"

/-- What the checks for an interrupt see, each by the row at which the chunk begins that it is made before. -/
abbrev Interrupts := Nat → Bool

variable (interrupted : Interrupts)

end Rows

/-! ## The table -/

/-- `AggregateDictionaryState`: the entries of the current dictionary that have been looked up, and their rows. -/
structure DictState where
  dictionaryId : String
  capacity : Nat
  foundEntry : Nat → Bool
  addresses : Nat → Nat

def unpartitionedRadixBitsThreshold : Nat := 3

/-- `GroupedAggregateHashTable`. The memory holds the rows in the order in which they were made, and a pointer is a place
in it: rows that have been copied elsewhere stay, but in no partition. -/
structure HashTable (G M : Type) where
  memory : List (Row G M)
  radixBits : Nat
  partitionedData : Partitions
  unpartitionedData : Option Partitions
  count : Nat
  capacity : Nat
  entries : Nat → Entry
  sinkCount : Nat
  skipLookups : Bool
  /-- There are no aggregates, only groups. -/
  aggregatesEmpty : Bool
  dictState : DictState

/-- `LOAD_FACTOR` is 1.5. -/
def resizeThreshold (capacity : Nat) : Nat := capacity * 2 / 3

def applyBitMask (capacity : Nat) (hash : Hash) : Nat := hash.toNat &&& (capacity - 1)

/-- The upper five bits of the salt, made odd. -/
def saltStride (salt : Hash) : Nat := salt.toNat >>> 59 ||| 1

def saltIncrementAndWrap (capacity : Nat) (salt : Hash) (offset : Nat) : Nat :=
  (offset + saltStride salt) &&& (capacity - 1)

/-- The groups of a chunk with their hashes. -/
structure Chunk (G : Type) where
  size : Nat
  group : Fin size → G
  hash : Fin size → Hash

namespace HashTable

variable {G M : Type}

def clearPointerTable (t : HashTable G M) : HashTable G M := { t with entries := fun _ => .empty }

/-- The search of `ReinsertTuples` for a free entry, with the steps it may take. -/
def findFree (entries : Nat → Entry) (capacity : Nat) (salt : Hash) : Nat → Nat → Outcome Nat
  | 0, _ => hang
  | steps + 1, offset =>
    if (entries offset).isOccupied then
      findFree entries capacity salt steps (saltIncrementAndWrap capacity salt offset)
    else done offset

def setEntry (entries : Nat → Entry) (offset : Nat) (entry : Entry) : Nat → Entry :=
  fun s => if s = offset then entry else entries s

/-- One turn of the loop of `ReinsertTuples`. -/
def reinsertTuple (t : HashTable G M) (pointer : Nat) : Outcome (HashTable G M) :=
  match t.memory[pointer]? with
  | none => fault
  | some row => do
    let salt := extractSalt row.hash
    let offset ← findFree t.entries t.capacity salt t.capacity (applyBitMask t.capacity row.hash)
    let entry := ((t.entries offset).setSalt salt).setPointer pointer
    done { t with entries := setEntry t.entries offset entry }

def reinsertTuples : List Nat → HashTable G M → Outcome (HashTable G M)
  | [], t => done t
  | pointer :: pointers, t => t.reinsertTuple pointer >>= reinsertTuples pointers

def resize (t : HashTable G M) (size : Nat) : Outcome (HashTable G M) :=
  if t.count ≠ 0 ∧ size < t.capacity then error "Cannot downsize a non-empty hash table!"
  else
    let t := { t with capacity := size }.clearPointerTable
    if t.count ≠ 0 then do
      let t ← reinsertTuples t.partitionedData.flatten t
      if t.radixBits ≥ unpartitionedRadixBitsThreshold then
        reinsertTuples (t.unpartitionedData.getD []).flatten t
      else done t
    else done t

/-- The constructor of `GroupedAggregateHashTable`. -/
def create (aggregatesEmpty : Bool) (initialCapacity radixBits : Nat) : Outcome (HashTable G M) :=
  resize {
    memory := []
    radixBits := radixBits
    partitionedData := Partitions.init radixBits
    unpartitionedData := if radixBits ≥ unpartitionedRadixBitsThreshold then some (Partitions.init 0) else none
    count := 0
    capacity := 0
    entries := fun _ => .empty
    sinkCount := 0
    skipLookups := false
    aggregatesEmpty := aggregatesEmpty
    dictState := ⟨"", 0, fun _ => false, fun _ => 0⟩ } initialCapacity

/-! ## Finding or creating groups -/

/-- The probing of one row: the entry at which it ends, and whether that is free. -/
def probe (entries : Nat → Entry) (capacity : Nat) (salt : Hash) : Nat → Nat → Outcome (Nat × Bool)
  | 0, _ => error "Maximum inner iteration count reached in GroupedAggregateHashTable"
  | steps + 1, offset =>
    if !(entries offset).isOccupied then done (offset, true)
    else if (entries offset).getSalt = salt then done (offset, false)
    else probe entries capacity salt steps (saltIncrementAndWrap capacity salt offset)

/-- What the inner loop works on. -/
structure Probing (n : Nat) where
  entries : Nat → Entry
  offsets : Fin n → Nat
  emptyVector : List (Fin n)
  compareVector : List (Fin n)

/-- One turn of `GroupedAggregateHashTableInnerLoop`. -/
def probeRow {n : Nat} (capacity : Nat) (salts : Fin n → Hash) (index : Fin n) (s : Probing n) : Outcome (Probing n) := do
  let (offset, isFree) ← probe s.entries capacity (salts index) capacity (s.offsets index)
  let offsets := Function.update s.offsets index offset
  if isFree then
    let entry := (s.entries offset).setSalt (salts index)
    done { s with entries := setEntry s.entries offset entry, offsets := offsets,
                  emptyVector := s.emptyVector ++ [index] }
  else done { s with offsets := offsets, compareVector := s.compareVector ++ [index] }

/-- `GroupedAggregateHashTableInnerLoop`. -/
def innerLoop {n : Nat} (capacity : Nat) (salts : Fin n → Hash) : List (Fin n) → Probing n → Outcome (Probing n)
  | [], s => done s
  | index :: sel, s => probeRow capacity salts index s >>= innerLoop capacity salts sel

/-- What the rounds work on. -/
structure Finding (G M : Type) (n : Nat) where
  table : HashTable G M
  offsets : Fin n → Nat
  addresses : Fin n → Nat
  newGroups : List (Fin n)

/-- A new row for the group of a row of the chunk, with the state of no input. -/
def newRow [One M] (chunk : Chunk G) (index : Fin chunk.size) : Row G M := ⟨chunk.hash index, chunk.group index, 1⟩

/-- The partitions that the new rows of a round are appended to: few of them stay unpartitioned. -/
def useUnpartitioned (t : HashTable G M) (newEntryCount : Nat) : Bool :=
  t.radixBits ≥ unpartitionedRadixBitsThreshold && newEntryCount / 2 ^ t.radixBits ≤ 4

/-- A row is appended. -/
def appendRow (t : HashTable G M) (unpartitioned : Bool) (row : Row G M) : HashTable G M :=
  let pointer := t.memory.length
  if unpartitioned then { t with
    memory := t.memory ++ [row]
    unpartitionedData := t.unpartitionedData.map (·.append row.hash pointer) }
  else { t with
    memory := t.memory ++ [row]
    partitionedData := t.partitionedData.append row.hash pointer }

/-- A new group: its row is appended, and its entry points to it. -/
def appendGroup [One M] (chunk : Chunk G) (unpartitioned : Bool) (f : Finding G M chunk.size) (index : Fin chunk.size) :
    Finding G M chunk.size :=
  let pointer := f.table.memory.length
  let offset := f.offsets index
  let t := f.table.appendRow unpartitioned (newRow chunk index)
  { f with
    table := { t with entries := setEntry t.entries offset ((t.entries offset).setPointer pointer) }
    addresses := Function.update f.addresses index pointer }

/-- The comparison of the rows that met their salt: their addresses, and the rows whose groups do not match. -/
def compareRows [DecidableEq G] (chunk : Chunk G) (t : HashTable G M) (offsets : Fin chunk.size → Nat) :
    List (Fin chunk.size) → (Fin chunk.size → Nat) → Outcome ((Fin chunk.size → Nat) × List (Fin chunk.size))
  | [], addresses => done (addresses, [])
  | index :: sel, addresses =>
    match t.entries (offsets index) with
    | .full _ pointer =>
      match t.memory[pointer]? with
      | some row => do
        let (addresses, noMatch) ← compareRows chunk t offsets sel (Function.update addresses index pointer)
        done (addresses, if row.group = chunk.group index then noMatch else index :: noMatch)
      | none => fault
    | _ => fault

/-- One round: `sel` are the rows of the chunk that are left. -/
def round [DecidableEq G] [One M] (chunk : Chunk G) (occupiedCount : Nat) (sel : List (Fin chunk.size))
    (f : Finding G M chunk.size) : Outcome (Finding G M chunk.size × List (Fin chunk.size)) := do
  let salts := fun i => extractSalt (chunk.hash i)
  let capacity := f.table.capacity
  let p ← innerLoop capacity salts sel ⟨f.table.entries, f.offsets, [], []⟩
  if occupiedCount > p.emptyVector.length + p.compareVector.length then
    error "Internal validation failed in GroupedAggregateHashTable"
  else
    let unpartitioned := f.table.useUnpartitioned p.emptyVector.length
    let f := { f with
      table := { f.table with entries := p.entries }
      offsets := p.offsets
      newGroups := f.newGroups ++ p.emptyVector }
    let f := p.emptyVector.foldl (appendGroup chunk unpartitioned) f
    let (addresses, noMatch) ← compareRows chunk f.table f.offsets p.compareVector f.addresses
    let offsets := fun i =>
      if i ∈ noMatch then saltIncrementAndWrap capacity (salts i) (f.offsets i) else f.offsets i
    done ({ f with offsets := offsets, addresses := addresses }, noMatch)

/-- The rounds, with the number of them that are left. A loop that ends with none left is an error, too. -/
def rounds [DecidableEq G] [One M] (chunk : Chunk G) : Nat → Nat → List (Fin chunk.size) → Finding G M chunk.size →
    Outcome (Finding G M chunk.size)
  | 0, _, _, _ => error "Maximum outer iteration count reached in GroupedAggregateHashTable"
  | left + 1, occupiedCount, sel, f =>
    if sel = [] then done f
    else do
      let (f, noMatch) ← round chunk occupiedCount sel f
      rounds chunk left 0 noMatch f

/-- The room for a chunk. -/
def makeRoom (t : HashTable G M) (chunkSize : Nat) : Outcome (HashTable G M) :=
  if t.count + chunkSize > t.capacity ∨ t.count + chunkSize > resizeThreshold t.capacity then t.resize (t.capacity * 2)
  else done t

/-- The rows of a chunk are appended without a search for their groups. -/
def appendChunk [One M] (chunk : Chunk G) (t : HashTable G M) : Finding G M chunk.size :=
  (List.finRange chunk.size).foldl (fun f index => { f with
      table := f.table.appendRow false (newRow chunk index)
      addresses := Function.update f.addresses index f.table.memory.length })
    ⟨t, fun _ => 0, fun _ => 0, []⟩

/-- `FindOrCreateGroupsInternal`: the table, the rows of the groups, the rows of the chunk whose groups are new, and the
number of new groups. -/
def findOrCreateGroups [DecidableEq G] [One M] (t : HashTable G M) (chunk : Chunk G) :
    Outcome (HashTable G M × (Fin chunk.size → Nat) × List (Fin chunk.size) × Nat) := do
  let t ← t.makeRoom chunk.size
  if t.skipLookups then
    let f := appendChunk chunk t
    done ({ f.table with count := f.table.count + chunk.size }, f.addresses, [], chunk.size)
  else
    let offsets := fun i => applyBitMask t.capacity (chunk.hash i)
    let occupiedCount := ((List.finRange chunk.size).filter fun i => (t.entries (offsets i)).isOccupied).length
    let f ← rounds chunk t.capacity occupiedCount (List.finRange chunk.size) ⟨t, offsets, fun _ => 0, []⟩
    done ({ f.table with count := f.table.count + f.newGroups.length }, f.addresses, f.newGroups, f.newGroups.length)

end HashTable

end Haybarn.Aggregate
