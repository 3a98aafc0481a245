/-
Adding chunks to the table: the groups of a chunk are found or created, and the states of their rows are updated with the
inputs of the aggregates. Chunks of one group and chunks over a dictionary look up every group once only, and the rows
of a dictionary that names itself are remembered for its next chunk.
-/
import Haybarn.Aggregate.HashTable

namespace Haybarn.Aggregate

open Lib Outcome HashTable

variable {G M : Type}

/-- The vectors of the groups of a chunk. -/
inductive Groups (G : Type) where
  | flat (size : Nat) (group : Fin size → G)
  /-- All vectors are constant. -/
  | constant (size : Nat) (group : G)
  /-- The one vector is a selection from a dictionary, the size of which may be known. -/
  | dictionary (dictSize : Nat) (sizeKnown : Bool) (id : String) (dict : Fin dictSize → G) (size : Nat)
      (sel : Fin size → Fin dictSize)

namespace Groups

def size : Groups G → Nat
  | flat size _ => size
  | constant size _ => size
  | dictionary _ _ _ _ size _ => size

def group : (groups : Groups G) → Fin groups.size → G
  | flat _ group => group
  | constant _ group => fun _ => group
  | dictionary _ _ _ dict _ sel => fun i => dict (sel i)

/-- The groups with their hashes. -/
def chunk (hash : G → Hash) (groups : Groups G) : Chunk G := ⟨groups.size, groups.group, fun i => hash (groups.group i)⟩

end Groups

namespace HashTable

/-! ## Aggregates -/

section Aggregates

variable [Mul M]

/-- The states of the rows at the addresses are combined with the values, for the rows of the chunk. -/
def updateStates {n : Nat} (addresses : Fin n → Nat) (values : Fin n → M) :
    List (Fin n) → List (Row G M) → Outcome (List (Row G M))
  | [], memory => done memory
  | i :: is, memory =>
    match memory[addresses i]? with
    | some row => updateStates addresses values is (memory.set (addresses i) { row with state := row.state * values i })
    | none => fault

/-- `UpdateAggregates`, where a value of the payload is what the row adds to the states of the aggregates in the filter. -/
def updateAggregates (t : HashTable G M) {n : Nat} (addresses : Fin n → Nat) (payload : Fin n → M) :
    Outcome (HashTable G M) :=
  if t.aggregatesEmpty then done t
  else do
    let memory ← updateStates addresses payload (List.finRange n) t.memory
    done { t with memory := memory }

end Aggregates

section Add

variable [DecidableEq G] [MulOneClass M]

/-! ## Plain chunks -/

/-- `AddChunk` with hashes. -/
def addGroups (t : HashTable G M) (chunk : Chunk G) (payload : Fin chunk.size → M) : Outcome (HashTable G M × Nat) :=
  if chunk.size = 0 then done (t, 0)
  else do
    let (t, addresses, _, newGroupCount) ← t.findOrCreateGroups chunk
    let t ← t.updateAggregates addresses payload
    done (t, newGroupCount)

/-! ## Constant chunks -/

def tryAddConstantGroups (hash : G → Hash) (t : HashTable G M) (size : Nat) (group : G) (payload : Fin size → M) :
    Outcome (Option (HashTable G M × Nat)) :=
  if size ≤ 1 then done none
  else do
    let (t, addresses, _, newGroupCount) ← t.findOrCreateGroups ⟨1, fun _ => group, fun _ => hash group⟩
    if t.aggregatesEmpty then done (some (t, newGroupCount))
    else do
      let t ← t.updateAggregates (fun _ => addresses 0) payload
      done (some (t, newGroupCount))

/-! ## Dictionary chunks -/

def maxDictionarySizeThreshold : Nat := 20000

def dictionaryThreshold : Nat := 2

/-- The dictionary is too large: for its chunk, or for a dictionary that can be remembered. -/
def dictionaryTooLarge (dictSize : Nat) (id : String) (size : Nat) : Bool :=
  if id = "" then dictSize * dictionaryThreshold ≥ size else dictSize ≥ maxDictionarySizeThreshold

/-- The state for a chunk over the dictionary. -/
def enterDictionary (d : DictState) (id : String) (dictSize : Nat) : Outcome DictState :=
  if d.dictionaryId = "" ∨ d.dictionaryId ≠ id then done {
    dictionaryId := id
    capacity := max d.capacity dictSize
    foundEntry := fun k => if k < dictSize then false else d.foundEntry k
    addresses := if dictSize > d.capacity then fun _ => 0 else d.addresses }
  else if dictSize > d.capacity then
    error (s!"AggregateHT - using cached dictionary data but dictionary has changed (dictionary id {d.dictionaryId} - " ++
      s!"dict size {dictSize}, current capacity {d.capacity})")
  else done d

/-- The entries of the dictionary that the chunk has and that have not been looked up, each once. -/
def uniqueEntries {n dictSize : Nat} (sel : Fin n → Fin dictSize) :
    List (Fin n) → (Nat → Bool) → List (Fin dictSize) → (Nat → Bool) × List (Fin dictSize)
  | [], found, unique => (found, unique)
  | i :: is, found, unique =>
    uniqueEntries sel is (Function.update found (sel i) true) (if found (sel i) then unique else unique ++ [sel i])

/-- The groups of the entries are found or created. -/
def findEntries (hash : G → Hash) (t : HashTable G M) {dictSize : Nat} (dict : Fin dictSize → G)
    (unique : List (Fin dictSize)) : Outcome (HashTable G M × (Fin unique.length → Nat) × Nat) :=
  if unique = [] then done (t, fun _ => 0, 0)
  else do
    let (t, addresses, _, newGroupCount) ←
      t.findOrCreateGroups ⟨unique.length, fun k => dict (unique.get k), fun k => hash (dict (unique.get k))⟩
    done (t, addresses, newGroupCount)

/-- The addresses of the entries are remembered. -/
def setAddresses {dictSize : Nat} (unique : List (Fin dictSize)) (new : Fin unique.length → Nat) (addresses : Nat → Nat) :
    Nat → Nat :=
  (List.finRange unique.length).foldl (fun addresses k => Function.update addresses (unique.get k) (new k)) addresses

def tryAddDictionaryGroups (hash : G → Hash) (t : HashTable G M) {dictSize size : Nat} (sizeKnown : Bool) (id : String)
    (dict : Fin dictSize → G) (sel : Fin size → Fin dictSize) (payload : Fin size → M) :
    Outcome (Option (HashTable G M × Nat)) :=
  if !sizeKnown || dictionaryTooLarge dictSize id size then done none
  else do
    let d ← enterDictionary t.dictState id dictSize
    let (found, unique) := uniqueEntries sel (List.finRange size) d.foundEntry []
    let (t, new, newGroupCount) ← findEntries hash { t with dictState := { d with foundEntry := found } } dict unique
    if t.aggregatesEmpty then done (some (t, newGroupCount))
    else do
      let addresses := setAddresses unique new t.dictState.addresses
      let t ← { t with dictState := { t.dictState with addresses := addresses } }.updateAggregates
        (fun i => addresses (sel i)) payload
      done (some (t, newGroupCount))

/-! ## Chunks -/

def tryAddCompressedGroups (hash : G → Hash) (t : HashTable G M) : (groups : Groups G) → (Fin groups.size → M) →
    Outcome (Option (HashTable G M × Nat))
  | .flat _ _, _ => done none
  | .constant size group, payload => tryAddConstantGroups hash t size group payload
  | .dictionary _ sizeKnown id dict _ sel, payload => tryAddDictionaryGroups hash t sizeKnown id dict sel payload

/-- `AddChunk`: the table, and the number of new groups. -/
def addChunk (hash : G → Hash) (t : HashTable G M) (groups : Groups G) (payload : Fin groups.size → M) :
    Outcome (HashTable G M × Nat) := do
  let t := { t with sinkCount := t.sinkCount + groups.size }
  match ← tryAddCompressedGroups hash t groups payload with
  | some result => done result
  | none => t.addGroups (groups.chunk hash) payload

/-! ## Combining -/

/-- One turn of the scan in `Combine`: a chunk of the rows of another table. -/
def combineChunk (t : HashTable G M) (rows : List (Row G M)) : Outcome (HashTable G M) := do
  let (t, addresses, _, _) ← t.findOrCreateGroups
    ⟨rows.length, fun i => (rows.get i).group, fun i => (rows.get i).hash⟩
  t.updateAggregates addresses fun i => (rows.get i).state

/-- The scan in `Combine`. Before each chunk it is checked whether the query was interrupted. -/
def combineChunks : List (Bool × List (Row G M)) → HashTable G M → Outcome (HashTable G M)
  | [], t => done t
  | (interrupted, rows) :: chunks, t =>
    if interrupted then interrupt else t.combineChunk rows >>= combineChunks chunks

/-- `Combine` with the data of another table, in the chunks in which it is scanned, each with what the check before it
sees. -/
def combine (t : HashTable G M) (data : List (Bool × List (Row G M))) : Outcome (HashTable G M) :=
  if (data.flatMap Prod.snd).length = 0 then done t else combineChunks data t

end Add

end HashTable

end Haybarn.Aggregate
