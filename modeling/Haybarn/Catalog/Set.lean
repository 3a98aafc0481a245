/-
A catalog set: for each name the versions of its entry, the newest first, of which a transaction sees the newest that it made
itself or that was committed before it started. Entries that are there by default are made when they are first looked for. A
rename leaves a tombstone at the old name and starts, or goes on with, the versions of the new one.

Names are those up to case. What is noted for an undo of the transaction is left out, as is the table data that an alteration
changes on the side.
-/
import Haybarn.Lib.SortedAssoc
import Haybarn.Transaction.Ids

namespace Haybarn.Catalog

open Lib Transaction

/-! ## Entries -/

/-- What an entry is: an object, or one of the nodes that only stand for a change. -/
inductive Content (P : Type) where
  | object (payload : P)
  | invalid
  | deletedEntry
  | renamedEntry
deriving DecidableEq, Repr

/-- `CatalogEntry`: one version. -/
structure CatalogEntry (P : Type) where
  content : Content P
  oid : Nat
  internal : Bool
  timestamp : Nat
  deleted : Bool
deriving DecidableEq, Repr

/-- `InCatalogEntry`, as it is made for a tombstone or to start a chain. -/
def inCatalogEntry {P : Type} (content : Content P) (timestamp : Nat) (deleted : Bool) : CatalogEntry P :=
  { content, oid := 0, internal := false, timestamp, deleted }

/-- The versions of a name: the newest, and its child, the child of that, and so on. -/
structure Chain (P : Type) where
  top : CatalogEntry P
  children : List (CatalogEntry P)

/-- `SetChild` with the versions that there are. -/
def Chain.push {P : Type} (c : Chain P) (value : CatalogEntry P) : Chain P := ⟨value, c.top :: c.children⟩

def Chain.takeChild {P : Type} (c : Chain P) : Chain P := ⟨c.top, []⟩

/-- `CatalogTransaction`: `active` is whether there is a transaction to note changes in. The id is one of the ids, or, for a
system transaction, no time that is after its start. -/
structure CatalogTransaction where
  transactionId : Nat
  startTime : Nat
  active : Bool
  own : transactionIdStart ≤ transactionId ∨ transactionId ≤ startTime

/-- The exceptions that abort the transaction they are thrown in. -/
inductive Abort (N : Type) where
  | conflictOnCreate (name : N)
  | conflictOnAlter (name : N)
  | dependency
  | internal
deriving DecidableEq, Repr

/-- The messages of a `CatalogException`. -/
inductive CatalogMessage (N : Type) where
  | alterInternal (name : N)
  | dropInternal (name : N)
  | renameExists (originalName newName : N)
  | alteration
deriving DecidableEq, Repr

inductive Exception (N : Type) where
  | catalog (message : CatalogMessage N)
  | abort (cause : Abort N)
deriving DecidableEq, Repr

/-! ## Visibility -/

section Visibility

variable {P : Type} (t : CatalogTransaction)

def createdByOtherActiveTransaction (timestamp : Nat) : Bool :=
  timestamp ≥ transactionIdStart ∧ timestamp ≠ t.transactionId

def committedAfterStarting (timestamp : Nat) : Bool := timestamp < transactionIdStart ∧ timestamp > t.startTime

def hasConflict (timestamp : Nat) : Bool := createdByOtherActiveTransaction t timestamp || committedAfterStarting t timestamp

def useTimestamp (timestamp : Nat) : Bool :=
  if timestamp = t.transactionId then true else if timestamp < t.startTime then true else false

/-- The loop of `GetEntryForTransaction`: the entry, and whether it is visible. -/
def entryForTransaction (entry : CatalogEntry P) : List (CatalogEntry P) → CatalogEntry P × Bool
  | [] => (entry, false)
  | child :: children => if useTimestamp t entry.timestamp then (entry, true) else entryForTransaction child children

def getEntryForTransaction (chain : Chain P) : CatalogEntry P × Bool := entryForTransaction t chain.top chain.children

end Visibility

/-! ## Sets -/

section Sets

variable {N P : Type} [LinearOrder N]

structure CatalogEntryMap (N P : Type) [LinearOrder N] where
  entries : List (N × Chain P)
  increasing : Increasing entries

namespace CatalogEntryMap

variable (m : CatalogEntryMap N P)

def getEntry (name : N) : Option (Chain P) := m.entries.lookup name

/-- `AddEntry`; nothing where the name has an entry. -/
def addEntry (name : N) (entry : CatalogEntry P) : Option (CatalogEntryMap N P) :=
  if h : ∀ e ∈ m.entries, e.1 ≠ name then some ⟨insertKey name ⟨entry, []⟩ m.entries, m.increasing.insertKey h⟩ else none

/-- `UpdateEntry`; nothing where the name has no entry. -/
def updateEntry (name : N) (entry : CatalogEntry P) : Option (CatalogEntryMap N P) :=
  match m.getEntry name with
  | none => none
  | some _ => some ⟨modifyKey name (·.push entry) m.entries, m.increasing.modifyKey⟩

/-- The newest version of a name has no child any more. -/
def takeChild (name : N) : CatalogEntryMap N P := ⟨modifyKey name (·.takeChild) m.entries, m.increasing.modifyKey⟩

end CatalogEntryMap

/-- `DefaultGenerator`: what it makes for a name, and the names that it lists, which are those it makes something for. -/
structure DefaultGenerator (N P : Type) where
  createDefaultEntry : N → Option (CatalogEntry P)
  getDefaultEntries : List N
  listed : ∀ name, name ∈ getDefaultEntries ↔ (createDefaultEntry name).isSome
  alive : ∀ name entry, createDefaultEntry name = some entry → entry.deleted = false

structure CatalogSet (N P : Type) [LinearOrder N] where
  map : CatalogEntryMap N P
  defaults : Option (DefaultGenerator N P)
  createdAllEntries : Bool

inductive FailureReason where
  | success
  | deleted
  | notPresent
  | invisible
deriving DecidableEq, Repr

structure EntryLookup (P : Type) where
  result : Option (CatalogEntry P)
  reason : FailureReason

/-- The lookup of a name that has versions. -/
def lookupChain (t : CatalogTransaction) (chain : Chain P) : EntryLookup P :=
  let (current, visible) := getEntryForTransaction t chain
  if current.deleted then ⟨none, if visible then .deleted else .invisible⟩ else ⟨some current, .success⟩

namespace CatalogSet

variable (t : CatalogTransaction) (s : CatalogSet N P)

def createCommittedEntry (name : N) (entry : CatalogEntry P) : Option (CatalogEntry P) × CatalogSet N P :=
  let entry := { entry with timestamp := 0 }
  match s.map.addEntry name entry with
  | none => (none, s)
  | some map => (some entry, { s with map })

/-- `CreateDefaultEntry`. Where the name has an entry by now, it is looked up again. -/
def createDefaultEntry (name : N) : Option (CatalogEntry P) × CatalogSet N P :=
  match s.defaults with
  | none => (none, s)
  | some defaults =>
    if s.createdAllEntries then (none, s)
    else
      match defaults.createDefaultEntry name with
      | none => (none, s)
      | some entry =>
        match s.createCommittedEntry name entry with
        | (some entry, s) => (some entry, s)
        | (none, s) => ((s.map.getEntry name).bind fun chain => (lookupChain t chain).result, s)

def getEntryDetailed (name : N) : EntryLookup P × CatalogSet N P :=
  match s.map.getEntry name with
  | some chain => (lookupChain t chain, s)
  | none =>
    match s.createDefaultEntry t name with
    | (none, s) => (⟨none, .notPresent⟩, s)
    | (some entry, s) => (⟨some entry, .success⟩, s)

def getEntry (name : N) : Option (CatalogEntry P) × CatalogSet N P :=
  let (lookup, s) := s.getEntryDetailed t name
  (lookup.result, s)

/-- The loop of `CreateDefaultEntries`; an exception where a name that is listed has no entry made for it. -/
def createListed (defaults : DefaultGenerator N P) : List N → CatalogSet N P → Except (Exception N) Unit × CatalogSet N P
  | [], s => (.ok (), s)
  | name :: names, s =>
    match s.map.getEntry name with
    | some _ => createListed defaults names s
    | none =>
      match defaults.createDefaultEntry name with
      | none => (.error (.abort .internal), s)
      | some entry => createListed defaults names (s.createCommittedEntry name entry).2

def createDefaultEntries : Except (Exception N) Unit × CatalogSet N P :=
  match s.defaults with
  | none => (.ok (), s)
  | some defaults =>
    if s.createdAllEntries then (.ok (), s)
    else
      match createListed defaults defaults.getDefaultEntries s with
      | (.error e, s) => (.error e, s)
      | (.ok (), s) => (.ok (), { s with createdAllEntries := true })

/-- `Scan`: what the callback is given, with the names. -/
def scan : Except (Exception N) (List (N × CatalogEntry P)) × CatalogSet N P :=
  match s.createDefaultEntries with
  | (.error e, s) => (.error e, s)
  | (.ok (), s) =>
    (.ok (s.map.entries.filterMap fun e =>
      let entry := (getEntryForTransaction t e.2).1
      if entry.deleted then none else some (e.1, entry)), s)

/-! ## Changes -/

/-- What a change comes to: a result or an exception, and the set as it is then. -/
abbrev Outcome (N P : Type) [LinearOrder N] := Except (Exception N) Bool × CatalogSet N P

/-- `if (!..) { return false; }` -/
def Outcome.andThen (r : Outcome N P) (f : CatalogSet N P → Outcome N P) : Outcome N P :=
  match r with
  | (.ok true, s) => f s
  | (.ok false, s) => (.ok false, s)
  | (.error e, s) => (.error e, s)

def startChain (name : N) : Outcome N P :=
  match s.createDefaultEntry t name with
  | (some _, s) => (.ok false, s)
  | (none, s) =>
    match s.map.addEntry name (inCatalogEntry .invalid 0 true) with
    | none => (.error (.abort .internal), s)
    | some map => (.ok true, { s with map })

def verifyVacancy (name : N) (entry : CatalogEntry P) : Except (Exception N) Bool :=
  if hasConflict t entry.timestamp then .error (.abort (.conflictOnCreate name)) else .ok entry.deleted

/-- `UpdateEntry` of the map. -/
def updateEntry (name : N) (value : CatalogEntry P) : Outcome N P :=
  match s.map.updateEntry name value with
  | none => (.error (.abort .internal), s)
  | some map => (.ok true, { s with map })

def createEntryInternal (name : N) (value : CatalogEntry P) (shouldBeEmpty : Bool) : Outcome N P :=
  match s.map.getEntry name with
  | none => (s.startChain t name).andThen fun s => s.updateEntry name value
  | some chain =>
    if shouldBeEmpty then Outcome.andThen (verifyVacancy t name chain.top, s) fun s => s.updateEntry name value
    else s.updateEntry name value

def getEntryInternal (name : N) : Except (Exception N) (Option (CatalogEntry P)) :=
  match s.map.getEntry name with
  | none => .ok none
  | some chain =>
    if hasConflict t chain.top.timestamp then .error (.abort (.conflictOnAlter name))
    else if chain.top.deleted then .ok none
    else .ok (some chain.top)

def dropEntryInternal (name : N) (allowDropInternal : Bool) : Outcome N P :=
  match s.getEntryInternal t name with
  | .error e => (.error e, s)
  | .ok none => (.ok false, s)
  | .ok (some entry) =>
    if entry.internal ∧ ¬ allowDropInternal then (.error (.catalog (.dropInternal name)), s)
    else s.updateEntry name (inCatalogEntry .deletedEntry t.transactionId true)

/-- Whether the transaction sees an entry of the name that is not deleted, among the versions that there are. -/
def existsForTransaction (name : N) : Bool :=
  match s.map.getEntry name with
  | none => false
  | some chain => ¬ (getEntryForTransaction t chain).1.deleted

def renameEntryInternal (originalName newName : N) : Outcome N P :=
  if s.existsForTransaction t newName then (.error (.catalog (.renameExists originalName newName)), s)
  else
    let renamedTombstone := inCatalogEntry .renamedEntry t.transactionId false
    (s.createEntryInternal t originalName renamedTombstone false).andThen fun s =>
      (s.dropEntryInternal t originalName false).andThen fun s =>
        let renamedNode := inCatalogEntry .renamedEntry t.transactionId false
        s.createEntryInternal t newName renamedNode true

/-- What an alteration is to the set: the entry that it makes, with its name, or nothing to do; and whether the dependencies
allow it, where it is an abort if they do not. -/
structure AlterInfo (N P : Type) where
  allowInternal : Bool
  alterEntry : CatalogEntry P → Except (Exception N) (Option (N × CatalogEntry P))
  alterObject : CatalogEntry P → CatalogEntry P → Option (Abort N)

/-- The end of `AlterEntry`: the altered entry is the newest version. -/
def finishAlter (info : AlterInfo N P) (newName : N) (entry value : CatalogEntry P) : Outcome N P :=
  (s.updateEntry newName value).andThen fun s =>
    let s := if t.active then s else { s with map := s.map.takeChild newName }
    match info.alterObject entry value with
    | some a => (.error (.abort a), s)
    | none => (.ok true, s)

/-- `AlterEntry`, from where the set is locked. -/
def alterEntryLocked (name : N) (info : AlterInfo N P) (newName : N) (value : CatalogEntry P) : Outcome N P :=
  match s.getEntryInternal t name with
  | .error e => (.error e, s)
  | .ok none => (.error (.abort .internal), s)
  | .ok (some entry) =>
    let value := { value with timestamp := t.transactionId, oid := entry.oid }
    if newName ≠ name then
      (s.renameEntryInternal t name newName).andThen fun s => s.finishAlter t info newName entry value
    else s.finishAlter t info newName entry value

def alterEntry (name : N) (info : AlterInfo N P) : Outcome N P :=
  match s.getEntry t name with
  | (none, s) => (.ok false, s)
  | (some entry, s) =>
    if ¬ info.allowInternal ∧ entry.internal then (.error (.catalog (.alterInternal name)), s)
    else
      match info.alterEntry entry with
      | .error e => (.error e, s)
      | .ok none => (.ok true, s)
      | .ok (some (newName, value)) => s.alterEntryLocked t name info newName value

end CatalogSet

end Sets

end Haybarn.Catalog
