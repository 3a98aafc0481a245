/-
Updates of one vector of a column: the model of `UpdateSegment` as far as it concerns one vector. The
root holds the newest values, and the chain, newest node first, holds for each transaction the values
that its updates replaced. Row ids are offsets in the vector; `N` is `STANDARD_VECTOR_SIZE`.
-/
import Haybarn.Transaction.Ids
import Mathlib.Data.List.Basic
import Mathlib.Logic.Function.Basic

namespace Haybarn.Update

open Haybarn.Transaction

variable {α : Type}

/-! ## Data -/

/-- The column data below the updates. The data of a NULL row is what the vector happens to hold
there. In a segment of validity bits every row has data. -/
structure BaseData (α : Type) where
  data : Nat → α
  valid : Nat → Bool

/-- `UpdateInfo`: the version number, and the row ids with their values. -/
structure UpdateInfo (α : Type) where
  versionNumber : Nat
  tuples : List (Nat × α)
deriving DecidableEq, Repr

/-- The updates of one vector: the root, if there is one, and the chain of the nodes after it. -/
structure UpdateVector (α : Type) where
  root : Option (UpdateInfo α) := none
  chain : List (UpdateInfo α) := []
deriving DecidableEq, Repr

/-- The version number of the root. -/
def rootVersion : Nat := transactionIdStart - 1

/-! ## Fetching updates -/

def UpdateInfo.appliesToTransaction (info : UpdateInfo α) (startTime transactionId : Nat) : Bool :=
  if info.versionNumber = rootVersion then true
  else info.versionNumber > startTime && info.versionNumber != transactionId

/-- `MergeUpdateInfo`, with the copy of all values for an update of the whole vector. -/
def UpdateInfo.mergeUpdateInfo (N : Nat) (info : UpdateInfo α) (result : Nat → α) : Nat → α :=
  if info.tuples.length = N then fun i => (info.tuples[i]?).elim (result i) (·.2)
  else info.tuples.foldl (fun result e => Function.update result e.1 e.2) result

/-- `FetchUpdates`: `UpdatesForTransaction` goes through the root and the chain and merges the nodes
that apply. -/
def UpdateVector.fetchUpdates (N : Nat) (u : UpdateVector α) (startTime transactionId : Nat) (result : Nat → α) :
    Nat → α :=
  match u.root with
  | none => result
  | some root => ((root :: u.chain).filter (·.appliesToTransaction startTime transactionId)).foldl
      (fun result info => info.mergeUpdateInfo N result) result

/-! ## Preparing an update -/

/-- What `statistics_update_function` keeps of an update: the entries that are not NULL. An update of
validity bits has none. -/
def statisticsUpdateFunction (update : List (Nat × Option α)) : List (Nat × α) :=
  update.filterMap fun e => e.2.map (e.1, ·)

/-- `std::sort` of the entries by row id: the result is sorted, and the order of equal ids is open. -/
structure RowSort (α : Type) where
  sort : List (Nat × α) → List (Nat × α)
  perm : ∀ l, (sort l).Perm l
  sorted : ∀ l, (sort l).Pairwise (·.1 ≤ ·.1)

/-- The first loop of `SortSelectionVector`: the ids increase strictly. -/
def isSorted : List (Nat × α) → Bool
  | [] => true
  | [_] => true
  | x :: y :: l => if y.1 ≤ x.1 then false else isSorted (y :: l)

/-- The loop that eliminates duplicates, after an entry with id `prev`. -/
def eliminateDuplicates (prev : Nat) : List (Nat × α) → List (Nat × α)
  | [] => []
  | x :: l => if prev ≠ x.1 then x :: eliminateDuplicates x.1 l else eliminateDuplicates x.1 l

def sortSelectionVector (sort : RowSort α) (update : List (Nat × α)) : List (Nat × α) :=
  if isSorted update then update
  else match sort.sort update with
    | [] => []
    | x :: l => x :: eliminateDuplicates x.1 l

/-- `GetEffectiveUpdates`: the entries that differ from the column data. -/
def getEffectiveUpdates [BEq α] (base : BaseData α) (update : List (Nat × α)) : List (Nat × α) :=
  update.filter fun e => !(base.valid e.1 && e.2 == base.data e.1)

/-- The entries that an update writes: not NULL, sorted, without duplicates, and, if the vector has no
updates yet, effective. -/
def UpdateVector.effectiveUpdates [BEq α] (sort : RowSort α) (base : BaseData α) (u : UpdateVector α)
    (update : List (Nat × Option α)) : List (Nat × α) :=
  let update := sortSelectionVector sort (statisticsUpdateFunction update)
  match u.root with
  | none => getEffectiveUpdates base update
  | some _ => update

/-! ## Conflicts -/

/-- The exception `Update` throws: "Conflict on update!". -/
inductive UpdateException where
  | conflictOnUpdate
deriving DecidableEq, Repr

/-- The merge join of `CheckForConflicts` for one row id: the tuples below it are skipped. -/
def joinRow (id : Nat) (rest : List Nat → Bool) : List Nat → Bool
  | [] => false
  | tuple :: tuples =>
    if id = tuple then true
    else if id < tuple then rest (tuple :: tuples)
    else joinRow id rest tuples

/-- The merge join of `CheckForConflicts` of sorted row ids and the sorted tuples of a node. -/
def mergeJoin : List Nat → List Nat → Bool
  | [], _ => false
  | id :: ids, tuples => joinRow id (mergeJoin ids) tuples

/-- `CheckForConflicts`, from position `pos` of the chain on: the position of the last node of the
transaction, `node` if there is none from here on. -/
def checkForConflicts (startTime transactionId : Nat) (ids : List Nat) :
    List (UpdateInfo α) → Nat → Option Nat → Except UpdateException (Option Nat)
  | [], _, node => .ok node
  | info :: chain, pos, node =>
    if info.versionNumber = transactionId then checkForConflicts startTime transactionId ids chain (pos + 1) (some pos)
    else if info.versionNumber > startTime ∧ mergeJoin ids (info.tuples.map (·.1)) then .error .conflictOnUpdate
    else checkForConflicts startTime transactionId ids chain (pos + 1) node

/-! ## Merging an update -/

/-- `InitializeUpdateData` for the transaction's node: the values that the first update replaces. The
slots of NULL rows are not written; `uninitialized` is what they hold. -/
def initializeUpdateData (base : BaseData α) (uninitialized : Nat → α) (update : List (Nat × α)) : List (Nat × α) :=
  update.mapIdx fun i e => (e.1, if base.valid e.1 then base.data e.1 else uninitialized i)

/-- The value that an update of the row replaces: the one of the root, or that of the column data.
The root is at the first entry that is not below the row. -/
def replacedValue (base : BaseData α) (id : Nat) : List (Nat × α) → α
  | [] => base.data id
  | e :: _ => if e.1 = id then e.2 else base.data id

/-- The first loop of `MergeUpdateLoopInternal`: the replaced values of the update are merged into the
transaction's node. A value that the node has already is kept. -/
def mergeReplaced (base : BaseData α) : List (Nat × α) → List (Nat × α) → List Nat → List (Nat × α)
  | _, node, [] => node
  | root, node, id :: ids =>
    node.takeWhile (·.1 < id) ++
      match node.dropWhile (·.1 < id) with
      | e :: node =>
        if e.1 = id then e :: mergeReplaced base root node ids
        else (id, replacedValue base id (root.dropWhile (·.1 < id))) ::
          mergeReplaced base (root.dropWhile (·.1 < id)) (e :: node) ids
      | [] => (id, replacedValue base id (root.dropWhile (·.1 < id))) ::
          mergeReplaced base (root.dropWhile (·.1 < id)) [] ids

/-- `MergeLoop` for one new entry: the old entries below it are picked first. -/
def pickNew (e : Nat × α) (rest : List (Nat × α) → List (Nat × α)) : List (Nat × α) → List (Nat × α)
  | [] => e :: rest []
  | old :: olds =>
    if e.1 = old.1 then e :: rest olds
    else if e.1 < old.1 then e :: rest (old :: olds)
    else old :: pickNew e rest olds

/-- `MergeLoop` of the new entries and the old ones; a new entry replaces an old one. -/
def mergeLoop : List (Nat × α) → List (Nat × α) → List (Nat × α)
  | [], olds => olds
  | e :: new, olds => pickNew e (mergeLoop new) olds

/-- `MergeUpdateLoopInternal`: the root and the node after the update. -/
def mergeUpdateLoop (base : BaseData α) (root node : UpdateInfo α) (update : List (Nat × α)) :
    UpdateInfo α × UpdateInfo α :=
  ({ root with tuples := mergeLoop update root.tuples },
    { node with tuples := mergeReplaced base root.tuples node.tuples (update.map (·.1)) })

/-- `Update` by a transaction: the vector after it and whether it threw. Without a transaction object
(`tracked` is false) no node is linked, and the chain is dropped. -/
def UpdateVector.update [BEq α] (sort : RowSort α) (base : BaseData α) (startTime transactionId : Nat) (tracked : Bool)
    (uninitialized : Nat → α) (u : UpdateVector α) (update : List (Nat × Option α)) :
    UpdateVector α × Except UpdateException Unit :=
  let update := u.effectiveUpdates sort base update
  if update.isEmpty then (u, .ok ())
  else match u.root with
    | none =>
      let node := { versionNumber := transactionId, tuples := initializeUpdateData base uninitialized update }
      ({ root := some { versionNumber := rootVersion, tuples := update }, chain := if tracked then [node] else [] },
        .ok ())
    | some root => match checkForConflicts startTime transactionId (update.map (·.1)) u.chain 0 none with
      | .error e => (u, .error e)
      | .ok (some pos) => match u.chain[pos]? with
        | none => (u, .ok ())
        | some node =>
          let (root, node) := mergeUpdateLoop base root node update
          ({ root := some root, chain := u.chain.set pos node }, .ok ())
      | .ok none =>
        let (root, node) := mergeUpdateLoop base root { versionNumber := transactionId, tuples := [] } update
        ({ root := some root, chain := if tracked then node :: u.chain else [] }, .ok ())

/-! ## Commit, rollback and cleanup -/

/-- The commit of a transaction sets the version number of its node. -/
def UpdateVector.commitUpdate (u : UpdateVector α) (transactionId commitId : Nat) : UpdateVector α :=
  { u with chain := u.chain.map fun info =>
      if info.versionNumber = transactionId then { info with versionNumber := commitId } else info }

/-- `CleanupUpdateInternal`: the node is taken out of the chain. -/
def UpdateVector.cleanupUpdateInternal (u : UpdateVector α) (versionNumber : Nat) : UpdateVector α :=
  { u with chain := u.chain.eraseP (·.versionNumber = versionNumber) }

def UpdateVector.cleanupUpdate (u : UpdateVector α) (versionNumber : Nat) : UpdateVector α :=
  u.cleanupUpdateInternal versionNumber

/-- The loop of `RollbackUpdate` for one entry: its value goes to the first entry of the root that is
not below it. `rest` continues from that entry. -/
def rollbackRow (e : Nat × α) (rest : List (Nat × α) → List (Nat × α)) : List (Nat × α) → List (Nat × α)
  | [] => []
  | b :: base => if b.1 < e.1 then b :: rollbackRow e rest base else rest ((b.1, e.2) :: base)

/-- The loop of `RollbackUpdate`. -/
def rollbackLoop : List (Nat × α) → List (Nat × α) → List (Nat × α)
  | [], base => base
  | e :: rollback, base => rollbackRow e (rollbackLoop rollback) base

/-- `RollbackUpdate` of the transaction's node. -/
def UpdateVector.rollbackUpdate (u : UpdateVector α) (transactionId : Nat) : UpdateVector α :=
  match u.root, u.chain.find? (·.versionNumber = transactionId) with
  | some root, some info =>
    { u.cleanupUpdateInternal transactionId with
      root := some { root with tuples := rollbackLoop info.tuples root.tuples } }
  | _, _ => u

end Haybarn.Update
