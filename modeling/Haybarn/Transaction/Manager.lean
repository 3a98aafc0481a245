/-
The transaction manager: the model of `DuckTransactionManager`. Each operation is one critical
section under `transaction_lock`; the undo buffer, the local storage and the WAL writer enter
through the data they hand to the manager. `CommitTransaction` releases the lock while it writes
the WAL, but reads nothing of the manager before it and changes nothing until it holds the lock
again, so the commit step is the part from `GetCommitTimestamp` on.
-/
import Haybarn.Lib.Run
import Haybarn.Transaction.Ids

namespace Haybarn.Transaction

/-! ## Transactions -/

/-- What the manager reads of a transaction's undo buffer and local storage: `ChangesMade` and the
flags of `UndoBufferProperties` that decide whether the transaction is stored. -/
structure UndoBuffer where
  changesMade : Bool := false
  hasUpdates : Bool := false
  hasIndexDeletes : Bool := false
  hasCatalogChanges : Bool := false
deriving DecidableEq, Repr

structure DuckTransaction where
  startTime : Nat
  transactionId : Nat
  commitId : Nat := 0
  catalogVersion : Nat
  awaitingCleanup : Bool := false
  isReadOnly : Bool := false
  undo : UndoBuffer := {}
deriving DecidableEq, Repr

/-- A transaction `CommitTransaction` keeps after a successful commit: it has updates, index
deletes or catalog changes. -/
def DuckTransaction.hasVersions (t : DuckTransaction) : Bool :=
  t.undo.hasUpdates || t.undo.hasIndexDeletes || t.undo.hasCatalogChanges

structure DuckCleanupInfo where
  lowestStartTime : Nat
  transactions : List DuckTransaction
deriving DecidableEq, Repr

def DuckCleanupInfo.scheduleCleanup (ci : DuckCleanupInfo) : Bool := !ci.transactions.isEmpty

/-! ## The manager -/

/-- The state of a `DuckTransactionManager`. `destroyed` lists the transactions whose owning
pointer has gone; the source keeps no such list. -/
structure DuckTransactionManager where
  dbIsSystem : Bool := false
  dbIsTemporary : Bool := false
  currentStartTimestamp : Nat
  currentTransactionId : Nat
  lowestActiveId : Nat
  lowestActiveStart : Nat
  lastCommit : Nat
  activeCheckpoint : Nat
  activeTransactions : List DuckTransaction
  recentlyCommittedTransactions : List DuckTransaction
  lastUncommittedCatalogVersion : Nat
  lastCommittedVersion : Nat
  cleanupQueue : List DuckCleanupInfo
  destroyed : List DuckTransaction
deriving DecidableEq, Repr

namespace DuckTransactionManager

/-- The constructor. It leaves `last_commit` unset, so the value before the first commit is a
parameter. -/
def init (lastCommit : Nat) : DuckTransactionManager where
  currentStartTimestamp := 2
  currentTransactionId := transactionIdStart
  lowestActiveId := transactionIdStart
  lowestActiveStart := maxTransactionId
  lastCommit := lastCommit
  activeCheckpoint := maxTransactionId
  activeTransactions := []
  recentlyCommittedTransactions := []
  lastUncommittedCatalogVersion := transactionIdStart
  lastCommittedVersion := 0
  cleanupQueue := []
  destroyed := []

/-- The exceptions the manager throws. -/
inductive Exception where
  | outOfIdentifiers
  | checkpointActive
  | readOnlyChanges
  | rollbackFailed
deriving DecidableEq, Repr

def startTransaction (m : DuckTransactionManager) (isReadOnly : Bool) : Except Exception DuckTransactionManager :=
  if m.currentStartTimestamp ≥ transactionIdStart then .error .outOfIdentifiers
  else
    let startTime := m.currentStartTimestamp
    let transactionId := m.currentTransactionId
    .ok { m with
      currentStartTimestamp := startTime + 1
      currentTransactionId := transactionId + 1
      lowestActiveStart := if m.activeTransactions.isEmpty then startTime else m.lowestActiveStart
      lowestActiveId := if m.activeTransactions.isEmpty then transactionId else m.lowestActiveId
      activeTransactions := m.activeTransactions ++
        [{ startTime, transactionId, catalogVersion := m.lastCommittedVersion, isReadOnly }] }

def getNewCheckpointId (m : DuckTransactionManager) : Except Exception DuckTransactionManager :=
  if m.activeCheckpoint ≠ maxTransactionId then .error .checkpointActive
  else .ok { m with activeCheckpoint := m.lastCommit }

def resetCheckpointId (m : DuckTransactionManager) : DuckTransactionManager :=
  { m with activeCheckpoint := maxTransactionId }

/-- The active transactions other than `tid`. -/
def others (m : DuckTransactionManager) (tid : Nat) : List DuckTransaction :=
  m.activeTransactions.filter (·.transactionId != tid)

/-- The `lowest_start_time` that `RemoveTransaction` computes: the smallest start time of the other
active transactions, `TRANSACTION_ID_START` if there are none, lowered to the active checkpoint. -/
def lowestStartTime (m : DuckTransactionManager) (tid : Nat) : Nat :=
  let lowest := (m.others tid).foldl (fun l t => min l t.startTime) transactionIdStart
  if m.activeCheckpoint ≠ maxTransactionId ∧ m.activeCheckpoint < lowest then m.activeCheckpoint else lowest

/-- The `lowest_transaction_id` that `RemoveTransaction` computes. -/
def lowestTransactionId (m : DuckTransactionManager) (tid : Nat) : Nat :=
  (m.others tid).foldl (fun l t => min l t.transactionId) maxTransactionId

/-- Where `RemoveTransaction` puts the removed transaction: the recently committed transactions,
the transactions to clean up, and the destroyed ones. -/
def placeRemoved (m : DuckTransactionManager) (t : DuckTransaction) (storeTransaction : Bool) :
    List DuckTransaction × List DuckTransaction × List DuckTransaction :=
  if storeTransaction then
    if t.commitId ≠ 0 then (m.recentlyCommittedTransactions ++ [t], [], [])
    else (m.recentlyCommittedTransactions, [t], [])
  else if t.undo.changesMade then (m.recentlyCommittedTransactions, [{ t with awaitingCleanup := true }], [])
  else (m.recentlyCommittedTransactions, [], [t])

/-- `RemoveTransaction` of the active transaction `t`. The scan of the recently committed
transactions stops at the first commit id that is not below `lowest_start_time`. -/
def removeTransaction (m : DuckTransactionManager) (t : DuckTransaction) (storeTransaction : Bool) :
    DuckTransactionManager × DuckCleanupInfo :=
  let lowest := m.lowestStartTime t.transactionId
  let (recent, scheduled, gone) := m.placeRemoved t storeTransaction
  let moved := (recent.takeWhile (·.commitId < lowest)).map ({ · with awaitingCleanup := true })
  ({ m with
      lowestActiveStart := lowest
      lowestActiveId := m.lowestTransactionId t.transactionId
      activeTransactions := m.others t.transactionId
      recentlyCommittedTransactions := recent.dropWhile (·.commitId < lowest)
      destroyed := m.destroyed ++ gone },
    { lowestStartTime := lowest, transactions := scheduled ++ moved })

/-- The tail of `CommitTransaction` and `RollbackTransaction`: remove the transaction and enqueue
its cleanup info. -/
def finish (m : DuckTransactionManager) (t : DuckTransaction) (storeTransaction : Bool) : DuckTransactionManager :=
  let (m', ci) := m.removeTransaction t storeTransaction
  if ci.scheduleCleanup then { m' with cleanupQueue := m'.cleanupQueue ++ [ci] } else m'

/-- How a commit ends: the WAL write and `DuckTransaction::Commit` succeed; one of them fails and
the rollback succeeds; the rollback fails too. -/
inductive CommitOutcome where
  | committed
  | failed
  | rollbackFailed
deriving DecidableEq, Repr

/-- Replace an active transaction by its new value. -/
def setActive (m : DuckTransactionManager) (t : DuckTransaction) : DuckTransactionManager :=
  { m with activeTransactions := m.activeTransactions.map fun a => if a.transactionId = t.transactionId then t else a }

/-- The state of a commit when `RemoveTransaction` is called: the commit id is taken, the
transaction is marked, and `last_commit` and the catalog version move on success. -/
def prepareCommit (m : DuckTransactionManager) (t : DuckTransaction) (outcome : CommitOutcome) :
    DuckTransactionManager × DuckTransaction :=
  let commitId := m.currentStartTimestamp
  let m := { m with currentStartTimestamp := commitId + 1 }
  match outcome with
  | .committed =>
    let newVersion := t.catalogVersion ≥ transactionIdStart
    let t := { t with
      commitId
      catalogVersion := if newVersion then m.lastCommittedVersion + 1 else t.catalogVersion }
    ({ m with
        lastCommit := commitId
        lastCommittedVersion := if newVersion then m.lastCommittedVersion + 1 else m.lastCommittedVersion }.setActive t, t)
  | _ =>
    let t := { t with commitId := 0 }
    (m.setActive t, t)

/-- `CommitTransaction`. A failed rollback throws before the transaction is removed. -/
def commitTransaction (m : DuckTransactionManager) (t : DuckTransaction) (outcome : CommitOutcome) :
    Except Exception DuckTransactionManager :=
  if !m.dbIsSystem && !m.dbIsTemporary && t.undo.changesMade && t.isReadOnly then .error .readOnlyChanges
  else
    let (m', t') := m.prepareCommit t outcome
    if outcome = .rollbackFailed then .ok m'
    else .ok (m'.finish t' (t'.hasVersions || outcome = .failed))

def rollbackTransaction (m : DuckTransactionManager) (t : DuckTransaction) : DuckTransactionManager :=
  m.finish t t.undo.changesMade

/-- `PushCatalogEntry`, on the manager's side. -/
def pushCatalogEntry (m : DuckTransactionManager) (t : DuckTransaction) : Except Exception DuckTransactionManager :=
  if !m.dbIsSystem && !m.dbIsTemporary && t.isReadOnly then .error .readOnlyChanges
  else .ok ({ m with lastUncommittedCatalogVersion := m.lastUncommittedCatalogVersion + 1 }.setActive
    { t with catalogVersion := m.lastUncommittedCatalogVersion + 1 })

/-- One turn of the loop of `CleanupTransactions`: the front of the queue is taken, cleaned and
destroyed. -/
def cleanupTransactions (m : DuckTransactionManager) : DuckTransactionManager :=
  match m.cleanupQueue with
  | [] => m
  | ci :: queue => { m with cleanupQueue := queue, destroyed := m.destroyed ++ ci.transactions }

/-! ## Runs -/

/-- The calls on a manager. Transactions are named by their id; `modify` is the work of a
transaction, which changes its undo buffer. -/
inductive Op where
  | startTransaction (isReadOnly : Bool)
  | modify (tid : Nat) (undo : UndoBuffer)
  | pushCatalogEntry (tid : Nat)
  | commitTransaction (tid : Nat) (outcome : CommitOutcome)
  | rollbackTransaction (tid : Nat)
  | getNewCheckpointId
  | resetCheckpointId
  | cleanupTransactions
deriving DecidableEq, Repr

/-- The active transaction with id `tid`. -/
def find (m : DuckTransactionManager) (tid : Nat) : Option DuckTransaction :=
  m.activeTransactions.find? (·.transactionId == tid)

/-- One call. A call that throws before its critical section, or that names no active transaction,
leaves the manager as it is. -/
def step (m : DuckTransactionManager) : Op → DuckTransactionManager
  | .startTransaction isReadOnly => match m.startTransaction isReadOnly with
    | .ok m' => m'
    | .error _ => m
  | .modify tid undo => match m.find tid with
    | some t => m.setActive { t with undo }
    | none => m
  | .pushCatalogEntry tid => match m.find tid with
    | some t => match m.pushCatalogEntry t with
      | .ok m' => m'
      | .error _ => m
    | none => m
  | .commitTransaction tid outcome => match m.find tid with
    | some t => match m.commitTransaction t outcome with
      | .ok m' => m'
      | .error _ => m
    | none => m
  | .rollbackTransaction tid => match m.find tid with
    | some t => m.rollbackTransaction t
    | none => m
  | .getNewCheckpointId => match m.getNewCheckpointId with
    | .ok m' => m'
    | .error _ => m
  | .resetCheckpointId => m.resetCheckpointId
  | .cleanupTransactions => m.cleanupTransactions

/-- The manager after the calls `ops` on a new manager. -/
def after (lastCommit : Nat) (ops : List Op) : DuckTransactionManager := Lib.run step (init lastCommit) ops

/-- The call of `RemoveTransaction` that a call makes: the state it is made in and its arguments. -/
def removal (m : DuckTransactionManager) : Op → Option (DuckTransactionManager × DuckTransaction × Bool)
  | .commitTransaction tid outcome => match m.find tid with
    | some t => match m.commitTransaction t outcome with
      | .ok _ =>
        let (m', t') := m.prepareCommit t outcome
        if outcome = .rollbackFailed then none else some (m', t', t'.hasVersions || outcome = .failed)
      | .error _ => none
    | none => none
  | .rollbackTransaction tid => match m.find tid with
    | some t => some (m, t, t.undo.changesMade)
    | none => none
  | _ => none

/-- The `DuckCleanupInfo` that a call builds. -/
def cleanupInfo (m : DuckTransactionManager) (op : Op) : Option DuckCleanupInfo :=
  (m.removal op).map fun (m', t, storeTransaction) => (m'.removeTransaction t storeTransaction).2

end DuckTransactionManager

end Haybarn.Transaction
