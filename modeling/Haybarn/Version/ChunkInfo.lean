/-
Version information of one vector: the model of `ChunkVectorInfo`. The insert ids are a constant or
a per-row array, the delete ids a constant, a mask with one shared id, or a per-row array. `N` is
`STANDARD_VECTOR_SIZE`, an option of the build; per-row arrays are functions of the row.
-/
import Haybarn.Common.ValidityMask
import Haybarn.Transaction.Ids

namespace Haybarn.Version

open Haybarn.Transaction Haybarn.Common

/-- `DEFAULT_STANDARD_VECTOR_SIZE`. -/
def standardVectorSize : Nat := 2048

/-! ## Transactions and scan options -/

structure TransactionData where
  transactionId : Nat
  startTime : Nat
deriving DecidableEq, Repr

/-- A transaction that does not take `NOT_DELETED_ID` for a visible id. Those the transaction manager
starts are such, and so are the ones built for scans of committed rows. -/
structure Snapshot extends TransactionData where
  startTime_le : startTime ≤ notDeletedId
  transactionId_ne : transactionId ≠ notDeletedId

inductive InsertedScanType where
  | standard
  | allRows
deriving DecidableEq, Repr

inductive DeletedScanType where
  | standard
  | includeAllDeleted
  | omitCommittedDeletes
deriving DecidableEq, Repr

/-- `ScanOptions`, as far as version information reads them. -/
structure ScanOptions where
  transaction : TransactionData
  insertType : InsertedScanType := .standard
  deleteType : DeletedScanType := .standard
deriving DecidableEq, Repr

/-- `UseVersion`, which is `StandardInsertOperator::UseInsertedVersion`. -/
def useVersion (t : TransactionData) (id : Nat) : Bool := id < t.startTime || id == t.transactionId

/-- The insert operator of a scan: `StandardInsertOperator` or `IncludeAllInsertedOperator`. -/
def InsertedScanType.useInsertedVersion (t : TransactionData) (id : Nat) : InsertedScanType → Bool
  | .standard => useVersion t id
  | .allRows => true

/-- The delete operator of a scan: `StandardDeleteOperator`, `IncludeAllDeletedOperator` or
`CommittedDeleteOperator`. -/
def DeletedScanType.isDeleted (t : TransactionData) (id : Nat) : DeletedScanType → Bool
  | .standard => useVersion t id
  | .includeAllDeleted => false
  | .omitCommittedDeletes => id < t.startTime

/-! ## Version information of a vector -/

/-- The delete side: `DeleteIdState` with the data each state uses. In `masked` a valid bit marks a
deleted row. -/
inductive DeleteIds where
  | constant (id : Nat)
  | masked (mask : ValidityMask) (id : Nat)
  | array (ids : Nat → Nat)

structure ChunkVectorInfo where
  start : Nat
  insertedData : Option (Nat → Nat) := none
  constantInsertId : Nat := 0
  deleted : DeleteIds := .constant notDeletedId
  recheckCompression : Bool := true

namespace ChunkVectorInfo

def hasConstantInsertionId (info : ChunkVectorInfo) : Bool := info.insertedData.isNone

def hasConstantDeleteId (info : ChunkVectorInfo) : Bool := match info.deleted with
  | .constant _ => true
  | _ => false

def anyDeleted (info : ChunkVectorInfo) : Bool := match info.deleted with
  | .constant id => id != notDeletedId
  | .masked _ _ => true
  | .array _ => true

/-! ## Scans -/

/-- The loop over the rows from `base` to `fin` that sets an index for each row it keeps. -/
def selectRows (keep : Nat → Bool) (base fin : Nat) : List Nat := (List.range' base (fin - base)).filter keep

/-- A scan's return value together with the indices it has set, none if there is no selection vector. -/
def emit (sel : Bool) (rows : List Nat) : Nat × List Nat := (rows.length, if sel then rows else [])

/-- The mask scan of the masked state, word by word: fully deleted words are skipped, fully alive
words are taken whole, and the bits of the others are looked at one by one. -/
def selectAlive (mask : ValidityMask) (maxCount : Nat) : List Nat :=
  (List.range (ValidityMask.entryCount maxCount)).flatMap fun entryIdx =>
    let entry := mask.entry entryIdx
    let base := entryIdx * bitsPerValue
    let entryEnd := min (base + bitsPerValue) maxCount
    if ValidityMask.allValid entry then []
    else if ValidityMask.noneValid entry then List.range' base (entryEnd - base)
    else selectRows (fun i => !ValidityMask.entryRowIsValid entry (i - base)) base entryEnd

def templatedGetSelVector (info : ChunkVectorInfo) (useInserted isDeleted : Nat → Bool) (sel : Bool)
    (maxCount : Nat) : Nat × List Nat :=
  match info.deleted with
  | .constant id =>
    if isDeleted id then (0, [])
    else match info.insertedData with
      | none => if useInserted info.constantInsertId then (maxCount, []) else (0, [])
      | some inserted => emit sel (selectRows (fun i => useInserted (inserted i)) 0 maxCount)
  | .masked mask id =>
    let maskedDeleted := isDeleted id
    match info.insertedData with
    | none =>
      if !useInserted info.constantInsertId then (0, [])
      else if !maskedDeleted then (maxCount, [])
      else if !sel then (maxCount - mask.countValid maxCount, [])
      else emit true (selectAlive mask maxCount)
    | some inserted =>
      emit sel (selectRows (fun i => useInserted (inserted i) && !(maskedDeleted && mask.rowIsValid i)) 0 maxCount)
  | .array ids =>
    match info.insertedData with
    | none =>
      if !useInserted info.constantInsertId then (0, [])
      else emit sel (selectRows (fun i => !isDeleted (ids i)) 0 maxCount)
    | some inserted => emit sel (selectRows (fun i => useInserted (inserted i) && !isDeleted (ids i)) 0 maxCount)

def getSelVector (info : ChunkVectorInfo) (options : ScanOptions) (sel : Bool) (maxCount : Nat) : Nat × List Nat :=
  if options.insertType = .allRows ∧ options.deleteType = .includeAllDeleted then (maxCount, [])
  else info.templatedGetSelVector (options.insertType.useInsertedVersion options.transaction)
    (options.deleteType.isDeleted options.transaction) sel maxCount

def fetch (info : ChunkVectorInfo) (t : TransactionData) (row : Nat) : Bool :=
  let fetchInsertId := match info.insertedData with
    | none => info.constantInsertId
    | some inserted => inserted row
  let fetchDeletedId := match info.deleted with
    | .constant id => id
    | .masked mask id => if mask.rowIsValid row then id else notDeletedId
    | .array ids => ids row
  useVersion t fetchInsertId && !useVersion t fetchDeletedId

/-! ## Appends -/

/-- `GetInitializedInsertedPointer`: the per-row insert ids, filled from the constant if there are none. -/
def getInitializedInsertedPointer (info : ChunkVectorInfo) : Nat → Nat := match info.insertedData with
  | none => fun _ => info.constantInsertId
  | some inserted => inserted

/-- The loop that writes `id` to the entries from `start` to `fin`. -/
def fillRange (ids : Nat → Nat) (start fin id : Nat) : Nat → Nat := fun i => if start ≤ i ∧ i < fin then id else ids i

def append (info : ChunkVectorInfo) (start fin commitId : Nat) : ChunkVectorInfo :=
  if start = 0 then { info with constantInsertId := commitId }
  else if info.hasConstantInsertionId ∧ info.constantInsertId = commitId then info
  else { info with
    recheckCompression := true
    insertedData := some (fillRange info.getInitializedInsertedPointer start fin commitId) }

def commitAppend (info : ChunkVectorInfo) (commitId start fin : Nat) : ChunkVectorInfo :=
  match info.insertedData with
  | none => { info with constantInsertId := commitId }
  | some inserted => { info with
      recheckCompression := true
      insertedData := some (fillRange inserted start fin commitId) }

/-- `Cleanup`. The loop over the insert ids starts at the second row. -/
def cleanup (N : Nat) (info : ChunkVectorInfo) (lowestTransaction : Nat) : Bool :=
  if info.anyDeleted then false
  else match info.insertedData with
    | some inserted => (List.range' 1 (N - 1)).all fun idx => inserted idx ≤ lowestTransaction
    | none => info.constantInsertId ≤ lowestTransaction

/-! ## Deletes -/

/-- `DecompressDeleteMask`, of a masked info. -/
def decompressDeleteMask (info : ChunkVectorInfo) : ChunkVectorInfo := match info.deleted with
  | .masked mask id => { info with
      deleted := .array fun i => if mask.rowIsValid i then id else notDeletedId
      recheckCompression := true }
  | _ => info

/-- `CompressDeleteToMask`, of an info with per-row delete ids. -/
def compressDeleteToMask (N : Nat) (info : ChunkVectorInfo) (maskId : Nat) : ChunkVectorInfo := match info.deleted with
  | .array ids => { info with
      deleted := .masked ((List.range N).foldl
        (fun mask i => if ids i = notDeletedId then mask.setInvalid i else mask) .initialized) maskId }
  | _ => info

/-- `GetInitializedDeletedPointer`: the per-row delete ids, filled from the mask or the constant. -/
def getInitializedDeletedPointer (info : ChunkVectorInfo) : Nat → Nat := match info.deleted with
  | .constant id => fun _ => id
  | .masked mask id => fun i => if mask.rowIsValid i then id else notDeletedId
  | .array ids => ids

/-- The exception `Delete` throws: "Conflict on tuple deletion!". -/
inductive DeleteException where
  | conflictOnTupleDeletion
deriving DecidableEq, Repr

/-- What `Delete` leaves: the info and the row array, both changed in place, and the return value. -/
structure DeleteResult where
  info : ChunkVectorInfo
  rows : Nat → Nat
  result : Except DeleteException Nat

def deletesEntireVector (rows : Nat → Nat) (count : Nat) : Bool := (List.range count).all fun i => rows i == i

/-- The loop of `Delete` with `remaining` turns to go from index `i` on. On a conflict the entries at
the first `i` rows of the array, as far as it was rewritten, are reset. -/
def deleteLoop (transactionId : Nat) : Nat → Nat → (Nat → Nat) → (Nat → Nat) → Nat →
    (Nat → Nat) × (Nat → Nat) × Except DeleteException Nat
  | 0, _, deleted, rows, deletedTuples => (deleted, rows, .ok deletedTuples)
  | remaining + 1, i, deleted, rows, deletedTuples =>
    if deleted (rows i) = transactionId then deleteLoop transactionId remaining (i + 1) deleted rows deletedTuples
    else if deleted (rows i) ≠ notDeletedId then
      ((List.range i).foldl (fun deleted k => Function.update deleted (rows k) notDeletedId) deleted, rows,
        .error .conflictOnTupleDeletion)
    else deleteLoop transactionId remaining (i + 1) (Function.update deleted (rows i) transactionId)
      (Function.update rows deletedTuples (rows i)) (deletedTuples + 1)

/-- The part of `Delete` that works on the per-row delete ids. -/
def deleteRows (info : ChunkVectorInfo) (transactionId : Nat) (rows : Nat → Nat) (count : Nat) : DeleteResult :=
  let (deleted, rows', result) := deleteLoop transactionId count 0 info.getInitializedDeletedPointer rows 0
  ⟨{ info with recheckCompression := true, deleted := .array deleted }, rows', result⟩

def delete (N : Nat) (info : ChunkVectorInfo) (transactionId : Nat) (rows : Nat → Nat) (count : Nat) : DeleteResult :=
  match info.deleted with
  | .constant id =>
    if id ≠ notDeletedId then
      ⟨info, rows, if id = transactionId then .ok 0 else .error .conflictOnTupleDeletion⟩
    else if count = N ∧ deletesEntireVector rows count then
      ⟨{ info with deleted := .constant transactionId }, rows, .ok count⟩
    else info.deleteRows transactionId rows count
  | _ => info.deleteRows transactionId rows count

/-- `DeleteInfo`, as far as a vector reads it. Consecutive rows are `0, ..., count - 1` and are not
stored. -/
structure DeleteInfo where
  isConsecutive : Bool
  count : Nat
  rows : Nat → Nat

/-- The rows a `DeleteInfo` names. -/
def DeleteInfo.rowList (di : DeleteInfo) : List Nat :=
  if di.isConsecutive then List.range di.count else (List.range di.count).map di.rows

/-- The part of `CommitDelete` that works on the per-row delete ids and collapses them if they are all
equal. -/
def commitRows (N : Nat) (info : ChunkVectorInfo) (commitId : Nat) (di : DeleteInfo) : ChunkVectorInfo :=
  let deleted := di.rowList.foldl (fun ids row => Function.update ids row commitId) info.getInitializedDeletedPointer
  let allEqual := (List.range N).all fun i => deleted i == commitId
  { info with
    recheckCompression := true
    deleted := if allEqual then .constant commitId else .array deleted }

def commitDelete (N : Nat) (info : ChunkVectorInfo) (commitId : Nat) (di : DeleteInfo) : ChunkVectorInfo :=
  if di.isConsecutive ∧ di.count = N then { info with deleted := .constant commitId }
  else match info.deleted with
    | .constant id => if id = commitId then info else info.commitRows N commitId di
    | _ => info.commitRows N commitId di

/-! ## Compression -/

inductive VersionCompressionResult where
  | fullyCompressed
  | pending
  | settled
deriving DecidableEq, Repr

/-- The variables of the scan over the per-row delete ids in `CompressVersionIds`. -/
structure DeleteScan where
  rowsAlive : Bool := false
  deletesPending : Bool := false
  deletesUncommitted : Bool := false
  deletesEqual : Bool := true
  maxDeleteId : Nat := 0
  sharedDeleteId : Nat := notDeletedId
deriving DecidableEq, Repr

/-- The id of a deleted row is compared with the bound: it is pending, or a candidate for the maximum. -/
def DeleteScan.compare (lowestActiveStart : Nat) (s : DeleteScan) (id : Nat) : DeleteScan :=
  if id ≥ lowestActiveStart then
    { s with
      deletesPending := true
      deletesUncommitted := s.deletesUncommitted || id ≥ transactionIdStart }
  else { s with maxDeleteId := max s.maxDeleteId id }

/-- The id of a deleted row is compared with the ids of the deleted rows before it. -/
def DeleteScan.share (s : DeleteScan) (id : Nat) : DeleteScan :=
  if s.sharedDeleteId = notDeletedId then { s with sharedDeleteId := id }
  else if id ≠ s.sharedDeleteId then { s with deletesEqual := false }
  else s

/-- One turn of the scan. -/
def DeleteScan.next (lowestActiveStart : Nat) (s : DeleteScan) (id : Nat) : DeleteScan :=
  if id = notDeletedId then { s with rowsAlive := true } else (s.compare lowestActiveStart id).share id

/-- The delete side of `CompressVersionIds`: the new info and whether a later pass can do more. -/
def compressDeletes (N lowestActiveStart : Nat) (info : ChunkVectorInfo) : ChunkVectorInfo × Bool :=
  match info.deleted with
  | .array ids =>
    let s := ((List.range N).map ids).foldl (DeleteScan.next lowestActiveStart) {}
    if !s.rowsAlive && !s.deletesPending then ({ info with deleted := .constant s.maxDeleteId }, false)
    else if !s.rowsAlive then (info, true)
    else if !s.deletesPending then (info.compressDeleteToMask N 0, false)
    else if s.deletesEqual && !s.deletesUncommitted then (info.compressDeleteToMask N s.sharedDeleteId, false)
    else (info, true)
  | _ => (info, false)

/-- The insert side of `CompressVersionIds`. -/
def compressInserts (N lowestActiveStart : Nat) (info : ChunkVectorInfo) : ChunkVectorInfo × Bool :=
  match info.insertedData with
  | none => (info, false)
  | some inserted =>
    if (List.range N).all fun i => inserted i < lowestActiveStart then
      ({ info with insertedData := none, constantInsertId := 0 }, false)
    else (info, true)

def compressVersionIds (N : Nat) (info : ChunkVectorInfo) (lowestActiveStart : Nat) :
    ChunkVectorInfo × VersionCompressionResult :=
  let compressed (info : ChunkVectorInfo) : Bool := info.hasConstantDeleteId && info.hasConstantInsertionId
  if !info.recheckCompression then (info, if compressed info then .fullyCompressed else .settled)
  else
    let (info, deletesPending) := compressDeletes N lowestActiveStart info
    let (info, insertsPending) := compressInserts N lowestActiveStart info
    let pending := deletesPending || insertsPending
    let info := { info with recheckCompression := pending }
    (info, if compressed info then .fullyCompressed else if pending then .pending else .settled)

/-! ## Checkpoints -/

def hasDeletes (N : Nat) (info : ChunkVectorInfo) (transactionId : Nat) : Bool :=
  if info.hasConstantInsertionId && info.constantInsertId ≥ transactionIdStart then true
  else if !info.anyDeleted then false
  else if transactionId = maxTransactionId then true
  else match info.deleted with
    | .constant id => id ≤ transactionId
    | .masked _ id => id ≤ transactionId
    | .array ids => (List.range N).any fun i => ids i ≤ transactionId

/-- A serialized info: the `ChunkInfoType` tag and what follows it. -/
inductive StoredInfo where
  | emptyInfo
  | constantInfo (start : Nat)
  | vectorInfo (start : Nat) (mask : ValidityMask)

/-- The transaction that `Write` scans with. -/
def checkpointTransaction (checkpointId : Nat) : TransactionData where
  transactionId := invalidIndex
  startTime := if checkpointId = maxTransactionId then transactionIdStart - 1 else checkpointId + 1

def write (N : Nat) (info : ChunkVectorInfo) (checkpointId : Nat) : StoredInfo :=
  let (count, sel) := info.getSelVector ⟨checkpointTransaction checkpointId, .standard, .standard⟩ true N
  if count = N then .emptyInfo
  else if count = 0 then .constantInfo info.start
  else .vectorInfo info.start (sel.foldl (fun mask i => mask.setInvalid i) .initialized)

/-- The exceptions of reading version information back. -/
inductive ReadException where
  | maskNotPartial
  | vectorIndexOutOfRange
deriving DecidableEq, Repr

def read (N : Nat) : StoredInfo → Except ReadException (Option ChunkVectorInfo)
  | .emptyInfo => .ok none
  | .constantInfo start => .ok (some { start, deleted := .constant 0, recheckCompression := false })
  | .vectorInfo start mask =>
    if mask.checkAllValid N || mask.checkAllInvalid N then .error .maskNotPartial
    else .ok (some { start, deleted := .masked mask 0, recheckCompression := false })

end ChunkVectorInfo

end Haybarn.Version
