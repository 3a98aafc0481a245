/-
The replay of the write-ahead log when a database is opened: the model of `WriteAheadLogReplayer`. The
log is read twice, first for a checkpoint marker, then to apply its transactions. Files are changed one
durable operation at a time, and the machine may crash before any of them.
-/
import Haybarn.Lib.Crash
import Haybarn.Wal.Reads

namespace Haybarn.Wal

open Haybarn.Lib

variable {β : Type}

/-! ## Files -/

/-- The files of a database. `data` is what the last checkpoint wrote: the transactions whose effect is
in the database file. -/
structure Disk (β : Type) where
  header : DatabaseFile
  data : List (List β)
  mainWal : Option Bytes
  checkpointWal : Option Bytes
  recoveryWal : Option Bytes

inductive WalPath where
  | main
  | checkpoint
deriving DecidableEq, Repr

def Disk.wal (disk : Disk β) : WalPath → Option Bytes
  | .main => disk.mainWal
  | .checkpoint => disk.checkpointWal

def Disk.setWal (disk : Disk β) (path : WalPath) (file : Option Bytes) : Disk β :=
  match path with
  | .main => { disk with mainWal := file }
  | .checkpoint => { disk with checkpointWal := file }

/-! ## The log object -/

inductive WALInitState where
  | noWal
  | uninitialized
  | uninitializedRequiresTruncate
  | initialized
deriving DecidableEq, Repr

/-- `WriteAheadLog`, with the size that it sets in the storage manager. -/
structure WriteAheadLog where
  path : WalPath
  walSize : Nat := 0
  initState : WALInitState := .noWal
  checkpointIteration : Option UInt64 := none
deriving DecidableEq, Repr

/-! ## Scanning -/

section Scan

variable (format : Format β) (db : DatabaseFile) (create : List β → β → Option ExceptionType)

/-- What the first pass has found: the replay state, the end of the last `WAL_FLUSH`, the offset to
truncate a failed checkpoint marker to, and the entries that it has executed. -/
structure CheckpointScan (β : Type) where
  state : ReplayState
  lastWalFlushEnd : Nat := 0
  checkpointTruncateOffset : Nat := 0
  executed : List β := []
deriving DecidableEq, Repr

/-- What an entry does in the first pass. The entries are only read, but `ReplayCreateType` executes its own
without a look at `DeserializeOnly`. -/
def executeFirst (executed : List β) : Entry β → Except ExceptionType (List β)
  | .change b =>
    if format.type b ≠ .createType then .ok executed
    else match create executed b with
      | some e => .error e
      | none => .ok (executed ++ [b])
  | _ => .ok executed

/-- The first pass reads the entries up to a `WAL_FLUSH` at the end of the file, or to an exception. Every
entry has at least one byte, so that the fuel does not run out. -/
def scanLoop (fileSize : Nat) : Nat → Bytes → CheckpointScan β → CheckpointScan β × Option WalException
  | 0, _, scan => (scan, none)
  | fuel + 1, input, scan =>
    match readEntry format db fileSize ⟨input, scan.state.startAt (fileSize - input.length)⟩ with
    | .error e source => ({ scan with state := source.state }, some e)
    | .ok entry source =>
      match executeFirst format create scan.executed entry with
      | .error e => ({ scan with state := source.state }, some (.entry e))
      | .ok executed =>
        let offset := fileSize - source.input.length
        let scan :=
          if source.state.checkpointPosition.isSome ∧ source.state.checkpointEndPosition.isNone then
            { scan with
              state := { source.state with checkpointEndPosition := some offset }
              checkpointTruncateOffset := scan.lastWalFlushEnd
              executed }
          else { scan with state := source.state, executed }
        match entry with
        | .flush =>
          let scan := { scan with lastWalFlushEnd := offset }
          if source.input.isEmpty then (scan, none) else scanLoop fileSize fuel source.input scan
        | _ => scanLoop fileSize fuel source.input scan

/-- The first pass. -/
def scanLog (isCheckpointWal : Bool) (file : Bytes) : CheckpointScan β × Option WalException :=
  scanLoop format db create file.length (file.length + 1) file { state := { isCheckpointWal } }

/-- What the second pass has done: the transactions it committed, the end of the last one, whether it came
to the end of the file, and the exception otherwise. -/
structure Replayed (β : Type) where
  committed : List (List β)
  successfulOffset : Nat
  allSucceeded : Bool
  error : Option WalException
deriving DecidableEq, Repr

/-- The second pass. A `WAL_FLUSH` commits the changes since the last one. -/
def replayLoop (fileSize : Nat) : Nat → Source UInt8 ReplayState → List β → List (List β) → Nat → Replayed β
  | 0, _, _, committed, successfulOffset => ⟨committed, successfulOffset, false, none⟩
  | fuel + 1, source, changes, committed, successfulOffset =>
    match readEntry format db fileSize source with
    | .error e _ => ⟨committed, successfulOffset, false, some e⟩
    | .ok .flush source =>
      let offset := fileSize - source.input.length
      if source.input.isEmpty then ⟨committed ++ [changes], offset, true, none⟩
      else replayLoop fileSize fuel source [] (committed ++ [changes]) offset
    | .ok (.change b) source => replayLoop fileSize fuel source (changes ++ [b]) committed successfulOffset
    | .ok _ source => replayLoop fileSize fuel source changes committed successfulOffset

/-- The transaction is that of the first pass. -/
def replayFile (isCheckpointWal : Bool) (file : Bytes) (executed : List β) : Replayed β :=
  replayLoop format db file.length (file.length + 1) ⟨file, { isCheckpointWal }⟩ executed [] 0

end Scan

/-! ## Recovery -/

/-- A machine with the files of a database on its disk and the transactions in its memory. -/
abbrev Recovery (β : Type) := Machine (Disk β) (List (List β))

abbrev Recover (β α : Type) := Crashable WalException (Disk β) (List (List β)) α

/-- The options of the database that matter here. -/
structure ReplayConfig where
  readOnly : Bool := false
  abortOnWalFailure : Bool := false
deriving DecidableEq, Repr

section ReplayLog

variable (format : Format β) (config : ReplayConfig)

/-- The second half of `ReplayLog`: the second pass and the log to write to afterwards. `checkpointHandle`
is a checkpoint log that is still to be replayed, which there is in read-only mode only. -/
def replayTransactions (again : Bytes → WalPath → Recover β (Option WriteAheadLog)) (isCheckpointWal : Bool)
    (path : WalPath) (file : Bytes) (executed : List β) (checkpointHandle : Option Bytes) :
    Recover β (Option WriteAheadLog) := do
  let disk ← getDisk
  let replayed := replayFile format disk.header isCheckpointWal file executed
  modifyMemory (· ++ replayed.committed)
  let log : WriteAheadLog := {
    path
    walSize := replayed.successfulOffset
    initState := if replayed.allSucceeded then .uninitialized else .uninitializedRequiresTruncate }
  match replayed.error with
  | some e => if config.abortOnWalFailure ∨ e.type ≠ .serialization then throw (.exception e) else return some log
  | none => match checkpointHandle with
    | some checkpointWal => if replayed.allSucceeded then again checkpointWal .checkpoint else return some log
    | none => return some log

/-- `ReplayLog` after the checkpoint marker has been dealt with: a log that is one iteration behind is
refused, and a failed marker is cut off first. -/
def replayRest (again : Bytes → WalPath → Recover β (Option WriteAheadLog)) (isCheckpointWal : Bool)
    (path : WalPath) (file : Bytes) (scan : CheckpointScan β) (truncateFailedCheckpointMarker : Bool)
    (checkpointHandle : Option Bytes) : Recover β (Option WriteAheadLog) :=
  match scan.state.expectedCheckpointId with
  | some expectedId => throw (.exception (.versionError (expectedId.toNat - 1) expectedId.toNat))
  | none =>
    if truncateFailedCheckpointMarker then do
      let file := file.take scan.checkpointTruncateOffset
      durable (·.setWal path (some file))
      if scan.checkpointTruncateOffset = 0 then return some { path }
      else replayTransactions format config again isCheckpointWal path file scan.executed checkpointHandle
    else replayTransactions format config again isCheckpointWal path file scan.executed checkpointHandle

/-- The entries of a checkpoint log behind its header. -/
def checkpointEntries (db : DatabaseFile) (walVersion : Nat) (checkpointWal : Bytes) : Except WalException Bytes :=
  if checkpointWal.length ≠ 0 then
    match readEntry format db checkpointWal.length ⟨checkpointWal, { isCheckpointWal := true }⟩ with
    | .error e _ => .error e
    | .ok _ source => if source.state.walVersion ≠ walVersion then .error .checkpointWalVersion else .ok source.input
  else .ok []

/-- `MergeIntoRecoveryWAL`: the main log up to the marker and the entries of the checkpoint log become
the recovery log, which then replaces the main log. -/
def mergeIntoRecoveryWal (db : DatabaseFile) (state : ReplayState) (file checkpointWal : Bytes) : Recover β Bytes := do
  durable fun disk => { disk with recoveryWal := some [] }
  match checkpointEntries format db state.walVersion checkpointWal with
  | .error e => throw (.exception e)
  | .ok entries => do
    let merged := file.take (state.checkpointPosition.getD 0) ++ entries
    durable fun disk => { disk with recoveryWal := some merged }
    durable fun disk => { disk with mainWal := disk.recoveryWal, recoveryWal := none }
    durable fun disk => { disk with checkpointWal := none }
    return merged

/-- `ReplayLog`. `again` replays a checkpoint log, or what was put in the place of the main one, while the
transactions in `active` are open. -/
def replayLogWith (again : List (List β) → Bytes → WalPath → Recover β (Option WriteAheadLog)) (isCheckpointWal : Bool)
    (active : List (List β)) (file : Bytes) (path : WalPath) : Recover β (Option WriteAheadLog) :=
  if file.isEmpty then return none
  else do
    let disk ← getDisk
    let committed ← getMemory
    let create := fun executed => format.createType committed (executed :: active)
    let (scan, error) := scanLog format disk.header create isCheckpointWal file
    let replayed := again active
    let again := again (scan.executed :: active)
    match error.filter (·.type ≠ .serialization) with
    | some e => throw (.exception e)
    | none =>
      if scan.state.checkpointId.isValid ∧ scan.state.checkpointEndPosition.isSome then
        if isCheckpointWal then throw (.exception .checkpointWalHasCheckpoint)
        else if scan.state.currentPosition ≠ scan.state.checkpointEndPosition then
          throw (.exception .checkpointNotAtEnd)
        else
          -- `IsCheckpointClean`
          let checkpointWasSuccessful := scan.state.checkpointId.blockPointer = disk.header.metaBlock
          match disk.checkpointWal with
          | none =>
            if checkpointWasSuccessful then return none
            else replayRest format config replayed isCheckpointWal path file scan (!config.readOnly) none
          | some checkpointWal =>
            if checkpointWasSuccessful then
              if config.readOnly then again checkpointWal .checkpoint
              else do
                durable fun disk => { disk with mainWal := disk.checkpointWal, checkpointWal := none }
                again checkpointWal .main
            else if config.readOnly then
              replayRest format config replayed isCheckpointWal path file scan false (some checkpointWal)
            else do
              let merged ← mergeIntoRecoveryWal format disk.header scan.state file checkpointWal
              again merged .main
      else replayRest format config replayed isCheckpointWal path file scan false none

/-- `ReplayLog` of a checkpoint log: it goes no deeper, since such a log has no marker. -/
def replayCheckpointLog (active : List (List β)) (file : Bytes) (path : WalPath) : Recover β (Option WriteAheadLog) :=
  replayLogWith format config (fun _ _ _ => throw (.exception .checkpointWalHasCheckpoint)) true active file path

/-- `ReplayLog` of the main log. -/
def replayLog (file : Bytes) : Recover β (Option WriteAheadLog) :=
  replayLogWith format config (replayCheckpointLog format config) false [] file .main

/-- `Replay`: a log that is not needed any more is removed. -/
def replay : Recover β WriteAheadLog := do
  let disk ← getDisk
  match disk.mainWal with
  | none => return { path := .main }
  | some file =>
    let log ← replayLog format config file
    match log with
    | some log => return log
    | none =>
      if config.readOnly then return { path := .main }
      else do
        durable (·.setWal .main none)
        return { path := .main }

end ReplayLog

/-! ## Writing -/

section Writing

variable (format : Format β)

/-- A transaction with something to write. -/
structure Transaction (β : Type) where
  changes : List β
  nonempty : changes ≠ []

/-- The entries of a transaction, with the `WAL_FLUSH` at the end. -/
def Transaction.write (t : Transaction β) : Bytes := t.changes.flatMap (writeChange format) ++ writeFlush format

/-- `Initialize`: the file is opened, and truncated to the size of the log if that is required. -/
def WriteAheadLog.initializeWriter (log : WriteAheadLog) (file : Option Bytes) : WriteAheadLog × Bytes :=
  match log.initState with
  | .initialized => (log, file.getD [])
  | .uninitializedRequiresTruncate => ({ log with initState := .initialized }, (file.getD []).take log.walSize)
  | _ => ({ log with initState := .initialized, walSize := (file.getD []).length }, file.getD [])

/-- Entries are appended; the first ones come after the header. Then the log is flushed. -/
def WriteAheadLog.append (log : WriteAheadLog) (db : DatabaseFile) (file : Option Bytes) (entries : Bytes) :
    WriteAheadLog × Bytes :=
  let opened := log.initializeWriter file
  let file := (if opened.2.isEmpty then writeHeader db opened.1.checkpointIteration else opened.2) ++ entries
  ({ opened.1 with walSize := file.length }, file)

/-- The transactions are written one after the other. -/
def WriteAheadLog.writeTransactions (log : WriteAheadLog) (db : DatabaseFile) :
    Option Bytes → List (Transaction β) → Option Bytes
  | file, [] => file
  | file, t :: ts =>
    let written := log.append db file (t.write format)
    written.1.writeTransactions db (some written.2) ts

end Writing

end Haybarn.Wal
