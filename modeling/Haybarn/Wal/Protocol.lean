/-
The checkpoint protocol between the database file and the logs: commits, the steps of a checkpoint as
`StorageManager` and `SingleFileCheckpointWriter` take them, crashes and recoveries. Each step changes the
files by one durable operation, so that a crash between two of them is a crash between two steps.
-/
import Haybarn.Lib.Run
import Haybarn.Wal.Replay

namespace Haybarn.Wal

open Lib

variable {β : Type}

/-! ## The running database -/

/-- Where a checkpoint is: the marker has been flushed and the old checkpoint log is still to be removed, the
data is being written, or the header has been written. -/
inductive CheckpointPhase where
  | marked
  | writing
  | written
deriving DecidableEq, Repr

/-- A checkpoint: its root block, the transactions it writes to the database file, the transaction that is
committed by it instead of a write to the log, and whether there was a log to mark. -/
structure ActiveCheckpoint (β : Type) where
  metaBlock : MetaBlockPointer
  included : List (List β)
  skipped : Option (Transaction β)
  hasWal : Bool
  phase : CheckpointPhase

/-- The log in use, the transactions in memory and the checkpoint. -/
structure Running (β : Type) where
  log : WriteAheadLog
  transactions : List (List β)
  checkpoint : Option (ActiveCheckpoint β) := none

/-- The files, the running database if there is one, and the transactions that have been committed. -/
structure Database (β : Type) where
  disk : Disk β
  running : Option (Running β) := none
  committed : List (List β)

/-! ## Steps -/

inductive Op (β : Type) where
  | openLog
  | commit (t : Transaction β)
  | startCheckpoint (metaBlock : MetaBlockPointer) (skipped : Option (Transaction β))
  | removeCheckpointWal
  | writeHeader
  | finishCheckpoint
  | crash
  | recover (untilCrash : Option Nat)

section Steps

variable (format : Format β)

/-- `Initialize`: the log file is created or truncated. -/
def Database.openLog (s : Database β) (running : Running β) : Database β :=
  let path := running.log.path
  let opened := running.log.initializeWriter (s.disk.wal path)
  { s with
    disk := s.disk.setWal path (some opened.2)
    running := some { running with log := opened.1 } }

/-- A transaction is written to the log and flushed. -/
def Database.commit (s : Database β) (running : Running β) (t : Transaction β) : Database β :=
  let path := running.log.path
  let written := running.log.append s.disk.header (s.disk.wal path) (t.write format)
  { disk := s.disk.setWal path (some written.2)
    running := some { running with log := written.1, transactions := running.transactions ++ [t.changes] }
    committed := s.committed ++ [t.changes] }

/-- `WALStartCheckpoint` up to the flush of the marker. An empty log gets no marker, and stays in use. -/
def Database.startCheckpoint (s : Database β) (running : Running β) (metaBlock : MetaBlockPointer)
    (skipped : Option (Transaction β)) : Database β :=
  let included := running.transactions ++ skipped.toList.map (·.changes)
  if running.log.walSize = 0 then
    let checkpoint := { metaBlock, included, skipped, hasWal := false, phase := .writing }
    { s with running := some { running with checkpoint := some checkpoint } }
  else
    let checkpoint := { metaBlock, included, skipped, hasWal := true, phase := .marked }
    let path := running.log.path
    let written := running.log.append s.disk.header (s.disk.wal path) (writeCheckpoint format metaBlock ++ writeFlush format)
    { s with
      disk := s.disk.setWal path (some written.2)
      running := some { running with log := written.1, checkpoint := some checkpoint } }

/-- The rest of `WALStartCheckpoint`: a checkpoint log that exists is deleted, and a new one with the next
iteration takes the writes. -/
def Database.removeCheckpointWal (s : Database β) (running : Running β) (checkpoint : ActiveCheckpoint β) : Database β :=
  { s with
    disk := { s.disk with checkpointWal := none }
    running := some { running with
      log := { path := .checkpoint, checkpointIteration := some (s.disk.header.checkpointIteration + 1) }
      checkpoint := some { checkpoint with phase := .writing } } }

/-- The header of the database file. The transaction that was not written to the log is committed with it. -/
def Database.writeHeader (s : Database β) (running : Running β) (checkpoint : ActiveCheckpoint β) : Database β :=
  let skipped := checkpoint.skipped.toList.map (·.changes)
  { disk := { s.disk with
      header := { s.disk.header with
        checkpointIteration := s.disk.header.checkpointIteration + 1
        metaBlock := checkpoint.metaBlock.blockPointer }
      data := checkpoint.included }
    running := some { running with
      transactions := running.transactions ++ skipped
      checkpoint := some { checkpoint with phase := .written } }
    committed := s.committed ++ skipped }

/-- `WALFinishCheckpoint`: the checkpoint log replaces the main log, which is removed if there was no write to
the checkpoint log. -/
def Database.finishCheckpoint (s : Database β) (running : Running β) (checkpoint : ActiveCheckpoint β) : Database β :=
  if checkpoint.hasWal then
    if running.log.initState = .initialized then
      let log : WriteAheadLog := { path := .main }
      let opened := log.initializeWriter s.disk.checkpointWal
      { s with
        disk := { s.disk with mainWal := s.disk.checkpointWal, checkpointWal := none }
        running := some { running with log := opened.1, checkpoint := none } }
    else
      { s with
        disk := { s.disk with mainWal := none }
        running := some { running with log := { path := .main }, checkpoint := none } }
  else { s with running := some { running with checkpoint := none } }

/-- `Replay`, when the database is opened. -/
def Database.recover (s : Database β) (untilCrash : Option Nat) : Database β :=
  match replay format {} ⟨s.disk, s.disk.data, untilCrash⟩ with
  | .ok log r => { s with disk := r.disk, running := some { log, transactions := r.memory } }
  | .error _ r => { s with disk := r.disk }

/-- One step. A step for another state of the database does nothing. -/
def Database.step (s : Database β) (op : Op β) : Database β :=
  match op, s.running with
  | .recover untilCrash, none => s.recover format untilCrash
  | .crash, some _ => { s with running := none }
  | .openLog, some running => s.openLog running
  | .commit t, some running => s.commit format running t
  | .startCheckpoint metaBlock skipped, some running => s.startCheckpoint format running metaBlock skipped
  | .removeCheckpointWal, some running => match running.checkpoint with
    | some checkpoint => s.removeCheckpointWal running checkpoint
    | none => s
  | .writeHeader, some running => match running.checkpoint with
    | some checkpoint => s.writeHeader running checkpoint
    | none => s
  | .finishCheckpoint, some running => match running.checkpoint with
    | some checkpoint => s.finishCheckpoint running checkpoint
    | none => s
  | _, _ => s

end Steps

/-! ## Runs -/

/-- The lock on the log is free: it is held from the marker to the new checkpoint log, and throughout a checkpoint
that commits a transaction. -/
def Running.writesAllowed (running : Running β) : Bool :=
  running.checkpoint.all fun checkpoint => checkpoint.phase ≠ .marked && checkpoint.skipped.isNone

/-- When the steps are taken. A checkpoint starts when there is no other one, and its root block is a new one, not
that of the checkpoint in the file. -/
def Database.allowed (s : Database β) : Op β → Bool
  | .openLog | .commit _ => s.running.any (·.writesAllowed)
  | .startCheckpoint metaBlock _ => s.running.any (·.checkpoint.isNone) && metaBlock.isValid &&
      metaBlock.blockPointer != s.disk.header.metaBlock
  | .removeCheckpointWal => s.running.any (·.checkpoint.any (·.phase = .marked))
  | .writeHeader => s.running.any (·.checkpoint.any (·.phase = .writing))
  | .finishCheckpoint => s.running.any (·.checkpoint.any (·.phase = .written))
  | .crash => s.running.isSome
  | .recover _ => s.running.isNone

/-- A database that has been loaded from its file, with no log. -/
def Database.loaded (header : DatabaseFile) (data : List (List β)) : Database β :=
  { disk := { header, data, mainWal := none, checkpointWal := none, recoveryWal := none }
    committed := data }

/-- Opening the database raises no error, and gives the committed transactions in order. -/
def Database.Recovers (format : Format β) (s : Database β) : Prop :=
  ∃ log r, replay format {} ⟨s.disk, s.disk.data, none⟩ = .ok log r ∧ r.memory = s.committed

instance [DecidableEq β] (format : Format β) (s : Database β) : Decidable (s.Recovers format) :=
  match h : replay format {} ⟨s.disk, s.disk.data, none⟩ with
  | .ok log r =>
    if hm : r.memory = s.committed then .isTrue ⟨log, r, h, hm⟩
    else .isFalse fun ⟨_, _, h', hm'⟩ => by
      cases h.symm.trans h'
      exact hm hm'
  | .error _ _ => .isFalse fun ⟨_, _, h', _⟩ => nomatch h.symm.trans h'

end Haybarn.Wal
