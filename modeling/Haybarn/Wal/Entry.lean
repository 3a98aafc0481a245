/-
The entries of the write-ahead log. The first entry is the header with the version; the others have
their size and checksum in front. The header and the framed entries are written as `WriteHeader` and
`ChecksumWriter` do, and read as `WriteAheadLogDeserializer` does.
-/
import Haybarn.Wal.Serializer

namespace Haybarn.Wal

open Lib

/-! ## Data -/

inductive WALType where
  | invalid
  | createTable
  | dropTable
  | createSchema
  | dropSchema
  | createView
  | dropView
  | createSequence
  | dropSequence
  | sequenceValue
  | createMacro
  | dropMacro
  | createType
  | dropType
  | alterInfo
  | createTableMacro
  | dropTableMacro
  | createIndex
  | dropIndex
  | useTable
  | insertTuple
  | deleteTuple
  | updateTuple
  | rowGroupData
  | walVersion
  | checkpoint
  | walFlush
deriving DecidableEq, Repr

def WALType.value : WALType → Nat
  | .invalid => 0
  | .createTable => 1
  | .dropTable => 2
  | .createSchema => 3
  | .dropSchema => 4
  | .createView => 5
  | .dropView => 6
  | .createSequence => 8
  | .dropSequence => 9
  | .sequenceValue => 10
  | .createMacro => 11
  | .dropMacro => 12
  | .createType => 13
  | .dropType => 14
  | .alterInfo => 20
  | .createTableMacro => 21
  | .dropTableMacro => 22
  | .createIndex => 23
  | .dropIndex => 24
  | .useTable => 25
  | .insertTuple => 26
  | .deleteTuple => 27
  | .updateTuple => 28
  | .rowGroupData => 29
  | .walVersion => 98
  | .checkpoint => 99
  | .walFlush => 100

def WALType.all : List WALType :=
  [.invalid, .createTable, .dropTable, .createSchema, .dropSchema, .createView, .dropView, .createSequence,
    .dropSequence, .sequenceValue, .createMacro, .dropMacro, .createType, .dropType, .alterInfo, .createTableMacro,
    .dropTableMacro, .createIndex, .dropIndex, .useTable, .insertTuple, .deleteTuple, .updateTuple, .rowGroupData,
    .walVersion, .checkpoint, .walFlush]

def WALType.ofValue (value : Nat) : Option WALType := all.find? (·.value = value)

/-- The types of the entries that change the catalog or the data. -/
def WALType.isChange : WALType → Bool
  | .invalid | .walVersion | .checkpoint | .walFlush => false
  | _ => true

theorem WALType.ofValue_value (t : WALType) : ofValue t.value = some t := by cases t <;> rfl

theorem WALType.value_lt (t : WALType) : t.value < 128 := by cases t <;> decide

/-- `MetaBlockPointer`. The default is not valid. -/
structure MetaBlockPointer where
  blockPointer : UInt64 := 18446744073709551615
  offset : UInt32 := 0
deriving DecidableEq, Repr

def MetaBlockPointer.isValid (p : MetaBlockPointer) : Bool := p.blockPointer != 18446744073709551615

/-- What the log has to do with of the database file. -/
structure DatabaseFile where
  versionNumber : Nat
  dbIdentifier : List UInt8
  checkpointIteration : UInt64
  metaBlock : UInt64
  identifier_length : dbIdentifier.length = 16

/-- `ReplayState`, without the catalog. `isCheckpointWal` is `WALReplayState::CHECKPOINT_WAL`. -/
structure ReplayState where
  isCheckpointWal : Bool
  checkpointId : MetaBlockPointer := {}
  walVersion : Nat := 1
  currentPosition : Option Nat := none
  checkpointPosition : Option Nat := none
  checkpointEndPosition : Option Nat := none
  expectedCheckpointId : Option UInt64 := none
deriving DecidableEq, Repr

/-- The state at the start of an entry. -/
def ReplayState.startAt (state : ReplayState) (position : Nat) : ReplayState :=
  { state with currentPosition := some position }

/-! ## Properties and objects -/

def writeField (id : Nat) : Bytes := writeWord 2 id

def messageTerminatorFieldId : Nat := 0xFFFF

/-- `OnObjectEnd` of the serializer. -/
def terminator : Bytes := writeField messageTerminatorFieldId

def writeProperty (id : Nat) (value : Bytes) : Bytes := writeField id ++ value

section Properties

variable {σ α : Type}

def onPropertyBegin (id : Nat) : Deserializer σ Unit := do
  let field ← readWord 2
  if field ≠ id then throw (.fieldIdMismatch id field) else return ()

def onObjectEnd : Deserializer σ Unit := do
  let field ← readWord 2
  if field ≠ messageTerminatorFieldId then throw (.expectedEndOfObject field) else return ()

def readProperty (id : Nat) (read : Deserializer σ α) : Deserializer σ α := do
  onPropertyBegin id
  read

/-- `ReadPropertyWithDefault`, with the field that is peeked at. -/
def readPropertyWithDefault (id : Nat) (default : α) (read : Deserializer σ α) : Deserializer σ α := do
  let field ← peek (readWord 2)
  if field = id then readProperty id read else return default

/-- `ReadElement` for each element of a list. -/
def readElements (read : Deserializer σ α) : Nat → Deserializer σ (List α)
  | 0 => return []
  | n + 1 => do
    let x ← read
    let xs ← readElements read n
    return x :: xs

/-- `ReadListInternal`. -/
def readList (read : Deserializer σ α) : Deserializer σ (List α) := do
  let size ← varIntDecode 64
  readElements read size

/-- `WriteList`, without the field id. -/
def writeList (write : α → Bytes) (l : List α) : Bytes := encodeUnsignedLEB128 l.length ++ l.flatMap write

end Properties

/-! ## The header -/

/-- `WriteHeader`, for a log that is not encrypted. `checkpointIteration` is that of the log, if it has
one of its own. -/
def writeHeader (db : DatabaseFile) (checkpointIteration : Option UInt64) : Bytes :=
  writeProperty 100 (encodeUnsignedLEB128 WALType.walVersion.value) ++
  (writeProperty 101 (encodeUnsignedLEB128 2) ++
  ((if db.versionNumber > 66 then
      writeProperty 102 (writeList (fun b => encodeUnsignedLEB128 b.toNat) db.dbIdentifier) ++
      writeProperty 103 (encodeUnsignedLEB128 (checkpointIteration.getD db.checkpointIteration).toNat)
    else []) ++ terminator))

/-- What `ReplayVersion` checks when it has read the header. The log may be one iteration behind the
database file, which is sorted out later, and a checkpoint log may be one ahead. -/
def checkVersion (db : DatabaseFile) (dbIdentifier : List UInt8) (checkpointIteration : Option UInt64)
    (state : ReplayState) : Except WalException ReplayState :=
  match checkpointIteration with
  | none => .ok state
  | some walCheckpointIteration =>
    if dbIdentifier.isEmpty then .ok state
    else if dbIdentifier ≠ db.dbIdentifier then .error .databaseMismatch
    else
      let expectedCheckpointIteration := db.checkpointIteration
      if expectedCheckpointIteration ≠ walCheckpointIteration then
        if walCheckpointIteration + 1 = expectedCheckpointIteration then
          .ok { state with expectedCheckpointId := some expectedCheckpointIteration }
        else if state.isCheckpointWal ∧ walCheckpointIteration = expectedCheckpointIteration + 1 then .ok state
        else .error (.versionError walCheckpointIteration.toNat expectedCheckpointIteration.toNat)
      else .ok state

/-- An `optional_idx`: the largest number stands for none. -/
def optionalIdx (value : Nat) : Option UInt64 :=
  if value = 18446744073709551615 then none else some (UInt64.ofNat value)

def replayVersion (db : DatabaseFile) : Deserializer ReplayState Unit := do
  let version ← readProperty 101 (varIntDecode 64)
  modifyState fun state => { state with walVersion := version }
  let dbIdentifier ← readPropertyWithDefault 102 [] (readList (varIntDecode 8))
  let checkpointIteration ← readPropertyWithDefault 103 18446744073709551615 (varIntDecode 64)
  tryModifyState (checkVersion db (dbIdentifier.map UInt8.ofNat) (optionalIdx checkpointIteration))

/-! ## Entries -/

/-- What the log takes from elsewhere: the checksum of an entry, the contents of the entries that change
something, and the reading of the entries of an encrypted log. Contents that were written are read back
from in front of the end of the entry. `createType` is the exception that `CreateType` of the catalog raises, by
the committed transactions and the entries that the open ones have executed, its own first. -/
structure Format (β : Type) where
  checksum : Bytes → UInt64
  type : β → WALType
  serialize : β → Bytes
  deserialize : WALType → Bytes → Except ExceptionType (β × Bytes)
  readEncrypted : Deserializer ReplayState Bytes
  createType : List (List β) → List (List β) → β → Option ExceptionType
  isChange : ∀ b, (type b).isChange = true
  deserialize_serialize : ∀ b, deserialize (type b) (serialize b ++ terminator) = .ok (b, terminator)
  small : ∀ b, (serialize b).length + 256 < 2 ^ 64

section Entries

variable {β : Type} (format : Format β)

/-- An entry from its type to its end. -/
def entryData (type : WALType) (contents : Bytes) : Bytes :=
  writeProperty 100 (encodeUnsignedLEB128 type.value) ++ (contents ++ terminator)

/-- `ChecksumWriter::Flush`. -/
def flushEntry (data : Bytes) : Bytes :=
  writeWord 8 data.length ++ (writeWord 8 (format.checksum data).toNat ++ data)

/-- An entry of a transaction. -/
def writeChange (b : β) : Bytes := flushEntry format (entryData (format.type b) (format.serialize b))

/-- The `WAL_FLUSH` entry. -/
def writeFlush : Bytes := flushEntry format (entryData .walFlush [])

/-- `MetaBlockPointer::Serialize`: a field is not written if it is 0. -/
def MetaBlockPointer.write (p : MetaBlockPointer) : Bytes :=
  (if p.blockPointer ≠ 0 then writeProperty 100 (encodeUnsignedLEB128 p.blockPointer.toNat) else []) ++
  ((if p.offset ≠ 0 then writeProperty 101 (encodeUnsignedLEB128 p.offset.toNat) else []) ++ terminator)

def writeCheckpoint (metaBlock : MetaBlockPointer) : Bytes :=
  flushEntry format (entryData .checkpoint (writeProperty 101 metaBlock.write))

/-- `MetaBlockPointer::Deserialize`. -/
def readMetaBlockPointer : Deserializer ReplayState MetaBlockPointer := do
  let blockPointer ← readPropertyWithDefault 100 0 (varIntDecode 64)
  let offset ← readPropertyWithDefault 101 0 (varIntDecode 32)
  onObjectEnd
  return { blockPointer := UInt64.ofNat blockPointer, offset := UInt32.ofNat offset }

def replayCheckpoint : Deserializer ReplayState Unit := do
  let state ← getState
  if state.checkpointPosition.isSome then throw .moreThanOneCheckpoint
  else
    let metaBlock ← readProperty 101 readMetaBlockPointer
    modifyState fun state => { state with checkpointId := metaBlock, checkpointPosition := state.currentPosition }

/-- The contents of an entry that changes something. -/
def readChange (type : WALType) : Deserializer ReplayState β := fun source =>
  match format.deserialize type source.input with
  | .ok (b, rest) => .ok b { source with input := rest }
  | .error e => .error (.entry e) source

/-- An entry that has been read. -/
inductive Entry (β : Type) where
  | flush
  | version
  | checkpoint
  | change (b : β)
deriving DecidableEq, Repr

/-- `ReplayEntry`. The changes are for the caller to apply. -/
def replayEntry (db : DatabaseFile) : Deserializer ReplayState (Entry β) := do
  let value ← readProperty 100 (varIntDecode 8)
  match WALType.ofValue value with
  | some .walFlush => do
    onObjectEnd
    return .flush
  | some .walVersion => do
    replayVersion db
    onObjectEnd
    return .version
  | some .checkpoint => do
    replayCheckpoint
    onObjectEnd
    return .checkpoint
  | some .invalid => throw .invalidEntryType
  | some type => do
    let b ← readChange format type
    onObjectEnd
    return .change b
  | none => throw .invalidEntryType

/-- The size, checksum and data of an entry of version 2. The data does not fit into the file if fewer
bytes are left than it has. -/
def readEntryData (fileSize : Nat) : Deserializer ReplayState Bytes := do
  let size ← readWord 8
  let storedChecksum ← readWord 8
  let left ← remaining
  let offset := fileSize - left
  if left < size then throw (.entrySizeExceeded offset size fileSize)
  else
    let buffer ← takeUnits .notEnoughData size
    if storedChecksum ≠ (format.checksum buffer).toNat then
      throw (.checksumMismatch offset (format.checksum buffer) (UInt64.ofNat storedChecksum))
    else return buffer

/-- `GetEntryDeserializer` and then `ReplayEntry`. An entry of version 1 is read from the file itself. -/
def readEntry (db : DatabaseFile) (fileSize : Nat) : Deserializer ReplayState (Entry β) := do
  let state ← getState
  if state.walVersion = 1 then replayEntry format db
  else if state.walVersion = 2 then
    let buffer ← readEntryData format fileSize
    withInput buffer (replayEntry format db)
  else if state.walVersion = 3 then
    let buffer ← format.readEncrypted
    withInput buffer (replayEntry format db)
  else throw (.unknownVersion state.walVersion)

end Entries

end Haybarn.Wal
