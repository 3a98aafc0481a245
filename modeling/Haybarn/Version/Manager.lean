/-
Version information of a row group: the model of `RowVersionManager`, and the runs of a row group.
A run keeps, beside the manager, the row count of the group and the appends that are not committed
yet; the conditions on its steps are what the callers of the manager guarantee.
-/
import Haybarn.Lib.Run
import Haybarn.Version.ChunkInfo

namespace Haybarn.Version

open Haybarn.Transaction Haybarn.Common
open ChunkVectorInfo (StoredInfo DeleteInfo DeleteException ReadException VersionCompressionResult)

def maxRowGroupSize : Nat := 2 ^ 30

/-- `RowVersionManager`. `storagePointers` is what the storage pointers point at: the serialized
infos with their vector index, empty if there are no pointers. -/
structure RowVersionManager where
  vectorInfo : List (Option ChunkVectorInfo) := []
  uncheckpointedDeleteCommit : Option Nat := none
  storagePointers : List (Nat × StoredInfo) := []
  needsCompressionCheck : Bool := false

namespace RowVersionManager

/-! ## Access -/

def getChunkInfo (m : RowVersionManager) (vectorIdx : Nat) : Option ChunkVectorInfo := (m.vectorInfo[vectorIdx]?).join

def getSelVector (m : RowVersionManager) (options : ScanOptions) (vectorIdx : Nat) (maxCount : Nat) : Nat × List Nat :=
  match m.getChunkInfo vectorIdx with
  | none => (maxCount, [])
  | some info => info.getSelVector options true maxCount

def fetch (N : Nat) (m : RowVersionManager) (t : TransactionData) (row : Nat) : Bool :=
  match m.getChunkInfo (row / N) with
  | none => true
  | some info => info.fetch t (row % N)

def fillVectorInfo (m : RowVersionManager) (vectorIdx : Nat) : RowVersionManager :=
  { m with vectorInfo := m.vectorInfo ++ List.replicate (vectorIdx + 1 - m.vectorInfo.length) none }

/-- The assignment to an entry of `vector_info`, which is filled up first where it is too short. -/
def setInfo (m : RowVersionManager) (vectorIdx : Nat) (info : Option ChunkVectorInfo) : RowVersionManager :=
  { m with vectorInfo := (m.fillVectorInfo vectorIdx).vectorInfo.set vectorIdx info }

/-- `GetVectorInfo`: an info that is missing is created. -/
def getVectorInfo (N : Nat) (m : RowVersionManager) (vectorIdx : Nat) : ChunkVectorInfo :=
  (m.getChunkInfo vectorIdx).getD { start := vectorIdx * N }

/-! ## Appends -/

/-- The rows of vector `vectorIdx` from `rowGroupStart` to `rowGroupEnd`, as offsets in the vector. -/
def vectorRange (N rowGroupStart rowGroupEnd vectorIdx : Nat) : Nat × Nat :=
  (if vectorIdx = rowGroupStart / N then rowGroupStart - rowGroupStart / N * N else 0,
    if vectorIdx = (rowGroupEnd - 1) / N then rowGroupEnd - (rowGroupEnd - 1) / N * N else N)

/-- The vectors that the rows from `rowGroupStart` to `rowGroupEnd` lie in. -/
def vectorsOf (N rowGroupStart rowGroupEnd : Nat) : List Nat :=
  List.range' (rowGroupStart / N) ((rowGroupEnd - 1) / N + 1 - rowGroupStart / N)

/-- The work of `AppendVersionInfo` on one vector: a vector that the append covers gets a new info. -/
def appendVector (N transactionId rowGroupStart rowGroupEnd : Nat) (m : RowVersionManager) (vectorIdx : Nat) :
    RowVersionManager :=
  let (vectorStart, vectorEnd) := vectorRange N rowGroupStart rowGroupEnd vectorIdx
  if vectorStart = 0 ∧ vectorEnd = N then
    m.setInfo vectorIdx (some { start := vectorIdx * N, constantInsertId := transactionId })
  else
    m.setInfo vectorIdx (some ((m.getVectorInfo N vectorIdx).append vectorStart vectorEnd transactionId))

def appendVersionInfo (N : Nat) (m : RowVersionManager) (transactionId rowGroupStart rowGroupEnd : Nat) :
    RowVersionManager :=
  (vectorsOf N rowGroupStart rowGroupEnd).foldl (appendVector N transactionId rowGroupStart rowGroupEnd)
    { m.fillVectorInfo ((rowGroupEnd - 1) / N) with needsCompressionCheck := true }

/-- The work of `CommitAppend` on one vector. -/
def commitVector (N commitId rowGroupStart rowGroupEnd : Nat) (m : RowVersionManager) (vectorIdx : Nat) :
    RowVersionManager :=
  let (vstart, vend) := vectorRange N rowGroupStart rowGroupEnd vectorIdx
  match m.getChunkInfo vectorIdx with
  | some info => m.setInfo vectorIdx (some (info.commitAppend commitId vstart vend))
  | none => m

def commitAppend (N : Nat) (m : RowVersionManager) (commitId rowGroupStart count : Nat) : RowVersionManager :=
  if count = 0 then m
  else (vectorsOf N rowGroupStart (rowGroupStart + count)).foldl
    (commitVector N commitId rowGroupStart (rowGroupStart + count)) m

/-- The work of `CleanupAppend` on one vector: a vector that is not written to its end is skipped. -/
def cleanupVector (N lowestActiveTransaction rowGroupStart rowGroupEnd : Nat) (m : RowVersionManager)
    (vectorIdx : Nat) : RowVersionManager :=
  if (vectorRange N rowGroupStart rowGroupEnd vectorIdx).2 ≠ N then m
  else match m.getChunkInfo vectorIdx with
    | some info => if info.cleanup N lowestActiveTransaction then m.setInfo vectorIdx none else m
    | none => m

def cleanupAppend (N : Nat) (m : RowVersionManager) (lowestActiveTransaction rowGroupStart count : Nat) :
    RowVersionManager :=
  if count = 0 then m
  else (vectorsOf N rowGroupStart (rowGroupStart + count)).foldl
    (cleanupVector N lowestActiveTransaction rowGroupStart (rowGroupStart + count)) m

def revertAppend (N : Nat) (m : RowVersionManager) (newCount : Nat) : RowVersionManager :=
  { m with vectorInfo := m.vectorInfo.mapIdx fun vectorIdx info =>
      if (newCount + (N - 1)) / N ≤ vectorIdx then none else info }

/-! ## Deletes -/

def deleteRows (N : Nat) (m : RowVersionManager) (vectorIdx transactionId : Nat) (rows : Nat → Nat) (count : Nat) :
    RowVersionManager × (Nat → Nat) × Except DeleteException Nat :=
  let r := (m.getVectorInfo N vectorIdx).delete N transactionId rows count
  ({ m.setInfo vectorIdx (some r.info) with needsCompressionCheck := true }, r.rows, r.result)

def commitDelete (N : Nat) (m : RowVersionManager) (vectorIdx commitId : Nat) (di : DeleteInfo) : RowVersionManager :=
  { m.setInfo vectorIdx (some ((m.getVectorInfo N vectorIdx).commitDelete N commitId di)) with
    needsCompressionCheck := true
    uncheckpointedDeleteCommit := match m.uncheckpointedDeleteCommit with
      | none => some commitId
      | some last => if commitId > last then some commitId else some last }

def compressVersionIds (N : Nat) (m : RowVersionManager) (lowestActiveStart : Nat) : RowVersionManager :=
  if !m.needsCompressionCheck then m
  else
    let results := m.vectorInfo.map fun info => info.map (·.compressVersionIds N lowestActiveStart)
    { m with
      vectorInfo := results.map fun r => r.map (·.1)
      needsCompressionCheck := results.any fun r => r.any (·.2 = .pending) }

/-! ## Checkpoints -/

/-- The infos that `Checkpoint` serializes, with their vector index. -/
def toSerialize (N : Nat) (m : RowVersionManager) (checkpointId : Nat) : List (Nat × ChunkVectorInfo) :=
  (List.range m.vectorInfo.length).filterMap fun vectorIdx =>
    match m.getChunkInfo vectorIdx with
    | some info => if info.hasDeletes N checkpointId then some (vectorIdx, info) else none
    | none => none

/-- `Checkpoint`: the manager after it; its storage pointers are the return value. -/
def checkpoint (N : Nat) (m : RowVersionManager) (checkpointId : Nat) : RowVersionManager :=
  match m.uncheckpointedDeleteCommit with
  | none => m
  | some last => { m with
      storagePointers := (m.toSerialize N checkpointId).map fun (vectorIdx, info) => (vectorIdx, info.write N checkpointId)
      uncheckpointedDeleteCommit := if last ≤ checkpointId then none else some last }

/-- One turn of the loop of `Deserialize`. -/
def readEntry (N : Nat) (m : RowVersionManager) (entry : Nat × StoredInfo) : Except ReadException RowVersionManager :=
  if entry.1 * N ≥ maxRowGroupSize then .error .vectorIndexOutOfRange
  else match ChunkVectorInfo.read N entry.2 with
    | .error e => .error e
    | .ok info => .ok { m.setInfo entry.1 info with
        needsCompressionCheck := m.needsCompressionCheck || info.any (·.recheckCompression) }

def deserialize (N : Nat) (storagePointers : List (Nat × StoredInfo)) :
    Except ReadException (Option RowVersionManager) :=
  if storagePointers.isEmpty then .ok none
  else (storagePointers.foldlM (readEntry N) { storagePointers }).map some

end RowVersionManager

/-! ## Runs of a row group -/

/-- The rows of an append that is not committed yet. -/
structure PendingAppend where
  transactionId : Nat
  start : Nat
  count : Nat
deriving DecidableEq, Repr

/-- The row lies in the append. -/
def PendingAppend.covers (p : PendingAppend) (row : Nat) : Prop := p.start ≤ row ∧ row < p.start + p.count

instance (p : PendingAppend) (row : Nat) : Decidable (p.covers row) := by
  unfold PendingAppend.covers
  infer_instance

/-- A row group as its version manager sees it: the manager, the row count and the appends that are
not committed. -/
structure RowGroup where
  versionInfo : RowVersionManager := {}
  count : Nat := 0
  pending : List PendingAppend := []

namespace RowGroup

/-- The calls on the version information of a row group. `reload` closes the database and opens the
row group again with `count` rows and the version information of the last checkpoint. -/
inductive Op where
  | appendVersionInfo (transactionId count : Nat)
  | commitAppend (p : PendingAppend) (commitId : Nat)
  | revertAppend (newCount : Nat)
  | cleanupAppend (lowestActiveTransaction start count : Nat)
  | deleteRows (vectorIdx transactionId : Nat) (rows : Nat → Nat) (count : Nat)
  | commitDelete (vectorIdx commitId : Nat) (info : DeleteInfo)
  | compressVersionIds (lowestActiveStart : Nat)
  | checkpoint (checkpointId : Nat)
  | reload (count : Nat)

/-- One call. -/
def step (N : Nat) (g : RowGroup) : Op → RowGroup
  | .appendVersionInfo transactionId count =>
    { versionInfo := g.versionInfo.appendVersionInfo N transactionId g.count (g.count + count)
      count := g.count + count
      pending := g.pending ++ [⟨transactionId, g.count, count⟩] }
  | .commitAppend p commitId =>
    { g with
      versionInfo := g.versionInfo.commitAppend N commitId p.start p.count
      pending := g.pending.erase p }
  | .revertAppend newCount =>
    { versionInfo := g.versionInfo.revertAppend N newCount
      count := newCount
      pending := g.pending.filter (·.start < newCount) }
  | .cleanupAppend lowest start count => { g with versionInfo := g.versionInfo.cleanupAppend N lowest start count }
  | .deleteRows vectorIdx transactionId rows count =>
    { g with versionInfo := (g.versionInfo.deleteRows N vectorIdx transactionId rows count).1 }
  | .commitDelete vectorIdx commitId info =>
    { g with versionInfo := g.versionInfo.commitDelete N vectorIdx commitId info }
  | .compressVersionIds lowest => { g with versionInfo := g.versionInfo.compressVersionIds N lowest }
  | .checkpoint checkpointId => { g with versionInfo := g.versionInfo.checkpoint N checkpointId }
  | .reload count => match RowVersionManager.deserialize N g.versionInfo.storagePointers with
    | .ok (some m) => { versionInfo := m, count }
    | .ok none => { versionInfo := {}, count }
    | .error _ => g

/-- What the callers guarantee. A transaction appends to a row group once, and its id is not used
by another append that is still open. Only open appends are committed; a revert cuts the row group
between appends, and not above its count; the appends that are open when an earlier one is cleaned
up come after it. Deletes name existing rows, at least one, and are committed with a commit id, a
transaction id or `NOT_DELETED_ID`. The bound of a compression is a start time. -/
def Allowed (N : Nat) (g : RowGroup) : Op → Prop
  | .appendVersionInfo transactionId count => 0 < count ∧ g.count + count ≤ maxRowGroupSize ∧
      transactionIdStart ≤ transactionId ∧ transactionId < notDeletedId ∧
      ∀ p ∈ g.pending, p.transactionId ≠ transactionId
  | .commitAppend p commitId => p ∈ g.pending ∧ commitId < transactionIdStart
  | .revertAppend newCount => newCount ≤ g.count ∧ ∀ p ∈ g.pending, p.start + p.count ≤ newCount ∨ newCount ≤ p.start
  | .cleanupAppend _ start count => start + count ≤ g.count ∧ ∀ p ∈ g.pending, start + count ≤ p.start
  | .deleteRows vectorIdx transactionId rows count => transactionIdStart ≤ transactionId ∧ transactionId < notDeletedId ∧
      0 < count ∧ ∀ i < count, rows i < N ∧ vectorIdx * N + rows i < g.count
  | .commitDelete vectorIdx commitId info => commitId ≤ notDeletedId ∧ 0 < info.count ∧
      ∀ row ∈ info.rowList, row < N ∧ vectorIdx * N + row < g.count
  | .compressVersionIds lowest => lowest ≤ transactionIdStart
  | .checkpoint _ => True
  | .reload count => count ≤ maxRowGroupSize

/-- The row groups that calls with these guarantees lead to, from an empty one. -/
def Reachable (N : Nat) (g : RowGroup) : Prop :=
  ∃ ops, Lib.Steps (step N) (Allowed N) {} ops ∧ Lib.run (step N) {} ops = g

end RowGroup

end Haybarn.Version
