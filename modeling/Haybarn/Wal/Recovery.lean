/-
What a crash may leave on the disk, and that a recovery deals with it: no marker, a marker of a checkpoint
whose header was not written, or one of a checkpoint whose header was. A recovery that crashes itself
leaves one of these again.
-/
import Haybarn.Wal.Torn

namespace Haybarn.Wal

open Lib List

variable {β : Type} {format : Format β} {db : DatabaseFile}

/-! ## Iterations -/

/-- The log is of the iteration of the database file. The headers of old files tell no iteration. -/
def Current (db : DatabaseFile) (h : UInt64) : Prop := db.versionNumber ≤ 66 ∨ h = db.checkpointIteration

/-- The log is one iteration behind the database file. -/
def Behind (db : DatabaseFile) (h : UInt64) : Prop := db.versionNumber ≤ 66 ∨ h + 1 = db.checkpointIteration

theorem headerIteration_old {iteration : Option UInt64} (h : db.versionNumber ≤ 66) : headerIteration db iteration = none :=
  if_neg (Nat.not_lt.2 h)

theorem headerIteration_cases (db : DatabaseFile) (h : UInt64) :
    headerIteration db (some h) = none ∨ headerIteration db (some h) = some h := by
  unfold headerIteration
  split
  · exact optionalIdx_toNat h
  · exact .inl rfl

theorem dbIdentifier_isEmpty (db : DatabaseFile) : db.dbIdentifier.isEmpty = false := by
  have h := db.identifier_length
  cases hd : db.dbIdentifier with
  | nil =>
    rw [hd] at h
    cases h
  | cons _ _ => rfl

theorem checkVersion_some (db : DatabaseFile) (h : UInt64) (state : ReplayState) :
    checkVersion db db.dbIdentifier (some h) state =
      if db.checkpointIteration ≠ h then
        if h + 1 = db.checkpointIteration then .ok { state with expectedCheckpointId := some db.checkpointIteration }
        else if state.isCheckpointWal ∧ h = db.checkpointIteration + 1 then .ok state
        else .error (.versionError h.toNat db.checkpointIteration.toNat)
      else .ok state := by
  unfold checkVersion
  simp only [dbIdentifier_isEmpty, Bool.false_eq_true, if_false, ne_eq, not_true_eq_false]

theorem Current.accepts {h : UInt64} (hc : Current db h) (isCheckpointWal : Bool) :
    Accepts db (some h) isCheckpointWal := by
  rcases hc with hold | rfl
  · intro state _
    rw [headerIteration_old hold]
    rfl
  · exact accepts_self rfl isCheckpointWal

theorem toNat_succ (i : UInt64) : (i + 1).toNat = (i.toNat + 1) % 2 ^ 64 := UInt64.toNat_add i 1

theorem succ_ne_self (i : UInt64) : i + 1 ≠ i := by
  intro h
  have hn := congrArg UInt64.toNat h
  rw [toNat_succ] at hn
  omega

theorem accepts_next (db : DatabaseFile) : Accepts db (some (db.checkpointIteration + 1)) true := by
  intro state hstate
  rcases headerIteration_cases db (db.checkpointIteration + 1) with h | h
  · rw [h]
    rfl
  · have hne : db.checkpointIteration ≠ db.checkpointIteration + 1 := fun h => succ_ne_self _ h.symm
    have hne' : ¬ db.checkpointIteration + 1 + 1 = db.checkpointIteration := by
      intro h
      have hn := congrArg UInt64.toNat h
      rw [toNat_succ, toNat_succ] at hn
      omega
    rw [h, checkVersion_some, if_pos hne, if_neg hne', if_pos ⟨hstate, rfl⟩]

theorem Behind.check {h : UInt64} (hb : Behind db h) (state : ReplayState) :
    ∃ expected, checkVersion db db.dbIdentifier (headerIteration db (some h)) state =
      .ok { state with expectedCheckpointId := expected } := by
  have hsame : ∀ state : ReplayState, (.ok state : Except WalException ReplayState) =
      .ok { state with expectedCheckpointId := state.expectedCheckpointId } := fun _ => rfl
  rcases hb with hold | hb
  · rw [headerIteration_old hold]
    exact ⟨_, hsame state⟩
  · rcases headerIteration_cases db h with hn | hn
    · rw [hn]
      exact ⟨_, hsame state⟩
    · have hne : db.checkpointIteration ≠ h := fun he => succ_ne_self h (hb.trans he)
      rw [hn, checkVersion_some, if_pos hne, if_pos hb]
      exact ⟨_, rfl⟩

/-! ## Files -/

/-- Transactions that a log has, none of which has an entry that the first pass executes. -/
def Written (format : Format β) (ts : List (Transaction β)) : Prop := ts ≠ [] ∧ ∀ t ∈ ts, t.Plain format

/-- The file has a log with these transactions. Before the first one there is no file, or an empty one. -/
def HoldsLog (format : Format β) (db : DatabaseFile) (h : UInt64) (ts : List (Transaction β)) (file : Option Bytes) : Prop :=
  (ts = [] ∧ (file = none ∨ file = some [])) ∨ (Written format ts ∧ file = some (logFile format db (some h) ts))

theorem HoldsLog.plain {h : UInt64} {ts : List (Transaction β)} {file : Option Bytes} (hlog : HoldsLog format db h ts file) :
    ∀ t ∈ ts, t.Plain format := by
  obtain ⟨rfl, -⟩ | ⟨hts, -⟩ := hlog
  · exact nofun
  · exact hts.2

/-- The main log ends with the marker of a checkpoint. -/
structure Marked (format : Format β) (disk : Disk β) (h : UInt64) (ts : List (Transaction β)) (m : MetaBlockPointer) :
    Prop where
  written : Written format ts
  valid : m.isValid = true
  file : disk.mainWal = some (logFile format disk.header (some h) ts ++ writeCheckpoint format m ++ writeFlush format)

/-- What a crash may leave, with the transactions that were committed. Without a marker, a checkpoint log does not
matter. -/
inductive Recoverable (format : Format β) (disk : Disk β) (committed : List (List β)) : Prop where
  | plain (h : UInt64) (ts : List (Transaction β)) (main : HoldsLog format disk.header h ts disk.mainWal)
      (current : ts ≠ [] → Current disk.header h) (state : committed = disk.data ++ ts.map (·.changes))
  | failed (h : UInt64) (ts us : List (Transaction β)) (m : MetaBlockPointer) (main : Marked format disk h ts m)
      (current : Current disk.header h) (root : m.blockPointer ≠ disk.header.metaBlock)
      (checkpoint : HoldsLog format disk.header (disk.header.checkpointIteration + 1) us disk.checkpointWal)
      (state : committed = disk.data ++ ts.map (·.changes) ++ us.map (·.changes))
  | finished (h : UInt64) (ts us : List (Transaction β)) (m : MetaBlockPointer) (main : Marked format disk h ts m)
      (behind : Behind disk.header h) (root : m.blockPointer = disk.header.metaBlock)
      (checkpoint : HoldsLog format disk.header disk.header.checkpointIteration us disk.checkpointWal)
      (state : committed = disk.data ++ us.map (·.changes))

/-- The database after a recovery: the committed transactions are in memory, the disk has no marker, and the
log that is returned is the main log. -/
structure Reopened (format : Format β) (committed : List (List β)) (log : WriteAheadLog) (r : Recovery β) : Prop where
  memory : r.memory = committed
  path : log.path = .main
  iteration : log.checkpointIteration = none
  ready : log.initState ≠ .uninitializedRequiresTruncate
  size : log.walSize = (r.disk.mainWal.getD []).length
  disk : ∃ h ts, HoldsLog format r.disk.header h ts r.disk.mainWal ∧ (ts ≠ [] → Current r.disk.header h) ∧
    committed = r.disk.data ++ ts.map (·.changes)

/-! ## Replaying whole logs -/

section Whole

variable {committed : List (List β)} {r : Recovery β} {I : Disk β → Prop} {h : UInt64} {ts : List (Transaction β)}

theorem replayLogWith_whole (format : Format β)
    (again : List (List β) → Bytes → WalPath → Recover β (Option WriteAheadLog)) (active : List (List β))
    {isCheckpointWal : Bool} (hdb : r.disk.header = db) (haccepts : Accepts db (some h) isCheckpointWal) (hts : Written format ts) :
    replayLogWith format {} again isCheckpointWal active (logFile format db (some h) ts) .main r =
      .ok (some {
          path := .main
          walSize := (logFile format db (some h) ts).length
          initState := .uninitialized })
        { r with memory := r.memory ++ ts.map (·.changes) } := by
  subst hdb
  obtain ⟨⟨scan, error, hscan, herror, hno, hexecuted⟩, replayed, hreplay, h1, h2, h3, h4, -⟩ :=
    passes_transactions haccepts hts.2 (.nil format)
  rw [append_nil] at hscan hreplay
  rw [replayLogWith_noCheckpoint (logFile_ne_nil _ _ _) hscan herror hno hexecuted hreplay h4, h1, h2, if_neg hts.1,
    if_pos (h3.2 ⟨hts.1, rfl⟩)]

/-! ## Replaying marked logs -/

/-- What the first pass finds in a marked log. -/
def markedScan (format : Format β) (db : DatabaseFile) (h : UInt64) (ts : List (Transaction β)) (m : MetaBlockPointer)
    (expected : Option UInt64) : CheckpointScan β :=
  let log := logFile format db (some h) ts
  let marked := log ++ writeCheckpoint format m
  { state := {
      isCheckpointWal := false
      checkpointId := m
      walVersion := 2
      currentPosition := some marked.length
      checkpointPosition := some log.length
      checkpointEndPosition := some marked.length
      expectedCheckpointId := expected }
    lastWalFlushEnd := (marked ++ writeFlush format).length
    checkpointTruncateOffset := log.length }

variable {m : MetaBlockPointer} {expected : Option UInt64}

theorem replayLog_marked (hmarked : Marked format r.disk h ts m)
    (hcheck : checkVersion r.disk.header r.disk.header.dbIdentifier (headerIteration r.disk.header (some h))
      { isCheckpointWal := false, walVersion := 2, currentPosition := some 0 } =
        .ok { isCheckpointWal := false, walVersion := 2, currentPosition := some 0, expectedCheckpointId := expected }) :
    let file := logFile format r.disk.header (some h) ts ++ writeCheckpoint format m ++ writeFlush format
    let scan := markedScan format r.disk.header h ts m expected
    let again := replayCheckpointLog format {} [[]]
    replayLog format {} file r =
      (match r.disk.checkpointWal with
        | none =>
          if m.blockPointer = r.disk.header.metaBlock then return none
          else replayRest format {} (replayCheckpointLog format {} []) false .main file scan true none
        | some checkpointWal =>
          if m.blockPointer = r.disk.header.metaBlock then do
            durable fun disk => { disk with mainWal := disk.checkpointWal, checkpointWal := none }
            again checkpointWal .main
          else do
            let merged ← mergeIntoRecoveryWal format r.disk.header scan.state file checkpointWal
            again merged .main : Recover β (Option WriteAheadLog)) r := by
  intro file scan again
  have hscan : scanLog format r.disk.header (fun executed => format.createType r.memory [executed]) false file =
      (scan, none) := scanLog_marker hcheck rfl rfl rfl hmarked.written.1 hmarked.written.2 m
  have hpos := writeFlush_pos format
  have hempty : ¬ file.isEmpty = true := fun h => by
    rw [(append_eq_nil_iff.1 (isEmpty_iff.1 h)).2] at hpos
    exact Nat.lt_irrefl 0 hpos
  have hdisk : (getDisk : Recover β (Disk β)) r = .ok r.disk r := rfl
  have hmemory : (getMemory : Recover β (List (List β))) r = .ok r.memory r := rfl
  unfold replayLog replayLogWith
  rw [if_neg hempty, bind_ok hdisk, bind_ok hmemory]
  dsimp only
  rw [hscan]
  have hvalid : scan.state.checkpointId.isValid = true ∧ scan.state.checkpointEndPosition.isSome = true :=
    ⟨hmarked.valid, rfl⟩
  have hend : ¬ scan.state.currentPosition ≠ scan.state.checkpointEndPosition := not_not.2 rfl
  dsimp only [Option.filter]
  rw [if_pos hvalid, if_neg nofun, if_neg hend]
  cases r.disk.checkpointWal with
  | none => rfl
  | some checkpointWal => rfl

theorem checkpointEntries_eq {us : List (Transaction β)} {checkpointWal : Bytes}
    (hlog : HoldsLog format db (db.checkpointIteration + 1) us (some checkpointWal)) :
    checkpointEntries format db 2 checkpointWal = .ok (us.flatMap (Transaction.write format)) := by
  unfold checkpointEntries
  rcases hlog with ⟨rfl, hnone | hempty⟩ | ⟨hus, hfile⟩
  · cases hnone
  · cases hempty
    rfl
  · obtain rfl := Option.some.inj hfile
    have hne : (logFile format db (some (db.checkpointIteration + 1)) us).length ≠ 0 := fun h =>
      logFile_ne_nil format _ us (length_eq_zero_iff.1 h)
    have hread := (reads_readHeader format (logFile format db (some (db.checkpointIteration + 1)) us).length
      (K := fun _ => True) (s := { isCheckpointWal := true }) rfl trivial trivial (accepts_next db _ rfl) trivial).whole
      (us.flatMap (Transaction.write format))
    rw [if_pos hne]
    unfold logFile at hread ⊢
    rw [hread]
    exact if_neg (not_not.2 rfl)

end Whole

/-! ## Recovery -/

section Recovery

variable {committed : List (List β)} {r : Recovery β}

theorem replay_ends_of_log {file : Bytes} (hfile : r.disk.mainWal = some file)
    (h : Ends (replayLog format {} file) r (Recoverable format · committed) fun log r' => match log with
      | some log => Reopened format committed log r'
      | none => Recoverable format r'.disk committed ∧ r'.memory = committed ∧ r'.disk.data = committed) :
    Ends (replay format {}) r (Recoverable format · committed) (Reopened format committed) := by
  have hdisk : (getDisk : Recover β (Disk β)) r = .ok r.disk r := rfl
  refine .congr (bind_ok hdisk) ?_
  rw [hfile]
  refine h.bind fun log r' hlog => ?_
  cases log with
  | some log => exact .of_ok rfl rfl hlog
  | none =>
    obtain ⟨hI, hmemory, hdata⟩ := hlog
    refine .durable hI fun _ => .of_ok rfl rfl ⟨hmemory, rfl, rfl, nofun, rfl, 0, [], ?_, nofun, ?_⟩
    · exact .inl ⟨rfl, .inl rfl⟩
    · exact (hdata.symm.trans (append_nil _).symm)

variable {h : UInt64} {ts : List (Transaction β)} {m : MetaBlockPointer}

theorem replay_ends_plain
    (hlog : HoldsLog format r.disk.header h ts r.disk.mainWal) (hcurrent : ts ≠ [] → Current r.disk.header h)
    (hmemory : r.memory = r.disk.data) (hstate : committed = r.disk.data ++ ts.map (·.changes)) :
    Ends (replay format {}) r (Recoverable format · committed) (Reopened format committed) := by
  have hI : Recoverable format r.disk committed := .plain h ts hlog hcurrent hstate
  rcases hlog with ⟨rfl, hnone | hempty⟩ | ⟨hts, hfile⟩
  · -- there is no log
    have hreplay : replay format {} r = .ok { path := .main } r := by
      have hdisk : (getDisk : Recover β (Disk β)) r = .ok r.disk r := rfl
      unfold replay
      rw [bind_ok hdisk, hnone]
      rfl
    refine .of_ok hreplay rfl ⟨?_, rfl, rfl, nofun, by rw [hnone]; rfl, h, [], .inl ⟨rfl, .inl hnone⟩, nofun, hstate⟩
    rw [hmemory, hstate, map_nil, append_nil]
  · -- the log is empty
    have hdata : committed = r.disk.data := by rw [hstate, map_nil, append_nil]
    refine replay_ends_of_log hempty (.of_ok rfl rfl ⟨hI, ?_, hdata.symm⟩)
    rw [hmemory, hdata]
  · have hwhole := replayLogWith_whole format (replayCheckpointLog format {}) [] rfl ((hcurrent hts.1).accepts false) hts
    refine replay_ends_of_log hfile (.of_ok hwhole rfl ⟨?_, rfl, rfl, nofun, ?_, h, ts, .inr ⟨hts, hfile⟩, hcurrent, hstate⟩)
    · rw [hstate, hmemory]
    · rw [hfile]
      rfl

theorem replay_ends_failed
    (hmarked : Marked format r.disk h ts m) (hcurrent : Current r.disk.header h)
    (hroot : m.blockPointer ≠ r.disk.header.metaBlock) (hnone : r.disk.checkpointWal = none)
    (hmemory : r.memory = r.disk.data) (hstate : committed = r.disk.data ++ ts.map (·.changes)) :
    Ends (replay format {}) r (Recoverable format · committed) (Reopened format committed) := by
  have hI : Recoverable format r.disk committed := by
    refine .failed h ts [] m hmarked hcurrent hroot (.inl ⟨rfl, .inl hnone⟩) ?_
    rw [hstate, map_nil, append_nil]
  refine replay_ends_of_log hmarked.file (.congr (replayLog_marked hmarked (hcurrent.accepts false _ rfl)) ?_)
  rw [hnone]
  dsimp only
  rw [if_neg hroot]
  unfold replayRest markedScan
  dsimp only
  rw [if_pos rfl]
  have htake : (logFile format r.disk.header (some h) ts ++ writeCheckpoint format m ++ writeFlush format).take
      (logFile format r.disk.header (some h) ts).length = logFile format r.disk.header (some h) ts := by
    rw [append_assoc, take_left]
  have hoffset : ¬ (logFile format r.disk.header (some h) ts).length = 0 := fun h0 =>
    logFile_ne_nil format _ ts (length_eq_zero_iff.1 h0)
  rw [htake]
  refine .durable hI fun untilCrash => ?_
  rw [if_neg hoffset]
  obtain ⟨-, replayed, hreplay, h1, h2, h3, h4, -⟩ :=
    @passes_transactions β format _ (fun _ _ => none) _ _ (hcurrent.accepts false) ts hmarked.written.2 _ (.nil format)
  rw [append_nil] at hreplay
  refine .of_ok (replayTransactions_eq hreplay h4) rfl ⟨?_, rfl, rfl, ?_, ?_, h, ts, .inr ⟨hmarked.written, rfl⟩,
    fun _ => hcurrent, hstate⟩
  · rw [hstate, h1, hmemory]
  · rw [if_pos (h3.2 ⟨hmarked.written.1, rfl⟩)]
    exact nofun
  · rw [h2, if_neg hmarked.written.1]
    rfl

theorem replay_ends_merge {us : List (Transaction β)} {checkpointWal : Bytes}
    (hmarked : Marked format r.disk h ts m) (hcurrent : Current r.disk.header h)
    (hroot : m.blockPointer ≠ r.disk.header.metaBlock) (hsome : r.disk.checkpointWal = some checkpointWal)
    (hlog : HoldsLog format r.disk.header (r.disk.header.checkpointIteration + 1) us (some checkpointWal))
    (hmemory : r.memory = r.disk.data)
    (hstate : committed = r.disk.data ++ ts.map (·.changes) ++ us.map (·.changes)) :
    Ends (replay format {}) r (Recoverable format · committed) (Reopened format committed) := by
  have hI : ∀ recoveryWal, Recoverable format { r.disk with recoveryWal } committed := fun recoveryWal =>
    .failed h ts us m ⟨hmarked.written, hmarked.valid, hmarked.file⟩ hcurrent hroot (hsome ▸ hlog) hstate
  have hne : Written format (ts ++ us) := ⟨append_ne_nil_of_left_ne_nil hmarked.written.1 us, fun t ht =>
    (mem_append.1 ht).elim (hmarked.written.2 t) (hlog.plain t)⟩
  have hmerged : logFile format r.disk.header (some h) ts ++ us.flatMap (Transaction.write format) =
      logFile format r.disk.header (some h) (ts ++ us) := by
    rw [logFile, logFile, flatMap_append, append_assoc]
  have htake : (logFile format r.disk.header (some h) ts ++ writeCheckpoint format m ++ writeFlush format).take
      (logFile format r.disk.header (some h) ts).length = logFile format r.disk.header (some h) ts := by
    rw [append_assoc, take_left]
  have hstate' : committed = r.disk.data ++ (ts ++ us).map (·.changes) := by
    rw [hstate, map_append, append_assoc]
  have hplain : ∀ checkpointWal recoveryWal, Recoverable format { r.disk with
      mainWal := some (logFile format r.disk.header (some h) (ts ++ us)), checkpointWal, recoveryWal } committed :=
    fun _ _ => .plain h (ts ++ us) (.inr ⟨hne, rfl⟩) (fun _ => hcurrent) hstate'
  refine replay_ends_of_log hmarked.file (.congr (replayLog_marked hmarked (hcurrent.accepts false _ rfl)) ?_)
  rw [hsome]
  dsimp only
  rw [if_neg hroot]
  unfold mergeIntoRecoveryWal markedScan
  dsimp only
  rw [checkpointEntries_eq hlog]
  dsimp only [Option.getD_some]
  rw [htake, hmerged, bind_assoc]
  refine .durable (hI _) fun _ => ?_
  rw [bind_assoc]
  refine .durable (hI _) fun _ => ?_
  rw [bind_assoc]
  refine .durable (hI _) fun _ => ?_
  rw [bind_assoc]
  refine .durable (hplain _ _) fun _ => ?_
  rw [pure_bind]
  refine .of_ok (replayLogWith_whole format _ _ rfl (hcurrent.accepts true) hne) rfl ⟨?_, rfl, rfl, ?_, rfl, h, ts ++ us,
    .inr ⟨hne, rfl⟩, fun _ => hcurrent, hstate'⟩
  · rw [hstate', hmemory]
  · intro htruncate
    cases htruncate

theorem replay_ends_finished {us : List (Transaction β)}
    (hmarked : Marked format r.disk h ts m) (hbehind : Behind r.disk.header h)
    (hroot : m.blockPointer = r.disk.header.metaBlock)
    (hlog : HoldsLog format r.disk.header r.disk.header.checkpointIteration us r.disk.checkpointWal)
    (hmemory : r.memory = r.disk.data) (hstate : committed = r.disk.data ++ us.map (·.changes)) :
    Ends (replay format {}) r (Recoverable format · committed) (Reopened format committed) := by
  have hI : Recoverable format r.disk committed := .finished h ts us m hmarked hbehind hroot hlog hstate
  have hcurrent : Current r.disk.header r.disk.header.checkpointIteration := .inr rfl
  obtain ⟨expected, hcheck⟩ := hbehind.check { isCheckpointWal := false, walVersion := 2, currentPosition := some 0 }
  refine replay_ends_of_log hmarked.file (.congr (replayLog_marked hmarked hcheck) ?_)
  cases hc : r.disk.checkpointWal with
  | none =>
    -- the log is not needed any more
    rw [hc] at hlog
    obtain ⟨rfl, -⟩ | ⟨-, hfile⟩ := hlog
    · rw [map_nil, append_nil] at hstate
      rw [if_pos hroot]
      exact .of_ok rfl rfl ⟨hI, hmemory.trans hstate.symm, hstate.symm⟩
    · cases hfile
  | some checkpointWal =>
    rw [hc] at hlog
    dsimp only
    rw [if_pos hroot]
    refine .durable hI fun _ => ?_
    have hplain : ∀ recoveryWal, Recoverable format
        { r.disk with mainWal := some checkpointWal, checkpointWal := none, recoveryWal } committed := fun _ =>
      .plain r.disk.header.checkpointIteration us hlog (fun _ => hcurrent) hstate
    rw [hc]
    obtain ⟨rfl, hfile | hfile⟩ | ⟨hus, hfile⟩ := hlog
    · cases hfile
    · cases hfile
      rw [map_nil, append_nil] at hstate
      exact .of_ok rfl rfl ⟨hplain _, hmemory.trans hstate.symm, hstate.symm⟩
    · obtain rfl := Option.some.inj hfile
      refine .of_ok (replayLogWith_whole format _ _ rfl (hcurrent.accepts true) hus) rfl ⟨?_, rfl, rfl, nofun, rfl,
        r.disk.header.checkpointIteration, us, .inr ⟨hus, rfl⟩, fun _ => hcurrent, hstate⟩
      rw [hstate, hmemory]

theorem replay_ends (hrecoverable : Recoverable format r.disk committed) (hmemory : r.memory = r.disk.data) :
    Ends (replay format {}) r (Recoverable format · committed) (Reopened format committed) := by
  cases hrecoverable with
  | plain h ts hlog hcurrent hstate => exact replay_ends_plain hlog hcurrent hmemory hstate
  | failed h ts us m hmarked hcurrent hroot hlog hstate =>
    cases hc : r.disk.checkpointWal with
    | none =>
      rw [hc] at hlog
      obtain ⟨rfl, -⟩ | ⟨-, hfile⟩ := hlog
      · rw [map_nil, append_nil] at hstate
        exact replay_ends_failed hmarked hcurrent hroot hc hmemory hstate
      · cases hfile
    | some checkpointWal =>
      rw [hc] at hlog
      exact replay_ends_merge hmarked hcurrent hroot hc hlog hmemory hstate
  | finished h ts us m hmarked hbehind hroot hlog hstate =>
    exact replay_ends_finished hmarked hbehind hroot hlog hmemory hstate

end Recovery

end Haybarn.Wal
