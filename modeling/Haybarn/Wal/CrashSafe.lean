/-
The checkpoint protocol is crash safe, as long as the machine does not crash between the marker and the
removal of an old checkpoint log, nothing is committed to an empty log while a checkpoint is written, and
no transaction creates a type, which the first pass over a log would do already.
-/
import Haybarn.Wal.Protocol
import Haybarn.Wal.Recovery

namespace Haybarn.Wal

open Lib List

variable {β : Type} {format : Format β}

/-! ## Logs in use -/

/-- The log in use is the main log, which has these transactions. -/
structure MainLog (format : Format β) (disk : Disk β) (log : WriteAheadLog) (ts : List (Transaction β)) : Prop where
  path : log.path = .main
  iteration : log.checkpointIteration = none
  ready : log.initState ≠ .uninitializedRequiresTruncate
  size : log.walSize = (disk.mainWal.getD []).length
  holds : ∃ h, HoldsLog format disk.header h ts disk.mainWal ∧ (ts ≠ [] → Current disk.header h)

/-- The log in use is a checkpoint log of this iteration. A log that has not been opened has no file. -/
structure CheckpointLog (format : Format β) (disk : Disk β) (log : WriteAheadLog) (i : UInt64)
    (us : List (Transaction β)) : Prop where
  path : log.path = .checkpoint
  iteration : log.checkpointIteration = some i
  ready : log.initState ≠ .uninitializedRequiresTruncate
  opened : log.initState = .initialized ∨ disk.checkpointWal = none
  holds : HoldsLog format disk.header i us disk.checkpointWal

section Logs

variable {disk : Disk β} {db : DatabaseFile} {log : WriteAheadLog} {ts us : List (Transaction β)} {h i : UInt64}
  {file : Option Bytes}

theorem initializeWriter_ready (hready : log.initState ≠ .uninitializedRequiresTruncate) (file : Option Bytes) :
    (log.initializeWriter file).2 = file.getD [] := by
  unfold WriteAheadLog.initializeWriter
  split
  · rfl
  · next hs => exact absurd hs hready
  · rfl

theorem initializeWriter_size (hready : log.initState ≠ .uninitializedRequiresTruncate)
    (hsize : log.walSize = (file.getD []).length) : (log.initializeWriter file).1.walSize = (file.getD []).length := by
  unfold WriteAheadLog.initializeWriter
  split
  · exact hsize
  · next hs => exact absurd hs hready
  · rfl

theorem initialized_ready (h : log.initState = .initialized) : log.initState ≠ .uninitializedRequiresTruncate := by
  rw [h]
  exact nofun

theorem append_fst (log : WriteAheadLog) (db : DatabaseFile) (file : Option Bytes) (entries : Bytes) :
    (log.append db file entries).1.initState = .initialized ∧ (log.append db file entries).1.path = log.path ∧
      (log.append db file entries).1.checkpointIteration = log.checkpointIteration ∧
      (log.append db file entries).1.walSize = (log.append db file entries).2.length := by
  obtain ⟨hinit, hpath, hiteration⟩ := initializeWriter_fst log file
  exact ⟨hinit, hpath, hiteration, rfl⟩

theorem HoldsLog.opened (hlog : HoldsLog format db h ts file) : HoldsLog format db h ts (some (file.getD [])) := by
  rcases hlog with ⟨rfl, rfl | rfl⟩ | ⟨hts, rfl⟩
  · exact .inl ⟨rfl, .inr rfl⟩
  · exact .inl ⟨rfl, .inr rfl⟩
  · exact .inr ⟨hts, rfl⟩

theorem HoldsLog.length_eq_zero (hlog : HoldsLog format db h ts file) : (file.getD []).length = 0 ↔ ts = [] := by
  rcases hlog with ⟨rfl, rfl | rfl⟩ | ⟨hts, rfl⟩
  · exact iff_of_true rfl rfl
  · exact iff_of_true rfl rfl
  · refine iff_of_false (fun h0 => ?_) hts.1
    exact logFile_ne_nil format _ ts (length_eq_zero_iff.1 h0)

theorem HoldsLog.append (hlog : HoldsLog format db h ts file) (hts : ts ≠ [])
    (hready : log.initState ≠ .uninitializedRequiresTruncate) (entries : Bytes) :
    (log.append db file entries).2 = logFile format db (some h) ts ++ entries := by
  rcases hlog with ⟨hnil, -⟩ | ⟨-, rfl⟩
  · exact absurd hnil hts
  · rw [append_snd, initializeWriter_ready hready, Option.getD_some,
      isEmpty_of_pos (length_pos_of_ne_nil (logFile_ne_nil format _ ts))]
    rfl

theorem HoldsLog.commit (hlog : HoldsLog format db h ts file) (hready : log.initState ≠ .uninitializedRequiresTruncate)
    {t : Transaction β} (ht : t.Plain format) (hi : log.checkpointIteration.getD db.checkpointIteration = i) :
    HoldsLog format db (if ts = [] then i else h) (ts ++ [t]) (some (log.append db file (t.write format)).2) := by
  have hplain : ∀ t' ∈ ts ++ [t], t'.Plain format := forall_mem_append.2 ⟨hlog.plain, forall_mem_singleton.2 ht⟩
  refine .inr ⟨⟨append_ne_nil_of_right_ne_nil ts (cons_ne_nil t []), hplain⟩, congrArg some ?_⟩
  have hone : (ts ++ [t]).flatMap (Transaction.write format) = ts.flatMap (Transaction.write format) ++ t.write format := by
    rw [flatMap_append, flatMap_cons, flatMap_nil, append_nil]
  by_cases hts : ts = []
  · rw [if_pos hts]
    have hempty : (file.getD []).isEmpty = true := isEmpty_iff.2 (length_eq_zero_iff.1 (hlog.length_eq_zero.2 hts))
    have hheader : writeHeader db log.checkpointIteration = writeHeader db (some i) := by
      unfold writeHeader
      rw [hi]
      rfl
    rw [append_snd, initializeWriter_ready hready, if_pos hempty, hheader, logFile, hone, hts]
    rfl
  · rw [if_neg hts, hlog.append hts hready, logFile, logFile, hone, append_assoc]

theorem MainLog.wal (hlog : MainLog format disk log ts) : disk.wal log.path = disk.mainWal := by
  rw [hlog.path]
  rfl

theorem MainLog.empty_iff (hlog : MainLog format disk log ts) : log.walSize = 0 ↔ ts = [] := by
  obtain ⟨h, hholds, -⟩ := hlog.holds
  rw [hlog.size]
  exact hholds.length_eq_zero

theorem MainLog.openLog (hlog : MainLog format disk log ts) :
    MainLog format (disk.setWal log.path (some (log.initializeWriter (disk.wal log.path)).2))
      (log.initializeWriter (disk.wal log.path)).1 ts := by
  obtain ⟨hinit, hpath, hiteration⟩ := initializeWriter_fst log disk.mainWal
  obtain ⟨h, hholds, hcurrent⟩ := hlog.holds
  rw [hlog.wal, initializeWriter_ready hlog.ready, hlog.path]
  exact ⟨hpath.trans hlog.path, hiteration.trans hlog.iteration, initialized_ready hinit,
    initializeWriter_size hlog.ready hlog.size, h, hholds.opened, hcurrent⟩

theorem MainLog.commit (hlog : MainLog format disk log ts) {t : Transaction β} (ht : t.Plain format) :
    MainLog format (disk.setWal log.path (some (log.append disk.header (disk.wal log.path) (t.write format)).2))
      (log.append disk.header (disk.wal log.path) (t.write format)).1 (ts ++ [t]) := by
  obtain ⟨hinit, hpath, hiteration, hsize⟩ := append_fst log disk.header disk.mainWal (t.write format)
  obtain ⟨h, hholds, hcurrent⟩ := hlog.holds
  have hi : log.checkpointIteration.getD disk.header.checkpointIteration = disk.header.checkpointIteration := by
    rw [hlog.iteration]
    rfl
  rw [hlog.wal, hlog.path]
  refine ⟨hpath.trans hlog.path, hiteration.trans hlog.iteration, initialized_ready hinit, hsize, _,
    hholds.commit hlog.ready ht hi, fun _ => ?_⟩
  split
  · exact .inr rfl
  · next hts => exact hcurrent hts

theorem MainLog.mark (hlog : MainLog format disk log ts) (hts : ts ≠ []) {m : MetaBlockPointer} (hm : m.isValid = true) :
    ∃ h, Current disk.header h ∧ Marked format (disk.setWal log.path (some (log.append disk.header (disk.wal log.path)
      (writeCheckpoint format m ++ writeFlush format)).2)) h ts m := by
  obtain ⟨h, hholds, hcurrent⟩ := hlog.holds
  refine ⟨h, hcurrent hts, ⟨hts, hholds.plain⟩, hm, ?_⟩
  rw [hlog.wal, hlog.path, hholds.append hts hlog.ready, ← append_assoc]
  rfl

theorem CheckpointLog.wal (hlog : CheckpointLog format disk log i us) : disk.wal log.path = disk.checkpointWal := by
  rw [hlog.path]
  rfl

theorem CheckpointLog.openLog (hlog : CheckpointLog format disk log i us) :
    CheckpointLog format (disk.setWal log.path (some (log.initializeWriter (disk.wal log.path)).2))
      (log.initializeWriter (disk.wal log.path)).1 i us := by
  obtain ⟨hinit, hpath, hiteration⟩ := initializeWriter_fst log disk.checkpointWal
  rw [hlog.wal, initializeWriter_ready hlog.ready, hlog.path]
  exact ⟨hpath.trans hlog.path, hiteration.trans hlog.iteration, initialized_ready hinit, .inl hinit, hlog.holds.opened⟩

theorem CheckpointLog.commit (hlog : CheckpointLog format disk log i us) {t : Transaction β} (ht : t.Plain format) :
    CheckpointLog format (disk.setWal log.path (some (log.append disk.header (disk.wal log.path) (t.write format)).2))
      (log.append disk.header (disk.wal log.path) (t.write format)).1 i (us ++ [t]) := by
  obtain ⟨hinit, hpath, hiteration, -⟩ := append_fst log disk.header disk.checkpointWal (t.write format)
  have hi : log.checkpointIteration.getD disk.header.checkpointIteration = i := by
    rw [hlog.iteration]
    rfl
  have hholds := hlog.holds.commit hlog.ready ht hi
  rw [ite_self] at hholds
  rw [hlog.wal, hlog.path]
  exact ⟨hpath.trans hlog.path, hiteration.trans hlog.iteration, initialized_ready hinit, .inl hinit, hholds⟩

end Logs

/-! ## The invariant -/

/-- The running database: what the files, the log in use and the checkpoint have to do with each other. The
transaction that a checkpoint commits keeps others from being committed, so that it comes last. -/
inductive Live (format : Format β) (disk : Disk β) (committed : List (List β)) (log : WriteAheadLog) :
    Option (ActiveCheckpoint β) → Prop where
  | idle (ts : List (Transaction β)) (main : MainLog format disk log ts)
      (state : committed = disk.data ++ ts.map (·.changes)) : Live format disk committed log none
  | marked (h : UInt64) (ts : List (Transaction β)) (m : MetaBlockPointer) (skipped : Option (Transaction β))
      (main : Marked format disk h ts m) (current : Current disk.header h) (root : m.blockPointer ≠ disk.header.metaBlock)
      (state : committed = disk.data ++ ts.map (·.changes)) :
      Live format disk committed log (some ⟨m, committed ++ skipped.toList.map (·.changes), skipped, true, .marked⟩)
  | writing (h : UInt64) (ts us : List (Transaction β)) (m : MetaBlockPointer) (skipped : Option (Transaction β))
      (main : Marked format disk h ts m) (current : Current disk.header h) (root : m.blockPointer ≠ disk.header.metaBlock)
      (checkpoint : CheckpointLog format disk log (disk.header.checkpointIteration + 1) us)
      (last : skipped.isSome → us = [])
      (state : committed = disk.data ++ ts.map (·.changes) ++ us.map (·.changes)) :
      Live format disk committed log
        (some ⟨m, disk.data ++ ts.map (·.changes) ++ skipped.toList.map (·.changes), skipped, true, .writing⟩)
  | unmarked (ts : List (Transaction β)) (m : MetaBlockPointer) (skipped : Option (Transaction β))
      (main : MainLog format disk log ts) (last : skipped.isSome → ts = [])
      (state : committed = disk.data ++ ts.map (·.changes)) :
      Live format disk committed log (some ⟨m, disk.data ++ skipped.toList.map (·.changes), skipped, false, .writing⟩)
  | written (h : UInt64) (ts us : List (Transaction β)) (m : MetaBlockPointer) (included : List (List β))
      (skipped : Option (Transaction β))
      (main : Marked format disk h ts m) (behind : Behind disk.header h) (root : m.blockPointer = disk.header.metaBlock)
      (checkpoint : CheckpointLog format disk log disk.header.checkpointIteration us)
      (state : committed = disk.data ++ us.map (·.changes)) :
      Live format disk committed log (some ⟨m, included, skipped, true, .written⟩)
  | unmarkedWritten (ts : List (Transaction β)) (m : MetaBlockPointer) (included : List (List β))
      (skipped : Option (Transaction β)) (main : MainLog format disk log ts)
      (state : committed = disk.data ++ ts.map (·.changes)) :
      Live format disk committed log (some ⟨m, included, skipped, false, .written⟩)

/-- The committed transactions are in memory while the database runs, and can be recovered when it does not. -/
structure Database.Inv (format : Format β) (s : Database β) : Prop where
  closed : s.running = none → Recoverable format s.disk s.committed
  transactions : ∀ running ∈ s.running, running.transactions = s.committed
  live : ∀ running ∈ s.running, Live format s.disk s.committed running.log running.checkpoint

/-- What is required of a step besides that it is allowed. No `CREATE TYPE` is written to a log. A crash does not hit a checkpoint that has flushed its
marker and has not removed an old checkpoint log with entries yet. And a checkpoint that found the log empty does
not write its header after other transactions have been written to that log, except for files whose log headers have
no iteration. -/
def Database.safe (format : Format β) (s : Database β) : Op β → Bool
  | .commit t => t.changes.all (format.type · ≠ .createType)
  | .crash => s.running.all fun running => running.checkpoint.all fun checkpoint =>
      checkpoint.phase ≠ .marked || (s.disk.checkpointWal.getD []).isEmpty
  | .writeHeader => s.running.all fun running => running.checkpoint.all fun checkpoint =>
      checkpoint.hasWal || (s.disk.mainWal.getD []).isEmpty || s.disk.header.versionNumber ≤ 66
  | _ => true

/-! ## Steps keep the invariant -/

section Steps

variable {s : Database β} {running : Running β} {disk : Disk β} {committed : List (List β)} {log : WriteAheadLog}
  {checkpoint : Option (ActiveCheckpoint β)}

theorem Live.crash (hlive : Live format disk committed log checkpoint)
    (hsafe : checkpoint.all fun c => c.phase ≠ .marked || (disk.checkpointWal.getD []).isEmpty) :
    Recoverable format disk committed := by
  cases hlive with
  | idle ts hmain hstate | unmarked ts m skipped hmain _ hstate | unmarkedWritten ts m included skipped hmain hstate =>
    obtain ⟨h, hholds, hcurrent⟩ := hmain.holds
    exact .plain h ts hholds hcurrent hstate
  | marked h ts m skipped hmain hcurrent hroot hstate =>
    have hempty : HoldsLog format disk.header (disk.header.checkpointIteration + 1) [] disk.checkpointWal := by
      have hempty : (disk.checkpointWal.getD []).isEmpty = true := by simpa using hsafe
      cases hc : disk.checkpointWal with
      | none => exact .inl ⟨rfl, .inl rfl⟩
      | some file =>
        rw [hc] at hempty
        exact .inl ⟨rfl, .inr (congrArg some (isEmpty_iff.1 hempty))⟩
    refine .failed h ts [] m hmain hcurrent hroot hempty ?_
    rw [hstate, map_nil, append_nil]
  | writing h ts us m skipped hmain hcurrent hroot hcheckpoint _ hstate =>
    exact .failed h ts us m hmain hcurrent hroot hcheckpoint.holds hstate
  | written h ts us m included skipped hmain hbehind hroot hcheckpoint hstate =>
    exact .finished h ts us m hmain hbehind hroot hcheckpoint.holds hstate

theorem Live.openLog (hlive : Live format disk committed log checkpoint)
    (hphase : checkpoint.all fun c => c.phase ≠ .marked) :
    Live format (disk.setWal log.path (some (log.initializeWriter (disk.wal log.path)).2)) committed
      (log.initializeWriter (disk.wal log.path)).1 checkpoint := by
  obtain ⟨path, size, initState, iteration⟩ := log
  cases hlive with
  | idle ts hmain hstate =>
    obtain rfl : path = .main := hmain.path
    exact .idle ts hmain.openLog hstate
  | marked => cases hphase
  | writing h ts us m skipped hmain hcurrent hroot hcheckpoint hlast hstate =>
    obtain rfl : path = .checkpoint := hcheckpoint.path
    exact .writing h ts us m skipped ⟨hmain.written, hmain.valid, hmain.file⟩ hcurrent hroot hcheckpoint.openLog hlast hstate
  | unmarked ts m skipped hmain hlast hstate =>
    obtain rfl : path = .main := hmain.path
    exact .unmarked ts m skipped hmain.openLog hlast hstate
  | written h ts us m included skipped hmain hbehind hroot hcheckpoint hstate =>
    obtain rfl : path = .checkpoint := hcheckpoint.path
    exact .written h ts us m included skipped ⟨hmain.written, hmain.valid, hmain.file⟩ hbehind hroot hcheckpoint.openLog hstate
  | unmarkedWritten ts m included skipped hmain hstate =>
    obtain rfl : path = .main := hmain.path
    exact .unmarkedWritten ts m included skipped hmain.openLog hstate

theorem changes_append {data : List (List β)} {ts : List (Transaction β)} (t : Transaction β)
    (h : committed = data ++ ts.map (·.changes)) : committed ++ [t.changes] = data ++ (ts ++ [t]).map (·.changes) := by
  rw [h, map_append, append_assoc]
  rfl

theorem Live.commit (hlive : Live format disk committed log checkpoint)
    (hallowed : checkpoint.all fun c => c.phase ≠ .marked && c.skipped.isNone) {t : Transaction β}
    (ht : t.Plain format) :
    Live format (disk.setWal log.path (some (log.append disk.header (disk.wal log.path) (t.write format)).2))
      (committed ++ [t.changes]) (log.append disk.header (disk.wal log.path) (t.write format)).1 checkpoint := by
  obtain ⟨path, size, initState, iteration⟩ := log
  cases hlive with
  | idle ts hmain hstate =>
    obtain rfl : path = .main := hmain.path
    exact .idle _ (hmain.commit ht) (changes_append t hstate)
  | marked => cases hallowed
  | writing h ts us m skipped hmain hcurrent hroot hcheckpoint _ hstate =>
    obtain rfl : path = .checkpoint := hcheckpoint.path
    obtain rfl : skipped = none := Option.isNone_iff_eq_none.1 hallowed
    exact .writing h ts _ m none ⟨hmain.written, hmain.valid, hmain.file⟩ hcurrent hroot (hcheckpoint.commit ht) nofun
      (changes_append t hstate)
  | unmarked ts m skipped hmain _ hstate =>
    obtain rfl : path = .main := hmain.path
    obtain rfl : skipped = none := Option.isNone_iff_eq_none.1 hallowed
    exact .unmarked _ m none (hmain.commit ht) nofun (changes_append t hstate)
  | written h ts us m included skipped hmain hbehind hroot hcheckpoint hstate =>
    obtain rfl : path = .checkpoint := hcheckpoint.path
    exact .written h ts _ m included skipped ⟨hmain.written, hmain.valid, hmain.file⟩ hbehind hroot (hcheckpoint.commit ht)
      (changes_append t hstate)
  | unmarkedWritten ts m included skipped hmain hstate =>
    obtain rfl : path = .main := hmain.path
    exact .unmarkedWritten _ m included skipped (hmain.commit ht) (changes_append t hstate)

theorem Database.Inv.of_running {s' : Database β} (hrunning : s'.running = some running)
    (htransactions : running.transactions = s'.committed)
    (hlive : Live format s'.disk s'.committed running.log running.checkpoint) : s'.Inv format := by
  refine ⟨fun h => ?_, fun r hr => ?_, fun r hr => ?_⟩
  · rw [hrunning] at h
    cases h
  · obtain rfl := Option.some.inj (hrunning.symm.trans hr)
    exact htransactions
  · obtain rfl := Option.some.inj (hrunning.symm.trans hr)
    exact hlive

theorem inv_startCheckpoint (hinv : s.Inv format) (hrunning : s.running = some running)
    (hnone : running.checkpoint = none) {m : MetaBlockPointer} (hm : m.isValid = true)
    (hroot : m.blockPointer ≠ s.disk.header.metaBlock) (skipped : Option (Transaction β)) :
    (s.startCheckpoint format running m skipped).Inv format := by
  have hlive := hinv.live running hrunning
  obtain ⟨⟨path, size, initState, iteration⟩, transactions, checkpoint⟩ := running
  obtain rfl : checkpoint = none := hnone
  have htransactions : transactions = s.committed := hinv.transactions _ hrunning
  cases hlive with | idle ts hmain hstate =>
  obtain rfl : path = .main := hmain.path
  unfold Database.startCheckpoint
  split
  · next hsize =>
    obtain rfl := hmain.empty_iff.1 hsize
    refine .of_running rfl htransactions ?_
    have hdata : transactions = s.disk.data := by
      rw [htransactions, hstate, map_nil, append_nil]
    dsimp only
    rw [hdata]
    exact .unmarked [] m skipped hmain (fun _ => rfl) hstate
  · next hsize =>
    obtain ⟨h, hcurrent, hmarked⟩ := hmain.mark (mt hmain.empty_iff.2 hsize) hm
    refine .of_running rfl htransactions ?_
    dsimp only
    rw [htransactions]
    exact .marked h ts m skipped hmarked hcurrent hroot hstate

variable {c : ActiveCheckpoint β}

theorem inv_removeCheckpointWal (hinv : s.Inv format) (hrunning : s.running = some running)
    (hc : running.checkpoint = some c) (hphase : c.phase = .marked) :
    (s.removeCheckpointWal running c).Inv format := by
  have htransactions := hinv.transactions running hrunning
  have hlive := hinv.live running hrunning
  rw [hc] at hlive
  cases hlive with
  | marked h ts m skipped hmain hcurrent hroot hstate =>
    refine .of_running rfl htransactions ?_
    have hlog : CheckpointLog format { s.disk with checkpointWal := none }
        { path := .checkpoint, checkpointIteration := some (s.disk.header.checkpointIteration + 1) }
        (s.disk.header.checkpointIteration + 1) [] := ⟨rfl, rfl, nofun, .inr rfl, .inl ⟨rfl, .inl rfl⟩⟩
    have hnil : s.disk.data ++ ts.map (·.changes) =
        s.disk.data ++ ts.map (·.changes) ++ ([] : List (Transaction β)).map (·.changes) := (append_nil _).symm
    unfold Database.removeCheckpointWal
    dsimp only
    rw [hstate]
    exact .writing h ts [] m skipped ⟨hmain.written, hmain.valid, hmain.file⟩ hcurrent hroot hlog (fun _ => rfl) hnil
  | writing | unmarked | written | unmarkedWritten => cases hphase

theorem inv_writeHeader (hinv : s.Inv format) (hrunning : s.running = some running)
    (hc : running.checkpoint = some c) (hphase : c.phase = .writing)
    (hsafe : (c.hasWal || (s.disk.mainWal.getD []).isEmpty || s.disk.header.versionNumber ≤ 66) = true) :
    (s.writeHeader running c).Inv format := by
  have htransactions := hinv.transactions running hrunning
  have hlive := hinv.live running hrunning
  rw [hc] at hlive
  refine .of_running rfl (congrArg (· ++ c.skipped.toList.map (·.changes)) htransactions) ?_
  cases hlive with
  | writing h ts us m skipped hmain hcurrent hroot hcheckpoint hlast hstate =>
    refine .written h ts us m _ skipped ⟨hmain.written, hmain.valid, hmain.file⟩ ?_ rfl
      ⟨hcheckpoint.path, hcheckpoint.iteration, hcheckpoint.ready, hcheckpoint.opened, hcheckpoint.holds⟩ ?_
    · rcases hcurrent with hold | rfl
      · exact .inl hold
      · exact .inr rfl
    · show s.committed ++ skipped.toList.map (·.changes) =
        s.disk.data ++ ts.map (·.changes) ++ skipped.toList.map (·.changes) ++ us.map (·.changes)
      cases skipped with
      | none =>
        rw [hstate, Option.toList_none, map_nil, append_nil, append_nil]
      | some t =>
        rw [hstate, hlast rfl, map_nil, append_nil, append_nil]
  | unmarked ts m skipped hmain hlast hstate =>
    obtain ⟨h, hholds, hcurrent⟩ := hmain.holds
    refine .unmarkedWritten ts m _ skipped
      ⟨hmain.path, hmain.iteration, hmain.ready, hmain.size, h, hholds, fun hts => .inl ?_⟩ ?_
    · -- the log has entries, so that its header must not tell an iteration
      have hfile : ¬ (s.disk.mainWal.getD []).isEmpty = true := fun hempty =>
        hts (hholds.length_eq_zero.1 (length_eq_zero_iff.2 (isEmpty_iff.1 hempty)))
      show s.disk.header.versionNumber ≤ 66
      simpa [hfile] using hsafe
    · show s.committed ++ skipped.toList.map (·.changes) =
        s.disk.data ++ skipped.toList.map (·.changes) ++ ts.map (·.changes)
      cases skipped with
      | none => rw [hstate, Option.toList_none, map_nil, append_nil, append_nil]
      | some t => rw [hstate, hlast rfl, map_nil, append_nil, append_nil]
  | marked | written | unmarkedWritten => cases hphase

theorem inv_finishCheckpoint (hinv : s.Inv format) (hrunning : s.running = some running)
    (hc : running.checkpoint = some c) (hphase : c.phase = .written) :
    (s.finishCheckpoint running c).Inv format := by
  have htransactions := hinv.transactions running hrunning
  have hlive := hinv.live running hrunning
  rw [hc] at hlive
  unfold Database.finishCheckpoint
  cases hlive with
  | written h ts us m included skipped hmain hbehind hroot hcheckpoint hstate =>
    rw [if_pos rfl]
    split
    · -- the checkpoint log becomes the main log
      exact .of_running rfl htransactions
        (.idle us ⟨rfl, rfl, nofun, rfl, _, hcheckpoint.holds, fun _ => .inr rfl⟩ hstate)
    · next hinit =>
      -- there was no write to the checkpoint log
      have hnone := hcheckpoint.opened.resolve_left hinit
      have hholds := hcheckpoint.holds
      rw [hnone] at hholds
      obtain ⟨rfl, -⟩ | ⟨-, hfile⟩ := hholds
      · exact .of_running rfl htransactions (.idle [] ⟨rfl, rfl, nofun, rfl, h, .inl ⟨rfl, .inl rfl⟩, nofun⟩ hstate)
      · cases hfile
  | unmarkedWritten ts m included skipped hmain hstate =>
    rw [if_neg nofun]
    exact .of_running rfl htransactions (.idle ts hmain hstate)
  | marked | writing | unmarked => cases hphase

theorem inv_recover (hinv : s.Inv format) (hnone : s.running = none) (untilCrash : Option Nat) :
    (s.recover format untilCrash).Inv format := by
  have hends := replay_ends (r := ⟨s.disk, s.disk.data, untilCrash⟩) (hinv.closed hnone) rfl
  unfold Ends at hends
  unfold Database.recover
  split
  · next log r hreplay =>
    rw [hreplay] at hends
    obtain ⟨⟨hmemory, hpath, hiteration, hready, hsize, h, ts, hholds, hcurrent, hstate⟩, -⟩ := hends
    exact .of_running rfl hmemory (.idle ts ⟨hpath, hiteration, hready, hsize, h, hholds, hcurrent⟩ hstate)
  · next e r hreplay =>
    rw [hreplay] at hends
    have hcrash : ∀ running, running ∉ s.running := fun running h => by
      rw [hnone] at h
      cases h
    cases e with
    | crash => exact ⟨fun _ => hends.1, fun r hr => absurd hr (hcrash r), fun r hr => absurd hr (hcrash r)⟩
    | exception e => exact hends.elim

theorem inv_step (hinv : s.Inv format) {op : Op β} (hallowed : s.allowed op = true) (hsafe : s.safe format op = true) :
    (s.step format op).Inv format := by
  obtain ⟨disk, running, committed⟩ := s
  cases running with
  | none =>
    cases op with
    | recover untilCrash => exact inv_recover hinv rfl untilCrash
    | _ => cases hallowed
  | some running =>
    obtain ⟨log, transactions, checkpoint⟩ := running
    have htransactions := hinv.transactions _ rfl
    have hlive := hinv.live _ rfl
    cases op with
    | recover untilCrash => cases hallowed
    | crash => exact ⟨fun _ => hlive.crash hsafe, nofun, nofun⟩
    | openLog =>
      have hphase : checkpoint.all fun c => c.phase ≠ .marked := by
        cases checkpoint with
        | none => rfl
        | some c => exact (Bool.and_eq_true_iff.1 hallowed).1
      exact .of_running rfl htransactions (hlive.openLog hphase)
    | commit t =>
      exact .of_running rfl (congrArg (· ++ [t.changes]) htransactions) (hlive.commit hallowed (by simpa [Database.safe, Transaction.Plain] using hsafe))
    | startCheckpoint m skipped =>
      obtain ⟨⟨hnone, hm⟩, hroot⟩ : (checkpoint = none ∧ m.isValid = true) ∧ m.blockPointer ≠ disk.header.metaBlock := by
        simpa [Database.allowed] using hallowed
      exact inv_startCheckpoint hinv rfl hnone hm hroot skipped
    | removeCheckpointWal =>
      obtain ⟨c, rfl, hphase⟩ := (Option.any_eq_true ..).1 hallowed
      exact inv_removeCheckpointWal hinv rfl rfl (of_decide_eq_true hphase)
    | writeHeader =>
      obtain ⟨c, rfl, hphase⟩ := (Option.any_eq_true ..).1 hallowed
      exact inv_writeHeader hinv rfl rfl (of_decide_eq_true hphase) hsafe
    | finishCheckpoint =>
      obtain ⟨c, rfl, hphase⟩ := (Option.any_eq_true ..).1 hallowed
      exact inv_finishCheckpoint hinv rfl rfl (of_decide_eq_true hphase)

end Steps

/-! ## Runs -/

theorem inv_loaded (format : Format β) (header : DatabaseFile) (data : List (List β)) :
    (Database.loaded header data).Inv format :=
  ⟨fun _ => .plain 0 [] (.inl ⟨rfl, .inl rfl⟩) nofun (append_nil data).symm, nofun, nofun⟩

theorem Database.Inv.recovers {s : Database β} (hinv : s.Inv format) (hnone : s.running = none) : s.Recovers format := by
  obtain ⟨log, r, hreplay, hreopened⟩ := (replay_ends (r := ⟨s.disk, s.disk.data, none⟩) (hinv.closed hnone) rfl).ok rfl
  exact ⟨log, r, hreplay, hreopened.memory⟩

/-- The checkpoint protocol is crash safe in every run whose steps are all safe: after a crash at any point, also one
in a recovery, the database can be opened and has exactly the committed transactions, in the order of the commits;
and so has the database while it runs. -/
theorem checkpoint_crash_safe (format : Format β) (header : DatabaseFile) (data : List (List β)) (ops : List (Op β))
    (hops : Steps (Database.step format) (fun s op => s.allowed op = true ∧ s.safe format op = true)
      (Database.loaded header data) ops) :
    Along (Database.step format)
      (fun s => (s.running = none → s.Recovers format) ∧ ∀ running ∈ s.running, running.transactions = s.committed)
      (Database.loaded header data) ops := by
  have halong : ∀ (s : Database β) (ops : List (Op β)), s.Inv format →
      Steps (Database.step format) (fun s op => s.allowed op = true ∧ s.safe format op = true) s ops →
      Along (Database.step format)
        (fun s => (s.running = none → s.Recovers format) ∧ ∀ running ∈ s.running, running.transactions = s.committed)
        s ops := by
    intro s ops
    induction ops generalizing s with
    | nil => exact fun hinv _ => ⟨hinv.recovers, hinv.transactions⟩
    | cons op ops ih =>
      rintro hinv ⟨⟨hallowed, hsafe⟩, hops⟩
      exact ⟨⟨hinv.recovers, hinv.transactions⟩, ih _ (inv_step hinv hallowed hsafe) hops⟩
  exact halong _ ops (inv_loaded format header data) hops

/-- A log of single bytes. -/
def byteFormat : Format UInt8 where
  checksum bytes := UInt64.ofNat (wordValue bytes)
  type _ := .insertTuple
  serialize b := [b]
  deserialize
    | _, [] => .error .serialization
    | _, b :: rest => .ok (b, rest)
  readEncrypted := throw .invalidEntryType
  createType _ _ _ := none
  isChange _ := rfl
  deserialize_serialize _ := rfl
  small _ := show 1 + 256 < 2 ^ 64 by decide

/-- The transaction that writes one byte. -/
def byteTransaction (b : UInt8) : Transaction UInt8 := ⟨[b], nofun⟩

/-- A checkpoint with a concurrent commit that crashes before its header is written, a recovery that crashes after
the merged log has replaced the main one, and a whole checkpoint. -/
def safeRun : List (Op UInt8) :=
  [.recover none, .commit (byteTransaction 1), .startCheckpoint ⟨1, 0⟩ none, .removeCheckpointWal,
    .commit (byteTransaction 2), .crash, .recover (some 3), .recover none, .startCheckpoint ⟨2, 0⟩ none,
    .removeCheckpointWal, .commit (byteTransaction 3), .writeHeader, .crash, .recover none]

theorem checkpoint_crash_safe_twoCheckpoints :
    Along (Database.step byteFormat) (fun s => (s.running = none → s.Recovers byteFormat) ∧
      ∀ running ∈ s.running, running.transactions = s.committed) (Database.loaded newFile []) safeRun :=
  checkpoint_crash_safe byteFormat newFile [] safeRun (by decide +kernel)

/-- The same, but the second checkpoint is hit by a crash between the marker and the removal of the checkpoint log
that the first recovery left. -/
def staleLogRun : List (Op UInt8) :=
  [.recover none, .commit (byteTransaction 1), .startCheckpoint ⟨1, 0⟩ none, .removeCheckpointWal,
    .commit (byteTransaction 2), .crash, .recover (some 3), .recover none, .startCheckpoint ⟨2, 0⟩ none, .crash]

/-- The transaction in the old checkpoint log is applied twice. -/
theorem stale_checkpoint_log_applied_twice :
    Steps (Database.step byteFormat) (fun s op => s.allowed op = true) (Database.loaded newFile []) staleLogRun ∧
    (run (Database.step byteFormat) (Database.loaded newFile []) staleLogRun).running.isNone = true ∧
    ¬ (run (Database.step byteFormat) (Database.loaded newFile []) staleLogRun).Recovers byteFormat := by
  decide +kernel

-- The other unsafe step: a checkpoint that found no log writes its header after a commit to the log, whose header has
-- the iteration before it and no marker.
example : ¬ (run (Database.step byteFormat) (Database.loaded newFile [])
    [.recover none, .startCheckpoint ⟨1, 0⟩ none, .commit (byteTransaction 1), .writeHeader, .crash]).Recovers
    byteFormat := by
  decide +kernel

end Haybarn.Wal
