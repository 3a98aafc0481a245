/-
Recovery from a torn log. Of a log that ends anywhere, exactly the transactions that were flushed are
replayed, and the log can be written to again.
-/
import Haybarn.Wal.Scan

namespace Haybarn.Wal

open Lib List

variable {β : Type} {format : Format β}

/-- A log with the header for the database file and these transactions. -/
def logFile (format : Format β) (db : DatabaseFile) (iteration : Option UInt64) (ts : List (Transaction β)) : Bytes :=
  writeHeader db iteration ++ ts.flatMap (Transaction.write format)

/-! ## Replaying a file -/

section Replaying

variable {db : DatabaseFile} {create : List β → β → Option ExceptionType} {isCheckpointWal : Bool} {iteration : Option UInt64}

theorem passes_tornHeader (format : Format β) (haccepts : Accepts db iteration isCheckpointWal) {cut : Bytes}
    (hcut : cut <+: writeHeader db iteration) (hne : cut ≠ writeHeader db iteration) :
    (∃ scan e, scanLog format db create isCheckpointWal cut = (scan, some e) ∧ e.Torn ∧ NoCheckpoint scan.state ∧
        scan.executed = []) ∧
      ∃ e, replayFile format db isCheckpointWal cut [] = ⟨[], 0, false, some e⟩ ∧ e.Torn := by
  have hno : ∀ version position, NoCheckpoint
      { isCheckpointWal, walVersion := version, currentPosition := position : ReplayState } :=
    fun _ _ => ⟨rfl, rfl, rfl⟩
  constructor
  · obtain ⟨e, source, herror, he, hs⟩ := (reads_readHeader format cut.length rfl
      (hno 1 (some (cut.length - cut.length))) (hno 2 _) (haccepts _ rfl) (hno 2 _)).torn cut hcut hne
    exact ⟨_, e, scanLoop_error herror, he, hs, rfl⟩
  · obtain ⟨e, source, herror, he, -⟩ := (reads_readHeader format cut.length rfl (hno 1 none) (hno 2 _)
      (haccepts _ rfl) (hno 2 _)).torn cut hcut hne
    exact ⟨e, replayLoop_error herror, he⟩

theorem passes_transactions (haccepts : Accepts db iteration isCheckpointWal) {ts : List (Transaction β)}
    (hplain : ∀ t ∈ ts, t.Plain format) {cut : Bytes} (hcut : TornInput format cut) :
    (∃ scan error, scanLog format db create isCheckpointWal (logFile format db iteration ts ++ cut) = (scan, error) ∧
      (∀ e ∈ error, e.Torn) ∧ NoCheckpoint scan.state ∧ scan.executed = []) ∧
    ∃ replayed, replayFile format db isCheckpointWal (logFile format db iteration ts ++ cut) [] = replayed ∧
      replayed.committed = ts.map (·.changes) ∧
      replayed.successfulOffset = (if ts = [] then 0 else (logFile format db iteration ts).length) ∧
      (replayed.allSucceeded = true ↔ ts ≠ [] ∧ cut = []) ∧
      (∀ e ∈ replayed.error, e.Torn) ∧ (replayed.allSucceeded = true → replayed.error = none) := by
  have hpos := writeHeader_pos db iteration
  have hlen : (ts.flatMap (Transaction.write format) ++ cut).length <
      (writeHeader db iteration ++ (ts.flatMap (Transaction.write format) ++ cut)).length := by
    simp only [length_append]
    omega
  have hend : (writeHeader db iteration ++ (ts.flatMap (Transaction.write format) ++ cut)).length - cut.length =
      (logFile format db iteration ts).length := by
    rw [← append_assoc, length_append, Nat.add_sub_cancel]
    rfl
  unfold logFile
  rw [append_assoc]
  constructor
  · rw [scanLog_header (haccepts _ rfl) rfl]
    exact scanLoop_transactions hcut hplain rfl ⟨rfl, rfl, rfl⟩ hlen
  · rw [replayFile_header haccepts]
    have hversion : ({ isCheckpointWal, walVersion := 2 } : ReplayState).walVersion = 2 := rfl
    obtain ⟨replayed, hr, h1, h2, h3, h4, h5⟩ := replayLoop_transactions hcut hversion hlen
    refine ⟨replayed, hr, h1, ?_, h3, h4, h5⟩
    rw [h2, hend]
    rfl

theorem replayTransactions_eq {again : Bytes → WalPath → Recover β (Option WriteAheadLog)} {path : WalPath}
    {r : Recovery β} {file : Bytes} {replayed : Replayed β}
    (hreplay : replayFile format r.disk.header isCheckpointWal file [] = replayed)
    (htorn : ∀ e ∈ replayed.error, e.Torn) :
    replayTransactions format {} again isCheckpointWal path file [] none r =
      .ok (some {
          path
          walSize := replayed.successfulOffset
          initState := if replayed.allSucceeded then .uninitialized else .uninitializedRequiresTruncate })
        { r with memory := r.memory ++ replayed.committed } := by
  have hdisk : (getDisk : Recover β (Disk β)) r = .ok r.disk r := rfl
  unfold replayTransactions
  rw [bind_ok hdisk, hreplay]
  cases hr : replayed.error with
  | none => rfl
  | some e =>
    have htype : e.type = .serialization := htorn e hr
    have hnot : ¬ (false = true ∨ e.type ≠ .serialization) := fun h => h.elim nofun fun h => h htype
    show (if false = true ∨ e.type ≠ .serialization then _ else _ : Recover β (Option WriteAheadLog)) _ = _
    rw [if_neg hnot]
    rfl

theorem replayLogWith_noCheckpoint {again : List (List β) → Bytes → WalPath → Recover β (Option WriteAheadLog)}
    {active : List (List β)} {path : WalPath} {r : Recovery β} {file : Bytes} {scan : CheckpointScan β}
    {error : Option WalException} (hfile : file ≠ [])
    (hscan : scanLog format r.disk.header (fun executed => format.createType r.memory (executed :: active))
      isCheckpointWal file = (scan, error)) (herror : ∀ e ∈ error, e.Torn)
    (hno : NoCheckpoint scan.state) (hexecuted : scan.executed = []) {replayed : Replayed β}
    (hreplay : replayFile format r.disk.header isCheckpointWal file [] = replayed)
    (htorn : ∀ e ∈ replayed.error, e.Torn) :
    replayLogWith format {} again isCheckpointWal active file path r =
      .ok (some {
          path
          walSize := replayed.successfulOffset
          initState := if replayed.allSucceeded then .uninitialized else .uninitializedRequiresTruncate })
        { r with memory := r.memory ++ replayed.committed } := by
  have hempty : ¬ file.isEmpty = true := fun h => hfile (isEmpty_iff.1 h)
  have hfilter : error.filter (·.type ≠ .serialization) = none := by
    cases error with
    | none => rfl
    | some e => exact Option.filter_some_neg (by simpa [WalException.Torn] using herror e rfl)
  have hmarker : ¬ (scan.state.checkpointId.isValid = true ∧ scan.state.checkpointEndPosition.isSome = true) := by
    rw [hno.id]
    exact fun h => nomatch h.1
  have hdisk : (getDisk : Recover β (Disk β)) r = .ok r.disk r := rfl
  have hmemory : (getMemory : Recover β (List (List β))) r = .ok r.memory r := rfl
  unfold replayLogWith
  rw [if_neg hempty, bind_ok hdisk, bind_ok hmemory]
  dsimp only
  rw [hscan]
  dsimp only
  rw [hfilter]
  dsimp only
  rw [if_neg hmarker]
  unfold replayRest
  rw [hno.expected, hexecuted]
  simp only [Bool.false_eq_true, if_false]
  exact replayTransactions_eq hreplay htorn

end Replaying

/-! ## Cutting a log -/

/-- No `CREATE TYPE` entry of the transactions ends within so many bytes. -/
def CreatesNoType (format : Format β) (ts : List (Transaction β)) (n : Nat) : Prop :=
  ∀ before t after, ts = before ++ t :: after →
    Unreached format t.changes (n - (before.flatMap (Transaction.write format)).length)

theorem CreatesNoType.tail {t : Transaction β} {ts : List (Transaction β)} {input : Bytes}
    (h : CreatesNoType format (t :: ts) (t.write format ++ input).length) :
    t.Plain format ∧ CreatesNoType format ts input.length := by
  constructor
  · intro b hb htype
    obtain ⟨before, after, hchanges⟩ := append_of_mem hb
    have hlt := h [] t ts rfl before b after hchanges htype
    rw [Transaction.write, hchanges, flatMap_append, flatMap_cons] at hlt
    simp only [length_append, flatMap_append, flatMap_cons, flatMap_nil, length_nil] at hlt
    omega
  · rintro before t' after rfl
    have h := h (t :: before) t' after rfl
    rwa [flatMap_cons, length_append, length_append, Nat.add_sub_add_left] at h

theorem cut_transactions : ∀ {ts : List (Transaction β)} {input : Bytes}, input <+: ts.flatMap (Transaction.write format) →
    CreatesNoType format ts input.length →
    ∃ k cut, k ≤ ts.length ∧ input = (ts.take k).flatMap (Transaction.write format) ++ cut ∧ TornInput format cut ∧
      (∀ t ∈ ts.take k, t.Plain format) ∧ ∀ i < ts.length, i < k ↔ ((ts.take (i + 1)).flatMap (Transaction.write format)).length ≤ input.length
  | [], input, h, _ => by
    obtain rfl := prefix_nil.1 h
    exact ⟨0, [], Nat.le_refl 0, rfl, .nil format, nofun, fun i hi => absurd hi (Nat.not_lt_zero i)⟩
  | t :: ts, input, h, hcreates => by
    rw [flatMap_cons] at h
    by_cases hlong : t.write format <+: input
    · obtain ⟨input, rfl⟩ := hlong
      obtain ⟨k, cut, hk, rfl, hcut, hplain, hends⟩ :=
        cut_transactions ((prefix_append_right_inj _).1 h) hcreates.tail.2
      refine ⟨k + 1, cut, Nat.succ_le_succ hk, ?_, hcut, ?_, fun i hi => ?_⟩
      · rw [take_succ_cons, flatMap_cons, append_assoc]
      · rw [take_succ_cons]
        exact forall_mem_cons.2 ⟨hcreates.tail.1, hplain⟩
      · simp only [take_succ_cons, flatMap_cons, length_append]
        cases i with
        | zero => simp
        | succ i =>
          have hend := hends i (Nat.lt_of_succ_lt_succ hi)
          rw [length_append] at hend
          omega
    · have hpre : input <+: t.write format :=
        (List.prefix_or_prefix_of_prefix h (prefix_append _ _)).resolve_right hlong
      have hne : input ≠ t.write format := fun heq => hlong (heq ▸ prefix_rfl)
      refine ⟨0, input, Nat.zero_le _, rfl, ⟨t.changes, hpre, hne, hcreates [] t ts rfl⟩, nofun, fun i _ => ?_⟩
      have hlt : input.length < (t.write format).length := by
        have := hpre.length_le
        have : input.length ≠ (t.write format).length := fun h => hne (hpre.eq_of_length h)
        omega
      refine iff_of_false (Nat.not_lt_zero i) (Nat.not_le.2 ?_)
      rw [take_succ_cons, flatMap_cons, length_append]
      omega

/-! ## Writing to the log again -/

section Writing

variable {db : DatabaseFile}

theorem initializeWriter_fst (log : WriteAheadLog) (file : Option Bytes) :
    (log.initializeWriter file).1.initState = .initialized ∧ (log.initializeWriter file).1.path = log.path ∧
      (log.initializeWriter file).1.checkpointIteration = log.checkpointIteration := by
  unfold WriteAheadLog.initializeWriter
  split
  · next h => exact ⟨h, rfl, rfl⟩
  · exact ⟨rfl, rfl, rfl⟩
  · exact ⟨rfl, rfl, rfl⟩

theorem append_snd (log : WriteAheadLog) (file : Option Bytes) (entries : Bytes) :
    (log.append db file entries).2 = (if (log.initializeWriter file).2.isEmpty then
      writeHeader db log.checkpointIteration else (log.initializeWriter file).2) ++ entries := by
  rw [← (initializeWriter_fst log file).2.2]
  rfl

theorem writeTransactions_initialized : ∀ {log : WriteAheadLog} {file : Bytes} (ts : List (Transaction β)),
    log.initState = .initialized → file ≠ [] →
    log.writeTransactions format db (some file) ts = some (file ++ ts.flatMap (Transaction.write format))
  | log, file, [], _, _ => by rw [flatMap_nil, append_nil]; rfl
  | log, file, t :: ts, hlog, hfile => by
    have hopened : (log.initializeWriter (some file)).2 = file := by
      unfold WriteAheadLog.initializeWriter
      rw [hlog]
      rfl
    have happend : (log.append db (some file) (t.write format)).2 = file ++ t.write format := by
      rw [append_snd, hopened, isEmpty_of_pos (length_pos_of_ne_nil hfile)]
      rfl
    rw [WriteAheadLog.writeTransactions, happend, flatMap_cons, ← append_assoc]
    exact writeTransactions_initialized ts (initializeWriter_fst log (some file)).1
      (append_ne_nil_of_left_ne_nil hfile _)

theorem writeTransactions_cons {log : WriteAheadLog} {file : Option Bytes} {opened : Bytes}
    (hopened : (log.initializeWriter file).2 = opened) (t : Transaction β) (ts : List (Transaction β)) :
    log.writeTransactions format db file (t :: ts) =
      some ((if opened.isEmpty then writeHeader db log.checkpointIteration else opened) ++
        (t :: ts).flatMap (Transaction.write format)) := by
  have hpos := t.write_pos format
  rw [WriteAheadLog.writeTransactions, flatMap_cons, ← append_assoc, append_snd, hopened]
  refine writeTransactions_initialized ts (initializeWriter_fst log file).1 fun hnil => ?_
  rw [(append_eq_nil_iff.1 hnil).2] at hpos
  exact Nat.lt_irrefl 0 hpos

end Writing

/-! ## Torn logs -/

section Torn

variable {db : DatabaseFile}

theorem logFile_ne_nil (format : Format β) (iteration : Option UInt64) (ts : List (Transaction β)) :
    logFile format db iteration ts ≠ [] := by
  have hpos := writeHeader_pos db iteration
  intro h
  rw [(append_eq_nil_iff.1 h).1] at hpos
  exact Nat.lt_irrefl 0 hpos

/-- A replay that is done with the log file: its `k` first transactions are in memory, and the log that is
returned continues behind them. -/
structure Recovered (format : Format β) (r : Recovery β) (ts : List (Transaction β)) (log : WriteAheadLog)
    (r' : Recovery β) : Prop where
  transactions : r'.memory = r.memory ++ ts.map (·.changes)
  file : r'.disk = r.disk ∨ ts = [] ∧ r'.disk = r.disk.setWal .main none
  more : ∀ t more, log.writeTransactions format r.disk.header r'.disk.mainWal (t :: more) =
    some (logFile format r.disk.header none (ts ++ t :: more))

variable {r : Recovery β}

theorem replay_eq {file : Bytes} (hfile : r.disk.mainWal = some file) {log : WriteAheadLog}
    {r' : Recovery β} (h : replayLog format {} file r = .ok (some log) r') : replay format {} r = .ok log r' := by
  have hdisk : (getDisk : Recover β (Disk β)) r = .ok r.disk r := rfl
  unfold replay
  rw [bind_ok hdisk, hfile]
  exact bind_ok h

theorem replay_transactions {ts : List (Transaction β)} (hplain : ∀ t ∈ ts, t.Plain format) {cut : Bytes}
    (hcut : TornInput format cut)
    (hfile : r.disk.mainWal = some (logFile format r.disk.header none ts ++ cut)) :
    ∃ log r', replay format {} r = .ok log r' ∧ Recovered format r ts log r' := by
  have haccepts : Accepts r.disk.header none false := accepts_self rfl false
  obtain ⟨⟨scan, error, hscan, herror, hno, hexecuted⟩, replayed, hreplay, h1, h2, h3, h4, h5⟩ :=
    passes_transactions haccepts hplain hcut
  have hne : logFile format r.disk.header none ts ++ cut ≠ [] :=
    append_ne_nil_of_left_ne_nil (logFile_ne_nil format none ts) cut
  refine ⟨_, _, replay_eq hfile (replayLogWith_noCheckpoint hne hscan herror hno hexecuted hreplay h4), ?_, .inl rfl, ?_⟩
  · rw [h1]
  · intro t more
    have hmore : logFile format r.disk.header none (ts ++ t :: more) =
        logFile format r.disk.header none ts ++ (t :: more).flatMap (Transaction.write format) := by
      rw [logFile, flatMap_append, ← append_assoc]
      rfl
    by_cases hts : ts = []
    · -- nothing is left, and the header is written anew
      have hnot : ¬ replayed.allSucceeded = true := fun h => (h3.1 h).1 hts
      rw [h2, if_pos hts, if_neg hnot, hts]
      exact writeTransactions_cons rfl t more
    · have hpos : 0 < (logFile format r.disk.header none ts).length := length_pos_of_ne_nil (logFile_ne_nil format none ts)
      have hopened : (({
          path := .main
          walSize := replayed.successfulOffset
          initState := if replayed.allSucceeded then .uninitialized else .uninitializedRequiresTruncate } :
          WriteAheadLog).initializeWriter r.disk.mainWal).2 = logFile format r.disk.header none ts := by
        rw [h2, if_neg hts, hfile]
        by_cases hend : cut = []
        · rw [if_pos (h3.2 ⟨hts, hend⟩), hend, append_nil]
          rfl
        · rw [if_neg fun h => hend (h3.1 h).2]
          exact take_left
      rw [writeTransactions_cons hopened, isEmpty_of_pos hpos, hmore]
      rfl

theorem replay_tornHeader (hcrash : r.untilCrash = none) {cut : Bytes}
    (hcut : cut <+: writeHeader r.disk.header none) (hne : cut ≠ writeHeader r.disk.header none)
    (hfile : r.disk.mainWal = some cut) :
    ∃ log r', replay format {} r = .ok log r' ∧ Recovered format r [] log r' := by
  by_cases hempty : cut = []
  · -- the file is removed
    subst hempty
    have hdisk : (getDisk : Recover β (Disk β)) r = .ok r.disk r := rfl
    have hnone : replayLog format {} [] r = .ok none r := rfl
    have hremove : (durable (·.setWal .main none) : Recover β Unit) r =
        .ok () { r with disk := r.disk.setWal .main none } := by
      unfold durable
      rw [hcrash]
    refine ⟨{ path := .main }, { r with disk := r.disk.setWal .main none }, ?_, (append_nil _).symm,
      .inr ⟨rfl, rfl⟩, fun t more => ?_⟩
    · unfold replay
      rw [bind_ok hdisk, hfile]
      dsimp only
      rw [bind_ok hnone]
      exact bind_ok hremove
    · exact writeTransactions_cons rfl t more
  · have haccepts : Accepts r.disk.header none false := accepts_self rfl false
    obtain ⟨⟨scan, e, hscan, he, hno, hexecuted⟩, e', hreplay, he'⟩ := passes_tornHeader format haccepts hcut hne
    have herror : ∀ e'' ∈ some e, e''.Torn := fun e'' h => Option.some.inj h ▸ he
    have htorn : ∀ e'' ∈ some e', e''.Torn := fun e'' h => Option.some.inj h ▸ he'
    refine ⟨_, _, replay_eq hfile (replayLogWith_noCheckpoint hempty hscan herror hno hexecuted hreplay htorn), rfl,
      .inl rfl, ?_⟩
    intro t more
    exact writeTransactions_cons rfl t more

theorem replay_cut (hcrash : r.untilCrash = none) {ts : List (Transaction β)} {file : Bytes}
    (hfile : r.disk.mainWal = some file) (hcut : file <+: logFile format r.disk.header none ts)
    (hcreates : CreatesNoType format ts (file.length - (writeHeader r.disk.header none).length)) :
    ∃ k log r', k ≤ ts.length ∧
      (∀ i < ts.length, i < k ↔ (logFile format r.disk.header none (ts.take (i + 1))).length ≤ file.length) ∧
      replay format {} r = .ok log r' ∧ Recovered format r (ts.take k) log r' ∧
      ∀ t ∈ ts.take k, t.Plain format := by
  by_cases hheader : writeHeader r.disk.header none <+: file
  · obtain ⟨input, rfl⟩ := hheader
    rw [length_append, Nat.add_sub_cancel_left] at hcreates
    obtain ⟨k, cut, hk, rfl, htorn, hplain, hends⟩ := cut_transactions ((prefix_append_right_inj _).1 hcut) hcreates
    have hfile' : r.disk.mainWal = some (logFile format r.disk.header none (ts.take k) ++ cut) := by
      rw [hfile, logFile, append_assoc]
    obtain ⟨log, r', h, hrecovered⟩ := replay_transactions hplain htorn hfile'
    refine ⟨k, log, r', hk, fun i hi => ?_, h, hrecovered, hplain⟩
    have hlen := hends i hi
    simp only [logFile, length_append] at hlen ⊢
    omega
  · have hpre : file <+: writeHeader r.disk.header none :=
      (List.prefix_or_prefix_of_prefix hcut (prefix_append _ _)).resolve_right hheader
    have hne : file ≠ writeHeader r.disk.header none := fun h => hheader (h ▸ prefix_rfl)
    obtain ⟨log, r', h, hrecovered⟩ := replay_tornHeader hcrash hpre hne hfile
    refine ⟨0, log, r', Nat.zero_le _, fun i _ => ?_, h, hrecovered, nofun⟩
    have hlt : file.length < (writeHeader r.disk.header none).length := by
      have := hpre.length_le
      have : file.length ≠ (writeHeader r.disk.header none).length := fun h => hne (hpre.eq_of_length h)
      omega
    refine iff_of_false (Nat.not_lt_zero i) (Nat.not_le.2 ?_)
    simp only [logFile, length_append]
    omega

theorem CreatesNoType.mono {ts : List (Transaction β)} {n m : Nat} (h : CreatesNoType format ts n) (hle : m ≤ n) :
    CreatesNoType format ts m := by
  intro before t after hts c b later hchanges hb
  have hlt := h before t after hts c b later hchanges hb
  omega

theorem length_logFile_take (header : DatabaseFile) (ts : List (Transaction β)) (i : Nat) :
    (logFile format header none (ts.take i)).length ≤ (logFile format header none ts).length := by
  have hpre : ((ts.take i).flatMap (Transaction.write format)).length ≤ (ts.flatMap (Transaction.write format)).length := by
    conv_rhs => rw [← List.take_append_drop i ts, List.flatMap_append, List.length_append]
    omega
  simp only [logFile, List.length_append]
  omega

/-- Recovery from a torn log keeps exactly the flushed transactions, if the first pass comes to no `CREATE TYPE`
entry. A log is cut after `n` bytes. Replaying it raises no error and commits, in order, the transactions whose
`WAL_FLUSH` is within the cut. When more transactions are written to the log that the replay returns, replaying the
file again gives the old transactions and then the new ones. -/
theorem torn_log_keeps_flushed (format : Format β) (disk : Disk β) (ts : List (Transaction β)) (n : Nat)
    (hcreates : CreatesNoType format ts (n - (writeHeader disk.header none).length)) :
    ∃ k log r, k ≤ ts.length ∧
      (∀ i < ts.length, i < k ↔ (logFile format disk.header none (ts.take (i + 1))).length ≤ n) ∧
      replay format {} ⟨disk.setWal .main (some ((logFile format disk.header none ts).take n)), disk.data, none⟩ =
        .ok log r ∧
      r.memory = disk.data ++ (ts.take k).map (·.changes) ∧
      ∀ more : List (Transaction β), (∀ t ∈ more, t.Plain format) → ∃ log' r',
        replay format {} ⟨r.disk.setWal .main (log.writeTransactions format disk.header r.disk.mainWal more),
          disk.data, none⟩ = .ok log' r' ∧
        r'.memory = disk.data ++ (ts.take k ++ more).map (·.changes) := by
  have hcut : (logFile format disk.header none ts).take n <+: logFile format disk.header none ts := List.take_prefix n _
  have hcreates' : CreatesNoType format ts
      (((logFile format disk.header none ts).take n).length - (writeHeader disk.header none).length) :=
    hcreates.mono (Nat.sub_le_sub_right (length_take_le ..) _)
  obtain ⟨k, log, r, hk, hends, h, hrecovered, hplain⟩ := replay_cut
    (r := ⟨disk.setWal .main (some ((logFile format disk.header none ts).take n)), disk.data, none⟩) rfl rfl hcut hcreates'
  refine ⟨k, log, r, hk, fun i hi => ?_, h, hrecovered.transactions, ?_⟩
  · have hle : (logFile format disk.header none (ts.take (i + 1))).length ≤ _ := length_logFile_take disk.header ts (i + 1)
    have hend : i < k ↔ (logFile format disk.header none (ts.take (i + 1))).length ≤
        ((logFile format disk.header none ts).take n).length := hends i hi
    rw [hend, List.length_take, Nat.le_min, and_iff_left hle]
  · rintro (_ | ⟨t, more⟩) hmoreplain
    · -- nothing is written, and the replay is as before
      rw [List.append_nil]
      rcases hrecovered.file with hdisk | ⟨hnil, hdisk⟩
      · refine ⟨log, r, ?_, hrecovered.transactions⟩
        rw [hdisk]
        exact h
      · refine ⟨{ path := .main }, ⟨disk.setWal .main none, disk.data, none⟩, ?_, ?_⟩
        · rw [hdisk]
          rfl
        · rw [hnil]
          exact (List.append_nil _).symm
    · have hmore : log.writeTransactions format disk.header r.disk.mainWal (t :: more) =
        some (logFile format disk.header none (ts.take k ++ t :: more)) := hrecovered.more t more
      have hheader : r.disk.header = disk.header := by
        rcases hrecovered.file with hdisk | ⟨-, hdisk⟩
        · rw [hdisk]
          rfl
        · rw [hdisk]
          rfl
      have hfile : (r.disk.setWal .main (some (logFile format disk.header none (ts.take k ++ t :: more)))).mainWal =
          some (logFile format r.disk.header none (ts.take k ++ t :: more) ++ []) := by
        rw [List.append_nil, hheader]
        rfl
      rw [hmore]
      obtain ⟨log', r', h', hrecovered'⟩ := replay_transactions
        (r := ⟨r.disk.setWal .main (some (logFile format disk.header none (ts.take k ++ t :: more))), disk.data, none⟩)
        (fun t' ht' => (mem_append.1 ht').elim (hplain t') (hmoreplain t')) (.nil format) hfile
      exact ⟨log', r', h', hrecovered'.transactions⟩

def newFile : DatabaseFile := {
  versionNumber := 67
  dbIdentifier := List.replicate 16 200
  checkpointIteration := 0
  metaBlock := 18446744073709551615
  identifier_length := rfl }

/-- Entries of one byte: `CREATE SCHEMA` is 0, and the others are `CREATE TYPE` for that schema. -/
def schemaFormat : Format UInt8 where
  checksum bytes := UInt64.ofNat (wordValue bytes)
  type b := if b = 0 then .createSchema else .createType
  serialize b := [b]
  deserialize
    | _, [] => .error .serialization
    | _, b :: rest => .ok (b, rest)
  readEncrypted := throw .invalidEntryType
  createType committed active _ := if 0 ∈ committed.flatten ++ active.headD [] then none else some .other
  isChange b := by split <;> rfl
  deserialize_serialize _ := rfl
  small b := by simp

def createSchema : Transaction UInt8 := ⟨[0], nofun⟩

def createType : Transaction UInt8 := ⟨[1], nofun⟩

/-- A database with these transactions in its file, and a log that is cut after `n` bytes. -/
def tornDatabase (data : List (List UInt8)) (ts : List (Transaction UInt8)) (n : Nat) : Recovery UInt8 :=
  ⟨⟨newFile, data, some ((logFile schemaFormat newFile none ts).take n), none, none⟩, data, none⟩

/-- A log that is cut in its `CREATE TYPE` entry. -/
theorem torn_log_keeps_flushed_createType : ∃ k log r, k ≤ 2 ∧
    (∀ i < 2, i < k ↔ (logFile schemaFormat newFile none ([createSchema, createType].take (i + 1))).length ≤ 100) ∧
    replay schemaFormat {} (tornDatabase [] [createSchema, createType] 100) = .ok log r ∧
    r.memory = ([createSchema, createType].take k).map (·.changes) ∧
    ∀ more : List (Transaction UInt8), (∀ t ∈ more, t.Plain schemaFormat) → ∃ log' r',
      replay schemaFormat {} ⟨r.disk.setWal .main (log.writeTransactions schemaFormat newFile r.disk.mainWal more),
        [], none⟩ = .ok log' r' ∧
      r'.memory = ([createSchema, createType].take k ++ more).map (·.changes) := by
  refine torn_log_keeps_flushed schemaFormat ⟨newFile, [], none, none, none⟩ [createSchema, createType] 100 ?_
  intro before t after hts c b later hchanges hb
  match before, hts with
  | [], hts =>
    obtain ⟨rfl, -⟩ := cons.inj hts
    match c, hchanges with
    | [], hchanges =>
      obtain ⟨rfl, -⟩ := cons.inj hchanges
      cases hb
    | _ :: c, hchanges => exact absurd (cons.inj hchanges).2.symm (append_ne_nil_of_right_ne_nil _ (cons_ne_nil _ _))
  | [s], hts =>
    obtain ⟨hs, hts⟩ := cons.inj hts
    obtain ⟨rfl, -⟩ := cons.inj hts
    rw [← hs]
    match c, hchanges with
    | [], hchanges =>
      obtain ⟨rfl, -⟩ := cons.inj hchanges
      decide +kernel
    | _ :: c, hchanges => exact absurd (cons.inj hchanges).2.symm (append_ne_nil_of_right_ne_nil _ (cons_ne_nil _ _))
  | _ :: _ :: before, hts =>
    exact absurd (cons.inj (cons.inj hts).2).2.symm (append_ne_nil_of_right_ne_nil _ (cons_ne_nil _ _))

/-- The error of a replay, or the transactions that are in memory after it. -/
def replayedMemory (r : Recovery UInt8) : Except (Stop WalException) (List (List UInt8)) :=
  match replay schemaFormat {} r with
  | .ok _ r => .ok r.memory
  | .error e _ => .error e

/-- `CREATE TYPE` is executed in the first pass. It is refused if an earlier transaction of the log creates its schema;
and if the file ends before its `WAL_FLUSH`, it is committed with the transaction before it. -/
theorem create_type_executed_early :
    replayedMemory (tornDatabase [] [createSchema, createType] 1000) = .error (.exception (.entry .other)) ∧
    replayedMemory (tornDatabase [[0]] [createSchema, createType] 130) = .ok ([[0]] ++ [[1, 0]]) ∧
    ¬ ∀ data ts n, ∃ log r, replay schemaFormat {} (tornDatabase data ts n) = .ok log r := by
  have herror : replayedMemory (tornDatabase [] [createSchema, createType] 1000) =
      .error (.exception (.entry .other)) := by decide +kernel
  refine ⟨herror, by decide +kernel, fun h => ?_⟩
  obtain ⟨log, r, hok⟩ := h [] [createSchema, createType] 1000
  rw [replayedMemory, hok] at herror
  cases herror

end Torn

end Haybarn.Wal
