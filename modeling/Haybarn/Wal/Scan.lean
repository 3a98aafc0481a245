/-
What the two passes over a log do: with the header, with whole transactions, with a checkpoint marker,
and where the file ends inside one of them.
-/
import Haybarn.Wal.Replay

namespace Haybarn.Wal

open Lib List

variable {β : Type} {format : Format β} {db : DatabaseFile} {fileSize : Nat}

/-- No checkpoint marker has been read, and no header that is one iteration behind. -/
structure NoCheckpoint (s : ReplayState) : Prop where
  id : s.checkpointId.isValid = false
  position : s.checkpointPosition = none
  expected : s.expectedCheckpointId = none

/-! ## Sizes -/

theorem flushEntry_length (data : Bytes) : (flushEntry format data).length = data.length + 16 := by
  unfold flushEntry
  rw [length_append, length_append, writeWord_length, writeWord_length]
  omega

theorem writeChange_pos (format : Format β) (b : β) : 0 < (writeChange format b).length := by
  unfold writeChange
  rw [flushEntry_length]
  omega

theorem writeFlush_pos (format : Format β) : 0 < (writeFlush format).length := by
  unfold writeFlush
  rw [flushEntry_length]
  omega

theorem Transaction.write_pos (format : Format β) (t : Transaction β) : 0 < (t.write format).length := by
  unfold Transaction.write
  rw [length_append]
  have := writeFlush_pos format
  omega

theorem writeHeader_pos (db : DatabaseFile) (iteration : Option UInt64) : 0 < (writeHeader db iteration).length := by
  unfold writeHeader writeProperty writeField
  rw [length_append, length_append, writeWord_length]
  omega

theorem isEmpty_of_pos {l : Bytes} (h : 0 < l.length) : l.isEmpty = false := by
  cases l with
  | nil => exact absurd h (Nat.lt_irrefl 0)
  | cons _ _ => rfl

/-! ## The header -/

theorem reads_readHeader (format : Format β) (fileSize : Nat) {K : ReplayState → Prop} {s s' : ReplayState} {iteration : Option UInt64}
    (hversion : s.walVersion = 1) (hk : K s) (hk' : K { s with walVersion := 2 })
    (hcheck : checkVersion db db.dbIdentifier (headerIteration db iteration) { s with walVersion := 2 } = .ok s')
    (hs : K s') :
    Reads WalException.Torn K (readEntry format db fileSize) s (writeHeader db iteration) .version s' := by
  refine (Reads.getState s).step ?_
  rw [if_pos hversion]
  exact reads_header format hk hk' hcheck hs

/-- The header of the log is for this database file: reading it leaves the state as it is. -/
def Accepts (db : DatabaseFile) (iteration : Option UInt64) (isCheckpointWal : Bool) : Prop :=
  ∀ state : ReplayState, state.isCheckpointWal = isCheckpointWal →
    checkVersion db db.dbIdentifier (headerIteration db iteration) state = .ok state

theorem optionalIdx_toNat (v : UInt64) : optionalIdx v.toNat = none ∨ optionalIdx v.toNat = some v := by
  unfold optionalIdx
  split
  · exact .inl rfl
  · rw [UInt64.ofNat_toNat]
    exact .inr rfl

theorem accepts_self {db : DatabaseFile} {iteration : Option UInt64}
    (h : iteration.getD db.checkpointIteration = db.checkpointIteration) (isCheckpointWal : Bool) :
    Accepts db iteration isCheckpointWal := by
  intro state _
  unfold headerIteration
  split
  · rw [h]
    rcases optionalIdx_toNat db.checkpointIteration with hnone | hsome
    · rw [hnone]
      rfl
    · rw [hsome]
      unfold checkVersion
      simp
  · rfl

/-! ## The first pass -/

/-- The log has no entry of this transaction that the first pass executes. -/
def Transaction.Plain (format : Format β) (t : Transaction β) : Prop := ∀ b ∈ t.changes, format.type b ≠ .createType

theorem executeFirst_plain {create : List β → β → Option ExceptionType} {entry : Entry β}
    (h : ∀ b, entry = .change b → format.type b ≠ .createType) (executed : List β) :
    executeFirst format create executed entry = .ok executed := by
  cases entry with
  | change b => exact if_pos (h b rfl)
  | flush | version | checkpoint => rfl

section First

variable {create : List β → β → Option ExceptionType} {scan : CheckpointScan β} {fuel : Nat} {input : Bytes}

theorem scanLoop_error {e : WalException} {source : Source UInt8 ReplayState}
    (h : readEntry format db fileSize ⟨input, scan.state.startAt (fileSize - input.length)⟩ = .error e source) :
    scanLoop format db create fileSize (fuel + 1) input scan = ({ scan with state := source.state }, some e) := by
  rw [scanLoop]
  dsimp only
  rw [h]

variable {rest : Bytes}

theorem scanLoop_entry {entry : Entry β} {s' : ReplayState} (hflush : entry ≠ .flush)
    (hplain : ∀ b, entry = .change b → format.type b ≠ .createType)
    (h : readEntry format db fileSize ⟨input, scan.state.startAt (fileSize - input.length)⟩ = .ok entry ⟨rest, s'⟩)
    (hs : s'.checkpointPosition = none) :
    scanLoop format db create fileSize (fuel + 1) input scan =
      scanLoop format db create fileSize fuel rest { scan with state := s' } := by
  have hnot : ¬ (s'.checkpointPosition.isSome ∧ s'.checkpointEndPosition.isNone) := by
    rw [hs]
    exact fun h => nomatch h.1
  rw [scanLoop]
  dsimp only
  rw [h]
  dsimp only
  rw [executeFirst_plain hplain]
  dsimp only
  rw [if_neg hnot]
  cases entry with
  | flush => exact absurd rfl hflush
  | version => rfl
  | checkpoint => rfl
  | change b => rfl

theorem scanLoop_flush {s' : ReplayState}
    (h : readEntry format db fileSize ⟨input, scan.state.startAt (fileSize - input.length)⟩ = .ok .flush ⟨rest, s'⟩)
    (hs : s'.checkpointPosition = none ∨ s'.checkpointEndPosition.isSome) :
    scanLoop format db create fileSize (fuel + 1) input scan =
      if rest.isEmpty then ({ scan with state := s', lastWalFlushEnd := fileSize - rest.length }, none)
      else scanLoop format db create fileSize fuel rest
        { scan with state := s', lastWalFlushEnd := fileSize - rest.length } := by
  have hnot : ¬ (s'.checkpointPosition.isSome ∧ s'.checkpointEndPosition.isNone) := by
    rintro ⟨h1, h2⟩
    rcases hs with hs | hs
    · rw [hs] at h1
      cases h1
    · rw [Option.isNone_iff_eq_none.1 h2] at hs
      cases hs
  rw [scanLoop]
  dsimp only
  rw [h]
  dsimp only
  rw [executeFirst_plain nofun]
  dsimp only
  rw [if_neg hnot]

/-- The state of the first pass behind a transaction: it has read up to `left` bytes before the end. -/
def CheckpointScan.after (scan : CheckpointScan β) (fileSize position left : Nat) : CheckpointScan β :=
  { scan with
    state := scan.state.startAt position
    lastWalFlushEnd := fileSize - left }

theorem scanLoop_changes {rest : Bytes} : ∀ {changes : List β} {fuel : Nat} {scan : CheckpointScan β},
    (∀ b ∈ changes, format.type b ≠ .createType) → scan.state.walVersion = 2 → scan.state.checkpointPosition = none →
    (changes.flatMap (writeChange format) ++ writeFlush format ++ rest).length < fuel →
    ∃ position fuel', rest.length < fuel' ∧
      scanLoop format db create fileSize fuel (changes.flatMap (writeChange format) ++ writeFlush format ++ rest) scan =
        if rest.isEmpty then (scan.after fileSize position rest.length, none)
        else scanLoop format db create fileSize fuel' rest (scan.after fileSize position rest.length)
  | [], fuel, scan, _, hversion, hno, hfuel => by
    obtain ⟨fuel, rfl⟩ : ∃ n, fuel = n + 1 := ⟨fuel - 1, by omega⟩
    rw [flatMap_nil, nil_append] at hfuel ⊢
    have hread := (reads_flush (K := fun _ => True)
      (s := scan.state.startAt (fileSize - (writeFlush format ++ rest).length))
      format db fileSize trivial hversion).whole rest
    have hpos := writeFlush_pos format
    rw [length_append] at hfuel
    refine ⟨_, fuel, by omega, scanLoop_flush hread (.inl hno)⟩
  | b :: changes, fuel, scan, hplain, hversion, hno, hfuel => by
    obtain ⟨fuel, rfl⟩ : ∃ n, fuel = n + 1 := ⟨fuel - 1, by omega⟩
    rw [flatMap_cons, append_assoc, append_assoc] at hfuel ⊢
    have hread := (reads_change (K := fun _ => True)
      (s := scan.state.startAt (fileSize - (writeChange format b ++
        (changes.flatMap (writeChange format) ++ (writeFlush format ++ rest))).length))
      format db fileSize b trivial hversion).whole (changes.flatMap (writeChange format) ++ (writeFlush format ++ rest))
    have hne : Entry.change b ≠ .flush := nofun
    have hb : ∀ b', Entry.change b = .change b' → format.type b' ≠ .createType := by
      rintro _ ⟨⟩
      exact hplain b mem_cons_self
    rw [scanLoop_entry hne hb hread hno, ← append_assoc]
    have hpos := writeChange_pos format b
    rw [length_append, ← append_assoc] at hfuel
    exact scanLoop_changes (fun b' hb' => hplain b' (mem_cons_of_mem b hb')) hversion hno (by omega)

theorem scanLoop_transaction {t : Transaction β} (hplain : t.Plain format) (hversion : scan.state.walVersion = 2)
    (hno : scan.state.checkpointPosition = none) (hfuel : (t.write format ++ rest).length < fuel) :
    ∃ position fuel', rest.length < fuel' ∧ scanLoop format db create fileSize fuel (t.write format ++ rest) scan =
      if rest.isEmpty then (scan.after fileSize position rest.length, none)
      else scanLoop format db create fileSize fuel' rest (scan.after fileSize position rest.length) :=
  scanLoop_changes hplain hversion hno hfuel

/-- No entry that the first pass executes ends within so many bytes. -/
def Unreached (format : Format β) (changes : List β) (n : Nat) : Prop :=
  ∀ before b after, changes = before ++ b :: after → format.type b = .createType →
    n < ((before ++ [b]).flatMap (writeChange format)).length

theorem Unreached.head {b : β} {changes : List β} {cut : Bytes}
    (h : Unreached format (b :: changes) (writeChange format b ++ cut).length) :
    format.type b ≠ .createType ∧ Unreached format changes cut.length := by
  rw [length_append] at h
  constructor
  · intro hb
    have hlt := h [] b changes rfl hb
    rw [nil_append, flatMap_cons, flatMap_nil, append_nil] at hlt
    omega
  · rintro before c after rfl hc
    have hlt := h (b :: before) c after rfl hc
    rw [cons_append, flatMap_cons, length_append] at hlt
    omega

/-- A part of the rest of a transaction, which may be nothing at all. -/
def TornInput (format : Format β) (cut : Bytes) : Prop :=
  ∃ changes : List β, cut <+: changes.flatMap (writeChange format) ++ writeFlush format ∧
    cut ≠ changes.flatMap (writeChange format) ++ writeFlush format ∧ Unreached format changes cut.length

theorem TornInput.nil (format : Format β) : TornInput format [] := by
  refine ⟨[], nil_prefix, fun h => ?_, fun _ _ _ h => absurd h.symm (append_ne_nil_of_right_ne_nil _ (cons_ne_nil _ _))⟩
  have hpos := writeFlush_pos format
  rw [flatMap_nil, nil_append] at h
  rw [← h] at hpos
  exact Nat.lt_irrefl 0 hpos

theorem scanLoop_tornChanges : ∀ {changes : List β} {cut : Bytes} {fuel : Nat} {scan : CheckpointScan β},
    cut <+: changes.flatMap (writeChange format) ++ writeFlush format →
    cut ≠ changes.flatMap (writeChange format) ++ writeFlush format → Unreached format changes cut.length →
    scan.state.walVersion = 2 → NoCheckpoint scan.state → cut.length < fuel →
    ∃ scan' e, scanLoop format db create fileSize fuel cut scan = (scan', some e) ∧ e.Torn ∧
      NoCheckpoint scan'.state ∧ scan'.executed = scan.executed
  | [], cut, fuel, scan, hcut, hne, _, hversion, hno, hfuel => by
    obtain ⟨fuel, rfl⟩ : ∃ n, fuel = n + 1 := ⟨fuel - 1, by omega⟩
    have hk : NoCheckpoint (scan.state.startAt (fileSize - cut.length)) := ⟨hno.id, hno.position, hno.expected⟩
    obtain ⟨e, source, herror, he, hs⟩ := (reads_flush format db fileSize hk hversion).torn cut hcut hne
    exact ⟨_, e, scanLoop_error herror, he, hs, rfl⟩
  | b :: changes, cut, fuel, scan, hcut, hne, hunreached, hversion, hno, hfuel => by
    obtain ⟨fuel, rfl⟩ : ∃ n, fuel = n + 1 := ⟨fuel - 1, by omega⟩
    have hk : NoCheckpoint (scan.state.startAt (fileSize - cut.length)) := ⟨hno.id, hno.position, hno.expected⟩
    have hread := reads_change format db fileSize b hk hversion
    rw [flatMap_cons, append_assoc] at hcut hne
    rcases prefix_append_cases hcut hne with ⟨hcut, hne⟩ | ⟨cut', rfl, hcut, hne⟩
    · obtain ⟨e, source, herror, he, hs⟩ := hread.torn cut hcut hne
      exact ⟨_, e, scanLoop_error herror, he, hs, rfl⟩
    · have hchange : Entry.change b ≠ .flush := nofun
      have hb : ∀ b', Entry.change b = .change b' → format.type b' ≠ .createType := by
        rintro _ ⟨⟩
        exact hunreached.head.1
      rw [scanLoop_entry hchange hb (hread.whole cut') hno.position]
      have hpos := writeChange_pos format b
      rw [length_append] at hfuel
      exact scanLoop_tornChanges hcut hne hunreached.head.2 hversion hk (by omega)

theorem scanLoop_transactions {cut : Bytes} (hcut : TornInput format cut) :
    ∀ {ts : List (Transaction β)} {fuel : Nat} {scan : CheckpointScan β}, (∀ t ∈ ts, t.Plain format) →
    scan.state.walVersion = 2 → NoCheckpoint scan.state →
    (ts.flatMap (Transaction.write format) ++ cut).length < fuel →
    ∃ scan' error, scanLoop format db create fileSize fuel (ts.flatMap (Transaction.write format) ++ cut) scan =
      (scan', error) ∧ (∀ e ∈ error, e.Torn) ∧ NoCheckpoint scan'.state ∧ scan'.executed = scan.executed
  | [], fuel, scan, _, hversion, hno, hfuel => by
    obtain ⟨changes, hcut, hne, hunreached⟩ := hcut
    obtain ⟨scan', e, h, he, hs⟩ := scanLoop_tornChanges hcut hne hunreached hversion hno hfuel
    refine ⟨scan', some e, h, fun e' he' => ?_, hs⟩
    cases he'
    exact he
  | t :: ts, fuel, scan, hplain, hversion, hno, hfuel => by
    rw [flatMap_cons, append_assoc] at hfuel ⊢
    obtain ⟨position, fuel', hfuel', h⟩ :=
      scanLoop_transaction (hplain t mem_cons_self) hversion hno.position hfuel
    have hno' : NoCheckpoint (scan.after fileSize position (ts.flatMap (Transaction.write format) ++ cut).length).state :=
      ⟨hno.id, hno.position, hno.expected⟩
    rw [h]
    split
    · exact ⟨_, none, rfl, nofun, hno', rfl⟩
    · exact scanLoop_transactions hcut (fun t' ht' => hplain t' (mem_cons_of_mem t ht')) hversion hno' hfuel'

theorem scanLoop_whole {rest : Bytes} (hrest : rest ≠ []) :
    ∀ {ts : List (Transaction β)} {fuel : Nat} {scan : CheckpointScan β}, ts ≠ [] → (∀ t ∈ ts, t.Plain format) →
    scan.state.walVersion = 2 →
    scan.state.checkpointPosition = none → (ts.flatMap (Transaction.write format) ++ rest).length < fuel →
    ∃ position fuel', rest.length < fuel' ∧
      scanLoop format db create fileSize fuel (ts.flatMap (Transaction.write format) ++ rest) scan =
        scanLoop format db create fileSize fuel' rest (scan.after fileSize position rest.length)
  | [], _, _, hts, _, _, _, _ => absurd rfl hts
  | t :: ts, fuel, scan, _, hplain, hversion, hno, hfuel => by
    rw [flatMap_cons, append_assoc] at hfuel ⊢
    obtain ⟨position, fuel', hfuel', h⟩ := scanLoop_transaction (hplain t mem_cons_self) hversion hno hfuel
    have hempty : ¬ (ts.flatMap (Transaction.write format) ++ rest).isEmpty = true := fun h =>
      hrest (append_eq_nil_iff.1 (isEmpty_iff.1 h)).2
    rw [if_neg hempty] at h
    rw [h]
    cases ts with
    | nil => exact ⟨position, fuel', hfuel', rfl⟩
    | cons t' ts =>
      have hversion' : (scan.after fileSize position ((t' :: ts).flatMap (Transaction.write format) ++
        rest).length).state.walVersion = 2 := hversion
      obtain ⟨position', fuel'', hfuel'', h'⟩ := scanLoop_whole hrest (cons_ne_nil t' ts)
        (fun t'' ht'' => hplain t'' (mem_cons_of_mem t ht'')) hversion' hno hfuel'
      exact ⟨position', fuel'', hfuel'', h'⟩

theorem scanLoop_marker {m : MetaBlockPointer} (hversion : scan.state.walVersion = 2)
    (hposition : scan.state.checkpointPosition = none) (hend : scan.state.checkpointEndPosition = none)
    (hfuel : (writeCheckpoint format m ++ writeFlush format).length < fuel) :
    scanLoop format db create fileSize fuel (writeCheckpoint format m ++ writeFlush format) scan =
      ({ state := { scan.state with
            checkpointId := m
            currentPosition := some (fileSize - (writeFlush format).length)
            checkpointPosition := some (fileSize - (writeCheckpoint format m ++ writeFlush format).length)
            checkpointEndPosition := some (fileSize - (writeFlush format).length) }
         lastWalFlushEnd := fileSize
         checkpointTruncateOffset := scan.lastWalFlushEnd
         executed := scan.executed }, none) := by
  have hflush := writeFlush_pos format
  have hmarker : 0 < (writeCheckpoint format m).length := by
    unfold writeCheckpoint
    rw [flushEntry_length]
    omega
  rw [length_append] at hfuel
  obtain ⟨fuel, rfl⟩ : ∃ n, fuel = n + 2 := ⟨fuel - 2, by omega⟩
  have hread := (reads_checkpoint (K := fun _ => True)
    (s := scan.state.startAt (fileSize - (writeCheckpoint format m ++ writeFlush format).length))
    format db fileSize m trivial hversion hposition).whole (writeFlush format)
  rw [scanLoop]
  dsimp only
  rw [hread]
  dsimp only
  rw [executeFirst_plain nofun]
  dsimp only
  rw [if_pos ⟨rfl, by rw [ReplayState.startAt, hend]; rfl⟩]
  have hread' := (reads_flush (K := fun _ => True)
    (s := { scan.state with
      checkpointId := m
      currentPosition := some (fileSize - (writeFlush format).length)
      checkpointPosition := some (fileSize - (writeCheckpoint format m ++ writeFlush format).length)
      checkpointEndPosition := some (fileSize - (writeFlush format).length) })
    format db fileSize trivial hversion).whole []
  rw [append_nil] at hread'
  exact (scanLoop_flush hread' (.inr rfl)).trans rfl

end First

/-! ## The second pass -/

section Second

variable {fuel : Nat} {s : ReplayState} {changes : List β} {committed : List (List β)} {offset : Nat}

variable {source source' : Source UInt8 ReplayState}

theorem replayLoop_error {e : WalException}
    (h : readEntry format db fileSize source = .error e source') :
    replayLoop format db fileSize (fuel + 1) source changes committed offset = ⟨committed, offset, false, some e⟩ := by
  rw [replayLoop, h]

theorem replayLoop_version
    (h : readEntry format db fileSize source = .ok .version source') :
    replayLoop format db fileSize (fuel + 1) source changes committed offset =
      replayLoop format db fileSize fuel source' changes committed offset := by
  rw [replayLoop, h]

theorem replayLoop_change {b : β}
    (h : readEntry format db fileSize source = .ok (.change b) source') :
    replayLoop format db fileSize (fuel + 1) source changes committed offset =
      replayLoop format db fileSize fuel source' (changes ++ [b]) committed offset := by
  rw [replayLoop, h]

theorem replayLoop_changes {rest : Bytes} (hversion : s.walVersion = 2) :
    ∀ {later : List β} {fuel : Nat} (changes : List β),
    (later.flatMap (writeChange format) ++ writeFlush format ++ rest).length < fuel →
    ∃ fuel', rest.length < fuel' ∧
      replayLoop format db fileSize fuel ⟨later.flatMap (writeChange format) ++ writeFlush format ++ rest, s⟩
        changes committed offset =
        if rest.isEmpty then ⟨committed ++ [changes ++ later], fileSize - rest.length, true, none⟩
        else replayLoop format db fileSize fuel' ⟨rest, s⟩ [] (committed ++ [changes ++ later]) (fileSize - rest.length)
  | [], fuel, changes, hfuel => by
    obtain ⟨fuel, rfl⟩ : ∃ n, fuel = n + 1 := ⟨fuel - 1, by omega⟩
    rw [flatMap_nil, nil_append] at hfuel ⊢
    have hread := (reads_flush (K := fun _ => True) format db fileSize trivial hversion).whole rest
    have hpos := writeFlush_pos format
    rw [length_append] at hfuel
    refine ⟨fuel, by omega, ?_⟩
    rw [replayLoop, hread, append_nil]
  | b :: later, fuel, changes, hfuel => by
    obtain ⟨fuel, rfl⟩ : ∃ n, fuel = n + 1 := ⟨fuel - 1, by omega⟩
    rw [flatMap_cons, append_assoc, append_assoc] at hfuel ⊢
    have hread := (reads_change (K := fun _ => True) format db fileSize b trivial hversion).whole
      (later.flatMap (writeChange format) ++ (writeFlush format ++ rest))
    rw [replayLoop_change hread, ← append_assoc, append_cons changes b later]
    have hpos := writeChange_pos format b
    rw [length_append, ← append_assoc] at hfuel
    exact replayLoop_changes hversion _ (by omega)

theorem replayLoop_tornChanges (hversion : s.walVersion = 2) :
    ∀ {later : List β} {cut : Bytes} {fuel : Nat} {changes : List β},
    cut <+: later.flatMap (writeChange format) ++ writeFlush format →
    cut ≠ later.flatMap (writeChange format) ++ writeFlush format → cut.length < fuel →
    ∃ e, replayLoop format db fileSize fuel ⟨cut, s⟩ changes committed offset = ⟨committed, offset, false, some e⟩ ∧
      e.Torn
  | [], cut, fuel, changes, hcut, hne, hfuel => by
    obtain ⟨fuel, rfl⟩ : ∃ n, fuel = n + 1 := ⟨fuel - 1, by omega⟩
    obtain ⟨e, source, herror, he, -⟩ :=
      (reads_flush (K := fun _ => True) format db fileSize trivial hversion).torn cut hcut hne
    exact ⟨e, replayLoop_error herror, he⟩
  | b :: later, cut, fuel, changes, hcut, hne, hfuel => by
    obtain ⟨fuel, rfl⟩ : ∃ n, fuel = n + 1 := ⟨fuel - 1, by omega⟩
    have hread := reads_change (K := fun _ => True) format db fileSize b trivial hversion
    rw [flatMap_cons, append_assoc] at hcut hne
    rcases prefix_append_cases hcut hne with ⟨hcut, hne⟩ | ⟨cut', rfl, hcut, hne⟩
    · obtain ⟨e, source, herror, he, -⟩ := hread.torn cut hcut hne
      exact ⟨e, replayLoop_error herror, he⟩
    · rw [replayLoop_change (hread.whole cut')]
      have hpos := writeChange_pos format b
      rw [length_append] at hfuel
      exact replayLoop_tornChanges hversion hcut hne (by omega)

/-- The second pass over transactions commits them. It comes to the end of the file if the last one is
whole; otherwise the offset is the end of the last whole one. -/
theorem replayLoop_transactions {cut : Bytes} (hcut : TornInput format cut) (hversion : s.walVersion = 2) :
    ∀ {ts : List (Transaction β)} {fuel : Nat} {committed : List (List β)} {offset : Nat},
    (ts.flatMap (Transaction.write format) ++ cut).length < fuel →
    ∃ replayed, replayLoop format db fileSize fuel ⟨ts.flatMap (Transaction.write format) ++ cut, s⟩ [] committed offset =
        replayed ∧
      replayed.committed = committed ++ ts.map (·.changes) ∧
      replayed.successfulOffset = (if ts = [] then offset else fileSize - cut.length) ∧
      (replayed.allSucceeded = true ↔ ts ≠ [] ∧ cut = []) ∧
      (∀ e ∈ replayed.error, e.Torn) ∧ (replayed.allSucceeded = true → replayed.error = none)
  | [], fuel, committed, offset, hfuel => by
    obtain ⟨later, hcut, hne, -⟩ := hcut
    obtain ⟨e, h, he⟩ := replayLoop_tornChanges hversion hcut hne hfuel
    refine ⟨_, h, (append_nil _).symm, rfl, iff_of_false nofun fun h => h.1 rfl, fun e' he' => ?_, nofun⟩
    cases he'
    exact he
  | t :: ts, fuel, committed, offset, hfuel => by
    rw [flatMap_cons, append_assoc] at hfuel ⊢
    obtain ⟨fuel', hfuel', h⟩ := replayLoop_changes hversion [] hfuel
    have hone : committed ++ (t :: ts).map (·.changes) = committed ++ [[] ++ t.changes] ++ ts.map (·.changes) := by
      rw [append_assoc]
      rfl
    rw [Transaction.write, h, if_neg (cons_ne_nil t ts), hone]
    cases hrest : (ts.flatMap (Transaction.write format) ++ cut).isEmpty with
    | true =>
      obtain ⟨hts, rfl⟩ := append_eq_nil_iff.1 (isEmpty_iff.1 hrest)
      have hnil : ts = [] := by
        cases ts with
        | nil => rfl
        | cons t' ts =>
          have hpos := t'.write_pos format
          rw [(append_eq_nil_iff.1 hts).1] at hpos
          exact absurd hpos (Nat.lt_irrefl 0)
      subst hnil
      exact ⟨_, rfl, (append_nil _).symm, rfl, iff_of_true rfl ⟨nofun, rfl⟩, nofun, fun _ => rfl⟩
    | false =>
      obtain ⟨replayed, hr, h1, h2, h3, h4, h5⟩ := replayLoop_transactions hcut hversion hfuel'
      refine ⟨replayed, hr, h1, ?_, ?_, h4, h5⟩
      · rw [h2]
        split
        · next hnil => rw [hnil, flatMap_nil, nil_append]
        · rfl
      · rw [h3]
        refine ⟨fun ⟨_, hc⟩ => ⟨nofun, hc⟩, fun ⟨_, hc⟩ => ⟨fun hnil => ?_, hc⟩⟩
        rw [hnil, hc] at hrest
        cases hrest

end Second

/-! ## Both passes behind the header -/

section Header

variable {create : List β → β → Option ExceptionType} {isCheckpointWal : Bool} {iteration : Option UInt64} {rest : Bytes}

theorem scanLog_header {s' : ReplayState} (hcheck : checkVersion db db.dbIdentifier (headerIteration db iteration)
      { isCheckpointWal, walVersion := 2, currentPosition := some 0 } = .ok s') (hs : s'.checkpointPosition = none) :
    scanLog format db create isCheckpointWal (writeHeader db iteration ++ rest) =
      scanLoop format db create (writeHeader db iteration ++ rest).length (writeHeader db iteration ++ rest).length rest
        { state := s' } := by
  have hread := reads_readHeader format (writeHeader db iteration ++ rest).length (K := fun _ => True)
    (s := { isCheckpointWal, currentPosition := some 0 }) rfl trivial trivial hcheck trivial
  have hversion : (Entry.version : Entry β) ≠ .flush := nofun
  refine scanLoop_entry hversion nofun ?_ hs
  rw [Nat.sub_self]
  exact hread.whole rest

theorem replayFile_header (haccepts : Accepts db iteration isCheckpointWal) :
    replayFile format db isCheckpointWal (writeHeader db iteration ++ rest) [] =
      replayLoop format db (writeHeader db iteration ++ rest).length (writeHeader db iteration ++ rest).length
        ⟨rest, { isCheckpointWal, walVersion := 2 }⟩ [] [] 0 := by
  have hread := reads_readHeader format (writeHeader db iteration ++ rest).length (K := fun _ => True)
    (s := { isCheckpointWal }) rfl trivial trivial (haccepts _ rfl) trivial
  exact replayLoop_version (hread.whole rest)

/-- A log that ends with a checkpoint marker. The marker is known to be whole, and the offset to truncate it at
is the end of the last transaction. -/
theorem scanLog_marker {s' : ReplayState} (hcheck : checkVersion db db.dbIdentifier (headerIteration db iteration)
      { isCheckpointWal, walVersion := 2, currentPosition := some 0 } = .ok s') (hs : s'.checkpointPosition = none)
    (hend : s'.checkpointEndPosition = none) (hversion : s'.walVersion = 2) {ts : List (Transaction β)} (hts : ts ≠ [])
    (hplain : ∀ t ∈ ts, t.Plain format) (m : MetaBlockPointer) :
    let log := writeHeader db iteration ++ ts.flatMap (Transaction.write format)
    let marked := log ++ writeCheckpoint format m
    scanLog format db create isCheckpointWal (marked ++ writeFlush format) =
      ({ state := { s' with
            checkpointId := m
            currentPosition := some marked.length
            checkpointPosition := some log.length
            checkpointEndPosition := some marked.length }
         lastWalFlushEnd := (marked ++ writeFlush format).length
         checkpointTruncateOffset := log.length }, none) := by
  intro log marked
  have hflush := writeFlush_pos format
  have hheader := writeHeader_pos db iteration
  have hrest : writeCheckpoint format m ++ writeFlush format ≠ [] := fun h => by
    rw [(append_eq_nil_iff.1 h).2] at hflush
    exact Nat.lt_irrefl 0 hflush
  have hfile : marked ++ writeFlush format = writeHeader db iteration ++
      (ts.flatMap (Transaction.write format) ++ (writeCheckpoint format m ++ writeFlush format)) := by
    simp only [marked, log, append_assoc]
  have hlog : (marked ++ writeFlush format).length - (writeCheckpoint format m ++ writeFlush format).length = log.length := by
    rw [append_assoc, length_append, Nat.add_sub_cancel]
  have hmarked : (marked ++ writeFlush format).length - (writeFlush format).length = marked.length := by
    rw [length_append, Nat.add_sub_cancel]
  have hfuel : (ts.flatMap (Transaction.write format) ++ (writeCheckpoint format m ++ writeFlush format)).length <
      (marked ++ writeFlush format).length := by
    rw [hfile]
    simp only [length_append]
    omega
  have hstate : ({ state := s' } : CheckpointScan β).state.walVersion = 2 := hversion
  obtain ⟨position, fuel, hfuel, h⟩ := scanLoop_whole hrest hts hplain hstate hs hfuel
  rw [hfile, scanLog_header hcheck hs, ← hfile]
  refine h.trans ?_
  rw [scanLoop_marker hversion hs hend hfuel]
  unfold CheckpointScan.after ReplayState.startAt
  dsimp only
  rw [hlog, hmarked]

end Header

end Haybarn.Wal
