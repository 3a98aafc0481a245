/-
No value of a sequence goes to two transactions that commit, in every run whose calls draw from the
newest data and do not overflow, and whose commits put nothing older in its place. The value tells how
many were drawn before it; each version has counted the draws between the usage count it was made with
and its own, and committed versions follow one another.
-/
import Mathlib.Data.List.Nodup
import Mathlib.Data.List.Pairwise
import Haybarn.Sequence.System

namespace Haybarn.Sequence

open List Nat

/-! ## The version a transaction sees -/

theorem mem_modifyVisible_append {t : Transaction} {f : Version → Version} {v : Version} {older : List Version} :
    ∀ {newer : List Version}, (∀ w ∈ newer, ¬ t.UseTimestamp w) → t.UseTimestamp v →
      modifyVisible t f (newer ++ v :: older) = newer ++ f v :: older
  | [], _, hv => by simp [modifyVisible, hv]
  | w :: newer, h, hv => by
    simp only [mem_cons, forall_eq_or_imp] at h
    simp [modifyVisible, h.1, mem_modifyVisible_append h.2 hv]

theorem takeWhile_not_useTimestamp {t : Transaction} {v : Version} {older : List Version} :
    ∀ {newer : List Version}, (∀ w ∈ newer, ¬ t.UseTimestamp w) → t.UseTimestamp v →
      (newer ++ v :: older).takeWhile (¬ t.UseTimestamp ·) = newer
  | [], _, hv => by simp [hv]
  | w :: newer, h, hv => by
    simp only [mem_cons, forall_eq_or_imp] at h
    have ih := @takeWhile_not_useTimestamp t v older newer h.2 hv
    simp only [cons_append]
    rw [takeWhile_cons_of_pos (by simpa using h.1), ih]

variable {t : Transaction}

theorem visible_split {s : System} {v : Version} (h : s.visible t = some v) :
    ∃ newer older, s.versions = newer ++ v :: older ∧ (∀ w ∈ newer, ¬ t.UseTimestamp w) ∧ t.UseTimestamp v := by
  obtain ⟨hv, newer, older, heq, hnewer⟩ := find?_eq_some_iff_append.1 h
  exact ⟨newer, older, heq, by simpa using hnewer, by simpa using hv⟩

theorem useTimestamp_transaction {v : Version} {id : Nat} (h : t.UseTimestamp v)
    (hv : v.timestamp = .transaction id) : id = t.id := by
  simpa [Transaction.UseTimestamp, hv] using h

/-! ## Undo buffers and the log -/

/-- A usage count and a counter that some data of the sequence had. -/
def Logged (info : CreateSequenceInfo) (usageCount : Nat) (counter : Int) : Prop :=
  ∃ data, Tracks info data ∧ data.usageCount = usageCount ∧ data.counter = counter

theorem mem_pushSequenceUsage (entry : Nat) (data : SequenceData) :
    ∀ undo, .sequenceValue entry data.usageCount data.counter ∈ pushSequenceUsage entry data undo
  | [] => by simp [pushSequenceUsage]
  | .alter :: undo => by simp [pushSequenceUsage, mem_pushSequenceUsage entry data undo]
  | .sequenceValue e u c :: undo => by
    simp only [pushSequenceUsage]
    split
    · simp
    · simp [mem_pushSequenceUsage entry data undo]

theorem mem_pushSequenceUsage_of_ne {entry e u : Nat} {c : Int} (data : SequenceData) (hne : e ≠ entry) :
    ∀ {undo : List UndoEntry}, .sequenceValue e u c ∈ undo → .sequenceValue e u c ∈ pushSequenceUsage entry data undo
  | .alter :: undo, h => by
    simp only [mem_cons, reduceCtorEq, false_or] at h
    simp [pushSequenceUsage, mem_pushSequenceUsage_of_ne data hne h]
  | .sequenceValue e' u' c' :: undo, h => by
    simp only [pushSequenceUsage]
    rcases mem_cons.1 h with heq | h
    · simp only [UndoEntry.sequenceValue.injEq] at heq
      rw [if_neg (by rw [← heq.1]; exact hne), heq.1, heq.2.1, heq.2.2]
      exact mem_cons_self
    · split
      · exact mem_cons_of_mem _ h
      · exact mem_cons_of_mem _ (mem_pushSequenceUsage_of_ne data hne h)

theorem of_mem_pushSequenceUsage {entry : Nat} {data : SequenceData} {x : UndoEntry} :
    ∀ {undo : List UndoEntry}, x ∈ pushSequenceUsage entry data undo →
      x ∈ undo ∨ x = .sequenceValue entry data.usageCount data.counter
  | [], h => by simpa [pushSequenceUsage] using h
  | .alter :: undo, h => by
    simp only [pushSequenceUsage, mem_cons] at h ⊢
    rcases h with h | h
    · exact .inl (.inl h)
    · exact (of_mem_pushSequenceUsage h).imp_left .inr
  | .sequenceValue e u c :: undo, h => by
    simp only [pushSequenceUsage] at h
    split at h
    · rcases mem_cons.1 h with h | h
      · exact .inr h
      · exact .inl (mem_cons_of_mem _ h)
    · rcases mem_cons.1 h with h | h
      · exact .inl (h ▸ mem_cons_self)
      · exact (of_mem_pushSequenceUsage h).imp_left (mem_cons_of_mem _)

/-- The records hold data of the sequence. -/
def LogTracks (info : CreateSequenceInfo) (wal : List WalRecord) : Prop :=
  ∀ u c, .sequenceValue u c ∈ wal → Logged info u c

theorem replay_tracks {info : CreateSequenceInfo} :
    ∀ {wal : List WalRecord} {data : SequenceData}, Tracks info data → LogTracks info wal →
      Tracks info (wal.foldl replay data) ∧ data.usageCount ≤ (wal.foldl replay data).usageCount ∧
        ∀ u c, .sequenceValue u c ∈ wal → u ≤ (wal.foldl replay data).usageCount
  | [], _, h, _ => ⟨h, le_rfl, by simp⟩
  | r :: wal, data, h, hl => by
    have hl' : LogTracks info wal := fun u c hm => hl u c (mem_cons_of_mem _ hm)
    have hr : Tracks info (replay data r) ∧ data.usageCount ≤ (replay data r).usageCount ∧
        ∀ u c, r = .sequenceValue u c → u ≤ (replay data r).usageCount := by
      cases r with
      | alter => exact ⟨h, le_rfl, by simp⟩
      | sequenceValue u c =>
        obtain ⟨logged, ht, rfl, rfl⟩ := hl u c mem_cons_self
        refine ⟨h.replayValue ht, ?_, ?_⟩ <;> simp only [replay, SequenceData.replayValue]
        · split
          · exact Nat.le_of_lt ‹_›
          · exact le_rfl
        · rintro u c ⟨⟩
          split
          · exact le_rfl
          · exact Nat.le_of_not_lt ‹_›
    obtain ⟨ht, hle, hall⟩ := replay_tracks hr.1 hl'
    refine ⟨ht, hr.2.1.trans hle, fun u c hm => ?_⟩
    rcases mem_cons.1 hm with heq | hm
    · exact (hr.2.2 u c heq.symm).trans hle
    · exact hall u c hm

/-! ## The invariant -/

/-- The transaction is active. -/
def System.IsActive (s : System) (id : Nat) : Prop := ∃ t ∈ s.active, t.id = id

theorem System.mem_of_find {s : System} {id : Nat} (h : s.find id = some t) :
    t ∈ s.active ∧ t.id = id :=
  ⟨mem_of_find?_eq_some h, by simpa using find?_some h⟩

/-- A version has counted at least what it was made with, and that no less than what the last restart
has found. -/
structure VersionOk (info : CreateSequenceInfo) (base : Nat) (s : System) (v : Version) : Prop where
  id_lt : v.id < s.nextEntry
  tracks : Tracks info v.data
  base_le : base ≤ v.copiedUsage
  copied_le : v.copiedUsage ≤ v.data.usageCount
  active : ∀ id, v.timestamp = .transaction id → s.IsActive id

/-- A committed version was made of what the ones below it have counted; uncommitted ones belong to
one transaction. -/
structure Follows (newer older : Version) : Prop where
  committed : newer.committed = true → older.committed = true ∧ older.data.usageCount ≤ newer.copiedUsage
  uncommitted : ∀ id, newer.timestamp = .transaction id → older.committed = true ∨ older.timestamp = .transaction id

/-- An active transaction will log every value it has drawn. -/
structure TransactionOk (info : CreateSequenceInfo) (base : Nat) (s : System) (t : Transaction) : Prop where
  id_lt : t.id < s.nextTransaction
  not_committed : t.id ∉ s.committed
  copied : ∀ data, t.copied = some data → Tracks info data ∧ base ≤ data.usageCount
  logged : ∀ e u c, .sequenceValue e u c ∈ t.undo → Logged info u c
  covers : s.temporary = false → ∀ d ∈ s.draws, d.transaction = t.id →
    ∃ u c, .sequenceValue d.entry u c ∈ t.undo ∧ d.usage < u

/-- The version a value was drawn from has counted it. Where a committed draw's version is gone, the
last restart has counted it; and a restart now would count all committed ones. -/
structure DrawOk (info : CreateSequenceInfo) (base : Nat) (s : System) (d : Draw) : Prop where
  value : d.value = info.value d.usage
  entry_lt : d.entry < s.nextEntry
  transaction_lt : d.transaction < s.nextTransaction
  version : ∀ v ∈ s.versions, v.id = d.entry → v.copiedUsage ≤ d.usage ∧ d.usage < v.data.usageCount ∧
    ∀ id, v.timestamp = .transaction id → d.transaction = id
  gone : d.transaction ∈ s.committed → (∀ v ∈ s.versions, v.id ≠ d.entry) → d.usage < base
  live : s.IsActive d.transaction → ∃ v ∈ s.versions, v.id = d.entry
  durable : s.temporary = false → d.transaction ∈ s.committed → d.usage < s.recovered.usageCount

/-- What every call keeps. `base` is the usage count the last restart has found. -/
structure Inv (info : CreateSequenceInfo) (base : Nat) (s : System) : Prop where
  ids : (s.versions.map (·.id)).Nodup
  versions : ∀ v ∈ s.versions, VersionOk info base s v
  follows : s.versions.Pairwise Follows
  active : ∀ t ∈ s.active, TransactionOk info base s t
  committed_lt : ∀ id ∈ s.committed, id < s.nextTransaction
  draws : ∀ d ∈ s.draws, DrawOk info base s d
  distinct : s.draws.Pairwise fun d e => d.entry = e.entry → d.usage ≠ e.usage
  committed : s.draws.Pairwise fun d e =>
    d.transaction ∈ s.committed → e.transaction ∈ s.committed → d.usage ≠ e.usage
  image : Tracks info s.info.data
  wal : LogTracks info s.wal

namespace Inv

variable {info : CreateSequenceInfo} {base : Nat} {s : System}

theorem recovered (h : Inv info base s) : Tracks info s.recovered := (replay_tracks h.image h.wal).1

theorem version_committed (h : Inv info base s) {d : Draw} (hd : d ∈ s.draws) (hc : d.transaction ∈ s.committed)
    {v : Version} (hv : v ∈ s.versions) (hvd : v.id = d.entry) : v.committed = true := by
  cases hts : v.timestamp with
  | commit c => simp [Version.committed, hts]
  | transaction id =>
    obtain ⟨t, ht, rfl⟩ := (h.versions v hv).active id hts
    have howner : d.transaction = t.id := ((h.draws d hd).version v hv hvd).2.2 _ hts
    exact absurd (howner ▸ hc) (h.active t ht).not_committed

theorem init (hi : info.Accepted) (hc : info.cycle = false) (temporary : Bool) : Inv info 0 (initial info temporary) where
  ids := by simp [initial]
  versions := by
    simp only [initial, mem_singleton]
    rintro v rfl
    exact ⟨zero_lt_one, .init hi hc, zero_le _, le_rfl, by simp⟩
  follows := by simp [initial]
  active := by simp [initial]
  committed_lt := by simp [initial]
  draws := by simp [initial]
  distinct := by simp [initial]
  committed := by simp [initial]
  image := .init hi hc
  wal := by simp [LogTracks, initial]

end Inv

/-! ## Calls that draw nothing -/

section Congr

variable {info : CreateSequenceInfo} {base : Nat} {s s' : System}

theorem VersionOk.congr {v : Version} (h : VersionOk info base s v) (hentry : s.nextEntry ≤ s'.nextEntry)
    (hactive : ∀ id, s.IsActive id → s'.IsActive id) : VersionOk info base s' v :=
  ⟨h.id_lt.trans_le hentry, h.tracks, h.base_le, h.copied_le, fun id hid => hactive id (h.active id hid)⟩

/-- What a call leaves alone that changes only who is active. -/
structure SameData (s s' : System) : Prop where
  versions : s'.versions = s.versions
  committed : s'.committed = s.committed
  draws : s'.draws = s.draws
  temporary : s'.temporary = s.temporary
  info : s'.info = s.info
  wal : s'.wal = s.wal
  nextEntry : s'.nextEntry = s.nextEntry
  nextTransaction : s.nextTransaction ≤ s'.nextTransaction

theorem SameData.recovered (h : SameData s s') : s'.recovered = s.recovered := by
  rw [System.recovered, System.recovered, h.info, h.wal]

theorem Inv.congr (h : Inv info base s) (hs : SameData s s') (hin : ∀ id, s.IsActive id → s'.IsActive id)
    (hout : ∀ id < s.nextTransaction, s'.IsActive id → s.IsActive id)
    (hactive : ∀ t ∈ s'.active, TransactionOk info base s' t) : Inv info base s' where
  ids := by rw [hs.versions]; exact h.ids
  versions v hv := (h.versions v (hs.versions ▸ hv)).congr hs.nextEntry.ge hin
  follows := by rw [hs.versions]; exact h.follows
  active := hactive
  committed_lt id hid := (h.committed_lt id (hs.committed ▸ hid)).trans_le hs.nextTransaction
  draws d hd := by
    have hd := h.draws d (hs.draws ▸ hd)
    constructor
    · exact hd.value
    · exact hs.nextEntry ▸ hd.entry_lt
    · exact hd.transaction_lt.trans_le hs.nextTransaction
    · rw [hs.versions]; exact hd.version
    · rw [hs.versions, hs.committed]; exact hd.gone
    · rw [hs.versions]; exact fun ha => hd.live (hout _ hd.transaction_lt ha)
    · rw [hs.temporary, hs.committed, hs.recovered]; exact hd.durable
  distinct := by rw [hs.draws]; exact h.distinct
  committed := by rw [hs.draws, hs.committed]; exact h.committed
  image := by rw [hs.info]; exact h.image
  wal := by rw [hs.wal]; exact h.wal

theorem TransactionOk.congr {t : Transaction} (h : TransactionOk info base s t) (hs : SameData s s') :
    TransactionOk info base s' t where
  id_lt := h.id_lt.trans_le hs.nextTransaction
  not_committed := by rw [hs.committed]; exact h.not_committed
  copied := h.copied
  logged := h.logged
  covers := by rw [hs.temporary, hs.draws]; exact h.covers

theorem System.isActive_modifyActive {f : Transaction → Transaction} (hf : ∀ t, (f t).id = t.id) (id id' : Nat) :
    ({ s with active := s.modifyActive id f } : System).IsActive id' ↔ s.IsActive id' := by
  simp only [System.IsActive, System.modifyActive, mem_map]
  constructor
  · rintro ⟨_, ⟨t, ht, rfl⟩, rfl⟩
    exact ⟨t, ht, by split <;> simp [hf]⟩
  · rintro ⟨t, ht, rfl⟩
    exact ⟨_, ⟨t, ht, rfl⟩, by split <;> simp [hf]⟩

theorem Inv.modifyActive (h : Inv info base s) {id : Nat} {f : Transaction → Transaction} (hf : ∀ t, (f t).id = t.id)
    (hok : ∀ t ∈ s.active, t.id = id → TransactionOk info base s (f t)) :
    Inv info base { s with active := s.modifyActive id f } := by
  have hs : SameData s { s with active := s.modifyActive id f } := ⟨rfl, rfl, rfl, rfl, rfl, rfl, rfl, le_rfl⟩
  refine h.congr hs (fun id' => (System.isActive_modifyActive hf id id').2)
    (fun id' _ => (System.isActive_modifyActive hf id id').1) fun t ht => ?_
  obtain ⟨t', ht', rfl⟩ := mem_map.1 ht
  refine TransactionOk.congr ?_ hs
  split
  · exact hok t' ht' ‹_›
  · exact h.active t' ht'

theorem Inv.start (h : Inv info base s) : Inv info base (s.step .start) := by
  have hs : SameData s (s.step .start) := ⟨rfl, rfl, rfl, rfl, rfl, rfl, rfl, le_succ _⟩
  refine h.congr hs ?_ ?_ ?_
  · rintro id ⟨t, ht, rfl⟩
    exact ⟨t, mem_append_left _ ht, rfl⟩
  · rintro id hid ⟨t, ht, rfl⟩
    rcases mem_append.1 ht with ht | ht
    · exact ⟨t, ht, rfl⟩
    · rw [mem_singleton.1 ht] at hid
      exact absurd hid (lt_irrefl _)
  · intro t ht
    rcases mem_append.1 ht with ht | ht
    · exact (h.active t ht).congr hs
    · rw [mem_singleton.1 ht]
      constructor
      · exact lt_succ_self _
      · exact fun hc => absurd (h.committed_lt _ hc) (lt_irrefl _)
      · simp
      · simp
      · intro _ d hd heq
        exact absurd (heq ▸ (h.draws d hd).transaction_lt) (lt_irrefl _)

theorem Inv.copy (h : Inv info base s) (id : Nat) : Inv info base (s.step (.copy id)) := by
  simp only [System.step]
  split
  · exact h
  · rename_i t _
    refine h.modifyActive (fun _ => rfl) fun t' ht' _ => ?_
    have hok := h.active t' ht'
    refine ⟨hok.id_lt, hok.not_committed, fun data hdata => ?_, hok.logged, hok.covers⟩
    obtain ⟨v, hv, rfl⟩ := Option.map_eq_some_iff.1 hdata
    have hv := h.versions v (mem_of_find?_eq_some hv)
    exact ⟨hv.tracks, hv.base_le.trans hv.copied_le⟩

end Congr

/-! ## Calls that change the versions -/

section Calls

variable {info : CreateSequenceInfo} {base : Nat} {s : System}

variable {t : Transaction} {v : Version} {id : Nat} {data : SequenceData}

theorem Version.committed_of_useTimestamp (h : t.UseTimestamp v) :
    v.committed = true ∨ v.timestamp = .transaction t.id := by
  cases hts : v.timestamp with
  | commit c => exact .inl (by simp [Version.committed, hts])
  | transaction id => exact .inr (by rw [useTimestamp_transaction h hts])

theorem Version.timestamp_ne_of_committed (h : v.committed = true) (id : Nat) :
    v.timestamp ≠ .transaction id := by
  intro hts
  simp [Version.committed, hts] at h

theorem Inv.own_or_committed (h : Inv info base s) {older : List Version}
    (hs : s.versions = v :: older) (hv : t.UseTimestamp v) :
    ∀ w ∈ s.versions, w.committed = true ∨ w.timestamp = .transaction t.id := by
  have hp := h.follows
  rw [hs] at hp ⊢
  rintro w (_ | ⟨_, hw⟩)
  · exact Version.committed_of_useTimestamp hv
  · have hvw := rel_of_pairwise_cons hp hw
    rcases Version.committed_of_useTimestamp hv with hc | ht
    · exact .inl (hvw.committed hc).1
    · exact hvw.uncommitted _ ht

/-- The state with a version of an active transaction in front. -/
def System.push (s : System) (id : Nat) (data : SequenceData) : System := { s with
  versions := { id := s.nextEntry, timestamp := .transaction id, data, copiedUsage := data.usageCount } :: s.versions
  nextEntry := s.nextEntry + 1 }

theorem Inv.push (h : Inv info base s) (hid : s.IsActive id)
    (hdata : Tracks info data) (hbase : base ≤ data.usageCount)
    (hown : ∀ w ∈ s.versions, w.committed = true ∨ w.timestamp = .transaction id) : Inv info base (s.push id data) where
  ids := by
    refine nodup_cons.2 ⟨fun hm => ?_, h.ids⟩
    obtain ⟨w, hw, hwid⟩ := mem_map.1 hm
    exact absurd (hwid ▸ (h.versions w hw).id_lt) (lt_irrefl _)
  versions := by
    rintro v (_ | ⟨_, hv⟩)
    · exact ⟨lt_succ_self _, hdata, hbase, le_rfl, by rintro _ ⟨⟩; exact hid⟩
    · exact (h.versions v hv).congr (le_succ _) fun _ ha => ha
  follows := by
    refine pairwise_cons.2 ⟨fun w hw => ⟨by simp [Version.committed], ?_⟩, h.follows⟩
    rintro _ ⟨⟩
    exact hown w hw
  active t ht := by
    have hok := h.active t ht
    exact ⟨hok.id_lt, hok.not_committed, hok.copied, hok.logged, hok.covers⟩
  committed_lt := h.committed_lt
  draws d hd := by
    have hok := h.draws d hd
    constructor
    · exact hok.value
    · exact hok.entry_lt.trans (lt_succ_self _)
    · exact hok.transaction_lt
    · rintro v (_ | ⟨_, hv⟩) heq
      · exact absurd (heq ▸ hok.entry_lt) (lt_irrefl _)
      · exact hok.version v hv heq
    · exact fun hc hg => hok.gone hc fun v hv => hg v (mem_cons_of_mem _ hv)
    · intro ha
      obtain ⟨v, hv, hvd⟩ := hok.live ha
      exact ⟨v, mem_cons_of_mem _ hv, hvd⟩
    · exact hok.durable
  distinct := h.distinct
  committed := h.committed
  image := h.image
  wal := h.wal

theorem Inv.alter (h : Inv info base s) (ht : t ∈ s.active)
    (hd : t.copied = some data) : Inv info base (s.alter t data) := by
  obtain ⟨htracks, hbase⟩ := (h.active t ht).copied data hd
  unfold System.alter
  split
  · exact h
  · rename_i v older hs
    split
    · rename_i hv
      have hpush := h.push ⟨t, ht, rfl⟩ htracks hbase (h.own_or_committed hs hv)
      refine hpush.modifyActive (f := fun t => { t with copied := none, undo := t.undo ++ [.alter] })
        (fun _ => rfl) fun t' ht' _ => ?_
      have hok := hpush.active t' ht'
      refine ⟨hok.id_lt, hok.not_committed, by simp, fun e u c hm => hok.logged e u c (by simpa using hm), ?_⟩
      intro htemp d hd hdt
      obtain ⟨u, c, hm, hlt⟩ := hok.covers htemp d hd hdt
      exact ⟨u, c, mem_append_left _ hm, hlt⟩
    · refine h.modifyActive (fun _ => rfl) fun t' ht' _ => ?_
      have hok := h.active t' ht'
      exact ⟨hok.id_lt, hok.not_committed, by simp, hok.logged, hok.covers⟩

theorem System.isActive_others {id' : Nat} (h : ∃ t ∈ s.others id, t.id = id') : s.IsActive id' ∧ id' ≠ id := by
  obtain ⟨t, ht, rfl⟩ := h
  obtain ⟨ht, hne⟩ := mem_filter.1 ht
  exact ⟨⟨t, ht, rfl⟩, by simpa using hne⟩

theorem Inv.rollback (h : Inv info base s) (id : Nat) : Inv info base (s.rollback id) where
  ids := h.ids.sublist (filter_sublist.map _)
  versions v hv := by
    obtain ⟨hv, hne⟩ := mem_filter.1 hv
    have hok := h.versions v hv
    refine ⟨hok.id_lt, hok.tracks, hok.base_le, hok.copied_le, fun id' hid' => ?_⟩
    obtain ⟨t, ht, rfl⟩ := hok.active id' hid'
    refine ⟨t, mem_filter.2 ⟨ht, ?_⟩, rfl⟩
    simp only [ne_eq, decide_not, Bool.not_eq_eq_eq_not, Bool.not_true, decide_eq_false_iff_not] at hne ⊢
    rintro rfl
    exact hne hid'
  follows := h.follows.sublist filter_sublist
  active t ht := by
    have hok := h.active t (mem_filter.1 ht).1
    exact ⟨hok.id_lt, hok.not_committed, hok.copied, hok.logged, hok.covers⟩
  committed_lt := h.committed_lt
  draws d hd := by
    have hok := h.draws d hd
    constructor
    · exact hok.value
    · exact hok.entry_lt
    · exact hok.transaction_lt
    · exact fun v hv => hok.version v (mem_filter.1 hv).1
    · intro hc hg
      refine hok.gone hc fun v hv hvd => ?_
      have hvc := h.version_committed hd hc hv hvd
      exact hg v (mem_filter.2 ⟨hv, by simpa using Version.timestamp_ne_of_committed hvc id⟩) hvd
    · intro ha
      obtain ⟨ha, hne⟩ := System.isActive_others ha
      obtain ⟨v, hv, hvd⟩ := hok.live ha
      refine ⟨v, mem_filter.2 ⟨hv, ?_⟩, hvd⟩
      simp only [ne_eq, decide_not, Bool.not_eq_eq_eq_not, Bool.not_true, decide_eq_false_iff_not]
      exact fun hts => hne ((hok.version v hv hvd).2.2 _ hts)
    · exact hok.durable
  distinct := h.distinct
  committed := h.committed
  image := h.image
  wal := h.wal

theorem Inv.usage_lt_newest (h : Inv info base s) (hv : s.versions.find? (·.committed) = some v)
    {d : Draw} (hd : d ∈ s.draws) (hc : d.transaction ∈ s.committed) : d.usage < v.data.usageCount := by
  have hvok := h.versions v (mem_of_find?_eq_some hv)
  have hle := hvok.copied_le
  by_cases hg : ∀ w ∈ s.versions, w.id ≠ d.entry
  · have h₁ := (h.draws d hd).gone hc hg
    have h₂ := hvok.base_le
    omega
  · push Not at hg
    obtain ⟨w, hw, hwd⟩ := hg
    have hlt := ((h.draws d hd).version w hw hwd).2.1
    have hwc := h.version_committed hd hc hw hwd
    obtain ⟨hvc, newer, older, heq, hnewer⟩ := find?_eq_some_iff_append.1 hv
    have hp := h.follows
    rw [heq] at hp hw
    rcases mem_append.1 hw with hw | hw
    · simpa [hwc] using hnewer w hw
    · rcases mem_cons.1 hw with rfl | hw
      · exact hlt
      · have hfollows := (rel_of_pairwise_cons (pairwise_append.1 hp).2.1 hw).committed hvc
        omega

theorem Inv.checkpoint (h : Inv info base s) : Inv info base s.checkpoint := by
  unfold System.checkpoint
  split
  · exact h
  · rename_i v hv
    split
    · exact h
    · have hvok := h.versions v (mem_of_find?_eq_some hv)
      refine { h with
        versions := fun w hw => (h.versions w hw).congr le_rfl fun _ ha => ha
        active := fun t ht => ?_
        draws := fun d hd => ?_
        image := hvok.tracks.getInfo
        wal := by simp [LogTracks] }
      · have hok := h.active t ht
        exact ⟨hok.id_lt, hok.not_committed, hok.copied, hok.logged, hok.covers⟩
      · have hok := h.draws d hd
        exact ⟨hok.value, hok.entry_lt, hok.transaction_lt, hok.version, hok.gone, hok.live,
          fun _ hc => h.usage_lt_newest hv hd hc⟩

theorem exists_usage_lt : ∀ draws : List Draw, ∃ n, ∀ d ∈ draws, d.usage < n
  | [] => ⟨0, by simp⟩
  | d :: draws => by
    obtain ⟨n, hn⟩ := exists_usage_lt draws
    refine ⟨max n (d.usage + 1), ?_⟩
    rintro e (_ | ⟨_, he⟩)
    · exact lt_max_of_lt_right (lt_succ_self _)
    · exact lt_max_of_lt_left (hn e he)

theorem Inv.crash (h : Inv info base s) : ∃ base', Inv info base' s.crash := by
  cases htemp : s.temporary with
  | true =>
    obtain ⟨n, hn⟩ := exists_usage_lt s.draws
    have hversions : s.crash.versions = [] := by simp [System.crash, htemp]
    refine ⟨n, {
      ids := by simp [hversions]
      versions := by simp [hversions]
      follows := by simp [hversions]
      active := by simp [System.crash]
      committed_lt := h.committed_lt
      draws := fun d hd => ?_
      distinct := h.distinct
      committed := h.committed
      image := h.image
      wal := h.wal }⟩
    have hok := h.draws d hd
    exact ⟨hok.value, hok.entry_lt.trans (lt_succ_self _), hok.transaction_lt, by simp [hversions],
      fun _ _ => hn d hd, by simp [System.IsActive, System.crash], hok.durable⟩
  | false =>
    have hversions : s.crash.versions = [{
        id := s.nextEntry, timestamp := .commit 0, data := s.recovered, copiedUsage := s.recovered.usageCount }] := by
      simp [System.crash, htemp]
    refine ⟨s.recovered.usageCount, {
      ids := by simp [hversions]
      versions := ?_
      follows := by simp [hversions]
      active := by simp [System.crash]
      committed_lt := h.committed_lt
      draws := fun d hd => ?_
      distinct := h.distinct
      committed := h.committed
      image := h.image
      wal := h.wal }⟩
    · rw [hversions]
      rintro v (_ | ⟨_, ⟨⟩⟩)
      exact ⟨lt_succ_self _, h.recovered, le_rfl, le_rfl, by simp⟩
    · have hok := h.draws d hd
      refine ⟨hok.value, hok.entry_lt.trans (lt_succ_self _), hok.transaction_lt, ?_,
        fun hc _ => hok.durable htemp hc, by simp [System.IsActive, System.crash], hok.durable⟩
      rw [hversions]
      rintro v (_ | ⟨_, ⟨⟩⟩) heq
      exact absurd (heq ▸ hok.entry_lt) (lt_irrefl _)

theorem Inv.setData (h : Inv info base s) {newer older : List Version}
    (hs : s.versions = newer ++ v :: older) (hnewer : ∀ w ∈ newer, w.committed = false)
    (hdata : Tracks info data) (hle : v.data.usageCount ≤ data.usageCount) :
    Inv info base { s with versions := newer ++ { v with data } :: older } := by
  have hmem : ∀ w ∈ newer ++ { v with data } :: older, w ∈ s.versions ∨ w = { v with data } := by
    intro w hw
    rw [hs]
    simp only [mem_append, mem_cons] at hw ⊢
    tauto
  have hv : v ∈ s.versions := by simp [hs]
  have hids : (newer ++ { v with data } :: older).map (·.id) = s.versions.map (·.id) := by simp [hs]
  have hex : ∀ {id : Nat}, (∃ w ∈ newer ++ { v with data } :: older, w.id = id) ↔ ∃ w ∈ s.versions, w.id = id := by
    intro id
    simpa only [mem_map] using iff_of_eq (congrArg (id ∈ ·) hids)
  refine { h with ids := hids ▸ h.ids, versions := fun w hw => ?_, follows := ?_, active := fun t ht => ?_, draws := fun d hd => ?_ }
  · rcases hmem w hw with hw | rfl
    · exact (h.versions w hw).congr le_rfl fun _ ha => ha
    · have hok := h.versions v hv
      exact ⟨hok.id_lt, hdata, hok.base_le, hok.copied_le.trans hle, hok.active⟩
  · have hp := h.follows
    rw [hs, pairwise_append, pairwise_cons] at hp
    obtain ⟨hn, ⟨hvo, ho⟩, hno⟩ := hp
    refine pairwise_append.2 ⟨hn, pairwise_cons.2 ⟨fun w hw => ?_, ho⟩, fun w hw x hx => ?_⟩
    · exact ⟨(hvo w hw).committed, (hvo w hw).uncommitted⟩
    · rcases mem_cons.1 hx with rfl | hx
      · refine ⟨fun hc => ?_, (hno w hw v mem_cons_self).uncommitted⟩
        rw [hnewer w hw] at hc
        cases hc
      · exact hno w hw x (mem_cons_of_mem _ hx)
  · have hok := h.active t ht
    exact ⟨hok.id_lt, hok.not_committed, hok.copied, hok.logged, hok.covers⟩
  · have hok := h.draws d hd
    refine ⟨hok.value, hok.entry_lt, hok.transaction_lt, fun w hw hwd => ?_, fun hc hg => ?_,
      fun ha => hex.2 (hok.live ha), hok.durable⟩
    · rcases hmem w hw with hw | rfl
      · exact hok.version w hw hwd
      · obtain ⟨hle', hlt, howner⟩ := hok.version v hv hwd
        exact ⟨hle', hlt.trans_le hle, howner⟩
    · refine hok.gone hc fun w hw hwd => ?_
      obtain ⟨x, hx, hxd⟩ := hex.2 ⟨w, hw, hwd⟩
      exact hg x hx hxd

theorem Inv.draw (h : Inv info base s) (ht : t ∈ s.active) (hv : v ∈ s.versions)
    (hown : ∀ id, v.timestamp = .transaction id → t.id = id) {usage : Nat} (hcopied : v.copiedUsage ≤ usage)
    (husage : v.data.usageCount = usage + 1) (hfresh : ∀ d ∈ s.draws, d.entry = v.id → d.usage < usage) :
    Inv info base { s with
      draws := s.draws ++ [{ transaction := t.id, entry := v.id, usage, value := info.value usage }]
      active := if s.temporary then s.active
        else s.modifyActive t.id fun t => { t with undo := pushSequenceUsage v.id v.data t.undo } } := by
  set active := if s.temporary then s.active
    else s.modifyActive t.id fun t => { t with undo := pushSequenceUsage v.id v.data t.undo } with hactive
  have hia : ∀ id, (∃ t ∈ active, t.id = id) ↔ s.IsActive id := by
    intro id
    rw [hactive]
    split
    · exact Iff.rfl
    · exact System.isActive_modifyActive (s := s)
        (f := fun t => { t with undo := pushSequenceUsage v.id v.data t.undo }) (fun _ => rfl) t.id id
  have hrecord : ∀ t' ∈ active, ∃ t₀ ∈ s.active, t'.id = t₀.id ∧ t'.copied = t₀.copied ∧
      (t'.undo = t₀.undo ∧ (s.temporary = true ∨ t'.id ≠ t.id) ∨ t'.undo = pushSequenceUsage v.id v.data t₀.undo) := by
    intro t' ht'
    rw [hactive] at ht'
    split at ht'
    · exact ⟨t', ht', rfl, rfl, .inl ⟨rfl, .inl ‹_›⟩⟩
    · obtain ⟨t₀, ht₀, rfl⟩ := mem_map.1 ht'
      refine ⟨t₀, ht₀, ?_⟩
      split
      · exact ⟨rfl, rfl, .inr rfl⟩
      · exact ⟨rfl, rfl, .inl ⟨rfl, .inr ‹_›⟩⟩
  have hvok := h.versions v hv
  have hnot := (h.active t ht).not_committed
  refine { h with versions := fun w hw => ?_, active := fun t' ht' => ?_, draws := fun d hd => ?_, distinct := ?_, committed := ?_ }
  · exact (h.versions w hw).congr le_rfl fun id hid => (hia id).2 hid
  · obtain ⟨t₀, ht₀, hid, hcop, hundo⟩ := hrecord t' ht'
    have hok := h.active t₀ ht₀
    refine ⟨hid ▸ hok.id_lt, hid ▸ hok.not_committed, hcop ▸ hok.copied, fun e u c hm => ?_, fun htemp d hd hdt => ?_⟩
    · rcases hundo with ⟨hundo, -⟩ | hundo
      · exact hok.logged e u c (hundo ▸ hm)
      · rcases of_mem_pushSequenceUsage (hundo ▸ hm) with hm | heq
        · exact hok.logged e u c hm
        · simp only [UndoEntry.sequenceValue.injEq] at heq
          exact ⟨v.data, hvok.tracks, heq.2.1.symm, heq.2.2.symm⟩
    · rcases hundo with ⟨hundo, htemp' | hne⟩ | hundo
      · cases htemp.symm.trans htemp'
      · rcases mem_append.1 hd with hd | hd
        · rw [hundo]
          exact hok.covers htemp d hd (hdt.trans hid)
        · rw [mem_singleton.1 hd] at hdt
          exact absurd hdt.symm hne
      · -- The record of this version has been set to what it has counted now.
        rw [hundo]
        by_cases hentry : d.entry = v.id
        · refine ⟨_, _, by rw [hentry]; exact mem_pushSequenceUsage v.id v.data t₀.undo, ?_⟩
          rcases mem_append.1 hd with hd | hd
          · have hlt := hfresh d hd hentry
            omega
          · rw [mem_singleton.1 hd, husage]
            exact lt_succ_self _
        · rcases mem_append.1 hd with hd | hd
          · obtain ⟨u, c, hm, hlt⟩ := hok.covers htemp d hd (hdt.trans hid)
            exact ⟨u, c, mem_pushSequenceUsage_of_ne v.data hentry hm, hlt⟩
          · rw [mem_singleton.1 hd] at hentry
            exact absurd rfl hentry
  · rcases mem_append.1 hd with hd | hd
    · have hok := h.draws d hd
      exact ⟨hok.value, hok.entry_lt, hok.transaction_lt, hok.version, hok.gone,
        fun ha => hok.live ((hia _).1 ha), hok.durable⟩
    · rw [mem_singleton.1 hd]
      refine ⟨rfl, hvok.id_lt, (h.active t ht).id_lt, fun w hw hwd => ?_, fun hc => absurd hc hnot,
        fun _ => ⟨v, hv, rfl⟩, fun _ hc => absurd hc hnot⟩
      obtain rfl : w = v := inj_on_of_nodup_map h.ids hw hv hwd
      exact ⟨hcopied, by simp only []; omega, hown⟩
  · refine pairwise_append.2 ⟨h.distinct, pairwise_singleton .., fun d hd e he heq => ?_⟩
    rw [mem_singleton.1 he] at heq ⊢
    exact (hfresh d hd heq).ne
  · refine pairwise_append.2 ⟨h.committed, pairwise_singleton .., fun d hd e he _ hc => ?_⟩
    rw [mem_singleton.1 he] at hc
    exact absurd hc hnot

theorem Inv.nextValue (hi : info.Accepted) (h : Inv info base s) (ht : t ∈ s.active)
    (hv : s.visible t = some v) (hsound : s.DrawsNewest t) : Inv info base (s.nextValue t v) := by
  obtain ⟨newer, older, hs, hnewer, hsees⟩ := visible_split hv
  simp only [System.DrawsNewest, hv, hs, takeWhile_not_useTimestamp hnewer hsees] at hsound
  obtain ⟨hoverflow, huncommitted⟩ := hsound
  have hmem : v ∈ s.versions := by simp [hs]
  have hvok := h.versions v hmem
  unfold System.nextValue
  rw [hs]
  split
  · rename_i e data hnext
    rw [mem_modifyVisible_append hnewer hsees]
    obtain ⟨husage, htracks⟩ := hvok.tracks.nextValue_error hoverflow hnext
    exact h.setData hs huncommitted htracks husage.ge
  · rename_i value data hnext
    rw [mem_modifyVisible_append hnewer hsees]
    obtain ⟨rfl, husage, htracks⟩ := hvok.tracks.nextValue_ok hi hoverflow hnext
    have hset := h.setData hs huncommitted htracks (by omega)
    refine hset.draw ht (v := { v with data }) (by simp) (fun id hts => (useTimestamp_transaction hsees hts).symm)
      hvok.copied_le husage fun d hd heq => ?_
    exact ((h.draws d hd).version v hmem heq.symm).2.1

theorem Inv.follows_commit (h : Inv info base s) (hsound : s.CopiesNewest t) :
    (s.commit t).versions.Pairwise Follows := by
  refine pairwise_map.2 ((h.follows.and hsound).imp ?_)
  rintro newer older ⟨hf, hcopied⟩
  by_cases hn : newer.timestamp = .transaction t.id
  · have holder : ∀ o, o = (if older.timestamp = .transaction t.id then
        { older with timestamp := .commit s.currentTimestamp } else older) →
        o.committed = true ∧ o.data.usageCount ≤ newer.copiedUsage := by
      rintro o rfl
      split
      · exact ⟨rfl, hcopied hn⟩
      · rename_i ho
        exact ⟨(hf.uncommitted _ hn).resolve_right ho, hcopied hn⟩
    rw [if_pos hn]
    exact ⟨fun _ => holder _ rfl, by simp⟩
  · rw [if_neg hn]
    split
    · rename_i ho
      refine ⟨fun hc => ⟨rfl, (hf.committed hc).2⟩, fun id _ => .inl rfl⟩
    · exact hf

theorem System.mem_commit {w : Version} (hw : w ∈ (s.commit t).versions) :
    ∃ v ∈ s.versions, w.id = v.id ∧ w.data = v.data ∧ w.copiedUsage = v.copiedUsage ∧
      ∀ id, w.timestamp = .transaction id → v.timestamp = .transaction id ∧ id ≠ t.id := by
  obtain ⟨v, hv, rfl⟩ := mem_map.1 hw
  refine ⟨v, hv, ?_⟩
  split
  · exact ⟨rfl, rfl, rfl, by simp⟩
  · rename_i hne
    exact ⟨rfl, rfl, rfl, fun id hid => ⟨hid, fun heq => hne (heq ▸ hid)⟩⟩

theorem System.commit_ids : (s.commit t).versions.map (·.id) = s.versions.map (·.id) := by
  simp only [System.commit, map_map]
  exact map_congr_left fun v _ => by simp only [Function.comp]; split <;> rfl

theorem System.exists_commit :
    (∃ w ∈ (s.commit t).versions, w.id = id) ↔ ∃ v ∈ s.versions, v.id = id := by
  simpa only [mem_map] using iff_of_eq (congrArg (id ∈ ·) (System.commit_ids (s := s) (t := t)))

theorem Inv.recovered_commit (h : Inv info base s) (ht : t ∈ s.active) :
    LogTracks info (s.commit t).wal ∧ s.recovered.usageCount ≤ (s.commit t).recovered.usageCount ∧
      (s.temporary = false → ∀ e u c, .sequenceValue e u c ∈ t.undo → u ≤ (s.commit t).recovered.usageCount) := by
  have hlog : LogTracks info (t.undo.map (·.record)) := by
    intro u c hm
    obtain ⟨x, hx, hr⟩ := mem_map.1 hm
    cases x with
    | alter => simp [UndoEntry.record] at hr
    | sequenceValue e u' c' =>
      simp only [UndoEntry.record, WalRecord.sequenceValue.injEq] at hr
      exact hr.1 ▸ hr.2 ▸ (h.active t ht).logged e u' c' hx
  cases htemp : s.temporary with
  | true => simpa [System.commit, System.recovered, htemp] using h.wal
  | false =>
    have hwal : (s.commit t).wal = s.wal ++ t.undo.map (·.record) := by simp [System.commit, htemp]
    have hrec : (s.commit t).recovered = (t.undo.map (·.record)).foldl replay s.recovered := by
      rw [System.recovered, hwal, foldl_append]
      rfl
    obtain ⟨-, hle, hall⟩ := replay_tracks h.recovered hlog
    rw [hwal, hrec]
    refine ⟨fun u c hm => ?_, hle, fun _ e u c hm => hall u c (mem_map.2 ⟨_, hm, rfl⟩)⟩
    rcases mem_append.1 hm with hm | hm
    · exact h.wal u c hm
    · exact hlog u c hm

/-- The versions do not count the same draws: one of the two was made of what the other had counted. -/
def Apart (v w : Version) : Prop :=
  v.committed = true → w.committed = true →
    w.data.usageCount ≤ v.copiedUsage ∨ v.data.usageCount ≤ w.copiedUsage

instance : Std.Symm Apart := ⟨fun _ _ h hv hw => (h hw hv).symm⟩

theorem Apart.of_follows {versions : List Version} (h : versions.Pairwise Follows) {w : Version}
    (hv : v ∈ versions) (hw : w ∈ versions) (hne : v ≠ w) : Apart v w :=
  (h.imp (S := Apart) fun hf hc _ => .inl (hf.committed hc).2).forall hv hw hne

theorem Inv.commit_draw (h : Inv info base s) (ht : t ∈ s.active) {d : Draw} (hd : d ∈ s.draws)
    (hc : d.transaction ∈ (s.commit t).committed) :
    (d.usage < base ∧ d.transaction ∈ s.committed) ∨
      ∃ w ∈ (s.commit t).versions, w.id = d.entry ∧ w.committed = true ∧ base ≤ w.copiedUsage ∧
        w.copiedUsage ≤ d.usage ∧ d.usage < w.data.usageCount := by
  have hok := h.draws d hd
  have hc : d.transaction ∈ s.committed ∨ d.transaction = t.id := by simpa [System.commit] using hc
  by_cases hg : ∃ v ∈ s.versions, v.id = d.entry
  · right
    obtain ⟨w, hw, hwd⟩ := (System.exists_commit (t := t)).2 hg
    obtain ⟨v, hv, hid, hdata, hcopied, hts⟩ := System.mem_commit hw
    have hvd : v.id = d.entry := hid.symm.trans hwd
    obtain ⟨hle, hlt, howner⟩ := hok.version v hv hvd
    refine ⟨w, hw, hwd, ?_, hcopied ▸ (h.versions v hv).base_le, hcopied ▸ hle, hdata ▸ hlt⟩
    cases hwts : w.timestamp with
    | commit c => simp [Version.committed, hwts]
    | transaction id =>
      obtain ⟨hvts, hne⟩ := hts id hwts
      have hcommitted : d.transaction ∈ s.committed := hc.resolve_right (howner id hvts ▸ hne)
      have hvc := h.version_committed hd hcommitted hv hvd
      exact absurd hvts (Version.timestamp_ne_of_committed hvc id)
  · left
    have hcommitted : d.transaction ∈ s.committed := by
      refine hc.resolve_right fun heq => hg (hok.live ⟨t, ht, heq.symm⟩)
    exact ⟨hok.gone hcommitted fun v hv hvd => hg ⟨v, hv, hvd⟩, hcommitted⟩

theorem Inv.commit (h : Inv info base s) (ht : t ∈ s.active) (hsound : s.CopiesNewest t) :
    Inv info base (s.commit t) := by
  obtain ⟨hwal, hrec, hcovers⟩ := h.recovered_commit ht
  have hids : ((s.commit t).versions.map (·.id)).Nodup := by
    rw [System.commit_ids]
    exact h.ids
  have hfollows := h.follows_commit hsound
  refine { ids := hids, versions := fun w hw => ?_, follows := hfollows, active := fun t' ht' => ?_,
           committed_lt := fun id hid => ?_, draws := fun d hd => ?_, distinct := h.distinct, committed := ?_,
           image := h.image, wal := hwal }
  · obtain ⟨v, hv, hid, hdata, hcopied, hts⟩ := System.mem_commit hw
    have hok := h.versions v hv
    refine ⟨hid ▸ hok.id_lt, hdata ▸ hok.tracks, hcopied ▸ hok.base_le, hcopied ▸ hdata ▸ hok.copied_le, fun id hwts => ?_⟩
    obtain ⟨hvts, hne⟩ := hts id hwts
    obtain ⟨t', ht', rfl⟩ := hok.active id hvts
    exact ⟨t', mem_filter.2 ⟨ht', by simpa using hne⟩, rfl⟩
  · obtain ⟨ht', hne⟩ := mem_filter.1 ht'
    have hok := h.active t' ht'
    refine ⟨hok.id_lt, ?_, hok.copied, hok.logged, hok.covers⟩
    have hne : t'.id ≠ t.id := by simpa using hne
    simp [System.commit, hok.not_committed, hne]
  · have hid : id ∈ s.committed ∨ id = t.id := by simpa [System.commit] using hid
    rcases hid with hid | rfl
    · exact h.committed_lt id hid
    · exact (h.active t ht).id_lt
  · have hok := h.draws d hd
    refine ⟨hok.value, hok.entry_lt, hok.transaction_lt, fun w hw hwd => ?_, fun hc hg => ?_, fun ha => ?_,
      fun htemp hc => ?_⟩
    · obtain ⟨v, hv, hid, hdata, hcopied, hts⟩ := System.mem_commit hw
      obtain ⟨hle, hlt, howner⟩ := hok.version v hv (hid.symm.trans hwd)
      exact ⟨hcopied ▸ hle, hdata ▸ hlt, fun id hwts => howner id (hts id hwts).1⟩
    · rcases h.commit_draw ht hd hc with ⟨hlt, -⟩ | ⟨w, hw, hwd, -⟩
      · exact hlt
      · exact absurd hwd (hg w hw)
    · exact System.exists_commit.2 (hok.live (System.isActive_others ha).1)
    · have hc : d.transaction ∈ s.committed ∨ d.transaction = t.id := by simpa [System.commit] using hc
      rcases hc with hc | hc
      · exact (hok.durable htemp hc).trans_le hrec
      · obtain ⟨u, c, hm, hlt⟩ := (h.active t ht).covers htemp d hd hc
        exact hlt.trans_le (hcovers htemp _ u c hm)
  · -- Two draws of the same count would have different versions, which do not count the same draws.
    refine ((h.distinct.and h.committed).imp_of_mem fun {d e} hd he hde hdc hec => ?_)
    rcases h.commit_draw ht hd hdc, h.commit_draw ht he hec with
      ⟨⟨hd₁, hd₂⟩ | ⟨v, hv, hvd, hvc, hvb, hv₁, hv₂⟩, ⟨he₁, he₂⟩ | ⟨w, hw, hwe, hwc, hwb, hw₁, hw₂⟩⟩
    · exact hde.2 hd₂ he₂
    · omega
    · omega
    · by_cases hvw : v = w
      · exact hde.1 (hvd.symm.trans (hvw ▸ hwe))
      · rcases Apart.of_follows hfollows hv hw hvw hvc hwc with hle | hle <;> omega

/-! ## Runs -/

theorem Inv.step (hi : info.Accepted) (h : ∃ base, Inv info base s) (op : Op) (hs : s.Sound op) :
    ∃ base, Inv info base (s.step op) := by
  obtain ⟨base, h⟩ := h
  cases op with
  | start => exact ⟨base, h.start⟩
  | copy id => exact ⟨base, h.copy id⟩
  | rollback id => exact ⟨base, h.rollback id⟩
  | checkpoint => exact ⟨base, h.checkpoint⟩
  | crash => exact h.crash
  | nextValue id =>
    simp only [System.step]
    split
    · exact ⟨base, h⟩
    · rename_i t ht
      split
      · exact ⟨base, h⟩
      · rename_i v hv
        exact ⟨base, h.nextValue hi (System.mem_of_find ht).1 hv (hs t ht)⟩
  | alter id =>
    simp only [System.step]
    split
    · exact ⟨base, h⟩
    · rename_i t ht
      split
      · exact ⟨base, h⟩
      · rename_i data hd
        exact ⟨base, h.alter (System.mem_of_find ht).1 hd⟩
  | commit id =>
    simp only [System.step]
    split
    · exact ⟨base, h⟩
    · rename_i t ht
      exact ⟨base, h.commit (System.mem_of_find ht).1 (hs t ht)⟩

theorem Inv.committedValues_nodup (hi : info.Accepted) (h : Inv info base s) : s.committedValues.Nodup := by
  refine pairwise_map.2 (pairwise_filter.2 (h.committed.imp_of_mem fun {d e} hd he hne hdc hec heq => ?_))
  rw [(h.draws d hd).value, (h.draws e he).value] at heq
  exact hne (by simpa using hdc) (by simpa using hec) (value_injective hi heq)

end Calls

/-- In every run whose draws go through the newest data and do not overflow, and whose commits put no
older data in its place, no value is handed out to two calls of transactions that commit. -/
theorem committed_values_nodup {info : CreateSequenceInfo} (hi : info.Accepted) (hc : info.cycle = false)
    (temporary : Bool) (ops : List Op) (hs : Lib.Steps System.step System.Sound (initial info temporary) ops) :
    (Lib.run System.step (initial info temporary) ops).committedValues.Nodup := by
  obtain ⟨base, h⟩ := Lib.run_inv_of_steps (P := fun s => ∃ base, Inv info base s) (fun _ op h hop => Inv.step hi h op hop)
    ops ⟨0, Inv.init hi hc temporary⟩ hs
  exact h.committedValues_nodup hi

/-- Two transactions of which one alters the sequence, then a checkpoint, two more and a restart. -/
theorem committed_values_nodup_run :
    (Lib.run System.step (initial {} false) [.start, .start, .nextValue 1, .copy 0, .alter 0, .nextValue 0, .commit 1,
      .commit 0, .checkpoint, .start, .nextValue 2, .commit 2, .crash, .start, .nextValue 3,
      .commit 3]).committedValues.Nodup :=
  committed_values_nodup ⟨rfl, by decide, by decide, by decide, by decide, by decide⟩ rfl false _ (by decide)

/-- Transaction 0 alters the sequence while transaction 1 draws a value from the data it has copied.
After the commit of both, transaction 2 gets the same value. -/
theorem altered_sequence_repeats_value :
    ¬ ∀ info : CreateSequenceInfo, info.Accepted → info.cycle = false → ∀ temporary ops,
      (Lib.run System.step (initial info temporary) ops).committedValues.Nodup := by
  intro h
  have h := h {} ⟨rfl, by decide, by decide, by decide, by decide, by decide⟩ rfl false
    [.start, .start, .copy 0, .alter 0, .nextValue 1, .commit 1, .commit 0, .start, .nextValue 2, .commit 2]
  revert h
  decide

/-- A value that overflows the counter leaves it wrapped: the sequence goes on at the other end. -/
example : (Lib.run System.step
    (initial { increment := 2 ^ 62, minValue := -2 ^ 63, maxValue := 2 ^ 63 - 1, startValue := 0 } false)
      [.start, .nextValue 0, .nextValue 0, .commit 0, .start, .nextValue 1, .nextValue 1, .nextValue 1,
        .commit 1]).committedValues = [0, -2 ^ 63, -2 ^ 62, 0] := by decide

end Haybarn.Sequence
