/-
What holds in every state of a transaction manager: the collections partition the transactions, the
recently committed ones are ordered by commit id, and the cached bounds are below every active
transaction. From it, what garbage collection may assume of the transactions it is given, and when
`lowest_active_start` also bounds the running checkpoint.
-/
import Haybarn.Transaction.Manager
import Mathlib.Data.List.Nodup
import Mathlib.Data.List.Perm.Basic
import Mathlib.Data.List.TakeWhile

namespace Haybarn.Transaction.DuckTransactionManager

open List Nat

/-! ## Definitions -/

/-- The collections that own transactions. -/
inductive Place where
  | active
  | recentlyCommitted
  | awaitingCleanup
  | destroyed
deriving DecidableEq, Repr

/-- The transactions a collection owns. -/
def collection (m : DuckTransactionManager) : Place → List DuckTransaction
  | .active => m.activeTransactions
  | .recentlyCommitted => m.recentlyCommittedTransactions
  | .awaitingCleanup => m.cleanupQueue.flatMap (·.transactions)
  | .destroyed => m.destroyed

/-- The transaction ids of a list of transactions. -/
def ids (l : List DuckTransaction) : List Nat := l.map (·.transactionId)

/-- The ids of all transactions, collection by collection. -/
def allIds (m : DuckTransactionManager) : List Nat :=
  ids (m.collection .active) ++ (ids (m.collection .recentlyCommitted) ++
    (ids (m.collection .awaitingCleanup) ++ ids (m.collection .destroyed)))

/-- The invariant of the manager. The transactions in all collections are the ones that were ever
started, each once; start times and commit ids are below the clock. -/
structure Inv (m : DuckTransactionManager) : Prop where
  idLo : transactionIdStart ≤ m.currentTransactionId
  all : m.allIds.Perm (List.range' transactionIdStart (m.currentTransactionId - transactionIdStart))
  start : ∀ t ∈ m.activeTransactions, t.startTime < m.currentStartTimestamp
  startHi : ∀ t ∈ m.activeTransactions, t.startTime < transactionIdStart
  fresh : ∀ t ∈ m.activeTransactions, t.commitId = 0 ∧ t.awaitingCleanup = false
  clock : 0 < m.currentStartTimestamp
  commit : ∀ t ∈ m.recentlyCommittedTransactions, t.commitId < m.currentStartTimestamp
  sorted : m.recentlyCommittedTransactions.Pairwise (·.commitId < ·.commitId)
  lowStart : ∀ t ∈ m.activeTransactions, m.lowestActiveStart ≤ t.startTime
  lowId : ∀ t ∈ m.activeTransactions, m.lowestActiveId ≤ t.transactionId

/-! ## Transaction ids -/

@[simp] theorem ids_nil : ids [] = [] := rfl

@[simp] theorem ids_cons (t : DuckTransaction) (l : List DuckTransaction) :
    ids (t :: l) = t.transactionId :: ids l := rfl

@[simp] theorem ids_append (l l' : List DuckTransaction) : ids (l ++ l') = ids l ++ ids l' := map_append

theorem ids_map {f : DuckTransaction → DuckTransaction} (hf : ∀ t, (f t).transactionId = t.transactionId)
    (l : List DuckTransaction) : ids (l.map f) = ids l := by
  simp [ids, Function.comp_def, hf]

theorem ids_filter (p : Nat → Bool) (l : List DuckTransaction) :
    ids (l.filter (p ·.transactionId)) = (ids l).filter p := by
  simp [ids, filter_map, Function.comp_def]

variable {m m' : DuckTransactionManager} {t a : DuckTransaction} {tid : Nat} {store : Bool} {op : Op}

theorem ids_perm_others (hn : (ids m.activeTransactions).Nodup)
    (ht : t ∈ m.activeTransactions) :
    (ids m.activeTransactions).Perm (t.transactionId :: ids (m.others t.transactionId)) := by
  have hm : t.transactionId ∈ ids m.activeTransactions := mem_map_of_mem ht
  have h := perm_cons_erase hm
  rwa [hn.erase_eq_filter, ← ids_filter] at h

/-! ## The operations on the active transactions -/

theorem find_some (h : m.find tid = some t) :
    t ∈ m.activeTransactions ∧ t.transactionId = tid :=
  ⟨mem_of_find?_eq_some h, by simpa using find?_some h⟩

theorem mem_others :
    t ∈ m.others tid ↔ t ∈ m.activeTransactions ∧ t.transactionId ≠ tid := by
  simp [others]

theorem mem_setActive
    (h : a ∈ (m.setActive t).activeTransactions) : a = t ∨ a ∈ m.activeTransactions := by
  obtain ⟨b, hb, rfl⟩ := mem_map.1 h
  by_cases hid : b.transactionId = t.transactionId
  · exact .inl (by simp [hid])
  · exact .inr (by simpa [hid] using hb)

theorem ids_setActive (m : DuckTransactionManager) (t : DuckTransaction) :
    ids (m.setActive t).activeTransactions = ids m.activeTransactions := by
  refine ids_map (fun a => ?_) _
  split
  · next h => exact h.symm
  · rfl

theorem others_setActive (m : DuckTransactionManager) (t : DuckTransaction) :
    (m.setActive t).others t.transactionId = m.others t.transactionId := by
  unfold others setActive
  induction m.activeTransactions with
  | nil => rfl
  | cons a l ih =>
    by_cases h : a.transactionId = t.transactionId
    · simpa [h] using ih
    · simpa [h] using ih

theorem finish_setActive (m : DuckTransactionManager) (t : DuckTransaction) (store : Bool) :
    (m.setActive t).finish t store = m.finish t store := by
  have h := others_setActive m t
  simp only [finish, removeTransaction, lowestStartTime, lowestTransactionId, h]
  rfl

/-! ## What one call can do -/

/-- The effects of a call. `edited` covers the work of a transaction and a commit whose rollback
failed; `finished` covers every removal, with the clock and the commit bookkeeping moved first. -/
inductive Change (m : DuckTransactionManager) : DuckTransactionManager → Prop
  | same : Change m m
  | started (isReadOnly : Bool) (hc : m.currentStartTimestamp < transactionIdStart) : Change m
      { m with
        currentStartTimestamp := m.currentStartTimestamp + 1
        currentTransactionId := m.currentTransactionId + 1
        lowestActiveStart := if m.activeTransactions.isEmpty then m.currentStartTimestamp else m.lowestActiveStart
        lowestActiveId := if m.activeTransactions.isEmpty then m.currentTransactionId else m.lowestActiveId
        activeTransactions := m.activeTransactions ++ [{
          startTime := m.currentStartTimestamp, transactionId := m.currentTransactionId,
          catalogVersion := m.lastCommittedVersion, isReadOnly }] }
  | edited {t t' : DuckTransaction} {clock version : Nat} (ht : t ∈ m.activeTransactions)
      (hid : t'.transactionId = t.transactionId) (hs : t'.startTime = t.startTime)
      (hc : t'.commitId = t.commitId ∨ t'.commitId = 0) (ha : t'.awaitingCleanup = t.awaitingCleanup)
      (hclock : m.currentStartTimestamp ≤ clock) : Change m
      ({ m with currentStartTimestamp := clock, lastUncommittedCatalogVersion := version }.setActive t')
  | finished {t t' : DuckTransaction} {store : Bool} {clock last version : Nat} (ht : t ∈ m.activeTransactions)
      (hid : t'.transactionId = t.transactionId)
      (hc : t'.commitId = t.commitId ∨ t'.commitId = 0 ∨
        (t'.commitId = m.currentStartTimestamp ∧ m.currentStartTimestamp < clock))
      (hclock : m.currentStartTimestamp ≤ clock) : Change m
      ({ m with currentStartTimestamp := clock, lastCommit := last, lastCommittedVersion := version }.finish t' store)
  | checkpointed (h : m.activeCheckpoint = maxTransactionId) : Change m { m with activeCheckpoint := m.lastCommit }
  | reset : Change m { m with activeCheckpoint := maxTransactionId }
  | cleaned {ci : DuckCleanupInfo} {queue : List DuckCleanupInfo} (h : m.cleanupQueue = ci :: queue) : Change m
      { m with cleanupQueue := queue, destroyed := m.destroyed ++ ci.transactions }

theorem commitTransaction_change {outcome : CommitOutcome}
    (ht : t ∈ m.activeTransactions) (h : m.commitTransaction t outcome = .ok m') : Change m m' := by
  unfold commitTransaction at h
  split at h
  · cases h
  cases outcome with
  | committed =>
    obtain rfl : _ = m' := Except.ok.inj h
    rw [finish_setActive]
    exact .finished ht rfl (.inr (.inr ⟨rfl, lt_succ_self _⟩)) (le_succ _)
  | failed =>
    obtain rfl : _ = m' := Except.ok.inj h
    rw [finish_setActive]
    exact .finished ht rfl (.inr (.inl rfl)) (le_succ _)
  | rollbackFailed =>
    obtain rfl : _ = m' := Except.ok.inj h
    exact .edited ht rfl rfl (.inr rfl) rfl (le_succ _)

theorem step_change (m : DuckTransactionManager) (op : Op) : Change m (m.step op) := by
  cases op with
  | startTransaction ro =>
    simp only [step, startTransaction]
    split
    · next h =>
      split at h
      · cases h
      · next hlt => cases h; exact .started ro (Nat.lt_of_not_le hlt)
    · exact .same
  | modify tid undo =>
    simp only [step]
    split
    · next t h => exact .edited (find_some h).1 rfl rfl (.inl rfl) rfl (Nat.le_refl _)
    · exact .same
  | pushCatalogEntry tid =>
    simp only [step, pushCatalogEntry]
    split
    · next t h =>
      split
      · next h' =>
        split at h'
        · cases h'
        · cases h'; exact .edited (find_some h).1 rfl rfl (.inl rfl) rfl (Nat.le_refl _)
      · exact .same
    · exact .same
  | commitTransaction tid outcome =>
    simp only [step]
    split
    · next t h =>
      split
      · next h' => exact commitTransaction_change (find_some h).1 h'
      · exact .same
    · exact .same
  | rollbackTransaction tid =>
    simp only [step]
    split
    · next t h => exact .finished (find_some h).1 rfl (.inl rfl) (Nat.le_refl _)
    · exact .same
  | getNewCheckpointId =>
    simp only [step, getNewCheckpointId]
    split
    · next h =>
      split at h
      · cases h
      · next hm => cases h; exact .checkpointed (not_not.1 hm)
    · exact .same
  | resetCheckpointId => exact .reset
  | cleanupTransactions =>
    simp only [step, cleanupTransactions]
    split
    · exact .same
    · next h => exact .cleaned h

/-! ## The bounds that RemoveTransaction computes -/

theorem foldl_min_le (key : DuckTransaction → Nat) (l : List DuckTransaction) (b : Nat) :
    l.foldl (fun x t => min x (key t)) b ≤ b ∧ ∀ t ∈ l, l.foldl (fun x t => min x (key t)) b ≤ key t := by
  induction l generalizing b with
  | nil => exact ⟨le_refl b, fun t h => absurd h not_mem_nil⟩
  | cons a l ih =>
    obtain ⟨h, hl⟩ := ih (min b (key a))
    refine ⟨le_trans h (min_le_left ..), fun t ht => ?_⟩
    rcases mem_cons.1 ht with rfl | ht
    · exact le_trans h (min_le_right ..)
    · exact hl t ht

theorem lowestStartTime_le_start (m : DuckTransactionManager) (tid : Nat)
    (ha : a ∈ m.others tid) : m.lowestStartTime tid ≤ a.startTime := by
  have h := (foldl_min_le (·.startTime) (m.others tid) transactionIdStart).2 a ha
  simp only [lowestStartTime]
  split
  · next hc => exact le_trans (le_of_lt hc.2) h
  · exact h

theorem lowestStartTime_le_checkpoint (m : DuckTransactionManager) (tid : Nat)
    (h : m.activeCheckpoint ≠ maxTransactionId) : m.lowestStartTime tid ≤ m.activeCheckpoint := by
  simp only [lowestStartTime]
  split
  · exact Nat.le_refl _
  · next hc => exact Nat.le_of_not_lt fun hlt => hc ⟨h, hlt⟩

theorem lowestTransactionId_le (m : DuckTransactionManager) (tid : Nat)
    (ha : a ∈ m.others tid) : m.lowestTransactionId tid ≤ a.transactionId :=
  (foldl_min_le (·.transactionId) (m.others tid) maxTransactionId).2 a ha

/-! ## The state after a removal -/

section Finish

variable (m : DuckTransactionManager) (t : DuckTransaction) (store : Bool)

theorem finish_eq : ∃ queue, m.finish t store = { (m.removeTransaction t store).1 with cleanupQueue := queue } ∧
    queue.flatMap (·.transactions) =
      m.cleanupQueue.flatMap (·.transactions) ++ (m.removeTransaction t store).2.transactions := by
  simp only [finish]
  split
  · exact ⟨_, rfl, by simp [removeTransaction]⟩
  · next h =>
    have he : (m.removeTransaction t store).2.transactions = [] := by
      simpa [DuckCleanupInfo.scheduleCleanup] using h
    exact ⟨m.cleanupQueue, rfl, by rw [he, append_nil]⟩

@[simp] theorem finish_activeTransactions : (m.finish t store).activeTransactions = m.others t.transactionId := by
  obtain ⟨_, h, -⟩ := finish_eq m t store
  rw [h]; rfl

@[simp] theorem finish_currentStartTimestamp :
    (m.finish t store).currentStartTimestamp = m.currentStartTimestamp := by
  obtain ⟨_, h, -⟩ := finish_eq m t store
  rw [h]; rfl

@[simp] theorem finish_currentTransactionId : (m.finish t store).currentTransactionId = m.currentTransactionId := by
  obtain ⟨_, h, -⟩ := finish_eq m t store
  rw [h]; rfl

@[simp] theorem finish_lowestActiveStart :
    (m.finish t store).lowestActiveStart = m.lowestStartTime t.transactionId := by
  obtain ⟨_, h, -⟩ := finish_eq m t store
  rw [h]; rfl

@[simp] theorem finish_lowestActiveId :
    (m.finish t store).lowestActiveId = m.lowestTransactionId t.transactionId := by
  obtain ⟨_, h, -⟩ := finish_eq m t store
  rw [h]; rfl

@[simp] theorem finish_activeCheckpoint : (m.finish t store).activeCheckpoint = m.activeCheckpoint := by
  obtain ⟨_, h, -⟩ := finish_eq m t store
  rw [h]; rfl

theorem finish_recentlyCommittedTransactions : (m.finish t store).recentlyCommittedTransactions =
    (m.placeRemoved t store).1.dropWhile (·.commitId < m.lowestStartTime t.transactionId) := by
  obtain ⟨_, h, -⟩ := finish_eq m t store
  rw [h]; rfl

theorem count_placeRemoved (x : Nat) : (ids (m.placeRemoved t store).1).count x +
    (ids (m.placeRemoved t store).2.1).count x + (ids (m.placeRemoved t store).2.2).count x =
      (ids m.recentlyCommittedTransactions).count x + [t.transactionId].count x := by
  unfold placeRemoved
  split
  · split
    · simp [count_append]
    · simp
  · split
    · simp
    · simp

theorem count_moved (p : DuckTransaction → Bool) (l : List DuckTransaction) (x : Nat) :
    (ids ((l.takeWhile p).map ({ · with awaitingCleanup := true }))).count x + (ids (l.dropWhile p)).count x =
      (ids l).count x := by
  have hm : ids ((l.takeWhile p).map ({ · with awaitingCleanup := true })) = ids (l.takeWhile p) := by
    simp [ids]
  rw [hm, ← count_append, ← ids_append, takeWhile_append_dropWhile]

theorem allIds_finish {t : DuckTransaction} (ht : t.transactionId ∈ ids m.activeTransactions)
    (hn : (ids m.activeTransactions).Nodup) : (m.finish t store).allIds.Perm m.allIds := by
  obtain ⟨a, ha, hid⟩ := mem_map.1 ht
  obtain ⟨queue, hf, hq⟩ := finish_eq m t store
  rw [perm_iff_count]
  intro x
  have hact := (ids_perm_others hn ha).count_eq x
  rw [hid] at hact
  have hplace := count_placeRemoved m t store x
  have hmoved := count_moved (·.commitId < m.lowestStartTime t.transactionId) (m.placeRemoved t store).1 x
  rcases hp : m.placeRemoved t store with ⟨recent, scheduled, gone⟩
  simp only [hp, count_cons, count_nil] at hplace hmoved hact
  simp only [hf, allIds, collection, hq, removeTransaction, hp, ids_append, count_append]
  omega

end Finish

/-! ## The invariant holds in every state -/

theorem Inv.nodup (h : Inv m) : m.allIds.Nodup :=
  h.all.nodup_iff.2 (nodup_range' ..)

theorem Inv.active_nodup (h : Inv m) : (ids m.activeTransactions).Nodup :=
  (nodup_append.1 h.nodup).1

theorem Inv.id_lt (h : Inv m) (ht : t ∈ m.activeTransactions) :
    t.transactionId < m.currentTransactionId := by
  have hm : t.transactionId ∈ m.allIds := mem_append_left _ (mem_map_of_mem ht)
  have hr := mem_range'_1.1 (h.all.mem_iff.1 hm)
  have := h.idLo
  omega

theorem init_inv (lastCommit : Nat) : Inv (init lastCommit) := by
  refine ⟨le_refl _, by simp [allIds, collection, init, ids], ?_, ?_, ?_, by simp [init], ?_, .nil, ?_, ?_⟩
  all_goals
    intro t ht
    exact absurd ht not_mem_nil

theorem placeRemoved_sorted (store : Bool) (h : Inv m)
    (hc : t.commitId = 0 ∨ ((∀ r ∈ m.recentlyCommittedTransactions, r.commitId < t.commitId) ∧
      t.commitId < m.currentStartTimestamp)) :
    (m.placeRemoved t store).1.Pairwise (·.commitId < ·.commitId) ∧
      ∀ r ∈ (m.placeRemoved t store).1, r.commitId < m.currentStartTimestamp := by
  unfold placeRemoved
  split
  · split
    · next hne =>
      obtain ⟨hlt, hclock⟩ := hc.resolve_left hne
      refine ⟨pairwise_append.2 ⟨h.sorted, pairwise_singleton .., fun a ha b hb => ?_⟩, fun r hr => ?_⟩
      · rw [mem_singleton.1 hb]
        exact hlt a ha
      · rcases mem_append.1 hr with hr | hr
        · exact h.commit r hr
        · rw [mem_singleton.1 hr]
          exact hclock
    · exact ⟨h.sorted, h.commit⟩
  · split
    · exact ⟨h.sorted, h.commit⟩
    · exact ⟨h.sorted, h.commit⟩

theorem finish_inv {t' : DuckTransaction} (h : Inv m)
    (ht : t ∈ m.activeTransactions) (hid : t'.transactionId = t.transactionId)
    (hc : t'.commitId = 0 ∨ ((∀ r ∈ m.recentlyCommittedTransactions, r.commitId < t'.commitId) ∧
      t'.commitId < m.currentStartTimestamp)) : Inv (m.finish t' store) := by
  have hmem : t'.transactionId ∈ ids m.activeTransactions := hid ▸ mem_map_of_mem ht
  obtain ⟨hsorted, hcommit⟩ := placeRemoved_sorted store h hc
  have hsub : ∀ a ∈ (m.finish t' store).activeTransactions, a ∈ m.activeTransactions := fun a ha =>
    (mem_others.1 (finish_activeTransactions m t' store ▸ ha)).1
  refine ⟨?_, ?_, fun a ha => ?_, fun a ha => h.startHi a (hsub a ha), fun a ha => h.fresh a (hsub a ha), ?_,
    fun r hr => ?_, ?_, fun a ha => ?_, fun a ha => ?_⟩
  · rw [finish_currentTransactionId]
    exact h.idLo
  · rw [finish_currentTransactionId]
    exact (allIds_finish m store hmem h.active_nodup).trans h.all
  · rw [finish_currentStartTimestamp]
    exact h.start a (hsub a ha)
  · rw [finish_currentStartTimestamp]
    exact h.clock
  · rw [finish_currentStartTimestamp]
    rw [finish_recentlyCommittedTransactions] at hr
    exact hcommit r ((dropWhile_sublist _).subset hr)
  · rw [finish_recentlyCommittedTransactions]
    exact hsorted.sublist (dropWhile_sublist _)
  · rw [finish_lowestActiveStart]
    exact lowestStartTime_le_start m _ (by simpa using ha)
  · rw [finish_lowestActiveId]
    exact lowestTransactionId_le m _ (by simpa using ha)

theorem Inv.tick (h : Inv m) {clock : Nat} (last version uncommitted : Nat)
    (hclock : m.currentStartTimestamp ≤ clock) : Inv { m with
      currentStartTimestamp := clock, lastCommit := last, lastCommittedVersion := version,
      lastUncommittedCatalogVersion := uncommitted } :=
  ⟨h.idLo, h.all, fun t ht => lt_of_lt_of_le (h.start t ht) hclock, h.startHi, h.fresh,
    lt_of_lt_of_le h.clock hclock, fun t ht => lt_of_lt_of_le (h.commit t ht) hclock, h.sorted, h.lowStart,
    h.lowId⟩

theorem setActive_inv {t' : DuckTransaction} (h : Inv m)
    (ht : t ∈ m.activeTransactions) (hid : t'.transactionId = t.transactionId) (hs : t'.startTime = t.startTime)
    (hf : t'.commitId = 0 ∧ t'.awaitingCleanup = false) : Inv (m.setActive t') := by
  have hall : (m.setActive t').allIds = m.allIds := by
    simp only [allIds, collection, ids_setActive]
    rfl
  refine ⟨h.idLo, hall ▸ h.all, fun a ha => ?_, fun a ha => ?_, fun a ha => ?_, h.clock, h.commit, h.sorted,
    fun a ha => ?_, fun a ha => ?_⟩
  all_goals rcases mem_setActive ha with rfl | ha
  · exact hs ▸ h.start t ht
  · exact h.start a ha
  · exact hs ▸ h.startHi t ht
  · exact h.startHi a ha
  · exact hf
  · exact h.fresh a ha
  · exact hs ▸ h.lowStart t ht
  · exact h.lowStart a ha
  · exact hid ▸ h.lowId t ht
  · exact h.lowId a ha

theorem range'_succ_perm {lo hi : Nat} (h : lo ≤ hi) :
    (range' lo (hi + 1 - lo)).Perm (hi :: range' lo (hi - lo)) := by
  have he : hi + 1 - lo = (hi - lo) + 1 := by omega
  have hh : lo + (hi - lo) = hi := by omega
  rw [he, range'_1_concat, hh]
  exact perm_append_singleton ..

theorem started_inv (isReadOnly : Bool) (h : Inv m)
    (hlt : m.currentStartTimestamp < transactionIdStart) : Inv (m.step (.startTransaction isReadOnly)) := by
  have hn : ¬ m.currentStartTimestamp ≥ transactionIdStart := by omega
  simp only [step, startTransaction, hn, if_false]
  refine ⟨le_succ_of_le h.idLo, ?_, fun a ha => ?_, fun a ha => ?_, fun a ha => ?_, succ_pos _,
    fun r hr => lt_succ_of_lt (h.commit r hr), h.sorted, fun a ha => ?_, fun a ha => ?_⟩
  · refine List.Perm.trans ?_ (range'_succ_perm h.idLo).symm
    refine List.Perm.trans ?_ (h.all.cons _)
    simp only [allIds, collection, ids_append, ids_cons, ids_nil]
    rw [append_assoc]
    exact perm_middle
  all_goals rcases mem_append.1 ha with ha | ha
  all_goals try rw [mem_singleton.1 ha]
  · exact lt_succ_of_lt (h.start a ha)
  · exact lt_succ_self _
  · exact h.startHi a ha
  · exact hlt
  · exact h.fresh a ha
  · exact ⟨rfl, rfl⟩
  · dsimp only
    rw [if_neg (by simpa using ne_nil_of_mem ha)]
    exact h.lowStart a ha
  · dsimp only
    split
    · exact le_refl _
    · next hne =>
      obtain ⟨b, hb⟩ := exists_mem_of_ne_nil _ (by simpa using hne)
      exact le_of_lt (lt_of_le_of_lt (h.lowStart b hb) (h.start b hb))
  · dsimp only
    rw [if_neg (by simpa using ne_nil_of_mem ha)]
    exact h.lowId a ha
  · dsimp only
    split
    · exact le_refl _
    · next hne =>
      obtain ⟨b, hb⟩ := exists_mem_of_ne_nil _ (by simpa using hne)
      exact le_of_lt (lt_of_le_of_lt (h.lowId b hb) (h.id_lt hb))

theorem change_inv (h : Inv m) (hc : Change m m') : Inv m' := by
  cases hc with
  | same => exact h
  | started isReadOnly hlt =>
    have hn : ¬ m.currentStartTimestamp ≥ transactionIdStart := by omega
    simpa only [step, startTransaction, hn, if_false] using started_inv isReadOnly h hlt
  | @edited t t' clock version ht hid hs hc ha hclock =>
    have hf := h.fresh t ht
    exact setActive_inv (h.tick m.lastCommit m.lastCommittedVersion version hclock) ht hid hs
      ⟨hc.elim (·.trans hf.1) id, ha.trans hf.2⟩
  | @finished t t' store clock last version ht hid hc hclock =>
    refine finish_inv (h.tick last version m.lastUncommittedCatalogVersion hclock) ht hid ?_
    rcases hc with hc | hc | ⟨hc, hlt⟩
    · exact .inl (hc.trans (h.fresh t ht).1)
    · exact .inl hc
    · exact .inr ⟨fun r hr => hc ▸ h.commit r hr, hc ▸ hlt⟩
  | checkpointed _ => exact ⟨h.idLo, h.all, h.start, h.startHi, h.fresh, h.clock, h.commit, h.sorted, h.lowStart, h.lowId⟩
  | reset => exact ⟨h.idLo, h.all, h.start, h.startHi, h.fresh, h.clock, h.commit, h.sorted, h.lowStart, h.lowId⟩
  | @cleaned ci queue hq =>
    refine ⟨h.idLo, List.Perm.trans ?_ h.all, h.start, h.startHi, h.fresh, h.clock, h.commit, h.sorted, h.lowStart, h.lowId⟩
    rw [perm_iff_count]
    intro x
    simp only [allIds, collection, hq, flatMap_cons, ids_append, count_append]
    omega

theorem after_inv (lastCommit : Nat) (ops : List Op) : Inv (after lastCommit ops) :=
  Lib.run_inv (fun m op h => change_inv h (step_change m op)) ops (init_inv lastCommit)

theorem after_append (lastCommit : Nat) (ops : List Op) (op : Op) (later : List Op) :
    after lastCommit (ops ++ op :: later) = Lib.run step ((after lastCommit ops).step op) later := by
  simp only [after, Lib.run_append, Lib.run_cons]

/-! ## Garbage collection -/

/-- What a removal is called with. The state differs from the one before the call in the clock, the
commit bookkeeping and the removed transaction; a transaction that is not stored has no versions
to keep or made no changes. -/
structure Removal (m m' : DuckTransactionManager) (op : Op) (t : DuckTransaction) (store : Bool) : Prop where
  awaiting : t.awaitingCleanup = false
  notStored : store = false → t.hasVersions = true → t.undo.changesMade = false
  result : m.step op = m'.finish t store
  others : m'.others t.transactionId = m.others t.transactionId
  checkpoint : m'.activeCheckpoint = m.activeCheckpoint
  clock : m.currentStartTimestamp ≤ m'.currentStartTimestamp

theorem Inv.removal (h : Inv m)
    (hr : m.removal op = some (m', t, store)) : Removal m m' op t store := by
  cases op with
  | commitTransaction tid outcome =>
    simp only [DuckTransactionManager.removal] at hr
    split at hr
    · next t₀ hfind =>
      have haw := (h.fresh t₀ (find_some hfind).1).2
      split at hr
      · next m₁ hok =>
        have hstep : m.step (.commitTransaction tid outcome) = m₁ := by simp only [step, hfind, hok]
        have hm₁ := hok
        unfold commitTransaction at hm₁
        split at hm₁
        · cases hm₁
        cases outcome with
        | committed =>
          cases hr
          refine ⟨haw, fun hs hv => ?_, hstep.trans (Except.ok.inj hm₁).symm, others_setActive _ _, rfl, le_succ _⟩
          simp [hv] at hs
        | failed =>
          cases hr
          refine ⟨haw, fun hs => ?_, hstep.trans (Except.ok.inj hm₁).symm, others_setActive _ _, rfl, le_succ _⟩
          simp at hs
        | rollbackFailed => cases hr
      · cases hr
    · cases hr
  | rollbackTransaction tid =>
    simp only [DuckTransactionManager.removal] at hr
    split at hr
    · next t₀ hfind =>
      cases hr
      exact ⟨(h.fresh t (find_some hfind).1).2, fun hs _ => hs, by simp only [step, hfind, rollbackTransaction], rfl, rfl,
        le_refl _⟩
    · cases hr
  | _ => cases hr

theorem cleanupInfo_some {ci : DuckCleanupInfo}
    (h : m.cleanupInfo op = some ci) : ∃ m' t store, m.removal op = some (m', t, store) ∧
      ci = (m'.removeTransaction t store).2 := by
  obtain ⟨⟨m', t, store⟩, hr, rfl⟩ := Option.map_eq_some_iff.1 h
  exact ⟨m', t, store, hr, rfl⟩

theorem removeTransaction_transactions (m : DuckTransactionManager) (t : DuckTransaction) (store : Bool) :
    (m.removeTransaction t store).2.transactions = (m.placeRemoved t store).2.1 ++
      ((m.placeRemoved t store).1.takeWhile (·.commitId < m.lowestStartTime t.transactionId)).map
        ({ · with awaitingCleanup := true }) := rfl

theorem commitId_lt_of_moved
    (haw : t.awaitingCleanup = false) (hns : store = false → t.hasVersions = true → t.undo.changesMade = false)
    {c : DuckTransaction} (hc : c ∈ (m.removeTransaction t store).2.transactions) (hca : c.awaitingCleanup = true)
    (hcv : c.hasVersions = true) : c.commitId < m.lowestStartTime t.transactionId := by
  rw [removeTransaction_transactions] at hc
  rcases mem_append.1 hc with hc | hc
  · exfalso
    unfold placeRemoved at hc
    split at hc
    · split at hc
      · cases hc
      · rw [mem_singleton.1 hc, haw] at hca
        cases hca
    · next hs =>
      split at hc
      · next hch =>
        rw [mem_singleton.1 hc] at hcv
        rw [hns (by simpa using hs) hcv] at hch
        cases hch
      · cases hc
  · obtain ⟨r, hr, rfl⟩ := mem_map.1 hc
    simpa using mem_takeWhile_imp hr

/-- `L` is at most every start time now and to come. -/
structure Floor (L : Nat) (m : DuckTransactionManager) : Prop where
  active : ∀ a ∈ m.activeTransactions, L ≤ a.startTime
  clock : L ≤ m.currentStartTimestamp

theorem change_floor {L : Nat} (h : Floor L m) (hc : Change m m') : Floor L m' := by
  cases hc with
  | same => exact h
  | started isReadOnly _ =>
    refine ⟨fun a ha => ?_, le_succ_of_le h.clock⟩
    rcases mem_append.1 ha with ha | ha
    · exact h.active a ha
    · rw [mem_singleton.1 ha]
      exact h.clock
  | @edited t t' clock version ht hid hs hc ha hclock =>
    refine ⟨fun a ha => ?_, le_trans h.clock hclock⟩
    rcases mem_setActive ha with rfl | ha
    · exact hs ▸ h.active t ht
    · exact h.active a ha
  | @finished t t' store clock last version ht hid hc hclock =>
    refine ⟨fun a ha => ?_, ?_⟩
    · rw [finish_activeTransactions] at ha
      exact h.active a (mem_others.1 ha).1
    · rw [finish_currentStartTimestamp]
      exact le_trans h.clock hclock
  | checkpointed _ => exact ⟨h.active, h.clock⟩
  | reset => exact ⟨h.active, h.clock⟩
  | cleaned _ => exact ⟨h.active, h.clock⟩

theorem run_floor {L : Nat} (h : Floor L m) (later : List Op) :
    Floor L (Lib.run step m later) :=
  Lib.run_inv (fun m op h => change_floor h (step_change m op)) later h

/-- The bound of a cleanup info is a floor from then on if another transaction is active, or if
the active checkpoint is not ahead of the clock. -/
theorem Removal.floor
    (hr : Removal m m' op t store) (h : Inv m)
    (hb : (m.step op).activeTransactions ≠ [] ∨
      m.activeCheckpoint ≠ maxTransactionId ∧ m.activeCheckpoint ≤ m.currentStartTimestamp) :
    Floor (m'.lowestStartTime t.transactionId) (m.step op) := by
  rw [hr.result] at hb ⊢
  rw [finish_activeTransactions] at hb
  refine ⟨fun a ha => ?_, ?_⟩
  · rw [finish_activeTransactions] at ha
    exact lowestStartTime_le_start m' _ ha
  · rw [finish_currentStartTimestamp]
    refine le_trans ?_ hr.clock
    rcases hb with hne | ⟨hne, hle⟩
    · obtain ⟨b, hb⟩ := exists_mem_of_ne_nil _ hne
      have hlow := lowestStartTime_le_start m' _ hb
      rw [hr.others] at hb
      exact le_trans hlow (le_of_lt (h.start b (mem_others.1 hb).1))
    · rw [← hr.checkpoint] at hne hle
      exact le_trans (lowestStartTime_le_checkpoint m' _ hne) hle

theorem Inv.existsUnique_place (h : Inv m) (hlo : transactionIdStart ≤ tid)
    (hhi : tid < m.currentTransactionId) : ∃! p, tid ∈ ids (m.collection p) := by
  have hmem : tid ∈ m.allIds := h.all.mem_iff.2 (mem_range'_1.2 (by omega))
  have hone : m.allIds.count tid = 1 := count_eq_one_of_mem h.nodup hmem
  have hpos : ∀ p, tid ∈ ids (m.collection p) → 0 < (ids (m.collection p)).count tid := fun p =>
    count_pos_iff.2
  simp only [allIds, count_append] at hone
  simp only [allIds, mem_append] at hmem
  -- two collections with the id would make its count two
  rcases hmem with hp | hp | hp | hp
  · refine ⟨.active, hp, fun q hq => ?_⟩
    have h1 := hpos _ hp
    have h2 := hpos _ hq
    cases q <;> first | rfl | (exfalso; omega)
  · refine ⟨.recentlyCommitted, hp, fun q hq => ?_⟩
    have h1 := hpos _ hp
    have h2 := hpos _ hq
    cases q <;> first | rfl | (exfalso; omega)
  · refine ⟨.awaitingCleanup, hp, fun q hq => ?_⟩
    have h1 := hpos _ hp
    have h2 := hpos _ hq
    cases q <;> first | rfl | (exfalso; omega)
  · refine ⟨.destroyed, hp, fun q hq => ?_⟩
    have h1 := hpos _ hp
    have h2 := hpos _ hq
    cases q <;> first | rfl | (exfalso; omega)

theorem lowestStartTime_of_alone (h : m.others tid = [])
    (hc : m.activeCheckpoint = maxTransactionId) : m.lowestStartTime tid = transactionIdStart := by
  simp [lowestStartTime, h, hc]

/-- Garbage collection is given no version that is still needed. In every state the recently
committed transactions are in commit order and every started transaction is in exactly one
collection. Whatever call comes next, a transaction with versions that it hands to a cleanup info
committed before every remaining transaction started and before the active checkpoint. The bound
in the cleanup info stays below all start times if some transaction remains active or a checkpoint
that is not ahead of the clock runs; with neither it is `TRANSACTION_ID_START`. -/
theorem garbage_collection_safe (lastCommit : Nat) (ops : List Op) :
    (after lastCommit ops).recentlyCommittedTransactions.Pairwise (·.commitId < ·.commitId) ∧
    (∀ op ci, (after lastCommit ops).cleanupInfo op = some ci →
      (∀ c ∈ ci.transactions, c.awaitingCleanup = true → c.hasVersions = true →
        (∀ a ∈ (after lastCommit (ops ++ [op])).activeTransactions, c.commitId < a.startTime) ∧
        ((after lastCommit ops).activeCheckpoint ≠ maxTransactionId →
          c.commitId < (after lastCommit ops).activeCheckpoint)) ∧
      ((after lastCommit (ops ++ [op])).activeTransactions ≠ [] ∨
          (after lastCommit ops).activeCheckpoint ≠ maxTransactionId ∧
          (after lastCommit ops).activeCheckpoint ≤ (after lastCommit ops).currentStartTimestamp →
        ∀ later, ∀ a ∈ (after lastCommit (ops ++ op :: later)).activeTransactions,
          ci.lowestStartTime ≤ a.startTime) ∧
      ((after lastCommit (ops ++ [op])).activeTransactions = [] →
        (after lastCommit ops).activeCheckpoint = maxTransactionId → ci.lowestStartTime = transactionIdStart)) ∧
    (∀ tid, transactionIdStart ≤ tid → tid < (after lastCommit ops).currentTransactionId →
      ∃! p, tid ∈ ids ((after lastCommit ops).collection p)) ∧
    ∀ p, (ids ((after lastCommit ops).collection p)).Nodup := by
  have h := after_inv lastCommit ops
  refine ⟨h.sorted, fun op ci hci => ?_, fun tid => h.existsUnique_place, fun p => ?_⟩
  · obtain ⟨m', t, store, hrem, rfl⟩ := cleanupInfo_some hci
    have hr := h.removal hrem
    have hactive : (after lastCommit (ops ++ [op])).activeTransactions = m'.others t.transactionId := by
      rw [after_append, Lib.run_nil, hr.result, finish_activeTransactions]
    refine ⟨fun c hc hca hcv => ?_, fun hb later a ha => ?_, fun hnil hck => ?_⟩
    · have hlt := commitId_lt_of_moved hr.awaiting hr.notStored hc hca hcv
      refine ⟨fun a ha => ?_, fun hck => ?_⟩
      · exact Nat.lt_of_lt_of_le hlt (lowestStartTime_le_start m' _ (hactive ▸ ha))
      · have hle := lowestStartTime_le_checkpoint m' t.transactionId (hr.checkpoint ▸ hck)
        exact hr.checkpoint ▸ Nat.lt_of_lt_of_le hlt hle
    · rw [after_append] at ha hb
      exact (run_floor (hr.floor h hb) later).active a ha
    · exact lowestStartTime_of_alone (hactive ▸ hnil) (hr.checkpoint.trans hck)
  · have hn := h.nodup
    simp only [allIds, List.nodup_append] at hn
    cases p
    · exact hn.1
    · exact hn.2.1.1
    · exact hn.2.1.2.1.1
    · exact hn.2.1.2.1.2.1

/-- A cleanup info built while no other transaction is active holds `TRANSACTION_ID_START`, which
is above the start time of the next transaction. -/
theorem cleanup_bound_above_later_start :
    ¬ ∀ (lastCommit : Nat) (ops : List Op) (op : Op) (later : List Op) (ci : DuckCleanupInfo),
      (after lastCommit ops).cleanupInfo op = some ci →
      ∀ a ∈ (after lastCommit (ops ++ op :: later)).activeTransactions, ci.lowestStartTime ≤ a.startTime := by
  intro h
  have hci := h 0 [.startTransaction false, .modify transactionIdStart { changesMade := true, hasUpdates := true }]
    (.commitTransaction transactionIdStart .committed) [.startTransaction false] _ rfl
  revert hci
  decide

/-! ## The cached bounds -/

/-- `lowest_active_start` is at most every active start time and the id after the active checkpoint,
and `lowest_active_id` at most every active transaction id. -/
def BoundsHold (m : DuckTransactionManager) : Prop :=
  (∀ t ∈ m.activeTransactions, m.lowestActiveStart ≤ t.startTime) ∧
  (m.activeCheckpoint ≠ maxTransactionId → m.lowestActiveStart ≤ m.activeCheckpoint + 1) ∧
  ∀ t ∈ m.activeTransactions, m.lowestActiveId ≤ t.transactionId

/-- The calls that keep the bound on the checkpoint. A transaction starts on an empty active set
during a checkpoint only if no time stamp was handed out since the checkpoint's commit; a
checkpoint starts only while the cached start time is at most the one after the last commit. -/
def KeepsCheckpointBound (m : DuckTransactionManager) : Op → Prop
  | .startTransaction _ => m.currentStartTimestamp < transactionIdStart → m.activeTransactions = [] →
      m.activeCheckpoint ≠ maxTransactionId → m.currentStartTimestamp ≤ m.activeCheckpoint + 1
  | .getNewCheckpointId => m.activeCheckpoint = maxTransactionId → m.lastCommit ≠ maxTransactionId →
      m.lowestActiveStart ≤ m.lastCommit + 1
  | _ => True

theorem boundsHold_iff (h : Inv m) : BoundsHold m ↔
    (m.activeCheckpoint ≠ maxTransactionId → m.lowestActiveStart ≤ m.activeCheckpoint + 1) :=
  ⟨fun hb => hb.2.1, fun hb => ⟨h.lowStart, hb, h.lowId⟩⟩

theorem finish_checkpointBound (m : DuckTransactionManager) (t : DuckTransaction) (store : Bool) :
    (m.finish t store).activeCheckpoint ≠ maxTransactionId →
      (m.finish t store).lowestActiveStart ≤ (m.finish t store).activeCheckpoint + 1 := by
  rw [finish_activeCheckpoint, finish_lowestActiveStart]
  exact fun h => le_succ_of_le (lowestStartTime_le_checkpoint m _ h)

theorem commitTransaction_checkpointBound
    {outcome : CommitOutcome} (h : m.commitTransaction t outcome = .ok m')
    (hb : m.activeCheckpoint ≠ maxTransactionId → m.lowestActiveStart ≤ m.activeCheckpoint + 1) :
    m'.activeCheckpoint ≠ maxTransactionId → m'.lowestActiveStart ≤ m'.activeCheckpoint + 1 := by
  unfold commitTransaction at h
  split at h
  · cases h
  cases outcome with
  | rollbackFailed =>
    obtain rfl : _ = m' := Except.ok.inj h
    exact hb
  | _ =>
    obtain rfl : _ = m' := Except.ok.inj h
    exact finish_checkpointBound _ _ _

theorem boundsHold_step (h : Inv m) (hb : BoundsHold m) (op : Op) :
    BoundsHold (m.step op) ↔ KeepsCheckpointBound m op := by
  rw [boundsHold_iff (change_inv h (step_change m op))]
  have hb := hb.2.1
  cases op with
  | startTransaction isReadOnly =>
    by_cases hlt : m.currentStartTimestamp < transactionIdStart
    · have hn : ¬ m.currentStartTimestamp ≥ transactionIdStart := by omega
      simp only [step, startTransaction, hn, if_false, KeepsCheckpointBound, hlt, forall_const]
      by_cases he : m.activeTransactions = []
      · simp [he]
      · simp only [List.isEmpty_iff, he, if_false]
        exact iff_of_true hb fun h => absurd h id
    · have hge : m.currentStartTimestamp ≥ transactionIdStart := by omega
      simp only [step, startTransaction, hge, if_true, KeepsCheckpointBound]
      exact iff_of_true hb fun h => absurd h hlt
  | getNewCheckpointId =>
    by_cases hck : m.activeCheckpoint = maxTransactionId
    · simp [step, getNewCheckpointId, KeepsCheckpointBound, hck]
    · rw [show m.step .getNewCheckpointId = m by simp only [step, getNewCheckpointId, if_pos hck]]
      exact iff_of_true hb fun h => absurd h hck
  | modify tid undo =>
    refine iff_of_true ?_ trivial
    simp only [step]
    split
    · exact hb
    · exact hb
  | pushCatalogEntry tid =>
    refine iff_of_true ?_ trivial
    simp only [step, pushCatalogEntry]
    split
    · split
      · next h' =>
        split at h'
        · cases h'
        · cases h'; exact hb
      · exact hb
    · exact hb
  | commitTransaction tid outcome =>
    refine iff_of_true ?_ trivial
    simp only [step]
    split
    · split
      · next h' => exact commitTransaction_checkpointBound h' hb
      · exact hb
    · exact hb
  | rollbackTransaction tid =>
    refine iff_of_true ?_ trivial
    simp only [step]
    split
    · exact finish_checkpointBound _ _ _
    · exact hb
  | resetCheckpointId => exact iff_of_true (fun hne => absurd rfl hne) trivial
  | cleanupTransactions =>
    refine iff_of_true ?_ trivial
    simp only [step, cleanupTransactions]
    split
    · exact hb
    · exact hb

/-- The cached bounds hold in every state of a run exactly when every call of it keeps the bound on
the checkpoint. -/
theorem bounds_hold_along_iff (lastCommit : Nat) (ops : List Op) :
    Lib.Along step BoundsHold (init lastCommit) ops ↔ Lib.Steps step KeepsCheckpointBound (init lastCommit) ops := by
  have hinit : BoundsHold (init lastCommit) := (boundsHold_iff (init_inv lastCommit)).2 fun h => absurd rfl h
  exact Lib.along_iff_steps (fun m op h => change_inv h (step_change m op))
    (fun m op h hb => boundsHold_step h hb op) ops (init_inv lastCommit) hinit

/-- A transaction that starts on an empty active set raises `lowest_active_start` above the bound
that the last removal had set for the running checkpoint. -/
theorem start_raises_bound_above_checkpoint : ¬ ∀ (lastCommit : Nat) (ops : List Op),
    BoundsHold (after lastCommit ops) := by
  intro h
  have hb := (h 0 [.startTransaction true, .startTransaction false,
    .commitTransaction (transactionIdStart + 1) .committed, .getNewCheckpointId,
    .commitTransaction transactionIdStart .committed, .startTransaction false]).2.1
  revert hb
  decide

end Haybarn.Transaction.DuckTransactionManager
