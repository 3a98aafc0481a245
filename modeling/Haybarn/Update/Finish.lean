/-
Every call keeps the invariant: a start adds a transaction that has written nothing, a commit makes a
writer the last committed one, a rollback takes the newest writer of its rows away, and a cleanup takes
out a node that no active transaction needs.
-/
import Haybarn.Update.Write

namespace Haybarn.Update

open Lib Transaction List Option Nat

variable {α : Type}

namespace System

section Others

variable {N : Nat} {base : BaseData α} {s : System α} {t : Writer α}

/-! ## The other transactions -/

theorem find_of_isActive {id : Nat} (h : s.IsActive id) : ∃ t, s.active.find? (·.transactionId = id) = some t ∧
    t ∈ s.active ∧ t.transactionId = id := by
  obtain ⟨t₀, ht₀, hid₀⟩ := h
  cases hf : s.active.find? (·.transactionId = id) with
  | none => exact absurd hid₀ (by simpa using find?_eq_none.1 hf t₀ ht₀)
  | some t => exact ⟨t, rfl, mem_of_find?_eq_some hf, by simpa using find?_some hf⟩

theorem mem_others {id : Nat} {t : Writer α} : t ∈ s.others id ↔ t ∈ s.active ∧ t.transactionId ≠ id := by
  simp [others]

theorem findSome?_others {id row : Nat} (h : ∀ t ∈ s.active, t.transactionId = id → t.writes row = none) :
    (s.others id).findSome? (·.writes row) = s.active.findSome? (·.writes row) := by
  refine findSome?_filter fun t ht hp => h t ht ?_
  simpa using hp

theorem Clocks.others (h : s.Clocks) (u : UpdateVector α) (id : Nat) :
    ({ s with updates := u, active := s.others id } : System α).Clocks where
  clock := h.clock
  next := h.next
  starts t ht := h.starts t (mem_others.1 ht).1
  ids t ht := h.ids t (mem_others.1 ht).1
  distinct := h.distinct.sublist filter_sublist
  commits := h.commits
  order := h.order
  apart t ht := h.apart t (mem_others.1 ht).1

/-! ## Commit -/

/-- The node of the transaction gets the commit id. -/
def rename (transactionId commitId : Nat) (info : UpdateInfo α) : UpdateInfo α :=
  if info.versionNumber = transactionId then { info with versionNumber := commitId } else info

theorem rename_tuples (id commitId : Nat) (info : UpdateInfo α) : (rename id commitId info).tuples = info.tuples := by
  unfold rename
  split <;> rfl

theorem rename_has (id commitId : Nat) (info : UpdateInfo α) (row : Nat) : (rename id commitId info).Has row ↔ info.Has row := by
  unfold UpdateInfo.Has
  rw [rename_tuples]

theorem rename_version (id commitId : Nat) (info : UpdateInfo α) : (rename id commitId info).versionNumber =
    if info.versionNumber = id then commitId else info.versionNumber := by
  unfold rename
  split <;> rfl

/-- The system after the commit of one of its transactions. -/
def committing (s : System α) (t : Writer α) : System α :=
  { s with
    updates := s.updates.commitUpdate t.transactionId s.currentStartTimestamp
    currentStartTimestamp := s.currentStartTimestamp + 1
    active := s.others t.transactionId
    committed := { t with commitId := s.currentStartTimestamp } :: s.committed }

theorem committing_chain (s : System α) (t : Writer α) : (s.committing t).updates.chain =
    s.updates.chain.map (rename t.transactionId s.currentStartTimestamp) := rfl

theorem lastCommitted_committing (s : System α) (t : Writer α) (bound row : Nat) : (s.committing t).lastCommitted bound row =
    (if s.currentStartTimestamp < bound then t.writes row else none).or (s.lastCommitted bound row) :=
  lastCommitted_cons s { t with commitId := s.currentStartTimestamp } bound row

theorem Clocks.committing (h : s.Clocks) (ht : t ∈ s.active) (hlt : s.currentStartTimestamp < transactionIdStart) :
    (s.committing t).Clocks where
  clock := hlt
  next := h.next
  starts t' ht' := Nat.lt_succ_of_lt (h.starts t' (mem_others.1 ht').1)
  ids t' ht' := h.ids t' (mem_others.1 ht').1
  distinct := h.distinct.sublist filter_sublist
  commits := forall_mem_cons.2 ⟨⟨h.starts t ht, Nat.lt_succ_self _⟩,
    fun w hw => ⟨(h.commits w hw).1, Nat.lt_succ_of_lt (h.commits w hw).2⟩⟩
  order := pairwise_cons.2 ⟨fun w hw => (h.commits w hw).2, h.order⟩
  apart t' ht' := forall_mem_cons.2 ⟨Nat.ne_of_lt (h.starts t' (mem_others.1 ht').1),
    h.apart t' (mem_others.1 ht').1⟩

theorem Serial.others_none (h : s.Serial) (ht : t ∈ s.active) {row : Nat} (hr : (t.writes row).isSome) :
    ∀ t' ∈ s.others t.transactionId, t'.writes row = none := by
  intro t' ht'
  obtain ⟨ht', hne⟩ := mem_others.1 ht'
  exact not_isSome_iff_eq_none.1 fun hr' => hne (h.oneWriter t' ht' t ht row hr' hr)

theorem Serial.committing (h : s.Serial) (hc : s.Clocks) (ht : t ∈ s.active) : (s.committing t).Serial := by
  refine ⟨fun t₁ h₁ t₂ h₂ => h.oneWriter t₁ (mem_others.1 h₁).1 t₂ (mem_others.1 h₂).1, fun t' ht' => ?_, ?_⟩
  · refine forall_mem_cons.2 ⟨fun row hr' hr => ?_, h.after t' (mem_others.1 ht').1⟩
    rw [h.others_none ht hr t' ht'] at hr'
    cases hr'
  · refine forall_mem_cons.2 ⟨forall_mem_cons.2 ⟨fun hlt => absurd hlt (lt_irrefl _), ?_⟩, fun w hw => ?_⟩
    · exact fun w' hw' _ row hr hr' => h.after t ht w' hw' row hr hr'
    · refine forall_mem_cons.2 ⟨fun hlt => ?_, h.serial w hw⟩
      exact absurd hlt (not_lt_of_gt (hc.commits w hw).2)

theorem Inv.current_committing (h : Inv N base s) (ht : t ∈ s.active) (row : Nat) :
    (s.committing t).current row = s.current row := by
  have hlast : (s.committing t).lastCommitted (s.currentStartTimestamp + 1) row =
      (t.writes row).or (s.lastCommitted s.currentStartTimestamp row) := by
    rw [lastCommitted_committing, if_pos (lt_succ_self _), h.clocks.lastCommitted_eq (le_succ _)]
  cases hv : t.writes row with
  | some v =>
    have hsome : (t.writes row).isSome := by rw [hv]; rfl
    have hnone := h.serial.others_none ht hsome
    rw [h.serial.current_of_active h.clocks ht hv, current_of_none hnone]
    exact hlast.trans (by rw [hv]; rfl)
  | none =>
    have hothers : (s.others t.transactionId).findSome? (·.writes row) = s.active.findSome? (·.writes row) :=
      findSome?_others fun t' ht' hid => by rw [h.clocks.active_eq ht' ht hid, hv]
    rw [hv, none_or] at hlast
    have hstep : (s.committing t).current row = ((s.others t.transactionId).findSome? (·.writes row)).or
      ((s.committing t).lastCommitted (s.currentStartTimestamp + 1) row) := rfl
    rw [hstep, hothers, hlast]
    rfl

theorem Inv.committing (h : Inv N base s) (ht : t ∈ s.active) (hlt : s.currentStartTimestamp < transactionIdStart) :
    Inv N base (s.committing t) := by
  have hchain := h.chain
  have hid := (h.clocks.ids t ht).1
  have hnew : ∀ info ∈ s.updates.chain, info.versionNumber ≠ s.currentStartTimestamp := by
    intro info hi heq
    obtain ⟨writes, ⟨t', ht', hid', -⟩ | ⟨w, hw, hid', -⟩, -⟩ := hchain.writer info hi
    · have := (h.clocks.ids t' ht').1
      omega
    · have := (h.clocks.commits w hw).2
      omega
  -- a node that shares a row with the transaction's is of a committed transaction
  have hshare : ∀ info ∈ s.updates.chain, ∀ later ∈ s.updates.chain, ∀ row, info.Has row → later.Has row →
      later.versionNumber = t.transactionId → info.versionNumber ≠ t.transactionId →
      info.versionNumber < s.currentStartTimestamp := by
    intro info hi later hl row hir hlr hlv hiv
    have hr := (h.has_active ht hl hlv row).1 hlr
    obtain ⟨writes, ⟨t', ht', hid', rfl⟩ | ⟨w, hw, hid', -⟩, hrows⟩ := hchain.writer info hi
    · have hsame := h.serial.oneWriter t' ht' t ht row ((hrows row).1 hir) hr
      exact absurd (hid'.symm.trans hsame) hiv
    · exact hid' ▸ (h.clocks.commits w hw).2
  refine ⟨h.clocks.committing ht hlt, h.serial.committing h.clocks ht, ⟨?_, ?_, ?_, ?_, ?_, ?_, ?_, ?_, fun t' ht' row hr => ?_,
    forall_mem_cons.2 ⟨fun row hr _ => ?_, fun w hw row hr hex => ?_⟩, hchain.root, fun hr => ?_, hchain.rootRows,
    fun row v hv => ?_, fun row hv => ?_⟩⟩
  · rw [committing_chain]
    refine forall_mem_map.2 fun i hi => ?_
    rw [rename_tuples]
    exact hchain.increasing i hi
  · rw [committing_chain]
    refine forall_mem_map.2 fun i hi => ?_
    rw [rename_tuples]
    exact hchain.nonempty i hi
  · rw [committing_chain]
    exact forall_mem_map.2 fun i hi row hr => hchain.rows i hi row ((rename_has ..).1 hr)
  · rw [committing_chain]
    refine forall_mem_map.2 fun i hi => ?_
    rw [rename_version]
    simp only [rename_has]
    split
    · next hv =>
      exact ⟨t.writes, .inr ⟨_, mem_cons_self .., rfl, rfl⟩, h.has_active ht hi hv⟩
    · next hv =>
      obtain ⟨writes, ⟨t', ht', hid', hwr⟩ | ⟨w, hw, hid', hwr⟩, hrows⟩ := hchain.writer i hi
      · exact ⟨writes, .inl ⟨t', mem_others.2 ⟨ht', fun heq => hv (hid'.symm.trans heq)⟩, hid', hwr⟩, hrows⟩
      · exact ⟨writes, .inr ⟨w, mem_cons_of_mem _ hw, hid', hwr⟩, hrows⟩
  · rw [committing_chain]
    refine pairwise_map.2 (hchain.versions.imp_of_mem fun {a b} ha hb hne => ?_)
    rw [rename_version, rename_version]
    split
    · next hav => rw [if_neg fun hbv => hne (hav.trans hbv.symm)]; exact (hnew b hb).symm
    · split
      · exact hnew a ha
      · exact hne
  · rw [committing_chain]
    refine pairwise_map.2 (hchain.ordered.imp_of_mem fun {a b} ha hb hab row har hbr => ?_)
    rw [rename_has] at har hbr
    have hlt := hab row har hbr
    rw [rename_version, rename_version]
    split
    · next hbv =>
      -- a node ahead with the row would be of an active transaction
      have hav : a.versionNumber ≠ t.transactionId := by omega
      have := hshare a ha b hb row har hbr hbv hav
      omega
    · next hbv =>
      split
      · next hav => exact hshare b hb a ha row hbr har hav hbv
      · exact hlt
  · rw [committing_chain]
    refine pairwise_map.2 (hchain.ahead.imp_of_mem fun {a b} ha hb hab t' ht' heq => ?_)
    obtain ⟨ht', hne⟩ := mem_others.1 ht'
    rw [rename_version] at heq ⊢
    have hbv : b.versionNumber ≠ t.transactionId := by
      intro hbv
      rw [if_pos hbv] at heq
      have := (h.clocks.ids t' ht').1
      omega
    rw [if_neg hbv] at heq
    split
    · exact h.clocks.starts t' ht'
    · exact hab t' ht' heq
  · rw [committing_chain]
    refine forall_mem_map.2 fun i hi row v hv => ?_
    rw [rename_tuples] at hv
    rw [rename_version, lastCommitted_committing]
    have hold := hchain.value i hi row v hv
    split
    · next hiv =>
      rw [if_neg (lt_irrefl _), none_or, ← h.clocks.lastCommitted_eq (le_of_lt (lt_of_lt_of_le hlt hid)),
        ← hiv]
      exact hold
    · next hiv =>
      split
      · next hgt =>
        -- another transaction that is active has the row
        have hnone : t.writes row = none := by
          refine not_isSome_iff_eq_none.1 fun hr => ?_
          obtain ⟨writes, ⟨t', ht', hid', rfl⟩ | ⟨w, hw, hid', -⟩, hrows⟩ := hchain.writer i hi
          · have hsame := h.serial.oneWriter t' ht' t ht row ((hrows row).1 (.of_lookup hv)) hr
            exact hiv (hid'.symm.trans hsame)
          · have := (h.clocks.commits w hw).2
            omega
        rw [hnone, none_or]
        exact hold
      · exact hold
  · obtain ⟨ht', hne⟩ := mem_others.1 ht'
    obtain ⟨i, hi, hv⟩ := hchain.activeNode t' ht' row hr
    refine ⟨_, mem_map.2 ⟨i, hi, rfl⟩, ?_⟩
    rw [← rename, rename_version, if_neg (hv ▸ hne)]
    exact hv
  · obtain ⟨i, hi, hv⟩ := hchain.activeNode t ht row hr
    refine ⟨_, mem_map.2 ⟨i, hi, rfl⟩, ?_⟩
    rw [← rename, rename_version, if_pos hv]
  · obtain ⟨t', ht', hlt'⟩ := hex
    obtain ⟨i, hi, hv⟩ := hchain.committedNode w hw row hr ⟨t', (mem_others.1 ht').1, hlt'⟩
    refine ⟨_, mem_map.2 ⟨i, hi, rfl⟩, ?_⟩
    rw [← rename, rename_version, if_neg (hv ▸ h.clocks.commit_ne ht hw)]
    exact hv
  · rw [committing_chain, hchain.noRoot hr]
    rfl
  · rw [h.current_committing ht]
    exact hchain.rootValue row v hv
  · rw [h.current_committing ht]
    exact hchain.noRootValue row hv

/-! ## Rollback -/

/-- What a rollback does: the node of the transaction, if there is one, is taken out and its values go to
the root. -/
structure RolledBack (transactionId : Nat) (u u' : UpdateVector α) (values : Nat → Option α) : Prop where
  chain : u'.chain = u.chain.eraseP (·.versionNumber = transactionId)
  root : ∀ row, u'.rootValue row = (values row).or (u.rootValue row)
  shape : u'.RootShape
  noRoot : u'.root = none → u.root = none
  node : (∀ row, values row = none) ∧ (∀ info ∈ u.chain, info.versionNumber ≠ transactionId) ∨
    ∃ info ∈ u.chain, info.versionNumber = transactionId ∧ ∀ row, values row = info.tuples.lookup row

theorem version_ne_of_mem_eraseP {chain : List (UpdateInfo α)} (h : chain.Pairwise (·.versionNumber ≠ ·.versionNumber))
    {version : Nat} {info : UpdateInfo α} (hi : info ∈ chain.eraseP (·.versionNumber = version)) :
    info.versionNumber ≠ version := by
  by_cases hex : ∃ a ∈ chain, a.versionNumber = version
  · obtain ⟨a, ha, hav⟩ := hex
    obtain ⟨a, l₁, l₂, hbefore, hav, rfl, herase⟩ := exists_of_eraseP ha (p := (·.versionNumber = version)) (by simpa using hav)
    have hav : a.versionNumber = version := by simpa using hav
    rw [herase] at hi
    rcases mem_append.1 hi with hi | hi
    · simpa using hbefore info hi
    · exact hav ▸ ((pairwise_cons.1 (pairwise_append.1 h).2.1).1 info hi).symm
  · exact fun hv => hex ⟨info, mem_of_mem_eraseP hi, hv⟩

theorem Inv.rootValue_isSome (h : Inv N base s) (ht : t ∈ s.active) {info : UpdateInfo α} (hi : info ∈ s.updates.chain)
    (hv : info.versionNumber = t.transactionId) {row : Nat} (hr : info.Has row) : (s.updates.rootValue row).isSome := by
  obtain ⟨v, hw⟩ := isSome_iff_exists.1 ((h.has_active ht hi hv row).1 hr)
  by_contra hnone
  have hcur := h.chain.noRootValue row (not_isSome_iff_eq_none.1 hnone)
  rw [h.serial.current_of_active h.clocks ht hw] at hcur
  cases hcur

theorem Inv.rolledBack (h : Inv N base s) (ht : t ∈ s.active) :
    ∃ values, RolledBack t.transactionId s.updates (s.updates.rollbackUpdate t.transactionId) values := by
  cases hf : s.updates.chain.find? (·.versionNumber = t.transactionId) with
  | none =>
    have hnone : ∀ info ∈ s.updates.chain, info.versionNumber ≠ t.transactionId := by
      simpa using find?_eq_none.1 hf
    have hsame : s.updates.rollbackUpdate t.transactionId = s.updates := by
      unfold UpdateVector.rollbackUpdate
      rw [hf]
      cases s.updates.root <;> rfl
    rw [hsame]
    refine ⟨fun _ => none, ?_⟩
    refine ⟨(eraseP_of_forall_not (by simpa using hnone)).symm, fun row => (none_or ..).symm, h.chain.root,
      id, .inl ⟨fun _ => rfl, hnone⟩⟩
  | some info =>
    have hi := mem_of_find?_eq_some hf
    have hv : info.versionNumber = t.transactionId := by simpa using find?_some hf
    cases hr : s.updates.root with
    | none => exact absurd (h.chain.noRoot hr ▸ hi) not_mem_nil
    | some root =>
      unfold UpdateVector.rollbackUpdate
      rw [hr, hf]
      obtain ⟨hrv, hri⟩ := h.chain.root root hr
      have hvalue : ∀ row, s.updates.rootValue row = root.tuples.lookup row := fun row => by
        unfold UpdateVector.rootValue
        rw [hr]
        rfl
      have hsub : ∀ e ∈ info.tuples, e.1 ∈ root.tuples.map (·.1) := by
        intro e he
        have hhas : info.Has e.1 := .of_lookup ((h.chain.increasing info hi).lookup_of_mem he)
        have hsome := h.rootValue_isSome ht hi hv hhas
        rw [hvalue] at hsome
        exact lookup_isSome_iff_mem.1 hsome
      obtain ⟨hkeys, hlook⟩ := rollbackLoop_spec (h.chain.increasing info hi) hri hsub
      have hinc : Increasing (rollbackLoop info.tuples root.tuples) := by
        have hmap : (root.tuples.map (·.1)).Pairwise (· < ·) := pairwise_map.2 hri
        rw [← hkeys] at hmap
        exact pairwise_map.1 hmap
      refine ⟨fun row => info.tuples.lookup row, rfl, fun row => ?_, fun r hr => ?_, fun hnone => (nomatch hnone),
        .inr ⟨info, hi, hv, fun _ => rfl⟩⟩
      · rw [hvalue]
        exact hlook row
      · cases hr
        exact ⟨hrv, hinc⟩

theorem Inv.rollingBack (h : Inv N base s) (ht : t ∈ s.active) :
    Inv N base { s with
      updates := s.updates.rollbackUpdate t.transactionId
      active := s.others t.transactionId } := by
  obtain ⟨values, hrb⟩ := h.rolledBack ht
  generalize s.updates.rollbackUpdate t.transactionId = u at hrb
  have hchain := h.chain
  have hsub : u.chain.Sublist s.updates.chain := hrb.chain ▸ eraseP_sublist
  have hmem : ∀ info ∈ u.chain, info ∈ s.updates.chain := fun info hi => hsub.mem hi
  have hstays : ∀ info ∈ s.updates.chain, info.versionNumber ≠ t.transactionId → info ∈ u.chain := by
    intro info hi hne
    rw [hrb.chain]
    exact (mem_eraseP_of_neg (by simpa using hne)).2 hi
  -- the node of the transaction is gone
  have hgone : ∀ info ∈ u.chain, info.versionNumber ≠ t.transactionId := by
    intro info hi
    rw [hrb.chain] at hi
    exact version_ne_of_mem_eraseP hchain.versions hi
  -- the values are those of the rows that the transaction has written
  have hvalues : ∀ row, (values row).isSome ↔ (t.writes row).isSome := by
    intro row
    rcases hrb.node with ⟨hnone, hno⟩ | ⟨info, hi, hv, heq⟩
    · rw [hnone row]
      refine iff_of_false (by simp) fun hr => ?_
      obtain ⟨info, hi, hv⟩ := hchain.activeNode t ht row hr
      exact hno info hi hv
    · rw [heq row]
      exact h.has_active ht hi hv row
  have hserial : ({ s with updates := u, active := s.others t.transactionId } : System α).Serial :=
    ⟨fun t₁ h₁ t₂ h₂ => h.serial.oneWriter t₁ (mem_others.1 h₁).1 t₂ (mem_others.1 h₂).1,
      fun t' ht' => h.serial.after t' (mem_others.1 ht').1, h.serial.serial⟩
  -- the newest value of a row is the last committed one again
  have hcurrent : ∀ row, ({ s with updates := u, active := s.others t.transactionId } : System α).current row =
      if (t.writes row).isSome then s.lastCommitted s.currentStartTimestamp row else s.current row := by
    intro row
    split
    · next hr => exact current_of_none (h.serial.others_none ht hr)
    · next hr =>
      have hothers : (s.others t.transactionId).findSome? (·.writes row) = s.active.findSome? (·.writes row) :=
        findSome?_others fun t' ht' hid => by
          rw [h.clocks.active_eq ht' ht hid]
          exact not_isSome_iff_eq_none.1 hr
      unfold current
      dsimp only
      rw [hothers]
      rfl
  refine ⟨h.clocks.others u t.transactionId, hserial, ⟨fun i hi => hchain.increasing i (hmem i hi),
    fun i hi => hchain.nonempty i (hmem i hi), fun i hi => hchain.rows i (hmem i hi), fun i hi => ?_,
    hchain.versions.sublist hsub, hchain.ordered.sublist hsub, ?_, fun i hi => hchain.value i (hmem i hi),
    fun t' ht' row hr => ?_, fun w hw row hr hex => ?_, hrb.shape, fun hr => ?_, fun row hr => ?_, fun row v hv => ?_,
    fun row hv => ?_⟩⟩
  · obtain ⟨writes, hwr, hrows⟩ := hchain.writer i (hmem i hi)
    refine ⟨writes, hwr.imp (fun ⟨t', ht', hid', hwr'⟩ => ⟨t', mem_others.2 ⟨ht', fun heq => ?_⟩, hid', hwr'⟩) id, hrows⟩
    exact hgone i hi (hid'.symm.trans heq)
  · exact (hchain.ahead.sublist hsub).imp fun hab t' ht' => hab t' (mem_others.1 ht').1
  · obtain ⟨ht', hne⟩ := mem_others.1 ht'
    obtain ⟨i, hi, hv⟩ := hchain.activeNode t' ht' row hr
    exact ⟨i, hstays i hi (hv ▸ hne), hv⟩
  · obtain ⟨t', ht', hlt⟩ := hex
    obtain ⟨i, hi, hv⟩ := hchain.committedNode w hw row hr ⟨t', (mem_others.1 ht').1, hlt⟩
    exact ⟨i, hstays i hi (hv ▸ h.clocks.commit_ne ht hw), hv⟩
  · exact eq_nil_iff_forall_not_mem.2 fun i hi =>
      absurd (hchain.noRoot (hrb.noRoot hr) ▸ hmem i hi) not_mem_nil
  · have hr := hrb.root row ▸ hr
    rw [isSome_or, Bool.or_eq_true] at hr
    rcases hr with hr | hr
    · obtain ⟨info, hi, hv, hhas⟩ := h.node_of_active ht ((hvalues row).1 hr)
      exact hchain.rows info hi row hhas
    · exact hchain.rootRows row hr
  · have hv : u.rootValue row = some v := hv
    rw [hrb.root] at hv
    rw [hcurrent]
    cases hval : values row with
    | some x =>
      have hr := (hvalues row).1 (by rw [hval]; rfl)
      rw [hval] at hv
      obtain rfl : x = v := some.inj hv
      rw [if_pos hr]
      rcases hrb.node with ⟨hnone, -⟩ | ⟨info, hi, hver, heq⟩
      · rw [hnone row] at hval
        cases hval
      · have hold := hchain.value info hi row x ((heq row).symm.trans hval)
        rwa [hver, h.clocks.lastCommitted_eq (le_trans h.clocks.clock (h.clocks.ids t ht).1)] at hold
    | none =>
      rw [hval, none_or] at hv
      rw [if_neg fun hr => by have := (hvalues row).2 hr; rw [hval] at this; cases this]
      exact hchain.rootValue row v hv
  · have hv : u.rootValue row = none := hv
    rw [hrb.root] at hv
    obtain ⟨hval, hv⟩ := or_eq_none_iff.1 hv
    rw [hcurrent, if_neg fun hr => by have := (hvalues row).2 hr; rw [hval] at this; cases this]
    exact hchain.noRootValue row hv

end Others

/-! ## Calls -/

section Calls

variable [BEq α] {N : Nat} {sort : RowSort α} {base : BaseData α} {s : System α}

theorem Inv.start (h : Inv N base s) (ha : s.Allowed N .start) : Inv N base (s.step sort base .start) := by
  have hlt : s.currentStartTimestamp < transactionIdStart := ha
  obtain ⟨hc, hs, hch⟩ := h
  -- the new transaction has written nothing
  have hcurrent : ∀ row, (s.step sort base .start).current row = s.current row := by
    intro row
    have hclock := hc.lastCommitted_eq (Nat.le_succ s.currentStartTimestamp) row
    exact congrArg (Option.or _) hclock
  refine ⟨⟨hlt, Nat.le_succ_of_le hc.next, ?_, ?_, ?_, fun w hw => ?_, hc.order, ?_⟩, ⟨?_, ?_, hs.serial⟩,
    ⟨hch.increasing, hch.nonempty, hch.rows, fun info hi => ?_, hch.versions, hch.ordered, ?_, hch.value, ?_, ?_, hch.root,
      hch.noRoot, hch.rootRows, fun row v hv => hcurrent row ▸ hch.rootValue row v hv,
      fun row hv => (hcurrent row).trans (hch.noRootValue row hv)⟩⟩
  · refine forall_mem_cons.2 ⟨Nat.lt_succ_self _, fun t ht => Nat.lt_succ_of_lt (hc.starts t ht)⟩
  · refine forall_mem_cons.2 ⟨⟨hc.next, Nat.lt_succ_self _⟩, fun t ht => ?_⟩
    exact ⟨(hc.ids t ht).1, Nat.lt_succ_of_lt (hc.ids t ht).2⟩
  · exact pairwise_cons.2 ⟨fun t ht => Nat.ne_of_gt (hc.ids t ht).2, hc.distinct⟩
  · exact ⟨(hc.commits w hw).1, Nat.lt_succ_of_lt (hc.commits w hw).2⟩
  · exact forall_mem_cons.2 ⟨fun w hw => Nat.ne_of_gt (hc.commits w hw).2, hc.apart⟩
  · refine forall_mem_cons.2 ⟨fun t' _ row hr => (nomatch hr), fun t ht => forall_mem_cons.2
      ⟨fun row _ hr => (nomatch hr), hs.oneWriter t ht⟩⟩
  · exact forall_mem_cons.2 ⟨fun w _ row hr => (nomatch hr), hs.after⟩
  · obtain ⟨writes, hw, hrows⟩ := hch.writer info hi
    exact ⟨writes, hw.imp (fun ⟨t, ht, hid⟩ => ⟨t, mem_cons_of_mem _ ht, hid⟩) id, hrows⟩
  · refine List.Pairwise.imp_of_mem ?_ hch.ahead
    intro info later _ hlater hahead
    refine forall_mem_cons.2 ⟨fun heq => ?_, hahead⟩
    exact absurd heq (Nat.ne_of_lt (Inv.version_lt ⟨hc, hs, hch⟩ hlater))
  · exact forall_mem_cons.2 ⟨fun row hr => (nomatch hr), hch.activeNode⟩
  · rintro w hw row hr ⟨t, ht, hlt⟩
    rcases mem_cons.1 ht with rfl | ht
    · exact absurd hlt (Nat.not_lt_of_gt (hc.commits w hw).2)
    · exact hch.committedNode w hw row hr ⟨t, ht, hlt⟩

theorem mem_of_mem_eraseP {β : Type} {p : β → Bool} {l : List β} {x : β} (hx : x ∈ l) (hp : p x = false) :
    x ∈ l.eraseP p := (mem_eraseP_of_neg (by simp [hp])).2 hx

theorem Inv.cleanup (h : Inv N base s) {commitId : Nat} (ha : s.Allowed N (.cleanup commitId)) :
    Inv N base (s.step sort base (.cleanup commitId)) := by
  obtain ⟨⟨w₀, hw₀, rfl⟩, hbelow⟩ := ha
  obtain ⟨hc, hs, hch⟩ := h
  have hsub : (s.step sort base (.cleanup w₀.commitId)).updates.chain.Sublist s.updates.chain :=
    eraseP_sublist
  have hmem : ∀ info ∈ (s.step sort base (.cleanup w₀.commitId)).updates.chain, info ∈ s.updates.chain :=
    fun info hi => hsub.mem hi
  have hstays : ∀ {version}, version ≠ w₀.commitId → (∃ info ∈ s.updates.chain, info.versionNumber = version) →
      ∃ info ∈ (s.step sort base (.cleanup w₀.commitId)).updates.chain, info.versionNumber = version := by
    rintro version hne ⟨info, hi, rfl⟩
    exact ⟨info, mem_of_mem_eraseP hi (by simpa using hne), rfl⟩
  refine ⟨⟨hc.clock, hc.next, hc.starts, hc.ids, hc.distinct, hc.commits, hc.order, hc.apart⟩,
    ⟨hs.oneWriter, hs.after, hs.serial⟩, ⟨fun i hi => hch.increasing i (hmem i hi), fun i hi => hch.nonempty i (hmem i hi),
      fun i hi => hch.rows i (hmem i hi), fun i hi => hch.writer i (hmem i hi), hch.versions.sublist hsub,
      hch.ordered.sublist hsub, hch.ahead.sublist hsub, fun i hi => hch.value i (hmem i hi), fun t ht row hr => ?_,
      fun w hw row hr ⟨t, ht, hlt⟩ => ?_, hch.root, fun hr => ?_, hch.rootRows, hch.rootValue, hch.noRootValue⟩⟩
  · exact hstays (hc.commit_ne ht hw₀).symm (hch.activeNode t ht row hr)
  · refine hstays (fun heq => ?_) (hch.committedNode w hw row hr ⟨t, ht, hlt⟩)
    have hgt := hbelow t ht
    omega
  · have hnil := hch.noRoot hr
    exact eq_nil_iff_forall_not_mem.2 fun i hi => absurd (hnil ▸ hmem i hi) not_mem_nil

theorem Inv.update (h : Inv N base s) {id : Nat} {entries : List (Nat × Option α)} (uninitialized : Nat → α)
    (ha : s.Allowed N (.update id entries uninitialized)) :
    Inv N base (s.step sort base (.update id entries uninitialized)) := by
  obtain ⟨t, hfind, ht, rfl⟩ := find_of_isActive ha.1
  have hcases := update_cases sort base t.startTime t.transactionId uninitialized entries h.chain.increasing h.chain.root
    h.chain.noRoot
  have hrows : ∀ e ∈ s.updates.effectiveUpdates sort base entries, e.1 < N := fun e he =>
    ha.2 _ ((effectiveUpdates_spec sort base s.updates entries).2 e he)
  simp only [step, hfind]
  generalize s.updates.effectiveUpdates sort base entries = update at hcases hrows ⊢
  generalize s.updates.update sort base t.startTime t.transactionId true uninitialized entries = result at hcases ⊢
  rcases hcases with ⟨rfl, rfl⟩ | ⟨rfl, -⟩ | ⟨hne, hok, hfree, newer, own, older, node, hw⟩
  · -- nothing to write
    have hsame : (s.active.map fun t' => if t'.transactionId = t.transactionId then t'.write [] else t') = s.active := by
      refine map_id''  (fun t' => ?_) _
      split <;> rfl
    dsimp only
    rw [hsame]
    exact h
  · exact h
  · obtain ⟨u, r⟩ := result
    obtain rfl : r = .ok () := hok
    exact ⟨h.clocks.grow u t.transactionId, h.serial_grow ht hfree u, h.chain_grow ht hne hrows hfree hw⟩

theorem Inv.commit (h : Inv N base s) {id : Nat} (ha : s.Allowed N (.commit id)) :
    Inv N base (s.step sort base (.commit id)) := by
  obtain ⟨t, hfind, ht, rfl⟩ := find_of_isActive ha.1
  simp only [step, hfind]
  exact h.committing ht ha.2

theorem Inv.rollback (h : Inv N base s) {id : Nat} (ha : s.Allowed N (.rollback id)) :
    Inv N base (s.step sort base (.rollback id)) := by
  obtain ⟨t, ht, rfl⟩ := ha
  exact h.rollingBack ht

theorem step_inv {op : Op α} (h : Inv N base s) (ha : s.Allowed N op) : Inv N base (s.step sort base op) := by
  cases op with
  | start => exact h.start ha
  | update id update uninitialized => exact h.update uninitialized ha
  | commit id => exact h.commit ha
  | rollback id => exact h.rollback ha
  | cleanup commitId => exact h.cleanup ha

theorem reachable_inv (h : Reachable N sort base s) : Inv N base s := by
  obtain ⟨ops, hsteps, rfl⟩ := h
  exact Lib.run_inv_of_steps (P := Inv N base) (fun _ _ hs ha => step_inv hs ha) ops (Inv.init N base) hsteps

end Calls

end System

end Haybarn.Update
