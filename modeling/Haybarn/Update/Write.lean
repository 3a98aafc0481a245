/-
An update keeps the invariant. The rows of an update without conflict have no other active writer, and
their committed writers were there before its transaction started; so the root has the last committed
value of each of them, which goes to the node of the transaction.
-/
import Haybarn.Update.Invariant

namespace Haybarn.Update

open Lib Transaction List Option

variable {α : Type}

namespace System

/-! ## The transaction after the update -/

/-- The transaction with the id has written the entries. -/
def grow (transactionId : Nat) (update : List (Nat × α)) (t : Writer α) : Writer α :=
  if t.transactionId = transactionId then t.write update else t

theorem grow_transactionId (id : Nat) (update : List (Nat × α)) (t : Writer α) :
    (grow id update t).transactionId = t.transactionId := by
  unfold grow
  split <;> rfl

theorem grow_startTime (id : Nat) (update : List (Nat × α)) (t : Writer α) :
    (grow id update t).startTime = t.startTime := by
  unfold grow
  split <;> rfl

theorem grow_of_ne {id : Nat} {t : Writer α} (h : t.transactionId ≠ id) (update : List (Nat × α)) :
    grow id update t = t := if_neg h

theorem grow_writes (id : Nat) (update : List (Nat × α)) (t : Writer α) (row : Nat) :
    (grow id update t).writes row =
      if t.transactionId = id then (update.lookup row).or (t.writes row) else t.writes row := by
  unfold grow
  split <;> rfl

theorem grow_isSome_iff (id : Nat) (update : List (Nat × α)) (t : Writer α) (row : Nat) :
    ((grow id update t).writes row).isSome ↔
      (t.writes row).isSome ∨ t.transactionId = id ∧ row ∈ update.map (·.1) := by
  rw [grow_writes]
  split
  · next h => rw [isSome_or, Bool.or_eq_true, lookup_isSome_iff_mem, or_comm]; simp [h]
  · next h => simp [h]

section Update

variable {N : Nat} {base : BaseData α} {s : System α} {t : Writer α} {update : List (Nat × α)}

theorem Inv.no_other_writer (h : Inv N base s) (ht : t ∈ s.active)
    (hfree : ∀ info ∈ s.updates.chain, ¬ info.ConflictsWith t.startTime t.transactionId (update.map (·.1)))
    {row : Nat} (hrow : row ∈ update.map (·.1)) {t' : Writer α} (ht' : t' ∈ s.active)
    (hne : t'.transactionId ≠ t.transactionId) : t'.writes row = none := by
  refine not_isSome_iff_eq_none.1 fun hw => ?_
  obtain ⟨info, hi, hv, hhas⟩ := h.node_of_active ht' hw
  refine hfree info hi ⟨hv ▸ hne, ?_, row, hrow, UpdateInfo.has_iff.1 hhas⟩
  have h1 := h.clocks.starts t ht
  have h2 := h.clocks.clock
  have h3 := (h.clocks.ids t' ht').1
  omega

theorem Inv.writers_before (h : Inv N base s) (ht : t ∈ s.active)
    (hfree : ∀ info ∈ s.updates.chain, ¬ info.ConflictsWith t.startTime t.transactionId (update.map (·.1)))
    {row : Nat} (hrow : row ∈ update.map (·.1)) {w : CommittedWriter α} (hw : w ∈ s.committed)
    (hr : (w.writes row).isSome) : w.commitId < t.startTime := by
  by_contra hge
  have hne := h.clocks.apart t ht w hw
  have hlt : t.startTime < w.commitId := by omega
  obtain ⟨info, hi, hv, hhas⟩ := h.node_of_committed hw hr ht hlt
  exact hfree info hi ⟨hv ▸ h.clocks.commit_ne ht hw, hv ▸ hlt, row, hrow, UpdateInfo.has_iff.1 hhas⟩

theorem forall_mem_map_grow {P : Writer α → Prop} {id : Nat} :
    (∀ t' ∈ s.active.map (grow id update), P t') ↔ ∀ t' ∈ s.active, P (grow id update t') := forall_mem_map

theorem Clocks.grow (h : s.Clocks) (u : UpdateVector α) (id : Nat) :
    ({ s with updates := u, active := s.active.map (grow id update) } : System α).Clocks where
  clock := h.clock
  next := h.next
  starts := forall_mem_map_grow.2 fun t ht => grow_startTime id update t ▸ h.starts t ht
  ids := forall_mem_map_grow.2 fun t ht => grow_transactionId id update t ▸ h.ids t ht
  distinct := pairwise_map.2 (h.distinct.imp fun hne => by rwa [grow_transactionId, grow_transactionId])
  commits := h.commits
  order := h.order
  apart := forall_mem_map_grow.2 fun t ht => grow_startTime id update t ▸ h.apart t ht

theorem Inv.serial_grow (h : Inv N base s) (ht : t ∈ s.active)
    (hfree : ∀ info ∈ s.updates.chain, ¬ info.ConflictsWith t.startTime t.transactionId (update.map (·.1)))
    (u : UpdateVector α) :
    ({ s with updates := u, active := s.active.map (grow t.transactionId update) } : System α).Serial := by
  have hother : ∀ t₁ ∈ s.active, ∀ t₂ ∈ s.active, ∀ row, (t₁.writes row).isSome → t₂.transactionId = t.transactionId →
      row ∈ update.map (·.1) → t₁.transactionId = t₂.transactionId := by
    intro t₁ ht₁ t₂ ht₂ row hw hid hrow
    by_contra hne
    rw [h.no_other_writer ht hfree hrow ht₁ (hid ▸ hne)] at hw
    cases hw
  refine ⟨forall_mem_map_grow.2 fun t₁ ht₁ => forall_mem_map_grow.2 fun t₂ ht₂ row h₁ h₂ => ?_,
    forall_mem_map_grow.2 fun t₁ ht₁ w hw row h₁ h₂ => ?_, h.serial.serial⟩
  · rw [grow_transactionId, grow_transactionId]
    rcases (grow_isSome_iff ..).1 h₁ with h₁ | ⟨hid₁, hrow⟩
    · rcases (grow_isSome_iff ..).1 h₂ with h₂ | ⟨hid₂, hrow⟩
      · exact h.serial.oneWriter t₁ ht₁ t₂ ht₂ row h₁ h₂
      · exact hother t₁ ht₁ t₂ ht₂ row h₁ hid₂ hrow
    · rcases (grow_isSome_iff ..).1 h₂ with h₂ | ⟨hid₂, -⟩
      · exact (hother t₂ ht₂ t₁ ht₁ row h₂ hid₁ hrow).symm
      · rw [hid₁, hid₂]
  · rw [grow_startTime]
    rcases (grow_isSome_iff ..).1 h₁ with h₁ | ⟨hid, hrow⟩
    · exact h.serial.after t₁ ht₁ w hw row h₁ h₂
    · rw [h.clocks.active_eq ht₁ ht hid]
      exact h.writers_before ht hfree hrow hw h₂

theorem pairwise_replace {R R' : UpdateInfo α → UpdateInfo α → Prop} {newer own older : List (UpdateInfo α)}
    {node : UpdateInfo α} (h : (newer ++ own ++ older).Pairwise R) (himp : ∀ a b, R a b → R' a b)
    (hnewer : ∀ a ∈ newer, R' a node) (holder : ∀ b ∈ older, R' node b) : (newer ++ node :: older).Pairwise R' := by
  obtain ⟨hno, hold, hcross⟩ := pairwise_append.1 h
  obtain ⟨hnew, -, -⟩ := pairwise_append.1 hno
  refine pairwise_append.2 ⟨hnew.imp (himp _ _), pairwise_cons.2 ⟨holder, hold.imp (himp _ _)⟩, fun a ha b hb => ?_⟩
  rcases mem_cons.1 hb with rfl | hb
  · exact hnewer a ha
  · exact himp a b (hcross a (mem_append_left _ ha) b hb)

variable {u : UpdateVector α} {newer own older : List (UpdateInfo α)} {node : UpdateInfo α}

theorem Inv.version_ne_of_written (h : Inv N base s) (hw : Written base t.transactionId update s.updates u newer own older node)
    {info : UpdateInfo α} (hi : info ∈ newer ∨ info ∈ older) :
    info ∈ s.updates.chain ∧ info.versionNumber ≠ t.transactionId := by
  have hmem : info ∈ s.updates.chain := by
    rw [hw.before]
    rcases hi with hi | hi
    · exact mem_append_left _ (mem_append_left _ hi)
    · exact mem_append_right _ hi
  refine ⟨hmem, ?_⟩
  rcases hw.place with ⟨-, -, hne⟩ | ⟨n, rfl, hn⟩
  · exact hne info hmem
  · have hv := h.chain.versions
    rw [hw.before] at hv
    obtain ⟨hno, -, hcross⟩ := pairwise_append.1 hv
    obtain ⟨-, -, hno⟩ := pairwise_append.1 hno
    rw [← hn]
    rcases hi with hi | hi
    · exact hno info hi n (mem_singleton.2 rfl)
    · exact (hcross n (mem_append_right _ (mem_singleton.2 rfl)) info hi).symm

theorem Inv.own_of_written (h : Inv N base s) (hw : Written base t.transactionId update s.updates u newer own older node)
    {info : UpdateInfo α} : info ∈ own ↔ info ∈ s.updates.chain ∧ info.versionNumber = t.transactionId := by
  constructor
  · intro hi
    refine ⟨?_, ?_⟩
    · rw [hw.before]
      exact mem_append_left _ (mem_append_right _ hi)
    · rcases hw.place with ⟨rfl, -, -⟩ | ⟨n, rfl, hn⟩
      · exact absurd hi not_mem_nil
      · exact mem_singleton.1 hi ▸ hn
  · rintro ⟨hi, hv⟩
    rw [hw.before] at hi
    rcases mem_append.1 hi with hi | hi
    · rcases mem_append.1 hi with hi | hi
      · exact absurd hv (h.version_ne_of_written hw (.inl hi)).2
      · exact hi
    · exact absurd hv (h.version_ne_of_written hw (.inr hi)).2

theorem Inv.node_has (h : Inv N base s) (ht : t ∈ s.active)
    (hw : Written base t.transactionId update s.updates u newer own older node) (row : Nat) :
    (∃ info ∈ own, info.Has row) ↔ (t.writes row).isSome := by
  constructor
  · rintro ⟨info, hi, hhas⟩
    obtain ⟨hmem, hv⟩ := (h.own_of_written hw).1 hi
    exact (h.has_active ht hmem hv row).1 hhas
  · intro hr
    obtain ⟨info, hi, hv, hhas⟩ := h.node_of_active ht hr
    exact ⟨info, (h.own_of_written hw).2 ⟨hi, hv⟩, hhas⟩

theorem Inv.node_value (h : Inv N base s) (ht : t ∈ s.active)
    (hfree : ∀ info ∈ s.updates.chain, ¬ info.ConflictsWith t.startTime t.transactionId (update.map (·.1)))
    (hw : Written base t.transactionId update s.updates u newer own older node) {row : Nat} {v : α}
    (hv : node.tuples.lookup row = some v) : base.Delivers row (s.lastCommitted t.transactionId row) v := by
  by_cases hown : ∃ info ∈ own, info.Has row
  · obtain ⟨info, hi, hhas⟩ := hown
    obtain ⟨v', hv'⟩ := isSome_iff_exists.1 hhas
    obtain ⟨hmem, hver⟩ := (h.own_of_written hw).1 hi
    obtain rfl : v' = v := some.inj ((hw.kept info hi row v' hv').symm.trans hv)
    exact hver ▸ h.chain.value info hmem row v' hv'
  · have hrow : row ∈ update.map (·.1) := ((hw.has row).1 (.of_lookup hv)).resolve_left hown
    -- nobody active has written the row, so the root has the last committed value
    have hnone : ∀ t' ∈ s.active, t'.writes row = none := by
      intro t' ht'
      by_cases hid : t'.transactionId = t.transactionId
      · rw [h.clocks.active_eq ht' ht hid]
        exact not_isSome_iff_eq_none.1 fun hr => hown ((h.node_has ht hw row).2 hr)
      · exact h.no_other_writer ht hfree hrow ht' hid
    have hbound : s.currentStartTimestamp ≤ t.transactionId := Nat.le_trans h.clocks.clock (h.clocks.ids t ht).1
    rw [h.clocks.lastCommitted_eq hbound, ← current_of_none hnone]
    have hrep := hw.replaced row v (fun info hi hhas => hown ⟨info, hi, hhas⟩) hv
    cases hroot : s.updates.rootValue row with
    | none =>
      rw [h.chain.noRootValue row hroot]
      rwa [hroot] at hrep
    | some x =>
      rw [hroot] at hrep
      obtain rfl : v = x := hrep
      exact h.chain.rootValue row v hroot

theorem current_grow (hs : ({ s with updates := u, active := s.active.map (grow t.transactionId update) } : System α).Serial)
    (hc : s.Clocks) (ht : t ∈ s.active) (row : Nat) :
    ({ s with updates := u, active := s.active.map (grow t.transactionId update) } : System α).current row =
      (update.lookup row).or (s.current row) := by
  cases hl : update.lookup row with
  | some v =>
    refine hs.current_of_active (hc.grow u _) (mem_map.2 ⟨t, ht, rfl⟩) ?_
    rw [grow_writes, if_pos rfl, hl]
    rfl
  | none =>
    have hsame : (s.active.map (grow t.transactionId update)).findSome? (·.writes row) =
        s.active.findSome? (·.writes row) := by
      rw [findSome?_map]
      refine findSome?_congr fun t' _ => ?_
      rw [Function.comp_apply, grow_writes, hl, none_or, ite_self]
    unfold current
    dsimp only
    rw [hsame]
    rfl

theorem Inv.chain_grow (h : Inv N base s) (ht : t ∈ s.active) (hne : update ≠ [])
    (hrows : ∀ e ∈ update, e.1 < N)
    (hfree : ∀ info ∈ s.updates.chain, ¬ info.ConflictsWith t.startTime t.transactionId (update.map (·.1)))
    (hw : Written base t.transactionId update s.updates u newer own older node) :
    ({ s with updates := u, active := s.active.map (grow t.transactionId update) } : System α).Chain N base := by
  have hchain := h.chain
  have hstart : t.startTime < transactionIdStart := Nat.lt_of_lt_of_le (h.clocks.starts t ht) h.clocks.clock
  have hid := (h.clocks.ids t ht).1
  have hhas : ∀ row, node.Has row ↔ ((grow t.transactionId update t).writes row).isSome := by
    intro row
    rw [hw.has, h.node_has ht hw, grow_isSome_iff]
    simp
  have hupdate : ∀ row ∈ update.map (·.1), row < N := by
    intro row hrow
    obtain ⟨e, he, rfl⟩ := mem_map.1 hrow
    exact hrows e he
  have hall : ∀ {P : UpdateInfo α → Prop}, P node → (∀ info ∈ s.updates.chain, info.versionNumber ≠ t.transactionId → P info) →
      ∀ info ∈ u.chain, P info := by
    intro P hn ho info hi
    rcases hw.mem_chain.1 hi with rfl | hi
    · exact hn
    · obtain ⟨hmem, hv⟩ := h.version_ne_of_written hw hi
      exact ho info hmem hv
  have hstays : ∀ info ∈ s.updates.chain, info.versionNumber ≠ t.transactionId → info ∈ u.chain := by
    intro info hi hv
    rw [hw.before, append_assoc, mem_append, mem_append] at hi
    refine hw.mem_chain.2 (.inr ?_)
    rcases hi with hi | hi | hi
    · exact .inl hi
    · exact absurd ((h.own_of_written hw).1 hi).2 hv
    · exact .inr hi
  -- a node with a row of the transaction is not later than its start
  have hbelow : ∀ info ∈ s.updates.chain, info.versionNumber ≠ t.transactionId → ∀ row, info.Has row →
      row ∈ update.map (·.1) → info.versionNumber ≤ t.startTime := by
    intro info hi hv row hir hrow
    by_contra hgt
    exact hfree info hi ⟨hv, by omega, row, hrow, UpdateInfo.has_iff.1 hir⟩
  have hserial := h.serial_grow ht hfree u
  refine ⟨hall hw.increasing fun i hi _ => hchain.increasing i hi, hall ?_ fun i hi _ => hchain.nonempty i hi,
    hall (fun row hr => ?_) fun i hi _ => hchain.rows i hi, hall ?_ fun i hi hv => ?_, ?_, ?_, ?_,
    hall (fun row v hv => hw.version ▸ h.node_value ht hfree hw hv) fun i hi _ => hchain.value i hi,
    forall_mem_map_grow.2 fun t' ht' row hr => ?_, fun w hwc row hr hex => ?_, hw.shape, fun hr => ?_, fun row hr => ?_,
    fun row v hv => ?_, fun row hv => ?_⟩
  · rintro hnil
    obtain ⟨e, l, rfl⟩ := exists_cons_of_ne_nil hne
    have : node.Has e.1 := (hw.has e.1).2 (.inr (mem_map.2 ⟨e, mem_cons_self .., rfl⟩))
    rw [UpdateInfo.Has, hnil] at this
    cases this
  · rcases (hw.has row).1 hr with ⟨info, hi, hir⟩ | hr
    · exact hchain.rows info ((h.own_of_written hw).1 hi).1 row hir
    · exact hupdate row hr
  · exact ⟨_, .inl ⟨_, mem_map.2 ⟨t, ht, rfl⟩, (grow_transactionId ..).trans hw.version.symm, rfl⟩, hhas⟩
  · obtain ⟨writes, hwr, hrows⟩ := hchain.writer i hi
    refine ⟨writes, hwr.imp_left ?_, hrows⟩
    rintro ⟨t', ht', hid', hwr'⟩
    exact ⟨t', mem_map.2 ⟨t', ht', grow_of_ne (fun heq => hv (hid'.symm.trans heq)) update⟩, hid', hwr'⟩
  · have hv := hchain.versions
    rw [hw.before] at hv
    rw [hw.after]
    refine pairwise_replace hv (fun _ _ hne => hne) (fun a ha => ?_) fun b hb => ?_
    · rw [hw.version]
      exact (h.version_ne_of_written hw (.inl ha)).2
    · rw [hw.version]
      exact (h.version_ne_of_written hw (.inr hb)).2.symm
  · have ho := hchain.ordered
    rw [hw.before] at ho
    rw [hw.after]
    refine pairwise_replace ho (fun _ _ hlt => hlt) (fun a ha row har hnr => ?_) fun b hb row hnr hbr => ?_
    · obtain ⟨ham, hav⟩ := h.version_ne_of_written hw (.inl ha)
      rw [hw.version]
      rcases hw.place with ⟨-, rfl, -⟩ | ⟨n, rfl, hn⟩
      · exact absurd ha not_mem_nil
      · rcases (hw.has row).1 hnr with ⟨info, hi, hir⟩ | hr
        · obtain rfl := mem_singleton.1 hi
          obtain ⟨hno, -, -⟩ := pairwise_append.1 ho
          exact hn ▸ (pairwise_append.1 hno).2.2 a ha info (mem_singleton.2 rfl) row har hir
        · -- a node ahead of the transaction's is later than its start
          have hah := hchain.ahead
          rw [hw.before] at hah
          obtain ⟨hno, -, -⟩ := pairwise_append.1 hah
          have hlate := (pairwise_append.1 hno).2.2 a ha n (mem_singleton.2 rfl) t ht hn
          have := hbelow a ham hav row har hr
          omega
    · obtain ⟨hbm, hbv⟩ := h.version_ne_of_written hw (.inr hb)
      rw [hw.version]
      rcases (hw.has row).1 hnr with ⟨info, hi, hir⟩ | hr
      · obtain ⟨-, hin⟩ := (h.own_of_written hw).1 hi
        exact hin ▸ (pairwise_append.1 ho).2.2 info (mem_append_right _ hi) b hb row hir hbr
      · have := hbelow b hbm hbv row hbr hr
        omega
  · have ha := hchain.ahead
    rw [hw.before] at ha
    rw [hw.after]
    refine pairwise_replace ha (fun a b hab => forall_mem_map_grow.2 fun t' ht' heq => ?_)
      (fun a ham => forall_mem_map_grow.2 fun t' ht' heq => ?_) fun b _ => forall_mem_map_grow.2 fun t' ht' _ => ?_
    · rw [grow_startTime]
      exact hab t' ht' (heq.trans (grow_transactionId ..))
    · rw [grow_startTime]
      rcases hw.place with ⟨-, rfl, -⟩ | ⟨n, rfl, hn⟩
      · exact absurd ham not_mem_nil
      · obtain ⟨hno, -, -⟩ := pairwise_append.1 ha
        refine (pairwise_append.1 hno).2.2 a ham n (mem_singleton.2 rfl) t' ht' ?_
        rw [hn, ← hw.version, heq, grow_transactionId]
    · rw [grow_startTime, hw.version]
      have := h.clocks.starts t' ht'
      have := h.clocks.clock
      omega
  · rw [grow_transactionId]
    by_cases hid' : t'.transactionId = t.transactionId
    · exact ⟨node, hw.mem_chain.2 (.inl rfl), hw.version.trans hid'.symm⟩
    · rw [grow_of_ne hid'] at hr
      obtain ⟨info, hi, hv⟩ := hchain.activeNode t' ht' row hr
      exact ⟨info, hstays info hi (hv ▸ hid'), hv⟩
  · obtain ⟨t', ht', hlt⟩ := hex
    obtain ⟨t'', ht'', rfl⟩ := mem_map.1 ht'
    rw [grow_startTime] at hlt
    obtain ⟨info, hi, hv⟩ := hchain.committedNode w hwc row hr ⟨t'', ht'', hlt⟩
    exact ⟨info, hstays info hi (hv ▸ h.clocks.commit_ne ht hwc), hv⟩
  · have hsome := hw.isSome
    have hr : u.root = none := hr
    rw [hr] at hsome
    cases hsome
  · have hr := (hw.root row) ▸ hr
    rw [isSome_or, Bool.or_eq_true] at hr
    rcases hr with hr | hr
    · exact hupdate row (lookup_isSome_iff_mem.1 hr)
    · exact hchain.rootRows row hr
  · have hv : u.rootValue row = some v := hv
    rw [hw.root] at hv
    rw [current_grow hserial h.clocks ht]
    cases hl : update.lookup row with
    | some x =>
      rw [hl] at hv
      exact (some.inj hv).symm
    | none =>
      rw [hl] at hv
      exact hchain.rootValue row v hv
  · have hv : u.rootValue row = none := hv
    rw [hw.root] at hv
    obtain ⟨hl, hv⟩ := or_eq_none_iff.1 hv
    rw [current_grow hserial h.clocks ht, hl]
    exact hchain.noRootValue row hv

end Update

end System

end Haybarn.Update
