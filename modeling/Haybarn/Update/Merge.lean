/-
What the loops of an update do to the values of a row: sorting and elimination of duplicates, the
merge join of the conflict check, the merges into the root and into a node, and the rollback, each
in terms of lookups in lists with increasing row ids.
-/
import Haybarn.Lib.SortedAssoc
import Haybarn.Update.Segment
import Mathlib.Data.List.Perm.Subperm
import Mathlib.Tactic.SplitIfs

namespace Haybarn.Update

open Lib Transaction List

variable {α : Type}

/-! ## Sorting -/

theorem isSorted_iff : ∀ {l : List (Nat × α)}, isSorted l = true → Increasing l
  | [], _ => .nil
  | [_], _ => pairwise_singleton ..
  | x :: y :: l, h => by
    simp only [isSorted] at h
    split at h
    · cases h
    · next hlt =>
      have hrest := isSorted_iff h
      refine increasing_cons.2 ⟨fun e he => ?_, hrest⟩
      rcases mem_cons.1 he with rfl | he
      · omega
      · have := (increasing_cons.1 hrest).1 e he
        omega

/-- After an entry with id `prev`, the entries with a larger id are kept once. -/
theorem eliminateDuplicates_spec : ∀ {l : List (Nat × α)} {prev : Nat}, l.Pairwise (·.1 ≤ ·.1) →
    (∀ e ∈ l, prev ≤ e.1) → Increasing (eliminateDuplicates prev l) ∧
      ∀ e ∈ eliminateDuplicates prev l, e ∈ l ∧ prev < e.1
  | [], _, _, _ => ⟨.nil, fun e he => absurd he not_mem_nil⟩
  | x :: l, prev, h, hle => by
    obtain ⟨hx, hl⟩ := pairwise_cons.1 h
    obtain ⟨hinc, hmem⟩ := eliminateDuplicates_spec hl hx
    have hprev := hle x (mem_cons_self ..)
    unfold eliminateDuplicates
    split
    · next hne =>
      refine ⟨increasing_cons.2 ⟨fun e he => (hmem e he).2, hinc⟩, fun e he => ?_⟩
      rcases mem_cons.1 he with rfl | he
      · exact ⟨mem_cons_self .., by omega⟩
      · exact ⟨mem_cons_of_mem _ (hmem e he).1, Nat.lt_of_le_of_lt hprev (hmem e he).2⟩
    · exact ⟨hinc, fun e he => ⟨mem_cons_of_mem _ (hmem e he).1, Nat.lt_of_le_of_lt hprev (hmem e he).2⟩⟩

/-- The result of `SortSelectionVector` increases strictly and has entries of the update only. -/
theorem sortSelectionVector_spec (sort : RowSort α) (update : List (Nat × α)) :
    Increasing (sortSelectionVector sort update) ∧ ∀ e ∈ sortSelectionVector sort update, e ∈ update := by
  unfold sortSelectionVector
  split
  · next h => exact ⟨isSorted_iff h, fun e he => he⟩
  · have hsorted := sort.sorted update
    have hperm := sort.perm update
    split
    · exact ⟨.nil, fun e he => absurd he not_mem_nil⟩
    · next x l hs =>
      rw [hs] at hsorted hperm
      obtain ⟨hx, hl⟩ := pairwise_cons.1 hsorted
      obtain ⟨hinc, hmem⟩ := eliminateDuplicates_spec hl hx
      refine ⟨increasing_cons.2 ⟨fun e he => (hmem e he).2, hinc⟩, fun e he => hperm.mem_iff.1 ?_⟩
      rcases mem_cons.1 he with rfl | he
      · exact mem_cons_self ..
      · exact mem_cons_of_mem _ (hmem e he).1

theorem effectiveUpdates_spec [BEq α] (sort : RowSort α) (base : BaseData α) (u : UpdateVector α)
    (update : List (Nat × Option α)) : Increasing (u.effectiveUpdates sort base update) ∧
      ∀ e ∈ u.effectiveUpdates sort base update, (e.1, some e.2) ∈ update := by
  obtain ⟨hinc, hmem⟩ := sortSelectionVector_spec sort (statisticsUpdateFunction update)
  have hentry : ∀ e ∈ sortSelectionVector sort (statisticsUpdateFunction update), (e.1, some e.2) ∈ update := by
    intro e he
    obtain ⟨⟨row, value⟩, hin, hmap⟩ := mem_filterMap.1 (hmem e he)
    obtain ⟨v, rfl, rfl⟩ := Option.map_eq_some_iff.1 hmap
    exact hin
  unfold UpdateVector.effectiveUpdates
  dsimp only
  split
  · exact ⟨hinc.sublist filter_sublist, fun e he => hentry e (mem_filter.1 he).1⟩
  · exact ⟨hinc, hentry⟩

/-! ## The merge join -/

theorem mergeJoin_iff : ∀ {ids tuples : List Nat}, ids.Pairwise (· < ·) → tuples.Pairwise (· < ·) →
    (mergeJoin ids tuples = true ↔ ∃ id ∈ ids, id ∈ tuples)
  | [], _, _, _ => by simp [mergeJoin]
  | id :: ids, [], _, _ => by simp [mergeJoin, joinRow]
  | id :: ids, tuple :: tuples, hi, ht => by
    obtain ⟨hid, hids⟩ := pairwise_cons.1 hi
    obtain ⟨htuple, htuples⟩ := pairwise_cons.1 ht
    have hstep : mergeJoin (id :: ids) (tuple :: tuples) = if id = tuple then true
      else if id < tuple then mergeJoin ids (tuple :: tuples) else mergeJoin (id :: ids) tuples := rfl
    rw [hstep]
    split
    · next heq => exact iff_of_true rfl ⟨id, mem_cons_self .., heq ▸ mem_cons_self ..⟩
    · next hne =>
      split
      · next hlt =>
        -- the id is below all tuples
        have hnot : id ∉ tuple :: tuples := by
          intro hmem
          rcases mem_cons.1 hmem with heq | hmem
          · exact hne heq
          · have := htuple id hmem
            omega
        rw [mergeJoin_iff hids ht]
        simp only [exists_mem_cons_iff, hnot, false_or]
      · next hge =>
        -- the tuple is below all ids
        rw [mergeJoin_iff hi htuples]
        refine ⟨fun ⟨x, hx, hmem⟩ => ⟨x, hx, mem_cons_of_mem _ hmem⟩, fun ⟨x, hx, hmem⟩ => ⟨x, hx, ?_⟩⟩
        rcases mem_cons.1 hmem with rfl | hmem
        · rcases mem_cons.1 hx with rfl | hx
          · exact absurd rfl hne
          · have := hid x hx
            omega
        · exact hmem
  termination_by ids tuples => ids.length + tuples.length

/-- The node is of another transaction, has a version after the start, and contains one of the rows. -/
def UpdateInfo.ConflictsWith (info : UpdateInfo α) (startTime transactionId : Nat) (ids : List Nat) : Prop :=
  info.versionNumber ≠ transactionId ∧ startTime < info.versionNumber ∧ ∃ id ∈ ids, id ∈ info.tuples.map (·.1)

theorem checkForConflicts_error_iff (startTime transactionId : Nat) {ids : List Nat} (hids : ids.Pairwise (· < ·)) :
    ∀ {chain : List (UpdateInfo α)}, (∀ info ∈ chain, Increasing info.tuples) → ∀ (pos : Nat) (node : Option Nat),
    (checkForConflicts startTime transactionId ids chain pos node = .error .conflictOnUpdate ↔
      ∃ info ∈ chain, info.ConflictsWith startTime transactionId ids)
  | [], _, pos, node => by simp [checkForConflicts]
  | info :: chain, hinc, pos, node => by
    have hrest : ∀ info ∈ chain, Increasing info.tuples := fun i hi => hinc i (mem_cons_of_mem _ hi)
    have hjoin := mergeJoin_iff hids (pairwise_map.2 (hinc info (mem_cons_self ..)))
    rw [exists_mem_cons_iff]
    unfold checkForConflicts
    split
    · next hown =>
      rw [checkForConflicts_error_iff startTime transactionId hids hrest]
      exact (or_iff_right fun hc => hc.1 hown).symm
    · next hother =>
      split
      · next hconf => exact iff_of_true rfl (.inl ⟨hother, hconf.1, hjoin.1 hconf.2⟩)
      · next hconf =>
        rw [checkForConflicts_error_iff startTime transactionId hids hrest]
        exact (or_iff_right fun hc => hconf ⟨hc.2.1, hjoin.2 hc.2.2⟩).symm

theorem checkForConflicts_ok {startTime transactionId : Nat} {ids : List Nat} :
    ∀ {chain : List (UpdateInfo α)} {pos : Nat} {node found : Option Nat},
    checkForConflicts startTime transactionId ids chain pos node = .ok found →
    ((∀ info ∈ chain, info.versionNumber ≠ transactionId) ∧ found = node) ∨
      ∃ i info, chain[i]? = some info ∧ info.versionNumber = transactionId ∧ found = some (pos + i)
  | [], pos, node, found, h => by
    cases h
    exact .inl ⟨fun info hi => absurd hi not_mem_nil, rfl⟩
  | info :: chain, pos, node, found, h => by
    have hlater : (∃ i info, chain[i]? = some info ∧ info.versionNumber = transactionId ∧ found = some (pos + 1 + i)) →
        ∃ i i', (info :: chain)[i]? = some i' ∧ i'.versionNumber = transactionId ∧ found = some (pos + i) := by
      rintro ⟨i, info', hi, hown, hf⟩
      exact ⟨i + 1, info', hi, hown, by rw [hf]; congr 1; omega⟩
    unfold checkForConflicts at h
    split at h
    · next hown =>
      rcases checkForConflicts_ok h with ⟨-, rfl⟩ | hex
      · exact .inr ⟨0, info, rfl, hown, rfl⟩
      · exact .inr (hlater hex)
    · next hother =>
      split at h
      · cases h
      · rcases checkForConflicts_ok h with ⟨hnone, rfl⟩ | hex
        · refine .inl ⟨fun i hi => ?_, rfl⟩
          rcases mem_cons.1 hi with rfl | hi
          · exact hother
          · exact hnone i hi
        · exact .inr (hlater hex)

/-! ## The merge into the root -/

theorem mergeLoop_cons_cons (e old : Nat × α) (new olds : List (Nat × α)) :
    mergeLoop (e :: new) (old :: olds) = if e.1 = old.1 then e :: mergeLoop new olds
      else if e.1 < old.1 then e :: mergeLoop new (old :: olds) else old :: mergeLoop (e :: new) olds := rfl

theorem mem_mergeLoop : ∀ {new olds : List (Nat × α)} {x : Nat × α}, x ∈ mergeLoop new olds → x ∈ new ∨ x ∈ olds
  | [], olds, x, h => .inr h
  | e :: new, [], x, h => by
    rcases mem_cons.1 (show x ∈ e :: mergeLoop new [] from h) with rfl | h
    · exact .inl (mem_cons_self ..)
    · rcases mem_mergeLoop h with h | h
      · exact .inl (mem_cons_of_mem _ h)
      · exact .inr h
  | e :: new, old :: olds, x, h => by
    rw [mergeLoop_cons_cons] at h
    split_ifs at h
    · rcases mem_cons.1 h with rfl | h
      · exact .inl (mem_cons_self ..)
      · exact (mem_mergeLoop h).imp (mem_cons_of_mem _) (mem_cons_of_mem _)
    · rcases mem_cons.1 h with rfl | h
      · exact .inl (mem_cons_self ..)
      · exact (mem_mergeLoop h).imp (mem_cons_of_mem _) id
    · rcases mem_cons.1 h with rfl | h
      · exact .inr (mem_cons_self ..)
      · exact (mem_mergeLoop h).imp id (mem_cons_of_mem _)
  termination_by new olds => new.length + olds.length

/-- The merge keeps the ids increasing, and a new entry replaces an old one. -/
theorem mergeLoop_spec : ∀ {new olds : List (Nat × α)}, Increasing new → Increasing olds →
    Increasing (mergeLoop new olds) ∧ ∀ k, (mergeLoop new olds).lookup k = (new.lookup k).or (olds.lookup k)
  | [], olds, _, ho => ⟨ho, fun _ => rfl⟩
  | e :: new, [], hn, ho => by
    obtain ⟨he, hnew⟩ := increasing_cons.1 hn
    obtain ⟨hinc, hlook⟩ := mergeLoop_spec hnew ho
    have hstep : mergeLoop (e :: new) [] = e :: mergeLoop new [] := rfl
    rw [hstep]
    refine ⟨increasing_cons.2 ⟨fun x hx => ?_, hinc⟩, fun k => ?_⟩
    · rcases mem_mergeLoop hx with hx | hx
      · exact he x hx
      · exact absurd hx not_mem_nil
    · rw [lookup_cons_eq, lookup_cons_eq, hlook]
      split <;> rfl
  | e :: new, old :: olds, hn, ho => by
    obtain ⟨he, hnew⟩ := increasing_cons.1 hn
    obtain ⟨hold, holds⟩ := increasing_cons.1 ho
    rw [mergeLoop_cons_cons]
    split_ifs with heq hlt
    · obtain ⟨hinc, hlook⟩ := mergeLoop_spec hnew holds
      refine ⟨increasing_cons.2 ⟨fun x hx => ?_, hinc⟩, fun k => ?_⟩
      · rcases mem_mergeLoop hx with hx | hx
        · exact he x hx
        · exact heq ▸ hold x hx
      · rw [lookup_cons_eq, lookup_cons_eq, lookup_cons_eq, hlook, heq]
        split <;> rfl
    · obtain ⟨hinc, hlook⟩ := mergeLoop_spec hnew ho
      refine ⟨increasing_cons.2 ⟨fun x hx => ?_, hinc⟩, fun k => ?_⟩
      · rcases mem_mergeLoop hx with hx | hx
        · exact he x hx
        · rcases mem_cons.1 hx with rfl | hx
          · exact hlt
          · exact Nat.lt_trans hlt (hold x hx)
      · rw [lookup_cons_eq, lookup_cons_eq (l := new), hlook]
        split <;> rfl
    · obtain ⟨hinc, hlook⟩ := mergeLoop_spec hn holds
      have hgt : old.1 < e.1 := by omega
      refine ⟨increasing_cons.2 ⟨fun x hx => ?_, hinc⟩, fun k => ?_⟩
      · rcases mem_mergeLoop hx with hx | hx
        · rcases mem_cons.1 hx with rfl | hx
          · exact hgt
          · exact Nat.lt_trans hgt (he x hx)
        · exact hold x hx
      · rw [lookup_cons_eq, lookup_cons_eq (l := olds), hlook]
        split
        · next hk =>
          -- no new entry has the id of the old one
          have hnone : (e :: new).lookup k = none := by
            refine lookup_eq_none_of_lt fun x hx => ?_
            rcases mem_cons.1 hx with rfl | hx
            · exact hk ▸ hgt
            · exact hk ▸ Nat.lt_trans hgt (he x hx)
          rw [hnone]
          rfl
        · rfl
  termination_by new olds => new.length + olds.length

/-! ## The merge into the node of the transaction -/

theorem replacedValue_eq (base : BaseData α) {root : List (Nat × α)} (h : Increasing root) (id : Nat) :
    replacedValue base id (root.dropWhile (·.1 < id)) = (root.lookup id).getD (base.data id) := by
  rw [← lookup_dropWhile root (Nat.le_refl id)]
  cases hd : root.dropWhile (·.1 < id) with
  | nil => rfl
  | cons e l =>
    have hinc : Increasing (e :: l) := hd ▸ h.dropWhile _
    have hle : id ≤ e.1 := h.le_of_mem_dropWhile (hd ▸ mem_cons_self ..)
    rw [lookup_cons_eq, replacedValue]
    split
    · rfl
    · rw [lookup_eq_none_of_lt fun x hx => Nat.lt_of_le_of_lt hle ((increasing_cons.1 hinc).1 x hx)]
      rfl

/-- One turn of the merge: the entries below the id are kept, and then the entry of the node for the
id, or a new one with the replaced value. -/
theorem mergeReplaced_cons (base : BaseData α) {root node : List (Nat × α)} (hr : Increasing root) (hn : Increasing node)
    (id : Nat) (ids : List Nat) :
    (∃ v rest, node.dropWhile (·.1 < id) = (id, v) :: rest ∧
      mergeReplaced base root node (id :: ids) =
        node.takeWhile (·.1 < id) ++ (id, v) :: mergeReplaced base root rest ids) ∨
    ((∀ e ∈ node.dropWhile (·.1 < id), id < e.1) ∧
      mergeReplaced base root node (id :: ids) = node.takeWhile (·.1 < id) ++ (id, (root.lookup id).getD (base.data id)) ::
        mergeReplaced base (root.dropWhile (·.1 < id)) (node.dropWhile (·.1 < id)) ids) := by
  rw [← replacedValue_eq base hr]
  simp only [mergeReplaced]
  cases hd : node.dropWhile (·.1 < id) with
  | nil => exact .inr ⟨fun e he => absurd he not_mem_nil, rfl⟩
  | cons e rest =>
    have hle : id ≤ e.1 := hn.le_of_mem_dropWhile (hd ▸ mem_cons_self ..)
    have hlt := (increasing_cons.1 (hd ▸ hn.dropWhile _ : Increasing (e :: rest))).1
    obtain ⟨k, v⟩ := e
    dsimp only at hle hlt ⊢
    by_cases heq : k = id
    · subst heq
      exact .inl ⟨v, rest, rfl, by rw [if_pos rfl]⟩
    · refine .inr ⟨fun x hx => ?_, by rw [if_neg heq]⟩
      rcases mem_cons.1 hx with rfl | hx
      · show id < k
        omega
      · have := hlt x hx
        omega

theorem increasing_append_cons {before tail : List (Nat × α)} {x : Nat × α} (hb : Increasing before)
    (hbx : ∀ e ∈ before, e.1 < x.1) (hxt : ∀ e ∈ tail, x.1 < e.1) (ht : Increasing tail) :
    Increasing (before ++ x :: tail) := by
  refine pairwise_append.2 ⟨hb, increasing_cons.2 ⟨hxt, ht⟩, fun e he e' he' => ?_⟩
  rcases mem_cons.1 he' with rfl | he'
  · exact hbx e he
  · exact Nat.lt_trans (hbx e he) (hxt e' he')

/-- The node keeps its values and gets the replaced values of the other rows of the update. -/
theorem mergeReplaced_spec (base : BaseData α) : ∀ {ids : List Nat} {root node : List (Nat × α)},
    ids.Pairwise (· < ·) → Increasing root → Increasing node →
    Increasing (mergeReplaced base root node ids) ∧
    (∀ e ∈ mergeReplaced base root node ids, e ∈ node ∨ e.1 ∈ ids) ∧
    ∀ k, (mergeReplaced base root node ids).lookup k =
      (node.lookup k).or (if k ∈ ids then some ((root.lookup k).getD (base.data k)) else none)
  | [], root, node, _, _, hn => by
    refine ⟨by simpa [mergeReplaced] using hn, fun e he => .inl (by simpa [mergeReplaced] using he), fun k => ?_⟩
    simp [mergeReplaced]
  | id :: ids, root, node, hids, hr, hn => by
    obtain ⟨hid, hids⟩ := pairwise_cons.1 hids
    have hbefore : ∀ e ∈ node.takeWhile (·.1 < id), e.1 < id := fun e he => lt_of_mem_takeWhile he
    have hsplit : ∀ k, node.lookup k = ((node.takeWhile (·.1 < id)).lookup k).or
        ((node.dropWhile (·.1 < id)).lookup k) := fun k => by
      rw [← lookup_append, takeWhile_append_dropWhile]
    have hmem : ∀ e, e ∈ node.takeWhile (·.1 < id) → e ∈ node := fun e he => (takeWhile_sublist _).mem he
    have hmem' : ∀ e, e ∈ node.dropWhile (·.1 < id) → e ∈ node := fun e he => (dropWhile_sublist _).mem he
    have hinc := hn.sublist (takeWhile_sublist (fun e => decide (e.1 < id)))
    rcases mergeReplaced_cons base hr hn id ids with ⟨v, rest, hd, heq⟩ | ⟨hgt, heq⟩
    · -- the node has the row
      rw [heq]
      obtain ⟨hlt, hrest⟩ := increasing_cons.1 (hd ▸ hn.dropWhile _ : Increasing ((id, v) :: rest))
      obtain ⟨hi, hm, hl⟩ := mergeReplaced_spec base hids hr hrest
      refine ⟨increasing_append_cons hinc hbefore (fun e he => ?_) hi, fun e he => ?_, fun k => ?_⟩
      · rcases hm e he with he | he
        · exact hlt e he
        · exact hid e.1 he
      · rcases mem_append.1 he with he | he
        · exact .inl (hmem e he)
        · rcases mem_cons.1 he with rfl | he
          · exact .inr (mem_cons_self ..)
          · exact (hm e he).imp (fun he => hmem' e (hd ▸ mem_cons_of_mem _ he)) (mem_cons_of_mem _)
      · rw [hsplit k, hd, lookup_append, lookup_cons_eq, lookup_cons_eq, hl k, Option.or_assoc]
        by_cases hk : id = k
        · simp [hk]
        · simp [hk, Ne.symm hk]
    · -- the row is new to the node
      rw [heq]
      obtain ⟨hi, hm, hl⟩ := mergeReplaced_spec base hids (hr.dropWhile (fun e => decide (e.1 < id)))
        (hn.dropWhile (fun e => decide (e.1 < id)))
      refine ⟨increasing_append_cons hinc hbefore (fun e he => ?_) hi, fun e he => ?_, fun k => ?_⟩
      · rcases hm e he with he | he
        · exact hgt e he
        · exact hid e.1 he
      · rcases mem_append.1 he with he | he
        · exact .inl (hmem e he)
        · rcases mem_cons.1 he with rfl | he
          · exact .inr (mem_cons_self ..)
          · exact (hm e he).imp (hmem' e) (mem_cons_of_mem _)
      · rw [hsplit k, lookup_append, lookup_cons_eq, hl k, Option.or_assoc]
        congr 1
        by_cases hk : id = k
        · subst hk
          rw [lookup_eq_none_of_lt hgt]
          simp
        · rw [if_neg hk]
          congr 1
          by_cases hin : k ∈ ids
          · rw [if_pos hin, if_pos (mem_cons_of_mem _ hin), lookup_dropWhile root (Nat.le_of_lt (hid k hin))]
          · rw [if_neg hin, if_neg fun h => (mem_cons.1 h).elim (fun h => hk h.symm) hin]

/-! ## Rollback -/

theorem rollbackLoop_cons_cons (e b : Nat × α) (rollback base : List (Nat × α)) :
    rollbackLoop (e :: rollback) (b :: base) = if b.1 < e.1 then b :: rollbackLoop (e :: rollback) base
      else rollbackLoop rollback ((b.1, e.2) :: base) := rfl

/-- A rollback writes the values of its rows, which the root has. -/
theorem rollbackLoop_spec : ∀ {rollback base : List (Nat × α)}, Increasing rollback → Increasing base →
    (∀ e ∈ rollback, e.1 ∈ base.map (·.1)) → (rollbackLoop rollback base).map (·.1) = base.map (·.1) ∧
      ∀ k, (rollbackLoop rollback base).lookup k = (rollback.lookup k).or (base.lookup k)
  | [], base, _, _, _ => ⟨rfl, fun _ => rfl⟩
  | e :: rollback, [], _, _, hsub => absurd (hsub e (mem_cons_self ..)) not_mem_nil
  | e :: rollback, b :: base, hrb, hb, hsub => by
    obtain ⟨he, hrb'⟩ := increasing_cons.1 hrb
    obtain ⟨hbase, hb'⟩ := increasing_cons.1 hb
    rw [rollbackLoop_cons_cons]
    split
    · next hlt =>
      have hsub' : ∀ x ∈ e :: rollback, x.1 ∈ base.map (·.1) := by
        intro x hx
        have hgt : b.1 < x.1 := by
          rcases mem_cons.1 hx with rfl | hx
          · exact hlt
          · exact Nat.lt_trans hlt (he x hx)
        rcases mem_cons.1 (hsub x hx) with heq | hmem
        · exact absurd heq hgt.ne'
        · exact hmem
      obtain ⟨hkeys, hlook⟩ := rollbackLoop_spec hrb hb' hsub'
      refine ⟨by rw [map_cons, map_cons, hkeys], fun k => ?_⟩
      rw [lookup_cons_eq, lookup_cons_eq k b, hlook k]
      split
      · next hk =>
        have hnone : (e :: rollback).lookup k = none := by
          refine lookup_eq_none_of_lt fun x hx => ?_
          rcases mem_cons.1 hx with rfl | hx
          · exact hk ▸ hlt
          · exact hk ▸ Nat.lt_trans hlt (he x hx)
        rw [hnone]
        rfl
      · rfl
    · next hge =>
      -- the row is in the root, so the first entry that is not below it is its own
      have heq : b.1 = e.1 := by
        rcases mem_cons.1 (hsub e (mem_cons_self ..)) with heq | hmem
        · exact heq.symm
        · obtain ⟨x, hx, hxe⟩ := mem_map.1 hmem
          have := hbase x hx
          omega
      have hinc : Increasing ((b.1, e.2) :: base) := increasing_cons.2 ⟨hbase, hb'⟩
      obtain ⟨hkeys, hlook⟩ := rollbackLoop_spec hrb' hinc fun x hx => hsub x (mem_cons_of_mem _ hx)
      refine ⟨hkeys, fun k => ?_⟩
      rw [hlook k, lookup_cons_eq, lookup_cons_eq k e, lookup_cons_eq k b, heq]
      split
      · next hk =>
        rw [lookup_eq_none_of_lt fun x hx => hk ▸ he x hx]
        rfl
      · rfl
  termination_by rollback base => rollback.length + base.length

/-! ## Fetching -/

theorem map_fst_eq_range {N : Nat} {l : List (Nat × α)} (h : Increasing l) (hlt : ∀ e ∈ l, e.1 < N) (hlen : l.length = N) :
    l.map (·.1) = range N := by
  have hinc : (l.map (·.1)).Pairwise (· < ·) := pairwise_map.2 h
  have hsub : l.map (·.1) ⊆ range N := by
    intro row hrow
    obtain ⟨e, he, rfl⟩ := mem_map.1 hrow
    exact mem_range.2 (hlt e he)
  have hperm := (subperm_of_subset (hinc.imp Nat.ne_of_lt) hsub).perm_of_length_le (by simp [hlen])
  refine hperm.eq_of_pairwise (fun a b _ _ (hab : a < b) hba => ?_) hinc pairwise_lt_range
  omega

theorem mergeUpdateInfo_eq {N : Nat} {info : UpdateInfo α} (h : Increasing info.tuples)
    (hlt : ∀ e ∈ info.tuples, e.1 < N) (result : Nat → α) {row : Nat} (hrow : row < N) :
    info.mergeUpdateInfo N result row = (info.tuples.lookup row).getD (result row) := by
  unfold UpdateInfo.mergeUpdateInfo
  split
  · next hlen =>
    have hkeys := map_fst_eq_range h hlt hlen
    have hget : (info.tuples[row]?).map (·.1) = some row := by
      rw [← getElem?_map, hkeys, getElem?_range hrow]
    obtain ⟨e, he, heq⟩ := Option.map_eq_some_iff.1 hget
    have hlook := h.lookup_of_mem (mem_of_getElem? he)
    rw [heq] at hlook
    dsimp only
    rw [he, hlook]
    rfl
  · exact h.foldl_update result

/-- The value of a row after merging nodes in order. -/
def mergedValue (infos : List (UpdateInfo α)) (row : Nat) (v : α) : α :=
  infos.foldl (fun v info => (info.tuples.lookup row).getD v) v

theorem foldl_mergeUpdateInfo {N : Nat} {row : Nat} (hrow : row < N) : ∀ {infos : List (UpdateInfo α)},
    (∀ info ∈ infos, Increasing info.tuples ∧ ∀ e ∈ info.tuples, e.1 < N) → ∀ (result : Nat → α),
    infos.foldl (fun result info => info.mergeUpdateInfo N result) result row = mergedValue infos row (result row)
  | [], _, _ => rfl
  | info :: infos, h, result => by
    obtain ⟨hinc, hlt⟩ := h info (mem_cons_self ..)
    rw [foldl_cons, foldl_mergeUpdateInfo hrow fun i hi => h i (mem_cons_of_mem _ hi),
      mergeUpdateInfo_eq hinc hlt result hrow]
    rfl

theorem mergedValue_of_none {row : Nat} : ∀ {infos : List (UpdateInfo α)} {v : α},
    (∀ info ∈ infos, info.tuples.lookup row = none) → mergedValue infos row v = v
  | [], _, _ => rfl
  | info :: infos, v, h => by
    have hinfo := h info (mem_cons_self ..)
    unfold mergedValue
    rw [foldl_cons, hinfo]
    exact mergedValue_of_none fun i hi => h i (mem_cons_of_mem _ hi)

theorem mergedValue_of_some {row : Nat} : ∀ {infos : List (UpdateInfo α)} {v : α},
    (∃ info ∈ infos, (info.tuples.lookup row).isSome) → ∃ before info after w, infos = before ++ info :: after ∧
      info.tuples.lookup row = some w ∧ (∀ i ∈ after, i.tuples.lookup row = none) ∧ mergedValue infos row v = w
  | [], _, h => by
    obtain ⟨info, hi, -⟩ := h
    exact absurd hi not_mem_nil
  | info :: infos, v, h => by
    by_cases hrest : ∃ info ∈ infos, (info.tuples.lookup row).isSome
    · obtain ⟨before, i, after, w, rfl, hw, hafter, hval⟩ := mergedValue_of_some (v := (info.tuples.lookup row).getD v) hrest
      exact ⟨info :: before, i, after, w, rfl, hw, hafter, hval⟩
    · have hnone : ∀ i ∈ infos, i.tuples.lookup row = none := fun i hi =>
        Option.not_isSome_iff_eq_none.1 fun hs => hrest ⟨i, hi, hs⟩
      obtain ⟨i, hi, hsome⟩ := h
      rcases mem_cons.1 hi with rfl | hi
      · obtain ⟨w, hw⟩ := Option.isSome_iff_exists.1 hsome
        refine ⟨[], i, infos, w, rfl, hw, hnone, ?_⟩
        unfold mergedValue
        rw [foldl_cons, hw]
        exact mergedValue_of_none hnone
      · exact absurd ⟨i, hi, hsome⟩ hrest

end Haybarn.Update
