/-
A rename that is refused. All that a transaction sees of a set comes from the versions of each name, together with the
default entries that are yet to be made. A rename is refused before it changes anything, but in two cases: the new name has
no versions and a default entry, or its newest version is neither seen by the transaction nor a conflict. Then the old name
is dropped by the time it is refused.
-/
import Haybarn.Catalog.Set

namespace Haybarn.Catalog

open Lib Transaction Option

/-! ## Maps -/

section Maps

variable {N P : Type} [LinearOrder N] {m : CatalogEntryMap N P} {name : N} {entry : CatalogEntry P}

theorem addEntry_spec (h : m.getEntry name = none) : ∃ m', m.addEntry name entry = some m' ∧
    ∀ n, m'.getEntry n = if name = n then some ⟨entry, []⟩ else m.getEntry n := by
  have hne : ∀ e ∈ m.entries, e.1 ≠ name := by
    intro e he hk
    have hmem : name ∈ m.entries.map (·.1) := List.mem_map.2 ⟨e, he, hk⟩
    have hsome := lookup_isSome_iff_mem.2 hmem
    rw [show m.entries.lookup name = none from h] at hsome
    cases hsome
  exact ⟨_, dif_pos hne, fun n => lookup_insertKey hne⟩

theorem updateEntry_spec {c : Chain P} (h : m.getEntry name = some c) : ∃ m', m.updateEntry name entry = some m' ∧
    ∀ n, m'.getEntry n = if name = n then some (c.push entry) else m.getEntry n := by
  unfold CatalogEntryMap.updateEntry
  rw [h]
  refine ⟨_, rfl, fun n => ?_⟩
  show (modifyKey name (·.push entry) m.entries).lookup n = _
  rw [lookup_modifyKey]
  by_cases hn : name = n
  · subst hn
    rw [show m.entries.lookup name = some c from h, if_pos rfl, if_pos rfl]
    rfl
  · rw [if_neg hn, if_neg hn, map_id]
    rfl

end Maps

namespace CatalogSet

variable {N P : Type} [LinearOrder N] {t : CatalogTransaction} {s s' : CatalogSet N P} {name newName : N}
  {info : AlterInfo N P}

/-! ## What a transaction sees -/

/-- The default entry that is yet to be made for a name. -/
def pending (s : CatalogSet N P) (name : N) : Option (CatalogEntry P) :=
  if s.createdAllEntries then none else s.defaults.bind fun defaults => defaults.createDefaultEntry name

/-- The version that a default entry is when it is made. -/
def committedChain (entry : CatalogEntry P) : Chain P := ⟨{ entry with timestamp := 0 }, []⟩

/-- The versions of a name, when the default entry has been made if there is one. -/
def view (s : CatalogSet N P) (name : N) : Option (Chain P) :=
  match s.map.getEntry name with
  | some chain => some chain
  | none => (s.pending name).map committedChain

/-- What `GetEntry` and `Scan` give a transaction is the same. -/
def Unchanged (t : CatalogTransaction) (s s' : CatalogSet N P) : Prop :=
  (∀ name, (s'.getEntry t name).1 = (s.getEntry t name).1) ∧ (s'.scan t).1 = (s.scan t).1

variable {entry : CatalogEntry P} {c : Chain P}

theorem pending_alive (h : s.pending name = some entry) : entry.deleted = false := by
  unfold pending at h
  split at h
  · cases h
  · obtain ⟨defaults, -, hentry⟩ := bind_eq_some_iff.1 h
    exact defaults.alive name entry hentry

theorem lookupChain_committed (h : s.pending name = some entry) :
    lookupChain t (committedChain entry) = ⟨some { entry with timestamp := 0 }, .success⟩ := by
  have halive := pending_alive h
  unfold lookupChain getEntryForTransaction committedChain entryForTransaction
  simp [halive]

theorem createDefaultEntry_none (h : s.pending name = none) : s.createDefaultEntry t name = (none, s) := by
  unfold pending at h
  unfold createDefaultEntry
  cases hd : s.defaults with
  | none => rfl
  | some defaults =>
    dsimp only
    split
    · rfl
    · rename_i hall
      rw [if_neg hall, hd, bind_some] at h
      rw [h]

theorem createDefaultEntry_some (h : s.pending name = some entry) (hm : s.map.getEntry name = none) :
    ∃ map, s.createDefaultEntry t name = (some { entry with timestamp := 0 }, { s with map }) ∧
      ∀ n, map.getEntry n = if name = n then some (committedChain entry) else s.map.getEntry n := by
  obtain ⟨map, hadd, hget⟩ := @addEntry_spec N P _ s.map name { entry with timestamp := 0 } hm
  refine ⟨map, ?_, hget⟩
  unfold pending at h
  split at h
  · cases h
  · rename_i hall
    obtain ⟨defaults, hd, hentry⟩ := bind_eq_some_iff.1 h
    unfold createDefaultEntry
    simp only [hd, hall, hentry, createCommittedEntry, hadd]
    rfl

/-- Looking a name up makes its default entry, and nothing else. -/
theorem getEntry_spec (t : CatalogTransaction) (s : CatalogSet N P) (name : N) : ∃ map,
    s.getEntry t name = ((s.view name).bind fun chain => (lookupChain t chain).result, { s with map }) ∧
      ∀ n, map.getEntry n = if name = n then s.view name else s.map.getEntry n := by
  unfold getEntry getEntryDetailed view
  cases hm : s.map.getEntry name with
  | some chain =>
    refine ⟨s.map, rfl, fun n => ?_⟩
    by_cases hn : name = n
    · rw [if_pos hn, ← hn, hm]
    · rw [if_neg hn]
  | none =>
    cases hp : s.pending name with
    | none =>
      refine ⟨s.map, ?_, fun n => ?_⟩
      · rw [createDefaultEntry_none hp]
        rfl
      · by_cases hn : name = n
        · rw [if_pos hn, ← hn, hm]
          rfl
        · rw [if_neg hn]
    | some entry =>
      obtain ⟨map, hcreate, hget⟩ := @createDefaultEntry_some N P _ t s name entry hp hm
      refine ⟨map, ?_, hget⟩
      rw [hcreate]
      dsimp only
      rw [map_some, bind_some, lookupChain_committed hp]

theorem getEntry_result : (s.getEntry t name).1 = (s.view name).bind fun chain => (lookupChain t chain).result := by
  obtain ⟨map, h, -⟩ := getEntry_spec t s name
  rw [h]

theorem view_getEntry (t : CatalogTransaction) (s : CatalogSet N P) (name n : N) :
    (s.getEntry t name).2.view n = s.view n := by
  obtain ⟨map, h, hget⟩ := getEntry_spec t s name
  rw [h]
  unfold view
  dsimp only
  rw [hget]
  by_cases hn : name = n
  · subst hn
    rw [if_pos rfl]
    unfold view
    cases s.map.getEntry name with
    | some chain => rfl
    | none =>
      cases hp : s.pending name with
      | some entry => rfl
      | none =>
        have hp' : CatalogSet.pending { s with map } name = none := hp
        rw [hp']
        rfl
  · rw [if_neg hn]
    rfl

theorem createListed_spec (defaults : DefaultGenerator N P) : ∀ {names : List N} {s : CatalogSet N P},
    (∀ n ∈ names, (defaults.createDefaultEntry n).isSome) → ∃ map,
      createListed defaults names s = (.ok (), { s with map }) ∧ ∀ n, map.getEntry n = (s.map.getEntry n).or
        (if n ∈ names then (defaults.createDefaultEntry n).map committedChain else none)
  | [], s, _ => ⟨s.map, rfl, fun n => by simp⟩
  | name :: names, s, h => by
    have hrest : ∀ n ∈ names, (defaults.createDefaultEntry n).isSome := fun n hn => h n (List.mem_cons_of_mem _ hn)
    unfold createListed
    cases hm : s.map.getEntry name with
    | some chain =>
      obtain ⟨map, hcreate, hget⟩ := createListed_spec defaults (s := s) hrest
      refine ⟨map, hcreate, fun n => ?_⟩
      rw [hget]
      simp only [List.mem_cons]
      by_cases hn : n = name
      · rw [hn, hm]
        rfl
      · simp [hn]
    | none =>
      obtain ⟨entry, hentry⟩ := isSome_iff_exists.1 (h name List.mem_cons_self)
      obtain ⟨map', hadd, hget'⟩ := @addEntry_spec N P _ s.map name { entry with timestamp := 0 } hm
      have hcommitted : (s.createCommittedEntry name entry).2 = { s with map := map' } := by
        unfold createCommittedEntry
        simp only [hadd]
      obtain ⟨map, hcreate, hget⟩ := createListed_spec defaults (s := { s with map := map' }) hrest
      refine ⟨map, ?_, fun n => ?_⟩
      · dsimp only
        rw [hentry]
        dsimp only
        rw [hcommitted]
        exact hcreate
      · rw [hget, hget']
        simp only [List.mem_cons]
        by_cases hn : n = name
        · subst hn
          simp [hm, hentry, committedChain]
        · simp [hn, Ne.symm hn]

/-- What a scan gives is determined by what is seen of the names. -/
theorem scan_spec (t : CatalogTransaction) (s : CatalogSet N P) : ∃ entries : List (N × Chain P), Increasing entries ∧
    (∀ n, entries.lookup n = s.view n) ∧ (s.scan t).1 = .ok (entries.filterMap fun e =>
      if (getEntryForTransaction t e.2).1.deleted then none else some (e.1, (getEntryForTransaction t e.2).1)) := by
  unfold scan createDefaultEntries
  cases hd : s.defaults with
  | none =>
    refine ⟨s.map.entries, s.map.increasing, fun n => ?_, rfl⟩
    have hp : s.pending n = none := by
      unfold pending
      simp [hd]
    unfold view
    rw [hp]
    cases h : s.map.getEntry n with
    | none => exact h
    | some chain => exact h
  | some defaults =>
    by_cases hall : s.createdAllEntries = true
    · simp only [hall, if_true]
      refine ⟨s.map.entries, s.map.increasing, fun n => ?_, rfl⟩
      have hp : s.pending n = none := by
        unfold pending
        simp [hall]
      unfold view
      rw [hp]
      cases h : s.map.getEntry n with
      | none => exact h
      | some chain => exact h
    · obtain ⟨map, hcreate, hget⟩ := createListed_spec defaults (s := s) fun n hn => (defaults.listed n).1 hn
      simp only [hall, hcreate]
      refine ⟨map.entries, map.increasing, fun n => ?_, rfl⟩
      have hp : s.pending n = defaults.createDefaultEntry n := by
        unfold pending
        simp [hall, hd]
      have hlookup : map.entries.lookup n = map.getEntry n := rfl
      unfold view
      rw [hlookup, hget, hp]
      cases s.map.getEntry n with
      | some chain => rfl
      | none =>
        dsimp only
        rw [none_or]
        split
        · rfl
        · rename_i hn
          rw [defaults.listed, not_isSome_iff_eq_none] at hn
          rw [hn]
          rfl

theorem unchanged_of_view (h : ∀ n, s'.view n = s.view n) : Unchanged t s s' := by
  constructor
  · intro name
    rw [getEntry_result, getEntry_result, h]
  · obtain ⟨entries, hinc, hlookup, hscan⟩ := scan_spec t s
    obtain ⟨entries', hinc', hlookup', hscan'⟩ := scan_spec t s'
    have heq : entries' = entries := hinc'.ext hinc fun n => by rw [hlookup', hlookup, h]
    rw [hscan, hscan', heq]

/-! ## Renames -/

/-- A call has refused: it has returned false, or thrown an exception that leaves the transaction alive. -/
def Refused (r : Except (Exception N) Bool) : Prop := r = .ok false ∨ ∃ message, r = .error (.catalog message)

/-- The name that a call gets to rename the entry to: the entry is found and may be altered, the alteration gives it another
name, and its newest version is no conflict. -/
def renamesTo (t : CatalogTransaction) (s : CatalogSet N P) (name : N) (info : AlterInfo N P) : Option N :=
  match s.getEntry t name with
  | (none, _) => none
  | (some entry, s) =>
    if ¬ info.allowInternal ∧ entry.internal then none
    else
      match info.alterEntry entry with
      | .ok (some (newName, _)) =>
        match s.getEntryInternal t name with
        | .ok (some _) => if newName ≠ name then some newName else none
        | _ => none
      | _ => none

/-- A new name at which a rename is refused too late: it has no versions but a default entry that is yet to be made, or its
newest version is not deleted and no conflict, though the transaction sees the name as deleted. -/
def Blocked (t : CatalogTransaction) (s : CatalogSet N P) (newName : N) : Prop :=
  match s.map.getEntry newName with
  | none => s.pending newName ≠ none
  | some chain => (getEntryForTransaction t chain).1.deleted = true ∧ hasConflict t chain.top.timestamp = false ∧
    chain.top.deleted = false

theorem updateEntry_eq (h : s.map.getEntry name = some c) (value : CatalogEntry P) : ∃ map,
    s.updateEntry name value = (.ok true, { s with map }) ∧
      ∀ n, map.getEntry n = if name = n then some (c.push value) else s.map.getEntry n := by
  obtain ⟨map, hupdate, hget⟩ := @updateEntry_spec N P _ s.map name value c h
  refine ⟨map, ?_, hget⟩
  unfold updateEntry
  rw [hupdate]

theorem hasConflict_own (t : CatalogTransaction) : hasConflict t t.transactionId = false := by
  have hown := t.own
  simp only [hasConflict, createdByOtherActiveTransaction, committedAfterStarting, ne_eq, not_true_eq_false, and_false,
    decide_false, Bool.false_or, decide_eq_false_iff_not, not_and]
  omega

theorem dropped_old (h : s.map.getEntry name = some c) (f : CatalogSet N P → Outcome N P) : ∃ map,
    ((s.createEntryInternal t name (inCatalogEntry .renamedEntry t.transactionId false) false).andThen fun s =>
      (s.dropEntryInternal t name false).andThen f) = f { s with map } ∧
    ∀ n, map.getEntry n = if name = n then
      some ((c.push (inCatalogEntry .renamedEntry t.transactionId false)).push
        (inCatalogEntry .deletedEntry t.transactionId true)) else s.map.getEntry n := by
  obtain ⟨map, hupdate, hget⟩ := updateEntry_eq h (inCatalogEntry .renamedEntry t.transactionId false)
  have hcreate : s.createEntryInternal t name (inCatalogEntry .renamedEntry t.transactionId false) false =
      (.ok true, { s with map }) := by
    unfold createEntryInternal
    rw [h]
    exact hupdate
  have hname : map.getEntry name = some (c.push (inCatalogEntry .renamedEntry t.transactionId false)) := by
    rw [hget, if_pos rfl]
  obtain ⟨map', hupdate', hget'⟩ := @updateEntry_eq N P _ { s with map } name _ hname
    (inCatalogEntry .deletedEntry t.transactionId true)
  have hdrop : CatalogSet.dropEntryInternal t { s with map } name false = (.ok true, { s with map := map' }) := by
    have hinternal : CatalogSet.getEntryInternal t { s with map } name =
        .ok (some (inCatalogEntry .renamedEntry t.transactionId false)) := by
      unfold getEntryInternal
      simp only [hname]
      rw [Chain.push, inCatalogEntry, hasConflict_own]
      rfl
    unfold dropEntryInternal
    rw [hinternal]
    exact hupdate'
  refine ⟨map', ?_, fun n => ?_⟩
  · rw [hcreate, Outcome.andThen, hdrop]
    rfl
  · rw [hget']
    by_cases hn : name = n
    · rw [if_pos hn, if_pos hn]
    · rw [if_neg hn, if_neg hn]
      show map.getEntry n = _
      rw [hget, if_neg hn]

omit [LinearOrder N] in
theorem not_refused {r : Except (Exception N) Bool} (h : r = .ok true ∨ ∃ a, r = .error (.abort a)) : ¬ Refused r := by
  rintro (hr | ⟨message, hr⟩)
  · rcases h with h | ⟨a, h⟩
    · rw [h] at hr
      cases hr
    · rw [h] at hr
      cases hr
  · rcases h with h | ⟨a, h⟩
    · rw [h] at hr
      cases hr
    · rw [h] at hr
      cases hr

theorem finishAlter_result (entry value : CatalogEntry P) : (s.finishAlter t info newName entry value).1 = .ok true ∨
    ∃ a, (s.finishAlter t info newName entry value).1 = .error (.abort a) := by
  unfold finishAlter updateEntry
  cases s.map.updateEntry newName value with
  | none => exact .inr ⟨.internal, rfl⟩
  | some map =>
    dsimp only [Outcome.andThen]
    cases info.alterObject entry value with
    | none => exact .inl rfl
    | some a => exact .inr ⟨a, rfl⟩

/-- The new name: where the transaction sees no entry of it, the last edit refuses exactly where it is blocked. -/
theorem createNew_spec (hexists : s.existsForTransaction t newName = false) (value : CatalogEntry P) :
    (Blocked t s newName ∧ ∃ map, s.createEntryInternal t newName value true = (.ok false, { s with map }) ∧
      ∀ n, newName ≠ n → map.getEntry n = s.map.getEntry n) ∨
    (¬ Blocked t s newName ∧ ((s.createEntryInternal t newName value true).1 = .ok true ∨
      ∃ a, (s.createEntryInternal t newName value true).1 = .error (.abort a))) := by
  unfold Blocked createEntryInternal
  unfold existsForTransaction at hexists
  cases hm : s.map.getEntry newName with
  | none =>
    dsimp only
    cases hp : s.pending newName with
    | some entry =>
      obtain ⟨map, hcreate, hget⟩ := @createDefaultEntry_some N P _ t s newName entry hp hm
      refine .inl ⟨some_ne_none entry, map, ?_, fun n hn => by rw [hget, if_neg hn]⟩
      unfold startChain
      rw [hcreate]
      rfl
    | none =>
      obtain ⟨map, hadd, hget⟩ := @addEntry_spec N P _ s.map newName (inCatalogEntry .invalid 0 true) hm
      have hstart : s.startChain t newName = (.ok true, { s with map }) := by
        unfold startChain
        rw [createDefaultEntry_none hp]
        dsimp only
        rw [hadd]
      obtain ⟨map', hupdate, -⟩ := @updateEntry_eq N P _ { s with map } newName _
        (by rw [hget, if_pos rfl]) value
      refine .inr ⟨fun h => h rfl, .inl ?_⟩
      rw [hstart]
      show (CatalogSet.updateEntry { s with map } newName value).1 = .ok true
      rw [hupdate]
  | some chain =>
    rw [hm] at hexists
    have hdeleted : (getEntryForTransaction t chain).1.deleted = true := by simpa using hexists
    dsimp only
    rw [if_pos rfl]
    unfold verifyVacancy
    by_cases hconflict : hasConflict t chain.top.timestamp = true
    · have hconflict' : hasConflict t chain.top.timestamp ≠ false := by simp [hconflict]
      rw [if_pos hconflict]
      exact .inr ⟨fun h => hconflict' h.2.1, .inr ⟨_, rfl⟩⟩
    · have hnone : hasConflict t chain.top.timestamp = false := by simpa using hconflict
      rw [if_neg hconflict]
      cases hd : chain.top.deleted with
      | false => exact .inl ⟨⟨hdeleted, hnone, rfl⟩, s.map, rfl, fun n _ => rfl⟩
      | true =>
        obtain ⟨map', hupdate, -⟩ := updateEntry_eq hm value
        refine .inr ⟨fun h => (by cases h.2.2), .inl ?_⟩
        show (s.updateEntry newName value).1 = .ok true
        rw [hupdate]

theorem lookupChain_dropped (c : Chain P) : (lookupChain t ((c.push (inCatalogEntry .renamedEntry t.transactionId false)).push
    (inCatalogEntry .deletedEntry t.transactionId true))).result = none := by
  have huse : useTimestamp t t.transactionId = true := by simp [useTimestamp]
  simp [lookupChain, getEntryForTransaction, Chain.push, entryForTransaction, inCatalogEntry, huse]

/-- A rename of an entry that may be renamed: it refuses exactly where an entry of the new name is seen, and nothing has
changed, or where the new name is blocked, and the old name is dropped. -/
theorem rename_spec (h : s.map.getEntry name = some c) (hne : newName ≠ name) (f : CatalogSet N P → Outcome N P)
    (hf : ∀ s, (f s).1 = .ok true ∨ ∃ a, (f s).1 = .error (.abort a)) :
    (Blocked t s newName ∧ ((s.renameEntryInternal t name newName).andThen f).1 = .ok false ∧
      (((s.renameEntryInternal t name newName).andThen f).2.getEntry t name).1 = none) ∨
    (¬ Blocked t s newName ∧ (Refused ((s.renameEntryInternal t name newName).andThen f).1 →
      ((s.renameEntryInternal t name newName).andThen f).2 = s)) := by
  unfold renameEntryInternal
  by_cases hexists : s.existsForTransaction t newName = true
  · rw [if_pos hexists]
    refine .inr ⟨fun hb => ?_, fun _ => rfl⟩
    unfold existsForTransaction at hexists
    unfold Blocked at hb
    cases hm : s.map.getEntry newName with
    | none => simp [hm] at hexists
    | some chain =>
      rw [hm] at hexists hb
      simp [hb.1] at hexists
  · rw [if_neg hexists]
    dsimp only
    obtain ⟨map, hdrop, hget⟩ := @dropped_old N P _ t s name c h
      fun s => s.createEntryInternal t newName (inCatalogEntry .renamedEntry t.transactionId false) true
    rw [hdrop]
    have hnew : map.getEntry newName = s.map.getEntry newName := by rw [hget, if_neg (Ne.symm hne)]
    have hblocked : Blocked t { s with map } newName ↔ Blocked t s newName := by
      unfold Blocked
      dsimp only
      rw [hnew]
      exact Iff.rfl
    have hexists' : CatalogSet.existsForTransaction t { s with map } newName = false := by
      unfold existsForTransaction at hexists ⊢
      dsimp only
      rw [hnew]
      simpa using hexists
    rcases createNew_spec hexists' (inCatalogEntry .renamedEntry t.transactionId false) with
      ⟨hb, map', hcreate, hother⟩ | ⟨hb, hresult⟩
    · refine .inl ⟨hblocked.1 hb, ?_, ?_⟩
      · rw [hcreate]
        rfl
      · rw [hcreate, getEntry_result]
        have hname : map'.getEntry name = some ((c.push (inCatalogEntry .renamedEntry t.transactionId false)).push
            (inCatalogEntry .deletedEntry t.transactionId true)) := by
          rw [hother name hne, hget, if_pos rfl]
        unfold view
        dsimp only [Outcome.andThen]
        rw [hname]
        exact lookupChain_dropped c
    · refine .inr ⟨fun h => hb (hblocked.2 h), fun hr => absurd hr (not_refused ?_)⟩
      generalize CatalogSet.createEntryInternal t { s with map } newName
        (inCatalogEntry .renamedEntry t.transactionId false) true = r at hresult ⊢
      obtain ⟨r, s'⟩ := r
      rcases hresult with hr | ⟨a, hr⟩
      · obtain rfl : r = .ok true := hr
        exact hf s'
      · obtain rfl : r = .error (.abort a) := hr
        exact .inr ⟨a, rfl⟩

theorem getEntryInternal_some (h : s.getEntryInternal t name = .ok (some entry)) :
    ∃ c, s.map.getEntry name = some c := by
  unfold getEntryInternal at h
  cases hm : s.map.getEntry name with
  | none =>
    rw [hm] at h
    cases h
  | some c => exact ⟨c, rfl⟩

/-- A call that is refused leaves what its transaction sees exactly where it does not get to rename the entry to a name that
is blocked. -/
theorem refused_unchanged_iff (t : CatalogTransaction) (s : CatalogSet N P) (name : N) (info : AlterInfo N P) :
    (Refused (s.alterEntry t name info).1 → Unchanged t s (s.alterEntry t name info).2) ↔
      ∀ newName, renamesTo t s name info = some newName → ¬ Blocked t s newName := by
  obtain ⟨map, hget, hmap⟩ := getEntry_spec t s name
  have hview : ∀ n, CatalogSet.view { s with map } n = s.view n := by
    intro n
    have h := view_getEntry t s name n
    rwa [hget] at h
  have hsame : Unchanged t s { s with map } := unchanged_of_view hview
  unfold alterEntry renamesTo
  rw [hget]
  cases hresult : (s.view name).bind fun chain => (lookupChain t chain).result with
  | none => exact ⟨fun _ n hn => (by cases hn), fun _ _ => hsame⟩
  | some entry =>
    dsimp only
    by_cases hinternal : ¬ info.allowInternal = true ∧ entry.internal = true
    · rw [if_pos hinternal, if_pos hinternal]
      exact ⟨fun _ n hn => (by cases hn), fun _ _ => hsame⟩
    rw [if_neg hinternal, if_neg hinternal]
    cases halter : info.alterEntry entry with
    | error e => exact ⟨fun _ n hn => (by cases hn), fun _ _ => hsame⟩
    | ok altered =>
      cases altered with
      | none => exact ⟨fun _ n hn => (by cases hn), fun _ _ => hsame⟩
      | some altered =>
        obtain ⟨newName, value⟩ := altered
        dsimp only
        unfold alterEntryLocked
        cases hlocked : CatalogSet.getEntryInternal t { s with map } name with
        | error e => exact ⟨fun _ n hn => (by cases hn), fun _ _ => hsame⟩
        | ok found =>
          cases found with
          | none => exact ⟨fun _ n hn => (by cases hn), fun _ _ => hsame⟩
          | some found =>
            dsimp only
            by_cases hne : newName ≠ name
            · rw [if_pos hne, if_pos hne]
              obtain ⟨c, hc⟩ := getEntryInternal_some hlocked
              have hblocked : Blocked t { s with map } newName ↔ Blocked t s newName := by
                unfold Blocked
                dsimp only
                rw [hmap, if_neg (Ne.symm hne)]
                exact Iff.rfl
              rcases @rename_spec N P _ t { s with map } name newName c hc hne _
                (fun s => finishAlter_result found { value with timestamp := t.transactionId, oid := found.oid }) with
                ⟨hb, hfalse, hdropped⟩ | ⟨hb, hunchanged⟩
              · refine ⟨fun h => ?_, fun h => absurd (hblocked.1 hb) (h newName rfl)⟩
                -- the old name was there before, and is gone
                have hname := (h (.inl hfalse)).1 name
                rw [hdropped, hget, hresult] at hname
                cases hname
              · refine ⟨fun _ n hn => ?_, fun _ hr => ?_⟩
                · obtain rfl := Option.some.inj hn
                  exact fun h => hb (hblocked.2 h)
                · rw [hunchanged hr]
                  exact hsame
            · rw [if_neg hne, if_neg hne]
              exact ⟨fun _ n hn => (by cases hn), fun _ hr => absurd hr (not_refused (finishAlter_result _ _))⟩

/-! ## A name with a default entry -/

/-- Names are numbers: there is a table of the name 0, and a view that is there by default of the name 1. -/
def tableAndDefault : CatalogSet Nat Nat where
  map := ⟨[(0, ⟨⟨.object 7, 3, false, 1, false⟩, []⟩)], List.pairwise_singleton _ _⟩
  defaults := some {
    createDefaultEntry n := if n = 1 then some ⟨.object 8, 4, false, 0, false⟩ else none
    getDefaultEntries := [1]
    listed n := by by_cases hn : n = 1 <;> simp [hn]
    alive n entry h := by
      by_cases hn : n = 1
      · rw [if_pos hn] at h
        obtain rfl := Option.some.inj h
        rfl
      · rw [if_neg hn] at h
        cases h }
  createdAllEntries := false

/-- The table is renamed to 1. -/
def renameToDefault : AlterInfo Nat Nat where
  allowInternal := false
  alterEntry entry := .ok (some (1, entry))
  alterObject _ _ := none

def firstTransaction : CatalogTransaction where
  transactionId := transactionIdStart
  startTime := 2
  active := true
  own := .inl le_rfl

/-- The rename returns false, and the table is gone. -/
theorem rename_to_default : Refused (tableAndDefault.alterEntry firstTransaction 0 renameToDefault).1 ∧
    ¬ Unchanged firstTransaction tableAndDefault (tableAndDefault.alterEntry firstTransaction 0 renameToDefault).2 := by
  constructor
  · exact .inl rfl
  · rintro ⟨hget, -⟩
    have hbefore : (tableAndDefault.getEntry firstTransaction 0).1 = some ⟨.object 7, 3, false, 1, false⟩ := rfl
    have hafter : ((tableAndDefault.alterEntry firstTransaction 0 renameToDefault).2.getEntry firstTransaction 0).1 = none := rfl
    have hsame := hget 0
    rw [hbefore, hafter] at hsame
    cases hsame

end CatalogSet

end Haybarn.Catalog
