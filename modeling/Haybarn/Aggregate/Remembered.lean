/-
The rows of a dictionary that the table remembers. Every entry that has been looked up has a row of its group, so the table
takes in the same inputs from a chunk over the dictionary as from the chunk of its groups, and so it does from a chunk of
one group.
-/
import Haybarn.Aggregate.Filed

namespace Haybarn.Aggregate

open Lib Outcome HashTable Function List

variable {G M : Type} {hash : G → Hash} {t t' t'' : HashTable G M}

/-! ## Dictionaries -/

/-- The dictionaries that have a name. -/
abbrev Dictionaries (G : Type) := String → (dictSize : Nat) × (Fin dictSize → G)

/-- The entries of the dictionary that have been looked up have rows, the addresses of which are remembered if there are
aggregates to update. -/
def Remembers (t : HashTable G M) (d : DictState) {dictSize : Nat} (dict : Fin dictSize → G) : Prop :=
  ∀ k : Fin dictSize, d.foundEntry k = true → ∃ p, t.Holds (dict k) p ∧ (t.aggregatesEmpty = false → d.addresses k = p)

/-- What the table remembers of the dictionary with a name. -/
def Cached (dictionaries : Dictionaries G) (t : HashTable G M) : Prop :=
  t.dictState.dictionaryId ≠ "" → (dictionaries t.dictState.dictionaryId).1 ≤ t.dictState.capacity ∧
    Remembers t t.dictState (dictionaries t.dictState.dictionaryId).2

/-- A name of a dictionary is that of one dictionary. -/
def Groups.Names (dictionaries : Dictionaries G) : Groups G → Prop
  | .dictionary dictSize _ id dict _ _ => id ≠ "" → dictionaries id = ⟨dictSize, dict⟩
  | _ => True

variable {dictionaries : Dictionaries G} {dictSize size : Nat} {dict : Fin dictSize → G} {id : String}
  {sel : Fin size → Fin dictSize}

theorem cached_of_names (hid : t.dictState.dictionaryId = id) (hname : id ≠ "" → dictionaries id = ⟨dictSize, dict⟩)
    (hcapacity : dictSize ≤ t.dictState.capacity) (hr : Remembers t t.dictState dict) : Cached dictionaries t := by
  intro hne
  rw [hid] at hne ⊢
  rw [hname hne]
  exact ⟨hcapacity, hr⟩

theorem Cached.mono (hc : Cached dictionaries t) (hstate : t'.dictState = t.dictState)
    (haggregates : t'.aggregatesEmpty = t.aggregatesEmpty) (hrow : ∀ g p, t.Holds g p → t'.Holds g p) :
    Cached dictionaries t' := by
  unfold Cached
  rw [hstate]
  intro hne
  obtain ⟨hcapacity, hr⟩ := hc hne
  refine ⟨hcapacity, fun k hk => ?_⟩
  obtain ⟨p, hp, haddress⟩ := hr k hk
  exact ⟨p, hrow _ _ hp, fun h => haddress (haggregates ▸ h)⟩

theorem enterDictionary_returns (hc : Cached dictionaries t) (hname : id ≠ "" → dictionaries id = ⟨dictSize, dict⟩) :
    (enterDictionary t.dictState id dictSize).Returns fun d =>
      d.dictionaryId = id ∧ dictSize ≤ d.capacity ∧ Remembers t d dict := by
  unfold enterDictionary
  split
  · refine returns_done ⟨rfl, Nat.le_max_right _ _, fun k hk => ?_⟩
    dsimp only at hk
    rw [if_pos k.isLt] at hk
    cases hk
  · rename_i hsame
    rw [not_or, not_not] at hsame
    obtain ⟨hne, hid⟩ := hsame
    have hcached := hc hne
    rw [hid, hname (hid ▸ hne)] at hcached
    rw [if_neg (Nat.not_lt.2 hcached.1)]
    exact returns_done ⟨hid, hcached⟩

/-! ## Entries to look up -/

/-- The entries of the rows that have been gone through, and those of them that are to be looked up. -/
structure Unique (sel : Fin size → Fin dictSize) (is : List (Fin size)) (found : Nat → Bool)
    (unique : List (Fin dictSize)) (r : (Nat → Bool) × List (Fin dictSize)) : Prop where
  sub : ∀ k ∈ unique, k ∈ r.2
  kept : ∀ k, found k = true → r.1 k = true
  all : ∀ i ∈ is, r.1 (sel i) = true
  new : ∀ k : Fin dictSize, r.1 k = true → found k = true ∨ k ∈ r.2
  met : ∀ k ∈ r.2, k ∈ unique ∨ ∃ i ∈ is, sel i = k
  length : r.2.length ≤ unique.length + is.length

theorem unique_uniqueEntries : ∀ (is : List (Fin size)) (found : Nat → Bool) (unique : List (Fin dictSize)),
    Unique sel is found unique (uniqueEntries sel is found unique)
  | [], found, unique => by
    constructor
    case met => exact fun k hk => .inl hk
    all_goals simp [uniqueEntries]
    exact fun k hk => .inl hk
  | i :: is, found, unique => by
    have h := unique_uniqueEntries is (update found (sel i) true)
      (if found (sel i) then unique else unique ++ [sel i])
    unfold uniqueEntries
    constructor
    · intro k hk
      refine h.sub k ?_
      split
      · exact hk
      · exact mem_append_left _ hk
    · intro k hk
      refine h.kept k ?_
      by_cases hki : k = sel i
      · rw [hki, update_self]
      · rw [update_of_ne hki, hk]
    · intro i' hi'
      rcases mem_cons.1 hi' with rfl | hi'
      · exact h.kept _ (update_self _ _ _)
      · exact h.all i' hi'
    · intro k hk
      rcases h.new k hk with hfound | hmem
      · by_cases hki : (k : Nat) = sel i
        · by_cases hf : found (sel i) = true
          · exact .inl (hki ▸ hf)
          · refine .inr (h.sub k ?_)
            rw [if_neg hf]
            simp [Fin.ext_iff, hki]
        · rw [update_of_ne hki] at hfound
          exact .inl hfound
      · exact .inr hmem
    · intro k hk
      rcases h.met k hk with hmem | ⟨i', hi', heq⟩
      · split at hmem
        · exact .inl hmem
        · rcases mem_append.1 hmem with hmem | hmem
          · exact .inl hmem
          · exact .inr ⟨i, mem_cons_self, (mem_singleton.1 hmem).symm⟩
      · exact .inr ⟨i', mem_cons_of_mem _ hi', heq⟩
    · have hlength := h.length
      have hle : (if found (sel i) then unique else unique ++ [sel i]).length ≤ unique.length + 1 := by
        split <;> simp
      rw [length_cons]
      omega

theorem setAddresses_eq (unique : List (Fin dictSize)) (new : Fin unique.length → Nat) (addresses : Nat → Nat)
    (u : Fin dictSize) : (∃ k, unique.get k = u ∧ setAddresses unique new addresses u = new k) ∨
      (u ∉ unique ∧ setAddresses unique new addresses u = addresses u) := by
  unfold setAddresses
  have hfold : ∀ ks : List (Fin unique.length),
      (∃ k ∈ ks, unique.get k = u ∧
        ks.foldl (fun a k => update a (unique.get k : Nat) (new k)) addresses u = new k) ∨
      ((∀ k ∈ ks, unique.get k ≠ u) ∧
        ks.foldl (fun a k => update a (unique.get k : Nat) (new k)) addresses u = addresses u) := by
    intro ks
    induction ks using reverseRecOn with
    | nil => exact .inr ⟨by simp, rfl⟩
    | append_singleton ks k ih =>
      rw [foldl_append, foldl_cons, foldl_nil]
      by_cases hk : unique.get k = u
      · exact .inl ⟨k, by simp, hk, by rw [hk, update_self]⟩
      · have hne : (u : Nat) ≠ unique.get k := fun h => hk (Fin.ext h.symm)
        rw [update_of_ne hne]
        rcases ih with ⟨k', hk', ih⟩ | ⟨hnot, ih⟩
        · exact .inl ⟨k', mem_append_left _ hk', ih⟩
        · refine .inr ⟨fun k' hk' => ?_, ih⟩
          rcases mem_append.1 hk' with hk' | hk'
          · exact hnot k' hk'
          · exact mem_singleton.1 hk' ▸ hk
  rcases hfold (finRange unique.length) with ⟨k, -, hk⟩ | ⟨hnot, heq⟩
  · exact .inl ⟨k, hk⟩
  · refine .inr ⟨fun hmem => ?_, heq⟩
    obtain ⟨k, hk⟩ := get_of_mem hmem
    exact hnot k (mem_finRange k) hk

/-! ## Chunks -/

section Chunks

variable [CommMonoid M]

theorem Unique.rows {found : Nat → Bool} {unique : List (Fin dictSize)} {d : DictState}
    (hu : Unique sel (finRange size) d.foundEntry [] (found, unique)) (hr : Remembers t d dict)
    {new : Fin unique.length → Nat}
    (hf : Filed ⟨unique.length, fun k => dict (unique.get k), fun k => hash (dict (unique.get k))⟩
      { t with dictState := { d with foundEntry := found } } t' new) (k : Fin dictSize) (hk : found k = true) :
    ∃ p, t'.Holds (dict k) p ∧ (t'.aggregatesEmpty = false → setAddresses unique new d.addresses k = p) := by
  obtain ⟨rows, hg⟩ := hf.grown
  rcases setAddresses_eq unique new d.addresses k with ⟨k', rfl, heq⟩ | ⟨hnot, heq⟩
  · exact ⟨new k', hf.found k', fun _ => heq⟩
  · have hold : d.foundEntry k = true := (hu.new k hk).resolve_right hnot
    obtain ⟨p, hp, haddress⟩ := hr k hold
    refine ⟨p, hg.holds hp, fun hempty => heq.trans (haddress ?_)⟩
    rw [← hempty]
    exact hg.same.aggregatesEmpty.symm

variable [DecidableEq G] {Q : HashTable G M → Nat → Prop}

/-- What the table must be to take in chunks of up to a size. -/
structure Ready (hash : G → Hash) (t : HashTable G M) (size : Nat) (Q : HashTable G M → Nat → Prop) : Prop where
  stored : Stored hash t
  finds : Finds hash t size Q
  aggregates : t.aggregatesEmpty = true → Subsingleton M

/-- What the table is when it has taken in inputs. -/
structure Taken (hash : G → Hash) (dictionaries : Dictionaries G) (t : HashTable G M) (inputs : List (G × M))
    (Q : HashTable G M → Nat → Prop) (r : HashTable G M × Nat) : Prop where
  took : Took t r.1 inputs
  stored : Stored hash r.1
  cached : Cached dictionaries r.1
  post : Q r.1 r.2

theorem Ready.taken (h : Ready hash t size Q) (hcached : Cached dictionaries t) {chunk : Chunk G}
    {new : Fin chunk.size → Nat} (hf : Filed chunk t t' new) (hhash : ∀ i, chunk.hash i = hash (chunk.group i)) {c : Nat}
    (hQ : Q t' c) {n : Nat} {group : Fin n → G} {addresses : Fin n → Nat} {payload : Fin n → M}
    (haddresses : ∀ i, t'.Holds (group i) (addresses i)) (hsub : ∀ i, ∃ j, group j = chunk.group i)
    (hu : Updated t' t'' addresses payload) (hd : t''.dictState = t'.dictState) :
    Taken hash dictionaries t (chunkInputs group payload) Q (t'', c) := by
  obtain ⟨rows, hg⟩ := hf.grown
  obtain ⟨hstored, htook⟩ := Took.of_filed h.stored hf hhash hu haddresses hsub
  refine ⟨htook, hstored, ?_, h.finds.updated hQ hu⟩
  exact hcached.mono (hd.trans hg.same.dictState) htook.aggregatesEmpty fun g p hp => hu.holds (hg.holds hp)

theorem Ready.update (h : Ready hash t size Q) {chunk : Chunk G} {new : Fin chunk.size → Nat}
    (hf : Filed chunk t t' new) {n : Nat} {group : Fin n → G} {addresses : Fin n → Nat} (payload : Fin n → M)
    (haddresses : ∀ i, t'.Holds (group i) (addresses i)) :
    (t'.updateAggregates addresses payload).Returns fun t'' =>
      Updated t' t'' addresses payload ∧ t''.dictState = t'.dictState := by
  obtain ⟨rows, hg⟩ := hf.grown
  refine updateAggregates_returns ?_ fun i => (haddresses i).lt
  rw [hg.same.aggregatesEmpty]
  exact h.aggregates

omit [DecidableEq G] in
theorem Filed.refl (h : t.Parted) {chunk : Chunk G} (hsize : chunk.size = 0) (new : Fin chunk.size → Nat) :
    Filed chunk t t new :=
  ⟨⟨[], (Appends.refl h).toGrown⟩, fun i => absurd i.isLt (by omega)⟩

theorem addGroups_returns (h : Ready hash t size Q) (hcached : Cached dictionaries t) (chunk : Chunk G)
    (hle : chunk.size ≤ size) (hhash : ∀ i, chunk.hash i = hash (chunk.group i)) (payload : Fin chunk.size → M) :
    (t.addGroups chunk payload).Returns (Taken hash dictionaries t (chunkInputs chunk.group payload) Q) := by
  unfold addGroups
  split
  · rename_i hsize
    have hf : Filed chunk t t fun _ => 0 := Filed.refl h.stored.parted hsize _
    exact returns_done (h.taken hcached hf hhash (h.finds.none t.dictState) hf.found (fun i => ⟨i, rfl⟩)
      (Updated.of_zero hsize) rfl)
  · refine (h.finds.find t.dictState chunk hle hhash).bind ?_
    rintro ⟨t', addresses, newGroups, c⟩ ⟨hf, hQ⟩
    refine (h.update hf payload hf.found).bind ?_
    rintro t'' ⟨hu, hd⟩
    exact returns_done (h.taken hcached hf hhash hQ hf.found (fun i => ⟨i, rfl⟩) hu hd)

theorem tryAddConstantGroups_returns (h : Ready hash t size Q) (hcached : Cached dictionaries t) (group : G)
    (payload : Fin size → M) : (tryAddConstantGroups hash t size group payload).Returns fun r =>
      ∀ r', r = some r' → Taken hash dictionaries t (chunkInputs (fun _ => group) payload) Q r' := by
  unfold tryAddConstantGroups
  split
  · exact returns_done (by simp)
  · rename_i hsize
    have hsize := Nat.lt_of_not_le hsize
    refine (h.finds.find t.dictState ⟨1, fun _ => group, fun _ => hash group⟩ hsize.le fun _ => rfl).bind ?_
    rintro ⟨t', addresses, newGroups, c⟩ ⟨hf, hQ⟩
    have htaken : ∀ t'', Updated t' t'' (fun _ => addresses 0) payload → t''.dictState = t'.dictState →
        Taken hash dictionaries t (chunkInputs (fun _ => group) payload) Q (t'', c) := fun t'' =>
      h.taken hcached hf (fun _ => rfl) hQ (fun _ => hf.found 0) fun _ => ⟨⟨0, by omega⟩, rfl⟩
    dsimp only
    split
    · rename_i hempty
      obtain ⟨rows, hg⟩ := hf.grown
      have := h.aggregates (hg.same.aggregatesEmpty ▸ hempty)
      refine returns_done ?_
      rintro r' ⟨⟩
      exact htaken t' Updated.of_subsingleton rfl
    · refine (h.update hf payload fun _ => hf.found 0).bind ?_
      rintro t'' ⟨hu, hd⟩
      refine returns_done ?_
      rintro r' ⟨⟩
      exact htaken t'' hu hd

/-! ## Chunks over dictionaries -/

theorem findEntries_returns (h : Ready hash t size Q) (d : DictState) (unique : List (Fin dictSize))
    (hle : unique.length ≤ size) :
    (findEntries hash { t with dictState := d } dict unique).Returns fun (t', new, c) =>
      Filed ⟨unique.length, fun k => dict (unique.get k), fun k => hash (dict (unique.get k))⟩
        { t with dictState := d } t' new ∧ Q t' c := by
  unfold findEntries
  split
  · rename_i hnil
    subst hnil
    have hparted : ({ t with dictState := d } : HashTable G M).Parted := { h.stored.parted with }
    exact returns_done ⟨Filed.refl hparted rfl _, h.finds.none d⟩
  · refine (h.finds.find d
      ⟨unique.length, fun k => dict (unique.get k), fun k => hash (dict (unique.get k))⟩ hle fun _ => rfl).bind ?_
    rintro ⟨t', addresses, newGroups, c⟩ ⟨hf, hQ⟩
    exact returns_done ⟨hf, hQ⟩

theorem Ready.takenEntries (h : Ready hash t size Q) {found : Nat → Bool} {unique : List (Fin dictSize)} {d : DictState}
    (hu : Unique sel (finRange size) d.foundEntry [] (found, unique)) {new : Fin unique.length → Nat}
    (hf : Filed ⟨unique.length, fun k => dict (unique.get k), fun k => hash (dict (unique.get k))⟩
      { t with dictState := { d with foundEntry := found } } t' new) {c : Nat} (hQ : Q t' c)
    (hname : id ≠ "" → dictionaries id = ⟨dictSize, dict⟩) {addresses : Fin size → Nat} {payload : Fin size → M}
    (haddresses : ∀ i, t'.Holds (dict (sel i)) (addresses i)) (hupdated : Updated t' t'' addresses payload)
    (hid : t''.dictState.dictionaryId = id) (hcapacity : dictSize ≤ t''.dictState.capacity)
    (hfound : t''.dictState.foundEntry = found)
    (hrows : ∀ k : Fin dictSize, found k = true →
      ∃ p, t'.Holds (dict k) p ∧ (t'.aggregatesEmpty = false → t''.dictState.addresses k = p)) :
    Taken hash dictionaries t (chunkInputs (fun i => dict (sel i)) payload) Q (t'', c) := by
  have hsub : ∀ k, ∃ i, dict (sel i) = dict (unique.get k) := by
    intro k
    rcases hu.met _ (unique.get_mem k) with hnil | ⟨i, -, hi⟩
    · cases hnil
    · exact ⟨i, by rw [hi]⟩
  have hstored : Stored hash { t with dictState := { d with foundEntry := found } } :=
    { h.stored with parted := { h.stored.parted with } }
  obtain ⟨hstored', htook⟩ := Took.of_filed hstored hf (fun _ => rfl) hupdated haddresses hsub
  refine ⟨{ htook with }, hstored', cached_of_names hid hname hcapacity ?_, h.finds.updated hQ hupdated⟩
  intro k hk
  obtain ⟨p, hp, haddress⟩ := hrows k (hfound ▸ hk)
  refine ⟨p, hupdated.holds hp, fun hempty => haddress ?_⟩
  rw [← hempty, hupdated.same]

theorem tryAddDictionaryGroups_returns (h : Ready hash t size Q) (hcached : Cached dictionaries t)
    {sizeKnown : Bool} (hname : id ≠ "" → dictionaries id = ⟨dictSize, dict⟩) (payload : Fin size → M) :
    (tryAddDictionaryGroups hash t sizeKnown id dict sel payload).Returns fun r => ∀ r', r = some r' →
      Taken hash dictionaries t (chunkInputs (fun i => dict (sel i)) payload) Q r' := by
  unfold tryAddDictionaryGroups
  split
  · exact returns_done (by simp)
  · refine (enterDictionary_returns hcached hname).bind ?_
    rintro d ⟨hid, hcapacity, hr⟩
    have hu : Unique sel _ _ _ _ := unique_uniqueEntries (finRange size) d.foundEntry []
    generalize uniqueEntries sel (finRange size) d.foundEntry [] = r at hu ⊢
    obtain ⟨found, unique⟩ := r
    have hle : unique.length ≤ size := by simpa using hu.length
    refine (findEntries_returns h { d with foundEntry := found } unique hle).bind ?_
    rintro ⟨t', new, c⟩ ⟨hf, hQ⟩
    obtain ⟨rows, hg⟩ := hf.grown
    have hrows := hu.rows hr hf
    have hall : ∀ i, found (sel i) = true := fun i => hu.all i (mem_finRange i)
    have hstate : t'.dictState = { d with foundEntry := found } := hg.same.dictState
    have haggregates : t'.aggregatesEmpty = t.aggregatesEmpty := hg.same.aggregatesEmpty
    dsimp only
    split
    · rename_i hempty
      have := h.aggregates (haggregates ▸ hempty)
      choose address haddress using fun i => hrows (sel i) (hall i)
      refine returns_done ?_
      rintro r' ⟨⟩
      refine h.takenEntries hu hf hQ hname (fun i => (haddress i).1) Updated.of_subsingleton ?_ ?_ ?_ ?_
      · rw [hstate, hid]
      · rw [hstate]
        exact hcapacity
      · rw [hstate]
      · intro k hk
        obtain ⟨p, hp, -⟩ := hrows k hk
        exact ⟨p, hp, fun h => by rw [hempty] at h; cases h⟩
    · rename_i hempty
      rw [hstate]
      dsimp only
      have haddresses : ∀ i, t'.Holds (dict (sel i)) (setAddresses unique new d.addresses (sel i)) := by
        intro i
        obtain ⟨p, hp, haddress⟩ := hrows (sel i) (hall i)
        rwa [haddress (Bool.eq_false_iff.2 hempty)]
      have haggregates' : t'.aggregatesEmpty = true → Subsingleton M := by
        rw [haggregates]
        exact h.aggregates
      let d' : DictState := { d with foundEntry := found, addresses := setAddresses unique new d.addresses }
      refine (updateAggregates_returns (t := { t' with dictState := d' }) haggregates' fun i => (haddresses i).lt).bind ?_
      rintro t'' ⟨hupdated, hd⟩
      refine returns_done ?_
      rintro r' ⟨⟩
      refine h.takenEntries hu hf hQ hname haddresses ⟨hupdated.same, hupdated.length, hupdated.memory⟩ ?_ ?_ ?_ ?_
      · rw [hd, hid]
      · rw [hd]
        exact hcapacity
      · rw [hd]
      · rw [hd]
        exact hrows

theorem addChunk_returns {groups : Groups G} {t₀ : HashTable G M}
    (ht₀ : t₀ = { t with sinkCount := t.sinkCount + groups.size }) (h : Ready hash t₀ groups.size Q)
    (hcached : Cached dictionaries t₀) (hname : groups.Names dictionaries) (payload : Fin groups.size → M) :
    (addChunk hash t groups payload).Returns
      (Taken hash dictionaries t₀ (chunkInputs groups.group payload) Q) := by
  have hcompressed : (tryAddCompressedGroups hash t₀ groups payload).Returns fun r =>
      ∀ r', r = some r' → Taken hash dictionaries t₀ (chunkInputs groups.group payload) Q r' := by
    cases groups with
    | flat size group => exact returns_done (by simp)
    | constant size group => exact tryAddConstantGroups_returns h hcached group payload
    | dictionary dictSize sizeKnown id dict size sel => exact tryAddDictionaryGroups_returns h hcached hname payload
  unfold addChunk
  rw [← ht₀]
  refine hcompressed.bind ?_
  rintro (_ | r) hr
  · exact addGroups_returns h hcached (groups.chunk hash) (Nat.le_refl _) (fun _ => rfl) payload
  · exact returns_done (hr r rfl)

theorem combineChunk_returns {rows : List (Row G M)} (h : Ready hash t rows.length Q) (hcached : Cached dictionaries t)
    (hhash : ∀ row ∈ rows, row.hash = hash row.group) : (t.combineChunk rows).Returns fun t' => ∃ c,
      Taken hash dictionaries t (chunkInputs (fun i => (rows.get i).group) fun i => (rows.get i).state) Q (t', c) := by
  have hhash' : ∀ i, (rows.get i).hash = hash (rows.get i).group := fun i => hhash _ (rows.get_mem i)
  unfold combineChunk
  refine (h.finds.find t.dictState ⟨rows.length, fun i => (rows.get i).group, fun i => (rows.get i).hash⟩
    (Nat.le_refl _) hhash').bind ?_
  rintro ⟨t', addresses, newGroups, c⟩ ⟨hf, hQ⟩
  refine (h.update hf _ hf.found).mono ?_
  rintro t'' ⟨hu, hd⟩
  exact ⟨c, h.taken hcached hf hhash' hQ hf.found (fun i => ⟨i, rfl⟩) hu hd⟩

end Chunks

end Haybarn.Aggregate
