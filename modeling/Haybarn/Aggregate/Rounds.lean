/-
The rounds in which the groups of a chunk are found or created, as a whole. Each round appends a row for every group that
claimed an entry and sends the rows that met another group's entry one step further, so that after as many rounds as
there are groups in the table no row is left.
-/
import Haybarn.Aggregate.FindOrCreate
import Mathlib.Data.List.Induction

namespace Haybarn.Aggregate

open Lib Outcome ProbeScheme List

variable {G M : Type} {hash : G → Hash} {bits : Nat}

/-! ## Rows in partitions -/

/-- There are as many partitions as some power of two. -/
def Partitions.Even (p : Partitions) : Prop := ∃ radixBits, p.length = 2 ^ radixBits

theorem flatten_modify_append {pointer : Nat} : ∀ {p : List (List Nat)} {k : Nat}, k < p.length →
    (p.modify k (· ++ [pointer])).flatten.Perm (p.flatten ++ [pointer])
  | l :: p, 0, _ => by
    simp only [modify_zero_cons, flatten_cons, append_assoc]
    exact List.Perm.append_left l perm_append_comm
  | l :: p, k + 1, hk => by
    simp only [modify_succ_cons, flatten_cons, append_assoc]
    exact List.Perm.append_left l (flatten_modify_append (Nat.lt_of_succ_lt_succ hk))

namespace Partitions

variable {p : Partitions}

theorem even_init (radixBits : Nat) : (init radixBits).Even := ⟨radixBits, length_replicate⟩

@[simp] theorem flatten_init (radixBits : Nat) : (init radixBits).flatten = [] := by simp [init]

theorem Even.append (h : p.Even) (hash : Hash) (pointer : Nat) : (p.append hash pointer).Even := by
  obtain ⟨radixBits, h⟩ := h
  exact ⟨radixBits, by rw [Partitions.append, length_modify, h]⟩

theorem Even.flatten_append (h : p.Even) (hash : Hash) (pointer : Nat) :
    (p.append hash pointer).flatten.Perm (p.flatten ++ [pointer]) := by
  obtain ⟨radixBits, h⟩ := h
  refine flatten_modify_append ?_
  have hbits : p.radixBits = radixBits := by rw [Partitions.radixBits, h, Nat.log2_two_pow]
  rw [hbits, h]
  exact Nat.mod_lt _ (Nat.two_pow_pos _)

end Partitions

namespace HashTable

/-- The rows that the table holds, as the pointers in its partitions. -/
def held (t : HashTable G M) : List Nat := t.partitionedData.flatten ++ (t.unpartitionedData.getD []).flatten

/-- An entry points to the row. -/
def Live (t : HashTable G M) (pointer : Nat) : Prop := ∃ s salt, t.entries s = .full salt pointer

/-- Rows may be unpartitioned in a table with many partitions only. -/
structure Parted (t : HashTable G M) : Prop where
  partitioned : t.partitionedData.Even
  unpartitioned : ∀ p, t.unpartitionedData = some p → p.length = 1
  many : unpartitionedRadixBitsThreshold ≤ t.radixBits → t.unpartitionedData ≠ none
  few : t.radixBits < unpartitionedRadixBitsThreshold → t.unpartitionedData = none

/-- What finding or creating groups does not touch. -/
structure Same (t t' : HashTable G M) : Prop where
  radixBits : t'.radixBits = t.radixBits
  sinkCount : t'.sinkCount = t.sinkCount
  skipLookups : t'.skipLookups = t.skipLookups
  aggregatesEmpty : t'.aggregatesEmpty = t.aggregatesEmpty
  dictState : t'.dictState = t.dictState
  partitions : t'.partitionedData.length = t.partitionedData.length

theorem Same.refl (t : HashTable G M) : t.Same t := ⟨rfl, rfl, rfl, rfl, rfl, rfl⟩

theorem Same.trans {t t' t'' : HashTable G M} (h : t.Same t') (h' : t'.Same t'') : t.Same t'' :=
  ⟨h'.radixBits.trans h.radixBits, h'.sinkCount.trans h.sinkCount, h'.skipLookups.trans h.skipLookups,
    h'.aggregatesEmpty.trans h.aggregatesEmpty, h'.dictState.trans h.dictState, h'.partitions.trans h.partitions⟩

/-- The second table holds the rows of the first and, behind them, the new rows. -/
structure Grown (t t' : HashTable G M) (rows : List (Row G M)) : Prop where
  memory : t'.memory = t.memory ++ rows
  held : t'.held.Perm (t.held ++ List.range' t.memory.length rows.length)
  parted : t'.Parted
  same : t.Same t'

/-- The second table is the first with the rows appended, but for the entries. -/
structure Appends (t t' : HashTable G M) (rows : List (Row G M)) : Prop extends t.Grown t' rows where
  count : t'.count = t.count
  capacity : t'.capacity = t.capacity

variable {t t' t'' : HashTable G M} {rows rows' : List (Row G M)}

theorem Grown.trans (h : t.Grown t' rows) (h' : t'.Grown t'' rows') : t.Grown t'' (rows ++ rows') := by
  constructor
  · rw [h'.memory, h.memory, append_assoc]
  · have hrange : range' t.memory.length (rows ++ rows').length =
        range' t.memory.length rows.length ++ range' t'.memory.length rows'.length := by
      rw [h.memory, length_append, length_append, ← range'_append_1]
    rw [hrange, ← append_assoc]
    exact h'.held.trans (h.held.append_right _)
  · exact h'.parted
  · exact h.same.trans h'.same

theorem Appends.refl (h : t.Parted) : t.Appends t [] :=
  ⟨⟨(append_nil _).symm, by simp, h, Same.refl t⟩, rfl, rfl⟩

theorem Appends.trans (h : t.Appends t' rows) (h' : t'.Appends t'' rows') : t.Appends t'' (rows ++ rows') :=
  ⟨h.toGrown.trans h'.toGrown, h'.count.trans h.count, h'.capacity.trans h.capacity⟩

theorem Appends.entries (h : t.Appends t' rows) (entries : Nat → Entry) :
    t.Appends { t' with entries := entries } rows :=
  { h with
    parted := { h.parted with }
    same := { h.same with } }

theorem appends_appendRow (h : t.Parted) {unpartitioned : Bool}
    (hmany : unpartitioned = true → unpartitionedRadixBitsThreshold ≤ t.radixBits) (row : Row G M) :
    t.Appends (t.appendRow unpartitioned row) [row] := by
  cases unpartitioned with
  | false =>
    refine ⟨⟨rfl, ?_, ?_, ⟨rfl, rfl, rfl, rfl, rfl, length_modify ..⟩⟩, rfl, rfl⟩
    · have hperm := h.partitioned.flatten_append row.hash t.memory.length
      refine (hperm.append_right (t.unpartitionedData.getD []).flatten).trans ?_
      rw [held, append_assoc, append_assoc]
      exact List.Perm.append_left _ perm_append_comm
    · exact { h with partitioned := h.partitioned.append _ _ }
  | true =>
    obtain ⟨p, hp⟩ := Option.ne_none_iff_exists'.1 (h.many (hmany rfl))
    have hlength := h.unpartitioned p hp
    have heven : p.Even := ⟨0, hlength⟩
    refine ⟨⟨rfl, ?_, ?_, ⟨rfl, rfl, rfl, rfl, rfl, rfl⟩⟩, rfl, rfl⟩
    · simp only [held, appendRow, hp, Option.map_some, Option.getD_some, if_true, append_assoc]
      exact List.Perm.append_left _ (heven.flatten_append _ _)
    · constructor
      · exact h.partitioned
      · simp only [appendRow, hp, Option.map_some, if_true, Option.some.injEq]
        rintro p' rfl
        rw [Partitions.append, length_modify, hlength]
      · simp [appendRow, hp]
      · intro hfew
        exact absurd (hmany rfl) (Nat.not_le.2 hfew)

end HashTable

open HashTable

/-! ## New groups -/

theorem Stands.append {memory : List (Row G M)} {e : Entry} {o : Option G} (h : Stands hash memory e o)
    (rows : List (Row G M)) : Stands hash (memory ++ rows) e o := by
  cases e with
  | empty => exact h
  | claimed salt => exact h
  | full salt pointer =>
    obtain ⟨row, hrow, h⟩ := h
    refine ⟨row, ?_, h⟩
    rw [List.getElem?_append_left (List.getElem?_eq_some_iff.1 hrow).1]
    exact hrow

section Append

variable [One M] {chunk : Chunk G} {f f' : Finding G M chunk.size} {empties : List (Fin chunk.size)}

/-- The new groups of a round have been appended: their entries point to the new rows, one after the other. -/
structure Appended (chunk : Chunk G) (f f' : Finding G M chunk.size) (empties : List (Fin chunk.size)) : Prop where
  offsets : f'.offsets = f.offsets
  newGroups : f'.newGroups = f.newGroups
  appends : f.table.Appends f'.table (empties.map (newRow chunk))
  others : ∀ s, s ∉ empties.map f.offsets → f'.table.entries s = f.table.entries s
  pointers : ∀ k i, empties[k]? = some i → f'.addresses i = f.table.memory.length + k ∧
    f'.table.entries (f.offsets i) = .full (f.table.entries (f.offsets i)).getSalt (f.table.memory.length + k)
  addresses : ∀ i, i ∉ empties → f'.addresses i = f.addresses i

theorem appendGroup_entries (unpartitioned : Bool) (i : Fin chunk.size) :
    (appendGroup chunk unpartitioned f i).table.entries = setEntry f.table.entries (f.offsets i)
      ((f.table.entries (f.offsets i)).setPointer f.table.memory.length) := by
  cases unpartitioned <;> rfl

theorem Appended.snoc (h : Appended chunk f f' empties) {unpartitioned : Bool}
    (hmany : unpartitioned = true → unpartitionedRadixBitsThreshold ≤ f.table.radixBits) {i : Fin chunk.size}
    (hi : i ∉ empties) (hslot : f.offsets i ∉ empties.map f.offsets) :
    Appended chunk f (appendGroup chunk unpartitioned f' i) (empties ++ [i]) := by
  have hlength : f'.table.memory.length = f.table.memory.length + empties.length := by
    rw [h.appends.memory, length_append, length_map]
  have hmany' : unpartitioned = true → unpartitionedRadixBitsThreshold ≤ f'.table.radixBits := fun hu =>
    h.appends.same.radixBits ▸ hmany hu
  have hrow := appends_appendRow h.appends.parted hmany' (newRow chunk i)
  constructor
  · exact h.offsets
  · exact h.newGroups
  · rw [map_append]
    exact (h.appends.trans hrow).entries _
  · intro s hs
    simp only [map_append, map_cons, map_nil, mem_append, mem_singleton, not_or] at hs
    rw [appendGroup_entries, h.offsets, setEntry_of_ne hs.2]
    exact h.others s hs.1
  · intro k i' hk
    rcases Nat.lt_trichotomy k empties.length with hlt | heq | hgt
    · rw [getElem?_append_left hlt] at hk
      obtain ⟨ha, he⟩ := h.pointers k i' hk
      have hmem : i' ∈ empties := mem_of_getElem? hk
      constructor
      · rw [← ha]
        exact Function.update_of_ne (by rintro rfl; exact hi hmem) _ _
      · have hne : f.offsets i' ≠ f.offsets i := by
          intro heq
          exact hslot (heq ▸ mem_map_of_mem hmem)
        rw [appendGroup_entries, h.offsets, setEntry_of_ne hne]
        exact he
    · subst heq
      rw [getElem?_concat_length, Option.some.injEq] at hk
      subst hk
      constructor
      · rw [← hlength]
        exact Function.update_self _ _ _
      · rw [appendGroup_entries, h.offsets, setEntry_self, h.others _ hslot, hlength]
        rfl
    · rw [getElem?_eq_none (by simp; omega)] at hk
      cases hk
  · intro i' hi'
    simp only [mem_append, mem_singleton, not_or] at hi'
    rw [← h.addresses i' hi'.1]
    exact Function.update_of_ne hi'.2 _ _

theorem appended_foldl {unpartitioned : Bool} (hparted : f.table.Parted)
    (hmany : unpartitioned = true → unpartitionedRadixBitsThreshold ≤ f.table.radixBits) (hnodup : empties.Nodup)
    (hslots : (empties.map f.offsets).Nodup) :
    Appended chunk f (empties.foldl (appendGroup chunk unpartitioned) f) empties := by
  induction empties using reverseRecOn with
  | nil =>
    constructor
    case appends => exact Appends.refl hparted
    all_goals simp
  | append_singleton empties i ih =>
    rw [map_append, nodup_append] at hslots
    rw [nodup_append] at hnodup
    rw [foldl_append]
    refine (ih hnodup.1 hslots.1).snoc hmany ?_ ?_
    · intro hi
      exact hnodup.2.2 i hi i (mem_singleton_self i) rfl
    · intro hs
      exact hslots.2.2 _ hs _ (by simp) rfl

end Append

/-! ## Comparisons -/

theorem compareRows_returns [DecidableEq G] {chunk : Chunk G} {t : HashTable G M} {owner : Owner G}
    {offsets : Fin chunk.size → Nat} (hstands : ∀ s, Stands hash t.memory (t.entries s) (owner s)) :
    ∀ {sel : List (Fin chunk.size)} {addresses : Fin chunk.size → Nat}, sel.Nodup →
      (∀ i ∈ sel, owner (offsets i) ≠ none) → (compareRows chunk t offsets sel addresses).Returns fun r =>
        r.2 = sel.filter (fun i => owner (offsets i) ≠ some (chunk.group i)) ∧
          (∀ i, i ∉ sel → r.1 i = addresses i) ∧ ∀ i ∈ sel, ∃ salt, t.entries (offsets i) = .full salt (r.1 i)
  | [], addresses, _, _ => returns_done ⟨rfl, fun _ _ => rfl, by simp⟩
  | index :: sel, addresses, hnodup, hsel => by
    obtain ⟨hindex, hnodup⟩ := nodup_cons.1 hnodup
    have hs := hstands (offsets index)
    have howner := hsel index mem_cons_self
    unfold compareRows
    cases he : t.entries (offsets index) with
    | empty =>
      rw [he] at hs
      exact absurd hs howner
    | claimed salt =>
      rw [he] at hs
      exact hs.elim
    | full salt pointer =>
      rw [he] at hs
      obtain ⟨row, hrow, ho, -⟩ := hs
      dsimp only
      rw [hrow]
      dsimp only
      refine (compareRows_returns hstands hnodup fun i hi => hsel i (mem_cons_of_mem _ hi)).bind ?_
      rintro ⟨addresses', noMatch⟩ ⟨rfl, hothers, hmet⟩
      refine returns_done ⟨?_, ?_, ?_⟩
      · simp only [filter_cons, ho, ne_eq, Option.some.injEq, decide_not, Bool.not_eq_true']
        by_cases hgroup : row.group = chunk.group index <;> simp [hgroup]
      · intro i hi
        rw [mem_cons, not_or] at hi
        dsimp only at hothers ⊢
        rw [hothers i hi.2, Function.update_of_ne hi.1]
      · intro i hi
        rcases mem_cons.1 hi with rfl | hi
        · refine ⟨salt, ?_⟩
          dsimp only at hothers ⊢
          rw [hothers i hindex, Function.update_self, he]
        · exact hmet i hi

/-! ## Rounds -/

section Rounds

variable [One M] {chunk : Chunk G} {least : Nat} {owner₀ owner₁ owner : Owner G} {sel : List (Fin chunk.size)}
  {f f' : Finding G M chunk.size} {p : Probing chunk.size}

/-- The finding in which the entries have been claimed. -/
def HashTable.Finding.claimed (f : Finding G M chunk.size) (p : Probing chunk.size) : Finding G M chunk.size :=
  { f with
    table := { f.table with entries := p.entries }
    offsets := p.offsets
    newGroups := f.newGroups ++ p.emptyVector }

theorem Looped.entries_kept (h : Looped hash bits chunk least f.table.entries owner₀ sel [] p owner)
    (ha : Appended chunk (f.claimed p) f' p.emptyVector) {s : Nat} (hs : owner₀ s ≠ none) :
    f'.table.entries s = f.table.entries s :=
  (ha.others s (h.not_mem_slots (.inl hs))).trans (h.kept s hs).1

theorem Looped.entries_free (h : Looped hash bits chunk least f.table.entries owner₀ sel [] p owner)
    (ha : Appended chunk (f.claimed p) f' p.emptyVector) {s : Nat} (hs : owner s = none) :
    f'.table.entries s = .empty :=
  (ha.others s (h.not_mem_slots (.inr hs))).trans (h.salted.of_none hs)

theorem Looped.entries_claimed (h : Looped hash bits chunk least f.table.entries owner₀ sel [] p owner)
    (ha : Appended chunk (f.claimed p) f' p.emptyVector) {k : Nat} {i : Fin chunk.size}
    (hk : p.emptyVector[k]? = some i) :
    f'.table.entries (p.offsets i) = .full (extractSalt (chunk.hash i)) (f'.addresses i) ∧
      f'.addresses i = f.table.memory.length + k ∧ f'.table.memory[f.table.memory.length + k]? = some (newRow chunk i) := by
  obtain ⟨ha', he⟩ := ha.pointers k i hk
  have hclaimed := (h.claimed i (mem_of_getElem? hk)).1
  refine ⟨?_, ha', ?_⟩
  · rw [ha']
    refine he.trans ?_
    show Entry.full (p.entries (p.offsets i)).getSalt _ = _
    rw [hclaimed]
    rfl
  · rw [ha.appends.memory]
    show (f.table.memory ++ _)[f.table.memory.length + k]? = _
    rw [getElem?_append_right (Nat.le_add_right _ _), Nat.add_sub_cancel_left, getElem?_map, hk]
    rfl

theorem Looped.stands (h : Looped hash bits chunk least f.table.entries owner₀ sel [] p owner)
    (ha : Appended chunk (f.claimed p) f' p.emptyVector) (hhash : ∀ i, chunk.hash i = hash (chunk.group i))
    (hstands : ∀ s, Stands hash f.table.memory (f.table.entries s) (owner₀ s)) (s : Nat) :
    Stands hash f'.table.memory (f'.table.entries s) (owner s) := by
  by_cases ho : owner s = none
  · rw [h.entries_free ha ho]
    exact ho
  · by_cases ho₀ : owner₀ s = none
    · obtain ⟨i, hi, rfl⟩ := h.taken s ho₀ ho
      obtain ⟨k, hk⟩ := getElem?_of_mem hi
      obtain ⟨he, haddress, hrow⟩ := h.entries_claimed ha hk
      rw [he]
      refine ⟨newRow chunk i, by rw [haddress, hrow], (h.claimed i hi).2.1, hhash i, rfl⟩
    · rw [h.entries_kept ha ho₀, (h.kept s ho₀).2, ha.appends.memory]
      exact (hstands s).append _

theorem Looped.live (h : Looped hash bits chunk least f.table.entries owner₀ sel [] p owner)
    (ha : Appended chunk (f.claimed p) f' p.emptyVector)
    (hstands : ∀ s, Stands hash f.table.memory (f.table.entries s) (owner₀ s)) (pointer : Nat) :
    f'.table.Live pointer ↔
      f.table.Live pointer ∨ f.table.memory.length ≤ pointer ∧ pointer < f'.table.memory.length := by
  have hlength : f'.table.memory.length = f.table.memory.length + p.emptyVector.length := by
    rw [ha.appends.memory, List.length_append, List.length_map]
    rfl
  constructor
  · rintro ⟨s, salt, hs⟩
    by_cases ho : owner s = none
    · rw [h.entries_free ha ho] at hs
      cases hs
    · by_cases ho₀ : owner₀ s = none
      · obtain ⟨i, hi, rfl⟩ := h.taken s ho₀ ho
        obtain ⟨k, hk⟩ := List.getElem?_of_mem hi
        obtain ⟨he, haddress, -⟩ := h.entries_claimed ha hk
        rw [he] at hs
        cases hs
        have := (List.getElem?_eq_some_iff.1 hk).1
        omega
      · exact .inl ⟨s, salt, (h.entries_kept ha ho₀).symm.trans hs⟩
  · rintro (⟨s, salt, hs⟩ | ⟨hle, hlt⟩)
    · refine ⟨s, salt, (h.entries_kept ha ?_).trans hs⟩
      intro ho₀
      have := hstands s
      rw [hs, ho₀] at this
      obtain ⟨row, -, ⟨⟩, -⟩ := this
    · have hk : pointer - f.table.memory.length < p.emptyVector.length := by omega
      obtain ⟨he, haddress, -⟩ := h.entries_claimed ha (List.getElem?_eq_getElem hk)
      rw [haddress, Nat.add_sub_cancel' hle] at he
      exact ⟨_, _, he⟩

/-- Where the rounds stand, from the table `t₀` on, when the rows `sel` of the chunk are left, each of them `least`
entries along its path at least. -/
structure Rounded (hash : G → Hash) (bits : Nat) (chunk : Chunk G) (t₀ : HashTable G M) (owner₀ : Owner G) (least : Nat)
    (sel : List (Fin chunk.size)) (f : Finding G M chunk.size) (owner : Owner G) : Prop where
  appends : t₀.Appends f.table (f.newGroups.map (newRow chunk))
  stands : ∀ s, Stands hash f.table.memory (f.table.entries s) (owner s)
  placed : (scheme hash bits).Placed owner
  card : ((scheme hash bits).taken owner).card = ((scheme hash bits).taken owner₀).card + f.newGroups.length
  live : ∀ pointer, f.table.Live pointer ↔
    t₀.Live pointer ∨ t₀.memory.length ≤ pointer ∧ pointer < f.table.memory.length
  ahead : ∀ i ∈ sel, ∃ j ≥ least, (scheme hash bits).PassedBy owner (chunk.group i) j ∧
    f.offsets i = (scheme hash bits).path (chunk.group i) j
  found : ∀ i, i ∉ sel → ∃ s salt, f.table.entries s = .full salt (f.addresses i) ∧ owner s = some (chunk.group i)
  nodup : sel.Nodup
  room : f.newGroups.length + sel.length ≤ chunk.size
  least_le : least ≤ ((scheme hash bits).taken owner).card

variable {t₀ : HashTable G M}

theorem Rounded.step (h : Rounded hash bits chunk t₀ owner₀ least sel f owner₁)
    (hl : Looped hash bits chunk least f.table.entries owner₁ sel [] p owner)
    (ha : Appended chunk (f.claimed p) f' p.emptyVector) (hhash : ∀ i, chunk.hash i = hash (chunk.group i))
    (hne : sel ≠ []) {noMatch : List (Fin chunk.size)} {addresses : Fin chunk.size → Nat}
    (hnoMatch : ∀ i, i ∈ noMatch ↔ i ∈ p.compareVector ∧ owner (f'.offsets i) ≠ some (chunk.group i))
    (hnodup : noMatch.Sublist p.compareVector) (hothers : ∀ i, i ∉ p.compareVector → addresses i = f'.addresses i)
    (hmet : ∀ i ∈ p.compareVector, ∃ salt, f'.table.entries (f'.offsets i) = .full salt (addresses i)) :
    Rounded hash bits chunk t₀ owner₀ (least + 1) noMatch
      { f' with
        offsets := fun i => if i ∈ noMatch then
          saltIncrementAndWrap (2 ^ bits) (extractSalt (chunk.hash i)) (f'.offsets i) else f'.offsets i
        addresses := addresses } owner := by
  have horder := hl.order
  rw [append_nil] at horder
  have hsel : p.emptyVector.Nodup ∧ p.compareVector.Nodup ∧ _ := nodup_append.1 (horder.nodup_iff.2 h.nodup)
  have hlength := horder.length_eq
  rw [length_append] at hlength
  have hle := hnodup.length_le
  constructor
  · have := (h.appends.entries p.entries).trans ha.appends
    rw [← map_append] at this
    dsimp only
    rw [ha.newGroups]
    exact this
  · intro s
    exact hl.stands ha hhash h.stands s
  · exact hl.placed
  · dsimp only
    rw [hl.card, h.card, ha.newGroups]
    simp only [Finding.claimed, length_append]
    omega
  · intro pointer
    refine (hl.live ha h.stands pointer).trans ?_
    rw [h.live]
    dsimp only
    have h₁ : f.table.memory.length = t₀.memory.length + f.newGroups.length := by
      rw [h.appends.memory, length_append, length_map]
    have h₂ : f'.table.memory.length = f.table.memory.length + p.emptyVector.length := by
      rw [ha.appends.memory, length_append, length_map]
      rfl
    constructor
    · rintro ((hlive | hlive) | hlive)
      · exact .inl hlive
      · exact .inr (by omega)
      · exact .inr (by omega)
    · rintro (hlive | hlive)
      · exact .inl (.inl hlive)
      · by_cases hlt : pointer < f.table.memory.length
        · exact .inl (.inr (by omega))
        · exact .inr (by omega)
  · intro i hi
    obtain ⟨hcompare, hother⟩ := (hnoMatch i).1 hi
    obtain ⟨j, hj, hp, hoff, howner⟩ := hl.met i hcompare
    have hoff' : f'.offsets i = (scheme hash bits).path (chunk.group i) j := by
      rw [ha.offsets]
      exact hoff
    obtain ⟨g, hg⟩ := Option.ne_none_iff_exists'.1 howner
    rw [hoff', ← hoff, hg] at hother
    refine ⟨j + 1, by omega, hp.succ (hoff ▸ hg) (fun heq => hother (congrArg some heq)), ?_⟩
    dsimp only
    rw [if_pos hi, hoff', hhash i, saltIncrementAndWrap_eq]
  · intro i hi
    by_cases hcompare : i ∈ p.compareVector
    · obtain ⟨salt, hs⟩ := hmet i hcompare
      refine ⟨_, salt, hs, ?_⟩
      by_contra hother
      exact hi ((hnoMatch i).2 ⟨hcompare, hother⟩)
    · dsimp only
      rw [hothers i hcompare]
      by_cases hempty : i ∈ p.emptyVector
      · obtain ⟨k, hk⟩ := getElem?_of_mem hempty
        exact ⟨_, _, (hl.entries_claimed ha hk).1, (hl.claimed i hempty).2.1⟩
      · have hrest : i ∉ sel := by
          rw [← horder.mem_iff, mem_append]
          rintro (hmem | hmem)
          · exact hempty hmem
          · exact hcompare hmem
        obtain ⟨s, salt, hs, ho⟩ := h.found i hrest
        have ho₁ : owner₁ s ≠ none := by simp [ho]
        refine ⟨s, salt, ?_, (hl.kept s ho₁).2.trans ho⟩
        rw [hl.entries_kept ha ho₁, ha.addresses i hempty]
        exact hs
  · exact hnodup.nodup hsel.2.1
  · have := h.room
    dsimp only
    rw [ha.newGroups]
    simp only [Finding.claimed, length_append]
    omega
  · exact hl.least_lt (Ne.symm hne)

theorem round_returns [DecidableEq G] (h : Rounded hash bits chunk t₀ owner₀ least sel f owner)
    (hhash : ∀ i, chunk.hash i = hash (chunk.group i)) (hcapacity : t₀.capacity = 2 ^ bits)
    (hroom : ((scheme hash bits).taken owner₀).card + chunk.size < 2 ^ bits) (hne : sel ≠ []) {occupiedCount : Nat}
    (hoccupied : occupiedCount ≤ sel.length) :
    (round chunk occupiedCount sel f).Returns fun r =>
      ∃ owner', Rounded hash bits chunk t₀ owner₀ (least + 1) r.2 r.1 owner' := by
  have hcapacity' : f.table.capacity = 2 ^ bits := by rw [h.appends.capacity, hcapacity]
  have hstart := Looped.start (salted_of_stands h.stands) h.placed h.ahead
  have hfits : ((scheme hash bits).taken owner).card + sel.length < 2 ^ bits := by
    have := h.room
    rw [h.card]
    omega
  have hinner := innerLoop_returns h.nodup hhash hfits hstart
  rw [← hcapacity'] at hinner
  unfold HashTable.round
  refine hinner.bind ?_
  rintro p ⟨owner', hl⟩
  have horder := hl.order
  rw [append_nil] at horder
  have hlength := horder.length_eq
  rw [length_append] at hlength
  rw [if_neg (by omega)]
  have hsel := nodup_append.1 (horder.nodup_iff.2 h.nodup)
  have hmany : f.table.useUnpartitioned p.emptyVector.length = true →
      unpartitionedRadixBitsThreshold ≤ (f.claimed p).table.radixBits := fun hu =>
    of_decide_eq_true (Bool.and_eq_true_iff.1 hu).1
  have hparted : (f.claimed p).table.Parted := { h.appends.parted with }
  have ha := appended_foldl hparted hmany hsel.1 hl.slots
  have hmet : ∀ i ∈ p.compareVector,
      owner' ((p.emptyVector.foldl (appendGroup chunk (f.table.useUnpartitioned p.emptyVector.length))
        (f.claimed p)).offsets i) ≠ none := by
    intro i hi
    obtain ⟨j, -, -, -, howner⟩ := hl.met i hi
    rw [ha.offsets]
    exact howner
  refine (compareRows_returns (hl.stands ha hhash h.stands) hsel.2.1 hmet).bind ?_
  rintro ⟨addresses, noMatch⟩ ⟨hnoMatch, hothers, hmatch⟩
  dsimp only at hnoMatch hothers hmatch
  have hsub : noMatch.Sublist p.compareVector := hnoMatch ▸ filter_sublist
  have hstep := h.step hl ha hhash hne (fun i => by rw [hnoMatch]; simp [mem_filter]) hsub hothers hmatch
  rw [← hcapacity'] at hstep
  exact returns_done ⟨owner', hstep⟩

theorem rounds_returns [DecidableEq G] (hhash : ∀ i, chunk.hash i = hash (chunk.group i))
    (hcapacity : t₀.capacity = 2 ^ bits) (hroom : ((scheme hash bits).taken owner₀).card + chunk.size < 2 ^ bits) :
    ∀ {left least occupiedCount : Nat} {sel : List (Fin chunk.size)} {f : Finding G M chunk.size} {owner : Owner G},
      Rounded hash bits chunk t₀ owner₀ least sel f owner → least + left = 2 ^ bits → occupiedCount ≤ sel.length →
        (rounds chunk left occupiedCount sel f).Returns fun f' =>
          ∃ least' owner', Rounded hash bits chunk t₀ owner₀ least' [] f' owner'
  | 0, least, _, _, f, _, h, hleft, _ => by
    have hle := h.least_le
    have := h.room
    rw [h.card] at hle
    omega
  | left + 1, least, _, sel, f, owner, h, hleft, hoccupied => by
    unfold rounds
    split
    · rename_i hsel
      subst hsel
      exact returns_done ⟨least, owner, h⟩
    · rename_i hsel
      refine (round_returns h hhash hcapacity hroom hsel hoccupied).bind ?_
      rintro ⟨f', noMatch⟩ ⟨owner', h'⟩
      exact rounds_returns hhash hcapacity hroom h' (by omega) (Nat.zero_le _)

end Rounds

end Haybarn.Aggregate
