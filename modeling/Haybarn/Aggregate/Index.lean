/-
The table as an index of the rows that its entries point to: resizing it rebuilds the index from the rows that the table
holds, and finding or creating the groups of a chunk extends it by the groups that it did not have.
-/
import Haybarn.Aggregate.Rounds

namespace Haybarn.Aggregate

open Lib Outcome ProbeScheme HashTable List

variable {G M : Type} {hash : G → Hash} {bits bits' : Nat} {t t' : HashTable G M} {owner owner' : Owner G}

/-- The entries of the table are those of a placed table of the groups of the rows they point to, and one is free. -/
structure Indexed (hash : G → Hash) (bits : Nat) (t : HashTable G M) (owner : Owner G) : Prop where
  parted : t.Parted
  capacity : t.capacity = 2 ^ bits
  stands : ∀ s, Stands hash t.memory (t.entries s) (owner s)
  placed : (scheme hash bits).Placed owner
  count : t.count = ((scheme hash bits).taken owner).card
  free : t.count < 2 ^ bits

/-- The rows that the table holds are those its entries point to. -/
structure HashTable.Exact (t : HashTable G M) : Prop where
  nodup : t.held.Nodup
  live : ∀ pointer, pointer ∈ t.held ↔ t.Live pointer

theorem stands_live (hstands : ∀ s, Stands hash t.memory (t.entries s) (owner s)) {s : Nat} {salt : Hash} {pointer : Nat}
    (hs : t.entries s = .full salt pointer) : ∃ row, t.memory[pointer]? = some row ∧ owner s = some row.group ∧
      row.hash = hash row.group := by
  have := hstands s
  rw [hs] at this
  obtain ⟨row, hrow, ho, hhash, -⟩ := this
  exact ⟨row, hrow, ho, hhash⟩

theorem Indexed.row (h : Indexed hash bits t owner) {pointer : Nat} (hlive : t.Live pointer) :
    ∃ row, t.memory[pointer]? = some row ∧ row.hash = hash row.group := by
  obtain ⟨s, salt, hs⟩ := hlive
  obtain ⟨row, hrow, -, hhash⟩ := stands_live h.stands hs
  exact ⟨row, hrow, hhash⟩

theorem Indexed.live_inj (h : Indexed hash bits t owner) {p p' : Nat} {row row' : Row G M} (hp : t.Live p)
    (hp' : t.Live p') (hrow : t.memory[p]? = some row) (hrow' : t.memory[p']? = some row')
    (hgroup : row.group = row'.group) : p = p' := by
  obtain ⟨s, salt, hs⟩ := hp
  obtain ⟨s', salt', hs'⟩ := hp'
  obtain ⟨row₁, hrow₁, ho, -⟩ := stands_live h.stands hs
  obtain ⟨row₂, hrow₂, ho', -⟩ := stands_live h.stands hs'
  rw [hrow] at hrow₁
  rw [hrow'] at hrow₂
  cases hrow₁
  cases hrow₂
  have hslot : s = s' := h.placed.inj s s' _ ho (hgroup ▸ ho')
  subst hslot
  rw [hs] at hs'
  cases hs'
  rfl

theorem Indexed.owner_none (h : Indexed hash bits t owner) (hcount : t.count = 0) (s : Nat) : owner s = none := by
  by_contra hs
  obtain ⟨g, hg⟩ := Option.ne_none_iff_exists'.1 hs
  have hmem : s ∈ (scheme hash bits).taken owner := mem_taken.2 ⟨h.placed.lt s g hg, hs⟩
  have := Finset.card_pos.2 ⟨s, hmem⟩
  have := h.count
  omega

theorem Indexed.not_live (h : Indexed hash bits t owner) (hcount : t.count = 0) {pointer : Nat} : ¬ t.Live pointer := by
  rintro ⟨s, salt, hs⟩
  obtain ⟨row, -, ho, -⟩ := stands_live h.stands hs
  rw [h.owner_none hcount] at ho
  cases ho

theorem indexed_empty (hparted : t.Parted) (hcapacity : t.capacity = 2 ^ bits) (hentries : ∀ s, t.entries s = .empty)
    (hcount : t.count = 0) : Indexed hash bits t fun _ => none := by
  constructor
  · exact hparted
  · exact hcapacity
  · intro s
    rw [hentries]
    rfl
  · exact placed_empty
  · rw [hcount]
    simp [taken]
  · rw [hcount]
    exact Nat.two_pow_pos bits

/-! ## Resizing -/

/-- The rows have been put into the entries of the table. -/
structure Reinserted (hash : G → Hash) (bits : Nat) (t₀ : HashTable G M) (pointers : List Nat) (t : HashTable G M)
    (owner : Owner G) : Prop where
  same : t = { t₀ with entries := t.entries }
  stands : ∀ s, Stands hash t.memory (t.entries s) (owner s)
  placed : (scheme hash bits).Placed owner
  card : ((scheme hash bits).taken owner).card = pointers.length
  live : ∀ pointer, t.Live pointer ↔ pointer ∈ pointers

/-- Rows of different groups, with the hashes of their groups. -/
structure Distinct (hash : G → Hash) (memory : List (Row G M)) (pointers : List Nat) : Prop where
  nodup : pointers.Nodup
  row : ∀ p ∈ pointers, ∃ row, memory[p]? = some row ∧ row.hash = hash row.group
  inj : ∀ p ∈ pointers, ∀ p' ∈ pointers, ∀ row row', memory[p]? = some row → memory[p']? = some row' →
    row.group = row'.group → p = p'

variable {t₀ : HashTable G M} {pointers rest : List Nat}

theorem reinsertTuple_returns {pointer : Nat} (h : Reinserted hash bits t₀ pointers t owner)
    (hd : Distinct hash t₀.memory (pointers ++ pointer :: rest)) (hcapacity : t₀.capacity = 2 ^ bits)
    (hroom : pointers.length < 2 ^ bits) :
    (t.reinsertTuple pointer).Returns fun t' => ∃ owner', Reinserted hash bits t₀ (pointers ++ [pointer]) t' owner' := by
  have hmemory : t.memory = t₀.memory := by rw [h.same]
  have hcapacity' : t.capacity = 2 ^ bits := by rw [h.same, hcapacity]
  have hmem : pointer ∈ pointers ++ pointer :: rest := by simp
  obtain ⟨row, hrow, hhash⟩ := hd.row pointer hmem
  have hnot : pointer ∉ pointers := by
    intro hp
    exact (nodup_append.1 hd.nodup).2.2 pointer hp pointer mem_cons_self rfl
  have habsent : ∀ s, owner s ≠ some row.group := by
    intro s ho
    cases he : t.entries s with
    | empty =>
      have := h.stands s
      rw [he, ho] at this
      cases this
    | claimed salt =>
      have := h.stands s
      rw [he] at this
      exact this
    | full salt p =>
      obtain ⟨row', hrow', ho', -⟩ := stands_live h.stands he
      rw [ho, Option.some.injEq] at ho'
      have hp := (h.live p).1 ⟨s, salt, he⟩
      have := hd.inj p (mem_append_left _ hp) pointer hmem row' row (hmemory ▸ hrow') hrow ho'.symm
      exact hnot (this ▸ hp)
  have hsearch := findFree_returns (salted_of_stands h.stands) (h.card ▸ hroom) habsent passedBy_zero
    (Nat.le_of_eq (Nat.zero_add (2 ^ bits)).symm)
  rw [← applyBitMask_eq, ← hhash, ← hcapacity'] at hsearch
  have hrow' : t.memory[pointer]? = some row := by rw [hmemory, hrow]
  unfold reinsertTuple
  rw [hrow']
  refine hsearch.bind ?_
  rintro offset ⟨j, hp, rfl, hfree⟩
  have hlt : (scheme hash bits).path row.group j < (scheme hash bits).capacity := (scheme hash bits).path_lt _ _
  refine returns_done ⟨claim owner ((scheme hash bits).path row.group j) row.group, ?_⟩
  generalize hslot : (scheme hash bits).path row.group j = slot at *
  constructor
  · rw [h.same]
  · intro s
    by_cases hs : s = slot
    · subst hs
      dsimp only
      rw [setEntry_self, claim_self]
      exact ⟨row, hrow', rfl, hhash, rfl⟩
    · dsimp only
      rw [setEntry_of_ne hs, claim_of_ne hs]
      exact h.stands s
  · have := h.placed.claim hp (hp.lt (h.card ▸ hroom)) (hslot ▸ hfree)
    rwa [hslot] at this
  · rw [card_taken_claim hfree hlt, h.card, length_append, length_singleton]
  · intro p
    rw [mem_append, mem_singleton, ← h.live p]
    constructor
    · rintro ⟨s, salt, hs⟩
      by_cases heq : s = slot
      · subst heq
        dsimp only at hs
        rw [setEntry_self] at hs
        cases hs
        exact .inr rfl
      · dsimp only at hs
        rw [setEntry_of_ne heq] at hs
        exact .inl ⟨s, salt, hs⟩
    · rintro (⟨s, salt, hs⟩ | rfl)
      · refine ⟨s, salt, ?_⟩
        dsimp only
        rw [setEntry_of_ne]
        · exact hs
        · rintro rfl
          have := h.stands s
          rw [hs, hfree] at this
          obtain ⟨row', -, ⟨⟩, -⟩ := this
      · exact ⟨slot, _, setEntry_self⟩

theorem reinsertTuples_returns (hcapacity : t₀.capacity = 2 ^ bits) :
    ∀ {rest pointers : List Nat} {t : HashTable G M} {owner : Owner G}, Reinserted hash bits t₀ pointers t owner →
      Distinct hash t₀.memory (pointers ++ rest) → (pointers ++ rest).length < 2 ^ bits →
        (reinsertTuples rest t).Returns fun t' => ∃ owner', Reinserted hash bits t₀ (pointers ++ rest) t' owner'
  | [], pointers, t, owner, h, _, _ => returns_done ⟨owner, by rwa [append_nil]⟩
  | pointer :: rest, pointers, t, owner, h, hd, hroom => by
    have hstep := reinsertTuple_returns h hd hcapacity (by simp at hroom; omega)
    refine hstep.bind ?_
    rintro t' ⟨owner', h'⟩
    have hassoc : pointers ++ pointer :: rest = pointers ++ [pointer] ++ rest := by simp
    rw [hassoc] at hd hroom ⊢
    exact reinsertTuples_returns hcapacity h' hd hroom

theorem Indexed.distinct (h : Indexed hash bits t owner) (hexact : t.Exact) : Distinct hash t.memory t.held := by
  constructor
  · exact hexact.nodup
  · intro p hp
    exact h.row ((hexact.live p).1 hp)
  · intro p hp p' hp' row row' hrow hrow' hgroup
    exact h.live_inj ((hexact.live p).1 hp) ((hexact.live p').1 hp') hrow hrow' hgroup

theorem Indexed.full_of_taken (h : Indexed hash bits t owner) {s : Nat} (hs : s ∈ (scheme hash bits).taken owner) :
    ∃ salt pointer, t.entries s = .full salt pointer := by
  have hstands := h.stands s
  cases he : t.entries s with
  | empty =>
    rw [he] at hstands
    exact absurd hstands (mem_taken.1 hs).2
  | claimed salt =>
    rw [he] at hstands
    exact hstands.elim
  | full salt pointer => exact ⟨salt, pointer, rfl⟩

theorem Indexed.length_held (h : Indexed hash bits t owner) (hexact : t.Exact) : t.held.length = t.count := by
  classical
  rw [h.count, ← toFinset_card_of_nodup hexact.nodup]
  have hpointer : ∀ s ∈ (scheme hash bits).taken owner, ∃ pointer, ∃ salt, t.entries s = .full salt pointer := by
    intro s hs
    obtain ⟨salt, pointer, hs⟩ := h.full_of_taken hs
    exact ⟨pointer, salt, hs⟩
  choose! pointer hpointer using hpointer
  refine (Finset.card_nbij pointer ?_ ?_ ?_).symm
  · intro s hs
    exact mem_toFinset.2 ((hexact.live _).2 ⟨s, hpointer s hs⟩)
  · intro s hs s' hs' heq
    obtain ⟨salt, he⟩ := hpointer s hs
    obtain ⟨salt', he'⟩ := hpointer s' hs'
    obtain ⟨row, hrow, ho, -⟩ := stands_live h.stands he
    obtain ⟨row', hrow', ho', -⟩ := stands_live h.stands he'
    rw [← heq, hrow] at hrow'
    cases hrow'
    exact h.placed.inj s s' _ ho ho'
  · intro p hp
    obtain ⟨s, salt, hs⟩ := (hexact.live p).1 (mem_toFinset.1 hp)
    obtain ⟨row, -, ho, -⟩ := stands_live h.stands hs
    have hmem : s ∈ (scheme hash bits).taken owner := mem_taken.2 ⟨h.placed.lt s _ ho, by simp [ho]⟩
    obtain ⟨salt', hs'⟩ := hpointer s hmem
    rw [hs] at hs'
    cases hs'
    exact ⟨s, hmem, rfl⟩

/-- What a table becomes when its entries are rebuilt. -/
structure Rebuilt (hash : G → Hash) (bits : Nat) (t t' : HashTable G M) (owner : Owner G) : Prop where
  indexed : Indexed hash bits t' owner
  same : t' = { t with capacity := t'.capacity, entries := t'.entries }
  live : ∀ pointer, t'.Live pointer ↔ t.Live pointer

/-- The insertion of all rows that the table holds, in the two loops of `Resize`. -/
def HashTable.reinsertHeld (t : HashTable G M) : Outcome (HashTable G M) := do
  let t ← reinsertTuples t.partitionedData.flatten t
  if t.radixBits ≥ unpartitionedRadixBitsThreshold then reinsertTuples (t.unpartitionedData.getD []).flatten t
  else done t

theorem reinsertHeld_returns (hparted : t.Parted) (hcapacity : t.capacity = 2 ^ bits)
    (hempty : ∀ s, t.entries s = .empty) (hd : Distinct hash t.memory t.held) (hroom : t.held.length < 2 ^ bits) :
    t.reinsertHeld.Returns fun t' => ∃ owner', Reinserted hash bits t t.held t' owner' := by
  have hstart : Reinserted hash bits t [] t fun _ => none := by
    constructor
    · rfl
    · intro s
      rw [hempty]
      rfl
    · exact placed_empty
    · simp [taken]
    · simp [Live, hempty]
  have hlength : t.partitionedData.flatten.length + (t.unpartitionedData.getD []).flatten.length < 2 ^ bits := by
    simpa [held] using hroom
  have hfirst : Distinct hash t.memory ([] ++ t.partitionedData.flatten) := by
    constructor
    · exact (nodup_append.1 hd.nodup).1
    · intro p hp
      exact hd.row p (mem_append_left _ hp)
    · intro p hp p' hp'
      exact hd.inj p (mem_append_left _ hp) p' (mem_append_left _ hp')
  unfold reinsertHeld
  refine (reinsertTuples_returns hcapacity hstart hfirst (by rw [nil_append]; omega)).bind ?_
  rintro t' ⟨owner', h'⟩
  rw [nil_append] at h'
  have hbits : t'.radixBits = t.radixBits := by rw [h'.same]
  have hdata : t'.unpartitionedData = t.unpartitionedData := by rw [h'.same]
  rw [hbits, hdata]
  split
  · exact reinsertTuples_returns hcapacity h' hd hroom
  · rename_i hfew
    have hnone := hparted.few (Nat.lt_of_not_le hfew)
    refine returns_done ⟨owner', ?_⟩
    rw [held, hnone]
    simpa using h'

theorem resize_eq {size : Nat} (hsize : ¬ (t.count ≠ 0 ∧ size < t.capacity)) :
    t.resize size = if t.count ≠ 0 then ({ t with capacity := size } : HashTable G M).clearPointerTable.reinsertHeld
      else done ({ t with capacity := size } : HashTable G M).clearPointerTable := by
  unfold resize
  rw [if_neg hsize]
  rfl

theorem resize_returns (h : Indexed hash bits t owner) (hbits : bits ≤ bits') (hexact : t.count ≠ 0 → t.Exact) :
    (t.resize (2 ^ bits')).Returns fun t' => ∃ owner', Rebuilt hash bits' t t' owner' := by
  have hle : 2 ^ bits ≤ 2 ^ bits' := Nat.pow_le_pow_right (by omega) hbits
  rw [resize_eq (by rw [h.capacity]; omega)]
  split
  · rename_i hcount
    have hexact := hexact hcount
    have hlength := h.length_held hexact
    have hfree : t.count < 2 ^ bits' := Nat.lt_of_lt_of_le h.free hle
    have hinsert := reinsertHeld_returns (t := ({ t with capacity := 2 ^ bits' } : HashTable G M).clearPointerTable)
      { h.parted with } rfl (fun _ => rfl) (h.distinct hexact) (hlength.trans_lt hfree)
    refine hinsert.mono ?_
    rintro t' ⟨owner', h'⟩
    have hcapacity : t'.capacity = 2 ^ bits' := by
      rw [h'.same]
      rfl
    refine ⟨owner', ⟨?_, hcapacity, h'.stands, h'.placed, ?_, ?_⟩, ?_, ?_⟩
    · rw [h'.same]
      exact { h.parted with }
    · rw [h'.card, h'.same]
      exact hlength.symm
    · rw [h'.same]
      exact hfree
    · rw [hcapacity]
      exact h'.same
    · intro p
      rw [h'.live p, ← hexact.live p]
      rfl
  · rename_i hcount
    rw [not_not] at hcount
    refine returns_done ⟨fun _ => none, ?_, rfl, ?_⟩
    · exact indexed_empty { h.parted with } rfl (fun _ => rfl) hcount
    · intro p
      constructor
      · rintro ⟨s, salt, ⟨⟩⟩
      · intro hlive
        exact absurd hlive (h.not_live hcount)

/-- The entries are rebuilt for a chunk of the size. -/
def HashTable.NeedsRoom (t : HashTable G M) (chunkSize : Nat) : Prop :=
  t.count + chunkSize > t.capacity ∨ t.count + chunkSize > resizeThreshold t.capacity

theorem makeRoom_returns (h : Indexed hash bits t owner) {n : Nat} (hn : n ≤ 2 ^ bits)
    (hexact : t.NeedsRoom n → t.count ≠ 0 → t.Exact) :
    (t.makeRoom n).Returns fun t' => ∃ bits' ≥ bits, ∃ owner', Rebuilt hash bits' t t' owner' ∧ t.count + n < 2 ^ bits' := by
  have hfree := h.free
  unfold makeRoom
  split
  · rename_i hneeds
    rw [h.capacity, ← Nat.pow_succ]
    refine (resize_returns h (Nat.le_succ bits) (hexact hneeds)).mono ?_
    rintro t' ⟨owner', h'⟩
    exact ⟨bits + 1, Nat.le_succ bits, owner', h', by rw [Nat.pow_succ]; omega⟩
  · rename_i hroom
    have hpos := Nat.two_pow_pos bits
    rw [h.capacity] at hroom
    unfold resizeThreshold at hroom
    exact returns_done ⟨bits, Nat.le_refl _, owner, ⟨h, rfl, fun _ => Iff.rfl⟩, by omega⟩

/-! ## Finding or creating groups -/

/-- An entry points to the row of the group. -/
def HashTable.RowOf (t : HashTable G M) (g : G) (pointer : Nat) : Prop :=
  t.Live pointer ∧ ∃ row, t.memory[pointer]? = some row ∧ row.group = g

/-- The groups of the chunk have been found or created: the rows of those that are new are the only ones that are new to
the entries, and every row of the chunk has the address of the row of its group. -/
structure Created [One M] (chunk : Chunk G) (t t' : HashTable G M) (addresses : Fin chunk.size → Nat)
    (newGroups : List (Fin chunk.size)) : Prop where
  grown : t.Grown t' (newGroups.map (newRow chunk))
  count : t'.count = t.count + newGroups.length
  live : ∀ pointer, t'.Live pointer ↔ t.Live pointer ∨ t.memory.length ≤ pointer ∧ pointer < t'.memory.length
  found : ∀ i, t'.RowOf (chunk.group i) (addresses i)

section Create

variable [One M] {chunk : Chunk G}

theorem Rebuilt.rounded (h : Rebuilt hash bits t t' owner) (hhash : ∀ i, chunk.hash i = hash (chunk.group i)) :
    Rounded hash bits chunk t' owner 0 (finRange chunk.size)
      ⟨t', fun i => applyBitMask t'.capacity (chunk.hash i), fun _ => 0, []⟩ owner := by
  constructor
  case appends => exact Appends.refl h.indexed.parted
  case stands => exact h.indexed.stands
  case placed => exact h.indexed.placed
  case live =>
    intro p
    constructor
    · exact .inl
    · rintro (hlive | ⟨hle, hlt⟩)
      · exact hlive
      · exact absurd hlt (Nat.not_lt.2 hle)
  case ahead =>
    intro i _
    refine ⟨0, Nat.le_refl _, passedBy_zero, ?_⟩
    dsimp only
    rw [h.indexed.capacity, hhash i, applyBitMask_eq]
  case found =>
    intro i hi
    exact absurd (mem_finRange i) hi
  case nodup => exact nodup_finRange _
  all_goals simp

theorem Created.of_rounded (h : Rebuilt hash bits t t' owner) {least : Nat} {f : Finding G M chunk.size}
    {owner' : Owner G} (hf : Rounded hash bits chunk t' owner least [] f owner') :
    Created chunk t { f.table with count := f.table.count + f.newGroups.length } f.addresses f.newGroups := by
  have hmemory : t'.memory = t.memory := by rw [h.same]
  have hheld : t'.held = t.held := by
    rw [h.same]
    rfl
  constructor
  · constructor
    · rw [← hmemory]
      exact hf.appends.memory
    · rw [← hheld, ← hmemory]
      exact hf.appends.held
    · exact { hf.appends.parted with }
    · have hsame : t.Same t' := by
        rw [h.same]
        exact ⟨rfl, rfl, rfl, rfl, rfl, rfl⟩
      exact { hsame.trans hf.appends.same with }
  · have hcount := hf.appends.count
    rw [h.same] at hcount
    dsimp only
    rw [hcount]
  · intro p
    rw [← h.live p, ← hmemory]
    exact hf.live p
  · intro i
    obtain ⟨s, salt, hs, ho⟩ := hf.found i (not_mem_nil)
    obtain ⟨row, hrow, ho', -⟩ := stands_live hf.stands hs
    rw [ho, Option.some.injEq] at ho'
    exact ⟨⟨s, salt, hs⟩, row, hrow, ho'.symm⟩

theorem Indexed.of_rounded (h : Rebuilt hash bits t t' owner) (hroom : t.count + chunk.size < 2 ^ bits) {least : Nat}
    {f : Finding G M chunk.size} {owner' : Owner G} (hf : Rounded hash bits chunk t' owner least [] f owner') :
    Indexed hash bits { f.table with count := f.table.count + f.newGroups.length } owner' := by
  have hcount : f.table.count = t'.count := hf.appends.count
  have hsame : t'.count = t.count := by rw [h.same]
  have hnew := hf.room
  constructor
  · exact { hf.appends.parted with }
  · exact hf.appends.capacity.trans h.indexed.capacity
  · exact hf.stands
  · exact hf.placed
  · rw [hf.card, ← h.indexed.count, ← hcount]
  · dsimp only
    simp only [length_nil] at hnew
    omega

theorem findOrCreateGroups_returns [DecidableEq G] (h : Indexed hash bits t owner) (hhash : ∀ i, chunk.hash i = hash (chunk.group i))
    (hsize : chunk.size ≤ 2 ^ bits) (hlookups : t.skipLookups = false)
    (hexact : t.NeedsRoom chunk.size → t.count ≠ 0 → t.Exact) :
    (t.findOrCreateGroups chunk).Returns fun (t', addresses, newGroups, newGroupCount) =>
      newGroupCount = newGroups.length ∧ Created chunk t t' addresses newGroups ∧
        ∃ bits' ≥ bits, ∃ owner', Indexed hash bits' t' owner' := by
  unfold findOrCreateGroups
  refine (makeRoom_returns h hsize hexact).bind ?_
  rintro t₁ ⟨bits', hbits, owner₁, h₁, hroom⟩
  have hlookups₁ : t₁.skipLookups = false := by rw [h₁.same, hlookups]
  rw [hlookups₁, if_neg Bool.false_ne_true]
  have hroom₁ : ((scheme hash bits').taken owner₁).card + chunk.size < 2 ^ bits' := by
    rw [← h₁.indexed.count, h₁.same]
    exact hroom
  have hrounds := rounds_returns hhash h₁.indexed.capacity hroom₁ (h₁.rounded hhash)
    (Nat.zero_add _) (length_filter_le (fun i => (t₁.entries (applyBitMask t₁.capacity (chunk.hash i))).isOccupied) _)
  rw [← h₁.indexed.capacity] at hrounds
  refine hrounds.bind ?_
  rintro f ⟨least, owner', hf⟩
  exact returns_done ⟨rfl, Created.of_rounded h₁ hf, bits', hbits, owner', Indexed.of_rounded h₁ hroom hf⟩

end Create

end Haybarn.Aggregate
