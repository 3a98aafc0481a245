/-
What a table takes in. However the groups of a chunk are found or created, its rows end at rows of their groups that the
table holds, so that the values of the chunk are combined into what the table holds and into nothing else.
-/
import Haybarn.Aggregate.Contents

namespace Haybarn.Aggregate

open Lib Outcome HashTable List

variable {G M : Type} {hash : G → Hash} {t t' t'' : HashTable G M}

/-- The rows that a table holds are stored at different places, and all rows with the hashes of their groups. -/
structure Stored (hash : G → Hash) (t : HashTable G M) : Prop where
  parted : t.Parted
  nodup : t.held.Nodup
  lt : ∀ p ∈ t.held, p < t.memory.length
  hashed : ∀ row ∈ t.memory, row.hash = hash row.group

/-- The groups of the chunk have rows: new ones are appended, and every row of the chunk has the address of a row of its
group. -/
structure Filed [One M] (chunk : Chunk G) (t t' : HashTable G M) (addresses : Fin chunk.size → Nat) : Prop where
  grown : ∃ new : List (Fin chunk.size), t.Grown t' (new.map (newRow chunk))
  found : ∀ i, t'.Holds (chunk.group i) (addresses i)

/-- The table has taken in the inputs, and left alone the rows that it does not hold. -/
structure Took [DecidableEq G] [CommMonoid M] (t t' : HashTable G M) (inputs : List (G × M)) : Prop where
  radixBits : t'.radixBits = t.radixBits
  sinkCount : t'.sinkCount = t.sinkCount
  skipLookups : t'.skipLookups = t.skipLookups
  aggregatesEmpty : t'.aggregatesEmpty = t.aggregatesEmpty
  partitions : t'.partitionedData.length = t.partitionedData.length
  held : ∃ n, t'.memory.length = t.memory.length + n ∧ t'.held.Perm (t.held ++ List.range' t.memory.length n)
  others : ∀ p, p ∉ t.held → p < t.memory.length → t'.memory[p]? = t.memory[p]?
  keys : ∀ g, g ∈ t'.contents.map Prod.fst ↔ g ∈ t.contents.map Prod.fst ∨ g ∈ inputs.map Prod.fst
  values : ∀ g, groupProd t'.contents g = groupProd t.contents g * groupProd inputs g

/-! ## The empty table -/

/-- The table that the constructor makes. -/
def HashTable.fresh (aggregatesEmpty : Bool) (capacity radixBits : Nat) : HashTable G M where
  memory := []
  radixBits := radixBits
  partitionedData := Partitions.init radixBits
  unpartitionedData := if radixBits ≥ unpartitionedRadixBitsThreshold then some (Partitions.init 0) else none
  count := 0
  capacity := capacity
  entries := fun _ => .empty
  sinkCount := 0
  skipLookups := false
  aggregatesEmpty := aggregatesEmpty
  dictState := ⟨"", 0, fun _ => false, fun _ => 0⟩

section Fresh

variable {aggregatesEmpty : Bool} {capacity radixBits : Nat}

theorem create_eq : create aggregatesEmpty capacity radixBits =
    done (fresh aggregatesEmpty capacity radixBits : HashTable G M) := by
  unfold create
  rw [resize_eq (by simp)]
  rfl

theorem held_fresh : (fresh aggregatesEmpty capacity radixBits : HashTable G M).held = [] := by
  simp only [held, fresh, Partitions.flatten_init, nil_append]
  split <;> simp

theorem parted_fresh : (fresh aggregatesEmpty capacity radixBits : HashTable G M).Parted := by
  constructor
  · exact Partitions.even_init radixBits
  · rintro p hp
    dsimp only [fresh] at hp
    split at hp
    · cases hp
      exact length_replicate
    · cases hp
  · intro hmany
    dsimp only [fresh] at hmany ⊢
    simp [hmany]
  · intro hfew
    dsimp only [fresh] at hfew ⊢
    simp [hfew]

theorem stored_fresh : Stored hash (fresh aggregatesEmpty capacity radixBits : HashTable G M) := by
  refine ⟨parted_fresh, ?_, ?_, ?_⟩
  · rw [held_fresh]
    exact nodup_nil
  · simp [held_fresh]
  · simp [fresh]

theorem exact_fresh : (fresh aggregatesEmpty capacity radixBits : HashTable G M).Exact := by
  refine ⟨?_, fun p => ?_⟩
  · rw [held_fresh]
    exact nodup_nil
  · rw [held_fresh]
    simp [fresh, Live]

theorem contents_fresh : (fresh aggregatesEmpty capacity radixBits : HashTable G M).contents = [] := by
  rw [HashTable.contents, held_fresh]
  rfl

end Fresh

/-! ## Growth -/

section Grown

variable {rows : List (Row G M)} {g : G} {p : Nat}

theorem HashTable.Grown.getElem? (h : t.Grown t' rows) (hp : p < t.memory.length) : t'.memory[p]? = t.memory[p]? := by
  rw [h.memory, getElem?_append_left hp]

theorem HashTable.Grown.mem_held (h : t.Grown t' rows) :
    p ∈ t'.held ↔ p ∈ t.held ∨ t.memory.length ≤ p ∧ p < t'.memory.length := by
  rw [h.held.mem_iff, mem_append, mem_range'_1, h.memory, length_append]

theorem HashTable.Grown.holds (h : t.Grown t' rows) (hr : t.Holds g p) : t'.Holds g p := by
  have hlt := hr.lt
  obtain ⟨hheld, row, hrow, hgroup⟩ := hr
  exact ⟨h.mem_held.2 (.inl hheld), row, by rw [h.getElem? hlt, hrow], hgroup⟩

theorem HashTable.Grown.stored (h : t.Grown t' rows) (hs : Stored hash t) (hrows : ∀ row ∈ rows, row.hash = hash row.group) :
    Stored hash t' := by
  constructor
  · exact h.parted
  · rw [h.held.nodup_iff, nodup_append]
    refine ⟨hs.nodup, nodup_range', ?_⟩
    rintro p hp p' hp' rfl
    have := hs.lt p hp
    rw [mem_range'_1] at hp'
    omega
  · intro p hp
    rcases h.mem_held.1 hp with hp | ⟨-, hp⟩
    · have := hs.lt p hp
      rw [h.memory, length_append]
      omega
    · exact hp
  · intro row hrow
    rw [h.memory] at hrow
    rcases mem_append.1 hrow with hrow | hrow
    · exact hs.hashed row hrow
    · exact hrows row hrow

theorem HashTable.Grown.contents (h : t.Grown t' rows) (hs : Stored hash t) :
    t'.contents.Perm (t.contents ++ rows.map fun row => (row.group, row.state)) := by
  refine (rowsAt_perm h.held).trans ?_
  rw [rowsAt_append, h.memory, rowsAt_new]
  refine List.Perm.append_right _ (List.Perm.of_eq (rowsAt_congr fun p hp => ?_))
  exact getElem?_append_left (hs.lt p hp)

end Grown

section Take

variable [CommMonoid M] {n : Nat} {addresses : Fin n → Nat} {group : Fin n → G} {payload : Fin n → M}

theorem Updated.stored (h : Updated t t' addresses payload) (hs : Stored hash t) : Stored hash t' := by
  constructor
  · exact h.parted hs.parted
  · rw [h.held]
    exact hs.nodup
  · intro p hp
    rw [h.held] at hp
    rw [h.length]
    exact hs.lt p hp
  · intro row hrow
    obtain ⟨p, hp⟩ := getElem?_of_mem hrow
    rw [h.memory, Option.map_eq_some_iff] at hp
    obtain ⟨row₀, hrow₀, rfl⟩ := hp
    exact hs.hashed row₀ (mem_of_getElem? hrow₀)

theorem Updated.keys (h : Updated t t' addresses payload) (g : G) :
    g ∈ t'.contents.map Prod.fst ↔ g ∈ t.contents.map Prod.fst := by
  rw [mem_contents_keys, mem_contents_keys]
  constructor
  · rintro ⟨p, hheld, row, hrow, rfl⟩
    rw [h.memory, Option.map_eq_some_iff] at hrow
    obtain ⟨row₀, hrow₀, rfl⟩ := hrow
    exact ⟨p, h.held ▸ hheld, row₀, hrow₀, rfl⟩
  · rintro ⟨p, hp⟩
    exact ⟨p, h.holds hp⟩

theorem Took.of_filed [DecidableEq G] {chunk : Chunk G} {new : Fin chunk.size → Nat} (hs : Stored hash t)
    (hf : Filed chunk t t' new) (hhash : ∀ i, chunk.hash i = hash (chunk.group i))
    (hu : Updated t' t'' addresses payload) (haddresses : ∀ i, t'.Holds (group i) (addresses i))
    (hsub : ∀ i, ∃ j, group j = chunk.group i) :
    Stored hash t'' ∧ Took t t'' (chunkInputs group payload) := by
  obtain ⟨rows, hg⟩ := hf.grown
  have hs' : Stored hash t' := by
    refine hg.stored hs fun row hrow => ?_
    obtain ⟨i, -, rfl⟩ := mem_map.1 hrow
    exact hhash i
  refine ⟨hu.stored hs', ?_⟩
  constructor
  · rw [hu.same]
    exact hg.same.radixBits
  · rw [hu.same]
    exact hg.same.sinkCount
  · rw [hu.same]
    exact hg.same.skipLookups
  · rw [hu.same]
    exact hg.same.aggregatesEmpty
  · rw [hu.same]
    exact hg.same.partitions
  · refine ⟨rows.length, ?_, ?_⟩
    · rw [hu.length, hg.memory, length_append, length_map]
    · rw [hu.held]
      have := hg.held
      rwa [length_map] at this
  · intro p hp hlt
    have hnot : p ∉ t'.held := by
      rw [hg.mem_held]
      rintro (hmem | ⟨hle, -⟩)
      · exact hp hmem
      · exact absurd hlt (Nat.not_lt.2 hle)
    have hvalue : groupProd ((finRange n).map fun i => (addresses i, payload i)) p = 1 := by
      refine groupProd_of_not_mem fun hmem => hnot ?_
      simp only [map_map, mem_map, Function.comp_apply] at hmem
      obtain ⟨i, -, rfl⟩ := hmem
      exact (haddresses i).1
    rw [hu.memory, hvalue, Row.update_one, Option.map_id, id, hg.getElem? hlt]
  · intro g
    have hperm := (hg.contents hs).map Prod.fst
    rw [hu.keys]
    constructor
    · rw [hperm.mem_iff, map_append, mem_append]
      rintro (hold | hnew)
      · exact .inl hold
      · simp only [map_map, mem_map, Function.comp_apply] at hnew
        obtain ⟨i, -, rfl⟩ := hnew
        exact .inr (mem_chunkInputs.2 (hsub i))
    · rintro (hold | hnew)
      · rw [hperm.mem_iff, map_append]
        exact mem_append_left _ hold
      · obtain ⟨i, rfl⟩ := mem_chunkInputs.1 hnew
        exact mem_contents_keys.2 ⟨addresses i, haddresses i⟩
  · intro g
    rw [hu.contents hs'.nodup hs'.lt haddresses, groupProd_perm (hg.contents hs), groupProd_append, map_map]
    have hnew : groupProd (rows.map ((fun row : Row G M => (row.group, row.state)) ∘ newRow chunk)) g = 1 :=
      groupProd_map_one
    rw [hnew, mul_one]

end Take

/-! ## Ways of finding groups -/

theorem HashTable.NeedsRoom.mono {m n : Nat} (h : t.NeedsRoom m) (hle : m ≤ n) : t.NeedsRoom n := by
  unfold NeedsRoom at *
  omega

theorem Created.exact [One M] {chunk : Chunk G} {addresses : Fin chunk.size → Nat} {newGroups : List (Fin chunk.size)}
    (h : Created chunk t t' addresses newGroups) (hs : Stored hash t') (hexact : t.Exact) : t'.Exact := by
  refine ⟨hs.nodup, fun p => ?_⟩
  rw [h.grown.mem_held, h.live p, hexact.live p]

section Find

variable [DecidableEq G] [CommMonoid M]

/-- The groups of chunks of up to a size are filed, whatever dictionary is remembered, and then the table and the number
of new groups are as told. -/
structure Finds (hash : G → Hash) (t : HashTable G M) (size : Nat) (Q : HashTable G M → Nat → Prop) : Prop where
  find : ∀ (d : DictState) (chunk : Chunk G), chunk.size ≤ size → (∀ i, chunk.hash i = hash (chunk.group i)) →
    (({ t with dictState := d } : HashTable G M).findOrCreateGroups chunk).Returns fun (t', addresses, _, n) =>
      Filed chunk { t with dictState := d } t' addresses ∧ Q t' n
  none : ∀ d, Q { t with dictState := d } 0
  updated : ∀ {m n : Nat} {t' t'' : HashTable G M} {addresses : Fin m → Nat} {payload : Fin m → M},
    Q t' n → Updated t' t'' addresses payload → Q t'' n

/-- The table after groups have been looked up. -/
structure Looked (hash : G → Hash) (bits : Nat) (t t' : HashTable G M) (n : Nat) : Prop where
  indexed : ∃ bits' ≥ bits, ∃ owner', Indexed hash bits' t' owner'
  live : ∀ p, t'.Live p → p ∈ t'.held
  exact : t.Exact → t'.Exact
  count : t'.count = t.count + n

theorem finds_lookups {bits size : Nat} {owner : ProbeScheme.Owner G} (h : Indexed hash bits t owner)
    (hs : Stored hash t) (hlive : ∀ p, t.Live p → p ∈ t.held) (hsize : size ≤ 2 ^ bits) (hlookups : t.skipLookups = false)
    (hexact : t.NeedsRoom size → t.count ≠ 0 → t.Exact) : Finds hash t size (Looked hash bits t) := by
  constructor
  · intro d chunk hle hhash
    have h' : Indexed hash bits { t with dictState := d } owner := { h with parted := { h.parted with } }
    have hexact' : ({ t with dictState := d } : HashTable G M).NeedsRoom chunk.size → t.count ≠ 0 →
        ({ t with dictState := d } : HashTable G M).Exact := fun hneeds hcount =>
      { hexact (HashTable.NeedsRoom.mono (t := t) hneeds hle) hcount with }
    refine (findOrCreateGroups_returns h' hhash (hle.trans hsize) hlookups hexact').mono ?_
    rintro ⟨t', addresses, newGroups, n⟩ ⟨rfl, hc, bits', hbits, owner', hi⟩
    have hlive' : ∀ p, t'.Live p → p ∈ t'.held := by
      intro p hp
      rw [hc.grown.mem_held]
      exact ((hc.live p).1 hp).imp_left (hlive p)
    have hs' : Stored hash t' := by
      have hs₀ : Stored hash { t with dictState := d } := { hs with parted := { hs.parted with } }
      refine hc.grown.stored hs₀ fun row hrow => ?_
      obtain ⟨i, -, rfl⟩ := mem_map.1 hrow
      exact hhash i
    refine ⟨⟨⟨newGroups, hc.grown⟩, fun i => ⟨hlive' _ (hc.found i).1, (hc.found i).2⟩⟩, ⟨bits', hbits, owner', hi⟩,
      hlive', ?_, hc.count⟩
    intro he
    exact hc.exact hs' { he with }
  · intro d
    exact ⟨⟨bits, Nat.le_refl _, owner, { h with parted := { h.parted with } }⟩, hlive, fun he => { he with }, rfl⟩
  · rintro m n t' t'' addresses payload ⟨⟨bits', hbits, owner', hi⟩, hlive', hexact', hcount⟩ hu
    refine ⟨⟨bits', hbits, owner', hu.indexed hi⟩, ?_, ?_, ?_⟩
    · intro p hp
      rw [hu.held]
      refine hlive' p ?_
      unfold Live at hp
      rwa [hu.entries] at hp
    · intro he
      have he' := hexact' he
      constructor
      · rw [hu.held]
        exact he'.nodup
      · intro p
        rw [hu.held, he'.live p]
        unfold Live
        rw [hu.entries]
    · rw [hu.same]
      exact hcount

end Find

end Haybarn.Aggregate
