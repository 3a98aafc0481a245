/-
The rows that a table holds, as the groups and states that they have. New rows have the state of no input, and the values
that are combined into the states of rows are those of the groups of the rows, whichever of the rows of a group gets them.
-/
import Haybarn.Lib.GroupBy
import Haybarn.Aggregate.AddChunk
import Haybarn.Aggregate.Index

namespace Haybarn.Aggregate

open Lib Outcome HashTable List

variable {G M : Type} {hash : G → Hash} {t t' t'' : HashTable G M}

/-! ## Rows at pointers -/

/-- The groups and the states of the rows that the pointers point to. -/
def rowsAt (memory : List (Row G M)) (pointers : List Nat) : List (G × M) :=
  pointers.filterMap fun p => memory[p]?.map fun row => (row.group, row.state)

/-- What the table holds. -/
def HashTable.contents (t : HashTable G M) : List (G × M) := rowsAt t.memory t.held

/-- The table holds a row of the group there. -/
def HashTable.Holds (t : HashTable G M) (g : G) (pointer : Nat) : Prop :=
  pointer ∈ t.held ∧ ∃ row, t.memory[pointer]? = some row ∧ row.group = g

section RowsAt

variable {memory memory' : List (Row G M)} {pointers pointers' : List Nat} {g : G}

theorem rowsAt_append : rowsAt memory (pointers ++ pointers') = rowsAt memory pointers ++ rowsAt memory pointers' :=
  filterMap_append

theorem rowsAt_perm (h : pointers.Perm pointers') : (rowsAt memory pointers).Perm (rowsAt memory pointers') :=
  h.filterMap _

theorem rowsAt_congr (h : ∀ p ∈ pointers, memory'[p]? = memory[p]?) : rowsAt memory' pointers = rowsAt memory pointers :=
  filterMap_congr fun p hp => by rw [h p hp]

theorem mem_rowsAt_keys : g ∈ (rowsAt memory pointers).map Prod.fst ↔
    ∃ p ∈ pointers, ∃ row, memory[p]? = some row ∧ row.group = g := by
  simp only [rowsAt, mem_map, mem_filterMap, Option.map_eq_some_iff]
  constructor
  · rintro ⟨x, ⟨p, hp, row, hrow, rfl⟩, rfl⟩
    exact ⟨p, hp, row, hrow, rfl⟩
  · rintro ⟨p, hp, row, hrow, rfl⟩
    exact ⟨_, ⟨p, hp, row, hrow, rfl⟩, rfl⟩

theorem mem_contents_keys : g ∈ t.contents.map Prod.fst ↔ ∃ p, t.Holds g p := by
  rw [HashTable.contents, mem_rowsAt_keys]
  rfl

theorem rowsAt_new (memory rows : List (Row G M)) :
    rowsAt (memory ++ rows) (range' memory.length rows.length) = rows.map fun row => (row.group, row.state) := by
  induction rows generalizing memory with
  | nil => rfl
  | cons row rows ih =>
    have hrow : (memory ++ row :: rows)[memory.length]? = some row := by simp
    have hrest := ih (memory ++ [row])
    rw [length_append, length_singleton, append_assoc, singleton_append] at hrest
    rw [length_cons, range'_succ, rowsAt, filterMap_cons_some (by rw [hrow]; rfl), map_cons]
    exact congrArg _ hrest

variable [DecidableEq G] [CommMonoid M]

theorem groupProd_rowsAt : groupProd (rowsAt memory pointers) g = groupProd (pointers.map fun p =>
    (memory[p]?.map Row.group, (memory[p]?.map Row.state).getD 1)) (some g) := by
  induction pointers with
  | nil => rfl
  | cons p pointers ih =>
    rw [map_cons, rowsAt, filterMap_cons]
    cases memory[p]? with
    | none =>
      rw [Option.map_none, Option.map_none, groupProd_cons_of_ne (by simp)]
      exact ih
    | some row =>
      rw [Option.map_some, Option.map_some, Option.map_some]
      by_cases hg : row.group = g
      · rw [hg, groupProd_cons, groupProd_cons]
        exact congrArg _ ih
      · rw [groupProd_cons_of_ne hg, groupProd_cons_of_ne (by simpa using hg)]
        exact ih

end RowsAt

/-! ## States -/

section States

variable [CommMonoid M] {n : Nat} {addresses : Fin n → Nat} {values : Fin n → M}

/-- A row with a value combined into its state. -/
def Row.update (value : M) (row : Row G M) : Row G M := { row with state := row.state * value }

@[simp] theorem Row.update_one : Row.update (1 : M) = (id : Row G M → Row G M) := by
  funext row
  rw [Row.update, mul_one]
  rfl

theorem updateStates_returns : ∀ {is : List (Fin n)} {memory : List (Row G M)}, (∀ i ∈ is, addresses i < memory.length) →
    (updateStates addresses values is memory).Returns fun memory' => memory'.length = memory.length ∧
      ∀ p, memory'[p]? = memory[p]?.map (Row.update (groupProd (is.map fun i => (addresses i, values i)) p))
  | [], memory, _ => returns_done ⟨rfl, by simp⟩
  | i :: is, memory, h => by
    have hi := h i mem_cons_self
    unfold updateStates
    rw [getElem?_eq_getElem hi]
    have hlt : ∀ i' ∈ is, addresses i' < (memory.set (addresses i) (memory[addresses i].update (values i))).length := by
      simpa using fun i' hi' => h i' (mem_cons_of_mem _ hi')
    refine (updateStates_returns hlt).mono ?_
    rintro memory' ⟨hlength, hmemory⟩
    refine ⟨by rw [hlength, length_set], fun p => ?_⟩
    rw [hmemory, getElem?_set, map_cons]
    by_cases hp : addresses i = p
    · subst hp
      rw [if_pos rfl, if_pos hi, getElem?_eq_getElem hi, groupProd_cons]
      simp [Row.update, mul_assoc]
    · rw [if_neg hp, groupProd_cons_of_ne hp]

/-- The values are combined into the states of the rows at the addresses, and nothing but the dictionary may be another. -/
structure Updated (t t' : HashTable G M) (addresses : Fin n → Nat) (values : Fin n → M) : Prop where
  same : t' = { t with memory := t'.memory, dictState := t'.dictState }
  length : t'.memory.length = t.memory.length
  memory : ∀ p, t'.memory[p]? =
    t.memory[p]?.map (Row.update (groupProd ((List.finRange n).map fun i => (addresses i, values i)) p))

theorem Updated.of_subsingleton [Subsingleton M] : Updated t t addresses values := by
  refine ⟨rfl, rfl, fun p => ?_⟩
  cases t.memory[p]? with
  | none => rfl
  | some row => rw [Option.map_some, Row.update, Subsingleton.elim (row.state * _) row.state]

theorem Updated.of_zero (hn : n = 0) : Updated t t addresses values := by
  subst hn
  exact ⟨rfl, rfl, fun p => by simp⟩

theorem updateAggregates_returns (haggregates : t.aggregatesEmpty = true → Subsingleton M)
    (haddresses : ∀ i, addresses i < t.memory.length) :
    (t.updateAggregates addresses values).Returns fun t' =>
      Updated t t' addresses values ∧ t'.dictState = t.dictState := by
  unfold updateAggregates
  split
  · rename_i hempty
    have := haggregates hempty
    exact returns_done ⟨Updated.of_subsingleton, rfl⟩
  · refine (updateStates_returns fun i _ => haddresses i).bind ?_
    rintro memory' ⟨hlength, hmemory⟩
    exact returns_done ⟨⟨rfl, hlength, hmemory⟩, rfl⟩

theorem Updated.entries (h : Updated t t' addresses values) : t'.entries = t.entries := by rw [h.same]

theorem Updated.held (h : Updated t t' addresses values) : t'.held = t.held := by
  rw [h.same]
  rfl

theorem Updated.parted (h : Updated t t' addresses values) (hp : t.Parted) : t'.Parted := by
  rw [h.same]
  exact { hp with }

theorem Updated.stands (h : Updated t t' addresses values) {e : Entry} {o : Option G} (hs : Stands hash t.memory e o) :
    Stands hash t'.memory e o := by
  cases e with
  | empty => exact hs
  | claimed salt => exact hs
  | full salt pointer =>
    obtain ⟨row, hrow, ho, hhash, hsalt⟩ := hs
    exact ⟨row.update _, by rw [h.memory, hrow]; rfl, ho, hhash, hsalt⟩

theorem Updated.indexed (h : Updated t t' addresses values) {bits : Nat} {owner : ProbeScheme.Owner G}
    (hi : Indexed hash bits t owner) : Indexed hash bits t' owner := by
  have hcapacity : t'.capacity = t.capacity := by rw [h.same]
  have hcount : t'.count = t.count := by rw [h.same]
  constructor
  · exact h.parted hi.parted
  · rw [hcapacity, hi.capacity]
  · intro s
    rw [h.entries]
    exact h.stands (hi.stands s)
  · exact hi.placed
  · rw [hcount, hi.count]
  · rw [hcount]
    exact hi.free

theorem Updated.holds (h : Updated t t' addresses values) {g : G} {pointer : Nat} (hr : t.Holds g pointer) :
    t'.Holds g pointer := by
  obtain ⟨hheld, row, hrow, hgroup⟩ := hr
  exact ⟨h.held ▸ hheld, row.update _, by rw [h.memory, hrow]; rfl, hgroup⟩

end States

theorem HashTable.Holds.lt {g : G} {pointer : Nat} (h : t.Holds g pointer) : pointer < t.memory.length := by
  obtain ⟨-, row, hrow, -⟩ := h
  exact (List.getElem?_eq_some_iff.1 hrow).1

/-- The inputs of a chunk: the group and the values of each row. -/
def chunkInputs {n : Nat} (group : Fin n → G) (payload : Fin n → M) : List (G × M) :=
  (List.finRange n).map fun i => (group i, payload i)

theorem mem_chunkInputs {n : Nat} {group : Fin n → G} {payload : Fin n → M} {g : G} :
    g ∈ (chunkInputs group payload).map Prod.fst ↔ ∃ i, group i = g := by
  simp [chunkInputs]

theorem Updated.contents [DecidableEq G] [CommMonoid M] {n : Nat} {addresses : Fin n → Nat} {values : Fin n → M}
    (h : Updated t t' addresses values) {group : Fin n → G} (hnodup : t.held.Nodup)
    (hheld : ∀ p ∈ t.held, p < t.memory.length) (haddresses : ∀ i, t.Holds (group i) (addresses i)) (g : G) :
    groupProd t'.contents g = groupProd t.contents g * groupProd (chunkInputs group values) g := by
  have hvalues : groupProd (chunkInputs group values) g = groupProd (t.held.map fun p => (t.memory[p]?.map Row.group,
      groupProd ((finRange n).map fun i => (addresses i, values i)) p)) (some g) := by
    rw [groupProd_collect hnodup fun i _ => (haddresses i).1]
    refine groupProd_map_congr fun i _ => ?_
    obtain ⟨-, row, hrow, hgroup⟩ := haddresses i
    rw [hrow, Option.map_some, Option.some.injEq, hgroup]
  rw [hvalues, HashTable.contents, HashTable.contents, groupProd_rowsAt, groupProd_rowsAt, ← groupProd_map_mul, h.held]
  congr 1
  refine map_congr_left fun p hp => ?_
  rw [h.memory, getElem?_eq_getElem (hheld p hp)]
  rfl

end Haybarn.Aggregate
