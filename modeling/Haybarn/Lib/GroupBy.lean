/-
Grouping values by keys. The values of a key in a list are combined in a commutative monoid, and a table is grouped when
it has one pair for each key of its inputs, with the combination of the values of the key: there is one such table up to
order. Nothing here names a particular program.
-/
import Mathlib.Algebra.BigOperators.Group.List.Basic
import Mathlib.Data.Finset.Card
import Mathlib.Data.List.Nodup

namespace Haybarn.Lib

open List Prod

variable {κ M : Type} [DecidableEq κ] [CommMonoid M]

/-- The combination of the values of the key. -/
def groupProd (inputs : List (κ × M)) (k : κ) : M := ((inputs.filter fun x => x.1 = k).map Prod.snd).prod

variable {inputs inputs' table table' : List (κ × M)} {k : κ} {m : M}

@[simp] theorem groupProd_nil : groupProd ([] : List (κ × M)) k = 1 := rfl

theorem groupProd_cons : groupProd ((k, m) :: inputs) k = m * groupProd inputs k := by simp [groupProd]

theorem groupProd_cons_of_ne {k' : κ} (h : k' ≠ k) : groupProd ((k', m) :: inputs) k = groupProd inputs k := by
  simp [groupProd, h]

@[simp] theorem groupProd_append : groupProd (inputs ++ inputs') k = groupProd inputs k * groupProd inputs' k := by
  simp [groupProd]

theorem groupProd_perm (h : inputs.Perm inputs') : groupProd inputs k = groupProd inputs' k :=
  ((h.filter _).map _).prod_eq

/-- A key without values. -/
theorem groupProd_of_not_mem (h : k ∉ inputs.map fst) : groupProd inputs k = 1 := by
  unfold groupProd
  rw [filter_eq_nil_iff.2]
  · rfl
  · intro x hx
    simp only [decide_eq_true_eq]
    rintro rfl
    exact h (mem_map_of_mem hx)

/-- The same values of a key, under other keys. -/
theorem groupProd_map_congr {ι κ' : Type} [DecidableEq κ'] {l : List ι} {f : ι → κ} {f' : ι → κ'} {v : ι → M} {k' : κ'}
    (h : ∀ i ∈ l, f i = k ↔ f' i = k') :
    groupProd (l.map fun i => (f i, v i)) k = groupProd (l.map fun i => (f' i, v i)) k' := by
  induction l with
  | nil => rfl
  | cons i l ih =>
    rw [map_cons, map_cons]
    have ih := ih fun i hi => h i (mem_cons_of_mem _ hi)
    have hi := h i mem_cons_self
    by_cases hk : f i = k
    · rw [hk, hi.1 hk, groupProd_cons, groupProd_cons, ih]
    · rw [groupProd_cons_of_ne hk, groupProd_cons_of_ne (mt hi.2 hk), ih]

section Map

variable {ι : Type}

theorem groupProd_map_one {l : List ι} {f : ι → κ} : groupProd (l.map fun i => (f i, (1 : M))) k = 1 := by
  induction l with
  | nil => rfl
  | cons i l ih =>
    rw [map_cons]
    by_cases hk : f i = k
    · rw [hk, groupProd_cons, ih, one_mul]
    · rw [groupProd_cons_of_ne hk, ih]

theorem groupProd_map_mul {l : List ι} {f : ι → κ} {v v' : ι → M} :
    groupProd (l.map fun i => (f i, v i * v' i)) k =
      groupProd (l.map fun i => (f i, v i)) k * groupProd (l.map fun i => (f i, v' i)) k := by
  induction l with
  | nil => simp
  | cons i l ih =>
    rw [map_cons, map_cons, map_cons]
    by_cases hk : f i = k
    · rw [hk, groupProd_cons, groupProd_cons, groupProd_cons, ih]
      exact mul_mul_mul_comm _ _ _ _
    · rw [groupProd_cons_of_ne hk, groupProd_cons_of_ne hk, groupProd_cons_of_ne hk, ih]

/-- A value at one of the places. -/
theorem groupProd_map_single {l : List ι} [DecidableEq ι] (hnodup : l.Nodup) {f : ι → κ} {i : ι} (hi : i ∈ l) {m : M} :
    groupProd (l.map fun j => (f j, if i = j then m else 1)) k = if f i = k then m else 1 := by
  induction l with
  | nil => cases hi
  | cons j l ih =>
    rw [nodup_cons] at hnodup
    rw [map_cons]
    by_cases hij : i = j
    · subst hij
      have hrest : (l.map fun j => (f j, if i = j then m else 1)) = l.map fun j => (f j, 1) := by
        refine map_congr_left fun j hj => ?_
        rw [if_neg]
        rintro rfl
        exact hnodup.1 hj
      rw [hrest]
      by_cases hk : f i = k
      · rw [hk, groupProd_cons, groupProd_map_one, if_pos rfl, if_pos rfl, mul_one]
      · rw [groupProd_cons_of_ne hk, groupProd_map_one, if_neg hk]
    · rw [if_neg hij]
      have hrest := ih hnodup.2 ((mem_cons.1 hi).resolve_left hij)
      by_cases hk : f j = k
      · rw [hk, groupProd_cons, one_mul, hrest]
      · rw [groupProd_cons_of_ne hk, hrest]

/-- Values that are collected at places, each of them the place of a key, are the values of the keys. -/
theorem groupProd_collect {κ' : Type} [DecidableEq κ'] {places : List κ'} (hnodup : places.Nodup) {key : κ' → κ}
    {l : List ι} {f : ι → κ'} {v : ι → M} (hmem : ∀ i ∈ l, f i ∈ places) :
    groupProd (places.map fun p => (key p, groupProd (l.map fun i => (f i, v i)) p)) k =
      groupProd (l.map fun i => (key (f i), v i)) k := by
  induction l with
  | nil => simp [groupProd_map_one]
  | cons i l ih =>
    have hsplit : ∀ p, groupProd ((i :: l).map fun i => (f i, v i)) p =
        (if f i = p then v i else 1) * groupProd (l.map fun i => (f i, v i)) p := by
      intro p
      rw [map_cons]
      split
      · rename_i hp
        rw [hp, groupProd_cons]
      · rename_i hp
        rw [groupProd_cons_of_ne hp, one_mul]
    simp only [hsplit]
    rw [groupProd_map_mul, groupProd_map_single hnodup (hmem i mem_cons_self),
      ih fun j hj => hmem j (mem_cons_of_mem _ hj), map_cons]
    split
    · rename_i hk
      rw [hk, groupProd_cons]
    · rename_i hk
      rw [groupProd_cons_of_ne hk, one_mul]

end Map

/-- A key with one value. -/
theorem groupProd_of_mem (hnodup : (inputs.map fst).Nodup) (h : (k, m) ∈ inputs) : groupProd inputs k = m := by
  induction inputs with
  | nil => cases h
  | cons x inputs ih =>
    obtain ⟨k', m'⟩ := x
    rw [map_cons, nodup_cons] at hnodup
    rcases mem_cons.1 h with heq | h
    · cases heq
      rw [groupProd_cons, groupProd_of_not_mem hnodup.1, mul_one]
    · have hne : k' ≠ k := by
        rintro rfl
        exact hnodup.1 (mem_map.2 ⟨_, h, rfl⟩)
      rw [groupProd_cons_of_ne hne, ih hnodup.2 h]

/-- The table has one pair for each key of the inputs, with the combination of the values of the key. -/
structure Grouped (table inputs : List (κ × M)) : Prop where
  nodup : (table.map Prod.fst).Nodup
  keys : ∀ k, k ∈ table.map Prod.fst ↔ k ∈ inputs.map Prod.fst
  values : ∀ k m, (k, m) ∈ table → m = groupProd inputs k

theorem Grouped.mem_iff (h : Grouped table inputs) {x : κ × M} :
    x ∈ table ↔ x.1 ∈ inputs.map fst ∧ x.2 = groupProd inputs x.1 := by
  constructor
  · intro hx
    exact ⟨(h.keys _).1 (mem_map_of_mem hx), h.values _ _ hx⟩
  · rintro ⟨hk, hm⟩
    obtain ⟨⟨k, m⟩, hx, hkx⟩ := mem_map.1 ((h.keys _).2 hk)
    have hk' : k = x.1 := hkx
    have hm' : m = x.2 := by rw [h.values k m hx, hk', hm]
    rwa [hk', hm'] at hx

/-- There is one such table, up to order. -/
theorem Grouped.perm (h : Grouped table inputs) (h' : Grouped table' inputs) : table.Perm table' := by
  refine (perm_ext_iff_of_nodup (List.Nodup.of_map _ h.nodup) (List.Nodup.of_map _ h'.nodup)).2 fun x => ?_
  rw [h.mem_iff, h'.mem_iff]

/-- How many keys of the inputs are not among those that have been seen. -/
def newKeys (seen inputs : List (κ × M)) : Nat :=
  ((inputs.map Prod.fst).toFinset \ (seen.map Prod.fst).toFinset).card

omit [CommMonoid M] in
theorem newKeys_eq {seen : List (κ × M)} {n : Nat} (h : ((seen ++ inputs).map fst).toFinset.card =
    (seen.map fst).toFinset.card + n) : n = newKeys seen inputs := by
  rw [map_append, toFinset_append, Finset.union_comm, ← Finset.card_sdiff_add_card] at h
  unfold newKeys
  omega

theorem Grouped.length (h : Grouped table inputs) : table.length = (inputs.map fst).toFinset.card := by
  rw [← length_map (f := fst), ← toFinset_card_of_nodup h.nodup]
  congr 1
  ext k
  rw [mem_toFinset, mem_toFinset, h.keys]

end Haybarn.Lib
