/-
Pools of slots: a slot in use has contents and a name, and the names handed out and not given back, each with its contents,
are the ones of the slots in use. What taking, giving back, moving, writing and joining do to such a list. Nothing here
names a particular allocator.
-/
import Mathlib.Data.List.Nodup
import Mathlib.Data.Set.Function

namespace Haybarn.Lib

open List

section Pool

variable {κ κ' π α : Type}

/-- The list has a name for every slot in use that is not retired, with the contents of the slot, and no name twice. -/
structure Held (name : κ → π) (valid : Set κ) (holds : κ → α → Prop) (retired : κ → Prop) (live : List (π × α)) : Prop where
  inValid : ∀ k x, holds k x → k ∈ valid
  nodup : (live.map (·.1)).Nodup
  slot : ∀ e ∈ live, ∃ k, name k = e.1 ∧ holds k e.2
  named : ∀ k x, holds k x → ¬ retired k → name k ∈ live.map (·.1)

namespace Held

variable {name : κ → π} {valid : Set κ} {holds holds' : κ → α → Prop} {retired retired' : κ → Prop} {live : List (π × α)}

theorem nil (name : κ → π) (valid : Set κ) (retired : κ → Prop) :
    Held name valid (fun _ (_ : α) => False) retired [] where
  inValid _ _ h := h.elim
  nodup := nodup_nil
  slot _ he := by cases he
  named _ _ h := h.elim

/-- What keeps the slots of the list, and puts no other slot into use. -/
theorem congr (h : Held name valid holds retired live)
    (hkeep : ∀ k x, holds k x → name k ∈ live.map (·.1) → holds' k x)
    (hsub : ∀ k x, holds' k x → holds k x ∧ (¬ retired' k → ¬ retired k)) : Held name valid holds' retired' live where
  inValid k x hk := h.inValid k x (hsub k x hk).1
  nodup := h.nodup
  slot e he := by
    obtain ⟨k, hname, hk⟩ := h.slot e he
    exact ⟨k, hname, hkeep k _ hk (hname ▸ mem_map_of_mem he)⟩
  named k x hk hr := h.named k x (hsub k x hk).1 ((hsub k x hk).2 hr)

theorem name_not_mem (h : Held name valid holds retired live) (hname : Set.InjOn name valid) {k : κ} (hk : k ∈ valid)
    (hfree : ∀ x, ¬ holds k x) : name k ∉ live.map (·.1) := by
  intro hmem
  obtain ⟨e, he, heq⟩ := mem_map.1 hmem
  obtain ⟨k', hk', hholds⟩ := h.slot e he
  obtain rfl : k' = k := hname (h.inValid _ _ hholds) hk (hk'.trans heq)
  exact hfree _ hholds

/-- A slot that is not in use is taken. -/
theorem take (h : Held name valid holds retired live) (hname : Set.InjOn name valid) {k : κ} {x : α} (hk : k ∈ valid)
    (hfree : ∀ y, ¬ holds k y) (hholds : ∀ k' y, holds' k' y ↔ holds k' y ∨ k' = k ∧ y = x) :
    Held name valid holds' retired ((name k, x) :: live) where
  inValid k' y hk' := by
    rcases (hholds k' y).1 hk' with h' | ⟨rfl, -⟩
    · exact h.inValid _ _ h'
    · exact hk
  nodup := by
    rw [map_cons, nodup_cons]
    exact ⟨h.name_not_mem hname hk hfree, h.nodup⟩
  slot e he := by
    rcases mem_cons.1 he with rfl | he
    · exact ⟨k, rfl, (hholds k x).2 (.inr ⟨rfl, rfl⟩)⟩
    · obtain ⟨k', hk', h'⟩ := h.slot e he
      exact ⟨k', hk', (hholds _ _).2 (.inl h')⟩
  named k' y hk' hr := by
    rw [map_cons, mem_cons]
    rcases (hholds k' y).1 hk' with h' | ⟨rfl, -⟩
    · exact .inr (h.named _ _ h' hr)
    · exact .inl rfl

/-- A slot is given back. -/
theorem release [DecidableEq π] (h : Held name valid holds retired live) (hname : Set.InjOn name valid) {k : κ}
    (hk : k ∈ valid) (hholds : ∀ k' y, holds' k' y ↔ holds k' y ∧ k' ≠ k) :
    Held name valid holds' retired (live.filter (·.1 ≠ name k)) where
  inValid k' y hk' := h.inValid k' y ((hholds k' y).1 hk').1
  nodup := h.nodup.sublist (filter_sublist.map _)
  slot e he := by
    rw [mem_filter] at he
    obtain ⟨k', hk', h'⟩ := h.slot e he.1
    refine ⟨k', hk', (hholds _ _).2 ⟨h', ?_⟩⟩
    rintro rfl
    simp [hk'] at he
  named k' y hk' hr := by
    obtain ⟨h', hne⟩ := (hholds k' y).1 hk'
    obtain ⟨e, he, heq⟩ := mem_map.1 (h.named k' y h' hr)
    refine mem_map.2 ⟨e, mem_filter.2 ⟨he, ?_⟩, heq⟩
    rw [decide_eq_true_eq, heq]
    exact fun hcontra => hne (hname (h.inValid _ _ h') hk hcontra)

/-- A name that is given back leaves one name less. -/
theorem length_release [DecidableEq π] (h : Held name valid holds retired live) {p : π} (hp : p ∈ live.map (·.1)) :
    (live.filter (·.1 ≠ p)).length = live.length - 1 := by
  have herase := h.nodup.erase_eq_filter p
  have hlen := length_erase_of_mem hp
  rw [herase, length_map, filter_map, length_map] at hlen
  rw [← hlen]
  congr 1
  apply filter_congr
  intro e _
  by_cases heq : e.1 = p <;> simp [heq]

/-- The contents of a slot of the list are replaced. -/
theorem write [DecidableEq π] (h : Held name valid holds retired live) (hname : Set.InjOn name valid) {k : κ} {x : α}
    (hk : k ∈ valid) (hholds : ∀ k' y, holds' k' y ↔ holds k' y ∧ k' ≠ k ∨ (∃ z, holds k z) ∧ k' = k ∧ y = x) :
    Held name valid holds' retired (live.map fun e => if e.1 = name k then (e.1, x) else e) := by
  have hfst : (live.map fun e => if e.1 = name k then (e.1, x) else e).map (·.1) = live.map (·.1) := by
    rw [map_map]
    refine map_congr_left fun e _ => ?_
    dsimp only [Function.comp]
    split <;> rfl
  refine ⟨fun k' y hk' => ?_, hfst ▸ h.nodup, fun e he => ?_, fun k' y hk' hr => ?_⟩
  · rcases (hholds k' y).1 hk' with ⟨h', -⟩ | ⟨-, rfl, -⟩
    · exact h.inValid _ _ h'
    · exact hk
  · obtain ⟨e, hmem, rfl⟩ := mem_map.1 he
    obtain ⟨k', hk', h'⟩ := h.slot e hmem
    by_cases heq : e.1 = name k
    · obtain rfl : k' = k := hname (h.inValid _ _ h') hk (hk'.trans heq)
      rw [if_pos heq]
      exact ⟨k', hk', (hholds _ _).2 (.inr ⟨⟨_, h'⟩, rfl, rfl⟩)⟩
    · rw [if_neg heq]
      refine ⟨k', hk', (hholds _ _).2 (.inl ⟨h', ?_⟩)⟩
      rintro rfl
      exact heq hk'.symm
  · rw [hfst]
    rcases (hholds k' y).1 hk' with ⟨h', -⟩ | ⟨⟨z, hz⟩, rfl, -⟩
    · exact h.named _ _ h' hr
    · exact h.named _ _ hz hr

/-- The contents of a retired slot of the list go to a slot that is not in use. -/
theorem move [DecidableEq π] (h : Held name valid holds retired live) (hname : Set.InjOn name valid) {k k' : κ} {x : α}
    (hk : k ∈ valid) (hk' : k' ∈ valid) (hx : (name k, x) ∈ live) (hretired : retired k) (hfree : ∀ y, ¬ holds k' y)
    (hholds : ∀ j y, holds' j y ↔ holds j y ∨ j = k' ∧ y = x) :
    Held name valid holds' retired (live.map fun e => if e.1 = name k then (name k', e.2) else e) := by
  have hnew := h.name_not_mem hname hk' hfree
  have hmem : ∀ p, p ∈ (live.map fun e => if e.1 = name k then (name k', e.2) else e).map (·.1)
      ↔ p = name k' ∨ p ∈ live.map (·.1) ∧ p ≠ name k := by
    intro p
    rw [map_map, mem_map]
    constructor
    · rintro ⟨e, he, rfl⟩
      dsimp only [Function.comp]
      split
      next heq => exact .inl rfl
      next heq => exact .inr ⟨mem_map_of_mem he, heq⟩
    · rintro (rfl | ⟨hp, hne⟩)
      · exact ⟨_, hx, by simp⟩
      · obtain ⟨e, he, rfl⟩ := mem_map.1 hp
        exact ⟨e, he, by simp [hne]⟩
  refine ⟨fun j y hj => ?_, ?_, fun e he => ?_, fun j y hj hr => ?_⟩
  · rcases (hholds j y).1 hj with h' | ⟨rfl, -⟩
    · exact h.inValid _ _ h'
    · exact hk'
  · rw [map_map]
    refine List.Nodup.map_on ?_ (List.Nodup.of_map _ h.nodup)
    intro e he f hf heq
    have hinj : e.1 = f.1 → e = f := fun h' => inj_on_of_nodup_map h.nodup he hf h'
    have hne := fun (g : π × α) (hg : g ∈ live) (hgk : name k' = g.1) => hnew (hgk ▸ mem_map_of_mem hg)
    dsimp only [Function.comp] at heq
    split at heq <;> split at heq
    · next h₁ h₂ => exact hinj (h₁.trans h₂.symm)
    · exact absurd heq (hne f hf)
    · exact absurd heq.symm (hne e he)
    · exact hinj heq
  · obtain ⟨e, hlive, rfl⟩ := mem_map.1 he
    obtain ⟨j, hj, h'⟩ := h.slot e hlive
    by_cases heq : e.1 = name k
    · have hsame : e = (name k, x) := inj_on_of_nodup_map h.nodup hlive hx heq
      rw [if_pos heq, hsame]
      exact ⟨k', rfl, (hholds _ _).2 (.inr ⟨rfl, rfl⟩)⟩
    · rw [if_neg heq]
      exact ⟨j, hj, (hholds _ _).2 (.inl h')⟩
  · rw [hmem]
    rcases (hholds j y).1 hj with h' | ⟨rfl, -⟩
    · refine .inr ⟨h.named _ _ h' hr, fun hcontra => hr ?_⟩
      rwa [hname (h.inValid _ _ h') hk hcontra]
    · exact .inl rfl

/-- Two pools with different slots are joined, the names of the second ones being shifted. -/
theorem join {holds₂ : κ → α → Prop} {live₂ : List (π × α)} (h : Held name valid holds retired live)
    (h₂ : Held name valid holds₂ retired live₂) (hname : Set.InjOn name valid) (shift : κ → κ) (rename : π → π)
    (hshift : ∀ k x, holds₂ k x → shift k ∈ valid) (hinj : Function.Injective shift)
    (hrename : ∀ k x, holds₂ k x → rename (name k) = name (shift k)) (hretired : ∀ k, ¬ retired k)
    (hdisjoint : ∀ k x y, holds₂ k x → ¬ holds (shift k) y)
    (hholds : ∀ k x, holds' k x ↔ holds k x ∨ ∃ k₂, k = shift k₂ ∧ holds₂ k₂ x) :
    Held name valid holds' retired (live ++ live₂.map fun e => (rename e.1, e.2)) := by
  have hfst : (live ++ live₂.map fun e => (rename e.1, e.2)).map (·.1) = live.map (·.1) ++ (live₂.map (·.1)).map rename := by
    simp
  refine ⟨fun k x hk => ?_, ?_, fun e he => ?_, fun k x hk _ => ?_⟩
  · rcases (hholds k x).1 hk with h' | ⟨k₂, rfl, h'⟩
    · exact h.inValid _ _ h'
    · exact hshift _ _ h'
  · rw [hfst, nodup_append']
    refine ⟨h.nodup, h₂.nodup.map_on fun p hp q hq heq => ?_, fun p hp hq => ?_⟩
    · obtain ⟨e, he, rfl⟩ := mem_map.1 hp
      obtain ⟨f, hf, rfl⟩ := mem_map.1 hq
      obtain ⟨j, hj, hholdsj⟩ := h₂.slot e he
      obtain ⟨k, hk, hholdsk⟩ := h₂.slot f hf
      rw [← hj, ← hk, hrename _ _ hholdsj, hrename _ _ hholdsk] at heq
      rw [← hj, ← hk, hinj (hname (hshift _ _ hholdsj) (hshift _ _ hholdsk) heq)]
    · obtain ⟨e, he, rfl⟩ := mem_map.1 hp
      obtain ⟨q, hq, heq⟩ := mem_map.1 hq
      obtain ⟨f, hf, rfl⟩ := mem_map.1 hq
      obtain ⟨j, hj, hholdsj⟩ := h.slot e he
      obtain ⟨k, hk, hholdsk⟩ := h₂.slot f hf
      rw [← hj, ← hk, hrename _ _ hholdsk] at heq
      have hsame := hname (hshift _ _ hholdsk) (h.inValid _ _ hholdsj) heq
      exact hdisjoint k _ _ hholdsk (hsame ▸ hholdsj)
  · rcases mem_append.1 he with he | he
    · obtain ⟨k, hk, h'⟩ := h.slot e he
      exact ⟨k, hk, (hholds _ _).2 (.inl h')⟩
    · obtain ⟨f, hf, rfl⟩ := mem_map.1 he
      obtain ⟨k, hk, h'⟩ := h₂.slot f hf
      exact ⟨shift k, by rw [← hk, hrename _ _ h'], (hholds _ _).2 (.inr ⟨k, rfl, h'⟩)⟩
  · rw [hfst, mem_append]
    rcases (hholds k x).1 hk with h' | ⟨k₂, rfl, h'⟩
    · exact .inl (h.named _ _ h' (hretired _))
    · exact .inr (mem_map.2 ⟨_, h₂.named _ _ h' (hretired _), hrename _ _ h'⟩)

end Held

end Pool

end Haybarn.Lib
