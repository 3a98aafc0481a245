/-
Association lists with strictly increasing keys, read through `List.lookup`: what an entry, a part of
the list below a key, and a write loop mean for the lookups. Nothing here names a particular system.
-/
import Mathlib.Data.List.Pairwise
import Mathlib.Data.List.TakeWhile
import Mathlib.Order.Defs.LinearOrder
import Mathlib.Logic.Function.Basic
import Mathlib.Order.Lattice

namespace Haybarn.Lib

open List

variable {κ α : Type}

/-! ## Lookups -/

theorem findSome?_congr {β : Type} {f g : β → Option α} : ∀ {l : List β}, (∀ x ∈ l, f x = g x) →
    l.findSome? f = l.findSome? g
  | [], _ => rfl
  | x :: l, h => by
    rw [findSome?_cons, findSome?_cons, h x (mem_cons_self ..),
      findSome?_congr fun y hy => h y (mem_cons_of_mem _ hy)]

/-- Elements without a result can be left out. -/
theorem findSome?_filter {β : Type} {f : β → Option α} {p : β → Bool} : ∀ {l : List β},
    (∀ x ∈ l, p x = false → f x = none) → (l.filter p).findSome? f = l.findSome? f
  | [], _ => rfl
  | x :: l, h => by
    have ih := findSome?_filter (p := p) fun y hy => h y (mem_cons_of_mem _ hy)
    rw [filter_cons]
    split
    · rw [findSome?_cons, findSome?_cons, ih]
    · next hp =>
      rw [findSome?_cons, h x (mem_cons_self ..) (by simpa using hp)]
      exact ih

section Lookup

variable [BEq κ] [LawfulBEq κ]

theorem lookup_cons_eq [DecidableEq κ] (k : κ) (e : κ × α) (l : List (κ × α)) :
    (e :: l).lookup k = if e.1 = k then some e.2 else l.lookup k := by
  rw [lookup_cons]
  by_cases h : e.1 = k
  · rw [if_pos h, h, beq_self_eq_true]
  · rw [if_neg h, beq_eq_false_iff_ne.2 (Ne.symm h)]

variable {l : List (κ × α)}

theorem lookup_eq_none_of_ne {k : κ} (h : ∀ e ∈ l, e.1 ≠ k) : l.lookup k = none := by
  rw [lookup_eq_none_iff]
  intro e he
  simpa using (h e he).symm

theorem mem_of_lookup {k : κ} {v : α} (h : l.lookup k = some v) : (k, v) ∈ l := by
  obtain ⟨l₁, l₂, rfl, -⟩ := lookup_eq_some_iff.1 h
  simp

theorem lookup_isSome_iff_mem {k : κ} : (l.lookup k).isSome ↔ k ∈ l.map (·.1) := by
  rw [lookup_isSome_iff, mem_map]
  constructor
  · rintro ⟨e, he, hk⟩
    exact ⟨e, he, (eq_of_beq hk).symm⟩
  · rintro ⟨e, he, rfl⟩
    exact ⟨e, he, beq_self_eq_true _⟩

end Lookup

/-! ## Increasing keys -/

section Order

variable [LinearOrder κ]

/-- The keys increase strictly. -/
def Increasing (l : List (κ × α)) : Prop := l.Pairwise (·.1 < ·.1)

variable {l : List (κ × α)}

theorem increasing_cons {e : κ × α} :
    Increasing (e :: l) ↔ (∀ e' ∈ l, e.1 < e'.1) ∧ Increasing l := pairwise_cons

theorem Increasing.dropWhile (h : Increasing l) (p : κ × α → Bool) : Increasing (l.dropWhile p) :=
  h.sublist (dropWhile_sublist p)

theorem lt_of_mem_takeWhile {id : κ} {e : κ × α} (h : e ∈ l.takeWhile (·.1 < id)) : e.1 < id := by
  simpa using mem_takeWhile_imp h

/-- The entries from the key on are those that are not below it. -/
theorem Increasing.le_of_mem_dropWhile : ∀ {l : List (κ × α)}, Increasing l → ∀ {id : κ} {e : κ × α},
    e ∈ l.dropWhile (·.1 < id) → id ≤ e.1
  | [], _, _, _, he => absurd he not_mem_nil
  | a :: l, h, id, e, he => by
    obtain ⟨hlt, hl⟩ := increasing_cons.1 h
    rw [dropWhile_cons] at he
    split at he
    · exact hl.le_of_mem_dropWhile he
    · next hge =>
      have hge : id ≤ a.1 := by simpa using hge
      rcases mem_cons.1 he with rfl | he
      · exact hge
      · exact hge.trans (hlt e he).le

theorem foldl_update_of_ne {k : κ} : ∀ {l : List (κ × α)} (f : κ → α), (∀ e ∈ l, e.1 ≠ k) →
    l.foldl (fun f e => Function.update f e.1 e.2) f k = f k
  | [], _, _ => rfl
  | e :: l, f, h => by
    rw [foldl_cons, foldl_update_of_ne _ fun e' he' => h e' (mem_cons_of_mem _ he'),
      Function.update_of_ne (h e (mem_cons_self ..)).symm]

end Order

/-! ## Lookups of increasing keys -/

section Sorted

variable [LinearOrder κ] [BEq κ] [LawfulBEq κ]

theorem lookup_eq_none_of_lt {l : List (κ × α)} {k : κ} (h : ∀ e ∈ l, k < e.1) : l.lookup k = none :=
  lookup_eq_none_of_ne fun e he => (h e he).ne'

theorem Increasing.lookup_of_mem : ∀ {l : List (κ × α)}, Increasing l → ∀ {e : κ × α}, e ∈ l → l.lookup e.1 = some e.2
  | [], _, _, he => absurd he not_mem_nil
  | a :: l, h, e, he => by
    obtain ⟨hlt, hl⟩ := increasing_cons.1 h
    rw [lookup_cons_eq]
    rcases mem_cons.1 he with rfl | he
    · rw [if_pos rfl]
    · rw [if_neg (hlt e he).ne]
      exact hl.lookup_of_mem he

/-- A key from the bound on is looked up in the rest. -/
theorem lookup_dropWhile : ∀ (l : List (κ × α)) {id k : κ}, id ≤ k → (l.dropWhile (·.1 < id)).lookup k = l.lookup k
  | [], _, _, _ => rfl
  | a :: l, id, k, hk => by
    rw [dropWhile_cons]
    split
    · next hlt =>
      have hlt : a.1 < id := by simpa using hlt
      rw [lookup_dropWhile l hk, lookup_cons_eq, if_neg (hlt.trans_le hk).ne]
    · rfl

/-- A loop that writes entries with increasing keys leaves the looked up values. -/
theorem Increasing.foldl_update {k : κ} : ∀ {l : List (κ × α)}, Increasing l → ∀ (f : κ → α),
    l.foldl (fun f e => Function.update f e.1 e.2) f k = (l.lookup k).getD (f k)
  | [], _, _ => rfl
  | e :: l, h, f => by
    obtain ⟨hlt, hl⟩ := increasing_cons.1 h
    rw [foldl_cons, lookup_cons_eq]
    by_cases hk : e.1 = k
    · subst hk
      rw [if_pos rfl, foldl_update_of_ne _ fun e' he' => (hlt e' he').ne', Function.update_self]
      rfl
    · rw [if_neg hk, hl.foldl_update, Function.update_of_ne (Ne.symm hk)]

end Sorted

/-! ## Inserting and changing -/

section Insert

variable [LinearOrder κ]

/-- An entry with a new key, in its place. -/
def insertKey (k : κ) (v : α) : List (κ × α) → List (κ × α)
  | [] => [(k, v)]
  | e :: l => if k < e.1 then (k, v) :: e :: l else e :: insertKey k v l

/-- The entry of a key is changed. -/
def modifyKey (k : κ) (f : α → α) (l : List (κ × α)) : List (κ × α) :=
  l.map fun e => if e.1 = k then (e.1, f e.2) else e

theorem mem_insertKey {k : κ} {v : α} {e : κ × α} : ∀ {l : List (κ × α)}, e ∈ insertKey k v l ↔ e = (k, v) ∨ e ∈ l
  | [] => by simp [insertKey]
  | a :: l => by
    unfold insertKey
    split
    · simp
    · rw [mem_cons, mem_insertKey, mem_cons, or_left_comm]

theorem perm_insertKey {k : κ} {v : α} : ∀ {l : List (κ × α)}, (insertKey k v l).Perm ((k, v) :: l)
  | [] => .refl _
  | e :: l => by
    unfold insertKey
    split
    · exact .refl _
    · exact (perm_insertKey.cons e).trans (.swap _ _ _)

theorem Increasing.insertKey {k : κ} {v : α} : ∀ {l : List (κ × α)}, Increasing l → (∀ e ∈ l, e.1 ≠ k) →
    Increasing (insertKey k v l)
  | [], _, _ => pairwise_singleton _ _
  | a :: l, h, hk => by
    obtain ⟨hlt, hl⟩ := increasing_cons.1 h
    unfold Lib.insertKey
    split
    · next hka =>
      refine increasing_cons.2 ⟨fun e he => ?_, h⟩
      rcases mem_cons.1 he with rfl | he
      · exact hka
      · exact hka.trans (hlt e he)
    · next hka =>
      refine increasing_cons.2 ⟨fun e he => ?_, hl.insertKey fun e he => hk e (mem_cons_of_mem _ he)⟩
      rcases mem_insertKey.1 he with rfl | he
      · exact lt_of_le_of_ne (not_lt.1 hka) (hk a mem_cons_self)
      · exact hlt e he

theorem Increasing.modifyKey {k : κ} {f : α → α} {l : List (κ × α)} (h : Increasing l) : Increasing (modifyKey k f l) := by
  unfold Lib.modifyKey Increasing
  rw [pairwise_map]
  refine h.imp fun {a b} hab => ?_
  split <;> split <;> exact hab

variable [BEq κ] [LawfulBEq κ]

theorem lookup_insertKey {k k' : κ} {v : α} : ∀ {l : List (κ × α)}, (∀ e ∈ l, e.1 ≠ k) →
    (insertKey k v l).lookup k' = if k = k' then some v else l.lookup k'
  | [], _ => by
    rw [insertKey, lookup_cons_eq]
  | a :: l, hk => by
    unfold insertKey
    split
    · rw [lookup_cons_eq]
    · rw [lookup_cons_eq, lookup_insertKey fun e he => hk e (mem_cons_of_mem _ he), lookup_cons_eq]
      by_cases hak : a.1 = k'
      · rw [if_pos hak, if_pos hak, if_neg fun h => hk a mem_cons_self (hak.trans h.symm)]
      · rw [if_neg hak, if_neg hak]

theorem lookup_modifyKey {k k' : κ} {f : α → α} : ∀ {l : List (κ × α)},
    (modifyKey k f l).lookup k' = (l.lookup k').map (if k = k' then f else id)
  | [] => rfl
  | a :: l => by
    have ih : (modifyKey k f l).lookup k' = (l.lookup k').map (if k = k' then f else id) := lookup_modifyKey
    have hcons : modifyKey k f (a :: l) = (if a.1 = k then (a.1, f a.2) else a) :: modifyKey k f l := rfl
    have hkey : (if a.1 = k then (a.1, f a.2) else a).1 = a.1 := by split <;> rfl
    rw [hcons, lookup_cons_eq, hkey, ih, lookup_cons_eq]
    by_cases hak : a.1 = k'
    · rw [if_pos hak, if_pos hak, Option.map_some]
      by_cases hk : a.1 = k
      · rw [if_pos hk, if_pos (hk.symm.trans hak)]
      · rw [if_neg hk, if_neg fun h => hk (hak.trans h.symm)]
        rfl
    · rw [if_neg hak, if_neg hak]

/-- Lists with increasing keys are the same when they are looked up the same. -/
theorem Increasing.ext : ∀ {l l' : List (κ × α)}, Increasing l → Increasing l' → (∀ k, l.lookup k = l'.lookup k) → l = l'
  | [], [], _, _, _ => rfl
  | [], b :: l', _, _, h => by
    have hb := h b.1
    rw [lookup_cons_eq, if_pos rfl] at hb
    cases hb
  | a :: l, [], _, _, h => by
    have ha := h a.1
    rw [lookup_cons_eq, if_pos rfl] at ha
    cases ha
  | a :: l, b :: l', hl, hl', h => by
    obtain ⟨hlt, hl⟩ := increasing_cons.1 hl
    obtain ⟨hlt', hl'⟩ := increasing_cons.1 hl'
    have hsome : ∀ {c d : κ × α} {m : List (κ × α)}, (∀ e ∈ m, c.1 < e.1) → d.1 < c.1 → (c :: m).lookup d.1 = none := by
      intro c d m hm hdc
      rw [lookup_cons_eq, if_neg hdc.ne', lookup_eq_none_of_lt fun e he => hdc.trans (hm e he)]
    have hkey : a.1 = b.1 := by
      rcases lt_trichotomy a.1 b.1 with hab | hab | hab
      · have ha := h a.1
        rw [hsome hlt' hab, lookup_cons_eq, if_pos rfl] at ha
        cases ha
      · exact hab
      · have hb := h b.1
        rw [hsome hlt hab, lookup_cons_eq, if_pos rfl] at hb
        cases hb
    have hval : a.2 = b.2 := by
      have ha := h a.1
      rw [lookup_cons_eq, if_pos rfl, lookup_cons_eq, if_pos hkey.symm] at ha
      exact Option.some.inj ha
    have hrest : l = l' := by
      refine hl.ext hl' fun k => ?_
      have hk := h k
      rw [lookup_cons_eq, lookup_cons_eq] at hk
      by_cases hak : a.1 = k
      · rw [lookup_eq_none_of_lt (by rw [← hak]; exact hlt), lookup_eq_none_of_lt (by rw [← hak, hkey]; exact hlt')]
      · rwa [if_neg hak, if_neg fun hb => hak (hkey.trans hb)] at hk
    rw [hrest, Prod.ext hkey hval]

end Insert

end Haybarn.Lib
