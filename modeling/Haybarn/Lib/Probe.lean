/-
Open addressing. A key has a path through the slots of a table, which meets every slot once. A table is placed when every
key stands on its path with no free slot before it, and then a search that follows the path of a key meets it before a
free slot. Paths of an odd stride modulo a power of two meet every slot. Nothing here names a particular table.
-/
import Mathlib.Data.Finset.Card
import Mathlib.Data.Nat.ModEq
import Mathlib.Data.Nat.Prime.Basic
import Mathlib.Algebra.Order.Ring.Nat
import Mathlib.Tactic.Ring

namespace Haybarn.Lib

open Finset

/-! ## Paths -/

/-- The paths of keys through the slots of a table: each takes a slot once in as many steps as there are slots. -/
structure ProbeScheme (κ : Type) where
  capacity : Nat
  path : κ → Nat → Nat
  path_lt : ∀ k j, path k j < capacity
  path_inj : ∀ k i j, i < capacity → j < capacity → path k i = path k j → i = j

namespace ProbeScheme

variable {κ : Type} (S : ProbeScheme κ)

/-- The slots of the first steps of a path. -/
def slots (k : κ) (j : Nat) : Finset Nat := (Finset.range j).image (S.path k)

theorem card_slots (k : κ) {j : Nat} (hj : j ≤ S.capacity) : (S.slots k j).card = j := by
  unfold slots
  rw [card_image_of_injOn, card_range]
  intro a ha b hb hab
  simp only [coe_range, Set.mem_Iio] at ha hb
  exact S.path_inj k a b (by omega) (by omega) hab

/-! ## Tables -/

/-- Which key stands in which slot. -/
abbrev Owner (κ : Type) := Nat → Option κ

/-- The slots that are taken. -/
def taken (owner : Owner κ) : Finset Nat := (Finset.range S.capacity).filter fun s => (owner s).isSome

/-- Every key stands in one slot of the table, on its path, with no free slot before it. -/
structure Placed (owner : Owner κ) : Prop where
  lt : ∀ s k, owner s = some k → s < S.capacity
  reach : ∀ s k, owner s = some k → ∃ j < S.capacity, S.path k j = s ∧ ∀ i < j, owner (S.path k i) ≠ none
  inj : ∀ s s' k, owner s = some k → owner s' = some k → s = s'

/-- The search for the key has passed the first steps of its path: other keys stand there. -/
def PassedBy (owner : Owner κ) (k : κ) (j : Nat) : Prop := ∀ i < j, ∃ k', owner (S.path k i) = some k' ∧ k' ≠ k

/-- The table with the key in the slot. -/
def claim (owner : Owner κ) (s : Nat) (k : κ) : Owner κ := fun s' => if s' = s then some k else owner s'

variable {S} {owner : Owner κ} {k k' : κ} {s j : Nat}

@[simp] theorem claim_self : claim owner s k s = some k := if_pos rfl

theorem claim_of_ne {s' : Nat} (h : s' ≠ s) : claim owner s k s' = owner s' := if_neg h

theorem claim_ne_none {s' : Nat} (h : owner s' ≠ none) : claim owner s k s' ≠ none := by
  unfold claim
  split
  · exact Option.some_ne_none _
  · exact h

theorem placed_empty : S.Placed fun _ => none := by
  constructor
  · rintro s k ⟨⟩
  · rintro s k ⟨⟩
  · rintro s s' k ⟨⟩

theorem passedBy_zero : S.PassedBy owner k 0 := fun _ h => absurd h (Nat.not_lt_zero _)

theorem PassedBy.succ (h : S.PassedBy owner k j) (hs : owner (S.path k j) = some k') (hne : k' ≠ k) :
    S.PassedBy owner k (j + 1) := by
  intro i hi
  rcases Nat.lt_succ_iff_lt_or_eq.1 hi with hi | rfl
  · exact h i hi
  · exact ⟨k', hs, hne⟩

/-- What is passed is passed, whoever takes a free slot. -/
theorem PassedBy.claim (h : S.PassedBy owner k j) (hs : owner s = none) : S.PassedBy (claim owner s k') k j := by
  intro i hi
  obtain ⟨k₁, h₁, hne⟩ := h i hi
  refine ⟨k₁, ?_, hne⟩
  rw [claim_of_ne]
  · exact h₁
  · rintro rfl
    rw [hs] at h₁
    cases h₁

/-- A key that has been searched up to a free slot stands in no slot. -/
theorem Placed.absent (h : S.Placed owner) (hp : S.PassedBy owner k j) (hs : owner (S.path k j) = none) :
    owner s ≠ some k := by
  intro hk
  obtain ⟨j', -, rfl, hbefore⟩ := h.reach s k hk
  rcases Nat.lt_trichotomy j' j with hlt | rfl | hlt
  · obtain ⟨k₁, h₁, hne⟩ := hp j' hlt
    rw [hk] at h₁
    exact hne (Option.some.inj h₁).symm
  · rw [hs] at hk
    cases hk
  · exact hbefore j hlt hs

/-- The free slot at which the search for a key ends can be taken by the key. -/
theorem Placed.claim (h : S.Placed owner) (hp : S.PassedBy owner k j) (hj : j < S.capacity)
    (hs : owner (S.path k j) = none) : S.Placed (claim owner (S.path k j) k) := by
  have habsent : ∀ s, owner s ≠ some k := fun s => h.absent hp hs
  constructor
  · intro s k₁ h₁
    by_cases hsk : s = S.path k j
    · exact hsk ▸ S.path_lt k j
    · rw [claim_of_ne hsk] at h₁
      exact h.lt s k₁ h₁
  · intro s k₁ h₁
    by_cases hsk : s = S.path k j
    · subst hsk
      rw [claim_self] at h₁
      cases h₁
      refine ⟨j, hj, rfl, fun i hi => claim_ne_none ?_⟩
      obtain ⟨k₂, h₂, -⟩ := hp i hi
      rw [h₂]
      exact Option.some_ne_none _
    · rw [claim_of_ne hsk] at h₁
      obtain ⟨j', hj', hpath, hbefore⟩ := h.reach s k₁ h₁
      exact ⟨j', hj', hpath, fun i hi => claim_ne_none (hbefore i hi)⟩
  · intro s s' k₁ h₁ h₂
    by_cases hsk : s = S.path k j <;> by_cases hsk' : s' = S.path k j
    · exact hsk.trans hsk'.symm
    · subst hsk
      rw [claim_self] at h₁
      cases h₁
      rw [claim_of_ne hsk'] at h₂
      exact absurd h₂ (habsent s')
    · subst hsk'
      rw [claim_self] at h₂
      cases h₂
      rw [claim_of_ne hsk] at h₁
      exact absurd h₁ (habsent s)
    · rw [claim_of_ne hsk] at h₁
      rw [claim_of_ne hsk'] at h₂
      exact h.inj s s' k₁ h₁ h₂

/-! ## Free slots -/

theorem mem_taken : s ∈ S.taken owner ↔ s < S.capacity ∧ owner s ≠ none := by
  simp [taken, Option.isSome_iff_ne_none]

theorem card_taken_claim (hs : owner s = none) (hlt : s < S.capacity) :
    (S.taken (claim owner s k)).card = (S.taken owner).card + 1 := by
  have hnot : s ∉ S.taken owner := fun h => (mem_taken.1 h).2 hs
  have heq : S.taken (claim owner s k) = insert s (S.taken owner) := by
    ext s'
    rw [mem_insert, mem_taken, mem_taken]
    by_cases hss : s' = s
    · simp [hss, hlt]
    · rw [claim_of_ne hss]
      simp [hss]
  rw [heq, card_insert_of_notMem hnot]

/-- The slots that a search has passed are as many as its steps. -/
theorem PassedBy.le_card (h : S.PassedBy owner k j) (hj : j ≤ S.capacity) : j ≤ (S.taken owner).card := by
  rw [← S.card_slots k hj]
  refine card_le_card fun s hs => ?_
  obtain ⟨i, hi, rfl⟩ := mem_image.1 hs
  obtain ⟨k', hk', -⟩ := h i (mem_range.1 hi)
  rw [mem_taken, hk']
  exact ⟨S.path_lt k i, Option.some_ne_none _⟩

/-- A search in a table with a free slot has not passed as many steps as there are slots. -/
theorem PassedBy.lt (h : S.PassedBy owner k j) (hfree : (S.taken owner).card < S.capacity) : j < S.capacity := by
  by_contra hj
  have hall : S.PassedBy owner k S.capacity := fun i hi => h i (by omega)
  have := hall.le_card le_rfl
  omega

/-- The slot that a key stands in comes behind those that the search for it has passed. -/
theorem PassedBy.lt_card (h : S.PassedBy owner k j) (hj : j < S.capacity) (hs : owner (S.path k j) ≠ none) :
    j < (S.taken owner).card := by
  have hnot : S.path k j ∉ S.slots k j := by
    intro hmem
    obtain ⟨i, hi, hpath⟩ := mem_image.1 hmem
    rw [mem_range] at hi
    have := S.path_inj k i j (by omega) hj hpath
    omega
  have hsub : insert (S.path k j) (S.slots k j) ⊆ S.taken owner := by
    intro s hmem
    rcases mem_insert.1 hmem with rfl | hmem
    · exact mem_taken.2 ⟨S.path_lt k j, hs⟩
    · obtain ⟨i, hi, rfl⟩ := mem_image.1 hmem
      obtain ⟨k', hk', -⟩ := h i (mem_range.1 hi)
      exact mem_taken.2 ⟨S.path_lt k i, by rw [hk']; exact Option.some_ne_none _⟩
  have hcard := card_le_card hsub
  rw [card_insert_of_notMem hnot, S.card_slots k hj.le] at hcard
  omega

end ProbeScheme

/-! ## Odd strides -/

/-- The slot of a path with the stride, after some steps. -/
def strideSlot (bits start stride j : Nat) : Nat := (start + j * stride) % 2 ^ bits

theorem strideSlot_inj {bits start stride i j : Nat} (hodd : stride % 2 = 1) (hi : i < 2 ^ bits) (hj : j < 2 ^ bits)
    (h : strideSlot bits start stride i = strideSlot bits start stride j) : i = j := by
  have hcoprime : Nat.Coprime (2 ^ bits) stride :=
    Nat.Coprime.pow_left bits (Nat.coprime_two_left.2 (Nat.odd_iff.2 hodd))
  have hmul : i * stride ≡ j * stride [MOD 2 ^ bits] := Nat.ModEq.add_left_cancel' start h
  have hmod : i ≡ j [MOD 2 ^ bits] := Nat.ModEq.cancel_right_of_coprime hcoprime hmul
  rwa [Nat.ModEq, Nat.mod_eq_of_lt hi, Nat.mod_eq_of_lt hj] at hmod

theorem strideSlot_succ (bits start stride j : Nat) :
    (strideSlot bits start stride j + stride) % 2 ^ bits = strideSlot bits start stride (j + 1) := by
  unfold strideSlot
  rw [Nat.mod_add_mod]
  congr 1
  ring

/-- Paths of odd strides, one for each key. -/
def strideScheme {κ : Type} (bits : Nat) (start stride : κ → Nat) (hodd : ∀ k, stride k % 2 = 1) : ProbeScheme κ where
  capacity := 2 ^ bits
  path k j := strideSlot bits (start k) (stride k) j
  path_lt _ _ := Nat.mod_lt _ (Nat.two_pow_pos bits)
  path_inj _ _ _ hi hj h := strideSlot_inj (hodd _) hi hj h

end Haybarn.Lib
