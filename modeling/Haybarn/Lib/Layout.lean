/-
Lists laid out side by side in a memory, with gaps between them that nothing is kept in. One layout can be moved behind
another, and when the gaps and the rest of the memory are cleared, the lists are all that is left. Nothing here names a
particular system.
-/
import Haybarn.Lib.Cells
import Mathlib.Data.List.Pairwise

namespace Haybarn.Lib

open List

variable {α : Type}

/-! ## Parts and gaps -/

/-- The cells from `p` up to `q` and those of the list do not meet. -/
def Clear (part : Nat × List α) (p q : Nat) : Prop := q ≤ part.1 ∨ part.1 + part.2.length ≤ p

/-- The address is one of the part. -/
def Within (part : Nat × List α) (i : Nat) : Prop := part.1 ≤ i ∧ i < part.1 + part.2.length

/-- The parts are in the memory below `n`, no two of them meet, and what is in none of them is in a gap. -/
structure Layout (m : Cells α) (parts : List (Nat × List α)) (gaps : List (Nat × Nat)) (n : Nat) : Prop where
  has : ∀ part ∈ parts, m.Has part.1 part.2
  inside : ∀ part ∈ parts, part.1 + part.2.length ≤ n
  apart : parts.Pairwise fun a b => Clear a b.1 (b.1 + b.2.length)
  gapsInside : ∀ gap ∈ gaps, gap.2 ≤ n
  gapsApart : ∀ gap ∈ gaps, ∀ part ∈ parts, Clear part gap.1 gap.2
  covered : ∀ i < n, (∃ part ∈ parts, Within part i) ∨ ∃ gap ∈ gaps, gap.1 ≤ i ∧ i < gap.2

/-- The parts are all that the first `n` cells hold: every other cell is zero. -/
structure Holds [Zero α] (m : Cells α) (parts : List (Nat × List α)) (n : Nat) : Prop where
  has : ∀ part ∈ parts, m.Has part.1 part.2
  inside : ∀ part ∈ parts, part.1 + part.2.length ≤ n
  apart : parts.Pairwise fun a b => Clear a b.1 (b.1 + b.2.length)
  zero : ∀ i < n, (∀ part ∈ parts, ¬ Within part i) → m i = 0

namespace Layout

variable {m m' : Cells α} {parts parts' : List (Nat × List α)} {gaps gaps' : List (Nat × Nat)} {n n' o : Nat}

theorem nil : Layout m [] [] 0 where
  has := by simp
  inside := by simp
  apart := List.Pairwise.nil
  gapsInside := by simp
  gapsApart := by simp
  covered := by simp

/-- One list at the start, and a gap up to the end where there is one. -/
theorem single {xs : List α} (h : m.Has 0 xs) (hn : xs.length ≤ n) :
    Layout m [(0, xs)] (if n ≠ xs.length then [(xs.length, n)] else []) n where
  has := by simpa using h
  inside := by simpa using hn
  apart := pairwise_singleton _ _
  gapsInside := by
    split
    · simp
    · simp
  gapsApart := by
    split
    · simp [Clear]
    · simp
  covered := by
    intro i hi
    by_cases hx : i < xs.length
    · exact .inl ⟨(0, xs), mem_singleton_self _, Nat.zero_le _, by simpa using hx⟩
    · rw [if_pos (by omega)]
      exact .inr ⟨(xs.length, n), mem_singleton_self _, by omega, hi⟩

/-- A layout that is moved behind another one. -/
theorem append (h : Layout m parts gaps o) (h' : Layout m' parts' gaps' n) (m'' : Cells α)
    (hlow : ∀ i < o, m'' i = m i) (hhigh : ∀ part ∈ parts', ∀ i, Within part i → m'' (o + i) = m' i) :
    Layout m'' (parts ++ parts'.map fun part => (part.1 + o, part.2))
      (gaps ++ gaps'.map fun gap => (gap.1 + o, gap.2 + o)) (o + n) where
  has := by
    simp only [mem_append, mem_map]
    rintro part (hpart | ⟨part, hpart, rfl⟩)
    · have hin := h.inside part hpart
      exact (h.has part hpart).congr fun i hi => hlow _ (by omega)
    · refine (h'.has part hpart).congr fun i hi => ?_
      rw [← hhigh part hpart (part.1 + i) ⟨by omega, by omega⟩]
      congr 1
      omega
  inside := by
    simp only [mem_append, mem_map]
    rintro part (hpart | ⟨part, hpart, rfl⟩)
    · have hin := h.inside part hpart
      omega
    · have hin := h'.inside part hpart
      dsimp only
      omega
  apart := by
    rw [pairwise_append, pairwise_map]
    refine ⟨h.apart, h'.apart.imp ?_, ?_⟩
    · rintro a b (hab | hab)
      · exact .inl (by dsimp only; omega)
      · exact .inr (by dsimp only; omega)
    · simp only [mem_map]
      rintro a ha b ⟨part, hpart, rfl⟩
      have hin := h.inside a ha
      exact .inr (by dsimp only; omega)
  gapsInside := by
    simp only [mem_append, mem_map]
    rintro gap (hgap | ⟨gap, hgap, rfl⟩)
    · have hin := h.gapsInside gap hgap
      omega
    · have hin := h'.gapsInside gap hgap
      dsimp only
      omega
  gapsApart := by
    simp only [mem_append, mem_map]
    rintro gap (hgap | ⟨gap, hgap, rfl⟩) part (hpart | ⟨part, hpart, rfl⟩)
    · exact h.gapsApart gap hgap part hpart
    · have hin := h.gapsInside gap hgap
      exact .inl (by dsimp only; omega)
    · have hin := h.inside part hpart
      exact .inr (by dsimp only; omega)
    · rcases h'.gapsApart gap hgap part hpart with hclear | hclear
      · exact .inl (by dsimp only; omega)
      · exact .inr (by dsimp only; omega)
  covered := by
    intro i hi
    simp only [mem_append, mem_map]
    by_cases hlt : i < o
    · rcases h.covered i hlt with ⟨part, hpart, hin⟩ | ⟨gap, hgap, hin⟩
      · exact .inl ⟨part, .inl hpart, hin⟩
      · exact .inr ⟨gap, .inl hgap, hin⟩
    · rcases h'.covered (i - o) (by omega) with ⟨part, hpart, hin⟩ | ⟨gap, hgap, hin⟩
      · refine .inl ⟨_, .inr ⟨part, hpart, rfl⟩, ?_⟩
        unfold Within at hin ⊢
        dsimp only
        omega
      · exact .inr ⟨_, .inr ⟨gap, hgap, rfl⟩, by dsimp only; omega, by dsimp only; omega⟩

/-! ## Clearing -/

theorem has_foldl_fill [Zero α] {part : Nat × List α} : ∀ {gaps : List (Nat × Nat)} {m : Cells α},
    (∀ gap ∈ gaps, Clear part gap.1 gap.2) → m.Has part.1 part.2 →
      (gaps.foldl (fun m gap => m.fill gap.1 gap.2 0) m).Has part.1 part.2
  | [], _, _, h => h
  | gap :: gaps, m, hgaps, h => by
    rw [foldl_cons]
    exact has_foldl_fill (fun gap' hgap => hgaps gap' (mem_cons_of_mem _ hgap)) (h.fill (hgaps gap mem_cons_self))

theorem foldl_fill_apply [Zero α] {i : Nat} : ∀ {gaps : List (Nat × Nat)} {m : Cells α},
    ((∃ gap ∈ gaps, gap.1 ≤ i ∧ i < gap.2) ∨ m i = 0) → gaps.foldl (fun m gap => m.fill gap.1 gap.2 0) m i = 0
  | [], _, h => h.resolve_left (by simp)
  | gap :: gaps, m, h => by
    rw [foldl_cons]
    apply foldl_fill_apply
    rw [Cells.fill_apply]
    rcases h with ⟨gap', hgap, hin⟩ | h
    · rcases mem_cons.1 hgap with rfl | hgap
      · exact .inr (if_pos hin)
      · exact .inl ⟨gap', hgap, hin⟩
    · right
      split
      · rfl
      · exact h

/-- When the gaps and the cells behind the layout are cleared, the parts are all that is left. -/
theorem holds_clear [Zero α] (h : Layout m parts gaps n) (hn : n ≤ n') :
    Holds ((gaps.foldl (fun m gap => m.fill gap.1 gap.2 0) m).fill n n' 0) parts n' where
  has := fun part hpart => (has_foldl_fill (fun gap hgap => h.gapsApart gap hgap part hpart) (h.has part hpart)).fill
    (.inr (h.inside part hpart))
  inside := fun part hpart => Nat.le_trans (h.inside part hpart) hn
  apart := h.apart
  zero := by
    intro i hi hnone
    rw [Cells.fill_apply]
    split
    · rfl
    · apply foldl_fill_apply
      rcases h.covered i (by omega) with ⟨part, hpart, hin⟩ | hgap
      · exact absurd hin (hnone part hpart)
      · exact .inl hgap

end Layout

end Haybarn.Lib
