/-
Lists as runs: a value and how often it is repeated. A place in the runs, as the number of a run and an offset in it, stands
for an index of the list, and moves on with it. Nothing here names a particular system.
-/
import Mathlib.Algebra.BigOperators.Group.List.Basic
import Mathlib.Data.List.Basic

namespace Haybarn.Lib.RunLength

open List

variable {α : Type} {runs runs' : List (α × Nat)} {run : α × Nat} {e p r j k : Nat}

/-- The list that runs stand for. -/
def expand (runs : List (α × Nat)) : List α := runs.flatMap fun run => List.replicate run.2 run.1

/-- How many values are in front of a run. -/
def before (runs : List (α × Nat)) (e : Nat) : Nat := (expand (runs.take e)).length

@[simp] theorem expand_nil : expand ([] : List (α × Nat)) = [] := rfl

@[simp] theorem expand_cons : expand (run :: runs) = replicate run.2 run.1 ++ expand runs := rfl

theorem expand_append (runs runs' : List (α × Nat)) : expand (runs ++ runs') = expand runs ++ expand runs' :=
  flatMap_append ..

@[simp] theorem before_zero (runs : List (α × Nat)) : before runs 0 = 0 := by
  simp [before]

theorem before_succ (h : runs[e]? = some run) : before runs (e + 1) = before runs e + run.2 := by
  unfold before
  rw [take_add_one, h, expand_append]
  simp

theorem before_of_length_le (h : runs.length ≤ e) : before runs e = (expand runs).length := by
  unfold before
  rw [take_of_length_le h]

/-- The values of a run. -/
theorem getElem?_expand (h : runs[e]? = some run) (hj : j < run.2) : (expand runs)[before runs e + j]? = some run.1 := by
  have hlt : e < runs.length := (List.getElem?_eq_some_iff.1 h).1
  have hsplit : runs = runs.take e ++ run :: runs.drop (e + 1) := by
    have hdrop := List.drop_eq_getElem_cons hlt
    rw [(List.getElem?_eq_some_iff.1 h).2] at hdrop
    rw [← hdrop, List.take_append_drop]
  have hexpand : expand runs = expand (runs.take e) ++ (List.replicate run.2 run.1 ++ expand (runs.drop (e + 1))) := by
    rw [← expand_cons, ← expand_append, ← hsplit]
  rw [hexpand, before, List.getElem?_append_right (by omega), Nat.add_sub_cancel_left,
    List.getElem?_append_left (by simpa using hj), List.getElem?_replicate, if_pos hj]

/-! ## Places -/

/-- Only the last run may be empty. -/
def Filled (runs : List (α × Nat)) : Prop := ∀ e run, runs[e]? = some run → e + 1 < runs.length → 0 < run.2

/-- The offset `p` in the run `e` stands for the index `r`. -/
structure At (runs : List (α × Nat)) (e p r : Nat) : Prop where
  row : r = before runs e + p
  entry_le : e ≤ runs.length
  inRun : r < (expand runs).length → ∃ run, runs[e]? = some run ∧ p < run.2

/-- The start of a run. -/
theorem Filled.at (h : Filled runs) (he : e ≤ runs.length) : At runs e 0 (before runs e) where
  row := rfl
  entry_le := he
  inRun := by
    intro hlt
    have hlt' : e < runs.length := by
      by_contra hge
      rw [before_of_length_le (by omega)] at hlt
      omega
    refine ⟨runs[e], getElem?_eq_getElem hlt', ?_⟩
    by_cases hlast : e + 1 < runs.length
    · exact h e _ (getElem?_eq_getElem hlt') hlast
    · have hsucc := before_succ (getElem?_eq_getElem hlt')
      rw [before_of_length_le (by omega)] at hsucc
      omega

/-- A place that moves on within its run. -/
theorem At.advance (h : At runs e p r) (hrun : runs[e]? = some run) (hk : p + k < run.2) : At runs e (p + k) (r + k) where
  row := by
    rw [h.row]
    omega
  entry_le := h.entry_le
  inRun := fun _ => ⟨run, hrun, hk⟩

/-- A place that moves on to the end of its run. -/
theorem At.next (h : At runs e p r) (hfilled : Filled runs) (hrun : runs[e]? = some run) (hk : p + k = run.2) :
    At runs (e + 1) 0 (r + k) := by
  have hlt : e < runs.length := (List.getElem?_eq_some_iff.1 hrun).1
  have hnext := hfilled.at (show e + 1 ≤ runs.length by omega)
  rwa [before_succ hrun, ← hk, ← Nat.add_assoc, ← h.row] at hnext

/-- The values from a place on, up to the end of its run. -/
theorem At.value (h : At runs e p r) (hrun : runs[e]? = some run) (hk : p + k < run.2) :
    (expand runs)[r + k]? = some run.1 := by
  rw [h.row, Nat.add_assoc]
  exact getElem?_expand hrun hk

/-- A place is not behind the end of its run. -/
theorem At.le_length (h : At runs e p r) (hrun : runs[e]? = some run) (hp : p ≤ run.2) : r + (run.2 - p) ≤ (expand runs).length := by
  by_cases hpos : p < run.2
  · have hvalue := h.value hrun (show p + (run.2 - p - 1) < run.2 by omega)
    have hlt := (List.getElem?_eq_some_iff.1 hvalue).1
    omega
  · have hlt : e < runs.length := (List.getElem?_eq_some_iff.1 hrun).1
    by_contra hgt
    have hle : before runs (e + 1) ≤ (expand runs).length := by
      unfold before
      have hsplit := List.take_append_drop (e + 1) runs
      have hlength := congrArg (fun runs => (expand runs).length) hsplit
      rw [expand_append, List.length_append] at hlength
      omega
    rw [before_succ hrun] at hle
    have hrow := h.row
    omega

end Haybarn.Lib.RunLength
