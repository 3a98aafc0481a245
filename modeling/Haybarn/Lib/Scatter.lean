/-
Accumulators that a list of rows writes to: each row adds something at one place. Rows that all write to one
place add up there in order; rows that write to different places do so independently, so that two passes over
them are one. Nothing here names a particular system.
-/
import Mathlib.Data.List.Nodup
import Mathlib.Logic.Function.Basic

namespace Haybarn.Lib

open Function

section Scatter

variable {M ρ ι : Type} [DecidableEq ι] (op : M → M → M)

/-- Something is added at one place. -/
def scatter (acc : ι → M) (i : ι) (m : M) : ι → M := Function.update acc i (op (acc i) m)

/-- Every row `r` adds `f r` at the place `place r`. -/
def scatterRows (place : ρ → ι) (f : ρ → M) (rows : List ρ) (acc : ι → M) : ι → M :=
  rows.foldl (fun acc r => scatter op acc (place r) (f r)) acc

variable {op} {place : ρ → ι} {f g : ρ → M} {rows : List ρ} {acc : ι → M} {i j : ι}

theorem scatter_same (acc : ι → M) (i : ι) (m : M) : scatter op acc i m i = op (acc i) m := update_self ..

theorem scatter_of_ne (h : j ≠ i) (m : M) : scatter op acc i m j = acc j := update_of_ne h ..

theorem scatterRows_congr (h : ∀ r ∈ rows, f r = g r) (acc : ι → M) :
    scatterRows op place f rows acc = scatterRows op place g rows acc :=
  List.foldl_ext _ _ _ fun acc r hr => by rw [h r hr]

/-- A place that no row writes to. -/
theorem scatterRows_of_not_mem : ∀ {rows : List ρ} {acc : ι → M}, (∀ r ∈ rows, place r ≠ i) →
    scatterRows op place f rows acc i = acc i
  | [], _, _ => rfl
  | r :: rows, acc, h => by
    have hrest : ∀ r' ∈ rows, place r' ≠ i := fun r' hr' => h r' (List.mem_cons_of_mem r hr')
    have hr : i ≠ place r := (h r List.mem_cons_self).symm
    exact (scatterRows_of_not_mem hrest).trans (scatter_of_ne hr _)

/-- A place that one row writes to. -/
theorem scatterRows_of_mem : ∀ {rows : List ρ} {acc : ι → M}, (rows.map place).Nodup → ∀ {r : ρ}, r ∈ rows →
    scatterRows op place f rows acc (place r) = op (acc (place r)) (f r)
  | r' :: rows, acc, hnodup, r, hr => by
    obtain ⟨hnot, hnodup⟩ := List.nodup_cons.1 hnodup
    rcases List.mem_cons.1 hr with rfl | hr
    · have hrest : ∀ r' ∈ rows, place r' ≠ place r := fun r' hr' he => hnot (List.mem_map.2 ⟨r', hr', he⟩)
      exact (scatterRows_of_not_mem hrest).trans (scatter_same ..)
    · have hne : place r ≠ place r' := fun he => hnot (List.mem_map.2 ⟨r, hr, he⟩)
      refine (scatterRows_of_mem hnodup hr).trans ?_
      exact congrArg (op · (f r)) (scatter_of_ne hne _)

variable [hassoc : Std.Associative op]

theorem scatter_scatter (acc : ι → M) (i : ι) (m m' : M) :
    scatter op (scatter op acc i m) i m' = scatter op acc i (op m m') := by
  unfold scatter
  rw [update_self, update_idem, hassoc.assoc]

/-- Two passes over rows that write to different places. -/
theorem scatterRows_scatterRows (hnodup : (rows.map place).Nodup) (acc : ι → M) :
    scatterRows op place g rows (scatterRows op place f rows acc) = scatterRows op place (fun r => op (f r) (g r)) rows acc := by
  funext i
  by_cases h : ∃ r ∈ rows, place r = i
  · obtain ⟨r, hr, rfl⟩ := h
    rw [scatterRows_of_mem hnodup hr, scatterRows_of_mem hnodup hr, scatterRows_of_mem hnodup hr, hassoc.assoc]
  · have hnot : ∀ r ∈ rows, place r ≠ i := fun r hr he => h ⟨r, hr, he⟩
    rw [scatterRows_of_not_mem hnot, scatterRows_of_not_mem hnot, scatterRows_of_not_mem hnot]

/-- Rows that all write to one place. -/
theorem scatterRows_const {e : M} [hid : Std.LawfulRightIdentity op e] (i : ι) : ∀ (rows : List ρ) (acc : ι → M),
    scatterRows op (fun _ => i) f rows acc = scatter op acc i ((rows.map f).foldr op e)
  | [], acc => by
    unfold scatterRows scatter
    rw [List.map_nil, List.foldr_nil, hid.right_id, update_eq_self]
    rfl
  | r :: rows, acc => by
    refine (scatterRows_const i rows _).trans ?_
    rw [scatter_scatter]
    rfl

end Scatter

end Haybarn.Lib
