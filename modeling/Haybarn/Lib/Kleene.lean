/-
Three-valued logic. The truth values are ordered with NULL between FALSE and TRUE, so that a conjunction is a least and a
disjunction a greatest value: the laws of the connectives are those of a bounded linear order.
-/
import Mathlib.Data.Multiset.Lattice
import Mathlib.Order.BoundedOrder.Lattice

namespace Haybarn.Lib

open Multiset

/-- A truth value of three-valued logic. -/
inductive Truth where
  | no
  | null
  | yes
deriving DecidableEq, Repr

namespace Truth

/-- The place of a value in the order. -/
def rank : Truth → Nat
  | no => 0
  | null => 1
  | yes => 2

theorem rank_injective : Function.Injective rank := by
  intro x y h
  cases x <;> cases y <;> simp [rank] at h ⊢

instance : LinearOrder Truth := LinearOrder.lift' rank rank_injective

theorem le_def {x y : Truth} : x ≤ y ↔ x.rank ≤ y.rank := Iff.rfl

instance : BoundedOrder Truth where
  top := yes
  le_top x := by cases x <;> decide
  bot := no
  bot_le x := by cases x <;> decide

@[simp] theorem top_eq : (⊤ : Truth) = yes := rfl

@[simp] theorem bot_eq : (⊥ : Truth) = no := rfl

@[simp] theorem inf_yes (x : Truth) : x ⊓ yes = x := inf_top_eq x

@[simp] theorem sup_no (x : Truth) : x ⊔ no = x := sup_bot_eq x

/-- The truth value of a two-valued test. -/
def ofBool : Bool → Truth
  | true => yes
  | false => no

@[simp] theorem ofBool_eq_yes {b : Bool} : ofBool b = yes ↔ b = true := by cases b <;> simp [ofBool]

theorem ofBool_and (a b : Bool) : ofBool (a && b) = ofBool a ⊓ ofBool b := by cases a <;> cases b <;> rfl

@[simp] theorem inf_eq_yes {x y : Truth} : x ⊓ y = yes ↔ x = yes ∧ y = yes := by cases x <;> cases y <;> decide

@[simp] theorem sup_eq_yes {x y : Truth} : x ⊔ y = yes ↔ x = yes ∨ y = yes := by cases x <;> cases y <;> decide

end Truth

/-! ## Many operands -/

section Lattice

variable {α : Type*} [DistribLattice α] [BoundedOrder α]

/-- A common part may be taken out of the operands of a disjunction. -/
theorem sup_map_inf (x : α) (s : Multiset α) : (s.map (x ⊓ ·)).sup = x ⊓ s.sup := by
  induction s using Multiset.induction_on with
  | empty => simp
  | cons y s ih => rw [Multiset.map_cons, Multiset.sup_cons, ih, Multiset.sup_cons, inf_sup_left]

/-- A disjunction with an operand that is always true. -/
theorem sup_eq_top_of_mem {s : Multiset α} (h : ⊤ ∈ s) : s.sup = ⊤ := top_le_iff.mp (le_sup h)

end Lattice

namespace Truth

theorem inf_eq_yes_iff {s : Multiset Truth} : s.inf = yes ↔ ∀ x ∈ s, x = yes := by
  induction s using Multiset.induction_on with
  | empty => simp
  | cons y s ih => rw [Multiset.inf_cons, inf_eq_yes, ih, Multiset.forall_mem_cons]

theorem sup_eq_yes_iff {s : Multiset Truth} : s.sup = yes ↔ ∃ x ∈ s, x = yes := by
  induction s using Multiset.induction_on with
  | empty => simp
  | cons y s ih => rw [Multiset.sup_cons, sup_eq_yes, ih]; simp [eq_comm]

end Truth

end Haybarn.Lib
