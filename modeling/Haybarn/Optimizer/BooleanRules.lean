/-
`EqualOrNullSimplification`, from `equal_or_null_simplification.cpp`, and what the rules for conjunctions do to the value
of a condition.
-/
import Haybarn.Optimizer.DerivedFilters

namespace Haybarn.Optimizer

open Lib

variable {α : Type} [DecidableEq α]

namespace Condition

/-- The loop of `TryRewriteEqualOrIsNull` over the children of the conjunction, with what was found so far. -/
def findIsNull (a b : Operand α) : List (Condition α) → Bool × Bool → Option (Bool × Bool)
  | [], found => some found
  | leaf (.isNull child) :: items, found =>
    if child = a then findIsNull a b items (true, found.2)
    else if child = b then findIsNull a b items (found.1, true)
    else none
  | _ :: _, _ => none

/-- `TryRewriteEqualOrIsNull`: `a = b OR (a IS NULL AND b IS NULL)` to `a IS NOT DISTINCT FROM b`. -/
def tryRewriteEqualOrIsNull (equalExpr andExpr : Condition α) : Option (Condition α) :=
  match equalExpr, andExpr with
  | leaf (.comparison .compareEqual a b), conjunction .and first second [] =>
    match findIsNull a b [first, second] (false, false) with
    | some (true, true) => some (leaf (.comparison .compareNotDistinctFrom a b))
    | _ => none
  | _, _ => none

/-- `EqualOrNullSimplification::Apply`. -/
def simplifyEqualOrNull : Condition α → Option (Condition α)
  | conjunction .or left right [] => (tryRewriteEqualOrIsNull left right).or (tryRewriteEqualOrIsNull right left)
  | _ => none

/-- The conjunction that says that both operands are NULL. -/
inductive BothNull (a b : Operand α) : Condition α → Prop
  | inOrder : BothNull a b (conjunction .and (leaf (.isNull a)) (leaf (.isNull b)) [])
  | flipped : BothNull a b (conjunction .and (leaf (.isNull b)) (leaf (.isNull a)) [])

/-- The condition is `a = b OR (a IS NULL AND b IS NULL)`, where each of the two may be written in either order. -/
inductive EqualOrNull (a b : Operand α) : Condition α → Prop
  | inOrder {null : Condition α} : BothNull a b null →
      EqualOrNull a b (conjunction .or (leaf (.comparison .compareEqual a b)) null [])
  | flipped {null : Condition α} : BothNull a b null →
      EqualOrNull a b (conjunction .or null (leaf (.comparison .compareEqual a b)) [])

theorem findIsNull_cons {a b : Operand α} {item : Condition α} {items : List (Condition α)} {found result : Bool × Bool}
    (h : findIsNull a b (item :: items) found = some result) :
    (item = leaf (.isNull a) ∧ findIsNull a b items (true, found.2) = some result) ∨
      (item = leaf (.isNull b) ∧ b ≠ a ∧ findIsNull a b items (found.1, true) = some result) := by
  unfold findIsNull at h
  split at h
  next heq => simp at heq
  next child items' found' heq =>
    cases heq
    split at h
    next ha => exact .inl ⟨by rw [ha], h⟩
    next ha =>
      split at h
      next hb => exact .inr ⟨by rw [hb], hb ▸ ha, h⟩
      next => cases h
  next => cases h

theorem tryRewriteEqualOrIsNull_eq_some {equalExpr andExpr e' : Condition α} :
    tryRewriteEqualOrIsNull equalExpr andExpr = some e' ↔ ∃ a b, a ≠ b ∧
      equalExpr = leaf (.comparison .compareEqual a b) ∧ BothNull a b andExpr ∧
        e' = leaf (.comparison .compareNotDistinctFrom a b) := by
  constructor
  · intro h
    unfold tryRewriteEqualOrIsNull at h
    split at h
    next a b first second =>
      split at h
      next hfound =>
        cases h
        rcases findIsNull_cons hfound with ⟨rfl, hnext⟩ | ⟨rfl, hne, hnext⟩
        · rcases findIsNull_cons hnext with ⟨-, hlast⟩ | ⟨rfl, hne, -⟩
          · simp [findIsNull] at hlast
          · exact ⟨a, b, hne.symm, rfl, .inOrder, rfl⟩
        · rcases findIsNull_cons hnext with ⟨rfl, -⟩ | ⟨-, -, hlast⟩
          · exact ⟨a, b, hne.symm, rfl, .flipped, rfl⟩
          · simp [findIsNull] at hlast
      next => cases h
    next => cases h
  · rintro ⟨a, b, hne, rfl, hnull, rfl⟩
    cases hnull with
    | inOrder => simp [tryRewriteEqualOrIsNull, findIsNull, hne.symm]
    | flipped => simp [tryRewriteEqualOrIsNull, findIsNull, hne.symm]

theorem simplifyEqualOrNull_eq_some {e e' : Condition α} :
    simplifyEqualOrNull e = some e' ↔
      ∃ a b, a ≠ b ∧ EqualOrNull a b e ∧ e' = leaf (.comparison .compareNotDistinctFrom a b) := by
  constructor
  · intro h
    unfold simplifyEqualOrNull at h
    split at h
    next left right =>
      rcases Option.or_eq_some_iff.mp h with h | ⟨-, h⟩
      · obtain ⟨a, b, hne, rfl, hnull, rfl⟩ := tryRewriteEqualOrIsNull_eq_some.mp h
        exact ⟨a, b, hne, .inOrder hnull, rfl⟩
      · obtain ⟨a, b, hne, rfl, hnull, rfl⟩ := tryRewriteEqualOrIsNull_eq_some.mp h
        exact ⟨a, b, hne, .flipped hnull, rfl⟩
    next => cases h
  · rintro ⟨a, b, hne, hshape, rfl⟩
    cases hshape with
    | inOrder hnull =>
      refine Option.or_eq_some_iff.mpr (.inl ?_)
      exact tryRewriteEqualOrIsNull_eq_some.mpr ⟨a, b, hne, rfl, hnull, rfl⟩
    | flipped hnull =>
      refine Option.or_eq_some_iff.mpr (.inr ⟨?_, ?_⟩)
      · cases hnull <;> rfl
      · exact tryRewriteEqualOrIsNull_eq_some.mpr ⟨a, b, hne, rfl, hnull, rfl⟩

/-! ## Values -/

variable {V : Type} [LinearOrder V] (ρ : Assignment α V)

omit [DecidableEq α] in
theorem BothNull.eval {a b : Operand α} {null : Condition α} (h : BothNull a b null) :
    null.eval ρ = .ofBool ((ρ.value a).isNone && (ρ.value b).isNone) := by
  rw [Truth.ofBool_and]
  cases h with
  | inOrder => rw [eval_and_pair, eval_leaf, eval_leaf, Leaf.eval, Leaf.eval]
  | flipped => rw [eval_and_pair, eval_leaf, eval_leaf, Leaf.eval, Leaf.eval, inf_comm]

omit [DecidableEq α] in
theorem EqualOrNull.eval {a b : Operand α} {e : Condition α} (h : EqualOrNull a b e) :
    e.eval ρ = compareValues .compareEqual (ρ.value a) (ρ.value b) ⊔
      .ofBool ((ρ.value a).isNone && (ρ.value b).isNone) := by
  cases h with
  | inOrder hnull => rw [eval_or_pair, hnull.eval ρ, eval_leaf, Leaf.eval]
  | flipped hnull => rw [eval_or_pair, hnull.eval ρ, eval_leaf, Leaf.eval, sup_comm]

theorem compareNotDistinctFrom_eq_iff (l r : Option V) :
    compareValues .compareNotDistinctFrom l r =
        compareValues .compareEqual l r ⊔ .ofBool (l.isNone && r.isNone) ↔ (l = none ↔ r = none) := by
  cases l with
  | none =>
    cases r with
    | none => exact iff_of_true rfl Iff.rfl
    | some y => exact iff_of_false (fun h : Truth.no = Truth.null => by cases h) (by simp)
  | some x =>
    cases r with
    | none => exact iff_of_false (fun h : Truth.no = Truth.null => by cases h) (by simp)
    | some y => exact iff_of_true (by simp [compareValues, Truth.ofBool]) (by simp)

/-- What the rules do to the value of a condition: two of them keep it, and two add a filter that follows from it. -/
structure BooleanRulesPreserve (hash : HashOrder) (op : LogicalOperatorType) (isRoot : Bool) (e : Condition α) :
    Prop where
  distributivity : (distribute hash e).Returns fun result => ∀ e' ∈ result, e'.eval ρ = e.eval ρ
  equalOrNull : ∀ e' ∈ simplifyEqualOrNull e, e'.eval ρ = e.eval ρ
  predicateFactoring : (factorPredicates hash op isRoot e).Returns fun result => ∀ e' ∈ result, AddsFilter ρ e e'
  joinDependentFilter : ∀ e' ∈ addJoinDependentFilters hash op isRoot e, AddsFilter ρ e e'

/-- The rules keep the truth values, except where `a = b OR (a IS NULL AND b IS NULL)` is rewritten and one of the two
operands is NULL and the other is not. -/
theorem booleanRulesPreserve_iff (hash : HashOrder) (op : LogicalOperatorType) (isRoot : Bool) (e : Condition α) :
    BooleanRulesPreserve ρ hash op isRoot e ↔
      ∀ a b, EqualOrNull a b e → (ρ.value a = none ↔ ρ.value b = none) := by
  have hvalue : ∀ a b, EqualOrNull a b e →
      ((leaf (.comparison .compareNotDistinctFrom a b)).eval ρ = e.eval ρ ↔ (ρ.value a = none ↔ ρ.value b = none)) := by
    intro a b hshape
    rw [hshape.eval ρ, eval_leaf, Leaf.eval]
    exact compareNotDistinctFrom_eq_iff _ _
  constructor
  · intro h a b hshape
    by_cases hab : a = b
    · rw [hab]
    · exact (hvalue a b hshape).mp (h.equalOrNull _ (simplifyEqualOrNull_eq_some.mpr ⟨a, b, hab, hshape, rfl⟩))
  · intro h
    refine ⟨distribute_spec ρ hash e, fun e' he' => ?_, factorPredicates_spec hash op isRoot e,
      addJoinDependentFilters_spec hash op isRoot e⟩
    obtain ⟨a, b, -, hshape, rfl⟩ := simplifyEqualOrNull_eq_some.mp he'
    exact (hvalue a b hshape).mpr (h a b hshape)

/-- `x = y OR (x IS NULL AND y IS NULL)` is NULL where `x` is NULL and `y` is 1, and `x IS NOT DISTINCT FROM y` is FALSE
there. -/
theorem equalOrNull_null_one :
    let x : Operand Nat := ⟨0, [⟨0, 0⟩], false⟩
    let y : Operand Nat := ⟨1, [⟨0, 1⟩], false⟩
    let ρ : Assignment Nat Nat := ⟨fun operand => if operand = y then some 1 else none, fun _ => .null⟩
    let e := conjunction .or (leaf (.comparison .compareEqual x y))
      (conjunction .and (leaf (.isNull x)) (leaf (.isNull y)) []) []
    e.eval ρ = .null ∧ (leaf (.comparison .compareNotDistinctFrom x y)).eval ρ = .no ∧
      ¬ BooleanRulesPreserve ρ ⟨fun stored => stored, .refl⟩ .logicalFilter true e := by
  refine ⟨by decide, by decide, fun h => ?_⟩
  exact absurd (h.equalOrNull _ rfl) (by decide)

end Condition

end Haybarn.Optimizer
