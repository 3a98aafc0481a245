/-
Boolean expressions as the rewrite rules see them: conjunctions over leaves, `Expression::Equals` (which compares the
children of a conjunction as multisets), and the value of an expression.
-/
import Mathlib.Data.Multiset.MapFold
import Haybarn.Lib.Kleene
import Haybarn.Lib.Outcome
import Haybarn.Optimizer.MoveConstants

namespace Haybarn.Optimizer

open Lib List

/-! ## Expressions -/

structure ColumnBinding where
  tableIndex : Nat
  columnIndex : Nat
deriving DecidableEq, Repr

/-- An expression that the rules do not look into: what `Equals` tells apart, the bindings that
`ExpressionIterator::VisitExpression` meets in it, and `IsVolatile`. -/
structure Operand (α : Type) where
  name : α
  columns : List ColumnBinding
  volatile : Bool
deriving DecidableEq

/-- A boolean expression that is no conjunction. -/
inductive Leaf (α : Type) where
  | comparison (type : ComparisonType) (left right : Operand α)
  | isNull (child : Operand α)
  | other (operand : Operand α)
deriving DecidableEq

/-- The `ExpressionType`s of a `BoundConjunctionExpression`. -/
inductive ConjunctionType where
  | and
  | or
deriving DecidableEq, Repr

/-- A boolean expression. A `BoundConjunctionExpression` has two children or more. -/
inductive Condition (α : Type) where
  | leaf (leaf : Leaf α)
  | conjunction (type : ConjunctionType) (first second : Condition α) (rest : List (Condition α))

namespace Condition

variable {α : Type}

/-- The children of a conjunction. -/
def children : Condition α → List (Condition α)
  | leaf _ => []
  | conjunction _ first second rest => first :: second :: rest

mutual

@[elab_as_elim]
theorem recOnChildren {motive : Condition α → Prop} (leaf : ∀ l, motive (leaf l))
    (conjunction : ∀ type first second rest, (∀ e ∈ first :: second :: rest, motive e) →
      motive (conjunction type first second rest)) (e : Condition α) : motive e :=
  match e with
  | .leaf l => leaf l
  | .conjunction type first second rest =>
    conjunction type first second rest <| forall_mem_cons.mpr ⟨recOnChildren leaf conjunction first,
      forall_mem_cons.mpr ⟨recOnChildren leaf conjunction second, recOnChildrenAll leaf conjunction rest⟩⟩

theorem recOnChildrenAll {motive : Condition α → Prop} (leaf : ∀ l, motive (Condition.leaf l))
    (conjunction : ∀ type first second rest, (∀ e ∈ first :: second :: rest, motive e) →
      motive (Condition.conjunction type first second rest)) (es : List (Condition α)) : ∀ e ∈ es, motive e :=
  match es with
  | [] => by simp
  | e :: es => forall_mem_cons.mpr ⟨recOnChildren leaf conjunction e, recOnChildrenAll leaf conjunction es⟩

end

/-! ## Results that do not depend on the order of children -/

section Fold

variable {β : Type*} (onLeaf : Leaf α → β) (node : ConjunctionType → Multiset β → β)

mutual

/-- What is computed from the leaves upwards, of each conjunction from the results of its children in any order. -/
def fold : Condition α → β
  | leaf l => onLeaf l
  | conjunction type first second rest => node type (fold first ::ₘ fold second ::ₘ (foldAll rest : Multiset β))

/-- The results of the conditions of a list. -/
def foldAll : List (Condition α) → List β
  | [] => []
  | e :: es => fold e :: foldAll es

end

@[simp] theorem foldAll_eq_map (es : List (Condition α)) : foldAll onLeaf node es = es.map (fold onLeaf node) := by
  induction es with
  | nil => rfl
  | cons e es ih => rw [foldAll, ih, map_cons]

theorem fold_conjunction (type : ConjunctionType) (first second : Condition α) (rest : List (Condition α)) :
    fold onLeaf node (conjunction type first second rest)
      = node type ((first :: second :: rest : List _).map (fold onLeaf node) : Multiset β) := by
  rw [fold, foldAll_eq_map]
  rfl

end Fold

/-! ## `Expression::Equals` -/

/-- The list without the first element that passes the test. -/
def removeFirst {β : Type*} (test : β → Bool) : List β → Option (List β)
  | [] => none
  | y :: ys => if test y then some ys else (removeFirst test ys).map (y :: ·)

/-- `ExpressionUtil::SetEquals`, with the left side given by what its elements are equal to: the elements of the right
side are counted off against those of the left. -/
def setEquals {γ : Type*} (left : List (γ → Bool)) (right : List γ) : Bool :=
  left.length == right.length && (right.foldlM (fun tests y => removeFirst (· y) tests) left).isSome

section Equals

variable [DecidableEq α]

mutual

def equals : Condition α → Condition α → Bool
  | leaf l => fun other => match other with
    | leaf l' => decide (l = l')
    | conjunction .. => false
  | conjunction type first second rest => fun other => match other with
    | leaf _ => false
    | conjunction type' first' second' rest' =>
      type == type' && setEquals (equals first :: equals second :: equalsAll rest) (first' :: second' :: rest')

/-- What each condition of a list is equal to. -/
def equalsAll : List (Condition α) → List (Condition α → Bool)
  | [] => []
  | e :: es => equals e :: equalsAll es

end

end Equals

/-- A condition where the children of a conjunction have no order. -/
inductive Unordered (α : Type) where
  | leaf (leaf : Leaf α)
  | conjunction (type : ConjunctionType) (children : List (Unordered α))

/-- The condition up to the order of children: some order is chosen for each multiset of children. -/
noncomputable def unordered : Condition α → Unordered α :=
  fold .leaf fun type children => .conjunction type children.toList

/-- `setEquals` compares multisets, where what an element is equal to is told by a key. -/
theorem removeFirst_spec {γ κ : Type*} {key : γ → κ} {tests : List (γ → Bool)} {keys : List κ}
    (h : List.Forall₂ (fun test k => ∀ y, test y = true ↔ k = key y) tests keys) (y : γ) :
    (removeFirst (· y) tests = none ∧ key y ∉ keys) ∨
      ∃ tests' keys', removeFirst (· y) tests = some tests' ∧ keys.Perm (key y :: keys') ∧
        List.Forall₂ (fun test k => ∀ y, test y = true ↔ k = key y) tests' keys' := by
  induction h with
  | nil => exact .inl ⟨rfl, by simp⟩
  | @cons test k tests keys hhead htail ih =>
    by_cases hy : test y = true
    · exact .inr ⟨tests, keys, by rw [removeFirst, if_pos hy], by rw [(hhead y).mp hy], htail⟩
    · have hne : key y ≠ k := fun hk => hy ((hhead y).mpr hk.symm)
      rw [removeFirst, if_neg hy]
      rcases ih with ⟨hnone, hmem⟩ | ⟨tests', keys', hsome, hperm, hforall⟩
      · exact .inl ⟨by rw [hnone]; rfl, by simp [hne, hmem]⟩
      · exact .inr ⟨test :: tests', k :: keys', by rw [hsome]; rfl,
          (hperm.cons k).trans (List.Perm.swap ..), .cons hhead hforall⟩

theorem setEquals_iff {γ κ : Type*} {key : γ → κ} {tests : List (γ → Bool)} {keys : List κ}
    (h : List.Forall₂ (fun test k => ∀ y, test y = true ↔ k = key y) tests keys) (right : List γ) :
    setEquals tests right = true ↔ (keys : Multiset κ) = (right.map key : List κ) := by
  rw [Multiset.coe_eq_coe]
  induction right generalizing tests keys with
  | nil =>
    cases h with
    | nil => simp [setEquals]
    | cons => simp [setEquals]
  | cons y right ih =>
    have hlength := h.length_eq
    rcases removeFirst_spec h y with ⟨hnone, hmem⟩ | ⟨tests', keys', hsome, hperm, hforall⟩
    · simp only [setEquals, foldlM_cons, hnone]
      constructor
      · intro hfalse
        simp at hfalse
      · intro hp
        exact absurd (hp.mem_iff.mpr (by simp)) hmem
    · have hlength' := hforall.length_eq
      have hcount := hperm.length_eq
      have hstep : setEquals tests (y :: right) = setEquals tests' right := by
        simp only [setEquals, foldlM_cons, hsome, Option.bind_eq_bind, Option.bind_some, length_cons]
        congr 1
        rw [hlength, hcount, length_cons, hlength']
        simp
      rw [hstep, ih hforall, map_cons]
      exact ⟨fun hp => hperm.trans (hp.cons _), fun hp => (hperm.symm.trans hp).cons_inv⟩

section Equals

variable [DecidableEq α]

mutual

theorem equals_iff (e : Condition α) : ∀ other, equals e other = true ↔ unordered e = unordered other := by
  cases e with
  | leaf l =>
    intro other
    cases other with
    | leaf l' => simp [equals, unordered, fold]
    | conjunction => simp [equals, unordered, fold]
  | conjunction type first second rest =>
    intro other
    cases other with
    | leaf l' => simp [equals, unordered, fold]
    | conjunction type' first' second' rest' =>
      have hset := setEquals_iff (List.Forall₂.cons (equals_iff first) (.cons (equals_iff second) (equalsAll_iff rest)))
        (first' :: second' :: rest')
      rw [equals]
      simp only [Bool.and_eq_true, beq_iff_eq, hset]
      unfold unordered
      rw [fold_conjunction, fold_conjunction]
      simp only [Unordered.conjunction.injEq]
      refine and_congr_right fun _ => ⟨fun h => congrArg _ h, fun h => ?_⟩
      have := congrArg (fun l : List (Unordered α) => (l : Multiset (Unordered α))) h
      simpa using this

theorem equalsAll_iff (es : List (Condition α)) :
    List.Forall₂ (fun test k => ∀ other, test other = true ↔ k = unordered other) (equalsAll es) (es.map unordered) := by
  cases es with
  | nil => exact .nil
  | cons e es => exact .cons (equals_iff e) (equalsAll_iff es)

end

@[simp] theorem equals_refl (e : Condition α) : equals e e = true := (equals_iff e e).mpr rfl

theorem equals_comm (e e' : Condition α) : equals e e' = true ↔ equals e' e = true := by
  rw [equals_iff, equals_iff, eq_comm]

end Equals

/-! ## What `Equals` preserves -/

namespace Unordered

variable {β : Type*} (onLeaf : Leaf α → β) (node : ConjunctionType → Multiset β → β)

mutual

/-- `Condition.fold`, of a condition up to the order of children. -/
def fold : Unordered α → β
  | leaf l => onLeaf l
  | conjunction type children => node type (foldAll children : Multiset β)

/-- The results of the conditions of a list. -/
def foldAll : List (Unordered α) → List β
  | [] => []
  | u :: us => fold u :: foldAll us

end

theorem foldAll_eq_map (us : List (Unordered α)) : foldAll onLeaf node us = us.map (fold onLeaf node) := by
  induction us with
  | nil => rfl
  | cons u us ih => rw [foldAll, ih, map_cons]

end Unordered

section

variable {β : Type*} (onLeaf : Leaf α → β) (node : ConjunctionType → Multiset β → β)

mutual

theorem fold_unordered (e : Condition α) : (unordered e).fold onLeaf node = fold onLeaf node e := by
  cases e with
  | leaf l => rfl
  | conjunction type first second rest =>
    unfold unordered
    rw [fold_conjunction, Unordered.fold, Unordered.foldAll_eq_map, ← Multiset.map_coe, Multiset.coe_toList,
      Multiset.map_coe, map_map, fold_conjunction]
    congr 2
    rw [map_cons, map_cons, map_cons, map_cons]
    exact congrArg₂ cons (fold_unordered first)
      (congrArg₂ cons (fold_unordered second) (fold_unorderedAll rest))

theorem fold_unorderedAll (es : List (Condition α)) :
    es.map (Unordered.fold onLeaf node ∘ unordered) = es.map (fold onLeaf node) := by
  cases es with
  | nil => rfl
  | cons e es =>
    rw [map_cons, map_cons]
    exact congrArg₂ cons (fold_unordered e) (fold_unorderedAll es)

end

theorem fold_congr [DecidableEq α] {e e' : Condition α} (h : equals e e' = true) :
    fold onLeaf node e = fold onLeaf node e' := by
  rw [← fold_unordered, (equals_iff e e').mp h, fold_unordered]

end

/-! ## Size -/

/-- The number of nodes. -/
def size : Condition α → Nat := fold (fun _ => 1) fun _ sizes => 1 + sizes.sum

theorem size_lt_of_mem {e child : Condition α} (h : child ∈ e.children) : child.size < e.size := by
  cases e with
  | leaf => simp [children] at h
  | conjunction type first second rest =>
    have hle := single_le_sum (l := (first :: second :: rest).map size) (by simp) _ (mem_map_of_mem h)
    unfold size at *
    rw [fold_conjunction, Multiset.sum_coe]
    omega

end Condition

/-! ## Values -/

/-- The values of the columns and of the predicates over them, where `none` is NULL. -/
structure Assignment (α V : Type) where
  value : Operand α → Option V
  truth : Operand α → Truth

variable {α V : Type} [LinearOrder V]

/-- A comparison of two values, where `none` is NULL. -/
def compareValues (type : ComparisonType) (l r : Option V) : Truth :=
  match type, l, r with
  | .compareDistinctFrom, l, r => .ofBool (l != r)
  | .compareNotDistinctFrom, l, r => .ofBool (l == r)
  | .compareEqual, some l, some r => .ofBool (l == r)
  | .compareNotEqual, some l, some r => .ofBool (l != r)
  | .compareLessThan, some l, some r => .ofBool (l < r)
  | .compareGreaterThan, some l, some r => .ofBool (r < l)
  | .compareLessThanOrEqualTo, some l, some r => .ofBool (l ≤ r)
  | .compareGreaterThanOrEqualTo, some l, some r => .ofBool (r ≤ l)
  | _, _, _ => .null

/-- The value of a leaf. -/
def Leaf.eval (ρ : Assignment α V) : Leaf α → Truth
  | .comparison type left right => compareValues type (ρ.value left) (ρ.value right)
  | .isNull child => .ofBool (ρ.value child).isNone
  | .other operand => ρ.truth operand

namespace Condition

/-- The value of a condition. -/
def eval (ρ : Assignment α V) : Condition α → Truth :=
  fold (Leaf.eval ρ) fun
    | .and, values => values.inf
    | .or, values => values.sup

variable (ρ : Assignment α V)

theorem eval_congr [DecidableEq α] {e e' : Condition α} (h : equals e e' = true) : eval ρ e = eval ρ e' :=
  fold_congr _ _ h

/-- The value of the conjunction of the operands. -/
def evalAll (es : List (Condition α)) : Truth := (es.map (eval ρ) : Multiset Truth).inf

theorem evalAll_append (es es' : List (Condition α)) : evalAll ρ (es ++ es') = evalAll ρ es ⊓ evalAll ρ es' := by
  unfold evalAll
  rw [map_append, ← Multiset.coe_add, Multiset.inf_add]

theorem evalAll_perm {es es' : List (Condition α)} (h : es.Perm es') : evalAll ρ es = evalAll ρ es' := by
  unfold evalAll
  rw [Multiset.coe_eq_coe.mpr (h.map _)]

/-- The value of the disjunction of the operands. -/
def evalAny (es : List (Condition α)) : Truth := (es.map (eval ρ) : Multiset Truth).sup

theorem eval_and (first second : Condition α) (rest : List (Condition α)) :
    eval ρ (conjunction .and first second rest) = evalAll ρ (first :: second :: rest) := fold_conjunction ..

theorem eval_or (first second : Condition α) (rest : List (Condition α)) :
    eval ρ (conjunction .or first second rest) = evalAny ρ (first :: second :: rest) := fold_conjunction ..

@[simp] theorem eval_leaf (l : Leaf α) : eval ρ (leaf l) = l.eval ρ := rfl

theorem eval_and_pair (first second : Condition α) :
    eval ρ (conjunction .and first second []) = eval ρ first ⊓ eval ρ second := by
  rw [eval_and]
  simp [evalAll]

theorem eval_or_pair (first second : Condition α) :
    eval ρ (conjunction .or first second []) = eval ρ first ⊔ eval ρ second := by
  rw [eval_or]
  simp [evalAny]

end Condition

end Haybarn.Optimizer
