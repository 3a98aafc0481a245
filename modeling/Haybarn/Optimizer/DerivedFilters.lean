/-
The rules that add filters to the root of a condition: `PredicateFactoringRule`, from `predicate_factoring.cpp`, which
restricts a single column, and `JoinDependentFilterRule`, from `join_dependent_filter.cpp`, which restricts a single
table. Both leave the condition as it is and put the derived filter next to it.
-/
import Haybarn.Optimizer.Distributivity

namespace Haybarn.Optimizer

open Lib Outcome List

def invalidIndex : Nat := 2 ^ 64 - 1

/-- The `LogicalOperatorType`s that the rules tell apart. -/
inductive LogicalOperatorType where
  | logicalFilter
  | logicalAnyJoin
  | other
deriving DecidableEq, Repr

/-- The rules apply to the root of a filter or of a join. -/
def LogicalOperatorType.takesFilters (op : LogicalOperatorType) (isRoot : Bool) : Bool :=
  (op == .logicalFilter || op == .logicalAnyJoin) && isRoot

variable {α : Type}

/-! ## Columns -/

/-- The bindings that `ExpressionIterator::VisitExpression` meets in a leaf. -/
def Leaf.columns : Leaf α → List ColumnBinding
  | .comparison _ left right => left.columns ++ right.columns
  | .isNull child => child.columns
  | .other operand => operand.columns

/-- `IsVolatile`, of a leaf. -/
def Leaf.isVolatile : Leaf α → Bool
  | .comparison _ left right => left.volatile || right.volatile
  | .isNull child => child.volatile
  | .other operand => operand.volatile

namespace Condition

mutual

/-- The bindings that `ExpressionIterator::VisitExpression` meets, in order. -/
def columns : Condition α → List ColumnBinding
  | leaf l => l.columns
  | conjunction _ first second rest => columns first ++ (columns second ++ columnsAll rest)

/-- The bindings in the conditions of a list. -/
def columnsAll : List (Condition α) → List ColumnBinding
  | [] => []
  | e :: es => columns e ++ columnsAll es

end

def isVolatile : Condition α → Bool := fold Leaf.isVolatile fun _ children => children.fold (· || ·) false

end Condition

/-- `ColumnBindingIsvalid`. -/
def ColumnBinding.isValid (binding : ColumnBinding) : Bool :=
  binding.tableIndex != invalidIndex && binding.columnIndex != invalidIndex

namespace Condition

/-- The visitor of `GetSingleColumnBinding`, with the binding that was found and whether there are several. -/
def visitColumn (found : ColumnBinding × Bool) (binding : ColumnBinding) : ColumnBinding × Bool :=
  if !found.1.isValid then (binding, found.2)
  else if found.1 != binding then (found.1, true)
  else found

def getSingleColumnBinding (e : Condition α) : Option ColumnBinding :=
  if e.isVolatile then none
  else
    let (binding, foundMultiple) := e.columns.foldl visitColumn (⟨invalidIndex, invalidIndex⟩, false)
    if binding.isValid && !foundMultiple then some binding else none

/-- `GetTableIndices`, in the order in which they are met. -/
def getTableIndices (e : Condition α) : List Nat := (e.columns.map (·.tableIndex)).dedup

/-- `ExpressionReferencesMultipleTables`. -/
def referencesMultipleTables (e : Condition α) : Bool := decide (1 < e.getTableIndices.length)

/-! ## Predicate factoring -/

mutual

/-- `ExtractDisjunctedPredicates`, of the disjuncts of an expression. -/
def disjuncts : Condition α → List (Condition α)
  | conjunction .or first second rest => disjuncts first ++ (disjuncts second ++ disjunctsAll rest)
  | e => [e]

/-- The disjuncts of the expressions of a list. -/
def disjunctsAll : List (Condition α) → List (Condition α)
  | [] => []
  | e :: es => disjuncts e ++ disjunctsAll es

end

/-- `column_binding_map_t<vector<reference<Expression>>>`. -/
abbrev BindingMap (α : Type) := List (ColumnBinding × List (Condition α))

/-- `binding_map[binding].push_back(e)`. -/
def BindingMap.push (binding : ColumnBinding) (e : Condition α) : BindingMap α → BindingMap α
  | [] => [(binding, [e])]
  | (key, predicates) :: map =>
    if key = binding then (key, predicates ++ [e]) :: map else (key, predicates) :: push binding e map

mutual

/-- `ExtractDisjunctedPredicates`, of the predicates of a disjunct, and `ExtractConjunctedPredicates`. -/
def extractPredicates : Condition α → BindingMap α → BindingMap α
  | conjunction .and first second rest, map =>
    extractPredicatesAll rest (extractPredicates second (extractPredicates first map))
  | e, map =>
    match e.getSingleColumnBinding with
    | some binding => map.push binding e
    | none => map

/-- The predicates of the children of a conjunction. -/
def extractPredicatesAll : List (Condition α) → BindingMap α → BindingMap α
  | [], map => map
  | e :: es, map => extractPredicatesAll es (extractPredicates e map)

end

def BindingMap.find (binding : ColumnBinding) (map : BindingMap α) : Option (List (Condition α)) :=
  (map.find? (·.1 = binding)).map (·.2)

section

variable [DecidableEq α]

/-- The predicates that are not there yet are added. -/
def addPredicates (existing new : List (Condition α)) : List (Condition α) :=
  new.foldl (fun existing predicate => if existing.any (equals predicate) then existing else existing ++ [predicate])
    existing

/-- Bindings must appear in both maps. -/
def mergeBindings (remaining child : BindingMap α) : BindingMap α :=
  remaining.filterMap fun entry => (child.find entry.1).map fun predicates => (entry.1, addPredicates entry.2 predicates)

def getDisjunctedPredicateMap (e : Condition α) : Outcome (BindingMap α) :=
  match e.disjuncts with
  | [] => .fault
  | firstChild :: others =>
    .done (others.foldl (fun remaining child => mergeBindings remaining (extractPredicates child []))
      (extractPredicates firstChild []))

end

/-- The disjunction of the predicates of one binding. -/
def columnFilter : List (Condition α) → Outcome (Condition α)
  | [] => .fault
  | predicate :: predicates =>
    .done (predicates.foldl (fun filter predicate => conjunction .or filter predicate []) predicate)

/-- The loop over the bindings. -/
def derivedFilter : BindingMap α → Option (Condition α) → Outcome (Option (Condition α))
  | [], derived => .done derived
  | (_, predicates) :: map, derived => do
    let filter ← columnFilter predicates
    derivedFilter map (some (match derived with
      | none => filter
      | some derived => conjunction .and filter derived []))

/-- `PredicateFactoringRule::Apply`. -/
def factorPredicates [DecidableEq α] (hash : HashOrder) (op : LogicalOperatorType) (isRoot : Bool) (e : Condition α) :
    Outcome (Option (Condition α)) :=
  match e with
  | conjunction .or first second rest =>
    if !op.takesFilters isRoot then .done none
    else if (conjunction .or first second rest).getSingleColumnBinding.isSome then .done none
    else do
      let map ← getDisjunctedPredicateMap (conjunction .or first second rest)
      let derived ← derivedFilter (hash.order map) none
      .done (derived.map fun derived => conjunction .and (conjunction .or first second rest) derived [])
  | _ => .done none

/-! ## Join-dependent filters -/

/-- `unordered_map<idx_t, unique_ptr<Expression>>`. -/
abbrev TableMap (α : Type) := List (Nat × Condition α)

/-- The expression is put next to the one of the table, if there is one. -/
def TableMap.add (table : Nat) (e : Condition α) : TableMap α → TableMap α
  | [] => [(table, e)]
  | (key, present) :: map =>
    if key = table then (key, conjunction .and present e []) :: map else (key, present) :: add table e map

mutual

def extractConjunctedExpressions : Condition α → TableMap α → TableMap α
  | conjunction .and first second rest, map =>
    extractConjunctedExpressionsAll rest
      (extractConjunctedExpressions second (extractConjunctedExpressions first map))
  | e, map =>
    if e.isVolatile then map
    else
      match e.getTableIndices with
      | [table] => map.add table e
      | _ => map

/-- The expressions of the children of a conjunction. -/
def extractConjunctedExpressionsAll : List (Condition α) → TableMap α → TableMap α
  | [], map => map
  | e :: es, map => extractConjunctedExpressionsAll es (extractConjunctedExpressions e map)

end

def TableMap.find (table : Nat) (map : TableMap α) : Option (Condition α) := (map.find? (·.1 = table)).map (·.2)

/-- What the children after the first say about one table, if each of them says something. -/
def findAll (table : Nat) : List (TableMap α) → Option (List (Condition α))
  | [] => some []
  | map :: others => do
    let e ← map.find table
    let es ← findAll table others
    some (e :: es)

/-- The disjunction of what the children say about one table. -/
def tableFilter (others : List (TableMap α)) (entry : Nat × Condition α) : Option (Condition α) :=
  match findAll entry.1 others with
  | none => none
  | some [] => some entry.2
  | some (second :: rest) => some (conjunction .or entry.2 second rest)

/-- `JoinDependentFilterRule::Apply`. -/
def addJoinDependentFilters (hash : HashOrder) (op : LogicalOperatorType) (isRoot : Bool) (e : Condition α) :
    Option (Condition α) :=
  match e with
  | conjunction .or first second rest =>
    if !op.takesFilters isRoot then none
    else if !(first :: second :: rest).any (fun child => match child with
        | conjunction .and .. => child.referencesMultipleTables
        | _ => false) then none
    else
      let tables := (second :: rest).map (extractConjunctedExpressions · [])
      match (hash.order (extractConjunctedExpressions first [])).filterMap (tableFilter tables) with
      | [] => none
      | [derived] => some (conjunction .and (conjunction .or first second rest) derived [])
      | derived :: derived' :: more =>
        some (conjunction .and (conjunction .or first second rest) (conjunction .and derived derived' more) [])
  | _ => none

/-! ## What is derived from a condition that is true -/

variable {V : Type} [LinearOrder V] (ρ : Assignment α V)

/-- The condition is true. -/
def Holds (e : Condition α) : Prop := eval ρ e = .yes

variable {ρ}

theorem holds_and {first second : Condition α} {rest : List (Condition α)} :
    Holds ρ (conjunction .and first second rest) ↔ ∀ e ∈ first :: second :: rest, Holds ρ e := by
  unfold Holds
  rw [eval_and, evalAll, Truth.inf_eq_yes_iff]
  simp

theorem holds_or {first second : Condition α} {rest : List (Condition α)} :
    Holds ρ (conjunction .or first second rest) ↔ ∃ e ∈ first :: second :: rest, Holds ρ e := by
  unfold Holds
  rw [eval_or, evalAny, Truth.sup_eq_yes_iff]
  simp [eq_comm]

variable (ρ) in
/-- The result is the condition with a filter next to it that is true where the condition is. -/
def AddsFilter (e e' : Condition α) : Prop := ∃ derived, e' = conjunction .and e derived [] ∧ (Holds ρ e → Holds ρ derived)

/-! ### Predicate factoring -/

theorem disjunctsAll_eq (es : List (Condition α)) : disjunctsAll es = es.flatMap disjuncts := by
  induction es with
  | nil => rfl
  | cons e es ih => rw [disjunctsAll, ih, flatMap_cons]

theorem disjuncts_or (first second : Condition α) (rest : List (Condition α)) :
    disjuncts (conjunction .or first second rest) = (first :: second :: rest).flatMap disjuncts := by
  rw [disjuncts, disjunctsAll_eq, flatMap_cons, flatMap_cons]

variable {e : Condition α} {map : BindingMap α}

theorem exists_disjunct (h : Holds ρ e) : ∃ d ∈ e.disjuncts, Holds ρ d := by
  induction e using recOnChildren with
  | leaf l => exact ⟨_, mem_singleton_self _, h⟩
  | conjunction type first second rest ih =>
    cases type with
    | and => exact ⟨_, mem_singleton_self _, h⟩
    | or =>
      obtain ⟨child, hmem, hchild⟩ := holds_or.mp h
      obtain ⟨d, hd, hholds⟩ := ih child hmem hchild
      rw [disjuncts_or]
      exact ⟨d, mem_flatMap.mpr ⟨child, hmem, hd⟩, hholds⟩

variable (ρ) in
/-- All predicates of the map are true. -/
def BindingMap.AllHold (map : BindingMap α) : Prop := ∀ entry ∈ map, ∀ p ∈ entry.2, Holds ρ p

variable (ρ) in
/-- For each binding one of the predicates is true. -/
def BindingMap.SomeHold (map : BindingMap α) : Prop := ∀ entry ∈ map, ∃ p ∈ entry.2, Holds ρ p

/-- No binding comes without a predicate. -/
def BindingMap.Filled (map : BindingMap α) : Prop := ∀ entry ∈ map, entry.2 ≠ []

theorem BindingMap.AllHold.someHold (h : map.AllHold ρ) (hfilled : map.Filled) :
    map.SomeHold ρ := by
  intro entry hentry
  obtain ⟨p, hp⟩ := exists_mem_of_ne_nil _ (hfilled entry hentry)
  exact ⟨p, hp, h entry hentry p hp⟩

theorem BindingMap.forall_push {P : Condition α → Prop} {binding : ColumnBinding}
    (he : P e) (h : ∀ entry ∈ map, ∀ p ∈ entry.2, P p) :
    ∀ entry ∈ map.push binding e, ∀ p ∈ entry.2, P p := by
  induction map with
  | nil => simpa [push] using he
  | cons entry map ih =>
    rw [forall_mem_cons] at h
    unfold push
    split
    next =>
      rw [forall_mem_cons]
      refine ⟨fun p hp => ?_, h.2⟩
      rcases mem_append.mp hp with hp | hp
      · exact h.1 p hp
      · rwa [mem_singleton.mp hp]
    next => exact forall_mem_cons.mpr ⟨h.1, ih h.2⟩

theorem BindingMap.Filled.push (h : map.Filled) (binding : ColumnBinding) (e : Condition α) :
    (map.push binding e).Filled := by
  induction map with
  | nil => simp [Filled, BindingMap.push]
  | cons entry map ih =>
    unfold Filled at *
    rw [forall_mem_cons] at h
    unfold BindingMap.push
    split
    next => exact forall_mem_cons.mpr ⟨by simp, h.2⟩
    next => exact forall_mem_cons.mpr ⟨h.1, ih h.2⟩

theorem extractPredicatesAll_eq (es : List (Condition α)) (map : BindingMap α) :
    extractPredicatesAll es map = es.foldl (fun map e => extractPredicates e map) map := by
  induction es generalizing map with
  | nil => rfl
  | cons e es ih => rw [extractPredicatesAll, ih, foldl_cons]

theorem extractPredicates_and (first second : Condition α) (rest : List (Condition α)) (map : BindingMap α) :
    extractPredicates (conjunction .and first second rest) map
      = (first :: second :: rest).foldl (fun map e => extractPredicates e map) map := by
  rw [extractPredicates, extractPredicatesAll_eq, foldl_cons, foldl_cons]

theorem extractPredicates_filled (e : Condition α) (h : map.Filled) :
    (extractPredicates e map).Filled := by
  induction e using recOnChildren generalizing map with
  | leaf l =>
    unfold extractPredicates
    split
    next => exact h.push _ _
    next => exact h
  | conjunction type first second rest ih =>
    cases type with
    | and =>
      rw [extractPredicates_and]
      exact foldlRecOn _ _ h fun map hmap e he => ih e he hmap
    | or =>
      unfold extractPredicates
      split
      next => exact h.push _ _
      next => exact h

theorem extractPredicates_allHold (he : Holds ρ e) (h : map.AllHold ρ) :
    (extractPredicates e map).AllHold ρ := by
  induction e using recOnChildren generalizing map with
  | leaf l =>
    unfold extractPredicates
    split
    next => exact BindingMap.forall_push he h
    next => exact h
  | conjunction type first second rest ih =>
    cases type with
    | and =>
      rw [extractPredicates_and]
      exact foldlRecOn _ _ h fun map hmap e hmem => ih e hmem (holds_and.mp he e hmem) hmap
    | or =>
      unfold extractPredicates
      split
      next => exact BindingMap.forall_push he h
      next => exact h

section

variable [DecidableEq α]

/-- The predicates that are added are there up to `Equals`, and the others stay. -/
theorem addPredicates_spec (new existing : List (Condition α)) :
    (∀ p ∈ existing, p ∈ addPredicates existing new) ∧
      ∀ p ∈ new, ∃ p' ∈ addPredicates existing new, equals p p' = true := by
  induction new generalizing existing with
  | nil => exact ⟨fun _ h => h, by simp⟩
  | cons predicate new ih =>
    unfold addPredicates at *
    rw [foldl_cons]
    split
    next hfound =>
      obtain ⟨hstay, hadded⟩ := ih existing
      refine ⟨hstay, forall_mem_cons.mpr ⟨?_, hadded⟩⟩
      obtain ⟨p', hp', hequals⟩ := any_eq_true.mp hfound
      exact ⟨p', hstay p' hp', hequals⟩
    next =>
      obtain ⟨hstay, hadded⟩ := ih (existing ++ [predicate])
      exact ⟨fun p hp => hstay p (mem_append_left _ hp),
        forall_mem_cons.mpr ⟨⟨predicate, hstay _ (by simp), equals_refl _⟩, hadded⟩⟩

variable {remaining : BindingMap α}

theorem mem_mergeBindings {child : BindingMap α} {entry : ColumnBinding × List (Condition α)}
    (h : entry ∈ mergeBindings remaining child) : ∃ kept ∈ remaining, ∃ found ∈ child,
      entry.2 = addPredicates kept.2 found.2 := by
  obtain ⟨kept, hkept, hmap⟩ := mem_filterMap.mp h
  obtain ⟨predicates, hfind, rfl⟩ := Option.map_eq_some_iff.mp hmap
  obtain ⟨found, hfound, rfl⟩ := Option.map_eq_some_iff.mp hfind
  exact ⟨kept, hkept, found, mem_of_find?_eq_some hfound, rfl⟩

theorem mergeBindings_filled (child : BindingMap α) (h : remaining.Filled) :
    (mergeBindings remaining child).Filled := by
  intro entry hentry
  obtain ⟨kept, hkept, found, -, hadd⟩ := mem_mergeBindings hentry
  obtain ⟨p, hp⟩ := exists_mem_of_ne_nil _ (h kept hkept)
  rw [hadd]
  exact ne_nil_of_mem ((addPredicates_spec found.2 kept.2).1 p hp)

theorem mergeBindings_someHold {child : BindingMap α} (h : remaining.SomeHold ρ ∨ child.SomeHold ρ) :
    (mergeBindings remaining child).SomeHold ρ := by
  intro entry hentry
  obtain ⟨kept, hkept, found, hfound, hadd⟩ := mem_mergeBindings hentry
  obtain ⟨hstay, hadded⟩ := addPredicates_spec found.2 kept.2
  rw [hadd]
  rcases h with h | h
  · obtain ⟨p, hp, hholds⟩ := h kept hkept
    exact ⟨p, hstay p hp, hholds⟩
  · obtain ⟨p, hp, hholds⟩ := h found hfound
    obtain ⟨p', hp', hequals⟩ := hadded p hp
    exact ⟨p', hp', (eval_congr ρ hequals).symm.trans hholds⟩

theorem foldl_mergeBindings_someHold (others : List (Condition α))
    (h : remaining.SomeHold ρ ∨ ∃ d ∈ others, Holds ρ d) :
    (others.foldl (fun remaining child => mergeBindings remaining (extractPredicates child [])) remaining).SomeHold ρ := by
  induction others generalizing remaining with
  | nil => simpa using h
  | cons child others ih =>
    rw [foldl_cons]
    rcases h with h | ⟨d, hd, hholds⟩
    · exact ih (.inl (mergeBindings_someHold (.inl h)))
    · rcases mem_cons.mp hd with rfl | hd
      · refine ih (.inl (mergeBindings_someHold (.inr ?_)))
        exact (extractPredicates_allHold hholds (by simp [BindingMap.AllHold])).someHold
          (extractPredicates_filled d (by simp [BindingMap.Filled]))
      · exact ih (.inr ⟨d, hd, hholds⟩)

omit [DecidableEq α] in
theorem disjuncts_ne_nil (e : Condition α) : e.disjuncts ≠ [] := by
  induction e using recOnChildren with
  | leaf l => simp [disjuncts]
  | conjunction type first second rest ih =>
    cases type with
    | and => simp [disjuncts]
    | or => simp [disjuncts, ih first]

/-- The map of a condition that is true has a true predicate for each binding. -/
theorem getDisjunctedPredicateMap_spec (e : Condition α) :
    (getDisjunctedPredicateMap e).Returns fun map => map.Filled ∧ (Holds ρ e → map.SomeHold ρ) := by
  unfold getDisjunctedPredicateMap
  have hdisjunct : Holds ρ e → ∃ d ∈ e.disjuncts, Holds ρ d := exists_disjunct
  have hne := disjuncts_ne_nil e
  cases hd : e.disjuncts with
  | nil => exact absurd hd hne
  | cons firstChild others =>
    rw [hd] at hdisjunct
    have hfirst := extractPredicates_filled firstChild (show BindingMap.Filled [] by simp [BindingMap.Filled])
    refine returns_done ⟨?_, fun h => foldl_mergeBindings_someHold others ?_⟩
    · exact foldlRecOn _ _ hfirst fun map hmap child _ => mergeBindings_filled _ hmap
    · obtain ⟨d, hmem, hholds⟩ := hdisjunct h
      rcases mem_cons.mp hmem with rfl | hmem
      · exact .inl ((extractPredicates_allHold hholds (by simp [BindingMap.AllHold])).someHold hfirst)
      · exact .inr ⟨d, hmem, hholds⟩

end

theorem columnFilter_spec {predicates : List (Condition α)} (h : predicates ≠ []) :
    (columnFilter predicates).Returns fun filter => (∃ p ∈ predicates, Holds ρ p) → Holds ρ filter := by
  cases predicates with
  | nil => exact absurd rfl h
  | cons first predicates =>
    refine returns_done ?_
    clear h
    induction predicates generalizing first with
    | nil => simp
    | cons second predicates ih =>
      rintro ⟨p, hp, hholds⟩
      refine ih (conjunction .or first second []) ?_
      rcases mem_cons.mp hp with rfl | hp
      · exact ⟨_, mem_cons_self, holds_or.mpr ⟨p, by simp, hholds⟩⟩
      · rcases mem_cons.mp hp with rfl | hp
        · exact ⟨_, mem_cons_self, holds_or.mpr ⟨p, by simp, hholds⟩⟩
        · exact ⟨p, by simp [hp], hholds⟩

theorem derivedFilter_spec (hfilled : map.Filled) (derived : Option (Condition α)) :
    (derivedFilter map derived).Returns fun result =>
      map.SomeHold ρ → (∀ e ∈ derived, Holds ρ e) → ∀ e ∈ result, Holds ρ e := by
  induction map generalizing derived with
  | nil => exact returns_done fun _ h => h
  | cons entry map ih =>
    unfold BindingMap.Filled at hfilled
    rw [forall_mem_cons] at hfilled
    refine (columnFilter_spec (ρ := ρ) hfilled.1).bind fun filter hfilter => (ih hfilled.2 _).mono ?_
    intro result hresult hsome hderived
    unfold BindingMap.SomeHold at hsome
    rw [forall_mem_cons] at hsome
    refine hresult hsome.2 ?_
    rintro _ ⟨⟩
    cases derived with
    | none => exact hfilter hsome.1
    | some d => exact holds_and.mpr (by simpa using ⟨hfilter hsome.1, hderived d rfl⟩)

theorem BindingMap.SomeHold.perm {map' : BindingMap α} (h : map.SomeHold ρ) (hperm : map'.Perm map) :
    map'.SomeHold ρ := fun entry hentry => h entry (hperm.mem_iff.mp hentry)

/-- `PredicateFactoringRule` adds a filter that is true where the condition is. -/
theorem factorPredicates_spec [DecidableEq α] (hash : HashOrder) (op : LogicalOperatorType) (isRoot : Bool)
    (e : Condition α) : (factorPredicates hash op isRoot e).Returns fun result => ∀ e' ∈ result, AddsFilter ρ e e' := by
  match e with
  | leaf l => exact returns_done (by simp)
  | conjunction .and first second rest => exact returns_done (by simp)
  | conjunction .or first second rest =>
    unfold factorPredicates
    simp only
    split
    next => exact returns_done (by simp)
    next =>
      split
      next => exact returns_done (by simp)
      next =>
        refine (getDisjunctedPredicateMap_spec (ρ := ρ) _).bind ?_
        rintro map ⟨hfilled, hsome⟩
        have hperm := hash.perm map
        have hfilled' : BindingMap.Filled (hash.order map) := fun entry hentry => hfilled entry (hperm.mem_iff.mp hentry)
        refine (derivedFilter_spec (ρ := ρ) hfilled' none).bind fun derived hderived => returns_done ?_
        intro e' he'
        obtain ⟨filter, rfl, rfl⟩ := Option.map_eq_some_iff.mp he'
        exact ⟨filter, rfl, fun h => hderived ((hsome h).perm hperm) (by simp) filter rfl⟩

/-! ### Join-dependent filters -/

variable (ρ) in
/-- What the map says about each table is true. -/
def TableMap.AllHold (map : TableMap α) : Prop := ∀ entry ∈ map, Holds ρ entry.2

variable {map : TableMap α}

theorem TableMap.AllHold.add (h : map.AllHold ρ) (table : Nat) (he : Holds ρ e) :
    (map.add table e).AllHold ρ := by
  induction map with
  | nil => simpa [AllHold, TableMap.add] using he
  | cons entry map ih =>
    unfold AllHold at *
    rw [forall_mem_cons] at h
    unfold TableMap.add
    split
    next => exact forall_mem_cons.mpr ⟨holds_and.mpr (by simpa using ⟨h.1, he⟩), h.2⟩
    next => exact forall_mem_cons.mpr ⟨h.1, ih h.2⟩

theorem extractConjunctedExpressionsAll_eq (es : List (Condition α)) (map : TableMap α) :
    extractConjunctedExpressionsAll es map = es.foldl (fun map e => extractConjunctedExpressions e map) map := by
  induction es generalizing map with
  | nil => rfl
  | cons e es ih => rw [extractConjunctedExpressionsAll, ih, foldl_cons]

theorem extractConjunctedExpressions_and (first second : Condition α) (rest : List (Condition α)) (map : TableMap α) :
    extractConjunctedExpressions (conjunction .and first second rest) map
      = (first :: second :: rest).foldl (fun map e => extractConjunctedExpressions e map) map := by
  rw [extractConjunctedExpressions, extractConjunctedExpressionsAll_eq, foldl_cons, foldl_cons]

theorem extractConjunctedExpressions_allHold (he : Holds ρ e)
    (h : map.AllHold ρ) : (extractConjunctedExpressions e map).AllHold ρ := by
  induction e using recOnChildren generalizing map with
  | leaf l =>
    unfold extractConjunctedExpressions
    split
    next => exact h
    next =>
      split
      next => exact h.add _ he
      next => exact h
  | conjunction type first second rest ih =>
    cases type with
    | and =>
      rw [extractConjunctedExpressions_and]
      exact foldlRecOn _ _ h fun map hmap e hmem => ih e hmem (holds_and.mp he e hmem) hmap
    | or =>
      unfold extractConjunctedExpressions
      split
      next => exact h
      next =>
        split
        next => exact h.add _ he
        next => exact h

theorem TableMap.find_holds (h : map.AllHold ρ) {table : Nat}
    (he : map.find table = some e) : Holds ρ e := by
  obtain ⟨entry, hentry, rfl⟩ := Option.map_eq_some_iff.mp he
  exact h entry (mem_of_find?_eq_some hentry)

theorem findAll_spec {others : List (TableMap α)} {table : Nat} {es : List (Condition α)}
    (h : findAll table others = some es) : ∀ map ∈ others, ∃ e ∈ es, map.find table = some e := by
  induction others generalizing es with
  | nil => simp
  | cons map others ih =>
    obtain ⟨e, he, h⟩ := Option.bind_eq_some_iff.mp h
    obtain ⟨es', hes, h⟩ := Option.bind_eq_some_iff.mp h
    cases h
    refine forall_mem_cons.mpr ⟨⟨e, mem_cons_self, he⟩, fun map hmap => ?_⟩
    obtain ⟨e', he', hfind⟩ := ih hes map hmap
    exact ⟨e', mem_cons_of_mem _ he', hfind⟩

theorem tableFilter_holds {others : List (TableMap α)} {entry : Nat × Condition α} {filter : Condition α}
    (hfilter : tableFilter others entry = some filter)
    (h : Holds ρ entry.2 ∨ ∃ map ∈ others, map.AllHold ρ) : Holds ρ filter := by
  have hoperand : ∀ es, findAll entry.1 others = some es → ∃ e ∈ entry.2 :: es, Holds ρ e := by
    intro es hes
    rcases h with h | ⟨map, hmap, hall⟩
    · exact ⟨_, mem_cons_self, h⟩
    · obtain ⟨e, he, hfind⟩ := findAll_spec hes map hmap
      exact ⟨e, mem_cons_of_mem _ he, TableMap.find_holds hall hfind⟩
  unfold tableFilter at hfilter
  split at hfilter
  next => cases hfilter
  next hes =>
    cases hfilter
    simpa using hoperand _ hes
  next second rest hes =>
    cases hfilter
    exact holds_or.mpr (hoperand _ hes)

/-- `JoinDependentFilterRule` adds a filter that is true where the condition is. -/
theorem addJoinDependentFilters_spec (hash : HashOrder) (op : LogicalOperatorType) (isRoot : Bool) (e : Condition α) :
    ∀ e' ∈ addJoinDependentFilters hash op isRoot e, AddsFilter ρ e e' := by
  match e with
  | leaf l => simp [addJoinDependentFilters]
  | conjunction .and first second rest => simp [addJoinDependentFilters]
  | conjunction .or first second rest =>
    intro e' he'
    unfold addJoinDependentFilters at he'
    simp only at he'
    split at he'
    next => cases he'
    next =>
      split at he'
      next => cases he'
      next =>
        have hderived : Holds ρ (conjunction .or first second rest) →
            ∀ filter ∈ (hash.order (extractConjunctedExpressions first [])).filterMap
              (tableFilter ((second :: rest).map (extractConjunctedExpressions · []))), Holds ρ filter := by
          intro h filter hfilter
          obtain ⟨entry, hentry, hsome⟩ := mem_filterMap.mp hfilter
          refine tableFilter_holds hsome ?_
          obtain ⟨child, hmem, hchild⟩ := holds_or.mp h
          have hall := extractConjunctedExpressions_allHold hchild (show TableMap.AllHold ρ [] by simp [TableMap.AllHold])
          rcases mem_cons.mp hmem with rfl | hmem
          · exact .inl (hall entry ((hash.perm _).mem_iff.mp hentry))
          · exact .inr ⟨_, mem_map_of_mem hmem, hall⟩
        generalize (hash.order (extractConjunctedExpressions first [])).filterMap
          (tableFilter ((second :: rest).map (extractConjunctedExpressions · []))) = filters at he' hderived
        match filters with
        | [] => cases he'
        | [derived] =>
          cases he'
          exact ⟨derived, rfl, fun h => hderived h derived (by simp)⟩
        | derived :: derived' :: more =>
          cases he'
          exact ⟨_, rfl, fun h => holds_and.mpr (hderived h)⟩

end Condition

end Haybarn.Optimizer
