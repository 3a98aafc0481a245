/-
Table filters and what the statistics of a column say about them. A filter is a tree of comparisons
with constants, IN lists and NULL tests; from the statistics `CheckStatistics` answers that no row
satisfies it, that all do, or that it cannot tell. What the minimum and maximum tell of a comparison is
left to the kind of statistics.
-/
import Mathlib.Order.Defs.LinearOrder
import Mathlib.Order.Lattice

namespace Haybarn.Zonemap

/-! ## Filters -/

/-- The comparison types of a pushed down comparison. -/
inductive ExpressionType where
  | equal
  | notEqual
  | lessThan
  | greaterThan
  | lessThanOrEqualTo
  | greaterThanOrEqualTo
  | distinctFrom
  | notDistinctFrom
  deriving Repr, DecidableEq

inductive FilterPropagateResult where
  | noPruningPossible
  | filterAlwaysTrue
  | filterAlwaysFalse
  deriving Repr, DecidableEq

/-- A filter on a column with values of type `α`. The constants are not NULL. -/
inductive TableFilter (α : Type) where
  | constantFilter (comparisonType : ExpressionType) (constant : α)
  | inFilter (values : List α)
  | isNullFilter
  | isNotNullFilter
  | conjunctionAndFilter (childFilters : List (TableFilter α))
  | conjunctionOrFilter (childFilters : List (TableFilter α))
  | optionalFilter (childFilter : TableFilter α)

/-! ## What a filter means -/

section Meaning

variable {α : Type} [LinearOrder α]

/-- The comparison of a value that is not NULL with the constant. -/
def ExpressionType.Holds (comparisonType : ExpressionType) (value constant : α) : Prop :=
  match comparisonType with
  | .equal | .notDistinctFrom => value = constant
  | .notEqual | .distinctFrom => value ≠ constant
  | .lessThan => value < constant
  | .greaterThan => constant < value
  | .lessThanOrEqualTo => value ≤ constant
  | .greaterThanOrEqualTo => constant ≤ value

instance (comparisonType : ExpressionType) (value constant : α) : Decidable (comparisonType.Holds value constant) := by
  cases comparisonType <;> simp only [ExpressionType.Holds] <;> infer_instance

/-- The comparison in SQL, where NULL is not distinct from NULL only and every other comparison with
it is NULL. -/
def ExpressionType.eval (comparisonType : ExpressionType) (row : Option α) (constant : α) : Option Bool :=
  match row, comparisonType with
  | some value, _ => some (comparisonType.Holds value constant)
  | none, .distinctFrom => some true
  | none, .notDistinctFrom => some false
  | none, _ => none

/-- AND and OR of SQL. -/
def sqlAnd : Option Bool → Option Bool → Option Bool
  | some false, _ | _, some false => some false
  | some true, some true => some true
  | _, _ => none

def sqlOr : Option Bool → Option Bool → Option Bool
  | some true, _ | _, some true => some true
  | some false, some false => some false
  | _, _ => none

mutual

/-- The value of the filter's expression in a row. -/
def TableFilter.eval (row : Option α) : TableFilter α → Option Bool
  | .constantFilter comparisonType constant => comparisonType.eval row constant
  | .inFilter values => row.map (· ∈ values)
  | .isNullFilter => some row.isNone
  | .isNotNullFilter => some row.isSome
  | .conjunctionAndFilter childFilters => evalAnd row childFilters
  | .conjunctionOrFilter childFilters => evalOr row childFilters
  | .optionalFilter childFilter => childFilter.eval row

def evalAnd (row : Option α) : List (TableFilter α) → Option Bool
  | [] => some true
  | f :: fs => sqlAnd (f.eval row) (evalAnd row fs)

def evalOr (row : Option α) : List (TableFilter α) → Option Bool
  | [] => some false
  | f :: fs => sqlOr (f.eval row) (evalOr row fs)

end

/-- The row satisfies the filter. -/
def TableFilter.Satisfies (f : TableFilter α) (row : Option α) : Prop := f.eval row = some true

instance (f : TableFilter α) (row : Option α) : Decidable (f.Satisfies row) := inferInstanceAs (Decidable (_ = _))

theorem sqlAnd_eq_true {a b : Option Bool} : sqlAnd a b = some true ↔ a = some true ∧ b = some true := by
  rcases a with _ | _ | _ <;> rcases b with _ | _ | _ <;> decide

theorem sqlOr_eq_true {a b : Option Bool} : sqlOr a b = some true ↔ a = some true ∨ b = some true := by
  rcases a with _ | _ | _ <;> rcases b with _ | _ | _ <;> decide

variable {row : Option α}

theorem evalAnd_eq_true : ∀ {fs : List (TableFilter α)}, evalAnd row fs = some true ↔ ∀ f ∈ fs, f.Satisfies row
  | [] => iff_of_true rfl (List.forall_mem_nil _)
  | f :: fs => by
    change sqlAnd (f.eval row) (evalAnd row fs) = some true ↔ _
    rw [sqlAnd_eq_true, evalAnd_eq_true, List.forall_mem_cons]
    rfl

theorem evalOr_eq_true : ∀ {fs : List (TableFilter α)}, evalOr row fs = some true ↔ ∃ f ∈ fs, f.Satisfies row
  | [] => iff_of_false nofun (by simp)
  | f :: fs => by
    change sqlOr (f.eval row) (evalOr row fs) = some true ↔ _
    rw [sqlOr_eq_true, evalOr_eq_true]
    simp [TableFilter.Satisfies]

theorem satisfies_and {fs : List (TableFilter α)} :
    (TableFilter.conjunctionAndFilter fs).Satisfies row ↔ ∀ f ∈ fs, f.Satisfies row := evalAnd_eq_true

theorem satisfies_or {fs : List (TableFilter α)} :
    (TableFilter.conjunctionOrFilter fs).Satisfies row ↔ ∃ f ∈ fs, f.Satisfies row := evalOr_eq_true

theorem satisfies_constant {comparisonType : ExpressionType} {value constant : α} :
    (TableFilter.constantFilter comparisonType constant).Satisfies (some value) ↔
      comparisonType.Holds value constant := by
  change some (decide (comparisonType.Holds value constant)) = some true ↔ _
  simp

theorem satisfies_constant_none {comparisonType : ExpressionType} {constant : α} :
    (TableFilter.constantFilter comparisonType constant).Satisfies none ↔ comparisonType = .distinctFrom := by
  change comparisonType.eval none constant = some true ↔ _
  cases comparisonType <;> simp [ExpressionType.eval]

theorem satisfies_in {values : List α} : (TableFilter.inFilter values).Satisfies row ↔ ∃ v ∈ values, row = some v := by
  change row.map (fun v => decide (v ∈ values)) = some true ↔ _
  cases row <;> simp

theorem satisfies_isNull : (TableFilter.isNullFilter (α := α)).Satisfies row ↔ row = none := by
  change some row.isNone = some true ↔ _
  cases row <;> simp

theorem satisfies_isNotNull : (TableFilter.isNotNullFilter (α := α)).Satisfies row ↔ row ≠ none := by
  change some row.isSome = some true ↔ _
  cases row <;> simp

end Meaning

/-! ## Statistics -/

/-- A kind of statistics for a column with values of type `α`: the minimum and maximum, how they are
kept up, and `CheckZonemap` for one comparison with a list of constants. `Bounds` says which values
they leave room for, `exactRange` that this is just one. -/
class MinMaxStats (σ : Type) (α : outParam Type) [LinearOrder α] where
  createEmpty : σ
  createUnknown : σ
  update : σ → α → σ
  merge : σ → σ → σ
  checkZonemap : σ → ExpressionType → List α → FilterPropagateResult
  Bounds : σ → α → Prop
  ExactRange : σ → α → Prop
  bounds_unknown (value : α) : Bounds createUnknown value
  bounds_update (data : σ) (value : α) : Bounds (update data value) value
  bounds_update_of (data : σ) (value value' : α) : Bounds data value' → Bounds (update data value) value'
  bounds_merge_left (data other : σ) (value : α) : Bounds data value → Bounds (merge data other) value
  bounds_merge_right (data other : σ) (value : α) : Bounds other value → Bounds (merge data other) value
  /-- No value in the bounds compares so with any of the constants. -/
  not_holds_of_alwaysFalse {data : σ} {comparisonType : ExpressionType} {constants : List α} {value : α} :
    checkZonemap data comparisonType constants = .filterAlwaysFalse → Bounds data value →
      ∀ constant ∈ constants, ¬ comparisonType.Holds value constant
  /-- Every value in the bounds compares so with one of the constants. -/
  holds_of_alwaysTrue {data : σ} {comparisonType : ExpressionType} {constants : List α} {value : α} :
    checkZonemap data comparisonType constants = .filterAlwaysTrue → Bounds data value →
      ∃ constant ∈ constants, comparisonType.Holds value constant
  distinctFrom_alwaysFalse_iff {data : σ} {constant : α} :
    checkZonemap data .distinctFrom [constant] = .filterAlwaysFalse ↔ ExactRange data constant
  equal_alwaysTrue_iff {data : σ} {constants : List α} :
    checkZonemap data .equal constants = .filterAlwaysTrue ↔ ∃ constant ∈ constants, ExactRange data constant

section Statistics

variable (σ : Type) {α : Type} [LinearOrder α] [MinMaxStats σ α]

/-- Whether there can be rows that are NULL and rows that are not, and the data about the latter. -/
structure BaseStatistics where
  hasNull : Bool
  hasNoNull : Bool
  data : σ
  deriving Repr, DecidableEq

namespace BaseStatistics

def createEmpty : BaseStatistics σ := { hasNull := false, hasNoNull := false, data := MinMaxStats.createEmpty }

def createUnknown : BaseStatistics σ := { hasNull := true, hasNoNull := true, data := MinMaxStats.createUnknown }

variable {σ}

/-- A row that is appended to the column. -/
def update (stats : BaseStatistics σ) (row : Option α) : BaseStatistics σ :=
  match row with
  | none => { stats with hasNull := true }
  | some value => { stats with hasNoNull := true, data := MinMaxStats.update stats.data value }

def merge (stats other : BaseStatistics σ) : BaseStatistics σ where
  hasNull := stats.hasNull || other.hasNull
  hasNoNull := stats.hasNoNull || other.hasNoNull
  data := MinMaxStats.merge stats.data other.data

/-- The statistics leave room for the row. -/
def Allows (stats : BaseStatistics σ) (row : Option α) : Prop :=
  match row with
  | none => stats.hasNull = true
  | some value => stats.hasNoNull = true ∧ MinMaxStats.Bounds stats.data value

/-- The statistics describe the rows. -/
def Describes (stats : BaseStatistics σ) (rows : List (Option α)) : Prop := ∀ row ∈ rows, stats.Allows row

/-! ## Statistics from updates and merges -/

variable (σ) in
/-- How statistics come about, with the rows they have seen. -/
inductive Built : BaseStatistics σ → List (Option α) → Prop
  | empty : Built (createEmpty σ) []
  | unknown (rows : List (Option α)) : Built (createUnknown σ) rows
  | update {stats : BaseStatistics σ} {rows : List (Option α)} (h : Built stats rows) (row : Option α) :
    Built (stats.update row) (row :: rows)
  | merge {stats other : BaseStatistics σ} {rows rows' : List (Option α)} (h : Built stats rows)
    (h' : Built other rows') : Built (stats.merge other) (rows ++ rows')

theorem allows_update_self (stats : BaseStatistics σ) (row : Option α) : (stats.update row).Allows row := by
  cases row with
  | none => rfl
  | some value => exact ⟨rfl, MinMaxStats.bounds_update ..⟩

variable {stats : BaseStatistics σ} {row : Option α}

theorem Allows.update (h : stats.Allows row) (row' : Option α) :
    (stats.update row').Allows row := by
  cases row with
  | none => cases row' <;> simp_all [Allows, BaseStatistics.update]
  | some value =>
    cases row' with
    | none => exact h
    | some value' => exact ⟨rfl, MinMaxStats.bounds_update_of _ _ _ h.2⟩

theorem Allows.merge_left (h : stats.Allows row) (other : BaseStatistics σ) :
    (stats.merge other).Allows row := by
  cases row with
  | none => exact Bool.or_eq_true_iff.2 (.inl h)
  | some value => exact ⟨Bool.or_eq_true_iff.2 (.inl h.1), MinMaxStats.bounds_merge_left _ _ _ h.2⟩

theorem Allows.merge_right {other : BaseStatistics σ} (h : other.Allows row) (stats : BaseStatistics σ) :
    (stats.merge other).Allows row := by
  cases row with
  | none => exact Bool.or_eq_true_iff.2 (.inr h)
  | some value => exact ⟨Bool.or_eq_true_iff.2 (.inr h.1), MinMaxStats.bounds_merge_right _ _ _ h.2⟩

theorem Built.describes {rows : List (Option α)} (h : Built σ stats rows) :
    stats.Describes rows := by
  induction h with
  | empty => exact fun _ h => absurd h List.not_mem_nil
  | unknown rows =>
    rintro (_ | value) -
    · rfl
    · exact ⟨rfl, MinMaxStats.bounds_unknown value⟩
  | update h row ih =>
    rintro row' (_ | ⟨_, hmem⟩)
    · exact allows_update_self _ row
    · exact (ih row' hmem).update row
  | merge h h' ih ih' =>
    intro row hmem
    rcases List.mem_append.1 hmem with hmem | hmem
    · exact (ih row hmem).merge_left _
    · exact (ih' row hmem).merge_right _

end BaseStatistics

end Statistics

/-! ## `CheckStatistics` -/

section Check

variable {σ α : Type} [LinearOrder α] [MinMaxStats σ α] (stats : BaseStatistics σ)

def ConstantFilter.checkStatistics (comparisonType : ExpressionType) (constant : α) : FilterPropagateResult :=
  if !stats.hasNoNull then .filterAlwaysFalse
  else match MinMaxStats.checkZonemap stats.data comparisonType [constant] with
    | .filterAlwaysTrue => if stats.hasNull then .noPruningPossible else .filterAlwaysTrue
    | result => result

/-- The answer of the zone map is passed on, also where there are NULL rows. -/
def InFilter.checkStatistics (values : List α) : FilterPropagateResult :=
  if !stats.hasNoNull then .filterAlwaysFalse else MinMaxStats.checkZonemap stats.data .equal values

mutual

def TableFilter.checkStatistics : TableFilter α → FilterPropagateResult
  | .constantFilter comparisonType constant => ConstantFilter.checkStatistics stats comparisonType constant
  | .inFilter values => InFilter.checkStatistics stats values
  | .isNullFilter =>
    if !stats.hasNull then .filterAlwaysFalse
    else if !stats.hasNoNull then .filterAlwaysTrue
    else .noPruningPossible
  | .isNotNullFilter =>
    if !stats.hasNoNull then .filterAlwaysFalse
    else if !stats.hasNull then .filterAlwaysTrue
    else .noPruningPossible
  | .conjunctionAndFilter childFilters => checkAnd childFilters .filterAlwaysTrue
  | .conjunctionOrFilter childFilters => checkOr childFilters
  | .optionalFilter childFilter => childFilter.checkStatistics

def checkAnd : List (TableFilter α) → FilterPropagateResult → FilterPropagateResult
  | [], result => result
  | f :: fs, result => match f.checkStatistics with
    | .filterAlwaysFalse => .filterAlwaysFalse
    | pruneResult => checkAnd fs (if pruneResult ≠ result then .noPruningPossible else result)

def checkOr : List (TableFilter α) → FilterPropagateResult
  | [] => .filterAlwaysFalse
  | f :: fs => match f.checkStatistics with
    | .noPruningPossible => .noPruningPossible
    | .filterAlwaysTrue => .filterAlwaysTrue
    | .filterAlwaysFalse => checkOr fs

end

theorem checkStatistics_constantFilter (comparisonType : ExpressionType) (constant : α) :
    (TableFilter.constantFilter comparisonType constant).checkStatistics stats =
      ConstantFilter.checkStatistics stats comparisonType constant := rfl

theorem checkStatistics_inFilter (values : List α) :
    (TableFilter.inFilter values).checkStatistics stats = InFilter.checkStatistics stats values := rfl

end Check

end Haybarn.Zonemap
