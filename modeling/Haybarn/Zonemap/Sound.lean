/-
What `CheckStatistics` answers of a filter is right for every row that is not NULL. For NULL rows it is
right but in two places: a comparison IS DISTINCT FROM is said to be false for all rows where it is for
those that are not NULL, and an IN list to be true for all rows where it is for those. Whether that shows
in the answer of a larger filter depends on the filters next to it.
-/
import Haybarn.Zonemap.Stats

namespace Haybarn.Zonemap

open List

/-! ## Sound answers -/

section Sound

variable {σ α : Type} [LinearOrder α] [MinMaxStats σ α]

/-- The answer is right for all rows that the statistics may describe. -/
def Answers (stats : BaseStatistics σ) (f : TableFilter α) : Prop :=
  ∀ rows, stats.Describes rows →
    (f.checkStatistics stats = .filterAlwaysFalse → ∀ row ∈ rows, ¬ f.Satisfies row) ∧
    (f.checkStatistics stats = .filterAlwaysTrue → ∀ row ∈ rows, f.Satisfies row)

/-- The statistics leave no row that is not NULL and satisfies the filter. -/
inductive Refuted (stats : BaseStatistics σ) : TableFilter α → Prop
  | constant {comparisonType : ExpressionType} {constant : α} (h : stats.hasNoNull = false ∨
      MinMaxStats.checkZonemap stats.data comparisonType [constant] = .filterAlwaysFalse) :
    Refuted stats (.constantFilter comparisonType constant)
  | inList {values : List α} (h : stats.hasNoNull = false ∨
      MinMaxStats.checkZonemap stats.data .equal values = .filterAlwaysFalse) : Refuted stats (.inFilter values)
  | isNull (h : stats.hasNull = false) : Refuted stats .isNullFilter
  | isNotNull (h : stats.hasNoNull = false) : Refuted stats .isNotNullFilter
  | and {f : TableFilter α} {fs : List (TableFilter α)} (hmem : f ∈ fs) (h : Refuted stats f) :
    Refuted stats (.conjunctionAndFilter fs)
  | or {fs : List (TableFilter α)} (h : ∀ f ∈ fs, Refuted stats f) : Refuted stats (.conjunctionOrFilter fs)
  | optional {f : TableFilter α} (h : Refuted stats f) : Refuted stats (.optionalFilter f)

/-- All rows that are not NULL satisfy the filter. -/
inductive Affirmed (stats : BaseStatistics σ) : TableFilter α → Prop
  | constant {comparisonType : ExpressionType} {constant : α} (hnull : stats.hasNull = false)
      (h : MinMaxStats.checkZonemap stats.data comparisonType [constant] = .filterAlwaysTrue) :
    Affirmed stats (.constantFilter comparisonType constant)
  | inList {v : α} {values : List α} (hvalue : stats.hasNoNull = true) (hmem : v ∈ values)
      (h : MinMaxStats.ExactRange stats.data v) : Affirmed stats (.inFilter values)
  | isNull (hnull : stats.hasNull = true) (h : stats.hasNoNull = false) : Affirmed stats .isNullFilter
  | isNotNull (h : stats.hasNull = false) : Affirmed stats .isNotNullFilter
  | and {fs : List (TableFilter α)} (h : ∀ f ∈ fs, Affirmed stats f) : Affirmed stats (.conjunctionAndFilter fs)
  | or {before after : List (TableFilter α)} {f : TableFilter α} (hbefore : ∀ g ∈ before, Refuted stats g)
      (h : Affirmed stats f) : Affirmed stats (.conjunctionOrFilter (before ++ f :: after))
  | optional {f : TableFilter α} (h : Affirmed stats f) : Affirmed stats (.optionalFilter f)

/-- NULL rows satisfy the filter, but are dropped: there is a comparison IS DISTINCT FROM the only possible value, or from
any value where there is none, and no filter next to it hides that. -/
inductive DropsNull (stats : BaseStatistics σ) : TableFilter α → Prop
  | distinct {constant : α} (h : stats.hasNoNull = false ∨ MinMaxStats.ExactRange stats.data constant) :
    DropsNull stats (.constantFilter .distinctFrom constant)
  | and {f : TableFilter α} {fs : List (TableFilter α)} (hmem : f ∈ fs) (h : DropsNull stats f)
      (hothers : ∀ g ∈ fs, g.Satisfies none) : DropsNull stats (.conjunctionAndFilter fs)
  | or {f : TableFilter α} {fs : List (TableFilter α)} (hmem : f ∈ fs) (h : DropsNull stats f)
      (hothers : ∀ g ∈ fs, Refuted stats g) : DropsNull stats (.conjunctionOrFilter fs)
  | optional {f : TableFilter α} (h : DropsNull stats f) : DropsNull stats (.optionalFilter f)

/-- NULL rows do not satisfy the filter, but are kept: there is an IN list with the only possible value, and no filter next
to it hides that. -/
inductive KeepsNull (stats : BaseStatistics σ) : TableFilter α → Prop
  | inList {v : α} {values : List α} (hvalue : stats.hasNoNull = true) (hmem : v ∈ values)
      (h : MinMaxStats.ExactRange stats.data v) : KeepsNull stats (.inFilter values)
  | and {f : TableFilter α} {fs : List (TableFilter α)} (hmem : f ∈ fs) (h : KeepsNull stats f)
      (hothers : ∀ g ∈ fs, Affirmed stats g) : KeepsNull stats (.conjunctionAndFilter fs)
  | or {before after : List (TableFilter α)} {f : TableFilter α} (hbefore : ∀ g ∈ before, Refuted stats g)
      (h : KeepsNull stats f) (hothers : ∀ g ∈ before ++ f :: after, ¬ g.Satisfies none) :
    KeepsNull stats (.conjunctionOrFilter (before ++ f :: after))
  | optional {f : TableFilter α} (h : KeepsNull stats f) : KeepsNull stats (.optionalFilter f)

/-- The NULL rows are taken care of: there are none, or no fault about them shows in the answer. -/
def NullHandled (stats : BaseStatistics σ) (f : TableFilter α) : Prop :=
  stats.hasNull = false ∨ ¬ DropsNull stats f ∧ ¬ KeepsNull stats f

/-! ## The answers -/

variable {stats : BaseStatistics σ} {f : TableFilter α} {row : Option α} {value : α}

theorem alwaysTrue_ne_alwaysFalse : FilterPropagateResult.filterAlwaysTrue ≠ .filterAlwaysFalse := by decide

theorem checkAnd_alwaysFalse_iff : ∀ {fs : List (TableFilter α)} {result : FilterPropagateResult},
    result ≠ .filterAlwaysFalse →
      (checkAnd stats fs result = .filterAlwaysFalse ↔ ∃ f ∈ fs, f.checkStatistics stats = .filterAlwaysFalse)
  | [], result, hr => by simp [checkAnd, hr]
  | f :: fs, result, hr => by
    have ih : ∀ r, r ≠ FilterPropagateResult.filterAlwaysFalse → (checkAnd stats fs r = .filterAlwaysFalse ↔ _) :=
      fun _ hr => checkAnd_alwaysFalse_iff hr
    rw [checkAnd, exists_mem_cons_iff]
    cases hc : f.checkStatistics stats with
    | filterAlwaysFalse => simp
    | noPruningPossible | filterAlwaysTrue =>
      dsimp only
      rw [ih _ (by split <;> simp [hr])]
      simp

theorem checkAnd_alwaysTrue_iff : ∀ {fs : List (TableFilter α)} {result : FilterPropagateResult},
    checkAnd stats fs result = .filterAlwaysTrue ↔
      result = .filterAlwaysTrue ∧ ∀ f ∈ fs, f.checkStatistics stats = .filterAlwaysTrue
  | [], result => by simp [checkAnd]
  | f :: fs, result => by
    rw [checkAnd, forall_mem_cons]
    cases hc : f.checkStatistics stats with
    | filterAlwaysFalse => simp
    | noPruningPossible | filterAlwaysTrue =>
      dsimp only
      rw [checkAnd_alwaysTrue_iff]
      cases result <;> simp

theorem checkOr_alwaysFalse_iff : ∀ {fs : List (TableFilter α)},
    checkOr stats fs = .filterAlwaysFalse ↔ ∀ f ∈ fs, f.checkStatistics stats = .filterAlwaysFalse
  | [] => by simp [checkOr]
  | f :: fs => by
    rw [checkOr, forall_mem_cons, ← checkOr_alwaysFalse_iff]
    cases f.checkStatistics stats <;> simp

theorem checkOr_alwaysTrue_iff : ∀ {fs : List (TableFilter α)}, checkOr stats fs = .filterAlwaysTrue ↔
    ∃ before f after, fs = before ++ f :: after ∧ (∀ g ∈ before, g.checkStatistics stats = .filterAlwaysFalse) ∧
      f.checkStatistics stats = .filterAlwaysTrue
  | [] => by simp [checkOr]
  | f :: fs => by
    rw [checkOr]
    constructor
    · intro h
      cases hc : f.checkStatistics stats with
      | noPruningPossible => simp [hc] at h
      | filterAlwaysTrue => exact ⟨[], f, fs, rfl, forall_mem_nil _, hc⟩
      | filterAlwaysFalse =>
        rw [hc] at h
        obtain ⟨before, g, after, rfl, hbefore, hg⟩ := checkOr_alwaysTrue_iff.1 h
        exact ⟨f :: before, g, after, rfl, forall_mem_cons.2 ⟨hc, hbefore⟩, hg⟩
    · rintro ⟨_ | ⟨g, before⟩, f', after, heq, hbefore, hf⟩
      · obtain ⟨rfl, rfl⟩ := cons.inj heq
        rw [hf]
      · obtain ⟨rfl, rfl⟩ := cons.inj heq
        rw [hbefore f mem_cons_self]
        exact checkOr_alwaysTrue_iff.2 ⟨before, f', after, rfl, fun g hg => hbefore g (mem_cons_of_mem _ hg), hf⟩

theorem inFilter_alwaysTrue_iff {values : List α} :
    (TableFilter.inFilter values).checkStatistics stats = .filterAlwaysTrue ↔
      stats.hasNoNull = true ∧ ∃ v ∈ values, MinMaxStats.ExactRange stats.data v := by
  rw [checkStatistics_inFilter, InFilter.checkStatistics, ← MinMaxStats.equal_alwaysTrue_iff]
  cases stats.hasNoNull <;> simp

theorem Refuted.alwaysFalse (h : Refuted stats f) : f.checkStatistics stats = .filterAlwaysFalse := by
  induction h with
  | @constant comparisonType constant h =>
    rw [checkStatistics_constantFilter, ConstantFilter.checkStatistics]
    rcases h with h | h <;> simp [h]
  | inList h =>
    rw [checkStatistics_inFilter, InFilter.checkStatistics]
    rcases h with h | h <;> simp [h]
  | isNull h => simp [TableFilter.checkStatistics, h]
  | isNotNull h => simp [TableFilter.checkStatistics, h]
  | and hmem _ ih => exact (checkAnd_alwaysFalse_iff alwaysTrue_ne_alwaysFalse).2 ⟨_, hmem, ih⟩
  | or _ ih => exact checkOr_alwaysFalse_iff.2 ih
  | optional _ ih => exact ih

theorem Affirmed.alwaysTrue (h : Affirmed stats f) (hvalue : stats.hasNull = true) :
    f.checkStatistics stats = .filterAlwaysTrue := by
  induction h with
  | constant hnull _ => cases hnull.symm.trans hvalue
  | inList hvalue hmem h => exact inFilter_alwaysTrue_iff.2 ⟨hvalue, _, hmem, h⟩
  | isNull hnull h => simp [TableFilter.checkStatistics, hnull, h]
  | isNotNull h => cases h.symm.trans hvalue
  | and _ ih => exact checkAnd_alwaysTrue_iff.2 ⟨rfl, ih⟩
  | or hbefore _ ih => exact checkOr_alwaysTrue_iff.2 ⟨_, _, _, rfl, fun g hg => (hbefore g hg).alwaysFalse, ih⟩
  | optional _ ih => exact ih

/-- What the answer says of the filter is so of the rows that are not NULL. -/
structure Told (stats : BaseStatistics σ) (f : TableFilter α) : Prop where
  refuted : f.checkStatistics stats = .filterAlwaysFalse → Refuted stats f
  affirmed : f.checkStatistics stats = .filterAlwaysTrue → Affirmed stats f

theorem told_constantFilter (comparisonType : ExpressionType) (constant : α) :
    Told stats (.constantFilter comparisonType constant) := by
  constructor <;> rw [checkStatistics_constantFilter, ConstantFilter.checkStatistics] <;> intro h
  · refine .constant ?_
    cases hv : stats.hasNoNull <;> cases hc : MinMaxStats.checkZonemap stats.data comparisonType [constant] <;>
      cases hn : stats.hasNull <;> simp_all
  · cases hv : stats.hasNoNull <;> cases hc : MinMaxStats.checkZonemap stats.data comparisonType [constant] <;>
      cases hn : stats.hasNull <;> simp_all
    exact .constant hn hc

theorem told_inFilter (values : List α) : Told stats (.inFilter values) := by
  refine ⟨fun h => .inList ?_, fun h => ?_⟩
  · rw [checkStatistics_inFilter, InFilter.checkStatistics] at h
    cases hv : stats.hasNoNull <;> simp_all
  · obtain ⟨hvalue, v, hmem, hexact⟩ := inFilter_alwaysTrue_iff.1 h
    exact .inList hvalue hmem hexact

theorem told_isNull : Told stats (.isNullFilter : TableFilter α) := by
  constructor <;> rw [TableFilter.checkStatistics] <;> intro h
  · refine .isNull ?_
    cases hn : stats.hasNull <;> cases hv : stats.hasNoNull <;> simp_all
  · cases hn : stats.hasNull <;> cases hv : stats.hasNoNull <;> simp_all
    exact .isNull hn hv

theorem told_isNotNull : Told stats (.isNotNullFilter : TableFilter α) := by
  constructor <;> rw [TableFilter.checkStatistics] <;> intro h
  · refine .isNotNull ?_
    cases hn : stats.hasNull <;> cases hv : stats.hasNoNull <;> simp_all
  · refine .isNotNull ?_
    cases hn : stats.hasNull <;> cases hv : stats.hasNoNull <;> simp_all

mutual

theorem TableFilter.told : ∀ f : TableFilter α, Told stats f
  | .constantFilter comparisonType constant => told_constantFilter comparisonType constant
  | .inFilter values => told_inFilter values
  | .isNullFilter => told_isNull
  | .isNotNullFilter => told_isNotNull
  | .conjunctionAndFilter fs => by
    have hfs := told_list fs
    refine ⟨fun h => ?_, fun h => .and fun f hf => (hfs f hf).affirmed ((checkAnd_alwaysTrue_iff.1 h).2 f hf)⟩
    obtain ⟨f, hf, hc⟩ := (checkAnd_alwaysFalse_iff alwaysTrue_ne_alwaysFalse).1 h
    exact .and hf ((hfs f hf).refuted hc)
  | .conjunctionOrFilter fs => by
    have hfs := told_list fs
    refine ⟨fun h => .or fun f hf => (hfs f hf).refuted (checkOr_alwaysFalse_iff.1 h f hf), fun h => ?_⟩
    obtain ⟨before, f, after, rfl, hbefore, hc⟩ := checkOr_alwaysTrue_iff.1 h
    exact .or (fun g hg => (hfs g (mem_append_left _ hg)).refuted (hbefore g hg))
      ((hfs f (mem_append_right _ mem_cons_self)).affirmed hc)
  | .optionalFilter f => ⟨fun h => .optional ((TableFilter.told f).refuted h),
      fun h => .optional ((TableFilter.told f).affirmed h)⟩

theorem told_list : ∀ fs : List (TableFilter α), ∀ f ∈ fs, Told stats f
  | [] => by simp
  | f :: fs => forall_mem_cons.2 ⟨TableFilter.told f, told_list fs⟩

end

/-! ## Rows that are not NULL -/

theorem Refuted.not_satisfies (h : Refuted stats f) (hrow : stats.Allows (some value)) : ¬ f.Satisfies (some value) := by
  induction h with
  | constant h =>
    rw [satisfies_constant]
    rcases h with h | h
    · cases h.symm.trans hrow.1
    · exact MinMaxStats.not_holds_of_alwaysFalse h hrow.2 _ mem_cons_self
  | inList h =>
    rw [satisfies_in]
    rintro ⟨v, hmem, ⟨⟩⟩
    rcases h with h | h
    · cases h.symm.trans hrow.1
    · exact MinMaxStats.not_holds_of_alwaysFalse h hrow.2 _ hmem rfl
  | isNull _ => simp [satisfies_isNull]
  | isNotNull h => cases h.symm.trans hrow.1
  | and hmem _ ih => exact fun hs => ih (satisfies_and.1 hs _ hmem)
  | or _ ih =>
    rw [satisfies_or]
    rintro ⟨f, hf, hs⟩
    exact ih f hf hs
  | optional _ ih => exact ih

theorem Affirmed.satisfies (h : Affirmed stats f) (hrow : stats.Allows (some value)) : f.Satisfies (some value) := by
  induction h with
  | constant _ h =>
    obtain ⟨c, hmem, hc⟩ := MinMaxStats.holds_of_alwaysTrue h hrow.2
    rw [mem_singleton.1 hmem] at hc
    exact satisfies_constant.2 hc
  | inList _ hmem h =>
    obtain ⟨c, hc, rfl⟩ := MinMaxStats.holds_of_alwaysTrue (MinMaxStats.equal_alwaysTrue_iff.2 ⟨_, hmem, h⟩) hrow.2
    exact satisfies_in.2 ⟨_, hc, rfl⟩
  | isNull _ h => cases h.symm.trans hrow.1
  | isNotNull _ => simp [satisfies_isNotNull]
  | and _ ih => exact satisfies_and.2 ih
  | or _ _ ih => exact satisfies_or.2 ⟨_, mem_append_right _ mem_cons_self, ih⟩
  | optional _ ih => exact ih

/-! ## NULL rows -/

theorem DropsNull.refuted (h : DropsNull stats f) : Refuted stats f := by
  induction h with
  | distinct h => exact .constant (h.imp_right MinMaxStats.distinctFrom_alwaysFalse_iff.2)
  | and hmem _ _ ih => exact .and hmem ih
  | or _ _ hothers _ => exact .or hothers
  | optional _ ih => exact .optional ih

theorem DropsNull.satisfies (h : DropsNull stats f) : f.Satisfies none := by
  induction h with
  | distinct _ => exact satisfies_constant_none.2 rfl
  | and _ _ hothers _ => exact satisfies_and.2 hothers
  | or hmem _ _ ih => exact satisfies_or.2 ⟨_, hmem, ih⟩
  | optional _ ih => exact ih

theorem KeepsNull.affirmed (h : KeepsNull stats f) : Affirmed stats f := by
  induction h with
  | inList hvalue hmem h => exact .inList hvalue hmem h
  | and _ _ hothers _ => exact .and hothers
  | or hbefore _ _ ih => exact .or hbefore ih
  | optional _ ih => exact .optional ih

theorem KeepsNull.not_satisfies (h : KeepsNull stats f) : ¬ f.Satisfies none := by
  induction h with
  | inList _ _ _ => simp [satisfies_in]
  | and hmem _ _ ih => exact fun hs => ih (satisfies_and.1 hs _ hmem)
  | or _ _ hothers _ =>
    rw [satisfies_or]
    rintro ⟨g, hg, hs⟩
    exact hothers g hg hs
  | optional _ ih => exact ih

theorem Refuted.dropsNull (h : Refuted stats f) (hnull : stats.hasNull = true) (hs : f.Satisfies none) :
    DropsNull stats f := by
  induction h with
  | constant h =>
    obtain rfl := satisfies_constant_none.1 hs
    exact .distinct (h.imp_right MinMaxStats.distinctFrom_alwaysFalse_iff.1)
  | inList _ => simp [satisfies_in] at hs
  | isNull h => cases h.symm.trans hnull
  | isNotNull _ => exact absurd rfl (satisfies_isNotNull.1 hs)
  | and hmem _ ih => exact .and hmem (ih (satisfies_and.1 hs _ hmem)) (satisfies_and.1 hs)
  | or h ih =>
    obtain ⟨g, hg, hsat⟩ := satisfies_or.1 hs
    exact .or hg (ih g hg hsat) h
  | optional _ ih => exact .optional (ih hs)

theorem Affirmed.keepsNull (h : Affirmed stats f) (hnull : stats.hasNull = true) (hs : ¬ f.Satisfies none) :
    KeepsNull stats f := by
  induction h with
  | constant h _ => cases h.symm.trans hnull
  | inList hvalue hmem h => exact .inList hvalue hmem h
  | isNull _ _ => exact absurd (satisfies_isNull.2 rfl) hs
  | isNotNull h => cases h.symm.trans hnull
  | and h ih =>
    rw [satisfies_and] at hs
    obtain ⟨g, hg, hsat⟩ := not_forall₂.1 hs
    exact .and hg (ih g hg hsat) h
  | or hbefore _ ih =>
    have hall := fun g hg hsat => hs (satisfies_or.2 ⟨g, hg, hsat⟩)
    exact .or hbefore (ih (hall _ (mem_append_right _ mem_cons_self))) hall
  | optional _ ih => exact .optional (ih hs)

/-- The answer is right exactly where the NULL rows are taken care of. -/
theorem answers_iff (stats : BaseStatistics σ) (f : TableFilter α) : Answers stats f ↔ NullHandled stats f := by
  constructor
  · intro h
    refine or_iff_not_imp_left.2 fun hn => ?_
    have hnull : stats.hasNull = true := Bool.not_eq_false _ ▸ hn
    have h := h [none] (by simpa [BaseStatistics.Describes, BaseStatistics.Allows] using hnull)
    exact ⟨fun hd => h.1 hd.refuted.alwaysFalse none mem_cons_self hd.satisfies,
      fun hk => hk.not_satisfies (h.2 (hk.affirmed.alwaysTrue hnull) none mem_cons_self)⟩
  · intro h rows hrows
    have hnull : none ∈ rows → ¬ DropsNull stats f ∧ ¬ KeepsNull stats f := fun hmem =>
      h.resolve_left fun hn => Bool.false_ne_true (hn.symm.trans (hrows none hmem))
    refine ⟨fun hc row hmem hs => ?_, fun hc row hmem => ?_⟩
    · have hrefuted := f.told.refuted hc
      cases row with
      | none => exact (hnull hmem).1 (hrefuted.dropsNull (hrows none hmem) hs)
      | some value => exact hrefuted.not_satisfies (hrows _ hmem) hs
    · have haffirmed := f.told.affirmed hc
      cases row with
      | none =>
        by_contra hs
        exact (hnull hmem).2 (haffirmed.keepsNull (hrows none hmem) hs)
      | some value => exact haffirmed.satisfies (hrows _ hmem)

end Sound

/-! ## Integer and string columns -/

/-- Statistics from updates and merges describe the rows they have seen. For statistics that describe
some rows, a filter is answered rightly exactly where the NULL rows are taken care of. -/
theorem checkStatistics_sound_iff (type : IntegerType) :
    ((∀ (stats : BaseStatistics (NumericStats type.Value)) rows, BaseStatistics.Built _ stats rows → stats.Describes rows) ∧
      ∀ (stats : BaseStatistics (NumericStats type.Value)) (f : TableFilter type.Value),
        Answers stats f ↔ NullHandled stats f) ∧
    (∀ (stats : BaseStatistics StringStats) rows, BaseStatistics.Built _ stats rows → stats.Describes rows) ∧
    ∀ (stats : BaseStatistics StringStats) (f : TableFilter (List Byte)), Answers stats f ↔ NullHandled stats f :=
  ⟨⟨fun _ _ h => h.describes, answers_iff⟩, fun _ _ h => h.describes, answers_iff⟩

/-- A column with NULL rows only, and a filter with a comparison that would drop them, next to a test that keeps them. -/
theorem checkStatistics_sound_iff_column :
    let stats : BaseStatistics (NumericStats IntegerType.int8.Value) := (BaseStatistics.createEmpty _).update none
    stats.Describes [none] ∧
      Answers stats (.conjunctionOrFilter [.isNullFilter, .constantFilter .distinctFrom ⟨5, by decide⟩]) := by
  intro stats
  obtain ⟨hbuilt, hiff⟩ := (checkStatistics_sound_iff .int8).1
  refine ⟨hbuilt _ _ (.update .empty _), (hiff stats _).2 (.inr ⟨fun hdrops => ?_, fun hkeeps => ?_⟩)⟩
  · cases hdrops with
    | or _ _ hothers =>
      cases hothers .isNullFilter List.mem_cons_self with
      | isNull h => cases h
  · exact hkeeps.not_satisfies (satisfies_or.2 ⟨.isNullFilter, List.mem_cons_self, satisfies_isNull.2 rfl⟩)

/-- The column with the one value 5 and a NULL row. The filter `x IN (5)` is said to be true for all
rows. In a column with NULL rows only `x IS DISTINCT FROM 5` is said to be false for all. -/
theorem checkStatistics_misses_null :
    ¬ ∀ (stats : BaseStatistics (NumericStats IntegerType.int8.Value)) (f : TableFilter IntegerType.int8.Value),
      Answers stats f := by
  intro h
  have hin := h (((BaseStatistics.createEmpty _).update (some ⟨5, by decide⟩)).update none) (.inFilter [⟨5, by decide⟩])
    [none, some ⟨5, by decide⟩] (BaseStatistics.Built.update (.update .empty _) _).describes
  have hsat := hin.2 (by decide) none List.mem_cons_self
  revert hsat
  decide

/-- The same of a column with NULL rows only, and IS DISTINCT FROM. -/
example :
    let stats : BaseStatistics (NumericStats IntegerType.int8.Value) := (BaseStatistics.createEmpty _).update none
    let f : TableFilter IntegerType.int8.Value := .constantFilter .distinctFrom ⟨5, by decide⟩
    f.checkStatistics stats = .filterAlwaysFalse ∧ f.Satisfies none := by decide

end Haybarn.Zonemap
