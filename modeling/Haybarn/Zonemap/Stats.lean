/-
The statistics of integer and string columns. An integer column has its minimum and maximum, where they
are known; a string column has the first eight bytes of both, filled up with zeros.
-/
import Mathlib
import Haybarn.Zonemap.Filter

namespace Haybarn.Zonemap

open List

/-! ## Lists of constants -/

section Constants

variable {α : Type} {check : α → FilterPropagateResult}

/-- The answer for a list of constants is that of the first one that is not out of the question. -/
def checkConstants (check : α → FilterPropagateResult) : List α → FilterPropagateResult
  | [] => .filterAlwaysFalse
  | constant :: constants => match check constant with
    | .noPruningPossible => .noPruningPossible
    | .filterAlwaysTrue => .filterAlwaysTrue
    | .filterAlwaysFalse => checkConstants check constants

theorem checkConstants_cons (constant : α) (constants : List α) :
    checkConstants check (constant :: constants) = match check constant with
      | .noPruningPossible => .noPruningPossible
      | .filterAlwaysTrue => .filterAlwaysTrue
      | .filterAlwaysFalse => checkConstants check constants := rfl

theorem checkConstants_alwaysFalse : ∀ {constants : List α},
    checkConstants check constants = .filterAlwaysFalse ↔ ∀ constant ∈ constants, check constant = .filterAlwaysFalse
  | [] => iff_of_true rfl (forall_mem_nil _)
  | constant :: constants => by
    rw [checkConstants_cons, forall_mem_cons, ← checkConstants_alwaysFalse]
    cases check constant <;> simp

theorem exists_of_checkConstants_alwaysTrue : ∀ {constants : List α},
    checkConstants check constants = .filterAlwaysTrue → ∃ constant ∈ constants, check constant = .filterAlwaysTrue
  | [], h => nomatch h
  | constant :: constants, h => by
    rw [checkConstants_cons] at h
    cases hc : check constant with
    | noPruningPossible => simp [hc] at h
    | filterAlwaysTrue => exact ⟨constant, mem_cons_self, hc⟩
    | filterAlwaysFalse =>
      obtain ⟨c, hmem, hct⟩ := exists_of_checkConstants_alwaysTrue (by simpa [hc] using h)
      exact ⟨c, mem_cons_of_mem _ hmem, hct⟩

theorem checkConstants_alwaysTrue_of_mem : ∀ {constants : List α} {constant : α}, constant ∈ constants →
    check constant = .filterAlwaysTrue → (∀ c ∈ constants, check c ≠ .noPruningPossible) →
    checkConstants check constants = .filterAlwaysTrue
  | c :: constants, constant, hmem, hc, hall => by
    rw [checkConstants_cons]
    rcases mem_cons.1 hmem with rfl | hmem
    · simp [hc]
    · have ih := checkConstants_alwaysTrue_of_mem hmem hc fun c hc => hall c (mem_cons_of_mem _ hc)
      have hne := hall c mem_cons_self
      cases h : check c <;> simp_all

end Constants

/-! ## Numbers -/

/-- `NumericStatsData`, over the values of the column's type. -/
structure NumericStats (α : Type) where
  hasMin : Bool
  hasMax : Bool
  min : α
  max : α
  deriving Repr, DecidableEq

namespace NumericStats

variable {α : Type} [LinearOrder α]

def ConstantExactRange (min max constant : α) : Prop := constant = min ∧ constant = max

def ConstantValueInRange (min max constant : α) : Prop := ¬ (constant < min ∨ max < constant)

instance (min max constant : α) : Decidable (ConstantExactRange min max constant) :=
  inferInstanceAs (Decidable (_ ∧ _))

instance (min max constant : α) : Decidable (ConstantValueInRange min max constant) :=
  inferInstanceAs (Decidable (¬ (_ ∨ _)))

/-- `CheckZonemapTemplated` for one constant. -/
def checkConstant (comparisonType : ExpressionType) (minValue maxValue constant : α) : FilterPropagateResult :=
  match comparisonType with
  | .equal | .notDistinctFrom =>
    if ConstantExactRange minValue maxValue constant then .filterAlwaysTrue
    else if ConstantValueInRange minValue maxValue constant then .noPruningPossible
    else .filterAlwaysFalse
  | .notEqual | .distinctFrom =>
    if ¬ ConstantValueInRange minValue maxValue constant then .filterAlwaysTrue
    else if ConstantExactRange minValue maxValue constant then .filterAlwaysFalse
    else .noPruningPossible
  | .greaterThanOrEqualTo =>
    if constant ≤ minValue then .filterAlwaysTrue
    else if constant ≤ maxValue then .noPruningPossible
    else .filterAlwaysFalse
  | .greaterThan =>
    if constant < minValue then .filterAlwaysTrue
    else if constant < maxValue then .noPruningPossible
    else .filterAlwaysFalse
  | .lessThanOrEqualTo =>
    if maxValue ≤ constant then .filterAlwaysTrue
    else if minValue ≤ constant then .noPruningPossible
    else .filterAlwaysFalse
  | .lessThan =>
    if maxValue < constant then .filterAlwaysTrue
    else if minValue < constant then .noPruningPossible
    else .filterAlwaysFalse

def HasMinMax (data : NumericStats α) : Prop := data.hasMin = true ∧ data.hasMax = true ∧ data.min ≤ data.max

instance (data : NumericStats α) : Decidable data.HasMinMax := inferInstanceAs (Decidable (_ ∧ _ ∧ _))

def checkZonemap (data : NumericStats α) (comparisonType : ExpressionType) (constants : List α) :
    FilterPropagateResult :=
  if ¬ data.HasMinMax then .noPruningPossible
  else checkConstants (checkConstant comparisonType data.min data.max) constants

/-- `UpdateValue` -/
def update (data : NumericStats α) (newValue : α) : NumericStats α := { data with
  min := if newValue < data.min then newValue else data.min
  max := if data.max < newValue then newValue else data.max }

def merge (data other : NumericStats α) : NumericStats α where
  hasMin := other.hasMin && data.hasMin
  hasMax := other.hasMax && data.hasMax
  min := if other.hasMin && data.hasMin && decide (other.min < data.min) then other.min else data.min
  max := if other.hasMax && data.hasMax && decide (data.max < other.max) then other.max else data.max

/-- The minimum and the maximum, where they are known, bound the value. -/
structure Bounds (data : NumericStats α) (value : α) : Prop where
  min_le : data.hasMin = true → data.min ≤ value
  le_max : data.hasMax = true → value ≤ data.max

/-- The minimum and the maximum are known and are both the constant. -/
def ExactRange (data : NumericStats α) (constant : α) : Prop :=
  data.HasMinMax ∧ ConstantExactRange data.min data.max constant

/-! ### The zone map of one constant -/

variable {comparisonType : ExpressionType} {minValue maxValue constant value : α}

theorem not_holds_of_checkConstant (h : checkConstant comparisonType minValue maxValue constant = .filterAlwaysFalse)
    (hmin : minValue ≤ value) (hmax : value ≤ maxValue) : ¬ comparisonType.Holds value constant := by
  intro hv
  cases comparisonType <;>
    simp only [checkConstant, ConstantExactRange, ConstantValueInRange, ExpressionType.Holds] at h hv <;>
    split_ifs at h <;> grind

theorem holds_of_checkConstant (h : checkConstant comparisonType minValue maxValue constant = .filterAlwaysTrue)
    (hmin : minValue ≤ value) (hmax : value ≤ maxValue) : comparisonType.Holds value constant := by
  cases comparisonType <;>
    simp only [checkConstant, ConstantExactRange, ConstantValueInRange, ExpressionType.Holds] at h ⊢ <;>
    split_ifs at h <;> grind

theorem ConstantExactRange.inRange (h : ConstantExactRange minValue maxValue constant) :
    ConstantValueInRange minValue maxValue constant := by
  obtain ⟨rfl, rfl⟩ := h
  simp [ConstantValueInRange]

theorem checkConstant_distinctFrom_iff :
    checkConstant .distinctFrom minValue maxValue constant = .filterAlwaysFalse ↔
      ConstantExactRange minValue maxValue constant := by
  simp only [checkConstant]
  split_ifs with hin hex
  · simpa using hex
  · simpa using hex
  · exact iff_of_false (by simp) fun hex => hin hex.inRange

theorem checkConstant_equal_iff :
    checkConstant .equal minValue maxValue constant = .filterAlwaysTrue ↔
      ConstantExactRange minValue maxValue constant := by
  simp only [checkConstant]
  split_ifs with hex hin <;> simpa using hex

theorem checkConstant_equal_of_exactRange {constant' : α} (h : ConstantExactRange minValue maxValue constant)
    (hne : constant' ≠ constant) : checkConstant .equal minValue maxValue constant' = .filterAlwaysFalse := by
  obtain ⟨rfl, rfl⟩ := h
  have hin : ¬ ConstantValueInRange constant constant constant' := fun hin => by
    simp only [ConstantValueInRange, not_or, not_lt] at hin
    exact hne (le_antisymm hin.2 hin.1)
  simp [checkConstant, ConstantExactRange, hne, hin]

end NumericStats

/-- The statistics of a column with numbers between a smallest and a largest one. -/
instance NumericStats.minMaxStats {α : Type} [LinearOrder α] [BoundedOrder α] : MinMaxStats (NumericStats α) α where
  createEmpty := { hasMin := true, hasMax := true, min := ⊤, max := ⊥ }
  createUnknown := { hasMin := false, hasMax := false, min := ⊤, max := ⊥ }
  update := NumericStats.update
  merge := NumericStats.merge
  checkZonemap := NumericStats.checkZonemap
  Bounds := NumericStats.Bounds
  ExactRange := NumericStats.ExactRange
  bounds_unknown _ := ⟨by simp, by simp⟩
  bounds_update data value := by
    refine ⟨fun _ => ?_, fun _ => ?_⟩ <;> simp only [NumericStats.update] <;> split <;> order
  bounds_update_of data value value' h := by
    refine ⟨fun hm => ?_, fun hm => ?_⟩ <;> simp only [NumericStats.update] at hm ⊢
    · have := h.min_le hm
      split <;> order
    · have := h.le_max hm
      split <;> order
  bounds_merge_left data other value h := by
    refine ⟨fun hm => ?_, fun hm => ?_⟩ <;> simp only [NumericStats.merge, Bool.and_eq_true] at hm
    · have := h.min_le hm.2
      simp only [NumericStats.merge, hm.1, hm.2, Bool.and_self, Bool.true_and, decide_eq_true_eq]
      split <;> order
    · have := h.le_max hm.2
      simp only [NumericStats.merge, hm.1, hm.2, Bool.and_self, Bool.true_and, decide_eq_true_eq]
      split <;> order
  bounds_merge_right data other value h := by
    refine ⟨fun hm => ?_, fun hm => ?_⟩ <;> simp only [NumericStats.merge, Bool.and_eq_true] at hm
    · have := h.min_le hm.1
      simp only [NumericStats.merge, hm.1, hm.2, Bool.and_self, Bool.true_and, decide_eq_true_eq]
      split <;> order
    · have := h.le_max hm.1
      simp only [NumericStats.merge, hm.1, hm.2, Bool.and_self, Bool.true_and, decide_eq_true_eq]
      split <;> order
  not_holds_of_alwaysFalse {data comparisonType constants value} h hb constant hmem := by
    simp only [NumericStats.checkZonemap] at h
    split_ifs at h with hm
    obtain ⟨hm₁, hm₂, -⟩ := hm
    exact NumericStats.not_holds_of_checkConstant (checkConstants_alwaysFalse.1 h constant hmem)
      (hb.min_le hm₁) (hb.le_max hm₂)
  holds_of_alwaysTrue {data comparisonType constants value} h hb := by
    simp only [NumericStats.checkZonemap] at h
    split_ifs at h with hm
    obtain ⟨hm₁, hm₂, -⟩ := hm
    obtain ⟨constant, hmem, hc⟩ := exists_of_checkConstants_alwaysTrue h
    exact ⟨constant, hmem, NumericStats.holds_of_checkConstant hc (hb.min_le hm₁) (hb.le_max hm₂)⟩
  distinctFrom_alwaysFalse_iff {data constant} := by
    simp only [NumericStats.checkZonemap, NumericStats.ExactRange]
    split_ifs with hm
    · rw [checkConstants_alwaysFalse, List.forall_mem_singleton, NumericStats.checkConstant_distinctFrom_iff,
        and_iff_right hm]
    · simp [hm]
  equal_alwaysTrue_iff {data constants} := by
    simp only [NumericStats.checkZonemap, NumericStats.ExactRange]
    split_ifs with hm
    · simp only [hm, true_and]
      constructor
      · intro h
        obtain ⟨constant, hmem, hc⟩ := exists_of_checkConstants_alwaysTrue h
        exact ⟨constant, hmem, NumericStats.checkConstant_equal_iff.1 hc⟩
      · rintro ⟨constant, hmem, hex⟩
        refine checkConstants_alwaysTrue_of_mem hmem (NumericStats.checkConstant_equal_iff.2 hex) fun c _ => ?_
        by_cases hc : c = constant
        · rw [hc, NumericStats.checkConstant_equal_iff.2 hex]
          decide
        · rw [NumericStats.checkConstant_equal_of_exactRange hex hc]
          decide
    · simp [hm]

/-! ## The integer types -/

/-- The physical types of integer columns. -/
inductive IntegerType where
  | int8 | int16 | int32 | int64 | int128 | uint8 | uint16 | uint32 | uint64 | uint128
  deriving Repr, DecidableEq

def IntegerType.minimumValue : IntegerType → Int
  | .int8 => -2 ^ 7
  | .int16 => -2 ^ 15
  | .int32 => -2 ^ 31
  | .int64 => -2 ^ 63
  | .int128 => -2 ^ 127
  | .uint8 | .uint16 | .uint32 | .uint64 | .uint128 => 0

def IntegerType.maximumValue : IntegerType → Int
  | .int8 => 2 ^ 7 - 1
  | .int16 => 2 ^ 15 - 1
  | .int32 => 2 ^ 31 - 1
  | .int64 => 2 ^ 63 - 1
  | .int128 => 2 ^ 127 - 1
  | .uint8 => 2 ^ 8 - 1
  | .uint16 => 2 ^ 16 - 1
  | .uint32 => 2 ^ 32 - 1
  | .uint64 => 2 ^ 64 - 1
  | .uint128 => 2 ^ 128 - 1

theorem IntegerType.minimum_le_maximum (type : IntegerType) : type.minimumValue ≤ type.maximumValue := by
  cases type <;> decide

/-- The values of the type. -/
abbrev IntegerType.Value (type : IntegerType) : Type := Set.Icc type.minimumValue type.maximumValue

instance (type : IntegerType) : BoundedOrder type.Value where
  top := ⟨type.maximumValue, type.minimum_le_maximum, le_rfl⟩
  le_top x := x.2.2
  bot := ⟨type.minimumValue, le_rfl, type.minimum_le_maximum⟩
  bot_le x := x.2.1

/-! ## Strings -/

/-- A `data_t`. Strings compare byte by byte, and a string is less than its extensions. -/
abbrev Byte := Fin 256

def maxStringMinMaxSize : Nat := 8

/-- `ConstructValue`: the first bytes of the string, filled up with zeros. -/
def constructValue (size : Nat) (data : List Byte) : List Byte :=
  data.take size ++ List.replicate (size - data.length) 0

/-- `StringValueComparison`: the first `len` bytes of both. -/
def stringValueComparison : Nat → List Byte → List Byte → Ordering
  | 0, _, _ => .eq
  | len + 1, a :: data, b :: comparison =>
    if a < b then .lt else if b < a then .gt else stringValueComparison len data comparison
  | _ + 1, _, _ => .eq

theorem stringValueComparison_cons (len : Nat) (a b : Byte) (data comparison : List Byte) :
    stringValueComparison (len + 1) (a :: data) (b :: comparison) =
      if a < b then .lt else if b < a then .gt else stringValueComparison len data comparison := rfl

@[simp] theorem length_constructValue (size : Nat) (data : List Byte) : (constructValue size data).length = size := by
  simp only [constructValue, length_append, length_take, length_replicate]
  omega

theorem constructValue_zero (data : List Byte) : constructValue 0 data = [] := by simp [constructValue]

theorem constructValue_succ_nil (size : Nat) : constructValue (size + 1) [] = 0 :: constructValue size [] := by
  simp [constructValue, replicate_succ]

theorem constructValue_succ_cons (size : Nat) (a : Byte) (data : List Byte) :
    constructValue (size + 1) (a :: data) = a :: constructValue size data := by
  simp [constructValue]

theorem stringValueComparison_lt : ∀ {a b : List Byte}, a.length = b.length →
    (stringValueComparison a.length a b = .lt ↔ a < b)
  | [], [], _ => iff_of_false nofun (not_lt_nil _)
  | x :: a, y :: b, h => by
    have ih := stringValueComparison_lt (a := a) (b := b) (by simpa using h)
    rw [length_cons, stringValueComparison_cons, cons_lt_cons_iff]
    split_ifs with h₁ h₂
    · simp [h₁]
    · simp [h₁, h₂.ne']
    · have heq : x = y := le_antisymm (not_lt.1 h₂) (not_lt.1 h₁)
      simp [heq, ih]

theorem stringValueComparison_gt : ∀ {a b : List Byte}, a.length = b.length →
    (stringValueComparison a.length a b = .gt ↔ b < a)
  | [], [], _ => iff_of_false nofun (not_lt_nil _)
  | x :: a, y :: b, h => by
    have ih := stringValueComparison_gt (a := a) (b := b) (by simpa using h)
    rw [length_cons, stringValueComparison_cons, cons_lt_cons_iff]
    split_ifs with h₁ h₂
    · simp [h₁.ne', h₁.not_gt]
    · simp [h₂]
    · have heq : x = y := le_antisymm (not_lt.1 h₂) (not_lt.1 h₁)
      simp [heq, ih]

theorem of_cons_le_cons {a b : Byte} {s t : List Byte} (h : a :: s ≤ b :: t) : a < b ∨ a = b ∧ s ≤ t := by
  rcases h.lt_or_eq with hlt | heq
  · exact (cons_lt_cons_iff.1 hlt).imp_right (And.imp_right le_of_lt)
  · obtain ⟨rfl, rfl⟩ := cons_eq_cons.1 heq
    exact .inr ⟨rfl, le_rfl⟩

theorem stringValueComparison_lt_of_le : ∀ {len : Nat} {constant min value : List Byte},
    stringValueComparison len constant min = .lt → min.length = value.length → min ≤ value →
      stringValueComparison len constant value = .lt
  | len + 1, a :: constant, b :: min, [], h, hl, _ => by simp at hl
  | len + 1, a :: constant, b :: min, d :: value, h, hl, hle => by
    rw [stringValueComparison_cons] at h ⊢
    rcases of_cons_le_cons hle with hbd | ⟨rfl, htail⟩
    · split_ifs at h with h₁ h₂
      · rw [if_pos (h₁.trans hbd)]
      · rw [if_pos ((not_lt.1 h₂).trans_lt hbd)]
    · split_ifs at h ⊢ with h₁ h₂
      · rfl
      · exact stringValueComparison_lt_of_le h (by simpa using hl) htail

theorem stringValueComparison_gt_of_le : ∀ {len : Nat} {constant max value : List Byte},
    stringValueComparison len constant max = .gt → value.length = max.length → value ≤ max →
      stringValueComparison len constant value = .gt
  | len + 1, a :: constant, b :: max, [], h, hl, _ => by simp at hl
  | len + 1, a :: constant, b :: max, d :: value, h, hl, hle => by
    rw [stringValueComparison_cons] at h ⊢
    rcases of_cons_le_cons hle with hdb | ⟨rfl, htail⟩
    · split_ifs at h with h₁ h₂
      · rw [if_neg (hdb.trans h₂).not_gt, if_pos (hdb.trans h₂)]
      · have hda : d < a := hdb.trans_le (not_lt.1 h₁)
        rw [if_neg hda.not_gt, if_pos hda]
    · split_ifs at h ⊢ with h₁ h₂
      · rfl
      · exact stringValueComparison_gt_of_le h (by simpa using hl) htail

theorem cons_le_cons_of_le {a b : Byte} {s t : List Byte} (hab : a ≤ b) (hst : s ≤ t) : a :: s ≤ b :: t := by
  rcases hab.lt_or_eq with hlt | rfl
  · exact le_of_lt (cons_lt_cons_iff.2 (.inl hlt))
  · exact cons_le_cons a hst

theorem replicate_zero_le : ∀ {size : Nat} {s : List Byte}, s.length = size → replicate size 0 ≤ s
  | 0, [], _ => le_rfl
  | _ + 1, b :: _, h => cons_le_cons_of_le (Fin.zero_le b) (replicate_zero_le (by simpa using h))

theorem le_replicate_255 : ∀ {size : Nat} {s : List Byte}, s.length = size → s ≤ replicate size 255
  | 0, [], _ => le_rfl
  | _ + 1, b :: _, h => cons_le_cons_of_le (Fin.le_last b) (le_replicate_255 (by simpa using h))

theorem lt_of_stringValueComparison_lt : ∀ {len size : Nat} {constant value : List Byte},
    stringValueComparison len constant (constructValue size value) = .lt → constant < value
  | 0, _, _, _, h => nomatch h
  | _ + 1, 0, [], _, h => nomatch h
  | _ + 1, 0, _ :: _, _, h => by
    rw [constructValue_zero] at h
    nomatch h
  | _ + 1, _ + 1, [], _, h => nomatch h
  | len + 1, size + 1, a :: constant, [], h => by
    rw [constructValue_succ_nil, stringValueComparison_cons] at h
    split_ifs at h with h₁ h₂
    · simp at h₁
    · exact absurd (lt_of_stringValueComparison_lt h) (not_lt_nil _)
  | len + 1, size + 1, a :: constant, b :: value, h => by
    rw [constructValue_succ_cons, stringValueComparison_cons] at h
    rw [cons_lt_cons_iff]
    split_ifs at h with h₁ h₂
    · exact .inl h₁
    · exact .inr ⟨le_antisymm (not_lt.1 h₂) (not_lt.1 h₁), lt_of_stringValueComparison_lt h⟩

theorem lt_of_stringValueComparison_gt : ∀ {len size : Nat} {constant value : List Byte},
    stringValueComparison len constant (constructValue size value) = .gt → value < constant
  | 0, _, _, _, h => nomatch h
  | _ + 1, 0, [], _, h => nomatch h
  | _ + 1, 0, _ :: _, _, h => by
    rw [constructValue_zero] at h
    nomatch h
  | _ + 1, _ + 1, [], _, h => nomatch h
  | len + 1, size + 1, a :: constant, [], h => nil_lt_cons a constant
  | len + 1, size + 1, a :: constant, b :: value, h => by
    rw [constructValue_succ_cons, stringValueComparison_cons] at h
    rw [cons_lt_cons_iff]
    split_ifs at h with h₁ h₂
    · exact .inl h₂
    · exact .inr ⟨le_antisymm (not_lt.1 h₁) (not_lt.1 h₂), lt_of_stringValueComparison_gt h⟩

/-- `StringStatsData`: the first bytes of the minimum and the maximum. -/
structure StringStats where
  min : { bytes : List Byte // bytes.length = maxStringMinMaxSize }
  max : { bytes : List Byte // bytes.length = maxStringMinMaxSize }
  deriving DecidableEq

namespace StringStats

/-- What is kept of a string. -/
def target (value : List Byte) : { bytes : List Byte // bytes.length = maxStringMinMaxSize } :=
  ⟨constructValue maxStringMinMaxSize value, length_constructValue ..⟩

/-- The smaller and the larger of what is kept and a new one. -/
def merge (data other : StringStats) : StringStats where
  min := if stringValueComparison maxStringMinMaxSize other.min.1 data.min.1 = .lt then other.min else data.min
  max := if stringValueComparison maxStringMinMaxSize other.max.1 data.max.1 = .gt then other.max else data.max

def update (data : StringStats) (value : List Byte) : StringStats :=
  let target := target value
  { min := if stringValueComparison maxStringMinMaxSize target.1 data.min.1 = .lt then target else data.min
    max := if stringValueComparison maxStringMinMaxSize target.1 data.max.1 = .gt then target else data.max }

/-- `CheckZonemap` for one constant. It never says of two strings that they are equal. -/
def checkConstant (data : StringStats) (comparisonType : ExpressionType) (constant : List Byte) :
    FilterPropagateResult :=
  let size := constant.length
  let minComp := stringValueComparison (Nat.min maxStringMinMaxSize size) constant data.min.1
  let maxComp := stringValueComparison (Nat.min maxStringMinMaxSize size) constant data.max.1
  match comparisonType with
  | .equal | .notDistinctFrom =>
    if minComp ≠ .lt ∧ maxComp ≠ .gt then .noPruningPossible else .filterAlwaysFalse
  | .notEqual | .distinctFrom =>
    if minComp = .lt ∨ maxComp = .gt then .filterAlwaysTrue else .noPruningPossible
  | .greaterThanOrEqualTo | .greaterThan =>
    if maxComp ≠ .gt then .noPruningPossible else .filterAlwaysFalse
  | .lessThan | .lessThanOrEqualTo =>
    if minComp ≠ .lt then .noPruningPossible else .filterAlwaysFalse

def checkZonemap (data : StringStats) (comparisonType : ExpressionType) (constants : List (List Byte)) :
    FilterPropagateResult :=
  checkConstants (data.checkConstant comparisonType) constants

/-- The first bytes of the string lie between those of the minimum and of the maximum. -/
structure Bounds (data : StringStats) (value : List Byte) : Prop where
  min_le : data.min.1 ≤ (target value).1
  le_max : (target value).1 ≤ data.max.1

theorem bounds_self (value : List Byte) : Bounds { min := target value, max := target value } value :=
  ⟨le_rfl, le_rfl⟩

theorem comparison_lt_iff (a b : { bytes : List Byte // bytes.length = maxStringMinMaxSize }) :
    stringValueComparison maxStringMinMaxSize a.1 b.1 = .lt ↔ a.1 < b.1 := by
  have h := stringValueComparison_lt (a.2.trans b.2.symm)
  rwa [a.2] at h

theorem comparison_gt_iff (a b : { bytes : List Byte // bytes.length = maxStringMinMaxSize }) :
    stringValueComparison maxStringMinMaxSize a.1 b.1 = .gt ↔ b.1 < a.1 := by
  have h := stringValueComparison_gt (a.2.trans b.2.symm)
  rwa [a.2] at h

variable {data other : StringStats} {value constant : List Byte}

theorem Bounds.merge_left (h : data.Bounds value) (other : StringStats) : (data.merge other).Bounds value := by
  obtain ⟨hmin, hmax⟩ := h
  constructor <;> simp only [merge, comparison_lt_iff, comparison_gt_iff]
  · split
    · exact le_of_lt (lt_of_lt_of_le ‹_› hmin)
    · exact hmin
  · split
    · exact le_of_lt (lt_of_le_of_lt hmax ‹_›)
    · exact hmax

theorem Bounds.merge_right (h : other.Bounds value) (data : StringStats) : (data.merge other).Bounds value := by
  obtain ⟨hmin, hmax⟩ := h
  constructor <;> simp only [merge, comparison_lt_iff, comparison_gt_iff]
  · split
    · exact hmin
    · exact le_trans (not_lt.1 ‹_›) hmin
  · split
    · exact hmax
    · exact le_trans hmax (not_lt.1 ‹_›)

theorem Bounds.lt_of_min (h : data.Bounds value) {len : Nat}
    (hc : stringValueComparison len constant data.min.1 = .lt) : constant < value :=
  lt_of_stringValueComparison_lt
    (stringValueComparison_lt_of_le hc (data.min.2.trans (target value).2.symm) h.min_le)

theorem Bounds.lt_of_max (h : data.Bounds value) {len : Nat}
    (hc : stringValueComparison len constant data.max.1 = .gt) : value < constant :=
  lt_of_stringValueComparison_gt
    (stringValueComparison_gt_of_le hc ((target value).2.trans data.max.2.symm) h.le_max)

theorem not_holds_of_checkConstant {comparisonType : ExpressionType} (hb : data.Bounds value)
    (h : data.checkConstant comparisonType constant = .filterAlwaysFalse) : ¬ comparisonType.Holds value constant := by
  have hmin := @Bounds.lt_of_min data value constant hb (Nat.min maxStringMinMaxSize constant.length)
  have hmax := @Bounds.lt_of_max data value constant hb (Nat.min maxStringMinMaxSize constant.length)
  intro hv
  cases comparisonType <;> simp only [checkConstant, ExpressionType.Holds] at h hv <;> split_ifs at h <;> grind

theorem holds_of_checkConstant {comparisonType : ExpressionType} (hb : data.Bounds value)
    (h : data.checkConstant comparisonType constant = .filterAlwaysTrue) : comparisonType.Holds value constant := by
  have hmin := @Bounds.lt_of_min data value constant hb (Nat.min maxStringMinMaxSize constant.length)
  have hmax := @Bounds.lt_of_max data value constant hb (Nat.min maxStringMinMaxSize constant.length)
  cases comparisonType <;> simp only [checkConstant, ExpressionType.Holds] at h ⊢ <;> split_ifs at h <;> grind

theorem checkConstant_distinctFrom_ne : data.checkConstant .distinctFrom constant ≠ .filterAlwaysFalse := by
  simp only [checkConstant]
  split <;> decide

theorem checkConstant_equal_ne : data.checkConstant .equal constant ≠ .filterAlwaysTrue := by
  simp only [checkConstant]
  split <;> decide

end StringStats

/-- The statistics of a string column. There is no range that leaves room for one string only. -/
instance StringStats.minMaxStats : MinMaxStats StringStats (List Byte) where
  createEmpty := ⟨⟨List.replicate maxStringMinMaxSize 255, rfl⟩, ⟨List.replicate maxStringMinMaxSize 0, rfl⟩⟩
  createUnknown := ⟨⟨List.replicate maxStringMinMaxSize 0, rfl⟩, ⟨List.replicate maxStringMinMaxSize 255, rfl⟩⟩
  update := StringStats.update
  merge := StringStats.merge
  checkZonemap := StringStats.checkZonemap
  Bounds := StringStats.Bounds
  ExactRange _ _ := False
  bounds_unknown value :=
    ⟨replicate_zero_le (length_constructValue ..), le_replicate_255 (length_constructValue ..)⟩
  bounds_update data value := (StringStats.bounds_self value).merge_right data
  bounds_update_of _ value _ h := h.merge_left { min := StringStats.target value, max := StringStats.target value }
  bounds_merge_left _ other _ h := h.merge_left other
  bounds_merge_right data _ _ h := h.merge_right data
  not_holds_of_alwaysFalse h hb constant hmem :=
    StringStats.not_holds_of_checkConstant hb (checkConstants_alwaysFalse.1 h constant hmem)
  holds_of_alwaysTrue h hb := by
    obtain ⟨constant, hmem, hc⟩ := exists_of_checkConstants_alwaysTrue h
    exact ⟨constant, hmem, StringStats.holds_of_checkConstant hb hc⟩
  distinctFrom_alwaysFalse_iff := by
    refine iff_of_false (fun h => ?_) not_false
    exact StringStats.checkConstant_distinctFrom_ne (checkConstants_alwaysFalse.1 h _ List.mem_cons_self)
  equal_alwaysTrue_iff := by
    refine iff_of_false (fun h => ?_) (by simp)
    obtain ⟨constant, -, hc⟩ := exists_of_checkConstants_alwaysTrue h
    exact StringStats.checkConstant_equal_ne hc

end Haybarn.Zonemap
