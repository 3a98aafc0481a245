/-
The rule that moves constants across comparisons, from `move_constants.cpp`, with the meaning of the expressions it
reads and writes. What the rule decides is stated once, in terms of the integers that it reads.
-/
import Haybarn.Hugeint.Exact

namespace Haybarn.Optimizer

open Lib Common

/-! ## Expressions -/

/-- The `ExpressionType`s of comparisons. -/
inductive ComparisonType where
  | compareEqual
  | compareNotEqual
  | compareLessThan
  | compareGreaterThan
  | compareLessThanOrEqualTo
  | compareGreaterThanOrEqualTo
  | compareDistinctFrom
  | compareNotDistinctFrom
deriving DecidableEq, Repr

namespace ComparisonType

/-- `FlipComparisonExpression`. -/
def flip : ComparisonType → ComparisonType
  | compareLessThan => compareGreaterThan
  | compareGreaterThan => compareLessThan
  | compareLessThanOrEqualTo => compareGreaterThanOrEqualTo
  | compareGreaterThanOrEqualTo => compareLessThanOrEqualTo
  | type => type

/-- The comparison of two values that are not NULL. -/
def compare : ComparisonType → Int → Int → Bool
  | compareEqual, l, r | compareNotDistinctFrom, l, r => l == r
  | compareNotEqual, l, r | compareDistinctFrom, l, r => l != r
  | compareLessThan, l, r => decide (l < r)
  | compareGreaterThan, l, r => decide (r < l)
  | compareLessThanOrEqualTo, l, r => decide (l ≤ r)
  | compareGreaterThanOrEqualTo, l, r => decide (r ≤ l)

/-- The comparisons that tell NULL from the other values. -/
def IsDistinct (type : ComparisonType) : Prop := type = compareDistinctFrom ∨ type = compareNotDistinctFrom

instance (type : ComparisonType) : Decidable type.IsDistinct := inferInstanceAs (Decidable (_ ∨ _))

/-- The comparison of two values, where `none` is NULL. -/
def eval (type : ComparisonType) : Option Int → Option Int → Option Bool
  | some l, some r => some (type.compare l r)
  | l, r => if type = compareDistinctFrom then some (l != r)
      else if type = compareNotDistinctFrom then some (l == r)
      else none

end ComparisonType

/-- The functions `+`, `-` and `*`. -/
inductive Arithmetic where
  | plus
  | minus
  | times
deriving DecidableEq, Repr

/-- The function without its limits. -/
def Arithmetic.apply : Arithmetic → Int → Int → Int
  | plus, l, r => l + r
  | minus, l, r => l - r
  | times, l, r => l * r

/-- An expression of an integer type. `input` is the operand that the rule does not look into. -/
inductive Expression (t : IntegerType) where
  | input
  | constant (value : Option t.internalType.Value)
  | arithmetic (function : Arithmetic) (left right : Expression t)

/-- A boolean expression. -/
inductive Predicate (t : IntegerType) where
  | comparison (type : ComparisonType) (left right : Expression t)
  | constant (value : Option Bool)
  | constantOrNull (value : Bool) (child : Expression t)

variable {t : IntegerType}

/-- The value of an expression where `input` has the value `x`. Arithmetic that overflows has none. -/
def Expression.eval (x : Option Int) : Expression t → Option (Option Int)
  | input => some x
  | constant value => some (value.map (t.internalType.toInt ·))
  | arithmetic function left right => do
    match ← left.eval x, ← right.eval x with
    | some l, some r => if t.Holds (function.apply l r) then some (some (function.apply l r)) else none
    | _, _ => some none

/-- The value of a boolean expression, where the inner `none` is NULL. -/
def Predicate.eval (x : Option Int) : Predicate t → Option (Option Bool)
  | comparison type left right => do
    let l ← left.eval x
    let r ← right.eval x
    some (type.eval l r)
  | constant value => some value
  | constantOrNull value child => do
    let c ← child.eval x
    some (c.map fun _ => value)

/-! ## The rule -/

/-- The message of `ThrowNumericCastError`, for a cast to `int64_t`. -/
def informationLoss (number : Nat) : String :=
  s!"Information loss on integer cast: value {number} outside of target range " ++
    "[-9223372036854775808, 9223372036854775807]"

/-- `IntegralValue::Get`. -/
def integralValueGet : (t : IntegerType) → t.internalType.Value → Outcome Hugeint
  | .hugeint, value => .done value
  | .uhugeint, value => .done value
  | .ubigint, value =>
    -- `NumericCast<int64_t>`
    let number := BitVec.toNat value
    if number < 2 ^ 63 then .done (Hugeint.convertInteger number)
    else .error (informationLoss number)
  | t, value => .done (Hugeint.convertInteger (t.internalType.toInt value))

/-- A comparison and an arithmetic function have two children. -/
scoped instance twoChildren : NeZero 2 := ⟨Nat.succ_ne_zero 1⟩

/-- What the matcher binds: a comparison of a constant with an arithmetic function of a constant. -/
structure Bindings (t : IntegerType) where
  comparison : ComparisonType
  /-- Whether `outer_constant` is the left side. -/
  outerLeft : Bool
  outerConstant : Option t.internalType.Value
  function : Arithmetic
  /-- The place of the operand that is not `inner_constant`. -/
  arithmeticChildIndex : Fin 2
  innerConstant : Option t.internalType.Value

namespace Bindings

def arithmetic (b : Bindings t) : Expression t :=
  if b.arithmeticChildIndex = 0 then .arithmetic b.function .input (.constant b.innerConstant)
  else .arithmetic b.function (.constant b.innerConstant) .input

/-- A comparison with a constant on the side of `outer_constant`. -/
def compareWith (b : Bindings t) (type : ComparisonType) (value : Option t.internalType.Value) (other : Expression t) :
    Predicate t :=
  if b.outerLeft then .comparison type (.constant value) other else .comparison type other (.constant value)

/-- The comparison that is matched. -/
def original (b : Bindings t) : Predicate t := b.compareWith b.comparison b.outerConstant b.arithmetic

end Bindings

/-- What `Apply` leaves behind: the expression it returns, the comparison, and `changes_made`. -/
structure Applied (t : IntegerType) where
  returned : Option (Predicate t)
  comparison : Predicate t
  changesMade : Bool

/-- The expression that stands in the place of the comparison. -/
def Applied.result (a : Applied t) : Predicate t := a.returned.getD a.comparison

namespace Bindings

/-- `return nullptr` before anything is changed. -/
def unchanged (b : Bindings t) : Applied t := ⟨none, b.original, false⟩

/-- `ConstantOrNull` of the operand. -/
def constantOrNull (b : Bindings t) (value : Bool) : Applied t :=
  ⟨some (.constantOrNull value .input), b.original, false⟩

/-- The end of `Apply`: the operand replaces the arithmetic. -/
def moved (b : Bindings t) (type : ComparisonType) (value : t.internalType.Value) : Applied t :=
  ⟨none, b.compareWith type (some value) .input, true⟩

def apply (b : Bindings t) : Outcome (Applied t) :=
  match b.innerConstant, b.outerConstant with
  | some innerConstant, some outerConstant => do
    let outerValue ← integralValueGet t outerConstant
    let innerValue ← integralValueGet t innerConstant
    match b.function with
    | .plus =>
      -- [x + 1 COMP 10] OR [1 + x COMP 10]
      let (success, outerValue) := Hugeint.trySubtractInPlace outerValue innerValue
      if !success then .done b.unchanged
      else match Hugeint.tryCast t outerValue with
        | none => .done (if b.comparison ≠ .compareEqual then b.unchanged else b.constantOrNull false)
        | some resultValue => .done (b.moved b.comparison resultValue)
    | .minus =>
      if b.arithmeticChildIndex = 0 then
        -- [x - 1 COMP 10]
        let (success, outerValue) := Hugeint.tryAddInPlace outerValue innerValue
        if !success then .done b.unchanged
        else match Hugeint.tryCast t outerValue with
          | none => .done (if b.comparison ≠ .compareEqual then b.unchanged else b.constantOrNull false)
          | some resultValue => .done (b.moved b.comparison resultValue)
      else
        -- [1 - x COMP 10]
        let (success, innerValue) := Hugeint.trySubtractInPlace innerValue outerValue
        if !success then .done b.unchanged
        else match Hugeint.tryCast t innerValue with
          | none => .done (if b.comparison ≠ .compareEqual then b.unchanged else b.constantOrNull false)
          | some resultValue => .done (b.moved b.comparison.flip resultValue)
    | .times =>
      -- [x * 2 COMP 10] OR [2 * x COMP 10]
      if innerValue = Hugeint.convertInteger 0 then .done b.unchanged
      else if outerValue = Hugeint.minimum ∧ innerValue = Hugeint.convertInteger (-1) ∨
          (Hugeint.divMod outerValue innerValue).2 ≠ Hugeint.convertInteger 0 then
        .done (if b.comparison = .compareEqual ∨ b.comparison = .compareNotEqual then
          b.constantOrNull (decide (b.comparison = .compareNotEqual)) else b.unchanged)
      else
        let comparison :=
          if Hugeint.lessThan innerValue (Hugeint.convertInteger 0) then b.comparison.flip else b.comparison
        match Hugeint.tryCast t (Hugeint.divMod outerValue innerValue).1 with
        | none => .done (b.constantOrNull false)
        | some resultValue => .done (b.moved comparison resultValue)
  | _, _ =>
    if b.comparison = .compareDistinctFrom ∨ b.comparison = .compareNotDistinctFrom then .done b.unchanged
    else .done ⟨some (.constant none), b.original, false⟩

/-! ## What the rule leaves behind -/

/-- What the rule does to a comparison. -/
inductive Decision where
  | unchanged
  /-- The operand is compared with another constant, and the comparison is flipped or not. -/
  | moved (flipped : Bool) (value : Int)
  /-- The truth value is the same for every value of the operand. -/
  | fixed (value : Bool)

/-- The comparison, flipped or not. -/
def turned (b : Bindings t) (flipped : Bool) : ComparisonType := if flipped then b.comparison.flip else b.comparison

/-- The rule leaves `b` as it is decided. -/
def Leaves (b : Bindings t) (a : Applied t) : Decision → Prop
  | .unchanged => a = b.unchanged
  | .moved flipped value => ∃ v, t.internalType.toInt v = value ∧ a = b.moved (b.turned flipped) v
  | .fixed value => a = b.constantOrNull value

/-- A constant `n` is moved if the arithmetic on `hugeint_t` and the cast to the type succeed. -/
def fit (t : IntegerType) (comparison : ComparisonType) (flipped : Bool) (n : Int) : Decision :=
  if ¬ Hugeint.InRange n then .unchanged
  else if t.Holds n then .moved flipped n
  else if comparison = .compareEqual then .fixed false
  else .unchanged

/-- What is decided for the integers `k` and `c` that are read from the outer and the inner constant. -/
def decision (b : Bindings t) (k c : Int) : Decision :=
  match b.function with
  | .plus => fit t b.comparison false (k - c)
  | .minus =>
    if b.arithmeticChildIndex = 0 then fit t b.comparison false (k + c)
    else fit t b.comparison true (c - k)
  | .times =>
    if c = 0 then .unchanged
    else if k = -2 ^ 127 ∧ c = -1 ∨ ¬ c ∣ k then
      if b.comparison = .compareEqual then .fixed false
      else if b.comparison = .compareNotEqual then .fixed true
      else .unchanged
    else if t.Holds (k / c) then .moved (decide (c < 0)) (k / c)
    else .fixed false

variable {b : Bindings t}

theorem leaves_fit (flipped : Bool) {r : Bool × Hugeint} {operand : Hugeint} {n : Int}
    (h : Hugeint.ComputesInPlace r operand n) :
    ∃ a, (if !r.1 then .done b.unchanged
      else match Hugeint.tryCast t r.2 with
        | none => .done (if b.comparison ≠ .compareEqual then b.unchanged else b.constantOrNull false)
        | some resultValue => .done (b.moved (b.turned flipped) resultValue)) = Outcome.done a ∧
      b.Leaves a (fit t b.comparison flipped n) := by
  unfold fit
  by_cases hrange : Hugeint.InRange n
  · obtain ⟨hsuccess, hvalue⟩ := h.1 hrange
    obtain ⟨hcast, hfail⟩ := Hugeint.casts_tryCast t r.2
    rw [hvalue] at hcast hfail
    rw [hsuccess, if_neg (by decide), if_neg (not_not.mpr hrange)]
    by_cases hholds : t.Holds n
    · obtain ⟨v, hv, hint⟩ := hcast hholds
      rw [hv, if_pos hholds]
      exact ⟨_, rfl, v, hint, rfl⟩
    · rw [hfail hholds, if_neg hholds]
      refine ⟨_, rfl, ?_⟩
      by_cases heq : b.comparison = .compareEqual
      · rw [if_neg (not_not.mpr heq), if_pos heq]
        rfl
      · rw [if_pos heq, if_neg heq]
        rfl
  · rw [h.2 hrange, if_pos hrange]
    exact ⟨_, rfl, rfl⟩

theorem not_divides_iff {k c : Hugeint} (h0 : c.toInt ≠ 0) :
    (k = Hugeint.minimum ∧ c = Hugeint.convertInteger (-1) ∨
        (Hugeint.divMod k c).2 ≠ Hugeint.convertInteger 0) ↔
      k.toInt = -2 ^ 127 ∧ c.toInt = -1 ∨ ¬ c.toInt ∣ k.toInt := by
  have hmin : k = Hugeint.minimum ↔ k.toInt = -2 ^ 127 := by rw [← Hugeint.toInt_inj, Hugeint.toInt_minimum]
  have hone : c = Hugeint.convertInteger (-1) ↔ c.toInt = -1 := by
    rw [← Hugeint.toInt_inj, Hugeint.toInt_convertInteger (by decide)]
  rw [hmin, hone, ne_eq, ← Hugeint.toInt_inj, Hugeint.toInt_zero]
  by_cases hover : k.toInt = -2 ^ 127 ∧ c.toInt = -1
  · exact ⟨fun _ => Or.inl hover, fun _ => Or.inl hover⟩
  · rw [(Hugeint.divMod_spec h0 hover).2, Int.dvd_iff_tmod_eq_zero]

theorem leaves_divide {k c : Hugeint} (h0 : c.toInt ≠ 0) :
    ∃ a, (if k = Hugeint.minimum ∧ c = Hugeint.convertInteger (-1) ∨
          (Hugeint.divMod k c).2 ≠ Hugeint.convertInteger 0 then
        .done (if b.comparison = .compareEqual ∨ b.comparison = .compareNotEqual then
          b.constantOrNull (decide (b.comparison = .compareNotEqual)) else b.unchanged)
      else match Hugeint.tryCast t (Hugeint.divMod k c).1 with
        | none => .done (b.constantOrNull false)
        | some resultValue => .done (b.moved
            (if Hugeint.lessThan c (Hugeint.convertInteger 0) then b.comparison.flip else b.comparison)
            resultValue)) = Outcome.done a ∧
      b.Leaves a (
        if k.toInt = -2 ^ 127 ∧ c.toInt = -1 ∨ ¬ c.toInt ∣ k.toInt then
          if b.comparison = .compareEqual then .fixed false
          else if b.comparison = .compareNotEqual then .fixed true
          else .unchanged
        else if t.Holds (k.toInt / c.toInt) then
          .moved (decide (c.toInt < 0)) (k.toInt / c.toInt)
        else .fixed false) := by
  simp only [not_divides_iff h0, Hugeint.lessThan_iff, Hugeint.toInt_zero]
  by_cases hdvd : k.toInt = -2 ^ 127 ∧ c.toInt = -1 ∨ ¬ c.toInt ∣ k.toInt
  · rw [if_pos hdvd, if_pos hdvd]
    refine ⟨_, rfl, ?_⟩
    by_cases heq : b.comparison = .compareEqual
    · rw [if_pos (Or.inl heq), if_pos heq, heq]
      rfl
    · by_cases hne : b.comparison = .compareNotEqual
      · rw [if_pos (Or.inr hne), if_neg heq, if_pos hne, hne]
        rfl
      · rw [if_neg (not_or.mpr ⟨heq, hne⟩), if_neg heq, if_neg hne]
        rfl
  · obtain ⟨hover, hdiv⟩ := not_or.mp hdvd
    have hquotient : (Hugeint.divMod k c).1.toInt = k.toInt / c.toInt := by
      rw [(Hugeint.divMod_spec h0 hover).1, Int.tdiv_eq_ediv_of_dvd (not_not.mp hdiv)]
    obtain ⟨hcast, hfail⟩ := Hugeint.casts_tryCast t (Hugeint.divMod k c).1
    rw [hquotient] at hcast hfail
    rw [if_neg hdvd, if_neg hdvd]
    by_cases hholds : t.Holds (k.toInt / c.toInt)
    · obtain ⟨v, hv, hint⟩ := hcast hholds
      rw [hv, if_pos hholds]
      refine ⟨_, rfl, v, hint, ?_⟩
      simp only [turned, decide_eq_true_eq]
    · rw [hfail hholds, if_neg hholds]
      exact ⟨_, rfl, rfl⟩

/-- The rule, once both constants are read. -/
theorem apply_spec {inner outer : t.internalType.Value} {c k : Hugeint} (hinner : b.innerConstant = some inner)
    (houter : b.outerConstant = some outer) (hc : integralValueGet t inner = .done c)
    (hk : integralValueGet t outer = .done k) :
    ∃ a, b.apply = .done a ∧ b.Leaves a (b.decision k.toInt c.toInt) := by
  unfold apply decision
  rw [hinner, houter]
  simp only [hc, hk, Outcome.done_bind]
  cases hf : b.function with
  | plus => exact leaves_fit false (Hugeint.computes_trySubtractInPlace k c)
  | minus =>
    by_cases hidx : b.arithmeticChildIndex = 0
    · simp only [if_pos hidx]
      exact leaves_fit false (Hugeint.computes_tryAddInPlace k c)
    · simp only [if_neg hidx]
      exact leaves_fit true (Hugeint.computes_trySubtractInPlace c k)
  | times =>
    have hzero : c = Hugeint.convertInteger 0 ↔ c.toInt = 0 := by rw [← Hugeint.toInt_inj, Hugeint.toInt_zero]
    simp only [hzero]
    by_cases h0 : c.toInt = 0
    · rw [if_pos h0, if_pos h0]
      exact ⟨_, rfl, rfl⟩
    · rw [if_neg h0, if_neg h0]
      exact leaves_divide h0

end Bindings

end Haybarn.Optimizer
