/-
The numbers that decimals are stored in and the operations on them: the built-in types compute in the type they are
promoted to, `hugeint_t` by its limbs. An operation whose result is out of the range of its type is a fault, and so is an
unchecked conversion that loses the number.

The casts between DECIMAL types, from DECIMAL to the integer types and from these to DECIMAL, for one value: `none` is a
failed cast, with the error that the caller reports or turns into NULL.
-/
import Haybarn.Hugeint.Exact

namespace Haybarn.Decimal

open Lib Common

/-! ## Types -/

/-- The physical types of decimals. -/
inductive Storage where
  | int16
  | int32
  | int64
  | int128
deriving DecidableEq, Repr

namespace Storage

/-- The integral type with the same numbers. -/
def integerType : Storage → IntegerType
  | int16 => .smallint
  | int32 => .integer
  | int64 => .bigint
  | int128 => .hugeint

/-- The type that operands of the type are promoted to. -/
def promoted : Storage → Storage
  | int16 => int32
  | t => t

/-- The numbers of the type. -/
def Holds (t : Storage) (n : Int) : Prop := t.integerType.Holds n

instance (t : Storage) (n : Int) : Decidable (t.Holds n) := inferInstanceAs (Decidable (IntegerType.Holds _ _))

/-- An unchecked conversion to the type: `UnsafeNumericCast`, or the assignment of an operation's result. -/
def convert (t : Storage) (n : Int) : Outcome Int := if t.Holds n then .done n else .fault

/-! ## Operations -/

/-- The limbs of a number. -/
def limbs (n : Int) : Hugeint := ⟨BitVec.ofInt 64 (n / 2 ^ 64), BitVec.ofInt 64 (n % 2 ^ 64)⟩

/-- The result of an operation, which is `n` by rights and `huge` by the limbs. -/
def result (t : Storage) (n : Int) (huge : Hugeint) : Outcome Int :=
  if t.promoted.Holds n then .done (if t = int128 then huge.toInt else n) else .fault

/-- `a + b`. -/
def add (t : Storage) (a b : Int) : Outcome Int := t.result (a + b) (Hugeint.add (limbs a) (limbs b))

/-- `a - b`. -/
def sub (t : Storage) (a b : Int) : Outcome Int := t.result (a - b) (Hugeint.sub (limbs a) (limbs b))

/-- `a * b`. -/
def mul (t : Storage) (a b : Int) : Outcome Int := t.result (a * b) (Hugeint.multiply (limbs a) (limbs b))

/-- `-a`. -/
def neg (t : Storage) (a : Int) : Outcome Int := t.result (-a) (Hugeint.negateInPlace (limbs a))

/-- `a / b`. -/
def div (t : Storage) (a b : Int) : Outcome Int :=
  if b = 0 then .fault else t.result (a.tdiv b) (Hugeint.divMod (limbs a) (limbs b)).1

/-- `a % b`. -/
def mod (t : Storage) (a b : Int) : Outcome Int :=
  if b = 0 then .fault else t.result (a.tmod b) (Hugeint.divMod (limbs a) (limbs b)).2

/-! ## Powers of ten -/

/-- `NumericHelper::POWERS_OF_TEN[i]`, or `Hugeint::POWERS_OF_TEN[i]`. -/
def powerOfTen (t : Storage) (i : Nat) : Outcome Int :=
  if i ≤ (if t = int128 then 38 else 18) then .done (10 ^ i) else .fault

/-! ## Results -/

variable {t : Storage} {a b n : Int} {i : Nat}

theorem convert_done (h : t.Holds n) : t.convert n = .done n := if_pos h

theorem holds_promoted (h : t.Holds n) : t.promoted.Holds n := by
  cases t with
  | int16 =>
    obtain ⟨hlo, hhi⟩ : -2 ^ 15 ≤ n ∧ n ≤ 2 ^ 15 - 1 := h
    show -2 ^ 31 ≤ n ∧ n ≤ 2 ^ 31 - 1
    omega
  | int32 => exact h
  | int64 => exact h
  | int128 => exact h

theorem inRange_iff : Hugeint.InRange n ↔ int128.Holds n := by
  show -2 ^ 127 ≤ n ∧ n < 2 ^ 127 ↔ -2 ^ 127 ≤ n ∧ n ≤ 2 ^ 127 - 1
  omega

theorem toInt_limbs (h : int128.Holds n) : (limbs n).toInt = n := by
  obtain ⟨hlo, hhi⟩ := inRange_iff.2 h
  unfold limbs Hugeint.toInt
  have hupper : (BitVec.ofInt 64 (n / 2 ^ 64)).toInt = n / 2 ^ 64 :=
    BitVec.toInt_ofInt_eq_self (by decide) (by omega) (by omega)
  have hlower : ((BitVec.ofInt 64 (n % 2 ^ 64)).toNat : Int) = n % 2 ^ 64 :=
    IntegerType.toNat_ofInt_of_bounds (by omega) (by omega)
  dsimp only
  rw [hupper, hlower]
  omega

theorem result_done {huge : Hugeint} (h : t.promoted.Holds n) (hhuge : t = int128 → huge.toInt = n) :
    t.result n huge = .done n := by
  unfold result
  rw [if_pos h]
  by_cases ht : t = int128
  · rw [if_pos ht, hhuge ht]
  · rw [if_neg ht]

theorem add_done (ha : t.Holds a) (hb : t.Holds b) (h : t.promoted.Holds (a + b)) : t.add a b = .done (a + b) := by
  refine result_done h ?_
  rintro rfl
  have hsum : Hugeint.InRange ((limbs a).toInt + (limbs b).toInt) := by
    rw [toInt_limbs ha, toInt_limbs hb]
    exact inRange_iff.2 h
  rw [Hugeint.toInt_add hsum, toInt_limbs ha, toInt_limbs hb]

theorem sub_done (ha : t.Holds a) (hb : t.Holds b) (h : t.promoted.Holds (a - b)) : t.sub a b = .done (a - b) := by
  refine result_done h ?_
  rintro rfl
  have hdiff : Hugeint.InRange ((limbs a).toInt - (limbs b).toInt) := by
    rw [toInt_limbs ha, toInt_limbs hb]
    exact inRange_iff.2 h
  rw [Hugeint.toInt_sub hdiff, toInt_limbs ha, toInt_limbs hb]

theorem limbs_ne_minimum (ha : int128.Holds a) (hne : a ≠ -2 ^ 127) : limbs a ≠ Hugeint.minimum := by
  rw [Hugeint.ne_minimum_iff, toInt_limbs ha]
  exact hne

theorem neg_done (ha : t.Holds a) (h : t.promoted.Holds (-a)) : t.neg a = .done (-a) := by
  refine result_done h ?_
  rintro rfl
  have hne : a ≠ -2 ^ 127 := by
    have := (inRange_iff.2 h).2
    omega
  rw [Hugeint.toInt_negateInPlace (limbs_ne_minimum ha hne), toInt_limbs ha]

theorem mul_done (ha : t.Holds a) (hb : t.Holds b) (h : t.promoted.Holds (a * b))
    (hhuge : t = int128 → a ≠ -2 ^ 127 ∧ b ≠ -2 ^ 127 ∧ a * b ≠ -2 ^ 127) : t.mul a b = .done (a * b) := by
  refine result_done h ?_
  rintro rfl
  obtain ⟨hna, hnb, hnab⟩ := hhuge rfl
  have hna' := limbs_ne_minimum ha hna
  have hnb' := limbs_ne_minimum hb hnb
  obtain ⟨hlo, hhi⟩ := inRange_iff.2 h
  obtain ⟨c, hc, hval⟩ := (Hugeint.tryMultiply_spec hna' hnb').1 (by
    rw [toInt_limbs ha, toInt_limbs hb, abs_lt]
    omega)
  rw [Hugeint.multiply_eq hna' hnb' hc, hval, toInt_limbs ha, toInt_limbs hb]

theorem holds_zero (t : Storage) : t.Holds 0 := by cases t <;> decide

theorem holds_of_between (ha : t.Holds a) (hle : n.natAbs ≤ a.natAbs) (hsame : 0 ≤ a → 0 ≤ n) (hsame' : a ≤ 0 → n ≤ 0) :
    t.Holds n := by
  obtain ⟨hlo, hhi⟩ := ha
  obtain ⟨hlo', hhi'⟩ := holds_zero t
  constructor <;> omega

theorem holds_tdiv (ha : t.Holds a) (hb : 0 < b) : t.Holds (a.tdiv b) := by
  refine holds_of_between ha ?_ (fun h => Int.tdiv_nonneg h hb.le) fun h => ?_
  · rw [Int.natAbs_tdiv]
    exact Nat.div_le_self _ _
  · have := Int.tdiv_nonneg (show 0 ≤ -a by omega) hb.le
    rw [Int.neg_tdiv] at this
    omega

theorem holds_tmod (ha : t.Holds a) : t.Holds (a.tmod b) := by
  refine holds_of_between ha ?_ (Int.tmod_nonneg b) fun h => ?_
  · rw [Int.natAbs_tmod]
    exact Nat.mod_le _ _
  · have := Int.tmod_nonneg b (show 0 ≤ -a by omega)
    rw [Int.neg_tmod] at this
    omega

theorem divMod_limbs (ha : int128.Holds a) (hb : int128.Holds b) (hpos : 0 < b) :
    (Hugeint.divMod (limbs a) (limbs b)).1.toInt = a.tdiv b ∧ (Hugeint.divMod (limbs a) (limbs b)).2.toInt = a.tmod b := by
  have hb' := toInt_limbs hb
  have hspec := Hugeint.divMod_spec (show (limbs b).toInt ≠ 0 by omega)
    (show ¬ ((limbs a).toInt = -2 ^ 127 ∧ (limbs b).toInt = -1) by omega)
  rwa [toInt_limbs ha, hb'] at hspec

theorem div_done (ha : t.Holds a) (hb : t.Holds b) (hpos : 0 < b) : t.div a b = .done (a.tdiv b) := by
  unfold div
  rw [if_neg (by omega)]
  refine result_done (holds_promoted (holds_tdiv ha hpos)) ?_
  rintro rfl
  exact (divMod_limbs ha hb hpos).1

theorem mod_done (ha : t.Holds a) (hb : t.Holds b) (hpos : 0 < b) : t.mod a b = .done (a.tmod b) := by
  unfold mod
  rw [if_neg (by omega)]
  refine result_done (holds_promoted (holds_tmod ha)) ?_
  rintro rfl
  exact (divMod_limbs ha hb hpos).2

end Storage

/-! ## Decimal types -/

/-- A DECIMAL type that `Decimal::IsValid` accepts. -/
structure DecimalType where
  width : Nat
  scale : Nat
  one_le : 1 ≤ width
  width_le : width ≤ 38
  scale_le : scale ≤ width

def DecimalType.internalType (type : DecimalType) : Storage :=
  if type.width ≤ 4 then .int16
  else if type.width ≤ 9 then .int32
  else if type.width ≤ 18 then .int64
  else .int128

def isSigned : IntegerType → Bool
  | .tinyint | .smallint | .integer | .bigint | .hugeint => true
  | .utinyint | .usmallint | .uinteger | .ubigint | .uhugeint => false

def digits : IntegerType → Nat
  | .tinyint | .utinyint => 3
  | .smallint | .usmallint => 5
  | .integer | .uinteger => 10
  | .bigint => 19
  | .ubigint => 20
  | .hugeint | .uhugeint => 39

/-! ## Casts of numbers -/

/-- `static_cast<T>`, a fault where it changes the number. -/
def staticCast (t : IntegerType) (n : Int) : Outcome Int := if t.Holds n then .done n else .fault

/-- `TryCastWithOverflowCheck` between built-in types. -/
def tryCastWithOverflowCheck (source target : IntegerType) (value : Int) : Outcome (Option Int) :=
  if isSigned source ≠ isSigned target then
    if isSigned source then
      if digits source > digits target then do
        let maximum ← staticCast source target.maximum
        if value < 0 ∨ value > maximum then .done none else some <$> staticCast target value
      else if value < 0 then .done none
      else some <$> staticCast target value
    else if digits source ≥ digits target then do
      let maximum ← staticCast source target.maximum
      if value ≤ maximum then some <$> staticCast target value else .done none
    else some <$> staticCast target value
  else if digits target ≥ digits source then some <$> staticCast target value
  else do
    let minimum ← staticCast source target.minimum
    let maximum ← staticCast source target.maximum
    if value < minimum ∨ value > maximum then .done none else some <$> staticCast target value

/-- `TryCast` of a decimal's number to an integer type. -/
def tryCast (source : Storage) (target : IntegerType) (value : Int) : Outcome (Option Int) :=
  if source = .int128 then .done ((Hugeint.tryCast target (Storage.limbs value)).map target.internalType.toInt)
  else if target = .hugeint then .done (some (Hugeint.convertInteger value).toInt)
  else if target = .uhugeint then .done (if value < 0 then none else some value)
  else tryCastWithOverflowCheck source.integerType target value

/-- `Cast` of a decimal's number to the storage of another. -/
def cast (source target : Storage) (value : Int) : Outcome Int := do
  match ← tryCast source target.integerType value with
  | some result => .done result
  | none => .error "Type with value can't be cast because the value is out of range for the destination type"

/-! ## DECIMAL to DECIMAL -/

def decimalScaleUpOperator (source result : Storage) (factor input : Int) : Outcome Int := do
  let value ← cast source result input
  let product ← result.mul value factor
  result.convert product

/-- `TemplatedDecimalScaleUp`, with `DecimalScaleUpCheckOperator`. -/
def templatedDecimalScaleUp (source result : DecimalType) (input : Int) : Outcome (Option Int) := do
  let scaleDifference := result.scale - source.scale
  let power ← result.internalType.powerOfTen scaleDifference
  let multiplyFactor ← result.internalType.convert power
  let targetWidth := result.width - scaleDifference
  if source.width < targetWidth then
    some <$> decimalScaleUpOperator source.internalType result.internalType multiplyFactor input
  else do
    let power ← source.internalType.powerOfTen targetWidth
    let limit ← source.internalType.convert power
    let negated ← source.internalType.neg limit
    if input ≥ limit ∨ input ≤ negated then .done none
    else some <$> decimalScaleUpOperator source.internalType result.internalType multiplyFactor input

def decimalScaleDownOperator (source result : Storage) (factor input : Int) : Outcome Int := do
  let scaling ← source.div factor 2
  let quotient ← source.div input scaling
  let input ← source.convert quotient
  let moved ← (if input < 0 then source.sub input 1 else source.add input 1)
  let input ← source.convert moved
  let half ← source.div input 2
  let half ← source.convert half
  cast source result half

/-- The type `CanScaleDownDecimal` divides in. -/
def divisorType (source : Storage) : Storage := if source = .int128 then .int128 else .int64

def canScaleDownDecimal (source : Storage) (factor limit input : Int) : Outcome Bool := do
  let divisor ← (divisorType source).convert factor
  let value ← (divisorType source).mod input divisor
  let (roundedInput, value) ←
    (if input < 0 then do
      let product ← source.mul input (-1)
      let roundedInput ← source.convert product
      let value ← (divisorType source).mul value (-1)
      .done (roundedInput, value)
    else .done (input, value))
  let half ← (divisorType source).div divisor 2
  let roundedInput ←
    (if value ≥ half then do
      let sum ← (divisorType source).add roundedInput divisor
      source.convert sum
    else .done roundedInput)
  let negated ← source.neg limit
  .done (roundedInput < limit ∧ roundedInput > negated)

/-- `TemplatedDecimalScaleDown`, with `DecimalScaleDownCheckOperator`. -/
def templatedDecimalScaleDown (source result : DecimalType) (input : Int) : Outcome (Option Int) := do
  let scaleDifference := source.scale - result.scale
  let targetWidth := result.width + scaleDifference
  let power ← source.internalType.powerOfTen scaleDifference
  let divideFactor ← source.internalType.convert power
  if source.width < targetWidth then
    some <$> decimalScaleDownOperator source.internalType result.internalType divideFactor input
  else do
    let power ← source.internalType.powerOfTen targetWidth
    let limit ← source.internalType.convert power
    let fits ← canScaleDownDecimal source.internalType divideFactor limit input
    if !fits then .done none
    else some <$> decimalScaleDownOperator source.internalType result.internalType divideFactor input

/-- `DecimalDecimalCastSwitch`. -/
def decimalDecimalCast (source result : DecimalType) (input : Int) : Outcome (Option Int) :=
  if result.scale ≥ source.scale then templatedDecimalScaleUp source result input
  else templatedDecimalScaleDown source result input

/-! ## DECIMAL to integers -/

def tryCastDecimalToNumeric (source : Storage) (target : IntegerType) (scale : Nat) (input : Int) : Outcome (Option Int) := do
  let power ← Storage.int64.powerOfTen scale
  let fNegate : Int := if input < 0 then 1 else 0
  -- `power ^ -fNegate`
  let flipped := (BitVec.ofInt 64 power ^^^ BitVec.ofInt 64 (-fNegate)).toInt
  let negated ← Storage.int64.add flipped fNegate
  let rounding ← Storage.int64.div negated 2
  let sum ← Storage.int64.add input rounding
  let scaledValue ← Storage.int64.div sum power
  let scaledValue ← source.convert scaledValue
  tryCast source target scaledValue

def tryCastHugeDecimalToNumeric (target : IntegerType) (scale : Nat) (input : Int) : Outcome (Option Int) := do
  let power ← Storage.int128.powerOfTen scale
  let signed ← (if input < 0 then Storage.int128.neg power else .done power)
  let rounding ← Storage.int128.div signed 2
  let sum ← Storage.int128.add input rounding
  let scaledValue ← Storage.int128.div sum power
  tryCast .int128 target scaledValue

def tryCastFromDecimal (source : DecimalType) (target : IntegerType) (input : Int) : Outcome (Option Int) :=
  if source.internalType = .int128 then tryCastHugeDecimalToNumeric target source.scale input
  else tryCastDecimalToNumeric source.internalType target source.scale input

/-! ## Integers to DECIMAL -/

/-- `StandardNumericToDecimalCast`, with `SignedToDecimalOperator` or `UnsignedToDecimalOperator`. -/
def standardNumericToDecimalCast (source : IntegerType) (result : Storage) (width scale : Nat) (input : Int) :
    Outcome (Option Int) := do
  let power ← Storage.int64.powerOfTen (width - scale)
  let maxWidth ← result.convert power
  let overflow ←
    (if isSigned source then do
      let negated ← result.neg maxWidth
      .done (decide (input ≥ maxWidth ∨ input ≤ negated))
    else .done (decide (input ≥ maxWidth)))
  if overflow then .done none
  else do
    let value ← result.convert input
    let power ← Storage.int64.powerOfTen scale
    let product ← Storage.int64.mul value power
    some <$> result.convert product

def numericToHugeDecimalCast (width scale : Nat) (input : Int) : Outcome (Option Int) := do
  let maxWidth ← Storage.int128.powerOfTen (width - scale)
  let hinput := (Hugeint.convertInteger input).toInt
  let negated ← Storage.int128.neg maxWidth
  if hinput ≥ maxWidth ∨ hinput ≤ negated then .done none
  else do
    let power ← Storage.int128.powerOfTen scale
    some <$> Storage.int128.mul hinput power

/-- `Hugeint::Cast`, which gives 0 for a value that does not fit. -/
def hugeintCast (target : Storage) (value : Int) : Outcome Int := do
  let result ← tryCast .int128 target.integerType value
  .done (result.getD 0)

def hugeintToDecimalCast (result : Storage) (width scale : Nat) (input : Int) : Outcome (Option Int) := do
  let maxWidth ← Storage.int128.powerOfTen (width - scale)
  let negated ← Storage.int128.neg maxWidth
  if input ≥ maxWidth ∨ input ≤ negated then .done none
  else do
    let power ← Storage.int128.powerOfTen scale
    let product ← Storage.int128.mul input power
    some <$> hugeintCast result product

/-- `a * b` of two `uhugeint_t`. -/
def uhugeintMul (a b : Int) : Outcome Int :=
  if IntegerType.uhugeint.Holds (a * b) then .done (BitVec.ofInt 128 a * BitVec.ofInt 128 b).toNat else .fault

/-- `UhugeintToDecimalCast`, with `Uhugeint::Cast` at the end, which gives 0 for a value that does not fit. -/
def uhugeintToDecimalCast (result : Storage) (width scale : Nat) (input : Int) : Outcome (Option Int) := do
  let maxWidth ← Storage.int128.powerOfTen (width - scale)
  if input ≥ maxWidth then .done none
  else do
    let power ← Storage.int128.powerOfTen scale
    let product ← uhugeintMul input power
    .done (some (if product ≤ result.integerType.maximum then product else 0))

def tryCastToDecimal (source : IntegerType) (result : DecimalType) (input : Int) : Outcome (Option Int) :=
  if source = .hugeint then hugeintToDecimalCast result.internalType result.width result.scale input
  else if source = .uhugeint then uhugeintToDecimalCast result.internalType result.width result.scale input
  else if result.internalType = .int128 then numericToHugeDecimalCast result.width result.scale input
  else standardNumericToDecimalCast source result.internalType result.width result.scale input

end Haybarn.Decimal
