/-
The casts of 128-bit integers to the integer types and their decimal text, from `hugeint.cpp`, and the arithmetic as
a whole: everything is exact, but for products that are the minimum.
-/
import Mathlib.Data.Nat.Prime.Basic
import Mathlib.NumberTheory.Divisors
import Haybarn.Hugeint.Divide
import Haybarn.Lib.Outcome

namespace Haybarn.Common

open Lib

/-! ## Integer types -/

/-- The integral types of `LogicalTypeId`. -/
inductive IntegerType where
  | tinyint
  | smallint
  | integer
  | bigint
  | hugeint
  | utinyint
  | usmallint
  | uinteger
  | ubigint
  | uhugeint
deriving DecidableEq, Repr

namespace IntegerType

def internalType : IntegerType → FixedType
  | tinyint => .int8
  | smallint => .int16
  | integer => .int32
  | bigint => .int64
  | hugeint => .int128
  | utinyint => .uint8
  | usmallint => .uint16
  | uinteger => .uint32
  | ubigint => .uint64
  | uhugeint => .uint128

def minimum : IntegerType → Int
  | tinyint => -2 ^ 7
  | smallint => -2 ^ 15
  | integer => -2 ^ 31
  | bigint => -2 ^ 63
  | hugeint => -2 ^ 127
  | utinyint | usmallint | uinteger | ubigint | uhugeint => 0

def maximum : IntegerType → Int
  | tinyint => 2 ^ 7 - 1
  | smallint => 2 ^ 15 - 1
  | integer => 2 ^ 31 - 1
  | bigint => 2 ^ 63 - 1
  | hugeint => 2 ^ 127 - 1
  | utinyint => 2 ^ 8 - 1
  | usmallint => 2 ^ 16 - 1
  | uinteger => 2 ^ 32 - 1
  | ubigint => 2 ^ 64 - 1
  | uhugeint => 2 ^ 128 - 1

/-- The integers of a type. -/
def Holds (t : IntegerType) (n : Int) : Prop := t.minimum ≤ n ∧ n ≤ t.maximum

instance (t : IntegerType) (n : Int) : Decidable (t.Holds n) := inferInstanceAs (Decidable (_ ∧ _))

theorem holds_toInt (t : IntegerType) (v : t.internalType.Value) : t.Holds (t.internalType.toInt v) := by
  have hsigned (w : Nat) (x : BitVec w) : -2 ^ (w - 1) ≤ x.toInt ∧ x.toInt ≤ 2 ^ (w - 1) - 1 :=
    ⟨x.le_toInt, Int.le_sub_one_of_lt x.toInt_lt⟩
  have hunsigned (w : Nat) (x : BitVec w) : (0 : Int) ≤ x.toNat ∧ (x.toNat : Int) ≤ 2 ^ w - 1 :=
    ⟨Int.natCast_nonneg _, Int.le_sub_one_of_lt (by exact_mod_cast x.isLt)⟩
  cases t with
  | tinyint => exact hsigned 8 v
  | smallint => exact hsigned 16 v
  | integer => exact hsigned 32 v
  | bigint => exact hsigned 64 v
  | hugeint => exact ⟨(Hugeint.inRange_toInt v).1, Int.le_sub_one_of_lt (Hugeint.inRange_toInt v).2⟩
  | utinyint => exact hunsigned 8 v
  | usmallint => exact hunsigned 16 v
  | uinteger => exact hunsigned 32 v
  | ubigint => exact hunsigned 64 v
  | uhugeint =>
    have hlt := Hugeint.toNat_lt v
    have hv : FixedType.uint128.toInt v = (Hugeint.toNat v : Int) := by
      unfold Hugeint.toNat
      push_cast
      rfl
    have hmax : uhugeint.maximum = 2 ^ 128 - 1 := rfl
    have hmin : uhugeint.minimum = 0 := rfl
    show _ ≤ FixedType.uint128.toInt v ∧ FixedType.uint128.toInt v ≤ _
    rw [hv, hmax, hmin]
    omega

theorem toNat_ofInt_of_bounds {width : Nat} {n : Int} (h0 : 0 ≤ n) (h : n < 2 ^ width) :
    ((BitVec.ofInt width n).toNat : Int) = n := by
  rw [BitVec.toNat_ofInt]
  have : n % ((2 ^ width : Nat) : Int) = n := Int.emod_eq_of_lt h0 (by exact_mod_cast h)
  omega

theorem exists_value (t : IntegerType) {n : Int} (h : t.Holds n) : ∃ v, t.internalType.toInt v = n := by
  have hsigned (w : Nat) (hw : 0 < w) (h : -2 ^ (w - 1) ≤ n ∧ n ≤ 2 ^ (w - 1) - 1) : ∃ x : BitVec w, x.toInt = n :=
    ⟨_, BitVec.toInt_ofInt_eq_self hw h.1 (Int.lt_of_le_sub_one h.2)⟩
  have hunsigned (w : Nat) (h : 0 ≤ n ∧ n ≤ 2 ^ w - 1) : ∃ x : BitVec w, (x.toNat : Int) = n :=
    ⟨_, toNat_ofInt_of_bounds h.1 (Int.lt_of_le_sub_one h.2)⟩
  cases t with
  | tinyint => exact hsigned 8 (by decide) h
  | smallint => exact hsigned 16 (by decide) h
  | integer => exact hsigned 32 (by decide) h
  | bigint => exact hsigned 64 (by decide) h
  | utinyint => exact hunsigned 8 h
  | usmallint => exact hunsigned 16 h
  | uinteger => exact hunsigned 32 h
  | ubigint => exact hunsigned 64 h
  | hugeint =>
    obtain ⟨hlo, hhi⟩ : -2 ^ 127 ≤ n ∧ n ≤ 2 ^ 127 - 1 := h
    obtain ⟨u, hu⟩ : ∃ u : BitVec 64, u.toInt = n / 2 ^ 64 :=
      ⟨_, BitVec.toInt_ofInt_eq_self (by decide) (by omega) (by omega)⟩
    obtain ⟨l, hl⟩ : ∃ l : BitVec 64, (l.toNat : Int) = n % 2 ^ 64 :=
      ⟨_, toNat_ofInt_of_bounds (by omega) (by omega)⟩
    refine ⟨⟨u, l⟩, ?_⟩
    show u.toInt * 2 ^ 64 + (l.toNat : Int) = n
    omega
  | uhugeint =>
    obtain ⟨hlo, hhi⟩ : 0 ≤ n ∧ n ≤ 2 ^ 128 - 1 := h
    obtain ⟨u, hu⟩ : ∃ u : BitVec 64, (u.toNat : Int) = n / 2 ^ 64 :=
      ⟨_, toNat_ofInt_of_bounds (by omega) (by omega)⟩
    obtain ⟨l, hl⟩ : ∃ l : BitVec 64, (l.toNat : Int) = n % 2 ^ 64 :=
      ⟨_, toNat_ofInt_of_bounds (by omega) (by omega)⟩
    refine ⟨⟨u, l⟩, ?_⟩
    show (u.toNat : Int) * 2 ^ 64 + (l.toNat : Int) = n
    omega

end IntegerType

namespace Hugeint

/-! ## Casts -/

/-- `HugeintTryCastInteger`, to a type of `width` bits. -/
def hugeintTryCastInteger (width : Nat) (maximum : BitVec 64) (signed : Bool) (input : Hugeint) :
    Option (BitVec width) :=
  if input.upper = 0 then
    -- positive number: check if the positive number is in range
    if input.lower ≤ maximum then some (input.lower.setWidth width) else none
  else if input.upper = -1 then
    if !signed then none
    -- negative number: check if the negative number is in range
    else if BitVec.allOnes 64 - maximum ≤ input.lower then
      some (-(BitVec.allOnes 64 - input.lower).setWidth width - 1)
    else none
  else none

def tryCast : (t : IntegerType) → Hugeint → Option t.internalType.Value
  | .tinyint => hugeintTryCastInteger 8 0x7f true
  | .smallint => hugeintTryCastInteger 16 0x7fff true
  | .integer => hugeintTryCastInteger 32 0x7fffffff true
  | .bigint => hugeintTryCastInteger 64 0x7fffffffffffffff true
  | .hugeint => fun input => some input
  | .utinyint => hugeintTryCastInteger 8 0xff false
  | .usmallint => hugeintTryCastInteger 16 0xffff false
  | .uinteger => hugeintTryCastInteger 32 0xffffffff false
  | .ubigint => hugeintTryCastInteger 64 0xffffffffffffffff false
  | .uhugeint => fun input => if lessThan input (convertInteger 0) then none else some input

/-- A cast of `n`: it succeeds exactly when the type holds `n`, and keeps the number. -/
def Casts (t : IntegerType) (result : Option t.internalType.Value) (n : Int) : Prop :=
  (t.Holds n → ∃ v, result = some v ∧ t.internalType.toInt v = n) ∧ (¬ t.Holds n → result = none)

theorem upper_eq_zero_iff (a : Hugeint) : a.upper = 0 ↔ a.upper.toInt = 0 := by
  rw [← BitVec.toInt_inj]
  rfl

theorem upper_eq_neg_one_iff (a : Hugeint) : a.upper = -1 ↔ a.upper.toInt = -1 := by
  rw [← BitVec.toInt_inj]
  have : (-1 : BitVec 64).toInt = -1 := by decide
  rw [this]

theorem setWidth_lower {a : Hugeint} (width : Nat) (h : a.upper.toInt = 0) :
    a.lower.setWidth width = BitVec.ofInt width a.toInt := by
  have hint : a.toInt = a.lower.toNat := by
    unfold toInt
    omega
  rw [hint, BitVec.ofInt_natCast, BitVec.ofNat_toNat]

theorem neg_setWidth_lower {a : Hugeint} (width : Nat) (h : a.upper.toInt = -1) :
    -(BitVec.allOnes 64 - a.lower).setWidth width - 1 = BitVec.ofInt width a.toInt := by
  have hlower := a.lower.isLt
  have hint : a.toInt = -((~~~ a.lower).toNat : Int) - (1 : Nat) := by
    rw [BitVec.toNat_not]
    unfold toInt
    omega
  rw [hint, BitVec.allOnes_sub_eq_not, Int.sub_eq_add_neg, BitVec.ofInt_add, BitVec.ofInt_neg, BitVec.ofInt_neg,
    BitVec.ofInt_natCast, BitVec.ofInt_natCast, BitVec.ofNat_toNat, ← BitVec.sub_eq_add_neg]
  rfl

theorem hugeintTryCastInteger_eq (width : Nat) (maximum : BitVec 64) (signed : Bool) (a : Hugeint) :
    hugeintTryCastInteger width maximum signed a =
      if (if signed then -(maximum.toNat : Int) - 1 else 0) ≤ a.toInt ∧ a.toInt ≤ maximum.toNat then
        some (BitVec.ofInt width a.toInt)
      else none := by
  have hlower := a.lower.isLt
  have hmaximum := maximum.isLt
  have hupper := limb_bounds a.upper
  have hint : a.toInt = a.upper.toInt * 2 ^ 64 + a.lower.toNat := rfl
  unfold hugeintTryCastInteger
  by_cases h0 : a.upper.toInt = 0
  · rw [if_pos ((upper_eq_zero_iff a).mpr h0), setWidth_lower width h0]
    congr 1
    rw [BitVec.le_def]
    apply propext
    cases signed <;> simp only [if_true, Bool.false_eq_true, if_false] <;> omega
  · rw [if_neg (mt (upper_eq_zero_iff a).mp h0)]
    by_cases h1 : a.upper.toInt = -1
    · rw [if_pos ((upper_eq_neg_one_iff a).mpr h1), neg_setWidth_lower width h1]
      cases signed with
      | false =>
        simp only [Bool.not_false, if_true, Bool.false_eq_true, if_false]
        rw [if_neg (by omega)]
      | true =>
        simp only [Bool.not_true, Bool.false_eq_true, if_false, if_true]
        congr 1
        rw [BitVec.allOnes_sub_eq_not, BitVec.le_def, BitVec.toNat_not]
        apply propext
        omega
    · rw [if_neg (mt (upper_eq_neg_one_iff a).mp h1), if_neg]
      cases signed <;> simp only [if_true, Bool.false_eq_true, if_false] <;> omega

theorem castInteger_signed (width : Nat) (maximum : BitVec 64) (hpos : 0 < width)
    (hmaximum : (maximum.toNat : Int) = 2 ^ (width - 1) - 1) (a : Hugeint) :
    (-2 ^ (width - 1) ≤ a.toInt ∧ a.toInt ≤ 2 ^ (width - 1) - 1 →
        ∃ v, hugeintTryCastInteger width maximum true a = some v ∧ v.toInt = a.toInt) ∧
      (¬ (-2 ^ (width - 1) ≤ a.toInt ∧ a.toInt ≤ 2 ^ (width - 1) - 1) →
        hugeintTryCastInteger width maximum true a = none) := by
  have hminimum : -((2 : Int) ^ (width - 1) - 1) - 1 = -2 ^ (width - 1) := by omega
  rw [hugeintTryCastInteger_eq, if_pos rfl, hmaximum, hminimum]
  refine ⟨fun h => ?_, fun h => if_neg h⟩
  rw [if_pos h]
  exact ⟨_, rfl, BitVec.toInt_ofInt_eq_self hpos h.1 (Int.lt_of_le_sub_one h.2)⟩

theorem castInteger_unsigned (width : Nat) (maximum : BitVec 64) (hmaximum : (maximum.toNat : Int) = 2 ^ width - 1)
    (a : Hugeint) :
    (0 ≤ a.toInt ∧ a.toInt ≤ 2 ^ width - 1 →
        ∃ v, hugeintTryCastInteger width maximum false a = some v ∧ (v.toNat : Int) = a.toInt) ∧
      (¬ (0 ≤ a.toInt ∧ a.toInt ≤ 2 ^ width - 1) → hugeintTryCastInteger width maximum false a = none) := by
  rw [hugeintTryCastInteger_eq, hmaximum]
  simp only [Bool.false_eq_true, if_false]
  refine ⟨fun h => ?_, fun h => if_neg h⟩
  rw [if_pos h]
  exact ⟨_, rfl, IntegerType.toNat_ofInt_of_bounds h.1 (Int.lt_of_le_sub_one h.2)⟩

theorem casts_tryCast (t : IntegerType) (a : Hugeint) : Casts t (tryCast t a) a.toInt := by
  have hrange := a.inRange_toInt
  unfold InRange at hrange
  cases t with
  | tinyint => exact castInteger_signed 8 0x7f (by decide) (by decide) a
  | smallint => exact castInteger_signed 16 0x7fff (by decide) (by decide) a
  | integer => exact castInteger_signed 32 0x7fffffff (by decide) (by decide) a
  | bigint => exact castInteger_signed 64 0x7fffffffffffffff (by decide) (by decide) a
  | hugeint => exact ⟨fun _ => ⟨a, rfl, rfl⟩, fun h => absurd ⟨hrange.1, Int.le_sub_one_of_lt hrange.2⟩ h⟩
  | utinyint => exact castInteger_unsigned 8 0xff (by decide) a
  | usmallint => exact castInteger_unsigned 16 0xffff (by decide) a
  | uinteger => exact castInteger_unsigned 32 0xffffffff (by decide) a
  | ubigint => exact castInteger_unsigned 64 0xffffffffffffffff (by decide) a
  | uhugeint =>
    unfold Casts IntegerType.Holds
    simp only [tryCast, IntegerType.minimum, IntegerType.maximum, lessThan_iff, toInt_zero]
    split_ifs with hneg
    · exact ⟨fun h => by omega, fun _ => rfl⟩
    · refine ⟨fun _ => ⟨a, rfl, ?_⟩, fun h => by omega⟩
      show ((a.upper.toNat : Int) * 2 ^ 64 + a.lower.toNat) = a.toInt
      rw [toInt_eq_toNat (toNat_lt_of_nonneg (not_lt.mp hneg)), toNat]
      norm_cast

/-! ## Decimal text -/

/-- The loop of `ToString`, with the turns it may take. -/
def toStringLoop : Nat → Hugeint → List Char → Outcome (List Char)
  | 0, _, _ => .hang
  | turns + 1, input, result =>
    if input.lower = 0 ∧ input.upper = 0 then .done result
    else
      let (input, remainder) := divModPositive input 10
      toStringLoop turns input (Char.ofNat (48 + remainder.toNat) :: result)

def toString (turns : Nat) (input : Hugeint) : Outcome String :=
  if input = minimum then .done "-170141183460469231731687303715884105728"
  else do
    let negative := input.upper.slt 0
    let input ← (if negative then
        match tryNegate input with
        | some input => .done input
        | none => .error "Negation of HUGEINT is out of range!"
      else .done input)
    let result ← toStringLoop turns input []
    if result = [] then .done "0"
    else .done (if negative then "-" ++ String.ofList result else String.ofList result)

/-- The digits of a number, without a digit for 0. -/
def digits (n : Nat) : List Char := if n = 0 then [] else Nat.toDigits 10 n

theorem digits_step {n : Nat} (h : n ≠ 0) : digits n = digits (n / 10) ++ [Char.ofNat (48 + n % 10)] := by
  have hdigit : ∀ d < 10, Nat.digitChar d = Char.ofNat (48 + d) := by decide
  unfold digits
  rw [if_neg h, ← hdigit _ (Nat.mod_lt n (by decide)), Nat.toDigits_eq_if (by decide)]
  by_cases hlt : n < 10
  · rw [if_pos hlt, if_pos (Nat.div_eq_of_lt hlt), Nat.mod_eq_of_lt hlt]
    rfl
  · rw [if_neg hlt, if_neg (by omega)]

theorem toStringLoop_spec : ∀ {turns : Nat} {a : Hugeint} (result : List Char), a.toNat < 2 ^ 127 →
    a.toNat < 10 ^ turns → toStringLoop (turns + 1) a result = .done (digits a.toNat ++ result) := by
  intro turns
  have hzero (a : Hugeint) : a.lower = 0 ∧ a.upper = 0 ↔ a.toNat = 0 := by
    have hiff : a.toNat = 0 ↔ a = ⟨0, 0⟩ := ⟨fun h => toNat_injective (h.trans rfl), fun h => h ▸ rfl⟩
    obtain ⟨upper, lower⟩ := a
    rw [hiff, mk.injEq]
    exact and_comm
  have hten : (10 : BitVec 64).toNat = 10 := rfl
  induction turns with
  | zero =>
    intro a result _ h
    have h0 : a.toNat = 0 := by omega
    rw [toStringLoop, if_pos ((hzero a).mpr h0), h0]
    rfl
  | succ turns ih =>
    intro a result hlt h
    by_cases h0 : a.toNat = 0
    · rw [toStringLoop, if_pos ((hzero a).mpr h0), h0]
      rfl
    · obtain ⟨hdiv, hmod⟩ := divModPositive_spec hlt (show 0 < (10 : BitVec 64).toNat by decide) (by decide)
      rw [hten] at hdiv hmod
      rw [toStringLoop, if_neg (mt (hzero a).mp h0)]
      simp only
      rw [ih _ (by rw [hdiv]; omega) (by rw [hdiv]; rw [Nat.pow_succ] at h; omega), hdiv, hmod, digits_step h0,
        List.append_assoc, List.singleton_append]

theorem repr_of_pos {n : Nat} (h : n ≠ 0) : Int.repr n = String.ofList (digits n) := by
  unfold digits
  rw [if_neg h]
  rfl

theorem repr_of_neg {n : Nat} (h : n ≠ 0) : Int.repr (-(n : Int)) = "-" ++ String.ofList (digits n) := by
  obtain ⟨m, rfl⟩ : ∃ m, n = m + 1 := ⟨n - 1, by omega⟩
  unfold digits
  rw [if_neg h]
  rfl

theorem digits_eq_nil {n : Nat} : digits n = [] ↔ n = 0 := by
  constructor
  · intro h
    by_contra hn
    rw [digits_step hn] at h
    exact absurd h (by simp)
  · intro h
    rw [h]
    rfl

theorem toString_eq (a : Hugeint) {turns : Nat} (hturns : 39 < turns) : toString turns a = .done a.toInt.repr := by
  unfold toString
  by_cases hmin : a = minimum
  · rw [if_pos hmin, hmin, toInt_minimum]
    exact congrArg Outcome.done (by decide +kernel)
  · obtain ⟨t, rfl⟩ : ∃ t, turns = t + 1 := ⟨turns - 1, by omega⟩
    have hlt : a.magnitude.toNat < 2 ^ 127 := toNat_lt_of_nonneg (toInt_magnitude hmin ▸ abs_nonneg _)
    have hdigits : 2 ^ 127 ≤ 10 ^ 39 := by decide
    have hmono : 10 ^ 39 ≤ 10 ^ t := Nat.pow_le_pow_right (by decide) (Nat.le_of_lt_succ hturns)
    have hbound := Nat.lt_of_lt_of_le (Nat.lt_of_lt_of_le hlt hdigits) hmono
    have hnegate : (if a.upper.slt 0 then
        match tryNegate a with
        | some input => Outcome.done input
        | none => .error "Negation of HUGEINT is out of range!"
      else .done a) = .done a.magnitude := by
      rw [tryNegate_eq, if_neg hmin, magnitude]
      split_ifs <;> rfl
    have hnat := toNat_magnitude hmin
    have hloop := toStringLoop_spec [] hlt hbound
    rw [List.append_nil, hnat] at hloop
    rw [if_neg hmin]
    simp only []
    rw [hnegate, Outcome.done_bind, hloop, Outcome.done_bind, upper_slt_zero]
    simp only [digits_eq_nil, decide_eq_true_eq]
    by_cases h0 : a.toInt.natAbs = 0
    · rw [if_pos h0, Int.natAbs_eq_zero.mp h0]
      rfl
    · rw [if_neg h0]
      congr 1
      split_ifs with hneg
      · rw [← repr_of_neg h0]
        congr 1
        omega
      · rw [← repr_of_pos h0]
        congr 1
        omega

/-! ## The arithmetic as a whole -/

/-- The operations on `a` and `b` are exact. -/
structure Exact (a b : Hugeint) : Prop where
  add : ComputesInPlace (tryAddInPlace a b) a (a.toInt + b.toInt)
  subtract : ComputesInPlace (trySubtractInPlace a b) a (a.toInt - b.toInt)
  multiply : Computes (tryMultiply a b) (a.toInt * b.toInt)
  negate : Computes (tryNegate a) (-a.toInt)
  divMod : if b.toInt = 0 ∨ a.toInt = -2 ^ 127 ∧ b.toInt = -1 then tryDivMod a b = none
    else ∃ q r, tryDivMod a b = some (q, r) ∧ q.toInt = a.toInt.tdiv b.toInt ∧ r.toInt = a.toInt.tmod b.toInt
  fallback : tryMultiplyFallback a b = tryMultiply a b
  cast : ∀ t, Casts t (tryCast t a) a.toInt
  text : ∀ turns, 39 < turns → toString turns a = .done a.toInt.repr

/-- A power of two and the negative of one whose product is the minimum, neither of which is the minimum. -/
def OppositePowers (a b : Hugeint) : Prop :=
  ∃ i, 0 < i ∧ i < 127 ∧
    (a.toInt = 2 ^ i ∧ b.toInt = -2 ^ (127 - i) ∨ a.toInt = -2 ^ i ∧ b.toInt = 2 ^ (127 - i))

theorem oppositePowers_iff (a b : Hugeint) :
    OppositePowers a b ↔ a ≠ minimum ∧ b ≠ minimum ∧ a.toInt * b.toInt = -2 ^ 127 := by
  rw [ne_minimum_iff, ne_minimum_iff]
  constructor
  · rintro ⟨i, hpos, hlt, h⟩
    have hprod : (2 : Int) ^ i * 2 ^ (127 - i) = 2 ^ 127 := by
      rw [← pow_add, Nat.add_sub_cancel' hlt.le]
    have hi : (2 : Int) ^ i < 2 ^ 127 := pow_lt_pow_right₀ (by decide) hlt
    have hj : (2 : Int) ^ (127 - i) < 2 ^ 127 := pow_lt_pow_right₀ (by decide) (by omega)
    have hi0 : (0 : Int) < 2 ^ i := pow_pos (by decide) _
    have hj0 : (0 : Int) < 2 ^ (127 - i) := pow_pos (by decide) _
    rcases h with ⟨ha, hb⟩ | ⟨ha, hb⟩
    · exact ⟨by omega, by omega, by rw [ha, hb, mul_neg, hprod]⟩
    · exact ⟨by omega, by omega, by rw [ha, hb, neg_mul, hprod]⟩
  · rintro ⟨ha, hb, h⟩
    have habs : a.toInt.natAbs * b.toInt.natAbs = 2 ^ 127 := by
      rw [← Int.natAbs_mul, h]
      rfl
    have hra := a.inRange_toInt
    have hrb := b.inRange_toInt
    unfold InRange at hra hrb
    obtain ⟨i, hle, hai⟩ := (Nat.dvd_prime_pow Nat.prime_two).mp (Dvd.intro _ habs)
    have hbi : b.toInt.natAbs = 2 ^ (127 - i) := by
      have hprod : 2 ^ i * 2 ^ (127 - i) = 2 ^ 127 := by
        rw [← pow_add, Nat.add_sub_cancel' hle]
      rw [hai] at habs
      exact Nat.eq_of_mul_eq_mul_left (Nat.two_pow_pos i) (habs.trans hprod.symm)
    -- neither factor is the minimum
    have hi127 : i ≠ 127 := by
      rintro rfl
      omega
    have hi0 : i ≠ 0 := by
      rintro rfl
      omega
    have hneg : a.toInt * b.toInt < 0 := by
      rw [h]
      decide
    have hai' : (a.toInt.natAbs : Int) = 2 ^ i := by exact_mod_cast hai
    have hbi' : (b.toInt.natAbs : Int) = 2 ^ (127 - i) := by exact_mod_cast hbi
    refine ⟨i, by omega, by omega, ?_⟩
    rcases mul_neg_iff.mp hneg with ⟨ha0, hb0⟩ | ⟨ha0, hb0⟩
    · left
      constructor <;> omega
    · right
      constructor <;> omega

/-- The arithmetic is exact but for the products of opposite powers of two that are the minimum. -/
theorem exact_iff_not_oppositePowers (a b : Hugeint) : Exact a b ↔ ¬ OppositePowers a b := by
  rw [oppositePowers_iff, ← computes_tryMultiply_iff]
  refine ⟨fun h => h.multiply, fun h => ?_⟩
  exact ⟨computes_tryAddInPlace a b, computes_trySubtractInPlace a b, h, computes_tryNegate a, tryDivMod_spec a b,
    tryMultiplyFallback_eq a b, fun t => casts_tryCast t a, fun _ hturns => toString_eq a hturns⟩

/-- `2^126 * -2` is the minimum, and is rejected. -/
theorem not_exact_minimum_product : ¬ Exact ⟨0x4000000000000000, 0⟩ ⟨-1, -2⟩ := by
  intro h
  have hnone : tryMultiply ⟨0x4000000000000000, 0⟩ ⟨-1, -2⟩ = none := by decide
  obtain ⟨c, hc, -⟩ := h.multiply.1 (by decide)
  rw [hnone] at hc
  exact absurd hc (by simp)

end Hugeint

end Haybarn.Common
