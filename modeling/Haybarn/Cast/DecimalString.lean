/-
The cast of text to DECIMAL: the operation that `TryIntegerCast` hands the digits to, and `TryDecimalStringCast`.

The numbers that a cast of text to DECIMAL keeps, as magnitudes with a sign: appending a digit, rounding up, appending zeros
and dropping digits, all exact as long as the storage has room for the result.
-/
import Haybarn.Cast.IntegerCastLoop
import Haybarn.Cast.Literal
import Haybarn.Lib.Rounding

namespace Haybarn.Cast

open Lib Lib.Outcome Common Decimal Nat

inductive ExponentType where
  | none
  | positive
  | negative
  deriving DecidableEq

structure DecimalCastData where
  result : Int
  width : Nat
  scale : Nat
  digitCount : Nat
  decimalCount : Nat
  roundSet : Bool
  shouldRound : Bool
  excessiveDecimals : Nat
  exponentType : ExponentType
  limit : Int

/-- `DecimalWidth<T>::max`. -/
def maxWidth : Storage → Nat
  | .int16 => 4
  | .int32 => 9
  | .int64 => 18
  | .int128 => 38

namespace DecimalCast

variable (t : Storage) (negative : Bool)

/-- `result * 10 - digit`, or `result * 10 + digit`. -/
def appendDigit (result : Int) (digit : Nat) : Outcome Int := do
  let shifted ← t.mul result 10
  let n ← (if negative then t.sub shifted digit else t.add shifted digit)
  t.convert n

def handleDigit (state : DecimalCastData) (digit : Nat) : Outcome (Option DecimalCastData) :=
  if state.result = 0 ∧ digit = 0 then .done (some state)
  else if state.digitCount = state.width - state.scale then .done none
  else if negative ∧ state.result < t.integerType.minimum.tdiv 10 then .done none
  else if ¬ negative ∧ state.result > t.integerType.maximum.tdiv 10 then .done none
  else do
    let result ← appendDigit t negative state.result digit
    .done (some { state with digitCount := state.digitCount + 1, result })

/-- `HandleDecimal`, with `ALLOW_EXPONENT`. -/
def handleDecimal (state : DecimalCastData) (digit : Nat) : Outcome (Option DecimalCastData) :=
  let state :=
    if state.decimalCount = state.scale ∧ ¬ state.roundSet then { state with roundSet := true, shouldRound := digit ≥ 5 }
    else state
  if state.digitCount + state.decimalCount ≥ maxWidth t then .done (some state)
  else do
    let result ← appendDigit t negative state.result digit
    .done (some { state with decimalCount := state.decimalCount + 1, result })

def roundUpResult (result : Int) : Outcome Int := do
  let n ← (if negative then t.sub result 1 else t.add result 1)
  t.convert n

/-- A loop that drops the last digit and notes whether to round for it, of which one also ends at zero. -/
def dropDigits (stopAtZero : Bool) : Nat → Int → Bool → Outcome (Int × Bool)
  | 0, result, roundUp => .done (result, roundUp)
  | count + 1, result, _ => do
    let mod ← t.mod result 10
    let roundUp : Bool := if negative then mod ≤ -5 else mod ≥ 5
    let result ← t.div result 10
    let result ← t.convert result
    if stopAtZero ∧ result = 0 then .done (result, roundUp) else dropDigits stopAtZero count result roundUp

def truncateExcessiveDecimals (state : DecimalCastData) : Outcome DecimalCastData := do
  let (result, roundUp) ← dropDigits t negative false state.excessiveDecimals state.result false
  let result ← (if state.exponentType = .positive ∧ roundUp then roundUpResult t negative result else .done result)
  .done { state with result, decimalCount := state.scale }

/-- `for (uint8_t i = state.decimal_count; i < state.scale; i++) state.result *= 10;`, with the turns that are left. -/
def appendZeros : Nat → Int → Outcome Int
  | 0, result => .done result
  | turns + 1, result => do
    let n ← t.mul result 10
    let result ← t.convert n
    appendZeros turns result

def finalize (state : DecimalCastData) : Outcome (Option DecimalCastData) := do
  let state :=
    if state.exponentType ≠ .positive ∧ state.decimalCount > state.scale then
      { state with excessiveDecimals := state.decimalCount - state.scale }
    else state
  let state ← (if state.excessiveDecimals ≠ 0 then truncateExcessiveDecimals t negative state else .done state)
  let result ←
    (if state.exponentType = .none ∧ state.roundSet ∧ state.shouldRound then roundUpResult t negative state.result
    else .done state.result)
  let result ← appendZeros t (state.scale - state.decimalCount) result
  let bound ← (if negative then t.neg state.limit else .done state.limit)
  if (if negative then result > bound else result < bound) then .done (some { state with result }) else .done none

/-- The loop of `HandleExponent` that appends zeros. -/
def handleZeros : Nat → DecimalCastData → Outcome (Option DecimalCastData)
  | 0, state => .done (some state)
  | turns + 1, state => orFail (handleDigit t negative state 0) (handleZeros turns)

def handleExponent (state : DecimalCastData) (exponent : Int) : Outcome (Option DecimalCastData) :=
  let decimalExcess := if state.decimalCount > state.scale then state.decimalCount - state.scale else 0
  let (state, exponent) : DecimalCastData × Int :=
    if exponent > 0 then
      if decimalExcess > exponent then
        ({ state with exponentType := .positive, excessiveDecimals := (decimalExcess - exponent).toNat }, 0)
      else ({ state with exponentType := .positive }, exponent - decimalExcess)
    else if exponent < 0 then ({ state with exponentType := .negative }, exponent)
    else (state, exponent)
  orFail (finalize t negative state) fun state =>
    if exponent < 0 then do
      let (result, roundUp) ← dropDigits t negative true (-exponent).toNat state.result false
      let result ← (if roundUp then roundUpResult t negative result else .done result)
      .done (some { state with result })
    else handleZeros t negative exponent.toNat state

end DecimalCast

def decimalCastOperation (t : Storage) : Operation DecimalCastData where
  handleDigit := DecimalCast.handleDigit t
  handleHexDigit _ _ _ := .done none
  handleBinaryDigit _ _ _ := .done none
  handleDecimal := DecimalCast.handleDecimal t
  handleExponent := DecimalCast.handleExponent t
  finalize := DecimalCast.finalize t

/-- `TryDecimalStringCast`, to the DECIMAL type: the result, or nothing if it returns false. -/
def tryDecimalStringCast (type : DecimalType) (decimalSeparator : UInt8) (string : List UInt8) : Outcome (Option Int) := do
  let t := type.internalType
  let power ← t.powerOfTen type.width
  let limit ← t.convert power
  let state : DecimalCastData :=
    { result := 0, width := type.width, scale := type.scale, digitCount := 0, decimalCount := 0, roundSet := false,
      shouldRound := false, excessiveDecimals := 0, exponentType := .none, limit }
  orFail (tryIntegerCast (decimalCastOperation t) true true decimalSeparator string state false) fun state =>
    .done (some state.result)

variable {t : Storage} {negative : Bool} {m n d : Nat}

/-! ## The storage -/

/-- The greatest number of a storage. -/
def greatest (t : Storage) : Nat := t.integerType.maximum.toNat

theorem natAbs_signed : (signed negative n).natAbs = n := by
  cases negative <;> simp [signed]

theorem signed_eq_zero : signed negative n = 0 ↔ n = 0 := by
  rw [← Int.natAbs_eq_zero, natAbs_signed]

theorem holds_signed (h : n ≤ greatest t) : t.Holds (signed negative n) := by
  have hgreatest : (greatest t : Int) = t.integerType.maximum ∧ t.integerType.minimum = -t.integerType.maximum - 1 := by
    cases t <;> decide
  constructor <;> cases negative <;> simp [signed] <;> omega

theorem pow_maxWidth_lt : 10 ^ maxWidth t < greatest t := by
  cases t <;> decide

theorem ten_le_greatest : 10 ≤ greatest t := by
  cases t <;> decide

theorem mul_signed (hm : m ≤ greatest t) (hn : n ≤ greatest t) (h : m * n ≤ greatest t) :
    t.mul (signed negative m) n = .done (signed negative (m * n)) := by
  have hproduct : signed negative m * n = signed negative (m * n) := by
    cases negative <;> simp [signed]
  have hn' : t.Holds n := @holds_signed t false n hn
  have hne : ∀ {negative} {k : Nat}, t = .int128 → k ≤ greatest t → signed negative k ≠ -2 ^ 127 := by
    rintro negative k rfl hk heq
    have hk' : k = 2 ^ 127 := by
      rw [← @natAbs_signed negative k, heq]
      rfl
    rw [hk'] at hk
    exact absurd hk (by decide)
  rw [← hproduct]
  refine Storage.mul_done (holds_signed hm) hn' ?_ fun ht => ⟨hne ht hm, @hne false n ht hn, ?_⟩
  · rw [hproduct]
    exact Storage.holds_promoted (holds_signed h)
  · rw [hproduct]
    exact hne ht h

theorem appendDigit_eq (h : n * 10 + d ≤ greatest t) :
    DecimalCast.appendDigit t negative (signed negative n) d = .done (signed negative (n * 10 + d)) := by
  have hmul : t.mul (signed negative n) 10 = .done (signed negative (n * 10)) :=
    @mul_signed t negative n 10 (by omega) ten_le_greatest (by omega)
  have hd : t.Holds d := @holds_signed t false d (by omega)
  have hsum := Storage.holds_promoted (@holds_signed t negative (n * 10 + d) h)
  have htimes : signed negative (n * 10) = signed negative n * 10 := by cases negative <;> simp [signed]
  rw [signed_succ, ← htimes] at hsum
  rw [DecimalCast.appendDigit, hmul, done_bind, signed_succ, ← htimes]
  cases negative with
  | true =>
    rw [if_pos rfl] at hsum ⊢
    rw [if_pos rfl, Storage.sub_done (holds_signed (by omega)) hd hsum, done_bind, htimes]
    refine Storage.convert_done ?_
    have := @holds_signed t true (n * 10 + d) h
    rwa [signed_succ, if_pos rfl] at this
  | false =>
    rw [if_neg (by decide)] at hsum ⊢
    rw [if_neg (by decide), Storage.add_done (holds_signed (by omega)) hd hsum, done_bind, htimes]
    refine Storage.convert_done ?_
    have := @holds_signed t false (n * 10 + d) h
    rwa [signed_succ, if_neg (by decide)] at this

theorem roundUpResult_eq (h : n + 1 ≤ greatest t) :
    DecimalCast.roundUpResult t negative (signed negative n) = .done (signed negative (n + 1)) := by
  have hone : t.Holds 1 := @holds_signed t false 1 (by omega)
  have hsum := @holds_signed t negative (n + 1) h
  rw [DecimalCast.roundUpResult]
  cases negative with
  | true =>
    have hnext : signed true (n + 1) = signed true n - 1 := by simp [signed]; ring
    rw [hnext] at hsum ⊢
    rw [if_pos rfl, Storage.sub_done (holds_signed (by omega)) hone (Storage.holds_promoted hsum), done_bind]
    exact Storage.convert_done hsum
  | false =>
    have hnext : signed false (n + 1) = signed false n + 1 := by simp [signed]
    rw [hnext] at hsum ⊢
    rw [if_neg (by decide), Storage.add_done (holds_signed (by omega)) hone (Storage.holds_promoted hsum), done_bind]
    exact Storage.convert_done hsum

theorem appendZeros_eq : ∀ {turns n : Nat}, n * 10 ^ turns ≤ greatest t →
    DecimalCast.appendZeros t turns (signed negative n) = .done (signed negative (n * 10 ^ turns))
  | 0, n, _ => by rw [DecimalCast.appendZeros, pow_zero, Nat.mul_one]
  | turns + 1, n, h => by
    have hnext : n * 10 ^ (turns + 1) = n * 10 * 10 ^ turns := by ring
    have hle : n * 10 ≤ greatest t := le_trans (Nat.le_mul_of_pos_right _ (by positivity)) (hnext ▸ h)
    have hmul : t.mul (signed negative n) 10 = .done (signed negative (n * 10)) :=
      @mul_signed t negative n 10 (by omega) ten_le_greatest hle
    rw [DecimalCast.appendZeros, hmul, done_bind, Storage.convert_done (holds_signed hle), done_bind,
      appendZeros_eq (hnext ▸ h), ← hnext]

/-! ## Dropping digits -/

theorem tdiv_signed : (signed negative n).tdiv 10 = signed negative (n / 10) := by
  cases negative <;> simp [signed, Int.neg_tdiv, Int.tdiv_eq_ediv_of_nonneg]

theorem tmod_signed : (signed negative n).tmod 10 = signed negative (n % 10) := by
  cases negative <;> simp [signed, Int.neg_tmod, Int.tmod_eq_emod_of_nonneg]

theorem dropDigits_succ {stopAtZero roundUp : Bool} {count : Nat} (h : n ≤ greatest t) :
    DecimalCast.dropDigits t negative stopAtZero (count + 1) (signed negative n) roundUp =
      if stopAtZero ∧ n / 10 = 0 then .done (signed negative (n / 10), decide (5 ≤ n % 10))
      else DecimalCast.dropDigits t negative stopAtZero count (signed negative (n / 10)) (decide (5 ≤ n % 10)) := by
  have hten : t.Holds 10 := @holds_signed t false 10 ten_le_greatest
  have hround : (if negative then decide (signed negative (n % 10) ≤ -5) else decide (signed negative (n % 10) ≥ 5)) =
      decide (5 ≤ n % 10) := by
    cases negative <;> simp [signed] <;> omega
  rw [DecimalCast.dropDigits, Storage.mod_done (holds_signed h) hten (by decide), done_bind,
    Storage.div_done (holds_signed h) hten (by decide), done_bind, tdiv_signed, tmod_signed,
    Storage.convert_done (holds_signed (by omega)), done_bind, hround]
  simp only [signed_eq_zero]

theorem dropDigits_eq : ∀ {count n : Nat} {roundUp : Bool}, n ≤ greatest t →
    DecimalCast.dropDigits t negative false (count + 1) (signed negative n) roundUp =
      .done (signed negative (n / 10 ^ (count + 1)), decide (5 ≤ n / 10 ^ count % 10))
  | 0, n, roundUp, h => by
    rw [dropDigits_succ h, if_neg (by simp), DecimalCast.dropDigits, pow_one, pow_zero, Nat.div_one]
  | count + 1, n, roundUp, h => by
    rw [dropDigits_succ h, if_neg (by simp), dropDigits_eq (by omega), Nat.div_div_eq_div_mul, Nat.div_div_eq_div_mul,
      ← pow_succ', ← pow_succ']

theorem two_mul_five_pow (count : Nat) : 10 ^ (count + 1) = 2 * (5 * 10 ^ count) := by
  rw [pow_succ']
  ring

theorem div_add_round (n count : Nat) :
    n / 10 ^ (count + 1) + (decide (5 ≤ n / 10 ^ count % 10)).toNat = halfUp n (10 ^ (count + 1)) := by
  have hten : halfUp (n / 10 ^ count) (2 * 5) = n / 10 ^ count / 10 + (decide (5 ≤ n / 10 ^ count % 10)).toNat := by
    by_cases hle : 5 ≤ n / 10 ^ count % 10
    · simp only [halfUp, hle, decide_true, Bool.toNat_true]
      omega
    · simp only [halfUp, hle, decide_false, Bool.toNat_false]
      omega
  have hpow : 10 ^ count * (2 * 5) = 10 ^ (count + 1) := by rw [pow_succ]
  rw [halfUp_div _ (by positivity), hpow] at hten
  rw [hten, Nat.div_div_eq_div_mul, pow_succ]

/-- The loop that drops `count` digits and ends at zero does so at a digit that it rounds up for, with digits left to drop. -/
def EndsEarly (n count : Nat) : Prop := ∃ i, i + 1 < count ∧ 5 * 10 ^ i ≤ n ∧ n < 10 ^ (i + 1)

instance (n count : Nat) : Decidable (EndsEarly n count) :=
  decidable_of_iff (∃ i < count, i + 1 < count ∧ 5 * 10 ^ i ≤ n ∧ n < 10 ^ (i + 1))
    ⟨fun ⟨i, _, h⟩ => ⟨i, h⟩, fun ⟨i, h⟩ => ⟨i, by omega, h⟩⟩

theorem endsEarly_small {count : Nat} (h : n < 10) : EndsEarly n (count + 2) ↔ 5 ≤ n := by
  constructor
  · rintro ⟨i, -, hle, -⟩
    exact le_trans (Nat.le_mul_of_pos_right 5 (by positivity)) hle
  · exact fun hle => ⟨0, by omega, by simpa using hle, by simpa using h⟩

theorem endsEarly_div {count : Nat} (h : 10 ≤ n) : EndsEarly (n / 10) (count + 1) ↔ EndsEarly n (count + 2) := by
  have hlo : ∀ i, 5 * 10 ^ i ≤ n / 10 ↔ 5 * 10 ^ (i + 1) ≤ n := fun i => by
    rw [le_div_iff_mul_le (by decide), mul_assoc, ← pow_succ]
  have hhi : ∀ i, n / 10 < 10 ^ i ↔ n < 10 ^ (i + 1) := fun i => by
    rw [div_lt_iff_lt_mul (by decide), ← pow_succ]
  constructor
  · rintro ⟨i, hi, hle, hlt⟩
    exact ⟨i + 1, by omega, (hlo i).1 hle, (hhi _).1 hlt⟩
  · rintro ⟨i, hi, hle, hlt⟩
    cases i with
    | zero => omega
    | succ i => exact ⟨i, by omega, (hlo i).2 hle, (hhi _).2 hlt⟩

theorem dropDigits_stop : ∀ {count n : Nat} {roundUp : Bool}, n ≤ greatest t → ∃ r up,
    DecimalCast.dropDigits t negative true (count + 1) (signed negative n) roundUp = .done (signed negative r, up) ∧
      r ≤ n / 10 ∧ (EndsEarly n (count + 1) → r + up.toNat = 1) ∧
        (¬ EndsEarly n (count + 1) → r + up.toNat = halfUp n (10 ^ (count + 1)))
  | 0, n, roundUp, h => by
    refine ⟨n / 10, decide (5 ≤ n % 10), ?_, le_refl _, ?_, fun _ => ?_⟩
    · rw [dropDigits_succ h, DecimalCast.dropDigits, ite_self]
    · rintro ⟨i, hi, -⟩
      omega
    · simpa using div_add_round n 0
  | count + 1, n, roundUp, h => by
    rw [dropDigits_succ h]
    by_cases hzero : n / 10 = 0
    · have hlt : n < 10 := by omega
      rw [if_pos ⟨rfl, hzero⟩, hzero, mod_eq_of_lt hlt, endsEarly_small hlt]
      refine ⟨0, _, rfl, zero_le _, fun hle => by simp [hle], fun hnot => ?_⟩
      have hpow : 10 ≤ 10 ^ (count + 1 + 1) := le_self_pow (by omega) 10
      rw [(halfUp_eq_zero_iff (by positivity)).2 (by omega)]
      simp [hnot]
    · obtain ⟨r, up, heq, hle, hearly, hround⟩ := @dropDigits_stop count (n / 10) (decide (5 ≤ n % 10)) (by omega)
      have hpow : halfUp (n / 10) (10 ^ (count + 1)) = halfUp n (10 ^ (count + 1 + 1)) := by
        rw [two_mul_five_pow count, halfUp_div n (by decide), ← two_mul_five_pow, ← pow_succ']
      rw [if_neg (by simp [hzero]), ← endsEarly_div (by omega), ← hpow]
      exact ⟨r, up, heq, le_trans hle (div_le_self _ _), hearly, hround⟩

end Haybarn.Cast
