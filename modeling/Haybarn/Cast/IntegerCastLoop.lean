/-
Casts of text to numbers: `TryIntegerCast` and the loop that hands the digits, decimals and the exponent of a text to the
operation it is given. An operation that returns false ends the cast.
-/
import Haybarn.Decimal.Cast

namespace Haybarn.Cast

open Lib Common

/-! ## Operations -/

/-- What a cast does with the digits it is handed, in a state of type `σ`; nothing is a return of false. The first argument
is `NEGATIVE`. -/
structure Operation (σ : Type) where
  handleDigit : Bool → σ → Nat → Outcome (Option σ)
  handleHexDigit : Bool → σ → Nat → Outcome (Option σ)
  handleBinaryDigit : Bool → σ → Nat → Outcome (Option σ)
  handleDecimal : Bool → σ → Nat → Outcome (Option σ)
  handleExponent : Bool → σ → Int → Outcome (Option σ)
  finalize : Bool → σ → Outcome (Option σ)

/-- `if (!f(state)) return false;`. -/
def orFail {α β : Type} (o : Outcome (Option α)) (f : α → Outcome (Option β)) : Outcome (Option β) := do
  match ← o with
  | none => .done none
  | some a => f a

/-- The number is computed, and the cast fails where a check does. -/
def guarded (check : Bool) (t : IntegerType) (n : Int) : Outcome (Option Int) :=
  if check then .done none else some <$> Decimal.staticCast t n

section IntegerCastOperation

variable (t : IntegerType)

/-- `IntegerCastOperation::HandleDigit` on `IntegerCastData<T>`. -/
def integerHandleDigit (negative : Bool) (result : Int) (digit : Nat) : Outcome (Option Int) :=
  if negative then guarded (result < (t.minimum + digit).tdiv 10) t (result * 10 - digit)
  else guarded (result > (t.maximum - digit).tdiv 10) t (result * 10 + digit)

/-- `IntegerCastOperation` on `IntegerCastData<T>`, whose state is the result. -/
def integerCastOperation : Operation Int where
  handleDigit := integerHandleDigit t
  handleHexDigit _ result digit := guarded (result > (t.maximum - digit).tdiv 16) t (result * 16 + digit)
  handleBinaryDigit _ result digit := guarded (result > (t.maximum - digit).tdiv 2) t (result * 2 + digit)
  handleDecimal _ _ _ := .done none
  handleExponent _ _ _ := .done none
  finalize _ result := .done (some result)

end IntegerCastOperation

/-! ## Characters -/

def characterIsSpace (c : UInt8) : Bool := c = 0x20 ∨ c = 0x09 ∨ c = 0x0A ∨ c = 0x0B ∨ c = 0x0C ∨ c = 0x0D

def characterIsDigit (c : UInt8) : Bool := 0x30 ≤ c ∧ c ≤ 0x39

def characterToLower (c : UInt8) : UInt8 := if 0x41 ≤ c ∧ c ≤ 0x5A then c + 0x20 else c

def characterIsHex (c : UInt8) : Bool :=
  (0x30 ≤ c ∧ c ≤ 0x39) ∨ (0x61 ≤ c ∧ c ≤ 0x66) ∨ (0x41 ≤ c ∧ c ≤ 0x46)

/-- `'_'`. -/
def underscore : UInt8 := 0x5F

/-- `'+'`. -/
def plusSign : UInt8 := 0x2B

/-- `'-'`. -/
def minusSign : UInt8 := 0x2D

/-- `buf[pos] - '0'`. -/
def digitOf (c : UInt8) : Nat := c.toNat - 0x30

/-- What is behind a digit: one underscore is skipped, and must be followed by a character that `follows` accepts. -/
def skipUnderscore (follows : UInt8 → Bool) : List UInt8 → Option (List UInt8)
  | [] => some []
  | c :: rest =>
    if c = underscore then
      match rest with
      | [] => none
      | d :: rest => if follows d then some (d :: rest) else none
    else some (c :: rest)

theorem skipUnderscore_length {follows : UInt8 → Bool} {rest rest' : List UInt8}
    (h : skipUnderscore follows rest = some rest') : rest'.length ≤ rest.length := by
  unfold skipUnderscore at h
  split at h
  next => cases h; simp
  next =>
    split at h
    next =>
      split at h
      next => cases h
      next =>
        split at h
        next => cases h; simp
        next => cases h
    next => cases h; simp

/-! ## `IntegerCastLoop` -/

section Loop

variable {σ : Type} (op : Operation σ) (negative strict : Bool) (decimalSeparator : UInt8)

/-- The loop behind a decimal separator: what is left of the text, from the first character that is no digit on. -/
def decimalsLoop (text : List UInt8) (state : σ) : Outcome (Option (List UInt8 × σ)) :=
  match text with
  | [] => .done (some ([], state))
  | c :: rest =>
    if !characterIsDigit c then .done (some (c :: rest, state))
    else orFail (op.handleDecimal negative state (digitOf c)) fun state =>
      match h : skipUnderscore characterIsDigit rest with
      | none => .done none
      | some rest' =>
        have := skipUnderscore_length h
        decimalsLoop rest' state
termination_by text.length
decreasing_by simp only [List.length_cons]; omega

/-- The end of the loop: `Finalize`, and whether it has moved from where it started. -/
def finish (moved : Bool) (state : σ) : Outcome (Option σ) :=
  orFail (op.finalize negative state) fun state => .done (if moved then some state else none)

/-- The loop at a character that is no digit, from where a decimal separator with its decimals has been read on. -/
def nonDigit (exponentOf : Option (List UInt8 → Outcome (Option Int))) (moved : Bool) (c : UInt8) (rest : List UInt8)
    (state : σ) : Outcome (Option σ) :=
  if characterIsSpace c then
    if rest.all characterIsSpace then finish op negative true state else .done none
  else
    match exponentOf with
    | some exponentOf =>
      if c = 0x65 ∨ c = 0x45 then
        if strict then .done none
        else if !moved then .done none
        else if rest = [] then .done none
        else orFail (exponentOf rest) fun exponent => op.handleExponent negative state exponent
      else .done none
    | none => .done none

/-- `IntegerCastLoop` from a position on, where `moved` tells whether it is behind the start. The exponent is parsed by
`exponentOf`, if exponents are allowed. -/
def integerCastLoopFrom (exponentOf : Option (List UInt8 → Outcome (Option Int))) (moved : Bool) (text : List UInt8)
    (state : σ) : Outcome (Option σ) :=
  match text with
  | [] => finish op negative moved state
  | c :: rest =>
    if !characterIsDigit c then
      if c = decimalSeparator then
        if strict then .done none
        else orFail (decimalsLoop op negative rest state) fun (rest', state) =>
          -- a digit is needed before or behind the separator
          if !(moved || rest'.length < rest.length) then .done none
          else match rest' with
            | [] => finish op negative true state
            | c :: rest => nonDigit op negative strict exponentOf true c rest state
      else nonDigit op negative strict exponentOf moved c rest state
    else orFail (op.handleDigit negative state (digitOf c)) fun state =>
      match h : if strict then some rest else skipUnderscore characterIsDigit rest with
      | none => .done none
      | some rest' =>
        have : rest'.length ≤ rest.length := by
          split at h
          next => cases h; exact Nat.le_refl _
          next => exact skipUnderscore_length h
        integerCastLoopFrom exponentOf true rest' state
termination_by text.length
decreasing_by simp only [List.length_cons]; omega

/-- `IntegerCastLoop`, on a text that is not empty. -/
def integerCastLoopWith (exponentOf : Option (List UInt8 → Outcome (Option Int))) (buf : List UInt8) (state : σ) :
    Outcome (Option σ) :=
  if negative then integerCastLoopFrom op negative strict decimalSeparator exponentOf false buf.tail state
  else if buf.head? = some plusSign then
    if strict then .done none else integerCastLoopFrom op negative strict decimalSeparator exponentOf false buf.tail state
  else integerCastLoopFrom op negative strict decimalSeparator exponentOf false buf state

end Loop

/-- The cast of an exponent, `IntegerCastLoop` on `IntegerCastData<int16_t>`. -/
def exponentCast (strict : Bool) (decimalSeparator : UInt8) (buf : List UInt8) : Outcome (Option Int) :=
  integerCastLoopWith (integerCastOperation .smallint) (buf.head? = some minusSign) strict decimalSeparator none buf 0

def integerCastLoop {σ : Type} (op : Operation σ) (negative allowExponent strict : Bool) (decimalSeparator : UInt8)
    (buf : List UInt8) (state : σ) : Outcome (Option σ) :=
  integerCastLoopWith op negative strict decimalSeparator
    (if allowExponent then some (exponentCast strict decimalSeparator) else none) buf state

/-! ## Other bases -/

section Bases

variable {σ : Type} (op : Operation σ)

/-- `IntegerHexCastLoop` behind the `x`, without `NEGATIVE` and exponents. -/
def integerHexCastLoop (moved : Bool) (text : List UInt8) (state : σ) : Outcome (Option σ) :=
  match text with
  | [] => finish op false moved state
  | c :: rest =>
    let currentChar := characterToLower c
    if !characterIsHex currentChar then .done none
    else
      let digit := if currentChar ≥ 0x61 then currentChar.toNat - 0x61 + 10 else currentChar.toNat - 0x30
      match h : skipUnderscore characterIsHex rest with
      | none => .done none
      | some rest' => orFail (op.handleHexDigit false state digit) fun state =>
        have := skipUnderscore_length h
        integerHexCastLoop true rest' state
termination_by text.length
decreasing_by simp only [List.length_cons]; omega

/-- `IntegerBinaryCastLoop` behind the `b`, without `NEGATIVE` and exponents. -/
def integerBinaryCastLoop (moved : Bool) (text : List UInt8) (state : σ) : Outcome (Option σ) :=
  match text with
  | [] => finish op false moved state
  | c :: rest =>
    if c ≠ 0x30 ∧ c ≠ 0x31 then .done none
    else match h : skipUnderscore (fun c => c = 0x30 ∨ c = 0x31) rest with
      | none => .done none
      | some rest' => orFail (op.handleBinaryDigit false state (digitOf c)) fun state =>
        have := skipUnderscore_length h
        integerBinaryCastLoop true rest' state
termination_by text.length
decreasing_by simp only [List.length_cons]; omega

end Bases

/-! ## `TryIntegerCast` -/

/-- `TryIntegerCast`, from an initial state. -/
def tryIntegerCast {σ : Type} (op : Operation σ) (isSigned allowExponent : Bool) (decimalSeparator : UInt8)
    (buf : List UInt8) (state : σ) (strict : Bool) : Outcome (Option σ) :=
  match buf.dropWhile characterIsSpace with
  | [] => .done none
  | c :: rest =>
    if c = minusSign then
      if !isSigned && rest.any (· ≠ 0x30) then .done none
      else integerCastLoop op true allowExponent strict decimalSeparator (c :: rest) state
    else if c = 0x30 ∧ (rest.head? = some 0x78 ∨ rest.head? = some 0x58) then integerHexCastLoop op false rest.tail state
    else if c = 0x30 ∧ (rest.head? = some 0x62 ∨ rest.head? = some 0x42) then integerBinaryCastLoop op false rest.tail state
    else if c = 0x30 ∧ strict ∧ (rest.head?.map characterIsDigit) = some true then .done none
    else integerCastLoop op false allowExponent strict decimalSeparator (c :: rest) state

end Haybarn.Cast
