/-
BIGNUMs and text, from `types/bignum.cpp`. Text is cut into digits to the base 10^16, which are divided by 256 for one
byte after the other; the bytes of a blob are taken four at a time, and multiplied into digits to the base 10^9. Both ways
are inverse to each other, on the text of an integer and on canonical blobs.
-/
import Haybarn.Bignum.Encoding
import Haybarn.Lib.Digits
import Mathlib.Tactic.Ring

namespace Haybarn.Bignum

open Lib Lib.Outcome

/-! ## From text -/

def isDigit (c : UInt8) : Bool := 0x30 ≤ c ∧ c ≤ 0x39

def digitToChar (digit : Nat) : UInt8 := UInt8.ofNat (digit + 0x30)

def charToDigit (c : UInt8) : Nat := c.toNat - 0x30

/-- What `Bignum::VarcharFormatting` finds out. -/
structure Formatting where
  startPos : Nat
  endPos : Nat
  isNegative : Bool
  isZero : Bool

/-- `Bignum::VarcharFormatting`. Nothing is a return of false. -/
def varcharFormatting (value : List UInt8) : Outcome (Option Formatting) :=
  if value.isEmpty then done none
  else do
    let endPos := value.length
    let first ← read value 0
    let isNegative := first == 0x2D
    let startPos := if isNegative then 1 else 0
    let startPos := if first == 0x2B then startPos + 1 else startPos
    let trimmed ← skipWhile (fun c => c == 0x30) value (endPos + 1) startPos
    let atLeastOneZero := decide (startPos < trimmed)
    if trimmed = endPos then done (if atLeastOneZero then some ⟨trimmed, endPos, isNegative, true⟩ else none)
    else do
      let curPos ← skipWhile isDigit value (endPos + 1) trimmed
      if curPos < endPos then do
        let c ← read value curPos
        if c ≠ 0x2E then done none
        else do
          let afterDigits ← skipWhile isDigit value (endPos + 1) (curPos + 1)
          if afterDigits < endPos then done none
          else if curPos = trimmed then
            let hasDigitAfterDecimal := decide (curPos + 1 < afterDigits)
            done (if !atLeastOneZero && !hasDigitAfterDecimal then none else some ⟨trimmed, endPos, isNegative, true⟩)
          else done (some ⟨trimmed, curPos, isNegative, false⟩)
      else done (some ⟨trimmed, endPos, isNegative, false⟩)

/-- The most digits that are taken at a time. -/
def maxDigits : Nat := 16

/-- `std::stoull`, of text without spaces and sign. -/
def stoull (text : List UInt8) : Outcome Nat :=
  let digits := text.takeWhile isDigit
  if digits.isEmpty then error "stoull"
  else
    let n := number (digits.map charToDigit)
    if n < 2 ^ 64 then done n else error "stoull"

/-- One turn of the loop that cuts text into digits, the last ones first. -/
def cutTurn (value : List UInt8) (startPos : Nat) (_ : Nat) (s : List Nat × Int) : Outcome (List Nat × Int) := do
  let curStart := if (startPos : Int) > s.2 - maxDigits then (startPos : Int) else s.2 - maxDigits
  let n ← stoull ((value.drop curStart.toNat).take (s.2 - curStart).toNat)
  done (s.1 ++ [n], s.2 - maxDigits)

/-- The digits of a division, the place in them, and the remainder. -/
structure Division where
  digits : List Nat
  digitIdx : Int
  remainder : Nat

/-- One turn of the loop that divides. A digit in front that has become zero is given up. -/
def divideTurn (_ : Nat) (s : Division) : Outcome Division := do
  let digit ← read s.digits s.digitIdx.toNat
  let digit := (digit + s.remainder * 10 ^ maxDigits) % 2 ^ 64
  let digits := s.digits.set s.digitIdx.toNat (digit / 256)
  done {
    digits := if digit / 256 = 0 ∧ s.digitIdx = digits.length - 1 then digits.dropLast else digits
    digitIdx := s.digitIdx - 1
    remainder := digit % 256 }

/-- The digits that are left, and the bytes so far. -/
structure Conversion where
  digits : List Nat
  result : List UInt8

/-- One turn of the loop of `Bignum::EncodeBignum`. -/
def encodeTurn (isNegative : Bool) (s : Conversion) : Outcome Conversion := do
  let d ← forLoop divideTurn 0 s.digits.length ⟨s.digits, s.digits.length - 1, 0⟩
  let remainder := UInt8.ofNat d.remainder
  done ⟨d.digits, s.result ++ [if isNegative then ~~~remainder else remainder]⟩

def encodeBignum (value : List UInt8) (f : Formatting) : Outcome (List UInt8) :=
  if f.isZero then done (setHeader 1 false ++ [0])
  else do
    let actualSize := f.endPos - f.startPos
    -- `std::ceil(static_cast<double>(actual_size) / max_digits)`, which is exact
    let numberOfDigits := (actualSize + maxDigits - 1) / maxDigits
    let cut ← forLoop (cutTurn value f.startPos) 0 numberOfDigits ([], (f.endPos : Int))
    let s ← loop (fun s => !s.digits.isEmpty) (encodeTurn f.isNegative) (7 * numberOfDigits + 1) ⟨cut.1, []⟩
    done (setHeader s.result.length f.isNegative ++ s.result.reverse)

def varcharToBignum (value : List UInt8) : Outcome (List UInt8) := do
  match ← varcharFormatting value with
  | some f => encodeBignum value f
  | none => error "Could not convert string '%s' to Bignum"

/-! ## To text -/

def decimalShift : Nat := 9

def decimalBase : Nat := 1000000000

def getByteArray (blob : List UInt8) : Outcome (List UInt8 × Bool) :=
  if blob.length < 4 then error "Invalid blob size."
  else do
    let b ← read blob 0
    let isNegative := b &&& 0x80 == 0
    done ((blob.drop 3).map fun b => if isNegative then ~~~b else b, isNegative)

/-- The next four bytes as a `digit_t`. -/
def loadDigit (bytes : List UInt8) (i : Nat) : Outcome Nat :=
  forLoop (fun j hi => do
    let b ← read bytes (i + j)
    done (hi ||| b.toNat <<< (8 * (4 - j - 1)))) 0 4 0

/-- The digits times 2^32, plus `hi`, and what goes on behind them: the first inner loop of `Bignum::BignumToVarchar`. -/
def multiplyDigits : List Nat → Nat → List Nat × Nat
  | [], hi => ([], hi)
  | digit :: digits, hi =>
    let tmp := digit <<< 32 ||| hi
    let hi := tmp / decimalBase % 2 ^ 32
    let rest := multiplyDigits digits hi
    ((tmp - decimalBase * hi % 2 ^ 32) % 2 ^ 32 :: rest.1, rest.2)

/-- `while (hi) { digits.push_back(hi % DECIMAL_BASE); hi /= DECIMAL_BASE; }`, with the turns it may take. -/
def pushDigits : Nat → List Nat → Nat → Outcome (List Nat)
  | 0, _, _ => hang
  | turns + 1, digits, hi =>
    if hi ≠ 0 then pushDigits turns (digits ++ [hi % decimalBase]) (hi / decimalBase) else done digits

/-- One turn of the loop over the bytes. -/
def digitsTurn (bytes : List UInt8) (k : Nat) (digits : List Nat) : Outcome (List Nat) := do
  let hi ← loadDigit bytes (4 * k)
  let multiplied := multiplyDigits digits hi
  pushDigits (multiplied.2 + 1) multiplied.1 multiplied.2

/-- `for (j = 0; j < count; j++) { decimal_string += DigitToChar(remain % 10); remain /= 10; }`. -/
def lowCharacters : Nat → Nat → List UInt8
  | 0, _ => []
  | count + 1, remain => digitToChar (remain % 10) :: lowCharacters count (remain / 10)

/-- `do { decimal_string += DigitToChar(remain % 10); remain /= 10; } while (remain != 0)`, with the turns it may take. -/
def allCharacters : Nat → Nat → Outcome (List UInt8)
  | 0, _ => hang
  | turns + 1, remain =>
    if remain / 10 ≠ 0 then do
      let rest ← allCharacters turns (remain / 10)
      done (digitToChar (remain % 10) :: rest)
    else done [digitToChar (remain % 10)]

def bignumToVarchar (blob : List UInt8) : Outcome (List UInt8) := do
  let (byteArray, isNegative) ← getByteArray blob
  let paddingSize := ((-UInt64.ofNat byteArray.length) &&& 3).toNat
  let byteArray := List.replicate paddingSize 0 ++ byteArray
  let digits ← forLoop (digitsTurn byteArray) 0 ((byteArray.length + 3) / 4) []
  let digits := if digits.isEmpty then [0] else digits
  let back ← read digits (digits.length - 1)
  let last ← allCharacters (back + 1) back
  let decimalString := (digits.take (digits.length - 1)).flatMap (lowCharacters decimalShift) ++ last
  done (decimalString ++ if isNegative then [0x2D] else []).reverse

end Haybarn.Bignum
