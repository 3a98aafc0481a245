/-
Addition of BIGNUMs, from `bignum.cpp`. An intermediate is a sign and bytes that are stored as those of a blob, but may
begin with filler bytes; sums are added to in place, in memory that is doubled where a byte for the carry may be missing.
-/
import Haybarn.Bignum.Encoding

namespace Haybarn.Bignum

open Lib Lib.Outcome

/-! ## Intermediates -/

/-- `BignumIntermediate`: the sign, and as many bytes as the size tells. -/
structure BignumIntermediate where
  isNegative : Bool
  data : List UInt8
  deriving DecidableEq

inductive AbsoluteNumberComparison where
  | equal
  | greater
  | smaller
  deriving DecidableEq

/-- The byte in front of the magnitude. -/
def filler (isNegative : Bool) : UInt8 := if isNegative then 0xFF else 0x00

/-- The loop of `GetStartDataPos`: how often the byte is the first one. -/
def countLeading (b : UInt8) : List UInt8 → Nat
  | [] => 0
  | x :: data => if x = b then countLeading b data + 1 else 0

/-- `GetStartDataPos` of data. -/
def getStartDataPos (data : List UInt8) (isNegative : Bool) : Nat := countLeading (filler isNegative) data

/-- `data[i] = b`. -/
def write (data : List UInt8) (i : Nat) (b : UInt8) : Outcome (List UInt8) :=
  if i < data.length then done (data.set i b) else fault

/-- `Trim` of data. At least one byte is kept. -/
def trim (data : List UInt8) (isNegative : Bool) : List UInt8 :=
  let actualStart := getStartDataPos data isNegative
  if actualStart = 0 then data
  else
    let size := data.length - actualStart
    if size = 0 then data.take 1 else (data.drop actualStart).take size

/-- `OverOrUnderflow` of data. -/
def overOrUnderflow (data : List UInt8) (isNegative : Bool) : Bool :=
  if data.length ≤ maxDataSize then false
  else (data.take (data.length - maxDataSize)).any fun b => b != filler isNegative

def produceOverUnderFlowError (isResultNegative : Bool) (actualStart dataSize : Nat) : String :=
  (if isResultNegative then "Underflow " else "Overflow ") ++ "in Bignum Operation. A Bignum can hold max " ++
    toString maxDataSize ++ " data bytes. Current bignum has " ++ toString (dataSize - actualStart) ++ " bytes."

namespace BignumIntermediate

def size (v : BignumIntermediate) : Nat := v.data.length

/-- The constructor from a blob. -/
def ofBlob (value : List UInt8) : Outcome BignumIntermediate := do
  let b ← read value 0
  done ⟨b &&& 0x80 == 0, value.drop bignumHeaderSize⟩

def startDataPos (v : BignumIntermediate) : Nat := getStartDataPos v.data v.isNegative

def getAbsoluteByte (v : BignumIntermediate) (index : Int) : Outcome UInt8 :=
  if index < 0 then done 0
  else do
    let b ← read v.data index.toNat
    done (if v.isNegative then ~~~b else b)

/-- The loop of `IsAbsoluteBigger`. -/
def compareBytes (v rhs : BignumIntermediate) : Nat → Nat → Nat → Outcome AbsoluteNumberComparison
  | 0, _, _ => hang
  | turns + 1, targetIdx, sourceIdx =>
    if targetIdx < v.size then do
      let dataByte ← v.getAbsoluteByte targetIdx
      let rhsByte ← rhs.getAbsoluteByte sourceIdx
      if dataByte > rhsByte then done .greater
      else if dataByte < rhsByte then done .smaller
      else compareBytes v rhs turns (targetIdx + 1) (sourceIdx + 1)
    else done .equal

def isAbsoluteBigger (v rhs : BignumIntermediate) : Outcome AbsoluteNumberComparison :=
  let actualSize := v.size - v.startDataPos
  let rhsActualSize := rhs.size - rhs.startDataPos
  if actualSize > rhsActualSize then done .greater
  else if actualSize < rhsActualSize then done .smaller
  else compareBytes v rhs (v.size + 1) v.startDataPos rhs.startDataPos

def isMSBSet (v : BignumIntermediate) : Outcome Bool := do
  let b ← read v.data 0
  done (if v.isNegative then b &&& 0x80 == 0 else b &&& 0x80 != 0)

/-- `Initialize`. -/
def initialized : BignumIntermediate := ⟨false, [0]⟩

/-- `Reallocate`, to twice the size until it is more than the least one. -/
def reallocate (v : BignumIntermediate) (minSize : Nat) : Outcome BignumIntermediate :=
  if minSize < v.size then done v
  else do
    let newSize ← loop (fun newSize => decide (newSize ≤ minSize)) (fun newSize => done (newSize * 2 % 2 ^ 32)) (minSize + 2)
      v.size
    done { v with data := List.replicate (newSize - v.size) (filler v.isNegative) ++ v.data }

def toBignum (v : BignumIntermediate) : List UInt8 :=
  let data := trim v.data v.isNegative
  setHeader data.length v.isNegative ++ data

def negate (v : BignumIntermediate) : List UInt8 :=
  if !v.isNegative && v.data == [0] then setHeader v.size v.isNegative ++ v.data
  else setHeader v.size (!v.isNegative) ++ v.data.map fun b => ~~~b

end BignumIntermediate

/-! ## Addition -/

/-- The places of `BignumAddition` in its operands and in the result, the carry and the borrow, and the result. -/
structure AdditionState where
  iTarget : Int
  iSource : Int
  iResult : Int
  carry : Nat
  borrow : Nat
  result : List UInt8

/-- The sum of two bytes as a `uint16_t`, and the carry and the borrow behind it. -/
def addBytes (sameSign isTargetAbsoluteBigger : Bool) (targetByte sourceByte : UInt8) (carry borrow : Nat) : Nat × Nat × Nat :=
  if sameSign then
    let sum := (targetByte.toNat + sourceByte.toNat + carry) % 2 ^ 16
    (sum, (sum >>> 8) &&& 0xFF, borrow)
  else
    let (minuend, subtrahend) := if isTargetAbsoluteBigger then (targetByte.toNat, sourceByte.toNat)
      else (sourceByte.toNat, targetByte.toNat)
    let sum := (((minuend : Int) - subtrahend - borrow) % 2 ^ 16).toNat
    (sum, carry, if sum > minuend then 1 else 0)

/-- One turn of the loop of `BignumAddition`. The left operand may be the memory that the result is written to. -/
def additionTurn (isTargetAbsoluteBigger isResultNegative : Bool) (lhs : List UInt8 → BignumIntermediate)
    (rhs : BignumIntermediate) (s : AdditionState) : Outcome AdditionState := do
  let targetByte ← (lhs s.result).getAbsoluteByte s.iTarget
  let sourceByte ← rhs.getAbsoluteByte s.iSource
  let (sum, carry, borrow) := addBytes ((lhs s.result).isNegative == rhs.isNegative) isTargetAbsoluteBigger targetByte
    sourceByte s.carry s.borrow
  let resultByte := UInt8.ofNat (sum &&& 0xFF)
  let result ← write s.result s.iResult.toNat (if isResultNegative then ~~~resultByte else resultByte)
  done ⟨s.iTarget - 1, s.iSource - 1, s.iResult - 1, carry, borrow, result⟩

def bignumAddition (result : List UInt8) (resultEnd : Nat) (isTargetAbsoluteBigger : Bool)
    (lhs : List UInt8 → BignumIntermediate) (rhs : BignumIntermediate) : Outcome (List UInt8) := do
  let isResultNegative := if isTargetAbsoluteBigger then (lhs result).isNegative else rhs.isNegative
  let s ← loop (fun s => decide (0 ≤ s.iResult)) (additionTurn isTargetAbsoluteBigger isResultNegative lhs rhs)
    (resultEnd + 1) ⟨(lhs result).size - 1, rhs.size - 1, resultEnd - 1, 0, 0, result⟩
  if isResultNegative ≠ (lhs result).isNegative then
    forLoop (fun i result => write result i (filler isResultNegative)) 0 (resultEnd - rhs.size) s.result
  else done s.result

namespace BignumIntermediate

/-- Whether an addition has to make room for a carry. -/
def needsByte (v rhs : BignumIntermediate) : Outcome Bool := do
  let msb ← v.isMSBSet
  let rhsMsb ← rhs.isMSBSet
  done (v.size - v.startDataPos < rhs.size - rhs.startDataPos ||
    v.isNegative == rhs.isNegative && (msb || rhsMsb && v.size == rhs.size))

/-- `Add`, the blob of the sum. -/
def add (lhs rhs : BignumIntermediate) : Outcome (List UInt8) := do
  let actualSize := lhs.size - lhs.startDataPos
  let actualRhsSize := rhs.size - rhs.startDataPos
  let needed ← lhs.needsByte rhs
  let resultSize := if needed then (if actualSize < actualRhsSize then actualRhsSize + 1 else actualSize + 1) else actualSize
  let resultSize := if resultSize = 0 then resultSize + 1 else resultSize
  let comparison ← (if lhs.isNegative ≠ rhs.isNegative then lhs.isAbsoluteBigger rhs else done .greater)
  if comparison = .equal then done (setHeader 1 false ++ [0])
  else
    let isTargetAbsoluteBigger := comparison ≠ .smaller
    let data ← bignumAddition (List.replicate resultSize 0) resultSize isTargetAbsoluteBigger (fun _ => lhs) rhs
    let isResultNegative := if isTargetAbsoluteBigger then lhs.isNegative else rhs.isNegative
    if overOrUnderflow data isResultNegative then
      error (produceOverUnderFlowError isResultNegative (getStartDataPos data isResultNegative) resultSize)
    else
      let data := trim data isResultNegative
      done (setHeader data.length isResultNegative ++ data)

def addInPlace (v rhs : BignumIntermediate) : Outcome BignumIntermediate := do
  let actualSize := v.size - v.startDataPos
  let actualRhsSize := rhs.size - rhs.startDataPos
  let needed ← v.needsByte rhs
  let v ← (if needed then v.reallocate (if actualSize < actualRhsSize then actualRhsSize + 1 else v.size + 1) else done v)
  let comparison ← (if rhs.isNegative ≠ v.isNegative then v.isAbsoluteBigger rhs else done .greater)
  if comparison = .equal then done initialized
  else
    let isTargetAbsoluteBigger := comparison ≠ .smaller
    let isResultNegative := if isTargetAbsoluteBigger then v.isNegative else rhs.isNegative
    let data ← bignumAddition v.data v.size isTargetAbsoluteBigger (fun data => { v with data := data }) rhs
    if overOrUnderflow data isResultNegative then
      error (produceOverUnderFlowError isResultNegative (getStartDataPos data isResultNegative) v.size)
    else done ⟨isResultNegative, data⟩

end BignumIntermediate

/-- `BignumAdd`, of one row. -/
def bignumAdd (a b : List UInt8) : Outcome (List UInt8) := do
  let lhs ← BignumIntermediate.ofBlob a
  let rhs ← BignumIntermediate.ofBlob b
  lhs.add rhs

/-- `BignumNegate`, of one row. -/
def bignumNegate (a : List UInt8) : Outcome (List UInt8) := do
  let lhs ← BignumIntermediate.ofBlob a
  done lhs.negate

/-! ## Sums -/

structure BignumState where
  isSet : Bool
  value : BignumIntermediate

namespace BignumState

/-- `BignumOperation::Initialize`. -/
def initial : BignumState := ⟨false, ⟨false, []⟩⟩

/-- The state with a value, which is zero if it had none. -/
def set (state : BignumState) : BignumState := if state.isSet then state else ⟨true, .initialized⟩

def operation (state : BignumState) (input : List UInt8) : Outcome BignumState := do
  let rhs ← BignumIntermediate.ofBlob input
  let value ← state.set.value.addInPlace rhs
  done ⟨true, value⟩

def combine (source target : BignumState) : Outcome BignumState :=
  if !source.isSet then done target
  else do
    let value ← target.set.value.addInPlace source.value
    done ⟨true, value⟩

/-- `BignumOperation::Finalize`. Nothing is a NULL. -/
def finalize (state : BignumState) : Option (List UInt8) := if !state.isSet then none else some state.value.toBignum

end BignumState

end Haybarn.Bignum
