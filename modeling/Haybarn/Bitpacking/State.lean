/-
Bitpacking: the model of the first part of `bitpacking.cpp`. Values are collected in groups, with the statistics that
decide how a group is stored: as one constant, as a constant difference, or as offsets that are packed into few bits, of
the values or of their differences.
-/
import Mathlib.Data.Nat.Size
import Mathlib.Logic.Function.Basic

namespace Haybarn.Bitpacking

/-! ## Integer types -/

/-- `BITPACKING_METADATA_GROUP_SIZE`. -/
def metadataGroupSize : Nat := 2048

/-- `BITPACKING_ALGORITHM_GROUP_SIZE`. -/
def algorithmGroupSize : Nat := 32

/-- A type of integers of 8 to 128 bits. -/
structure IntType where
  bytes : Nat
  signed : Bool
  bytes_mem : bytes ∈ [1, 2, 4, 8, 16]

theorem IntType.bytes_pos (t : IntType) : 0 < t.bytes := by
  have h := t.bytes_mem
  simp only [List.mem_cons, List.not_mem_nil, or_false] at h
  omega

theorem IntType.bytes_le (t : IntType) : t.bytes ≤ 16 := by
  have h := t.bytes_mem
  simp only [List.mem_cons, List.not_mem_nil, or_false] at h
  omega

def IntType.bits (t : IntType) : Nat := 8 * t.bytes

abbrev IntType.Value (t : IntType) : Type := BitVec t.bits

section Integers

variable {w : Nat} (signed : Bool)

/-- The number that bits stand for. -/
def toInt (v : BitVec w) : Int := if signed then v.toInt else v.toNat

/-- `NumericLimits::Minimum`. -/
def minimumLimit : BitVec w := if signed then BitVec.intMin w else 0#w

/-- `NumericLimits::Maximum`. -/
def maximumLimit : BitVec w := if signed then BitVec.intMax w else BitVec.allOnes w

/-- `TrySubtractOperator`. -/
def trySubtract (left right : BitVec w) : Option (BitVec w) :=
  let result := toInt signed left - toInt signed right
  if toInt signed (minimumLimit signed : BitVec w) ≤ result ∧ result ≤ toInt signed (maximumLimit signed : BitVec w) then
    some (left - right)
  else none

def minValue (a b : BitVec w) : BitVec w := if toInt signed a < toInt signed b then a else b

def maxValue (a b : BitVec w) : BitVec w := if toInt signed a > toInt signed b then a else b

end Integers

/-- `GetEffectiveWidth`. -/
def effectiveWidth (t : IntType) (width : Nat) : Nat := if width + t.bytes > t.bits then t.bits else width

/-- `MinimumBitWidth` of one value. -/
def minimumBitWidth (t : IntType) (isSigned : Bool) (v : t.Value) : Nat :=
  if isSigned ∧ v = minimumLimit isSigned then t.bits
  else
    let value := if isSigned then maxValue t.signed (-v) v else v
    if value = 0 then 0 else effectiveWidth t ((if isSigned then 1 else 0) + value.toNat.size)

def roundUpToAlgorithmGroupSize (count : Nat) : Nat :=
  if count % algorithmGroupSize = 0 then count else count + algorithmGroupSize - count % algorithmGroupSize

def getRequiredSize (count width : Nat) : Nat := roundUpToAlgorithmGroupSize count * width / 8

/-- `AlignValue` to eight bytes. -/
def alignValue (n : Nat) : Nat := (n + 7) / 8 * 8

/-! ## Groups -/

inductive BitpackingMode where
  | invalid
  | auto
  | constant
  | constantDelta
  | deltaFor
  | for_
deriving DecidableEq, Repr

/-- What a writer is given for a group. -/
inductive Group (t : IntType) where
  | constant (constant : t.Value) (count : Nat)
  | constantDelta (constant frameOfReference : t.Value) (count : Nat)
  | deltaFor (values : Nat → t.Value) (width : Nat) (frameOfReference deltaOffset : t.Value) (count : Nat)
  | for_ (values : Nat → t.Value) (width : Nat) (frameOfReference : t.Value) (count : Nat)

/-- `BitpackingState`. The places of the buffer are only written for values that are valid: the others have what was
there before. -/
structure BitpackingState (t : IntType) where
  compressionBuffer : Nat → t.Value
  compressionBufferIdx : Nat
  totalSize : Nat
  minimum : t.Value
  maximum : t.Value
  allValid : Bool
  allInvalid : Bool
  mode : BitpackingMode

/-- The statistics of the differences. -/
structure DeltaStats (t : IntType) where
  deltaBuffer : Nat → t.Value
  minimumDelta : t.Value
  maximumDelta : t.Value
  minMaxDeltaDiff : t.Value
  deltaOffset : t.Value

namespace BitpackingState

variable {t : IntType}

def reset (s : BitpackingState t) : BitpackingState t :=
  { s with
    minimum := maximumLimit t.signed
    maximum := minimumLimit t.signed
    allValid := true
    allInvalid := true
    compressionBufferIdx := 0 }

/-- The constructor. What is in the buffer is not initialized. -/
def new (t : IntType) (mode : BitpackingMode) (uninitialized : Nat → t.Value) : BitpackingState t :=
  reset ⟨uninitialized, 0, 0, 0, 0, true, true, mode⟩

/-- `CalculateFORStats`: the difference of the maximum and the minimum. -/
def calculateForStats (s : BitpackingState t) : Option t.Value := trySubtract t.signed s.maximum s.minimum

/-- The value before a value of the buffer. The one before the first is zero. -/
def previous (s : BitpackingState t) : Nat → t.Value
  | 0 => 0
  | i + 1 => s.compressionBuffer i

/-- The differences, in the signed type. -/
def delta (s : BitpackingState t) (i : Nat) : t.Value := s.compressionBuffer i - s.previous i

/-- The largest difference. -/
def maximumDelta (s : BitpackingState t) : t.Value :=
  (List.range' 1 (s.compressionBufferIdx - 1)).foldl (fun maximum i => maxValue true maximum (s.delta i)) (minimumLimit true)

/-- The smallest difference. -/
def minimumDelta (s : BitpackingState t) : t.Value :=
  (List.range' 1 (s.compressionBufferIdx - 1)).foldl (fun minimum i => minValue true minimum (s.delta i)) (maximumLimit true)

/-- Differences of all values are certain not to overflow. -/
def canDoAll (s : BitpackingState t) : Bool :=
  !t.signed || ((trySubtract true s.minimum s.maximum).isSome && (trySubtract true s.maximum s.minimum).isSome)

/-- `CalculateDeltaStats`, where delta encoding can be done. -/
def calculateDeltaStats (s : BitpackingState t) : Option (DeltaStats t) :=
  if toInt t.signed s.maximum > toInt true (maximumLimit true : t.Value) then none
  else if s.compressionBufferIdx < 2 then none
  else if !s.allValid then none
  else if !s.canDoAll
    && (List.range s.compressionBufferIdx).any fun i => (trySubtract true (s.compressionBuffer i) (s.previous i)).isNone then
    none
  else
    match trySubtract true s.maximumDelta s.minimumDelta, trySubtract true (s.compressionBuffer 0) s.minimumDelta with
    | some minMaxDeltaDiff, some deltaOffset =>
      -- the first difference can be any
      some ⟨Function.update s.delta 0 s.minimumDelta, s.minimumDelta, s.maximumDelta, minMaxDeltaDiff, deltaOffset⟩
    | _, _ => none

def subtractFrameOfReference (count : Nat) (buffer : Nat → t.Value) (frameOfReference : t.Value) : Nat → t.Value :=
  fun i => if i < count then buffer i - frameOfReference else buffer i

/-- What `Flush` returns: success, what is written, and the state. -/
structure Flushed (t : IntType) where
  success : Bool
  group : Option (Group t)
  state : BitpackingState t

/-- The end of `Flush`: frame of reference, where it can be done. -/
def flushFor (s : BitpackingState t) : Flushed t :=
  match s.calculateForStats with
  | some minMaxDiff =>
    let width := minimumBitWidth t false minMaxDiff
    let buffer := subtractFrameOfReference s.compressionBufferIdx s.compressionBuffer s.minimum
    ⟨true, some (.for_ buffer width s.minimum s.compressionBufferIdx),
      { s with
        compressionBuffer := buffer
        totalSize := s.totalSize + getRequiredSize s.compressionBufferIdx width + t.bytes + alignValue 1 }⟩
  | none => ⟨false, none, s⟩

/-- Differences have no benefit. -/
def preferFor (s : BitpackingState t) (d : DeltaStats t) : Bool :=
  match s.calculateForStats with
  | some minMaxDiff => decide (minimumBitWidth t false d.minMaxDeltaDiff ≥ minimumBitWidth t t.signed minMaxDiff)
  | none => false

def flush (s : BitpackingState t) : Flushed t :=
  if s.compressionBufferIdx = 0 then ⟨true, none, s⟩
  else if (s.allInvalid ∨ s.maximum = s.minimum) ∧ (s.mode = .auto ∨ s.mode = .constant) then
    ⟨true, some (.constant s.maximum s.compressionBufferIdx), { s with totalSize := s.totalSize + t.bytes + 4 }⟩
  else
    match s.calculateDeltaStats with
    | none => s.flushFor
    | some d =>
      if d.maximumDelta = d.minimumDelta ∧ s.mode ≠ .for_ ∧ s.mode ≠ .deltaFor then
        ⟨true, some (.constantDelta d.maximumDelta (s.compressionBuffer 0) s.compressionBufferIdx),
          { s with totalSize := s.totalSize + t.bytes + t.bytes + 4 }⟩
      else if !s.preferFor d ∧ s.mode ≠ .for_ then
        let deltaRequiredBitwidth := minimumBitWidth t false d.minMaxDeltaDiff
        let buffer := subtractFrameOfReference s.compressionBufferIdx d.deltaBuffer d.minimumDelta
        ⟨true, some (.deltaFor buffer deltaRequiredBitwidth d.minimumDelta d.deltaOffset s.compressionBufferIdx),
          { s with totalSize := s.totalSize + t.bytes + alignValue 1 + t.bytes
              + getRequiredSize s.compressionBufferIdx deltaRequiredBitwidth }⟩
      else s.flushFor

def update (s : BitpackingState t) (value : t.Value) (isValid : Bool) : Flushed t :=
  let s := { s with allValid := s.allValid && isValid, allInvalid := s.allInvalid && !isValid }
  let s := if isValid then
      { s with
        compressionBuffer := Function.update s.compressionBuffer s.compressionBufferIdx value
        minimum := minValue t.signed s.minimum value
        maximum := maxValue t.signed s.maximum value }
    else s
  let s := { s with compressionBufferIdx := s.compressionBufferIdx + 1 }
  if s.compressionBufferIdx = metadataGroupSize then
    let flushed := s.flush
    { flushed with state := flushed.state.reset }
  else ⟨true, none, s⟩

/-! ## Analysis -/

/-- `BitpackingAnalyze`, over the values of all vectors. -/
def analyze (blockSize : Nat) (s : BitpackingState t) : List (t.Value × Bool) → Option (BitpackingState t)
  | [] => some s
  | (value, isValid) :: rows =>
    -- a group can exceed the block
    if t.bytes * metadataGroupSize * 2 > blockSize then none
    else
      let updated := s.update value isValid
      if updated.success then analyze blockSize updated.state rows else none

/-- `BitpackingFinalAnalyze`. -/
def finalAnalyze (s : BitpackingState t) : Option Nat := if s.flush.success then some s.flush.state.totalSize else none

end BitpackingState

end Haybarn.Bitpacking
