/-
The text of a DECIMAL: `DecimalToString` and the formatting of unsigned numbers that it uses. Text is written from the end of
a buffer on, whose length is computed beforehand.
-/
import Haybarn.Decimal.Cast
import Haybarn.Lib.Buffer

namespace Haybarn.Cast

open Lib Common Decimal

/-! ## Lengths -/

/-- `length += value >= 10^start; length += value >= 10^(start + 1); ...`, `count` times, on a length of `start`. -/
def grow (value start count : Nat) : Nat := start + ((List.range count).filter fun i => value ≥ 10 ^ (start + i)).length

/-- `UnsignedLength` on `uint16_t`. -/
def unsignedLength16 (value : Nat) : Nat := grow value 1 4

/-- `UnsignedLength` on `uint32_t`. -/
def unsignedLength32 (value : Nat) : Nat := if value ≥ 10000 then grow value 5 5 else grow value 1 3

/-- `UnsignedLength` on `uint64_t`. -/
def unsignedLength64 (value : Nat) : Nat :=
  if value ≥ 10000000000 then if value ≥ 1000000000000000 then grow value 16 4 else grow value 11 4
  else if value ≥ 100000 then grow value 6 4
  else grow value 1 4

/-- `value >= Hugeint::POWERS_OF_TEN[i]`. -/
def atLeastPower (value : Hugeint) (i : Nat) : Bool := Hugeint.greaterThanEquals value (Storage.limbs (10 ^ i))

/-- `grow` on `hugeint_t`. -/
def growHugeint (value : Hugeint) (start count : Nat) : Nat :=
  start + ((List.range count).filter fun i => atLeastPower value (start + i)).length

/-- `UnsignedLength` on `hugeint_t`. -/
def unsignedLengthHugeint (value : Hugeint) : Nat :=
  if value.upper = 0 then unsignedLength64 value.lower.toNat
  else if atLeastPower value 27 then
    if atLeastPower value 32 then if atLeastPower value 36 then growHugeint value 37 2 else growHugeint value 33 3
    else if atLeastPower value 30 then growHugeint value 31 2
    else growHugeint value 28 2
  else if atLeastPower value 22 then if atLeastPower value 25 then growHugeint value 26 1 else growHugeint value 23 2
  else if atLeastPower value 20 then growHugeint value 21 1
  else growHugeint value 18 2

/-- `SignedLength`, with the `UnsignedLength` of the unsigned type. -/
def signedLength (unsignedLength : Nat → Nat) (value : Int) : Nat :=
  let sign : Int := if value < 0 then -1 else 0
  -- `value ^ sign`
  let flipped := if sign = 0 then value else ~~~value
  (unsignedLength (flipped - sign).toNat - sign).toNat

/-- `DecimalLength`, with the `UnsignedLength` of the unsigned type. -/
def decimalLength (unsignedLength : Nat → Nat) (value : Int) (width scale : Nat) : Nat :=
  if scale = 0 then signedLength unsignedLength value
  else
    let extraCharacters := if width > scale then 2 else 1
    max (scale + extraCharacters + (if value < 0 then 1 else 0)) (signedLength unsignedLength value + 1)

/-- `DecimalLength` on `hugeint_t`. -/
def decimalLengthHugeint (value : Hugeint) (width scale : Nat) : Nat :=
  let negative : Nat := if value.upper.slt 0 then 1 else 0
  let value := if value.upper.slt 0 then Hugeint.negateInPlace value else value
  if scale = 0 then unsignedLengthHugeint value + negative
  else
    let extraNumbers := if width > scale then 2 else 1
    max (scale + extraNumbers) (unsignedLengthHugeint value + 1) + negative

/-! ## Writing from the end -/

/-- A buffer at a pointer into it: the bytes before the pointer, the nearest first, and the bytes from it on. -/
structure Cursor where
  before : List UInt8
  written : List UInt8

/-- The pointer at the end of a buffer. -/
def Cursor.atEnd (buffer : List UInt8) : Cursor := ⟨buffer.reverse, []⟩

/-- The buffer. -/
def Cursor.buffer (ptr : Cursor) : List UInt8 := ptr.before.reverse ++ ptr.written

/-- `*--ptr = c`, a fault at the start of the buffer. -/
def Cursor.put (c : UInt8) (ptr : Cursor) : Outcome Cursor :=
  match ptr.before with
  | [] => .fault
  | _ :: before => .done ⟨before, c :: ptr.written⟩

/-- `'0' + value`. -/
def digitByte (value : Nat) : UInt8 := UInt8.ofNat (0x30 + value)

/-- `duckdb_fmt::internal::data::digits`: the two digits of each number below one hundred. -/
def digitPairs : List UInt8 := (List.range 100).flatMap fun n => [digitByte (n / 10), digitByte (n % 10)]

/-- `*--ptr = digits[index + 1]; *--ptr = digits[index];`. -/
def putPair (index : Nat) (ptr : Cursor) : Outcome Cursor := do
  let low ← read digitPairs (index + 1)
  let ptr ← ptr.put low
  let high ← read digitPairs index
  ptr.put high

def formatUnsigned (value : Nat) (ptr : Cursor) : Outcome Cursor :=
  if value ≥ 100 then do
    let ptr ← putPair (value % 100 * 2) ptr
    formatUnsigned (value / 100) ptr
  else if value < 10 then ptr.put (digitByte value)
  else putPair (value * 2) ptr
termination_by value

/-- `*--ptr = '0'`, as many times. -/
def padZeros : Nat → Cursor → Outcome Cursor
  | 0, ptr => .done ptr
  | count + 1, ptr => do
    let ptr ← ptr.put 0x30
    padZeros count ptr

theorem toNat_lt_of_upper {value : Hugeint} (h : (0 : BitVec 64).slt value.upper = true) :
    2 ^ 64 ≤ value.toNat ∧ value.toNat < 2 ^ 127 := by
  rw [BitVec.slt_iff_toInt_lt] at h
  have hzero : (0 : BitVec 64).toInt = 0 := rfl
  have hlower := value.lower.isLt
  have hupper := value.upper.isLt
  rw [hzero, BitVec.toInt_eq_toNat_cond] at h
  rw [Hugeint.toNat]
  split at h <;> omega

/-- `FormatUnsigned` on `hugeint_t`: groups of seventeen digits, until a `uint64_t` holds what is left. -/
def formatUnsignedHugeint (value : Hugeint) (ptr : Cursor) : Outcome Cursor :=
  if h : (0 : BitVec 64).slt value.upper then do
    let divided := Hugeint.divModPositive value 100000000000000000
    let next ← formatUnsigned divided.2.toNat ptr
    -- the remainder is padded to seventeen digits
    let next ← padZeros (17 - (next.written.length - ptr.written.length)) next
    formatUnsignedHugeint divided.1 next
  else formatUnsigned value.lower.toNat ptr
termination_by value.toNat
decreasing_by
  obtain ⟨hlo, hhi⟩ := toNat_lt_of_upper h
  have hspec := (Hugeint.divModPositive_spec hhi (show 0 < (100000000000000000 : BitVec 64).toNat by decide) (by decide)).1
  rw [hspec, show (100000000000000000 : BitVec 64).toNat = 100000000000000000 from rfl]
  omega

/-! ## `FormatDecimal` -/

/-- `*dst = '-'`. -/
def putSign (dst : List UInt8) : Outcome (List UInt8) :=
  match dst with
  | [] => .fault
  | _ :: rest => .done (0x2D :: rest)

/-- What `FormatDecimal` does with the minor number, the point and the major number, which `formatNumber` writes. -/
def formatParts {α : Type} (formatNumber : α → Cursor → Outcome Cursor) (major minor : α) (width scale : Nat) (ptr : Cursor) :
    Outcome Cursor := do
  let dst ← formatNumber minor ptr
  let dst ← padZeros (scale - dst.written.length) dst
  let dst ← dst.put 0x2E
  if width > scale then formatNumber major dst else .done dst

/-- `FormatDecimal`, on a built-in type. -/
def formatDecimal (t : Storage) (value : Int) (width scale : Nat) (dst : List UInt8) : Outcome (List UInt8) := do
  let (value, dst) ←
    (if value < 0 then do
      let n ← t.neg value
      let value ← t.convert n
      let dst ← putSign dst
      .done (value, dst)
    else .done (value, dst))
  if scale = 0 then do
    let ptr ← formatUnsigned value.toNat (Cursor.atEnd dst)
    .done ptr.buffer
  else do
    let power ← t.powerOfTen scale
    let minor := value.toNat % power.toNat
    let major := value.toNat / power.toNat
    let ptr ← formatParts formatUnsigned major minor width scale (Cursor.atEnd dst)
    .done ptr.buffer

/-- `FormatDecimal` on `hugeint_t`. -/
def formatDecimalHugeint (value : Hugeint) (width scale : Nat) (dst : List UInt8) : Outcome (List UInt8) := do
  let negative := value.upper.slt 0
  let value := if negative then Hugeint.negateInPlace value else value
  let dst ← (if negative then putSign dst else .done dst)
  if scale = 0 then do
    let ptr ← formatUnsignedHugeint value (Cursor.atEnd dst)
    .done ptr.buffer
  else do
    let power ← Storage.powerOfTen .int128 scale
    let (major, minor) := Hugeint.divMod value (Storage.limbs power)
    let ptr ← formatParts formatUnsignedHugeint major minor width scale (Cursor.atEnd dst)
    .done ptr.buffer

/-! ## `Format` -/

/-- `StringVector::EmptyString`: a string of fresh memory, whatever that holds. -/
def emptyString (memory : Nat → UInt8) (length : Nat) : List UInt8 := (List.range length).map memory

/-- `DecimalToString::Format`, on the storage of a DECIMAL type. -/
def format (memory : Nat → UInt8) (type : DecimalType) (value : Int) : Outcome (List UInt8) :=
  match type.internalType with
  | .int16 => formatDecimal .int16 value type.width type.scale
      (emptyString memory (decimalLength unsignedLength16 value type.width type.scale))
  | .int32 => formatDecimal .int32 value type.width type.scale
      (emptyString memory (decimalLength unsignedLength32 value type.width type.scale))
  | .int64 => formatDecimal .int64 value type.width type.scale
      (emptyString memory (decimalLength unsignedLength64 value type.width type.scale))
  | .int128 => formatDecimalHugeint (Storage.limbs value) type.width type.scale
      (emptyString memory (decimalLengthHugeint (Storage.limbs value) type.width type.scale))

end Haybarn.Cast
