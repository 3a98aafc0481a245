/-
The radix encoding of booleans and integers: the model of `Radix::EncodeData` and `Radix::DecodeData`, and the
escaping of byte strings. Both are ordered codes, so that bytes can be compared instead of values.
-/
import Mathlib.Data.Nat.ModEq
import Mathlib.Tactic.Ring
import Haybarn.Lib.Magnitude

namespace Haybarn.Common

open Lib Nat

abbrev Bytes := List UInt8

/-- `UnifiedVectorFormat`: the values and their validity, found through a selection. -/
structure UnifiedVectorFormat (α : Type) where
  sel : Nat → Nat
  data : Nat → α
  validity : Nat → Bool

/-! ## Types -/

/-- `hugeint_t` and `uhugeint_t`. -/
structure Hugeint where
  upper : BitVec 64
  lower : BitVec 64
deriving DecidableEq, Repr

/-- The physical types of booleans and integers. -/
inductive FixedType where
  | bool
  | int8
  | int16
  | int32
  | int64
  | int128
  | uint8
  | uint16
  | uint32
  | uint64
  | uint128
deriving DecidableEq, Repr

namespace FixedType

/-- The values of a type, without their interpretation as signed or unsigned numbers. -/
@[reducible] def Value : FixedType → Type
  | .bool => Bool
  | .int8 | .uint8 => BitVec 8
  | .int16 | .uint16 => BitVec 16
  | .int32 | .uint32 => BitVec 32
  | .int64 | .uint64 => BitVec 64
  | .int128 | .uint128 => Hugeint

/-- `GetTypeIdSize`. -/
def size : FixedType → Nat
  | .bool | .int8 | .uint8 => 1
  | .int16 | .uint16 => 2
  | .int32 | .uint32 => 4
  | .int64 | .uint64 => 8
  | .int128 | .uint128 => 16

/-- The number that a value stands for. -/
def toInt : (t : FixedType) → t.Value → Int
  | .bool, v => v.toInt
  | .int8, v | .int16, v | .int32, v | .int64, v => BitVec.toInt v
  | .uint8, v | .uint16, v | .uint32, v | .uint64, v => (BitVec.toNat v : Int)
  | .int128, v => v.upper.toInt * 2 ^ 64 + v.lower.toNat
  | .uint128, v => v.upper.toNat * 2 ^ 64 + v.lower.toNat

instance : (t : FixedType) → DecidableEq t.Value
  | .bool => inferInstanceAs (DecidableEq Bool)
  | .int8 | .uint8 => inferInstanceAs (DecidableEq (BitVec 8))
  | .int16 | .uint16 => inferInstanceAs (DecidableEq (BitVec 16))
  | .int32 | .uint32 => inferInstanceAs (DecidableEq (BitVec 32))
  | .int64 | .uint64 => inferInstanceAs (DecidableEq (BitVec 64))
  | .int128 | .uint128 => inferInstanceAs (DecidableEq Hugeint)

end FixedType

/-! ## Encoding -/

/-- `Store` of a number of `n` bytes after `BSwapIfLE`: the most significant byte comes first. -/
def storeBigEndian : Nat → Nat → Bytes
  | 0, _ => []
  | n + 1, v => UInt8.ofNat (v / 256 ^ n) :: storeBigEndian n (v % 256 ^ n)

/-- `BSwapIfLE` after `Load`. -/
def loadBigEndian : Bytes → Nat
  | [] => 0
  | b :: bs => b.toNat * 256 ^ bs.length + loadBigEndian bs

/-- `FlipSign` of the first byte. -/
def flipSign : Bytes → Bytes
  | [] => []
  | b :: bs => (b ^^^ 128) :: bs

/-- `EncodeData` of the unsigned types. -/
def encodeUnsigned (n : Nat) (v : BitVec (8 * n)) : Bytes := storeBigEndian n v.toNat

def encodeSigned (n : Nat) (v : BitVec (8 * n)) : Bytes := flipSign (storeBigEndian n v.toNat)

/-- `DecodeData` of the unsigned types. -/
def decodeUnsigned (n : Nat) (input : Bytes) : BitVec (8 * n) := BitVec.ofNat _ (loadBigEndian (input.take n))

def decodeSigned (n : Nat) (input : Bytes) : BitVec (8 * n) := BitVec.ofNat _ (loadBigEndian (flipSign (input.take n)))

def encodeData : (t : FixedType) → t.Value → Bytes
  | .bool, v => [if v then 1 else 0]
  | .int8, v => encodeSigned 1 v
  | .int16, v => encodeSigned 2 v
  | .int32, v => encodeSigned 4 v
  | .int64, v => encodeSigned 8 v
  | .uint8, v => encodeUnsigned 1 v
  | .uint16, v => encodeUnsigned 2 v
  | .uint32, v => encodeUnsigned 4 v
  | .uint64, v => encodeUnsigned 8 v
  | .int128, v => encodeSigned 8 v.upper ++ encodeUnsigned 8 v.lower
  | .uint128, v => encodeUnsigned 8 v.upper ++ encodeUnsigned 8 v.lower

def decodeData : (t : FixedType) → Bytes → t.Value
  | .bool, input => input.headD 0 != 0
  | .int8, input => decodeSigned 1 input
  | .int16, input => decodeSigned 2 input
  | .int32, input => decodeSigned 4 input
  | .int64, input => decodeSigned 8 input
  | .uint8, input => decodeUnsigned 1 input
  | .uint16, input => decodeUnsigned 2 input
  | .uint32, input => decodeUnsigned 4 input
  | .uint64, input => decodeUnsigned 8 input
  | .int128, input => ⟨decodeSigned 8 input, decodeUnsigned 8 (input.drop 8)⟩
  | .uint128, input => ⟨decodeUnsigned 8 input, decodeUnsigned 8 (input.drop 8)⟩

/-! ## Comparing bytes -/

theorem compare_bytes_eq_lt : ∀ {as bs : Bytes}, compare as bs = .lt ↔ as < bs
  | [], [] => by simp
  | [], _ :: _ => by simp
  | _ :: _, [] => by simp
  | a :: as, b :: bs => by
    rw [List.compare_cons_cons, List.cons_lt_cons_iff, Ordering.then_eq_lt, compare_bytes_eq_lt,
      Std.LawfulEqOrd.compare_eq_iff_eq, compare_toNat, Nat.compare_eq_lt, UInt8.lt_iff_toNat_lt]

/-! ## Big-endian numbers -/

@[simp] theorem length_storeBigEndian : ∀ n v, (storeBigEndian n v).length = n
  | 0, _ => rfl
  | n + 1, _ => congrArg (· + 1) (length_storeBigEndian n _)

variable {n v : Nat}

theorem byte_lt (hv : v < 256 ^ (n + 1)) : v / 256 ^ n < 256 :=
  (Nat.div_lt_iff_lt_mul (Nat.pow_pos (by decide))).2 (by rwa [Nat.pow_succ'] at hv)

theorem toNat_byte (hv : v < 256 ^ (n + 1)) : (UInt8.ofNat (v / 256 ^ n)).toNat = v / 256 ^ n :=
  UInt8.toNat_ofNat_of_lt' (byte_lt hv)

theorem mod_lt_pow (n v : Nat) : v % 256 ^ n < 256 ^ n := Nat.mod_lt _ (Nat.pow_pos (by decide))

theorem magnitude_storeBigEndian : ∀ {n v : Nat}, v < 256 ^ n → magnitude (storeBigEndian n v) = v
  | 0, v, hv => by
    obtain rfl : v = 0 := by simpa using hv
    rfl
  | n + 1, v, hv => by
    rw [storeBigEndian, magnitude_cons, length_storeBigEndian, toNat_byte hv, magnitude_storeBigEndian (mod_lt_pow n v),
      div_add_mod']

theorem loadBigEndian_eq : ∀ bytes : Bytes, loadBigEndian bytes = magnitude bytes
  | [] => rfl
  | b :: bytes => by rw [loadBigEndian, loadBigEndian_eq bytes, magnitude_cons]

theorem diverge_storeBigEndian {w : Nat} (hv : v < 256 ^ n) (hw : w < 256 ^ n) (hne : compare v w ≠ .eq) :
    Diverge (compare v w) (storeBigEndian n v) (storeBigEndian n w) := by
  have hlength : (storeBigEndian n v).length = (storeBigEndian n w).length := by
    rw [length_storeBigEndian, length_storeBigEndian]
  have hdiverge := diverge_of_magnitude hlength
  rw [magnitude_storeBigEndian hv, magnitude_storeBigEndian hw] at hdiverge
  exact hdiverge fun heq => hne (Nat.compare_eq_eq.2 heq)

theorem loadBigEndian_storeBigEndian (hv : v < 256 ^ n) : loadBigEndian (storeBigEndian n v) = v := by
  rw [loadBigEndian_eq, magnitude_storeBigEndian hv]

theorem storeBigEndian_append {m a b : Nat} (ha : a < 256 ^ m) (hb : b < 256 ^ n) :
    storeBigEndian (m + n) (a * 256 ^ n + b) = storeBigEndian m a ++ storeBigEndian n b := by
  have hlt : a * 256 ^ n + b < 256 ^ (m + n) := by
    have hle : (a + 1) * 256 ^ n ≤ 256 ^ m * 256 ^ n := mul_le_mul_right _ ha
    rw [pow_add]
    rw [add_mul, one_mul] at hle
    omega
  refine eq_of_magnitude_eq (by simp) ?_
  rw [magnitude_storeBigEndian hlt, magnitude_append, magnitude_storeBigEndian ha, magnitude_storeBigEndian hb,
    length_storeBigEndian]

/-! ## Signed numbers -/

theorem xor_128 (b : UInt8) : b ^^^ 128 = b + 128 := by
  have hall : ∀ n : Fin 256, UInt8.ofNat n ^^^ 128 = UInt8.ofNat n + 128 := by decide +kernel
  have hb := hall ⟨b.toNat, b.toNat_lt⟩
  rwa [UInt8.ofNat_toNat] at hb

theorem flipSign_flipSign (bs : Bytes) : flipSign (flipSign bs) = bs := by
  cases bs with
  | nil => rfl
  | cons b bs => rw [flipSign, flipSign, UInt8.xor_assoc, UInt8.xor_self, UInt8.xor_zero]

theorem flipSign_storeBigEndian (n v : Nat) :
    flipSign (storeBigEndian (n + 1) v) = storeBigEndian (n + 1) ((v + 128 * 256 ^ n) % 256 ^ (n + 1)) := by
  have hpos : 0 < 256 ^ n := Nat.pow_pos (by decide)
  have hpow : 256 ^ (n + 1) = 256 ^ n * 256 := Nat.pow_succ ..
  have hdiv : (v + 128 * 256 ^ n) % 256 ^ (n + 1) / 256 ^ n = (v / 256 ^ n + 128) % 256 := by
    rw [hpow, Nat.mod_mul_right_div_self, Nat.add_mul_div_right _ _ hpos]
  have hmod : (v + 128 * 256 ^ n) % 256 ^ (n + 1) % 256 ^ n = v % 256 ^ n := by
    rw [hpow, Nat.mod_mul_right_mod, Nat.add_mul_mod_self_right]
  rw [storeBigEndian, storeBigEndian, flipSign, hdiv, hmod, xor_128]
  congr 1
  apply UInt8.toNat_inj.1
  simp

theorem pow_two_eq (n : Nat) : 2 ^ (8 * n) = 256 ^ n := by rw [Nat.pow_mul]

theorem toNat_lt_pow (v : BitVec (8 * n)) : v.toNat < 256 ^ n := pow_two_eq n ▸ v.isLt

theorem toInt_offset (v : BitVec (8 * (n + 1))) :
    v.toInt + 128 * 256 ^ n = ((v.toNat + 128 * 256 ^ n) % 256 ^ (n + 1) : Nat) := by
  have hpow : 256 ^ (n + 1) = 256 ^ n * 256 := pow_succ ..
  have hlt := toNat_lt_pow v
  have htwo := pow_two_eq (n + 1)
  rw [BitVec.toInt_eq_toNat_cond, htwo, hpow]
  rw [hpow] at hlt
  have hbase : (256 ^ n : Int) = ((256 ^ n : Nat) : Int) := by push_cast; rfl
  rw [hbase]
  generalize 256 ^ n = base at *
  split
  · rw [mod_eq_of_lt (by omega)]
    push_cast
    rfl
  · rw [mod_eq_sub_mod (by omega), mod_eq_of_lt (by omega)]
    omega

theorem encodeUnsigned_eq (n : Nat) (v : BitVec (8 * n)) : encodeUnsigned n v = storeBigEndian n (v.toNat : Int).toNat := rfl

theorem encodeSigned_eq (n : Nat) (v : BitVec (8 * (n + 1))) :
    encodeSigned (n + 1) v = storeBigEndian (n + 1) (v.toInt + 128 * 256 ^ n).toNat := by
  rw [encodeSigned, flipSign_storeBigEndian, toInt_offset, Int.toNat_natCast]

theorem toInt_offset_bounds (v : BitVec (8 * (n + 1))) :
    0 ≤ v.toInt + 128 * 256 ^ n ∧ v.toInt + 128 * 256 ^ n < 256 ^ (n + 1) := by
  rw [toInt_offset]
  exact ⟨Int.natCast_nonneg _, by exact_mod_cast mod_lt_pow (n + 1) _⟩

/-! ## The encoding -/

/-- What is added to a number before its bytes are written. -/
def FixedType.offset (t : FixedType) : Int :=
  match t with
  | .int8 | .int16 | .int32 | .int64 | .int128 => 128 * 256 ^ (t.size - 1)
  | _ => 0

theorem toInt_add_offset_bounds : (t : FixedType) → (v : t.Value) →
    0 ≤ t.toInt v + t.offset ∧ t.toInt v + t.offset < 256 ^ t.size
  | .bool, v => by cases v <;> decide
  | .int8, v => toInt_offset_bounds (n := 0) v
  | .int16, v => toInt_offset_bounds (n := 1) v
  | .int32, v => toInt_offset_bounds (n := 3) v
  | .int64, v => toInt_offset_bounds (n := 7) v
  | .uint8, v => unsigned_bounds (n := 1) v
  | .uint16, v => unsigned_bounds (n := 2) v
  | .uint32, v => unsigned_bounds (n := 4) v
  | .uint64, v => unsigned_bounds (n := 8) v
  | .int128, v => by
    have hupper := toInt_offset_bounds (n := 7) v.upper
    have hlower := v.lower.isLt
    simp only [FixedType.toInt, FixedType.offset, FixedType.size]
    omega
  | .uint128, v => by
    have hupper := v.upper.isLt
    have hlower := v.lower.isLt
    simp only [FixedType.toInt, FixedType.offset, FixedType.size]
    omega
where
  unsigned_bounds {n : Nat} (v : BitVec (8 * n)) : 0 ≤ (v.toNat : Int) + 0 ∧ (v.toNat : Int) + 0 < 256 ^ n := by
    have hlt := toNat_lt_pow v
    refine ⟨by omega, ?_⟩
    rw [Int.add_zero]
    exact_mod_cast hlt

theorem encodeData_eq : (t : FixedType) → (v : t.Value) →
    encodeData t v = storeBigEndian t.size (t.toInt v + t.offset).toNat
  | .bool, v => by cases v <;> rfl
  | .int8, v => encodeSigned_eq 0 v
  | .int16, v => encodeSigned_eq 1 v
  | .int32, v => encodeSigned_eq 3 v
  | .int64, v => encodeSigned_eq 7 v
  | .uint8, v => encodeUnsigned_eq 1 v
  | .uint16, v => encodeUnsigned_eq 2 v
  | .uint32, v => encodeUnsigned_eq 4 v
  | .uint64, v => encodeUnsigned_eq 8 v
  | .int128, v => by
    have hupper := toInt_offset_bounds (n := 7) v.upper
    have hlower : v.lower.toNat < 256 ^ 8 := v.lower.isLt
    have hlt : (v.upper.toInt + 128 * 256 ^ 7).toNat < 256 ^ 8 := by omega
    have hsum : (FixedType.int128.toInt v + FixedType.int128.offset).toNat =
        (v.upper.toInt + 128 * 256 ^ 7).toNat * 256 ^ 8 + v.lower.toNat := by
      simp only [FixedType.toInt, FixedType.offset, FixedType.size]
      omega
    rw [hsum, encodeData, encodeSigned_eq 7, encodeUnsigned]
    exact (storeBigEndian_append hlt hlower).symm
  | .uint128, v => by
    have hupper : v.upper.toNat < 256 ^ 8 := v.upper.isLt
    have hlower : v.lower.toNat < 256 ^ 8 := v.lower.isLt
    have hsum : (FixedType.uint128.toInt v + FixedType.uint128.offset).toNat =
        v.upper.toNat * 256 ^ 8 + v.lower.toNat := by
      simp only [FixedType.toInt, FixedType.offset]
      omega
    rw [hsum, encodeData, encodeUnsigned, encodeUnsigned]
    exact (storeBigEndian_append hupper hlower).symm

theorem length_encodeData (t : FixedType) (v : t.Value) : (encodeData t v).length = t.size := by
  rw [encodeData_eq, length_storeBigEndian]

theorem compare_toNat_of_nonneg {a b : Int} (ha : 0 ≤ a) (hb : 0 ≤ b) : compare a.toNat b.toNat = compare a b := by
  rcases Int.lt_trichotomy a b with h | h | h
  · rw [Nat.compare_eq_lt.2 (by omega), compare_lt_iff_lt.2 h]
  · rw [h, Std.ReflOrd.compare_self, Std.ReflOrd.compare_self]
  · rw [Nat.compare_eq_gt.2 (by omega), compare_gt_iff_gt.2 h]

theorem compare_add_right (a b c : Int) : compare (a + c) (b + c) = compare a b := by
  rcases Int.lt_trichotomy a b with h | h | h
  · rw [compare_lt_iff_lt.2 h, compare_lt_iff_lt.2 (by omega)]
  · rw [h, Std.ReflOrd.compare_self, Std.ReflOrd.compare_self]
  · rw [compare_gt_iff_gt.2 h, compare_gt_iff_gt.2 (by omega)]

theorem encodeData_ordered (t : FixedType) : OrderedCode (fun a b => compare (t.toInt a) (t.toInt b)) (encodeData t) := by
  refine ⟨fun {a b} hab => ?_, fun {a b} hab => ?_⟩
  · rw [encodeData_eq, encodeData_eq, compare_eq_iff_eq.1 hab]
  · obtain ⟨ha, ha'⟩ := toInt_add_offset_bounds t a
    obtain ⟨hb, hb'⟩ := toInt_add_offset_bounds t b
    have hcompare : compare (t.toInt a) (t.toInt b) =
        compare (t.toInt a + t.offset).toNat (t.toInt b + t.offset).toNat := by
      rw [compare_toNat_of_nonneg ha hb, compare_add_right]
    rw [hcompare] at hab ⊢
    rw [encodeData_eq, encodeData_eq]
    refine diverge_storeBigEndian ?_ ?_ hab
    · exact (Int.toNat_lt ha).2 (by exact_mod_cast ha')
    · exact (Int.toNat_lt hb).2 (by exact_mod_cast hb')

/-! ## Decoding -/

theorem decodeUnsigned_encodeUnsigned (n : Nat) (v : BitVec (8 * n)) (rest : Bytes) :
    decodeUnsigned n (encodeUnsigned n v ++ rest) = v := by
  unfold decodeUnsigned encodeUnsigned
  rw [List.take_left' (length_storeBigEndian n _), loadBigEndian_storeBigEndian (toNat_lt_pow v), BitVec.ofNat_toNat,
    BitVec.setWidth_eq]

theorem length_flipSign (bs : Bytes) : (flipSign bs).length = bs.length := by
  cases bs <;> rfl

theorem decodeSigned_encodeSigned (n : Nat) (v : BitVec (8 * n)) (rest : Bytes) :
    decodeSigned n (encodeSigned n v ++ rest) = v := by
  unfold decodeSigned encodeSigned
  rw [List.take_left' (by rw [length_flipSign, length_storeBigEndian]), flipSign_flipSign,
    loadBigEndian_storeBigEndian (toNat_lt_pow v), BitVec.ofNat_toNat, BitVec.setWidth_eq]

theorem decodeData_encodeData : (t : FixedType) → (v : t.Value) → (rest : Bytes) →
    decodeData t (encodeData t v ++ rest) = v
  | .bool, v, _ => by cases v <;> rfl
  | .int8, v, rest => decodeSigned_encodeSigned 1 v rest
  | .int16, v, rest => decodeSigned_encodeSigned 2 v rest
  | .int32, v, rest => decodeSigned_encodeSigned 4 v rest
  | .int64, v, rest => decodeSigned_encodeSigned 8 v rest
  | .uint8, v, rest => decodeUnsigned_encodeUnsigned 1 v rest
  | .uint16, v, rest => decodeUnsigned_encodeUnsigned 2 v rest
  | .uint32, v, rest => decodeUnsigned_encodeUnsigned 4 v rest
  | .uint64, v, rest => decodeUnsigned_encodeUnsigned 8 v rest
  | .int128, v, rest => by
    have hlength : (encodeSigned 8 v.upper).length = 8 := by
      rw [encodeSigned, length_flipSign, length_storeBigEndian]
    simp only [decodeData, encodeData]
    rw [List.append_assoc, List.drop_left' hlength, decodeSigned_encodeSigned, decodeUnsigned_encodeUnsigned]
  | .uint128, v, rest => by
    have hlength : (encodeUnsigned 8 v.upper).length = 8 := length_storeBigEndian ..
    simp only [decodeData, encodeData]
    rw [List.append_assoc, List.drop_left' hlength, decodeUnsigned_encodeUnsigned, decodeUnsigned_encodeUnsigned]

theorem toInt_injective (t : FixedType) {a b : t.Value} (h : t.toInt a = t.toInt b) : a = b := by
  have hbytes : encodeData t a = encodeData t b := (encodeData_ordered t).same (compare_eq_iff_eq.2 h)
  have hdecode := congrArg (fun bytes => decodeData t (bytes ++ [])) hbytes
  simpa only [decodeData_encodeData] using hdecode

/-! ## Escaped strings -/

/-- A byte of a string that ends with `0`: `0` and `1` are escaped with `1`. -/
def escapeByte (b : UInt8) : Bytes := if b ≤ 1 then [1, b] else [b]

theorem escape_ordered : OrderedCode compare escapeByte := by
  unfold escapeByte
  refine ⟨fun {a b} hab => ?_, fun {a b} hab => ?_⟩
  · rw [Std.LawfulEqOrd.compare_eq_iff_eq.1 hab]
  · by_cases ha : a ≤ 1
    · by_cases hb : b ≤ 1
      · rw [if_pos ha, if_pos hb]
        exact .there 1 (.here _ _ rfl hab)
      · -- an escape comes before every byte that is not escaped
        rw [if_pos ha, if_neg hb]
        rw [UInt8.le_iff_toNat_le] at ha hb
        have hlt : compare a b = .lt := by
          rw [compare_toNat, Nat.compare_eq_lt]
          omega
        rw [hlt]
        refine .here _ _ ?_ nofun
        rw [compare_toNat, Nat.compare_eq_lt]
        omega
    · by_cases hb : b ≤ 1
      · rw [if_neg ha, if_pos hb]
        rw [UInt8.le_iff_toNat_le] at ha hb
        have hgt : compare a b = .gt := by
          rw [compare_toNat, Nat.compare_eq_gt]
          omega
        rw [hgt]
        refine .here _ _ ?_ nofun
        rw [compare_toNat, Nat.compare_eq_gt]
        omega
      · rw [if_neg ha, if_neg hb]
        exact .here _ _ rfl hab

theorem escape_head (b : UInt8) : ∃ x u, escapeByte b = x :: u ∧ compare 0 x = .lt ∧ compare x 0 = .gt := by
  unfold escapeByte
  by_cases hb : b ≤ 1
  · rw [if_pos hb]
    exact ⟨1, [b], rfl, rfl, rfl⟩
  · rw [if_neg hb]
    refine ⟨b, [], rfl, ?_, ?_⟩
    · rw [compare_toNat, Nat.compare_eq_lt]
      rw [UInt8.le_iff_toNat_le] at hb
      exact Nat.lt_of_le_of_lt (Nat.zero_le 1) (Nat.not_le.1 hb)
    · rw [compare_toNat, Nat.compare_eq_gt]
      rw [UInt8.le_iff_toNat_le] at hb
      exact Nat.lt_of_le_of_lt (Nat.zero_le 1) (Nat.not_le.1 hb)

theorem escaped_ordered : OrderedCode compare (fun value : Bytes => value.flatMap escapeByte ++ [0]) := by
  have hne : Ordering.lt ≠ .eq := nofun
  exact (escape_ordered.terminated hne escape_head).congr fun as bs => (compareSeq_lt compare as bs).symm

end Haybarn.Common
