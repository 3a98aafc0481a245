/-
The binary format of `BinarySerializer` and `BinaryDeserializer`, as far as the write-ahead log uses it:
little-endian words, LEB128 integers, properties with a field id in front, and objects that end with a
terminator. What the serializer writes the deserializer reads back, and where the bytes end too early it
raises a serialization exception.
-/
import Haybarn.Lib.Stream
import Mathlib.Algebra.Group.Nat.Defs

namespace Haybarn.Wal

open Lib

abbrev Bytes := List UInt8

/-! ## Exceptions -/

/-- `ExceptionType`. The types that no modelled function raises itself are `other`. -/
inductive ExceptionType where
  | serialization
  | io
  | internal
  | invalidInput
  | other
deriving DecidableEq, Repr

/-- The exceptions of reading and replaying a log, with the values in their messages. -/
inductive WalException where
  /-- "not enough data in file to deserialize result" -/
  | notEnoughData
  /-- "Failed to deserialize: field id mismatch, expected: %d, got: %d" -/
  | fieldIdMismatch (expected got : Nat)
  /-- "Failed to deserialize: expected end of object, but found field id: %d" -/
  | expectedEndOfObject (got : Nat)
  /-- "Failed to decode LEB128 integer: data may be corrupt" -/
  | corruptLEB128
  /-- "Corrupt WAL file: entry size exceeded remaining data in file at byte position %llu ..." -/
  | entrySizeExceeded (offset size fileSize : Nat)
  /-- "Corrupt WAL file: entry at byte position %llu computed checksum ... does not match stored checksum ..." -/
  | checksumMismatch (offset : Nat) (computed stored : UInt64)
  /-- "Failed to read WAL of version %llu - can only read version 1, 2 and 3 (encrypted)" -/
  | unknownVersion (version : Nat)
  /-- "Invalid WAL entry type!" -/
  | invalidEntryType
  /-- "WAL does not match database file." -/
  | databaseMismatch
  /-- "This WAL was created for this database file, but the WAL checkpoint iteration does not match the database file ..." -/
  | versionError (checkpointIteration expectedCheckpointIteration : Nat)
  /-- "WAL cannot contain more than one checkpoint marker" -/
  | moreThanOneCheckpoint
  /-- "WAL checkpoint marker must be at the end of the WAL" -/
  | checkpointNotAtEnd
  /-- "Failure while replaying checkpoint WAL file ...: checkpoint WAL cannot contain a checkpoint marker" -/
  | checkpointWalHasCheckpoint
  /-- "Failure while replaying checkpoint WAL file ...: checkpoint WAL version is different from main WAL version" -/
  | checkpointWalVersion
  /-- raised while the content of an entry is read or applied -/
  | entry (type : ExceptionType)
deriving DecidableEq, Repr

def WalException.type : WalException → ExceptionType
  | .notEnoughData | .fieldIdMismatch .. | .expectedEndOfObject _ | .entrySizeExceeded .. => .serialization
  | .corruptLEB128 | .checksumMismatch .. | .unknownVersion _ | .databaseMismatch | .versionError .. => .io
  | .moreThanOneCheckpoint | .checkpointNotAtEnd => .io
  | .invalidEntryType => .internal
  | .checkpointWalHasCheckpoint | .checkpointWalVersion => .invalidInput
  | .entry type => type

/-- The exceptions that stand for a torn log. -/
def WalException.Torn (e : WalException) : Prop := e.type = .serialization

section Serializer

variable {σ : Type} {K : σ → Prop} {s s' : σ}

abbrev Deserializer (σ α : Type) := Reader WalException UInt8 σ α

/-! ## Words -/

/-- The `n` low bytes of a number, lowest first. -/
def writeWord : Nat → Nat → Bytes
  | 0, _ => []
  | n + 1, v => UInt8.ofNat (v % 256) :: writeWord n (v / 256)

def wordValue : Bytes → Nat
  | [] => 0
  | b :: bs => b.toNat + 256 * wordValue bs

/-- `Read` of a word of `n` bytes. -/
def readWord (n : Nat) : Deserializer σ Nat := do
  let bytes ← takeUnits .notEnoughData n
  return wordValue bytes

theorem writeWord_length : ∀ (n v : Nat), (writeWord n v).length = n
  | 0, _ => rfl
  | n + 1, v => congrArg (· + 1) (writeWord_length n (v / 256))

theorem wordValue_writeWord : ∀ {n v : Nat}, v < 256 ^ n → wordValue (writeWord n v) = v
  | 0, v, h => by
    rw [Nat.pow_zero] at h
    exact (Nat.lt_one_iff.1 h).symm
  | n + 1, v, h => by
    have hdiv : v / 256 < 256 ^ n := Nat.div_lt_of_lt_mul (by rwa [Nat.pow_succ, Nat.mul_comm] at h)
    have hbyte : (UInt8.ofNat (v % 256)).toNat = v % 256 := by
      rw [UInt8.toNat_ofNat']
      omega
    unfold writeWord wordValue
    rw [wordValue_writeWord hdiv, hbyte]
    omega

theorem reads_word {n v : Nat} (hv : v < 256 ^ n) (hk : K s) :
    Reads WalException.Torn K (readWord n) s (writeWord n v) v s := by
  have h : Reads WalException.Torn K (takeUnits .notEnoughData n) s (writeWord n v) (writeWord n v) s :=
    .takeUnits (writeWord_length n v) rfl hk
  refine h.bind_pure ?_
  rw [wordValue_writeWord hv]
  exact .pure v s

/-! ## LEB128 -/

def encodeUnsignedLEB128 (value : Nat) : Bytes :=
  let byte := value &&& 0x7F
  let value := value >>> 7
  if value ≠ 0 then UInt8.ofNat (byte ||| 0x80) :: encodeUnsignedLEB128 value else [UInt8.ofNat byte]
termination_by value
decreasing_by
  rw [Nat.shiftRight_eq_div_pow] at *
  omega

/-- `DecodeUnsignedLEB128` into an integer of the given width, from a byte on. The buffer is filled up
with zeros. -/
def decodeUnsignedLEB128 (bits shift : Nat) : Bytes → Except WalException Nat
  | [] => if shift ≥ bits then .error .corruptLEB128 else .ok 0
  | byte :: source =>
    if shift ≥ bits then .error .corruptLEB128
    else
      let value := (byte &&& 0x7F).toNat <<< shift % 2 ^ bits
      if byte &&& 0x80 ≠ 0 then
        match decodeUnsignedLEB128 bits (shift + 7) source with
        | .error e => .error e
        | .ok rest => .ok (value ||| rest)
      else .ok value

/-- The loop of `VarIntDecode`: bytes up to the first one without the high bit, at most `n`. -/
def readVarInt : Nat → Deserializer σ Bytes
  | 0 => return []
  | n + 1 => do
    let byte ← takeUnits .notEnoughData 1
    if byte.all (· &&& 0x80 = 0) then return byte
    else
      let rest ← readVarInt n
      return byte ++ rest

def varIntDecode (bits : Nat) : Deserializer σ Nat := do
  let buffer ← readVarInt 16
  match decodeUnsignedLEB128 bits 0 buffer with
  | .ok value => return value
  | .error e => throw e

theorem and_127 (v : Nat) : v &&& 0x7F = v % 128 := Nat.and_two_pow_sub_one_eq_mod v 7

theorem encode_small {v : Nat} (h : v < 128) : encodeUnsignedLEB128 v = [UInt8.ofNat v] := by
  have hshift : v >>> 7 = 0 := by
    rw [Nat.shiftRight_eq_div_pow]
    omega
  unfold encodeUnsignedLEB128
  rw [if_neg (not_not.2 hshift), and_127, Nat.mod_eq_of_lt h]

theorem encode_large {v : Nat} (h : 128 ≤ v) :
    encodeUnsignedLEB128 v = UInt8.ofNat (v % 128 + 128) :: encodeUnsignedLEB128 (v / 128) := by
  have hshift : v >>> 7 = v / 128 := Nat.shiftRight_eq_div_pow v 7
  have hor : v % 128 ||| 0x80 = v % 128 + 128 := by
    rw [Nat.or_comm, Nat.add_comm]
    exact (Nat.two_pow_add_eq_or_of_lt (i := 7) (Nat.mod_lt v (by decide)) 1).symm
  rw [encodeUnsignedLEB128, hshift, if_pos (by omega), and_127, hor]

theorem byte_bits (b : UInt8) : ((b &&& 0x80 = 0) ↔ b.toNat < 128) ∧ (b &&& 0x7F).toNat = b.toNat % 128 := by
  have hall : ∀ i : Fin 256, ((UInt8.ofNat i &&& 0x80 = 0) ↔ (UInt8.ofNat i).toNat < 128) ∧
      (UInt8.ofNat i &&& 0x7F).toNat = (UInt8.ofNat i).toNat % 128 := by decide +kernel
  have hb : UInt8.ofNat b.toNat = b := UInt8.ofNat_toNat
  have h := hall ⟨b.toNat, b.toNat_lt⟩
  rwa [show ((⟨b.toNat, b.toNat_lt⟩ : Fin 256) : Nat) = b.toNat from rfl, hb] at h

theorem reads_varIntBytes (hk : K s) : ∀ {n v : Nat}, v < 128 ^ n → 0 < n →
    Reads WalException.Torn K (readVarInt n) s (encodeUnsignedLEB128 v) (encodeUnsignedLEB128 v) s
  | 0, _, _, hn => absurd hn (Nat.lt_irrefl 0)
  | n + 1, v, hv, _ => by
    have hbyte : ∀ b : UInt8, Reads WalException.Torn K (takeUnits .notEnoughData 1) s [b] [b] s := fun b =>
      .takeUnits rfl rfl hk
    by_cases hsmall : v < 128
    · rw [encode_small hsmall]
      refine (hbyte _).bind_pure ?_
      have hlast : [UInt8.ofNat v].all (· &&& 0x80 = 0) = true := by
        rw [List.all_cons, List.all_nil, Bool.and_true, decide_eq_true_iff, (byte_bits _).1, UInt8.toNat_ofNat']
        omega
      rw [if_pos hlast]
      exact .pure _ s
    · rw [encode_large (by omega)]
      have hdiv : v / 128 < 128 ^ n := Nat.div_lt_of_lt_mul (by rwa [Nat.pow_succ, Nat.mul_comm] at hv)
      have hn : 0 < n := by
        rcases Nat.eq_zero_or_pos n with rfl | hn
        · omega
        · exact hn
      refine (hbyte _).bind ?_
      have hmore : ¬ [UInt8.ofNat (v % 128 + 128)].all (· &&& 0x80 = 0) = true := by
        rw [List.all_cons, List.all_nil, Bool.and_true, decide_eq_true_iff, (byte_bits _).1, UInt8.toNat_ofNat']
        omega
      rw [if_neg hmore]
      exact (reads_varIntBytes hk hdiv hn).bind_pure (.pure _ s)

theorem decode_encode {bits : Nat} {v shift : Nat} (hshift : shift < bits) (hv : v * 2 ^ shift < 2 ^ bits) :
    decodeUnsignedLEB128 bits shift (encodeUnsignedLEB128 v) = .ok (v * 2 ^ shift) := by
  induction v using Nat.strongRecOn generalizing shift with
  | ind v ih =>
    by_cases hsmall : v < 128
    · have hnat : (UInt8.ofNat v).toNat = v := by
        rw [UInt8.toNat_ofNat']
        omega
      have hlast : UInt8.ofNat v &&& 0x80 = 0 := (byte_bits _).1.2 (by rwa [hnat])
      rw [encode_small hsmall, decodeUnsignedLEB128, if_neg (Nat.not_le.2 hshift), if_neg (not_not.2 hlast),
        (byte_bits _).2, hnat, Nat.mod_eq_of_lt hsmall, Nat.shiftLeft_eq, Nat.mod_eq_of_lt hv]
    · have hnat : (UInt8.ofNat (v % 128 + 128)).toNat = v % 128 + 128 := by
        rw [UInt8.toNat_ofNat']
        omega
      have hmore : UInt8.ofNat (v % 128 + 128) &&& 0x80 ≠ 0 := fun h => by
        have := (byte_bits _).1.1 h
        omega
      have hpow : 2 ^ (shift + 7) = 128 * 2 ^ shift := by
        rw [Nat.pow_add, Nat.mul_comm]
      have hsplit : v * 2 ^ shift = v / 128 * 2 ^ (shift + 7) + v % 128 * 2 ^ shift := by
        rw [hpow, ← Nat.mul_assoc, ← Nat.add_mul, Nat.div_add_mod']
      have hrest : v / 128 * 2 ^ (shift + 7) < 2 ^ bits := by omega
      -- the quotient is not zero, so the next shift is in the range too
      have hshift' : shift + 7 < bits := by
        refine (Nat.pow_lt_pow_iff_right (by decide : 1 < 2)).1 (Nat.lt_of_le_of_lt ?_ hrest)
        exact Nat.le_mul_of_pos_left _ (by omega)
      have hlow : v % 128 * 2 ^ shift < 2 ^ (shift + 7) := by
        rw [hpow]
        exact Nat.mul_lt_mul_of_pos_right (Nat.mod_lt v (by decide)) (Nat.two_pow_pos shift)
      have hor : v % 128 * 2 ^ shift ||| v / 128 * 2 ^ (shift + 7) = v * 2 ^ shift := by
        rw [hsplit, Nat.or_comm, Nat.mul_comm (v / 128)]
        exact (Nat.two_pow_add_eq_or_of_lt hlow (v / 128)).symm
      rw [encode_large (by omega), decodeUnsignedLEB128, if_neg (Nat.not_le.2 hshift), if_pos hmore,
        ih (v / 128) (by omega) hshift' hrest, (byte_bits _).2, hnat]
      dsimp only
      rw [Nat.add_mod_right, Nat.mod_mod, Nat.shiftLeft_eq, Nat.mod_eq_of_lt (by omega), hor]

theorem reads_varInt {bits v : Nat} (hbits : bits ≤ 64) (hpos : 0 < bits) (hv : v < 2 ^ bits) (hk : K s) :
    Reads WalException.Torn K (varIntDecode bits) s (encodeUnsignedLEB128 v) v s := by
  have hlt : v < 128 ^ 16 := by
    have : 2 ^ bits ≤ 2 ^ 64 := Nat.pow_le_pow_right (by decide) hbits
    omega
  refine (reads_varIntBytes hk hlt (by decide)).bind_pure ?_
  have hdec : decodeUnsignedLEB128 bits 0 (encodeUnsignedLEB128 v) = .ok (v * 2 ^ 0) := decode_encode hpos (by omega)
  rw [Nat.pow_zero, Nat.mul_one] at hdec
  rw [hdec]
  exact .pure v s

end Serializer

end Haybarn.Wal
