/-
LEB128 integers of every width, signed and unsigned. Both decoders gather seven bits of each byte into
the result, lowest first, and the signed one extends the sign where the bytes did not fill the width.
The bytes of a value have payloads that add up to it modulo a power of 128, from which the decoders
find it again.
-/
import Mathlib.Tactic.Ring
import Mathlib.Tactic.Linarith
import Haybarn.Lib.Bits
import Haybarn.Wal.Serializer

namespace Haybarn.Serializer

open Lib (or_shiftLeft_mod)
open Wal (Bytes encodeUnsignedLEB128 byte_bits encode_small encode_large)

/-! ## Encoding -/

/-- The widths of the integers that are encoded so. -/
inductive Width where
  | w8 | w16 | w32 | w64
deriving DecidableEq, Repr

def Width.bits : Width → Nat
  | .w8 => 8
  | .w16 => 16
  | .w32 => 32
  | .w64 => 64

theorem natAbs_div_lt {value : Int} (h : ¬ (value = 0 ∨ value = -1)) : (value / 128).natAbs < value.natAbs := by
  omega

/-- `EncodeSignedLEB128`. The shift is arithmetic: a division that rounds down. -/
def encodeSignedLEB128 (value : Int) : Bytes :=
  let byte := (value % 128).toNat
  let rest := value / 128
  if rest = 0 ∧ byte &&& 0x40 = 0 ∨ rest = -1 ∧ byte &&& 0x40 ≠ 0 then [UInt8.ofNat byte]
  else UInt8.ofNat (byte ||| 0x80) :: encodeSignedLEB128 rest
termination_by value.natAbs
decreasing_by
  refine natAbs_div_lt fun h => ?_
  rename_i hmore
  rcases h with rfl | rfl <;> exact hmore (by decide)

/-! ## Decoding -/

/-- Failed to decode LEB128 integer: data may be corrupt -/
inductive DecodeError where
  | corrupt
deriving DecidableEq, Repr

/-- What the loop of a decoder ends with: the bits, the shift after the last byte, and that byte. -/
structure Decoded where
  result : Nat
  shift : Nat
  byte : UInt8
deriving DecidableEq, Repr

/-- The loop of the decoders, and how many bytes have been read after it. After the bytes that are given
the buffer is filled with zeros. -/
def decodeLoop (bits : Nat) : (result shift offset : Nat) → Bytes → Except DecodeError Decoded × Nat
  | result, shift, offset, [] =>
    if shift ≥ bits then (.error .corrupt, offset + 1) else (.ok ⟨result, shift + 7, 0⟩, offset + 1)
  | result, shift, offset, byte :: source =>
    if shift ≥ bits then (.error .corrupt, offset + 1)
    else
      let result := result ||| (byte &&& 0x7F).toNat <<< shift % 2 ^ bits
      if byte &&& 0x80 ≠ 0 then decodeLoop bits result (shift + 7) (offset + 1) source
      else (.ok ⟨result, shift + 7, byte⟩, offset + 1)

def decodeUnsignedLEB128 (w : Width) (source : Bytes) : Except DecodeError (BitVec w.bits) × Nat :=
  let (decoded, offset) := decodeLoop w.bits 0 0 0 source
  (decoded.map fun d => BitVec.ofNat w.bits d.result, offset)

def decodeSignedLEB128 (w : Width) (source : Bytes) : Except DecodeError (BitVec w.bits) × Nat :=
  let (decoded, offset) := decodeLoop w.bits 0 0 0 source
  (decoded.map fun d =>
    let result := BitVec.ofNat w.bits d.result
    -- sign-extend if the most significant bit of the last byte is set
    if d.shift < w.bits ∧ d.byte &&& (0x40 : UInt8) ≠ 0 then result ||| -(1#w.bits <<< d.shift) else result, offset)

/-! ## How many bytes are read -/

theorem decodeLoop_offset (bits : Nat) : ∀ (source : Bytes) (result shift offset : Nat), shift ≤ bits + 6 →
    7 * (decodeLoop bits result shift offset source).2 + shift ≤ 7 * offset + bits + 13
  | [], result, shift, offset, h => by
    rw [decodeLoop]
    split <;> dsimp only <;> omega
  | byte :: source, result, shift, offset, h => by
    rw [decodeLoop]
    split
    · dsimp only
      omega
    · dsimp only
      split
      · have ih := decodeLoop_offset bits source (result ||| (byte &&& 0x7F).toNat <<< shift % 2 ^ bits) (shift + 7)
          (offset + 1) (by omega)
        omega
      · dsimp only
        omega

theorem decodeLoop_reads_le (w : Width) (source : Bytes) : (decodeLoop w.bits 0 0 0 source).2 ≤ 16 := by
  have h := decodeLoop_offset w.bits source 0 0 0 (by omega)
  have hw : w.bits ≤ 64 := by cases w <;> decide
  omega

/-! ## Payloads -/

/-- The number that the low bits of the bytes make up. -/
def payload : Bytes → Nat
  | [] => 0
  | b :: bytes => b.toNat % 128 + 128 * payload bytes

theorem decodeLoop_terminated (bits : Nat) {last : UInt8} (hlast : last.toNat < 128) (rest : Bytes) :
    ∀ (init : Bytes) (result shift offset : Nat), (∀ b ∈ init, 128 ≤ b.toNat) → result < 2 ^ shift →
      shift + 7 * init.length < bits →
      decodeLoop bits result shift offset (init ++ [last] ++ rest) =
        (.ok ⟨(result + 2 ^ shift * payload (init ++ [last])) % 2 ^ bits, shift + 7 * (init.length + 1), last⟩,
          offset + init.length + 1)
  | [], result, shift, offset, _, hr, hs => by
    have hs : shift < bits := by simpa using hs
    have hbyte : last &&& 0x80 = 0 := (byte_bits last).1.2 hlast
    simp only [List.nil_append, List.singleton_append, decodeLoop, if_neg (Nat.not_le.2 hs), if_neg (not_not.2 hbyte),
      (byte_bits last).2, or_shiftLeft_mod hr hs, payload, Nat.mul_zero, Nat.add_zero, List.length_nil, Nat.mul_one,
      Nat.zero_add]
  | b :: init, result, shift, offset, hinit, hr, hs => by
    have hb : 128 ≤ b.toNat := hinit b List.mem_cons_self
    have hs' : shift < bits := by omega
    have hmore : b &&& 0x80 ≠ 0 := fun h => by
      have := (byte_bits b).1.1 h
      omega
    have hlow : b.toNat % 128 < 2 ^ 7 := Nat.mod_lt _ (by decide)
    rw [List.length_cons] at hs
    have hpow : 2 ^ (shift + 7) = 2 ^ shift * 128 := by rw [Nat.pow_add]
    have hsum : result + 2 ^ shift * (b.toNat % 128) < 2 ^ (shift + 7) := by
      calc result + 2 ^ shift * (b.toNat % 128) < 2 ^ shift + 2 ^ shift * (b.toNat % 128) := by omega
        _ = 2 ^ shift * (b.toNat % 128 + 1) := by ring
        _ ≤ 2 ^ shift * 128 := Nat.mul_le_mul_left _ (by omega)
        _ = _ := hpow.symm
    have hfit : result + 2 ^ shift * (b.toNat % 128) < 2 ^ bits :=
      hsum.trans_le (Nat.pow_le_pow_right (by decide) (by omega))
    have ih := decodeLoop_terminated bits hlast rest init (result + 2 ^ shift * (b.toNat % 128)) (shift + 7)
      (offset + 1) (fun c hc => hinit c (List.mem_cons_of_mem _ hc)) hsum (by omega)
    simp only [List.cons_append, decodeLoop, if_neg (Nat.not_le.2 hs'), if_pos hmore, (byte_bits b).2,
      or_shiftLeft_mod hr hs', Nat.mod_eq_of_lt hfit, payload, List.length_cons]
    rw [ih, hpow]
    simp only [Prod.mk.injEq, Except.ok.injEq, Decoded.mk.injEq, and_true]
    exact ⟨⟨by ring_nf, by omega⟩, by omega⟩

/-! ## What was encoded is decoded -/

/-- The bytes of a value: all but the last have the high bit, and there are no more than it takes. -/
structure Encodes (bytes init : Bytes) (last : UInt8) : Prop where
  eq : bytes = init ++ [last]
  more : ∀ b ∈ init, 128 ≤ b.toNat
  last : last.toNat < 128

theorem Encodes.cons {bytes init : Bytes} {last b : UInt8} (h : Encodes bytes init last) (hb : 128 ≤ b.toNat) :
    Encodes (b :: bytes) (b :: init) last :=
  ⟨by rw [h.eq, List.cons_append], List.forall_mem_cons.2 ⟨hb, h.more⟩, h.last⟩

theorem unsigned_encodes (v : Nat) : ∃ init last, Encodes (encodeUnsignedLEB128 v) init last ∧
    payload (encodeUnsignedLEB128 v) = v ∧ (init ≠ [] → 128 ^ init.length ≤ v) := by
  induction v using Nat.strongRecOn with
  | ind v ih =>
    by_cases hsmall : v < 128
    · have hnat : (UInt8.ofNat v).toNat = v := by
        rw [UInt8.toNat_ofNat']
        omega
      refine ⟨[], UInt8.ofNat v, ⟨by rw [encode_small hsmall]; rfl, by simp, by omega⟩, ?_, by simp⟩
      rw [encode_small hsmall, payload, payload, hnat]
      omega
    · obtain ⟨init, last, henc, hpay, hlen⟩ := ih (v / 128) (by omega)
      have hnat : (UInt8.ofNat (v % 128 + 128)).toNat = v % 128 + 128 := by
        rw [UInt8.toNat_ofNat']
        omega
      refine ⟨_ :: init, last, encode_large (v := v) (by omega) ▸ henc.cons (by omega), ?_, fun _ => ?_⟩
      · rw [encode_large (by omega), payload, hnat, hpay]
        omega
      · rw [List.length_cons, Nat.pow_succ]
        by_cases hinit : init = []
        · subst hinit
          rw [List.length_nil, Nat.pow_zero]
          omega
        · have := hlen hinit
          omega

/-- The distance of an integer to the nearer one of 0 and -1. -/
def magnitude (v : Int) : Nat := if v < 0 then (-v - 1).toNat else v.toNat

theorem byte_or_128 {n : Nat} (h : n < 128) : (UInt8.ofNat (n ||| 0x80)).toNat = n + 128 := by
  have hor : n ||| 0x80 = n + 128 := by
    rw [Nat.or_comm, Nat.add_comm]
    exact (Nat.two_pow_add_eq_or_of_lt (i := 7) h 1).symm
  rw [hor, UInt8.toNat_ofNat']
  omega

theorem and_64_eq_zero {n : Nat} (h : n < 128) : n &&& 0x40 = 0 ↔ n < 64 := by
  have hall : ∀ i : Fin 128, (i : Nat) &&& 0x40 = 0 ↔ (i : Nat) < 64 := by decide
  exact hall ⟨n, h⟩

theorem byte_64_iff {b : UInt8} (h : b.toNat < 128) : (b &&& 0x40) ≠ 0 ↔ 64 ≤ b.toNat := by
  have hall : ∀ i : Fin 128, (UInt8.ofNat i &&& 0x40) ≠ 0 ↔ 64 ≤ (i : Nat) := by decide +kernel
  have hb : UInt8.ofNat b.toNat = b := UInt8.ofNat_toNat
  have h := hall ⟨b.toNat, h⟩
  rwa [show ((⟨b.toNat, _⟩ : Fin 128) : Nat) = b.toNat from rfl, hb] at h

theorem signed_stop_iff (v : Int) :
    (v / 128 = 0 ∧ (v % 128).toNat &&& 0x40 = 0 ∨ v / 128 = -1 ∧ (v % 128).toNat &&& 0x40 ≠ 0) ↔
      magnitude v < 64 := by
  have hbyte : (v % 128).toNat &&& 0x40 = 0 ↔ (v % 128).toNat < 64 := and_64_eq_zero (by omega)
  rw [Ne, hbyte, magnitude]
  split <;> omega

theorem signed_small {v : Int} (h : magnitude v < 64) :
    encodeSignedLEB128 v = [UInt8.ofNat (v % 128).toNat] := by
  rw [encodeSignedLEB128, if_pos ((signed_stop_iff v).2 h)]

theorem signed_large {v : Int} (h : ¬ magnitude v < 64) :
    encodeSignedLEB128 v = UInt8.ofNat ((v % 128).toNat ||| 0x80) :: encodeSignedLEB128 (v / 128) := by
  rw [encodeSignedLEB128, if_neg (mt (signed_stop_iff v).1 h)]

theorem magnitude_div (v : Int) : magnitude (v / 128) = magnitude v / 128 := by
  unfold magnitude
  split <;> split <;> omega

theorem signed_encodes (n : Nat) : ∀ v : Int, magnitude v < n → ∃ init last, Encodes (encodeSignedLEB128 v) init last ∧
    (payload (encodeSignedLEB128 v) : Int) = (if v < 0 then v + 128 ^ (init.length + 1) else v) ∧
    (64 ≤ last.toNat ↔ v < 0) ∧ (init ≠ [] → 64 * 128 ^ init.length ≤ 128 * magnitude v) := by
  induction n with
  | zero => exact fun v h => absurd h (Nat.not_lt_zero _)
  | succ n ih =>
    intro v hv
    by_cases hsmall : magnitude v < 64
    · have hnat : (UInt8.ofNat (v % 128).toNat).toNat = (v % 128).toNat := by
        rw [UInt8.toNat_ofNat']
        omega
      rw [signed_small hsmall]
      refine ⟨[], _, ⟨rfl, by simp, by rw [hnat]; omega⟩, ?_, ?_, by simp⟩
      · rw [payload, payload, hnat]
        unfold magnitude at hsmall
        split at hsmall <;> split <;> simp <;> omega
      · rw [hnat]
        unfold magnitude at hsmall
        split at hsmall <;> omega
    · have hdiv := magnitude_div v
      obtain ⟨init, last, henc, hpay, hsign, hlen⟩ := ih (v / 128) (by omega)
      have hnat := byte_or_128 (n := (v % 128).toNat) (by omega)
      have hneg : v / 128 < 0 ↔ v < 0 := by omega
      rw [signed_large hsmall]
      refine ⟨_ :: init, last, henc.cons (by omega), ?_, hsign.trans hneg, fun _ => ?_⟩
      · have hlow : ((UInt8.ofNat ((v % 128).toNat ||| 0x80)).toNat % 128 : Nat) = (v % 128).toNat := by
          rw [hnat]
          omega
        rw [payload, hlow, List.length_cons]
        push_cast
        rw [hpay, Int.toNat_of_nonneg (by omega)]
        simp only [hneg]
        split
        · rw [pow_succ _ (init.length + 1)]
          omega
        · omega
      · rw [List.length_cons, Nat.pow_succ]
        by_cases hinit : init = []
        · subst hinit
          rw [List.length_nil, Nat.pow_zero]
          omega
        · have := hlen hinit
          rw [hdiv] at this
          omega

theorem decodeLoop_encodes {bits : Nat} {bytes init : Bytes} {last : UInt8} (h : Encodes bytes init last)
    (hlen : 7 * init.length < bits) (rest : Bytes) :
    decodeLoop bits 0 0 0 (bytes ++ rest) =
      (.ok ⟨payload bytes % 2 ^ bits, 7 * (init.length + 1), last⟩, bytes.length) := by
  have hloop := decodeLoop_terminated bits h.last rest init 0 0 0 h.more (by simp) (by omega)
  rw [← h.eq] at hloop
  rw [hloop, h.eq]
  simp

theorem Width.bits_pos (w : Width) : 0 < w.bits := by cases w <;> decide

theorem unsigned_encodes_of_width (w : Width) (v : BitVec w.bits) : ∃ init last,
    Encodes (encodeUnsignedLEB128 v.toNat) init last ∧ 7 * init.length < w.bits := by
  obtain ⟨init, last, henc, -, hlen⟩ := unsigned_encodes v.toNat
  refine ⟨init, last, henc, ?_⟩
  by_cases hinit : init = []
  · rw [hinit]
    exact w.bits_pos
  · have hlt : 2 ^ (7 * init.length) < 2 ^ w.bits := by
      rw [Nat.pow_mul]
      exact (hlen hinit).trans_lt v.isLt
    exact (Nat.pow_lt_pow_iff_right (by decide)).1 hlt

theorem decodeUnsigned_encode (w : Width) (v : BitVec w.bits) (rest : Bytes) :
    decodeUnsignedLEB128 w (encodeUnsignedLEB128 v.toNat ++ rest) = (.ok v, (encodeUnsignedLEB128 v.toNat).length) := by
  obtain ⟨init, last, henc, hfit⟩ := unsigned_encodes_of_width w v
  obtain ⟨-, -, -, hpay, -⟩ := unsigned_encodes v.toNat
  rw [decodeUnsignedLEB128, decodeLoop_encodes henc hfit, hpay]
  simp [Except.map, BitVec.ofNat_toNat]

theorem or_neg_shiftLeft {w s n : Nat} (hn : n < 2 ^ s) (hs : s < w) :
    BitVec.ofNat w n ||| -(1#w <<< s) = BitVec.ofInt w (n - 2 ^ s) := by
  have hlt : 2 ^ s < 2 ^ w := Nat.pow_lt_pow_right (by decide) hs
  have hpow : 2 ^ w = 2 ^ s * 2 ^ (w - s) := by rw [← Nat.pow_add, Nat.add_sub_cancel' hs.le]
  have hone : (1#w <<< s).toNat = 2 ^ s := by
    rw [BitVec.toNat_shiftLeft, BitVec.toNat_ofNat, Nat.shiftLeft_eq, Nat.mod_eq_of_lt (a := 1) (by omega), Nat.one_mul,
      Nat.mod_eq_of_lt hlt]
  have hneg : (-(1#w <<< s)).toNat = 2 ^ s * (2 ^ (w - s) - 1) := by
    rw [BitVec.toNat_neg, hone, Nat.mod_eq_of_lt (by have := Nat.two_pow_pos s; omega), Nat.mul_sub, ← hpow, Nat.mul_one]
  apply BitVec.eq_of_toNat_eq
  rw [BitVec.toNat_or, BitVec.toNat_ofNat, Nat.mod_eq_of_lt (hn.trans hlt), hneg, Nat.or_comm,
    ← Nat.two_pow_add_eq_or_of_lt hn, Nat.mul_sub, ← hpow, Nat.mul_one, BitVec.toNat_ofInt]
  have hmod : ((n : Int) - 2 ^ s) % ((2 ^ w : Nat) : Int) = n - 2 ^ s + 2 ^ w := by
    push_cast
    rw [← Int.add_emod_right, Int.emod_eq_of_lt]
    · have : (2 : Int) ^ s < 2 ^ w := by exact_mod_cast hlt
      omega
    · have : (n : Int) < 2 ^ s := by exact_mod_cast hn
      omega
  rw [hmod]
  have hcast : ((n : Int) - 2 ^ s + 2 ^ w) = ((2 ^ w - 2 ^ s + n : Nat) : Int) := by
    push_cast [hlt.le]
    ring
  rw [hcast, Int.toNat_natCast]

theorem ofNat_mod_two_pow (w n : Nat) : BitVec.ofNat w (n % 2 ^ w) = BitVec.ofNat w n :=
  BitVec.eq_of_toNat_eq (by simp)

theorem ofInt_add_two_pow {w s : Nat} (h : w ≤ s) (i : Int) :
    BitVec.ofInt w (i + ((2 ^ s : Nat) : Int)) = BitVec.ofInt w i := by
  obtain ⟨k, rfl⟩ := Nat.exists_eq_add_of_le h
  apply BitVec.eq_of_toNat_eq
  rw [BitVec.toNat_ofInt, BitVec.toNat_ofInt, Nat.pow_add]
  push_cast
  rw [Int.add_mul_emod_self_left]

theorem signed_encodes_of_width (w : Width) (v : BitVec w.bits) : ∃ init last,
    Encodes (encodeSignedLEB128 v.toInt) init last ∧
    (payload (encodeSignedLEB128 v.toInt) : Int) =
      (if v.toInt < 0 then v.toInt + 128 ^ (init.length + 1) else v.toInt) ∧
    (64 ≤ last.toNat ↔ v.toInt < 0) ∧ 7 * init.length < w.bits := by
  obtain ⟨init, last, henc, hpay, hsign, hlen⟩ := signed_encodes (magnitude v.toInt + 1) v.toInt (Nat.lt_succ_self _)
  have hmag : 2 * magnitude v.toInt < 2 ^ w.bits := by
    have h₁ := BitVec.le_two_mul_toInt (x := v)
    have h₂ := BitVec.two_mul_toInt_lt (x := v)
    unfold magnitude
    zify
    split <;> omega
  refine ⟨init, last, henc, hpay, hsign, ?_⟩
  by_cases hinit : init = []
  · rw [hinit]
    exact w.bits_pos
  · have hlt : 2 ^ (7 * init.length) < 2 ^ w.bits := by
      rw [Nat.pow_mul]
      show 128 ^ init.length < _
      have := hlen hinit
      omega
    exact (Nat.pow_lt_pow_iff_right (by decide)).1 hlt

theorem decodeSigned_encode (w : Width) (v : BitVec w.bits) (rest : Bytes) :
    decodeSignedLEB128 w (encodeSignedLEB128 v.toInt ++ rest) = (.ok v, (encodeSignedLEB128 v.toInt).length) := by
  obtain ⟨init, last, henc, hpay, hsign, hfit⟩ := signed_encodes_of_width w v
  have hbyte : (last &&& 0x40) ≠ 0 ↔ v.toInt < 0 := by
    rw [← hsign]
    exact byte_64_iff henc.last
  rw [decodeSignedLEB128, decodeLoop_encodes henc hfit]
  simp only [Except.map, ofNat_mod_two_pow, Prod.mk.injEq, Except.ok.injEq, and_true, hbyte]
  have hpow : (128 : Int) ^ (init.length + 1) = ((2 ^ (7 * (init.length + 1)) : Nat) : Int) := by
    rw [Nat.pow_mul]
    push_cast
    rfl
  rw [hpow] at hpay
  by_cases hneg : v.toInt < 0
  · rw [if_pos hneg] at hpay
    split_ifs with hext
    · -- The sign is extended over the bits that were not written.
      rw [or_neg_shiftLeft (by omega) hext.1, hpay]
      push_cast
      rw [Int.add_sub_cancel, BitVec.ofInt_toInt]
    · have hbits : w.bits ≤ 7 * (init.length + 1) := by
        by_contra hlt
        exact hext ⟨by omega, hneg⟩
      rw [← BitVec.ofInt_natCast, hpay, ofInt_add_two_pow hbits, BitVec.ofInt_toInt]
  · rw [if_neg hneg] at hpay
    rw [if_neg (fun h => hneg h.2), ← BitVec.ofInt_natCast, hpay, BitVec.ofInt_toInt]

theorem decode_reads_le (w : Width) (source : Bytes) :
    (decodeUnsignedLEB128 w source).2 ≤ 16 ∧ (decodeSignedLEB128 w source).2 ≤ 16 :=
  ⟨decodeLoop_reads_le w source, decodeLoop_reads_le w source⟩

end Haybarn.Serializer
