/-
The BIT type: `Bit::BitPosition` with the functions it reads bits with. The search compares bit by bit, first over the
padded byte and then over the bytes behind it, with one counter for both loops, and a mismatch sets the counter back
without another look at the bits it had matched.
-/
import Haybarn.Lib.Chunks
import Haybarn.Lib.RestartSearch
import Mathlib.Algebra.Group.Nat.Defs

namespace Haybarn.Common

open Lib Lib.RestartSearch Nat
open List hiding count

/-! ## The type -/

/-- A `bitstring_t`: the number of padding bits, and the bytes of the bits behind as many padding bits. There is no empty
one, and its size is a `uint32_t`. -/
structure BitString where
  data : List (BitVec 8)
  two_le : 2 ≤ data.length
  size_lt : data.length < 2 ^ 32
  padding_lt : (data.getD 0 0).toNat < 8

namespace BitString

def getSize (b : BitString) : Nat := b.data.length

/-- `GetData()[i]`. -/
def buf (b : BitString) (i : Nat) : BitVec 8 := b.data.getD i 0

def getBitPadding (b : BitString) : Nat := (b.buf 0).toNat

def bitLength (b : BitString) : Nat := (b.getSize - 1) * 8 - b.getBitPadding

def getBitIndex (n : Nat) : Nat := n / 8 + 1

/-- `Bit::GetBitInternal`, true for a one. -/
def getBitInternal (b : BitString) (n : Nat) : Bool := (b.buf (getBitIndex n) >>> (7 - n % 8)) &&& 1 = 1

def getBit (b : BitString) (n : Nat) : Bool := b.getBitInternal (n + b.getBitPadding)

/-- `buf[byte_idx] & (1 << (7 - bit_idx)) ? 1 : 0`, true for a one. -/
def masked (b : BitString) (byteIdx bitIdx : Nat) : Bool := b.buf byteIdx &&& (1#8 <<< (7 - bitIdx)) ≠ 0

/-- What both loops do with a bit, whose place in the string is `place`: they return (the error) or go on with a new
`substr_idx`. The value returned is computed in an `idx_t`. -/
def matchBit (substring : BitString) (bit : Bool) (place substrIdx : Nat) : Except Nat Nat :=
  if bit = substring.getBit substrIdx then
    if substrIdx + 1 = substring.bitLength then .error ((place + 2 ^ 64 - substring.bitLength + 2) % 2 ^ 64)
    else .ok (substrIdx + 1)
  else .ok 0

/-- The first loop, over the bits of the padded byte. -/
def matchFirst (substring bits : BitString) : Except Nat Nat :=
  (List.range' bits.getBitPadding (8 - bits.getBitPadding)).foldlM
    (fun substrIdx bitIdx => matchBit substring (bits.masked 1 bitIdx) (bitIdx - bits.getBitPadding) substrIdx) 0

/-- A turn of the outer loop: the bits of one of the other bytes. -/
def matchByte (substring bits : BitString) (substrIdx byteIdx : Nat) : Except Nat Nat :=
  (List.range' 0 8).foldlM
    (fun substrIdx bitIdx =>
      matchBit substring (bits.masked byteIdx bitIdx) ((byteIdx - 1) * 8 + bitIdx - bits.getBitPadding) substrIdx)
    substrIdx

def bitPosition (substring bits : BitString) : Nat :=
  match matchFirst substring bits >>= (List.range' 2 (bits.getSize - 2)).foldlM (matchByte substring bits) with
  | .error result => result
  | .ok _ => 0

/-! ## The bits of a value -/

/-- The bits of a byte, the highest first. -/
def byteBits (byte : BitVec 8) : List Bool := (List.range 8).map fun i => byte.getLsbD (7 - i)

/-- The bits of a value: those of its bytes without the padding. -/
def toBits (b : BitString) : List Bool := (b.data.tail.map byteBits).flatten.drop b.getBitPadding

variable {b substring bits : BitString} {i k n : Nat}

@[simp] theorem length_byteBits (byte : BitVec 8) : (byteBits byte).length = 8 := by simp [byteBits]

theorem getElem?_byteBits (byte : BitVec 8) (hi : i < 8) : (byteBits byte)[i]? = some (byte.getLsbD (7 - i)) := by
  simp [byteBits, hi]

theorem chunked_bytes (bytes : List (BitVec 8)) : Chunked 8 (bytes.map byteBits) where
  pos := by simp
  le := by simp
  full := by
    intro k chunk hk _
    obtain ⟨byte, -, rfl⟩ := mem_map.1 (mem_of_getElem? hk)
    exact length_byteBits byte

theorem length_flatten_bytes (bytes : List (BitVec 8)) : (bytes.map byteBits).flatten.length = bytes.length * 8 := by
  induction bytes with
  | nil => rfl
  | cons byte bytes ih =>
    rw [map_cons, flatten_cons, length_append, ih, length_byteBits, length_cons]
    omega

theorem getBitPadding_lt (b : BitString) : b.getBitPadding < 8 := b.padding_lt

theorem length_toBits (b : BitString) : b.toBits.length = b.bitLength := by
  rw [toBits, length_drop, length_flatten_bytes, length_tail, bitLength, getSize]

theorem bitLength_pos (b : BitString) : 0 < b.bitLength := by
  have := b.two_le
  have := b.getBitPadding_lt
  unfold bitLength getSize
  omega

theorem bitLength_lt (b : BitString) : b.bitLength < 2 ^ 35 := by
  have := b.size_lt
  unfold bitLength getSize
  omega

theorem toBits_ne_nil (b : BitString) : b.toBits ≠ [] := by
  rw [← length_pos_iff, length_toBits]
  exact b.bitLength_pos

theorem getElem?_bytes (hi : i < 8) (hk : k + 1 < b.getSize) :
    (b.data.tail.map byteBits).flatten[k * 8 + i]? = some ((b.buf (k + 1)).getLsbD (7 - i)) := by
  have hget : (b.data.tail.map byteBits)[k]? = some (byteBits (b.buf (k + 1))) := by
    have hlt : k + 1 < b.data.length := hk
    rw [getElem?_map, getElem?_tail, buf, getD_eq_getElem?_getD, getElem?_eq_getElem hlt]
    rfl
  rw [(chunked_bytes _).getElem?_flatten hget (by simpa using hi), getElem?_byteBits _ hi]

theorem shifted_eq (byte : BitVec 8) : ∀ i < 8, decide ((byte >>> i) &&& 1 = 1) = byte.getLsbD i := by
  intro i hi
  rw [Bool.eq_iff_iff, decide_eq_true_iff]
  constructor
  · intro h
    simpa using congrArg (·.getLsbD 0) h
  · intro h
    apply BitVec.eq_of_getLsbD_eq
    intro j _
    obtain _ | j := j
    · simpa using h
    · simp [BitVec.getLsbD_one]

theorem masked_eq (hi : i < 8) : b.masked k i = (b.buf k).getLsbD (7 - i) := by
  unfold masked
  have hne : BitVec.twoPow 8 (7 - i) ≠ 0 := by
    intro h
    have := congrArg (·.getLsbD (7 - i)) h
    simp at this
    omega
  rw [← BitVec.twoPow_eq, BitVec.and_twoPow, Bool.eq_iff_iff, decide_eq_true_iff]
  cases (b.buf k).getLsbD (7 - i) with
  | true => simpa using hne
  | false => simp

theorem getBit_eq (hn : n < b.bitLength) : b.toBits[n]? = some (b.getBit n) := by
  unfold getBit getBitInternal getBitIndex
  have hlt : (n + b.getBitPadding) / 8 + 1 < b.getSize := by
    unfold bitLength at hn
    omega
  rw [shifted_eq _ _ (by omega), toBits, getElem?_drop, ← getElem?_bytes (mod_lt _ (by decide)) hlt,
    add_comm b.getBitPadding n]
  congr 1
  omega

/-! ## The search -/

/-- The answer of a search that has got to the given place, with the rest of the text before it. -/
def answer (word rest : List Bool) (place : Nat) : Except Nat Nat → Nat
  | .error result => result
  | .ok matched => ((scan word rest place matched).map (· + 1)).getD 0

/-- A search that has got to place `n`, or returned before, answers what the search from the beginning does. -/
structure Stands (substring bits : BitString) (n : Nat) (search : Except Nat Nat) : Prop where
  answer_eq : answer substring.toBits (bits.toBits.drop n) n search = answer substring.toBits bits.toBits 0 (.ok 0)
  lt : ∀ k, search = .ok k → k < substring.bitLength ∧ k ≤ n

theorem stands_first (substring bits : BitString) : Stands substring bits 0 (.ok 0) where
  answer_eq := rfl
  lt := by
    rintro k ⟨⟩
    exact ⟨substring.bitLength_pos, le_refl 0⟩

theorem Stands.of_error {result m : Nat} (h : Stands substring bits n (.error result)) :
    Stands substring bits m (.error result) where
  answer_eq := h.answer_eq
  lt := by rintro k ⟨⟩

theorem Stands.matchBit {bit : Bool} (h : Stands substring bits n (.ok k)) (hbit : bits.toBits[n]? = some bit) :
    Stands substring bits (n + 1) (matchBit substring bit n k) := by
  obtain ⟨hk, hkn⟩ := h.lt k rfl
  have hn : n < bits.bitLength := by
    rw [← length_toBits]
    exact (List.getElem?_eq_some_iff.1 hbit).1
  have hn64 := bits.bitLength_lt
  have heq := h.answer_eq
  rw [drop_of_getElem? hbit, answer, scan, getBit_eq hk, length_toBits] at heq
  unfold BitString.matchBit
  by_cases hsame : bit = substring.getBit k
  · rw [if_pos (congrArg some hsame.symm)] at heq
    rw [if_pos hsame]
    by_cases hend : k + 1 = substring.bitLength
    · rw [if_pos hend] at heq
      rw [if_pos hend]
      refine ⟨heq ▸ ?_, by rintro k' ⟨⟩⟩
      simp only [answer, Option.map_some, Option.getD_some]
      omega
    · rw [if_neg hend] at heq
      rw [if_neg hend]
      refine ⟨heq, ?_⟩
      rintro k' ⟨⟩
      exact ⟨by omega, by omega⟩
  · rw [if_neg fun h' => hsame (Option.some.inj h').symm] at heq
    rw [if_neg hsame]
    refine ⟨heq, ?_⟩
    rintro k' ⟨⟩
    exact ⟨substring.bitLength_pos, zero_le _⟩

theorem Stands.foldlM {turn : Nat → Nat → Except Nat Nat} {w : Nat} :
    ∀ {count first n k : Nat}, Stands substring bits n (.ok k) →
      (∀ j k, j < count → Stands substring bits (n + j * w) (.ok k) →
        Stands substring bits (n + j * w + w) (turn k (first + j))) →
      Stands substring bits (n + count * w) ((range' first count).foldlM turn k)
  | 0, first, n, k, h, _ => by
    rw [Nat.zero_mul, Nat.add_zero]
    exact h
  | count + 1, first, n, k, h, hturn => by
    have hnext := hturn 0 k (Nat.succ_pos count) (by simpa using h)
    rw [range'_succ, foldlM_cons]
    rw [Nat.zero_mul, Nat.add_zero, Nat.add_zero] at hnext
    have hend : n + (count + 1) * w = n + w + count * w := by rw [Nat.succ_mul]; omega
    cases hfirst : turn k first with
    | error result => exact (hfirst ▸ hnext).of_error
    | ok k' =>
      rw [hend]
      refine Stands.foldlM (hfirst ▸ hnext) fun j k'' hj h'' => ?_
      have hplace : n + w + j * w = n + (j + 1) * w := by rw [Nat.succ_mul]; omega
      rw [hplace] at h'' ⊢
      rw [Nat.add_assoc first, Nat.add_comm 1 j]
      exact hturn (j + 1) k'' (by omega) h''

theorem getElem?_toBits (hi : i < 8) (hk : k + 1 < b.getSize) (hpadding : b.getBitPadding ≤ k * 8 + i) :
    b.toBits[k * 8 + i - b.getBitPadding]? = some (b.masked (k + 1) i) := by
  rw [toBits, getElem?_drop, Nat.add_sub_cancel' hpadding, getElem?_bytes hi hk, masked_eq hi]

theorem stands_matchFirst (substring bits : BitString) :
    Stands substring bits (8 - bits.getBitPadding) (matchFirst substring bits) := by
  have hpadding := bits.getBitPadding_lt
  have hsize : 2 ≤ bits.getSize := bits.two_le
  have h : Stands substring bits (0 + (8 - bits.getBitPadding) * 1) (matchFirst substring bits) := by
    refine (stands_first substring bits).foldlM fun j k hj h => ?_
    have hbit : bits.toBits[0 * 8 + (bits.getBitPadding + j) - bits.getBitPadding]? =
        some (bits.masked 1 (bits.getBitPadding + j)) := getElem?_toBits (by omega) (by omega) (by omega)
    rw [Nat.zero_mul, Nat.zero_add, Nat.add_sub_cancel_left] at hbit
    rw [Nat.zero_add, Nat.mul_one] at h ⊢
    rw [Nat.add_sub_cancel_left]
    exact h.matchBit hbit
  rwa [Nat.zero_add, Nat.mul_one] at h

theorem Stands.matchByte (hk : k + 1 < bits.getSize) (hpos : 0 < k) {matched : Nat}
    (h : Stands substring bits (k * 8 - bits.getBitPadding) (.ok matched)) :
    Stands substring bits (k * 8 - bits.getBitPadding + 8) (matchByte substring bits matched (k + 1)) := by
  have hpadding := bits.getBitPadding_lt
  have hend : k * 8 - bits.getBitPadding + 8 = k * 8 - bits.getBitPadding + 8 * 1 := rfl
  rw [hend]
  refine h.foldlM fun j k' hj h' => ?_
  have hbit : bits.toBits[k * 8 + j - bits.getBitPadding]? = some (bits.masked (k + 1) j) :=
    getElem?_toBits hj hk (by omega)
  have hplace : k * 8 - bits.getBitPadding + j * 1 = k * 8 + j - bits.getBitPadding := by omega
  rw [hplace] at h' ⊢
  rw [Nat.add_sub_cancel, Nat.zero_add]
  exact h'.matchBit hbit

theorem bitPosition_eq (substring bits : BitString) :
    bitPosition substring bits = ((scan substring.toBits bits.toBits 0 0).map (· + 1)).getD 0 := by
  have hpadding := bits.getBitPadding_lt
  have hsize : 2 ≤ bits.getSize := bits.two_le
  unfold bitPosition
  have hfirst := stands_matchFirst substring bits
  cases hfirst' : matchFirst substring bits with
  | error result => exact (hfirst' ▸ hfirst).answer_eq
  | ok k =>
    have h : Stands substring bits (8 - bits.getBitPadding + (bits.getSize - 2) * 8)
        ((range' 2 (bits.getSize - 2)).foldlM (matchByte substring bits) k) := by
      refine (hfirst' ▸ hfirst).foldlM fun j k' hj h' => ?_
      have hplace : 8 - bits.getBitPadding + j * 8 = (j + 1) * 8 - bits.getBitPadding := by omega
      rw [hplace] at h' ⊢
      rw [add_comm 2 j]
      exact h'.matchByte (by omega) (by omega)
    have hend : bits.toBits.drop (8 - bits.getBitPadding + (bits.getSize - 2) * 8) = [] := by
      rw [drop_eq_nil_iff, length_toBits, bitLength]
      omega
    have heq := h.answer_eq
    rw [hend] at heq
    rw [show ∀ rest, (Except.ok k >>= rest : Except Nat Nat) = rest k from fun _ => rfl]
    cases hrest : (range' 2 (bits.getSize - 2)).foldlM (matchByte substring bits) k with
    | error result => rw [hrest] at heq; exact heq
    | ok k' => rw [hrest] at heq; exact heq

/-- `BitPosition` is right exactly when the first place at which the substring stands, if there is one, is a place where the
search begins to compare it: the first bit, or the bit behind the mismatch that ended the comparison before. -/
theorem bitPosition_isPosition_iff (substring bits : BitString) :
    IsPosition substring.toBits bits.toBits (bitPosition substring bits) ↔
      ∀ i, IsFirst substring.toBits bits.toBits i → Attempt substring.toBits bits.toBits i := by
  rw [bitPosition_eq]
  exact isPosition_scan_iff substring.toBits_ne_nil

/-- The bits 001 and 01. -/
def bits001 : BitString := ⟨[5, 0b11111001], by decide, by decide, by decide⟩

def bits01 : BitString := ⟨[6, 0b11111101], by decide, by decide, by decide⟩

/-- 01 stands in 001 at place 1 and is not found: the comparison that begins at place 0 ends at place 1, and the next one
begins at place 2. -/
theorem bitPosition_misses :
    bits001.toBits = [false, false, true] ∧ bits01.toBits = [false, true] ∧
      IsFirst bits01.toBits bits001.toBits 1 ∧ bitPosition bits01 bits001 = 0 ∧
      ¬ IsPosition bits01.toBits bits001.toBits (bitPosition bits01 bits001) := by
  have hfirst : IsFirst bits01.toBits bits001.toBits 1 := by decide
  refine ⟨by decide, by decide, hfirst, by decide, fun h => ?_⟩
  have := h.of_isFirst 1 hfirst
  rw [show bitPosition bits01 bits001 = 0 by decide] at this
  cases this

end BitString

end Haybarn.Common
