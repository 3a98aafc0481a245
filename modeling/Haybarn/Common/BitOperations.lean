/-
The operations of the BIT type, from `bit.cpp`, on the bytes of values and of the memory that results are written to. Behind
the byte with the number of padding bits the bits stand from the highest one of a byte to the lowest, and `Finalize` sets the
padding bits to one.

The operations of the BIT type are those of lists of bits: every one of them leaves a value whose padding bits are one, so that
values are equal exactly if their bits are.
-/
import Haybarn.Common.Bit

namespace Haybarn.Common.Bit

open List
open BitString (byteBits length_byteBits getElem?_byteBits chunked_bytes length_flatten_bytes)

/-! ## Bits and padding -/

def computePadding (len : Nat) : Nat := (8 - len % 8) % 8

def computeBitstringLen (len : Nat) : Nat :=
  let result := len / 8
  let result := if len % 8 ≠ 0 then result + 1 else result
  -- the first byte stores the padding
  result + 1

/-- `data[i]`. -/
def byteAt (data : List (BitVec 8)) (i : Nat) : BitVec 8 := data.getD i 0

def getBitPadding (data : List (BitVec 8)) : Nat := (byteAt data 0).toNat

def bitLength (data : List (BitVec 8)) : Nat := (data.length - 1) * 8 - getBitPadding data

def octetLength (data : List (BitVec 8)) : Nat := data.length - 1

def getBitIndex (n : Nat) : Nat := n / 8 + 1

/-- `Bit::GetBitInternal`, true for a one. -/
def getBitInternal (data : List (BitVec 8)) (n : Nat) : Bool := (byteAt data (getBitIndex n) >>> (7 - n % 8)) &&& 1 = 1

def getBit (data : List (BitVec 8)) (n : Nat) : Bool := getBitInternal data (n + getBitPadding data)

def setBitInternal (data : List (BitVec 8)) (n : Nat) (newValue : Bool) : List (BitVec 8) :=
  let shiftByte := 1#8 <<< (7 - n % 8)
  if newValue then data.set (getBitIndex n) (byteAt data (getBitIndex n) ||| shiftByte)
  else data.set (getBitIndex n) (byteAt data (getBitIndex n) &&& ~~~shiftByte)

def finalize (data : List (BitVec 8)) : List (BitVec 8) :=
  (List.range (getBitPadding data)).foldl (fun data i => setBitInternal data i true) data

def setBit (data : List (BitVec 8)) (n : Nat) (newValue : Bool) : List (BitVec 8) :=
  finalize (setBitInternal data (n + getBitPadding data) newValue)

/-! ## Texts and BLOBs -/

/-- `'0'` or `'1'`. -/
def character (bit : Bool) : BitVec 8 := if bit then 0x31 else 0x30

/-- The errors of a text that is none of a BIT value. -/
inductive BitError where
  /-- "Invalid character encountered in string -> bit conversion" -/
  | invalidCharacter (c : BitVec 8)
  /-- "Cannot cast empty string to BIT" -/
  | emptyString

def tryGetBitStringSize (str : List (BitVec 8)) : Except BitError Nat := do
  let strLen ← str.foldlM (fun strLen c =>
    if c = character false ∨ c = character true then .ok (strLen + 1) else .error (.invalidCharacter c)) 0
  if strLen = 0 then .error .emptyString else .ok (computeBitstringLen strLen)

/-- `data[byte_idx] & (1 << (7 - bit_idx))`, true for a one. -/
def masked (byte : BitVec 8) (bitIdx : Nat) : Bool := byte &&& (1#8 <<< (7 - bitIdx)) ≠ 0

def toString (data : List (BitVec 8)) : List (BitVec 8) :=
  (List.range' (getBitPadding data) (8 - getBitPadding data)).map (fun bitIdx => character (masked (byteAt data 1) bitIdx)) ++
    (List.range' 2 (data.length - 2)).flatMap fun byteIdx =>
      (List.range 8).map fun bitIdx => character (masked (byteAt data byteIdx) bitIdx)

/-- A turn of the loops of `Bit::ToBit` over the characters of a byte. -/
def appendBit (text : List (BitVec 8)) (byte : BitVec 8) (i : Nat) : BitVec 8 :=
  let byte := byte <<< 1
  if byteAt text i = character true then byte ||| 1 else byte

def toBit (text result : List (BitVec 8)) : List (BitVec 8) :=
  let len := text.length
  let paddedByte := len % 8
  let byte := (List.range paddedByte).foldl (appendBit text) 0
  let output := (if paddedByte ≠ 0 then [BitVec.ofNat 8 (8 - paddedByte)] else []) ++ [byte]
  -- the values of `byte_idx`
  let output := output ++ (List.range' paddedByte ((len - paddedByte + 7) / 8) 8).map fun byteIdx =>
    (List.range 8).foldl (fun byte bitIdx => appendBit text byte (byteIdx + bitIdx)) 0
  finalize (output ++ result.drop output.length)

def getFirstByte (data : List (BitVec 8)) : BitVec 8 := byteAt data 1 &&& BitVec.ofNat 8 (2 ^ (8 - getBitPadding data) - 1)

def bitToBlob (data : List (BitVec 8)) : List (BitVec 8) :=
  let size := data.length - 1
  getFirstByte data :: if 2 ≤ size then (data.drop 2).take (size - 1) else []

def blobToBit (blob : List (BitVec 8)) : List (BitVec 8) := 0 :: blob

/-! ## Scalar functions -/

def bitString (input : List (BitVec 8)) (bitLength : Nat) (result : List (BitVec 8)) : List (BitVec 8) :=
  let padding := computePadding bitLength
  let result := result.set 0 (BitVec.ofNat 8 padding)
  finalize ((List.range bitLength).foldl (fun result i =>
    if i < bitLength - input.length then setBitInternal result (i + padding) false
    else setBitInternal result (i + padding) (byteAt input (i - (bitLength - input.length)) = character true)) result)

def extendBitString (input : List (BitVec 8)) (bitLength : Nat) (result : List (BitVec 8)) : List (BitVec 8) :=
  let result := result.set 0 (BitVec.ofNat 8 (computePadding bitLength))
  let shift := bitLength - Bit.bitLength input
  finalize ((List.range bitLength).foldl (fun result i =>
    if i < shift then setBit result i false else setBit result i (getBit input (i - shift))) result)

def bitCount (data : List (BitVec 8)) : Nat :=
  let count := (List.range' 1 (octetLength data)).foldl (fun count byteIdx =>
    (List.range 8).foldl (fun count bitIdx => count + if byteAt data byteIdx &&& (1#8 <<< bitIdx) ≠ 0 then 1 else 0) count) 0
  count - getBitPadding data

def rightShift (data : List (BitVec 8)) (shift : Nat) (result : List (BitVec 8)) : List (BitVec 8) :=
  let result := result.set 0 (byteAt data 0)
  let padding := getBitPadding result
  finalize ((List.range (bitLength result)).foldl (fun result i =>
    if i < shift then setBitInternal result (i + padding) false
    else setBitInternal result (i + padding) (getBit data (i - shift))) result)

def leftShift (data : List (BitVec 8)) (shift : Nat) (result : List (BitVec 8)) : List (BitVec 8) :=
  let result := result.set 0 (byteAt data 0)
  let padding := getBitPadding result
  finalize ((List.range (bitLength data)).foldl (fun result i =>
    if i < bitLength data - shift then setBitInternal result (i + padding) (getBit data (shift + i))
    else setBitInternal result (i + padding) false) result)

/-- What `BitwiseAnd`, `BitwiseOr` and `BitwiseXor` share: `none` where the lengths differ and an exception is thrown. -/
def bitwise (operation : BitVec 8 → BitVec 8 → BitVec 8) (rhs lhs result : List (BitVec 8)) : Option (List (BitVec 8)) :=
  if bitLength lhs ≠ bitLength rhs then none
  else
    let result := result.set 0 (byteAt lhs 0)
    some (finalize ((List.range' 1 (lhs.length - 1)).foldl
      (fun result i => result.set i (operation (byteAt lhs i) (byteAt rhs i))) result))

def bitwiseAnd : List (BitVec 8) → List (BitVec 8) → List (BitVec 8) → Option (List (BitVec 8)) := bitwise (· &&& ·)

def bitwiseOr : List (BitVec 8) → List (BitVec 8) → List (BitVec 8) → Option (List (BitVec 8)) := bitwise (· ||| ·)

def bitwiseXor : List (BitVec 8) → List (BitVec 8) → List (BitVec 8) → Option (List (BitVec 8)) := bitwise (· ^^^ ·)

def bitwiseNot (input result : List (BitVec 8)) : List (BitVec 8) :=
  let result := result.set 0 (byteAt input 0)
  finalize ((List.range' 1 (input.length - 1)).foldl (fun result i => result.set i (~~~ byteAt input i)) result)

variable {data result : List (BitVec 8)} {bits : List Bool} {i k n p : Nat}

/-! ## The form of values -/

/-- The bits of all bytes, with the padding. -/
def allBits (data : List (BitVec 8)) : List Bool := (data.tail.map byteBits).flatten

/-- The value of a list of bits: its padding bits are one. -/
structure Canonical (data : List (BitVec 8)) (bits : List Bool) : Prop where
  two_le : 2 ≤ data.length
  padding_lt : getBitPadding data < 8
  allBits_eq : allBits data = List.replicate (getBitPadding data) true ++ bits

theorem length_allBits (data : List (BitVec 8)) : (allBits data).length = (data.length - 1) * 8 := by
  rw [allBits, length_flatten_bytes, length_tail]

theorem Canonical.length_eq (h : Canonical data bits) : (data.length - 1) * 8 = getBitPadding data + bits.length := by
  rw [← length_allBits, h.allBits_eq, length_append, length_replicate]

theorem Canonical.bitLength_eq (h : Canonical data bits) : bitLength data = bits.length := by
  rw [bitLength, h.length_eq, Nat.add_sub_cancel_left]

theorem Canonical.length_pos (h : Canonical data bits) : 0 < bits.length := by
  have := h.length_eq
  have := h.two_le
  have := h.padding_lt
  omega

theorem Canonical.padding_eq (h : Canonical data bits) : getBitPadding data = computePadding bits.length := by
  have := h.length_eq
  have := h.padding_lt
  rw [computePadding]
  omega

theorem Canonical.drop_eq (h : Canonical data bits) : (allBits data).drop (getBitPadding data) = bits := by
  rw [h.allBits_eq, drop_left' length_replicate]

theorem getElem?_allBits (hi : i < 8) (hk : k + 1 < data.length) :
    (allBits data)[k * 8 + i]? = some ((byteAt data (k + 1)).getLsbD (7 - i)) := by
  have hget : (data.tail.map byteBits)[k]? = some (byteBits (byteAt data (k + 1))) := by
    rw [getElem?_map, getElem?_tail, byteAt, getD_eq_getElem?_getD, getElem?_eq_getElem hk]
    rfl
  rw [allBits, (chunked_bytes _).getElem?_flatten hget (by simpa using hi), getElem?_byteBits _ hi]

theorem getElem?_allBits' (hn : n < (data.length - 1) * 8) :
    (allBits data)[n]? = some ((byteAt data (n / 8 + 1)).getLsbD (7 - n % 8)) := by
  rw [← getElem?_allBits (Nat.mod_lt n (by decide)) (by omega), Nat.div_add_mod']

theorem getBitInternal_eq (hn : n < (data.length - 1) * 8) : (allBits data)[n]? = some (getBitInternal data n) := by
  rw [getElem?_allBits' hn, getBitInternal, getBitIndex, BitString.shifted_eq _ _ (by omega)]

theorem Canonical.getBit_eq (h : Canonical data bits) (hn : n < bits.length) : bits[n]? = some (getBit data n) := by
  have hlength := h.length_eq
  rw [getBit, ← getBitInternal_eq (by omega), h.allBits_eq, getElem?_append_right (by rw [length_replicate]; omega),
    length_replicate, Nat.add_sub_cancel]

/-! ## Setting bits -/

theorem byteAt_set (byte : BitVec 8) (j : Nat) :
    byteAt (data.set k byte) j = if k = j ∧ k < data.length then byte else byteAt data j := by
  rw [byteAt, byteAt, getD_eq_getElem?_getD, getD_eq_getElem?_getD, getElem?_set]
  by_cases hkj : k = j
  · by_cases hk : k < data.length
    · rw [if_pos hkj, if_pos hk, if_pos ⟨hkj, hk⟩]
      rfl
    · rw [if_pos hkj, if_neg hk, if_neg (fun h => hk h.2), getElem?_eq_none (by omega)]
  · rw [if_neg hkj, if_neg (fun h => hkj h.1)]

theorem getLsbD_shiftByte (hn : n < 8) : (1#8 <<< n).getLsbD i = decide (n = i) := by
  rw [← BitVec.twoPow_eq, BitVec.getLsbD_twoPow]
  simp [hn]

@[simp] theorem length_setBitInternal (value : Bool) : (setBitInternal data n value).length = data.length := by
  unfold setBitInternal
  cases value <;> simp

@[simp] theorem getBitPadding_setBitInternal (value : Bool) :
    getBitPadding (setBitInternal data n value) = getBitPadding data := by
  unfold setBitInternal getBitPadding getBitIndex
  cases value <;> simp [byteAt_set]

theorem allBits_setBitInternal (data : List (BitVec 8)) (n : Nat) (value : Bool) :
    allBits (setBitInternal data n value) = (allBits data).set n value := by
  apply ext_getElem?
  intro m
  by_cases hm : m < (data.length - 1) * 8
  · rw [getElem?_allBits' (by rwa [length_setBitInternal]), getElem?_set, length_allBits, getElem?_allBits' hm]
    have hbyte : byteAt (setBitInternal data n value) (m / 8 + 1) =
        if n / 8 = m / 8 then
          (if value then byteAt data (n / 8 + 1) ||| (1#8 <<< (7 - n % 8))
            else byteAt data (n / 8 + 1) &&& ~~~ (1#8 <<< (7 - n % 8)))
        else byteAt data (m / 8 + 1) := by
      unfold setBitInternal getBitIndex
      by_cases hsame : n / 8 = m / 8
      · cases value <;> simp [byteAt_set, hsame, show m / 8 + 1 < data.length by omega]
      · cases value <;> simp [byteAt_set, hsame]
    have hbit := @getLsbD_shiftByte (7 - m % 8) (7 - n % 8) (by omega)
    rw [hbyte]
    by_cases hsame : n / 8 = m / 8
    · by_cases hnm : n = m
      · obtain rfl := hnm
        have hin : n < (data.length - 1) * 8 := hm
        rw [if_pos rfl, if_pos rfl, if_pos hin]
        cases value <;> simp [show 7 - n % 8 < 8 by omega]
      · rw [if_pos hsame, if_neg hnm, hsame]
        rw [decide_eq_false (by omega)] at hbit
        have hlt : 7 - m % 8 < 8 := by omega
        cases value
        · rw [if_neg (by decide), BitVec.getLsbD_and, BitVec.getLsbD_not, hbit, decide_eq_true hlt]
          simp
        · rw [if_pos rfl, BitVec.getLsbD_or, hbit, Bool.or_false]
    · rw [if_neg hsame, if_neg (by omega)]
  · have hout : (allBits data).length ≤ m := by rw [length_allBits]; omega
    rw [getElem?_eq_none (by rw [length_allBits, length_setBitInternal]; omega),
      getElem?_eq_none (by rwa [length_set])]

theorem set_next {α : Type} {front rest : List α} {m : Nat} (hm : m < rest.length) (value : α) :
    (front ++ rest.drop m).set front.length value = front ++ [value] ++ rest.drop (m + 1) := by
  rw [drop_eq_getElem_cons hm, set_append_right _ _ (le_refl _), Nat.sub_self, set_cons_zero,
    append_assoc, singleton_append]

theorem foldl_setBitInternal (f : Nat → Bool) (s : Nat) : ∀ (k : Nat) (data : List (BitVec 8)),
    let data' := (range k).foldl (fun data i => setBitInternal data (i + s) (f i)) data
    data'.length = data.length ∧ getBitPadding data' = getBitPadding data ∧
      (s + k ≤ (allBits data).length →
        allBits data' = (allBits data).take s ++ (range k).map f ++ (allBits data).drop (s + k))
  | 0, data => ⟨rfl, rfl, fun _ => by simp⟩
  | k + 1, data => by
    obtain ⟨hlength, hpadding, hbits⟩ := foldl_setBitInternal f s k data
    rw [range_succ, foldl_append, foldl_cons, foldl_nil]
    refine ⟨by rw [length_setBitInternal, hlength], by rw [getBitPadding_setBitInternal, hpadding], fun hk => ?_⟩
    have hfront : k + s = ((allBits data).take s ++ (range k).map f).length := by
      rw [length_append, length_take, length_map, length_range]
      omega
    rw [allBits_setBitInternal, hbits (by omega), hfront, set_next (by omega), map_append, map_singleton,
      append_assoc (take s _), Nat.add_assoc]

/-- `Finalize` sets the padding bits. -/
theorem finalize_spec (data : List (BitVec 8)) (h : getBitPadding data ≤ (allBits data).length) :
    (finalize data).length = data.length ∧ getBitPadding (finalize data) = getBitPadding data ∧
      allBits (finalize data) =
        replicate (getBitPadding data) true ++ (allBits data).drop (getBitPadding data) := by
  obtain ⟨hlength, hpadding, hbits⟩ := foldl_setBitInternal (fun _ => true) 0 (getBitPadding data) data
  refine ⟨hlength, hpadding, ?_⟩
  have := hbits (by omega)
  rw [take_zero, nil_append, Nat.zero_add, map_const', length_range] at this
  exact this

theorem canonical_finalize (h2 : 2 ≤ data.length) (hp : getBitPadding data < 8) :
    Canonical (finalize data) ((allBits data).drop (getBitPadding data)) := by
  obtain ⟨hlength, hpadding, hbits⟩ := finalize_spec data (by rw [length_allBits]; omega)
  exact ⟨by rwa [hlength], by rwa [hpadding], by rw [hbits, hpadding]⟩

theorem map_range_eq {α : Type} {l : List α} {f : Nat → α} (h : ∀ i < l.length, l[i]? = some (f i)) :
    (range l.length).map f = l := by
  apply ext_getElem?
  intro i
  rw [getElem?_map]
  by_cases hi : i < l.length
  · rw [getElem?_range hi, h i hi, Option.map_some]
  · rw [getElem?_eq_none (by rw [length_range]; omega), getElem?_eq_none (by omega), Option.map_none]

theorem canonical_loop {result : List (BitVec 8)} {step : List (BitVec 8) → Nat → List (BitVec 8)} (f : Nat → Bool)
    (hlen : bits.length = k) (h2 : 2 ≤ result.length) (hp : getBitPadding result < 8)
    (hk : getBitPadding result + k = (result.length - 1) * 8) (hbits : ∀ i < k, bits[i]? = some (f i))
    (hstep : ∀ data i, i < k → data.length = result.length → getBitPadding data = getBitPadding result →
      (step data i).length = data.length ∧ getBitPadding (step data i) = getBitPadding data ∧
        (allBits (step data i)).drop (getBitPadding data) = ((allBits data).drop (getBitPadding data)).set i (f i)) :
    Canonical (finalize ((range k).foldl step result)) bits := by
  obtain rfl := hlen
  have hrun : ∀ m ≤ bits.length,
      ((range m).foldl step result).length = result.length ∧
        getBitPadding ((range m).foldl step result) = getBitPadding result ∧
        (allBits ((range m).foldl step result)).drop (getBitPadding result) =
          (range m).map f ++ (allBits result).drop (getBitPadding result + m) := by
    intro m
    induction m with
    | zero => exact fun _ => ⟨rfl, rfl, rfl⟩
    | succ m ih =>
      intro hm
      obtain ⟨hlength, hpadding, hbits⟩ := ih (by omega)
      have hall := length_allBits result
      have hfront : m = ((range m).map f).length := by rw [length_map, length_range]
      rw [range_succ, foldl_append, foldl_cons, foldl_nil]
      obtain ⟨hlength', hpadding', hbits'⟩ := hstep ((range m).foldl step result) m (by omega) hlength hpadding
      refine ⟨by rw [hlength', hlength], by rw [hpadding', hpadding], ?_⟩
      rw [hpadding] at hbits'
      have hnext := @set_next _ ((range m).map f) (allBits result) (getBitPadding result + m) (by omega) (f m)
      rw [← hfront] at hnext
      rw [hbits', hbits, hnext, map_append, map_singleton, Nat.add_assoc]
  obtain ⟨hlength, hpadding, hall⟩ := hrun bits.length (le_refl _)
  have h := @canonical_finalize ((range bits.length).foldl step result) (by rwa [hlength]) (by rwa [hpadding])
  rwa [hpadding, hall, hk, drop_eq_nil_of_le (by rw [length_allBits]), append_nil, map_range_eq hbits] at h

theorem setBitInternal_step (data : List (BitVec 8)) (i : Nat) (value : Bool) :
    (setBitInternal data (i + getBitPadding data) value).length = data.length ∧
      getBitPadding (setBitInternal data (i + getBitPadding data) value) = getBitPadding data ∧
        (allBits (setBitInternal data (i + getBitPadding data) value)).drop (getBitPadding data) =
          ((allBits data).drop (getBitPadding data)).set i value := by
  refine ⟨length_setBitInternal value, getBitPadding_setBitInternal value, ?_⟩
  rw [allBits_setBitInternal, drop_set, if_neg (by omega), Nat.add_sub_cancel]

theorem setBit_step (data : List (BitVec 8)) (i : Nat) (value : Bool) (h : getBitPadding data ≤ (allBits data).length) :
    (setBit data i value).length = data.length ∧ getBitPadding (setBit data i value) = getBitPadding data ∧
        (allBits (setBit data i value)).drop (getBitPadding data) = ((allBits data).drop (getBitPadding data)).set i value := by
  obtain ⟨hlength, hpadding, hbits⟩ := setBitInternal_step data i value
  obtain ⟨hlength', hpadding', hbits'⟩ := finalize_spec (setBitInternal data (i + getBitPadding data) value) (by
    rw [getBitPadding_setBitInternal, allBits_setBitInternal, length_set]
    exact h)
  refine ⟨hlength'.trans hlength, hpadding'.trans hpadding, ?_⟩
  rw [setBit, hbits', hpadding, drop_left' length_replicate, hbits]

/-! ## The operations on bits -/

theorem canonical_setBit (h : Canonical data bits) (n : Nat) (value : Bool) :
    Canonical (setBit data n value) (bits.set n value) := by
  obtain ⟨hlength, hpadding, hbits⟩ := setBitInternal_step data n value
  have hfinal := @canonical_finalize (setBitInternal data (n + getBitPadding data) value) (by rw [hlength]; exact h.two_le)
    (by rw [hpadding]; exact h.padding_lt)
  rwa [hpadding, hbits, h.drop_eq] at hfinal

theorem getBitPadding_set_zero (byte : BitVec 8) (h : 0 < result.length) :
    getBitPadding (result.set 0 byte) = byte.toNat := by
  rw [getBitPadding, byteAt_set, if_pos ⟨rfl, h⟩]

/-- Memory for a number of bits, with its padding. -/
theorem padded_spec (hn : 0 < n) (h : result.length = computeBitstringLen n) :
    2 ≤ (result.set 0 (BitVec.ofNat 8 (computePadding n))).length ∧
      getBitPadding (result.set 0 (BitVec.ofNat 8 (computePadding n))) = computePadding n ∧ computePadding n < 8 ∧
        computePadding n + n = ((result.set 0 (BitVec.ofNat 8 (computePadding n))).length - 1) * 8 := by
  have hpadding : computePadding n < 8 := Nat.mod_lt _ (by decide)
  have hlength : computePadding n + n = (computeBitstringLen n - 1) * 8 := by
    unfold computePadding computeBitstringLen
    dsimp only
    split <;> omega
  have h2 : 2 ≤ result.length := by omega
  rw [length_set, getBitPadding_set_zero _ (by omega), BitVec.toNat_ofNat, Nat.mod_eq_of_lt (by omega), h]
  exact ⟨by omega, rfl, hpadding, hlength⟩

/-- Memory of the size of a value, with its padding. -/
theorem copied_spec (h : Canonical data bits) (hlength : result.length = data.length) :
    2 ≤ (result.set 0 (byteAt data 0)).length ∧
      getBitPadding (result.set 0 (byteAt data 0)) = getBitPadding data ∧
        getBitPadding data + bits.length = ((result.set 0 (byteAt data 0)).length - 1) * 8 := by
  have h2 := h.two_le
  rw [length_set, getBitPadding_set_zero _ (by omega), hlength]
  exact ⟨h2, rfl, h.length_eq.symm⟩

theorem canonical_rightShift (h : Canonical data bits) (hlength : result.length = data.length) {shift : Nat}
    (hshift : shift ≤ bits.length) :
    Canonical (rightShift data shift result) (replicate shift false ++ bits.take (bits.length - shift)) := by
  obtain ⟨h2, hpadding, hk⟩ := copied_spec h hlength
  have hlen : (replicate shift false ++ bits.take (bits.length - shift)).length = bits.length := by
    rw [length_append, length_replicate, length_take]
    omega
  have hbits : bitLength (result.set 0 (byteAt data 0)) = bits.length := by
    rw [bitLength, hpadding, ← hk, Nat.add_sub_cancel_left]
  rw [rightShift, hbits]
  refine canonical_loop (fun i => if i < shift then false else getBit data (i - shift)) hlen h2
    (by rw [hpadding]; exact h.padding_lt) (by rw [hpadding, hk]) ?_ ?_
  · intro i hi
    rw [getElem?_append, length_replicate]
    split
    next hs => rw [getElem?_replicate, if_pos hs]
    next hs => rw [getElem?_take_of_lt (by omega), h.getBit_eq (by omega)]
  · intro r i _ _ hr
    rw [← hr]
    split <;> exact setBitInternal_step r i _

theorem canonical_leftShift (h : Canonical data bits) (hlength : result.length = data.length) {shift : Nat}
    (hshift : shift ≤ bits.length) :
    Canonical (leftShift data shift result) (bits.drop shift ++ replicate shift false) := by
  obtain ⟨h2, hpadding, hk⟩ := copied_spec h hlength
  have hlen : (bits.drop shift ++ replicate shift false).length = bits.length := by
    rw [length_append, length_drop, length_replicate]
    omega
  rw [leftShift, h.bitLength_eq]
  refine canonical_loop (fun i => if i < bits.length - shift then getBit data (shift + i) else false) hlen h2
    (by rw [hpadding]; exact h.padding_lt) (by rw [hpadding, hk]) ?_ ?_
  · intro i hi
    rw [getElem?_append, length_drop]
    split
    next hs => rw [getElem?_drop, h.getBit_eq (by omega)]
    next hs => rw [getElem?_replicate, if_pos (by omega)]
  · intro r i _ _ hr
    rw [← hr]
    split <;> exact setBitInternal_step r i _

theorem canonical_extendBitString (h : Canonical data bits) (hn : bits.length ≤ n)
    (hlength : result.length = computeBitstringLen n) :
    Canonical (extendBitString data n result) (replicate (n - bits.length) false ++ bits) := by
  have hpos := h.length_pos
  obtain ⟨h2, hpadding, hlt, hk⟩ := padded_spec (by omega) hlength
  have hlen : (replicate (n - bits.length) false ++ bits).length = n := by
    rw [length_append, length_replicate]
    omega
  rw [extendBitString, h.bitLength_eq]
  refine canonical_loop (fun i => if i < n - bits.length then false else getBit data (i - (n - bits.length))) hlen h2
    (by rwa [hpadding]) (by rw [hpadding, hk]) ?_ ?_
  · intro i hi
    rw [getElem?_append, length_replicate]
    split
    next hs => rw [getElem?_replicate, if_pos hs]
    next hs => rw [h.getBit_eq (by omega)]
  · intro r i _ hr _
    have hall := length_allBits r
    split <;> exact setBit_step r i _ (by omega)

/-- The characters of bits. -/
def text (bits : List Bool) : List (BitVec 8) := bits.map character

theorem byteAt_text (hn : n < bits.length) : bits[n]? = some (decide (byteAt (text bits) n = character true)) := by
  rw [byteAt, text, getD_eq_getElem?_getD, getElem?_map, getElem?_eq_getElem hn]
  cases bits[n] <;> rfl

theorem canonical_bitString (hpos : 0 < bits.length) (hn : bits.length ≤ n)
    (hlength : result.length = computeBitstringLen n) :
    Canonical (bitString (text bits) n result) (replicate (n - bits.length) false ++ bits) := by
  obtain ⟨h2, hpadding, hlt, hk⟩ := padded_spec (by omega) hlength
  have hlen : (replicate (n - bits.length) false ++ bits).length = n := by
    rw [length_append, length_replicate]
    omega
  have htext : (text bits).length = bits.length := length_map _
  rw [bitString, htext]
  refine canonical_loop
    (fun i => if i < n - bits.length then false else byteAt (text bits) (i - (n - bits.length)) = character true) hlen h2
    (by rwa [hpadding]) (by rw [hpadding, hk]) ?_ ?_
  · intro i hi
    rw [getElem?_append, length_replicate]
    split
    next hs => rw [getElem?_replicate, if_pos hs]
    next hs => rw [byteAt_text (by omega)]
  · intro r i _ _ hr
    rw [hpadding] at hr
    rw [← hr]
    split <;> exact setBitInternal_step r i _

end Haybarn.Common.Bit
