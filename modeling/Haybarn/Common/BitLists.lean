/-
BIT values as lists of bits: the operations on whole bytes, texts and BLOBs, and all operations together.
-/
import Haybarn.Common.BitOperations
import Mathlib.Algebra.GroupWithZero.Nat

namespace Haybarn.Common.Bit

open Nat
open List hiding count

open BitString (byteBits length_byteBits getElem?_byteBits chunked_bytes length_flatten_bytes)

variable {data result : List (BitVec 8)} {bits : List Bool} {i k n p : Nat}

/-! ## Whole bytes -/

theorem byteBits_injective {a b : BitVec 8} (h : byteBits a = byteBits b) : a = b := by
  apply BitVec.eq_of_getLsbD_eq
  intro i hi
  have hget := congrArg (·[7 - i]?) h
  simp only [getElem?_byteBits _ (show 7 - i < 8 by omega), Option.some.injEq] at hget
  rwa [show 7 - (7 - i) = i by omega] at hget

theorem flatten_byteBits_injective : ∀ {xs ys : List (BitVec 8)},
    (xs.map byteBits).flatten = (ys.map byteBits).flatten → xs = ys
  | [], [], _ => rfl
  | [], y :: ys, h => by
    have := congrArg length h
    rw [length_flatten_bytes, length_flatten_bytes, length_cons, length_nil] at this
    omega
  | x :: xs, [], h => by
    have := congrArg length h
    rw [length_flatten_bytes, length_flatten_bytes, length_cons, length_nil] at this
    omega
  | x :: xs, y :: ys, h => by
    rw [map_cons, map_cons, flatten_cons, flatten_cons] at h
    obtain ⟨hx, hrest⟩ := append_inj h (by rw [length_byteBits, length_byteBits])
    rw [byteBits_injective hx, flatten_byteBits_injective hrest]

theorem data_eq_cons (h : 0 < data.length) : data = byteAt data 0 :: data.tail := by
  cases data with
  | nil => exact absurd h (lt_irrefl _)
  | cons byte data => rfl

theorem canonical_eq_iff {data' : List (BitVec 8)} {bits' : List Bool} (h : Canonical data bits)
    (h' : Canonical data' bits') : data = data' ↔ bits = bits' := by
  constructor
  · rintro rfl
    rw [← h.drop_eq, ← h'.drop_eq]
  · rintro rfl
    have hpadding : getBitPadding data = getBitPadding data' := h.padding_eq.trans h'.padding_eq.symm
    have htail : data.tail = data'.tail := flatten_byteBits_injective (by
      have := h.allBits_eq
      rw [hpadding, ← h'.allBits_eq] at this
      exact this)
    have h2 := h.two_le
    have h2' := h'.two_le
    rw [@data_eq_cons data (by omega), @data_eq_cons data' (by omega), htail,
      BitVec.eq_of_toNat_eq hpadding]

theorem foldl_set_bytes (f : Nat → BitVec 8) (byte : BitVec 8) : ∀ {m : Nat} {rest : List (BitVec 8)}, m ≤ rest.length →
    (range' 1 m).foldl (fun result i => result.set i (f i)) (byte :: rest) =
      byte :: (range' 1 m).map f ++ rest.drop m
  | 0, _, _ => rfl
  | m + 1, rest, h => by
    have hfront : 1 + m = (byte :: (range' 1 m).map f).length := by
      rw [length_cons, length_map, length_range']
      omega
    rw [range'_1_concat, foldl_append, foldl_cons, foldl_nil, foldl_set_bytes f byte (by omega)]
    have hnext := @set_next _ (byte :: (range' 1 m).map f) rest m (by omega) (f (1 + m))
    rw [← hfront] at hnext
    rw [hnext, map_append, map_singleton, cons_append]

theorem range'_map_eq {bytes : List (BitVec 8)} {f : Nat → BitVec 8}
    (h : ∀ i < bytes.length, bytes[i]? = some (f (i + 1))) : (range' 1 bytes.length).map f = bytes := by
  rw [range'_eq_map_range, map_map]
  exact map_range_eq fun i hi => by rw [h i hi, Function.comp_apply, add_comm]

theorem canonical_bytes (h : Canonical data bits) (hlength : result.length = data.length) {f : Nat → BitVec 8}
    {bytes : List (BitVec 8)} {bits' : List Bool} (hcount : bytes.length = data.length - 1)
    (hbytes : ∀ i < bytes.length, bytes[i]? = some (f (i + 1)))
    (hbits : (bytes.map byteBits).flatten.drop (getBitPadding data) = bits') :
    Canonical (finalize ((range' 1 (data.length - 1)).foldl (fun result i => result.set i (f i))
      (result.set 0 (byteAt data 0)))) bits' := by
  have h2 := h.two_le
  cases result with
  | nil =>
    rw [length_nil] at hlength
    omega
  | cons byte rest =>
    rw [length_cons] at hlength
    rw [set_cons_zero, foldl_set_bytes f _ (by omega), ← hcount, range'_map_eq hbytes,
      drop_eq_nil_of_le (by omega), append_nil, ← hbits]
    exact @canonical_finalize (byteAt data 0 :: bytes) (by rw [length_cons]; omega) h.padding_lt

theorem getElem?_tail_eq (hi : i < data.length - 1) : data.tail[i]? = some (byteAt data (i + 1)) := by
  rw [getElem?_tail, byteAt, getD_eq_getElem?_getD, getElem?_eq_getElem (by omega)]
  rfl

/-- What an operation on two bytes does to each bit. -/
def Lifts (operation : BitVec 8 → BitVec 8 → BitVec 8) (bit : Bool → Bool → Bool) : Prop :=
  ∀ a b, byteBits (operation a b) = List.zipWith bit (byteBits a) (byteBits b)

theorem lifts_of_getLsbD {operation : BitVec 8 → BitVec 8 → BitVec 8} {bit : Bool → Bool → Bool}
    (h : ∀ a b i, i < 8 → (operation a b).getLsbD i = bit (a.getLsbD i) (b.getLsbD i)) : Lifts operation bit := by
  intro a b
  apply ext_getElem?
  intro i
  rw [getElem?_zipWith]
  by_cases hi : i < 8
  · rw [getElem?_byteBits _ hi, getElem?_byteBits _ hi, getElem?_byteBits _ hi, h _ _ _ (by omega)]
  · rw [getElem?_eq_none (by rw [length_byteBits]; omega), getElem?_eq_none (by rw [length_byteBits]; omega)]

theorem lifts_and : Lifts (· &&& ·) and := lifts_of_getLsbD fun _ _ _ _ => BitVec.getLsbD_and ..

theorem lifts_or : Lifts (· ||| ·) or := lifts_of_getLsbD fun _ _ _ _ => BitVec.getLsbD_or ..

theorem lifts_xor : Lifts (· ^^^ ·) xor := lifts_of_getLsbD fun _ _ _ _ => BitVec.getLsbD_xor ..

theorem flatten_zipWith {operation : BitVec 8 → BitVec 8 → BitVec 8} {bit : Bool → Bool → Bool} (h : Lifts operation bit) :
    ∀ {xs ys : List (BitVec 8)}, xs.length = ys.length → ((zipWith operation xs ys).map byteBits).flatten =
      zipWith bit (xs.map byteBits).flatten (ys.map byteBits).flatten
  | [], [], _ => rfl
  | x :: xs, y :: ys, hlength => by
    rw [zipWith_cons_cons, map_cons, flatten_cons, h, flatten_zipWith h (succ.inj hlength), map_cons,
      map_cons, flatten_cons, flatten_cons, zipWith_append (by rw [length_byteBits, length_byteBits])]

theorem canonical_bitwise {operation : BitVec 8 → BitVec 8 → BitVec 8} {bit : Bool → Bool → Bool}
    (hlifts : Lifts operation bit) {lhs rhs : List (BitVec 8)} {bits bits' : List Bool} (h : Canonical lhs bits)
    (h' : Canonical rhs bits') (hsame : bits.length = bits'.length) (hlength : result.length = rhs.length) :
    ∃ data, bitwise operation rhs lhs result = some data ∧ Canonical data (zipWith bit bits bits') := by
  have hpadding : getBitPadding lhs = getBitPadding rhs := by rw [h.padding_eq, h'.padding_eq, hsame]
  have hsize : lhs.length = rhs.length := by
    have h1 := h.length_eq
    have h2 := h'.length_eq
    have := h.two_le
    have := h'.two_le
    omega
  refine ⟨_, by rw [bitwise, if_neg (by rw [h.bitLength_eq, h'.bitLength_eq, hsame]; exact not_not_intro rfl)], ?_⟩
  have hcount : (zipWith operation lhs.tail rhs.tail).length = lhs.length - 1 := by
    rw [length_zipWith, length_tail, length_tail, hsize, min_self]
  refine canonical_bytes h (by rw [hlength, hsize]) hcount ?_ ?_
  · intro i hi
    rw [getElem?_zipWith, getElem?_tail_eq (by omega), getElem?_tail_eq (by omega)]
  · have hl := h.allBits_eq
    have hr := h'.allBits_eq
    rw [allBits] at hl hr
    rw [flatten_zipWith hlifts (by rw [length_tail, length_tail, hsize]), hl, hr, hpadding,
      zipWith_append rfl, drop_left' (by rw [length_zipWith, length_replicate, min_self])]

theorem byteBits_not (byte : BitVec 8) : byteBits (~~~ byte) = (byteBits byte).map not := by
  apply ext_getElem?
  intro i
  rw [getElem?_map]
  by_cases hi : i < 8
  · rw [getElem?_byteBits _ hi, getElem?_byteBits _ hi, BitVec.getLsbD_not, decide_eq_true (by omega), Bool.true_and]
    rfl
  · rw [getElem?_eq_none (by rw [length_byteBits]; omega), getElem?_eq_none (by rw [length_byteBits]; omega)]
    rfl

theorem canonical_bitwiseNot (h : Canonical data bits) (hlength : result.length = data.length) :
    Canonical (bitwiseNot data result) (bits.map not) := by
  rw [bitwiseNot]
  refine @canonical_bytes data result bits h hlength _ (data.tail.map (~~~ ·)) _
    (by rw [length_map, length_tail]) ?_ ?_
  · intro i hi
    rw [length_map, length_tail] at hi
    rw [getElem?_map, getElem?_tail_eq hi]
    rfl
  · have hall := h.allBits_eq
    rw [allBits] at hall
    have hnot : ∀ xs : List (BitVec 8), ((xs.map (~~~ ·)).map byteBits).flatten = (xs.map byteBits).flatten.map not := by
      intro xs
      induction xs with
      | nil => rfl
      | cons x xs ih =>
        rw [map_cons, map_cons, flatten_cons, ih, byteBits_not, map_cons, flatten_cons,
          map_append]
    rw [hnot, hall, map_append, drop_left' (by rw [length_map, length_replicate])]

/-! ## Texts -/

theorem masked_eq (byte : BitVec 8) (hi : i < 8) : decide (byte &&& (1#8 <<< i) ≠ 0) = byte.getLsbD i := by
  have hne : BitVec.twoPow 8 i ≠ 0 := by
    intro h
    have := congrArg (·.getLsbD i) h
    simp at this
    omega
  rw [← BitVec.twoPow_eq, BitVec.and_twoPow]
  cases byte.getLsbD i with
  | true => simpa using hne
  | false => simp

theorem range_map_masked (byte : BitVec 8) : (range 8).map (masked byte) = byteBits byte :=
  map_congr_left fun i hi => masked_eq byte (by have := mem_range.1 hi; omega)

theorem toString_eq (h : Canonical data bits) : toString data = text bits := by
  have hp := h.padding_lt
  match data, h with
  | [], h => exact absurd h.two_le (by simp)
  | [_], h => exact absurd h.two_le (by simp)
  | padding :: byte :: rest, h =>
    have hall := h.drop_eq
    rw [allBits, tail_cons, map_cons, flatten_cons,
      drop_append_of_le_length (by rw [length_byteBits]; omega)] at hall
    have hfirst : (range' (getBitPadding (padding :: byte :: rest)) (8 - getBitPadding (padding :: byte :: rest))).map
        (masked byte) = (byteBits byte).drop (getBitPadding (padding :: byte :: rest)) := by
      rw [← range_map_masked, ← map_drop, range_eq_range', drop_range', zero_add, mul_one]
    have hbytes : (range' 2 rest.length).map (byteAt (padding :: byte :: rest)) = rest := by
      rw [range'_eq_map_range, map_map]
      refine map_range_eq fun i hi => ?_
      rw [Function.comp_apply, byteAt, add_comm 2 i, getD_cons_succ, getD_cons_succ,
        getD_eq_getElem?_getD, getElem?_eq_getElem hi]
      rfl
    have hrest : (range' 2 rest.length).flatMap (fun byteIdx => (range 8).map fun bitIdx =>
        character (masked (byteAt (padding :: byte :: rest) byteIdx) bitIdx)) = text (rest.map byteBits).flatten := by
      have hturn : ∀ byteIdx, ((range 8).map fun bitIdx =>
          character (masked (byteAt (padding :: byte :: rest) byteIdx) bitIdx)) =
            text (byteBits (byteAt (padding :: byte :: rest) byteIdx)) := by
        intro byteIdx
        rw [← range_map_masked, text, map_map]
        rfl
      simp only [hturn]
      conv_rhs => rw [← hbytes]
      rw [text, map_flatten, map_map, map_map, flatMap_def]
      rfl
    rw [toString, ← hall, text, map_append, ← hfirst, map_map]
    exact congrArg (_ ++ ·) hrest

theorem foldl_add {α : Type} (g : α → Nat) : ∀ (l : List α) (start : Nat),
    l.foldl (fun count x => count + g x) start = start + (l.map g).sum
  | [], _ => rfl
  | x :: l, start => by rw [foldl_cons, foldl_add g l, map_cons, sum_cons, add_assoc]

theorem and_bit_ne_zero (byte : BitVec 8) {bitIdx : Nat} (h : bitIdx < 8) :
    byte &&& (1#8 <<< bitIdx) ≠ 0 ↔ byte.getLsbD bitIdx = true := by
  rw [← BitVec.twoPow_eq, BitVec.and_twoPow]
  split
  next hbit =>
    rw [hbit]
    refine iff_of_true (fun hzero => ?_) rfl
    have := congrArg (BitVec.getLsbD · bitIdx) hzero
    simp [h] at this
  next hbit => simpa using hbit

theorem count_byte (byte : BitVec 8) :
    ((range 8).map fun bitIdx => if byte &&& (1#8 <<< bitIdx) ≠ 0 then 1 else 0).sum = (byteBits byte).count true := by
  have hmap : (range 8).map (fun bitIdx => if byte &&& (1#8 <<< bitIdx) ≠ 0 then 1 else 0) =
      (range 8).map fun bitIdx => (byte.getLsbD bitIdx).toNat :=
    map_congr_left fun bitIdx h => by
      simp only [and_bit_ne_zero byte (mem_range.1 h)]
      cases byte.getLsbD bitIdx <;> rfl
  have hcount (bit : Bool) : (if bit = true then 1 else 0) = bit.toNat := by cases bit <;> rfl
  rw [hmap]
  simp [byteBits, range_succ, count_cons, hcount]
  omega

theorem bitCount_eq (h : Canonical data bits) : bitCount data = bits.count true := by
  have hbytes : (range' 1 (data.length - 1)).map (byteAt data) = data.tail := by
    have := @range'_map_eq data.tail (byteAt data) fun i hi => getElem?_tail_eq (by rwa [length_tail] at hi)
    rwa [length_tail] at this
  have hcount : ∀ xs : List (BitVec 8), (xs.map fun byte => (byteBits byte).count true).sum =
      (xs.map byteBits).flatten.count true := by
    intro xs
    rw [count_flatten, map_map]
    rfl
  have hturn : ∀ (count byteIdx : Nat), (range 8).foldl (fun count bitIdx =>
      count + if byteAt data byteIdx &&& (1#8 <<< bitIdx) ≠ 0 then 1 else 0) count =
        count + (byteBits (byteAt data byteIdx)).count true := by
    intro count byteIdx
    rw [foldl_add, count_byte]
  have hall := h.allBits_eq
  rw [allBits] at hall
  rw [bitCount, octetLength]
  simp only [hturn]
  rw [foldl_add, Nat.zero_add]
  have hmap : (range' 1 (data.length - 1)).map (fun byteIdx => (byteBits (byteAt data byteIdx)).count true) =
      data.tail.map fun byte => (byteBits byte).count true := by
    rw [← hbytes, map_map]
    rfl
  rw [hmap, hcount, hall, count_append, count_replicate_self, Nat.add_sub_cancel_left]

theorem byteBits_appendBit (byte : BitVec 8) (hn : n < bits.length) :
    byteBits (appendBit (text bits) byte n) = (byteBits byte).tail ++ [bits.getD n false] := by
  have hpush (byte : BitVec 8) (bit : Bool) :
      byteBits (if bit then byte <<< 1 ||| 1 else byte <<< 1) = (byteBits byte).tail ++ [bit] := by
    cases bit <;> simp [byteBits, range_succ, BitVec.getLsbD_one]
  have hbit := byteAt_text hn
  rw [getD_eq_getElem?_getD, hbit, Option.getD_some, ← hpush, appendBit]
  simp only [decide_eq_true_eq]

theorem byteBits_foldl (byte : BitVec 8) (s : Nat) : ∀ {m : Nat}, m ≤ 8 → s + m ≤ bits.length →
    byteBits ((range m).foldl (fun byte j => appendBit (text bits) byte (s + j)) byte) =
      (byteBits byte).drop m ++ (bits.drop s).take m
  | 0, _, _ => by simp
  | m + 1, hm, hlength => by
    have hget : (bits.drop s)[m]? = some (bits.getD (s + m) false) := by
      rw [getElem?_drop, getD_eq_getElem?_getD, getElem?_eq_getElem (by omega)]
      rfl
    rw [range_succ, foldl_append, foldl_cons, foldl_nil, byteBits_appendBit _ (by omega),
      byteBits_foldl byte s (by omega) (by omega), take_add_one, hget, ← append_assoc]
    congr 1
    rw [tail_append_of_ne_nil (by
      rw [← length_pos_iff, length_drop, length_byteBits]
      omega), tail_drop]

theorem byteBits_chars (s : Nat) (h : s + 8 ≤ bits.length) :
    byteBits ((range 8).foldl (fun byte j => appendBit (text bits) byte (s + j)) 0) = (bits.drop s).take 8 := by
  rw [byteBits_foldl 0 s (le_refl _) h, drop_eq_nil_of_le (by rw [length_byteBits]), nil_append]

theorem flatten_chars : ∀ {count s : Nat}, s + 8 * count = bits.length →
    (((range' s count 8).map fun byteIdx =>
      (range 8).foldl (fun byte bitIdx => appendBit (text bits) byte (byteIdx + bitIdx)) 0).map byteBits).flatten =
        bits.drop s
  | 0, s, h => by
    rw [drop_eq_nil_of_le (by omega)]
    rfl
  | count + 1, s, h => by
    rw [range'_succ, map_cons, map_cons, flatten_cons, byteBits_chars s (by omega),
      flatten_chars (by omega), ← drop_drop, take_append_drop]

theorem canonical_toBit (hpos : 0 < bits.length) (hlength : result.length = computeBitstringLen bits.length) :
    Canonical (toBit (text bits) result) bits := by
  have hlen : (text bits).length = bits.length := length_map _
  obtain ⟨count, hcount⟩ : ∃ count, bits.length % 8 + 8 * count = bits.length := ⟨_, mod_add_div _ _⟩
  have hturns : (bits.length - bits.length % 8 + 7) / 8 = count := by omega
  have hfirst := @byteBits_foldl bits 0 0 (bits.length % 8) (by omega) (by omega)
  simp only [zero_add] at hfirst
  have hrest := flatten_chars hcount
  rw [computeBitstringLen] at hlength
  rw [toBit, hlen, hturns]
  generalize hbyte : (range (bits.length % 8)).foldl (appendBit (text bits)) 0 = byte
  have hfirst : byteBits byte = (byteBits 0).drop (bits.length % 8) ++ (bits.drop 0).take (bits.length % 8) :=
    hbyte ▸ hfirst
  generalize hbytes : ((range' (bits.length % 8) count 8).map fun byteIdx =>
    (range 8).foldl (fun byte bitIdx => appendBit (text bits) byte (byteIdx + bitIdx)) 0) = bytes at hrest
  have hsize : bytes.length = count := by rw [← hbytes, length_map, length_range']
  split
  next hpadded =>
    rw [if_pos hpadded] at hlength
    have hend : (([BitVec.ofNat 8 (8 - bits.length % 8)] ++ [byte] ++ bytes).length) = result.length := by
      simp only [length_append, length_singleton]
      omega
    rw [drop_eq_nil_of_le (by omega), append_nil]
    have hpadding : getBitPadding ([BitVec.ofNat 8 (8 - bits.length % 8)] ++ [byte] ++ bytes) = 8 - bits.length % 8 := by
      rw [getBitPadding]
      show (BitVec.ofNat 8 (8 - bits.length % 8)).toNat = _
      rw [BitVec.toNat_ofNat, mod_eq_of_lt (by omega)]
    have hall : allBits ([BitVec.ofNat 8 (8 - bits.length % 8)] ++ [byte] ++ bytes) =
        (byteBits 0).drop (bits.length % 8) ++ bits := by
      show (byteBits byte ++ (bytes.map byteBits).flatten) = _
      rw [hfirst, hrest, drop_zero, append_assoc, take_append_drop]
    have hfinal := canonical_finalize (show 2 ≤ ([BitVec.ofNat 8 (8 - bits.length % 8)] ++ [byte] ++ bytes).length by
      simp only [length_append, length_singleton]
      omega) (by rw [hpadding]; omega)
    rwa [hpadding, hall, drop_left' (by rw [length_drop, length_byteBits])] at hfinal
  next hpadded =>
    have hzero : bits.length % 8 = 0 := not_not.1 hpadded
    rw [if_neg hpadded] at hlength
    have hbyte0 : byte = 0 := by
      rw [← hbyte, hzero]
      rfl
    have hend : ([] ++ [byte] ++ bytes).length = result.length := by
      simp only [length_append, length_singleton, length_nil]
      omega
    rw [drop_eq_nil_of_le (by omega), append_nil]
    have hpadding : getBitPadding ([] ++ [byte] ++ bytes) = 0 := by
      rw [hbyte0]
      rfl
    have hfinal := canonical_finalize (show 2 ≤ ([] ++ [byte] ++ bytes).length by
      simp only [length_append, length_singleton, length_nil]
      omega) (by rw [hpadding]; decide)
    have hall : allBits ([] ++ [byte] ++ bytes) = bits := by
      show (bytes.map byteBits).flatten = _
      rw [hrest, hzero, drop_zero]
    rwa [hpadding, hall, drop_zero] at hfinal

theorem tryGetBitStringSize_text (hpos : 0 < bits.length) :
    tryGetBitStringSize (text bits) = .ok (computeBitstringLen bits.length) := by
  have hfold : ∀ (bits : List Bool) (start : Nat), (text bits).foldlM (fun strLen c =>
      if c = character false ∨ c = character true then (.ok (strLen + 1) : Except BitError Nat)
      else .error (.invalidCharacter c)) start = .ok (start + bits.length) := by
    intro bits
    induction bits with
    | nil => exact fun _ => rfl
    | cons bit bits ih =>
      intro start
      have hturn : (if character bit = character false ∨ character bit = character true then
          (.ok (start + 1) : Except BitError Nat) else .error (.invalidCharacter (character bit))) = .ok (start + 1) :=
        if_pos (by cases bit <;> decide)
      rw [text, map_cons, foldlM_cons, hturn, length_cons, add_comm bits.length, ← add_assoc]
      exact ih (start + 1)
  have hsize := hfold bits 0
  rw [zero_add] at hsize
  rw [tryGetBitStringSize, hsize]
  exact if_neg (by omega)

/-! ## BLOBs -/

theorem byteBits_getFirstByte (byte : BitVec 8) (hp : p ≤ 8) :
    byteBits (byte &&& BitVec.ofNat 8 (2 ^ (8 - p) - 1)) = replicate p false ++ (byteBits byte).drop p := by
  apply ext_getElem?
  intro i
  rw [getElem?_append, length_replicate]
  by_cases hi : i < 8
  · have hbit : (BitVec.ofNat 8 (2 ^ (8 - p) - 1)).getLsbD (7 - i) = decide (7 - i < 8 - p) := by
      rw [BitVec.getLsbD_ofNat, testBit_two_pow_sub_one]
      simp
      omega
    rw [getElem?_byteBits _ hi, BitVec.getLsbD_and, hbit]
    by_cases hip : i < p
    · rw [if_pos hip, getElem?_replicate, if_pos hip, decide_eq_false (by omega), Bool.and_false]
    · rw [if_neg hip, getElem?_drop, show p + (i - p) = i by omega, getElem?_byteBits _ hi, decide_eq_true (by omega),
        Bool.and_true]
  · rw [getElem?_eq_none (by rw [length_byteBits]; omega), if_neg (by omega),
      getElem?_eq_none (by rw [length_drop, length_byteBits]; omega)]

theorem canonical_blob (h : Canonical data bits) :
    Canonical (blobToBit (bitToBlob data)) (replicate (computePadding bits.length) false ++ bits) := by
  have hp := h.padding_lt
  have hpadding := h.padding_eq
  match data, h with
  | [], h => exact absurd h.two_le (by simp)
  | [_], h => exact absurd h.two_le (by simp)
  | padding :: byte :: rest, h =>
    have hall := h.drop_eq
    rw [allBits, tail_cons, map_cons, flatten_cons,
      drop_append_of_le_length (by rw [length_byteBits]; omega)] at hall
    have hblob : bitToBlob (padding :: byte :: rest) = getFirstByte (padding :: byte :: rest) :: rest := by
      rw [bitToBlob]
      simp only [length_cons, Nat.add_sub_cancel, drop_succ_cons, drop_zero]
      split
      next => rw [take_length]
      next hsize => rw [length_eq_zero_iff.1 (show rest.length = 0 by omega)]
    refine ⟨by rw [blobToBit, hblob]; simp, by rw [blobToBit]; exact Nat.zero_lt_succ _, ?_⟩
    rw [blobToBit, hblob, allBits, tail_cons, map_cons, flatten_cons, getFirstByte,
      show byteAt (padding :: byte :: rest) 1 = byte from rfl, byteBits_getFirstByte byte (by omega), append_assoc, hall,
      ← hpadding]
    rfl

/-! ## All operations -/

/-- What the operations compute from a value, for any memory that they may write their results to. -/
structure LikeList (data : List (BitVec 8)) (bits : List Bool) : Prop where
  getBit : ∀ n < bits.length, bits[n]? = some (Bit.getBit data n)
  setBit : ∀ n < bits.length, ∀ value, Canonical (Bit.setBit data n value) (bits.set n value)
  bitLength : Bit.bitLength data = bits.length
  bitCount : Bit.bitCount data = bits.count true
  toString : Bit.toString data = text bits
  extendBitString : ∀ n result, bits.length ≤ n → result.length = computeBitstringLen n →
    Canonical (Bit.extendBitString data n result) (List.replicate (n - bits.length) false ++ bits)
  rightShift : ∀ shift result, shift ≤ bits.length → result.length = data.length →
    Canonical (Bit.rightShift data shift result) (List.replicate shift false ++ bits.take (bits.length - shift))
  leftShift : ∀ shift result, shift ≤ bits.length → result.length = data.length →
    Canonical (Bit.leftShift data shift result) (bits.drop shift ++ List.replicate shift false)
  bitwiseAnd : ∀ rhs bits' result, Canonical rhs bits' → bits.length = bits'.length → result.length = rhs.length →
    ∃ data', Bit.bitwiseAnd rhs data result = some data' ∧ Canonical data' (List.zipWith and bits bits')
  bitwiseOr : ∀ rhs bits' result, Canonical rhs bits' → bits.length = bits'.length → result.length = rhs.length →
    ∃ data', Bit.bitwiseOr rhs data result = some data' ∧ Canonical data' (List.zipWith or bits bits')
  bitwiseXor : ∀ rhs bits' result, Canonical rhs bits' → bits.length = bits'.length → result.length = rhs.length →
    ∃ data', Bit.bitwiseXor rhs data result = some data' ∧ Canonical data' (List.zipWith xor bits bits')
  bitwiseNot : ∀ result, result.length = data.length → Canonical (Bit.bitwiseNot data result) (bits.map not)
  blob : Canonical (blobToBit (bitToBlob data)) (List.replicate (computePadding bits.length) false ++ bits)

theorem likeList (h : Canonical data bits) : LikeList data bits where
  getBit _ hn := h.getBit_eq hn
  setBit n _ value := canonical_setBit h n value
  bitLength := h.bitLength_eq
  bitCount := bitCount_eq h
  toString := toString_eq h
  extendBitString _ _ hn hlength := canonical_extendBitString h hn hlength
  rightShift _ _ hshift hlength := canonical_rightShift h hlength hshift
  leftShift _ _ hshift hlength := canonical_leftShift h hlength hshift
  bitwiseAnd _ _ _ h' hsame hlength := canonical_bitwise lifts_and h h' hsame hlength
  bitwiseOr _ _ _ h' hsame hlength := canonical_bitwise lifts_or h h' hsame hlength
  bitwiseXor _ _ _ h' hsame hlength := canonical_bitwise lifts_xor h h' hsame hlength
  bitwiseNot _ hlength := canonical_bitwiseNot h hlength
  blob := canonical_blob h

/-- The text of bits is read as their value, and written again; the operations on values are those on lists of bits, and values
are equal as bytes exactly if they are as bits. -/
theorem values_likeLists :
    (∀ bits : List Bool, bits ≠ [] → ∀ result : List (BitVec 8), result.length = computeBitstringLen bits.length →
      tryGetBitStringSize (text bits) = .ok (computeBitstringLen bits.length) ∧
        Canonical (toBit (text bits) result) bits ∧
        (byteAt (toBit (text bits) result) 0).toNat = (8 - bits.length % 8) % 8 ∧
        toString (toBit (text bits) result) = text bits ∧
        ∀ n result, bits.length ≤ n → result.length = computeBitstringLen n →
          Canonical (bitString (text bits) n result) (List.replicate (n - bits.length) false ++ bits)) ∧
    (∀ data bits, Canonical data bits → LikeList data bits) ∧
      ∀ data data' bits bits', Canonical data bits → Canonical data' bits' → (data = data' ↔ bits = bits') := by
  refine ⟨fun bits hne result hlength => ?_, fun data bits h => likeList h, fun data data' bits bits' h h' =>
    canonical_eq_iff h h'⟩
  have hpos := List.length_pos_iff.2 hne
  have h := canonical_toBit hpos hlength
  exact ⟨tryGetBitStringSize_text hpos, h, h.padding_eq, toString_eq h, fun n result hn => canonical_bitString hpos hn⟩

/-- The bits 101, written to memory of two bytes. -/
theorem values_likeLists_three :
    Canonical (toBit [0x31, 0x30, 0x31] [0, 0]) [true, false, true] ∧
      Bit.bitLength (toBit [0x31, 0x30, 0x31] [0, 0]) = 3 := by
  obtain ⟨htext, hlists, -⟩ := values_likeLists
  have h := (htext [true, false, true] (by simp) [0, 0] (by decide)).2.1
  exact ⟨h, (hlists _ _ h).bitLength⟩

end Haybarn.Common.Bit
