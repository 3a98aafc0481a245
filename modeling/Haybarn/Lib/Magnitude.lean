/-
Natural numbers as bytes, the most significant first. The bytes of a number without leading zeros are told by it, bytes
of one length compare as their numbers do, and the bytes from the end on are the digits to the base 256. Nothing here names
a particular program.
-/
import Haybarn.Lib.OrderedCode
import Mathlib.Data.Nat.Digits.Lemmas

namespace Haybarn.Lib

open List Nat

/-- The number that bytes stand for. -/
def magnitude (bytes : List UInt8) : Nat := Nat.ofDigits 256 (bytes.reverse.map UInt8.toNat)

variable {bytes bytes' : List UInt8} {b : UInt8} {n k : Nat}

@[simp] theorem magnitude_nil : magnitude [] = 0 := rfl

theorem magnitude_append : magnitude (bytes ++ bytes') = magnitude bytes * 256 ^ bytes'.length + magnitude bytes' := by
  rw [magnitude, magnitude, magnitude, reverse_append, map_append, ofDigits_append, length_map,
    length_reverse]
  ring

@[simp] theorem magnitude_singleton : magnitude [b] = b.toNat := by simp [magnitude]

theorem magnitude_concat : magnitude (bytes ++ [b]) = magnitude bytes * 256 + b.toNat := by
  rw [magnitude_append, magnitude_singleton, length_singleton, pow_one]

theorem magnitude_cons : magnitude (b :: bytes) = b.toNat * 256 ^ bytes.length + magnitude bytes := by
  rw [← singleton_append, magnitude_append, magnitude_singleton]

theorem magnitude_lt (bytes : List UInt8) : magnitude bytes < 256 ^ bytes.length := by
  have := ofDigits_lt_base_pow_length (b := 256) (l := bytes.reverse.map UInt8.toNat) (by decide) fun d hd => by
    obtain ⟨b, -, rfl⟩ := mem_map.1 hd
    exact b.toNat_lt
  rwa [length_map, length_reverse] at this

@[simp] theorem magnitude_replicate_zero (k : Nat) : magnitude (replicate k 0) = 0 := by
  induction k with
  | zero => rfl
  | succ k ih => rw [replicate_succ, magnitude_cons, ih]; simp

theorem magnitude_zeros_append (k : Nat) : magnitude (replicate k 0 ++ bytes) = magnitude bytes := by
  rw [magnitude_append, magnitude_replicate_zero, zero_mul, zero_add]

/-- Bytes are told by their number and how many they are. -/
theorem eq_of_magnitude_eq (hlength : bytes.length = bytes'.length) (h : magnitude bytes = magnitude bytes') :
    bytes = bytes' := by
  have hdigits : ∀ bytes : List UInt8, ∀ d ∈ bytes.reverse.map UInt8.toNat, d < 256 := by
    intro bytes d hd
    obtain ⟨b, -, rfl⟩ := mem_map.1 hd
    exact b.toNat_lt
  have := ofDigits_inj_of_len_eq (b := 256) (by decide) (by simpa using hlength) (hdigits bytes) (hdigits bytes') h
  have hinj : Function.Injective UInt8.toNat := fun _ _ => UInt8.toNat_inj.1
  simpa using (map_injective_iff.2 hinj) this

/-- The byte with `k` bytes behind it is the digit of the number there. -/
theorem toNat_eq_digit (h : bytes[n]? = some b) (hk : bytes.length = n + 1 + k) : b.toNat = magnitude bytes / 256 ^ k % 256 := by
  obtain ⟨hlt, hb⟩ := List.getElem?_eq_some_iff.1 h
  have hsplit : bytes = bytes.take n ++ [b] ++ bytes.drop (n + 1) := by
    rw [← hb, ← List.take_succ_eq_append_getElem hlt, List.take_append_drop]
  have hlength : (bytes.drop (n + 1)).length = k := by
    rw [List.length_drop]
    omega
  have hrest := magnitude_lt (bytes.drop (n + 1))
  have hpos : 0 < 256 ^ k := by positivity
  rw [hlength] at hrest
  rw [hsplit, magnitude_append, magnitude_concat, hlength, mul_comm _ (256 ^ k), mul_add_div hpos,
    div_eq_of_lt hrest, add_zero, mul_add_mod_of_lt b.toNat_lt]

/-- The bytes of a number are zeros in front of those that it needs. -/
theorem take_eq_zeros (h : magnitude bytes < 256 ^ k) :
    bytes.take (bytes.length - k) = replicate (bytes.length - k) 0 := by
  have hlength : (bytes.take (bytes.length - k)).length = bytes.length - k := by
    rw [length_take]
    omega
  refine eq_of_magnitude_eq (by rw [hlength, length_replicate]) ?_
  rw [magnitude_replicate_zero]
  rw [← take_append_drop (bytes.length - k) bytes, magnitude_append, length_drop] at h
  rcases Nat.le_total bytes.length k with hle | hle
  · rw [Nat.sub_eq_zero_of_le hle, take_zero, magnitude_nil]
  · rw [show bytes.length - (bytes.length - k) = k by omega] at h
    refine Nat.eq_zero_of_not_pos fun hpos => absurd h (Nat.not_lt.2 ?_)
    exact (Nat.le_mul_of_pos_left _ hpos).trans (Nat.le_add_right _ _)

/-! ## The bytes of a number -/

/-- How many bytes a number needs, none for zero. -/
def byteCount (n : Nat) : Nat := (Nat.digits 256 n).length

theorem byteCount_le_iff : byteCount n ≤ k ↔ n < 256 ^ k := digits_length_le_iff (by decide) n

theorem lt_byteCount_iff : k < byteCount n ↔ 256 ^ k ≤ n := lt_digits_length_iff (by decide) n

@[simp] theorem byteCount_eq_zero_iff : byteCount n = 0 ↔ n = 0 := by
  rw [byteCount, length_eq_zero_iff, digits_eq_nil_iff_eq_zero]

theorem byteCount_magnitude_le (bytes : List UInt8) : byteCount (magnitude bytes) ≤ bytes.length :=
  byteCount_le_iff.2 (magnitude_lt bytes)

/-- Bytes of which the first one is not zero. -/
theorem byteCount_of_head (h : b ≠ 0) : byteCount (magnitude (b :: bytes)) = bytes.length + 1 := by
  have hpos : 0 < b.toNat := Nat.pos_of_ne_zero fun hzero => h (UInt8.toNat_inj.1 hzero)
  have hlt := lt_byteCount_iff (n := magnitude (b :: bytes)) (k := bytes.length)
  have hle := byteCount_magnitude_le (b :: bytes)
  rw [length_cons] at hle
  have hmagnitude : 256 ^ bytes.length ≤ magnitude (b :: bytes) := by
    rw [magnitude_cons]
    exact (Nat.le_mul_of_pos_left _ hpos).trans (Nat.le_add_right _ _)
  have := hlt.2 hmagnitude
  omega

/-- How many zeros the bytes begin with. -/
def leadingZeros : List UInt8 → Nat
  | [] => 0
  | b :: bytes => if b = 0 then leadingZeros bytes + 1 else 0

theorem leadingZeros_le : ∀ bytes : List UInt8, leadingZeros bytes ≤ bytes.length
  | [] => le_refl 0
  | b :: bytes => by
    have ih := leadingZeros_le bytes
    rw [leadingZeros, length_cons]
    split <;> omega

theorem magnitude_drop_leadingZeros : ∀ bytes : List UInt8, magnitude (bytes.drop (leadingZeros bytes)) = magnitude bytes
  | [] => rfl
  | b :: bytes => by
    rw [leadingZeros]
    split
    next h => rw [drop_succ_cons, magnitude_drop_leadingZeros bytes, h, magnitude_cons]; simp
    next => rfl

/-- What is left without leading zeros is as many bytes as the number needs. -/
theorem length_sub_leadingZeros : ∀ bytes : List UInt8, bytes.length - leadingZeros bytes = byteCount (magnitude bytes)
  | [] => rfl
  | b :: bytes => by
    have ih := length_sub_leadingZeros bytes
    rw [leadingZeros, length_cons]
    split
    next h =>
      rw [h, magnitude_cons, UInt8.toNat_zero, Nat.zero_mul, Nat.zero_add, ← ih]
      omega
    next h => rw [byteCount_of_head h, Nat.sub_zero]

/-- The bytes of a number, one for zero. -/
def significant (n : Nat) : List UInt8 := if n = 0 then [0] else (Nat.digits 256 n).reverse.map UInt8.ofNat

theorem magnitude_significant (n : Nat) : magnitude (significant n) = n := by
  rw [significant]
  split
  next h => rw [h]; rfl
  next =>
    rw [magnitude, ← map_reverse, reverse_reverse, map_map]
    have hmap : (digits 256 n).map (UInt8.toNat ∘ UInt8.ofNat) = digits 256 n := by
      refine (map_congr_left fun d hd => ?_).trans (map_id _)
      exact UInt8.toNat_ofNat_of_lt' (digits_lt_base (by decide) hd)
    rw [hmap, ofDigits_digits]

theorem length_significant (n : Nat) : (significant n).length = max 1 (byteCount n) := by
  rw [significant]
  split
  next h => rw [h]; rfl
  next h =>
    have hpos : byteCount n ≠ 0 := fun hzero => h (byteCount_eq_zero_iff.1 hzero)
    rw [length_map, length_reverse, ← byteCount]
    omega

/-- Bytes of which there are no more than needed, but one. -/
theorem eq_significant (h : bytes.length = max 1 (byteCount (magnitude bytes))) : bytes = significant (magnitude bytes) :=
  eq_of_magnitude_eq (h.trans (length_significant _).symm) (magnitude_significant _).symm

/-! ## Order -/

theorem compare_toNat (a b : UInt8) : compare a b = compare a.toNat b.toNat := by
  show compareOfLessAndEq a b = compareOfLessAndEq a.toNat b.toNat
  unfold compareOfLessAndEq
  simp only [UInt8.lt_iff_toNat_lt, ← UInt8.toNat_inj]

/-- Complemented bytes compare the other way round. -/
theorem compare_complement (x y : UInt8) : compare (~~~x) (~~~y) = (compare x y).swap := by
  have hx := x.toNat_lt
  have hy := y.toNat_lt
  rw [compare_toNat, compare_toNat, UInt8.toNat_not, UInt8.toNat_not]
  rcases Nat.lt_trichotomy x.toNat y.toNat with h | h | h
  · rw [Nat.compare_eq_lt.2 h, Nat.compare_eq_gt.2 (by grind)]
    rfl
  · rw [h, Nat.compare_eq_eq.2 rfl, Nat.compare_eq_eq.2 rfl]
    rfl
  · rw [Nat.compare_eq_gt.2 h, Nat.compare_eq_lt.2 (by grind)]
    rfl

/-- Bytes of one length differ as their numbers do. -/
theorem diverge_of_magnitude : ∀ {bytes bytes' : List UInt8}, bytes.length = bytes'.length →
    magnitude bytes ≠ magnitude bytes' → Diverge (compare (magnitude bytes) (magnitude bytes')) bytes bytes'
  | [], [], _, h => absurd rfl h
  | b :: bytes, b' :: bytes', hlength, h => by
    have hlength' : bytes.length = bytes'.length := Nat.succ_inj.1 hlength
    have hlt := magnitude_lt bytes
    have hlt' := magnitude_lt bytes'
    rw [magnitude_cons, magnitude_cons, hlength'] at h ⊢
    rw [hlength'] at hlt
    generalize 256 ^ bytes'.length = base at h hlt hlt' ⊢
    by_cases hb : b = b'
    · obtain rfl := hb
      have hne : magnitude bytes ≠ magnitude bytes' := fun heq => h (by rw [heq])
      have hcompare : compare (b.toNat * base + magnitude bytes) (b.toNat * base + magnitude bytes') =
          compare (magnitude bytes) (magnitude bytes') := by
        rcases Nat.lt_trichotomy (magnitude bytes) (magnitude bytes') with hm | hm | hm
        · rw [Nat.compare_eq_lt.2 hm, Nat.compare_eq_lt.2 (by omega)]
        · exact absurd hm hne
        · rw [Nat.compare_eq_gt.2 hm, Nat.compare_eq_gt.2 (by omega)]
      rw [hcompare]
      exact .there b (diverge_of_magnitude hlength' hne)
    · have hne : b.toNat ≠ b'.toNat := fun heq => hb (UInt8.toNat_inj.1 heq)
      have hbase : ∀ {x y m m' : Nat}, x < y → m < base → m' < base → x * base + m < y * base + m' := by
        intro x y m m' hxy hm hm'
        have hle : (x + 1) * base ≤ y * base := Nat.mul_le_mul_right _ hxy
        rw [Nat.add_mul, Nat.one_mul] at hle
        omega
      rcases Nat.lt_or_gt_of_ne hne with hlow | hhigh
      · rw [Nat.compare_eq_lt.2 (hbase hlow hlt hlt')]
        exact .here _ _ (by rw [compare_toNat, Nat.compare_eq_lt.2 hlow]) nofun
      · rw [Nat.compare_eq_gt.2 (hbase hhigh hlt' hlt)]
        exact .here _ _ (by rw [compare_toNat, Nat.compare_eq_gt.2 hhigh]) nofun

end Haybarn.Lib
