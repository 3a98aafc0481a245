/-
BIGNUM blobs, from `types/bignum.cpp`: a header of three bytes, with the sign and the number of the data bytes, and the
bytes of the magnitude behind it, the most significant first. All bytes of a negative number are complemented, so that
blobs compare byte by byte as the numbers do.
-/
import Haybarn.Lib.Buffer
import Haybarn.Lib.Magnitude
import Mathlib.Data.Int.Order.Basic

namespace Haybarn.Bignum

open Lib

/-! ## Blobs -/

def maxDataSize : Nat := 8388607

def bignumHeaderSize : Nat := 3

/-- The bytes that `Bignum::SetHeader` writes. -/
def setHeader (numberOfBytes : Nat) (isNegative : Bool) : List UInt8 :=
  let header := UInt32.ofNat numberOfBytes ||| 0x00800000
  let header := if isNegative then ~~~header else header
  [(header >>> (16 : UInt32)).toUInt8, (header >>> (8 : UInt32) &&& (0xFF : UInt32)).toUInt8,
    (header &&& (0xFF : UInt32)).toUInt8]

/-- The number of bytes in the header of a number that is not negative. -/
def headerCount (b0 b1 b2 : UInt8) : UInt32 :=
  ((b0 &&& 0x7F).toUInt32 <<< (16 : UInt32) &&& (0xFF0000 : UInt32)) |||
    (b1.toUInt32 <<< (8 : UInt32) &&& (0xFF00 : UInt32)) ||| (b2.toUInt32 &&& (0xFF : UInt32))

def verify (input : List UInt8) : Outcome Unit := do
  let bignumBytes := input.length
  if bignumBytes < 4 then .error "Bignum number of bytes is invalid, current number of bytes is %d"
  else
    let b0 ← read input 0
    let b1 ← read input 1
    let b2 ← read input 2
    let b3 ← read input 3
    let isNegative := b0 &&& 0x80 == 0
    if bignumBytes = 4 ∧ isNegative = true ∧ b3 = 0xFF then
      .error "Bignum value -0 is not allowed in the Bignum specification."
    else
      let numberOfBytes := if isNegative then headerCount (~~~b0) (~~~b1) (~~~b2) else headerCount b0 b1 b2
      if numberOfBytes.toNat ≠ bignumBytes - 3 then
        .error "The number of bytes set in the Bignum header: %d bytes. Does not match the number of bytes encountered as the bignum data: %d bytes."
      else if bignumBytes > 4 ∧ (if isNegative then ~~~b3 else b3) = 0 then
        .error "Invalid top data bytes set to 0 for BIGNUM values"
      else .done ()

/-! ## Encodings -/

/-- Bytes of a number, as they are stored. -/
def stored (isNegative : Bool) (bytes : List UInt8) : List UInt8 :=
  if isNegative then bytes.map fun b => ~~~b else bytes

/-- The blob of an integer. -/
def encode (z : Int) : List UInt8 :=
  setHeader (significant z.natAbs).length (decide (z < 0)) ++ stored (decide (z < 0)) (significant z.natAbs)

/-- The magnitude needs no more bytes than a blob can have. -/
def Fits (z : Int) : Prop := byteCount z.natAbs ≤ maxDataSize

instance (z : Int) : Decidable (Fits z) := inferInstanceAs (Decidable (_ ≤ _))

section Stored

variable {isNegative : Bool} {bytes bytes' : List UInt8} {i : Nat}

@[simp] theorem stored_false (bytes : List UInt8) : stored false bytes = bytes := rfl

@[simp] theorem stored_true (bytes : List UInt8) : stored true bytes = bytes.map fun b => ~~~b := rfl

@[simp] theorem length_stored : (stored isNegative bytes).length = bytes.length := by
  cases isNegative <;> simp

@[simp] theorem stored_stored : stored isNegative (stored isNegative bytes) = bytes := by
  cases isNegative <;> simp [Function.comp_def]

theorem stored_append : stored isNegative (bytes ++ bytes') = stored isNegative bytes ++ stored isNegative bytes' := by
  cases isNegative <;> simp

theorem stored_replicate_zero (k : Nat) :
    stored isNegative (List.replicate k 0) = List.replicate k (if isNegative then 0xFF else 0x00) := by
  cases isNegative with
  | false => rfl
  | true => rw [stored_true, List.map_replicate]; rfl

end Stored

/-! ## Headers -/

theorem and_128_eq_zero_iff (b : UInt8) : b &&& 0x80 = 0 ↔ b.toNat < 128 := by
  have hall : ∀ n : Fin 256, UInt8.ofNat n &&& 0x80 = 0 ↔ (UInt8.ofNat n).toNat < 128 := by decide +kernel
  have hb := hall ⟨b.toNat, b.toNat_lt⟩
  rwa [UInt8.ofNat_toNat] at hb

theorem toNat_headerCount (b0 b1 b2 : UInt8) :
    (headerCount b0 b1 b2).toNat = b0.toNat % 128 * 65536 + b1.toNat * 256 + b2.toNat := by
  have hfst : ∀ n : Fin 256, ((UInt8.ofNat n &&& 0x7F).toUInt32 <<< 16 &&& 0xFF0000).toNat = 2 ^ 16 * (n % 128) := by
    decide +kernel
  have hsnd : ∀ n : Fin 256, ((UInt8.ofNat n).toUInt32 <<< 8 &&& 0xFF00).toNat = 2 ^ 8 * n := by decide +kernel
  have hthd : ∀ n : Fin 256, ((UInt8.ofNat n).toUInt32 &&& 0xFF).toNat = n := by decide +kernel
  have h0 := hfst ⟨b0.toNat, b0.toNat_lt⟩
  have h1 := hsnd ⟨b1.toNat, b1.toNat_lt⟩
  have h2 := hthd ⟨b2.toNat, b2.toNat_lt⟩
  have hlt1 := b1.toNat_lt
  have hlt2 := b2.toNat_lt
  rw [UInt8.ofNat_toNat] at h0 h1 h2
  have hlow := Nat.two_pow_add_eq_or_of_lt (i := 8) hlt2 b1.toNat
  have hhigh := Nat.two_pow_add_eq_or_of_lt (i := 16) (show 2 ^ 8 * b1.toNat + b2.toNat < 2 ^ 16 by omega)
    (b0.toNat % 128)
  rw [headerCount, UInt32.toNat_or, UInt32.toNat_or, h0, h1, h2, Nat.or_assoc]
  dsimp only
  rw [← hlow, ← hhigh]
  omega

theorem toNat_lowByte (w : UInt32) : (w &&& (0xFF : UInt32)).toUInt8.toNat = w.toNat % 256 := by
  rw [UInt32.toNat_toUInt8, UInt32.toNat_and, show (0xFF : UInt32).toNat = 2 ^ 8 - 1 from rfl,
    Nat.and_two_pow_sub_one_eq_mod]
  omega

theorem toNat_shiftRight_16 (w : UInt32) : (w >>> (16 : UInt32)).toNat = w.toNat / 65536 := by
  rw [UInt32.toNat_shiftRight, Nat.shiftRight_eq_div_pow]
  rfl

theorem toNat_shiftRight_8 (w : UInt32) : (w >>> (8 : UInt32)).toNat = w.toNat / 256 := by
  rw [UInt32.toNat_shiftRight, Nat.shiftRight_eq_div_pow]
  rfl

variable {n : Nat}

theorem setHeader_eq (h : n ≤ maxDataSize) : ∃ b0 b1 b2 : UInt8, setHeader n false = [b0, b1, b2] ∧
    b0.toNat = 128 + n / 65536 ∧ b1.toNat = n / 256 % 256 ∧ b2.toNat = n % 256 := by
  have hn : n < 2 ^ 23 := Nat.lt_succ_of_le h
  have hheader : (UInt32.ofNat n ||| 0x00800000).toNat = 2 ^ 23 + n := by
    have hor := Nat.two_pow_add_eq_or_of_lt hn 1
    rw [UInt32.toNat_or, UInt32.toNat_ofNat_of_lt' (by show n < 2 ^ 32; omega), Nat.or_comm]
    rw [Nat.mul_one] at hor
    exact hor.symm
  refine ⟨_, _, _, rfl, ?_, ?_, ?_⟩
  · rw [if_neg Bool.false_ne_true, UInt32.toNat_toUInt8, toNat_shiftRight_16, hheader]
    omega
  · rw [if_neg Bool.false_ne_true, toNat_lowByte, toNat_shiftRight_8, hheader]
    omega
  · rw [if_neg Bool.false_ne_true, toNat_lowByte, hheader]
    omega

theorem setHeader_eq_stored (n : Nat) (isNegative : Bool) : setHeader n isNegative = stored isNegative (setHeader n false) := by
  cases isNegative with
  | false => rfl
  | true =>
    unfold setHeader
    dsimp only
    rw [if_pos rfl, if_neg Bool.false_ne_true]
    generalize UInt32.ofNat n ||| 0x00800000 = header
    have hlt := header.toNat_lt
    have hnot : ∀ {x y : UInt8}, x.toNat = 255 - y.toNat → x = ~~~y := by
      intro x y h
      rw [← UInt8.toNat_inj, h, UInt8.toNat_not]
      rfl
    rw [stored_true, List.map_cons, List.map_cons, List.map_cons, List.map_nil]
    congr 1
    · refine hnot ?_
      rw [UInt32.toNat_toUInt8, UInt32.toNat_toUInt8, toNat_shiftRight_16, toNat_shiftRight_16, UInt32.toNat_not]
      unfold UInt32.size
      omega
    congr 1
    · refine hnot ?_
      rw [toNat_lowByte, toNat_lowByte, toNat_shiftRight_8, toNat_shiftRight_8, UInt32.toNat_not]
      unfold UInt32.size
      omega
    congr 1
    refine hnot ?_
    rw [toNat_lowByte, toNat_lowByte, UInt32.toNat_not]
    unfold UInt32.size
    omega

theorem encode_eq_stored (z : Int) : encode z =
    stored (decide (z < 0)) (setHeader (significant z.natAbs).length false ++ significant z.natAbs) := by
  rw [encode, setHeader_eq_stored, stored_append]

theorem exists_head_encode {z : Int} (h : Fits z) :
    ∃ b rest, encode z = b :: rest ∧ (b &&& 0x80 == 0) = decide (z < 0) := by
  obtain ⟨b0, b1, b2, hheader, h0, -, -⟩ := setHeader_eq (n := (significant z.natAbs).length) (by
    rw [length_significant]
    exact Nat.max_le.2 ⟨by decide, h⟩)
  have hb0 := b0.toNat_lt
  rw [encode_eq_stored, hheader]
  by_cases hz : z < 0
  · refine ⟨~~~b0, _, by rw [decide_eq_true hz]; rfl, ?_⟩
    rw [beq_eq_decide, decide_eq_decide, and_128_eq_zero_iff, UInt8.toNat_not]
    exact iff_of_true (by unfold UInt8.size; omega) hz
  · refine ⟨b0, _, by rw [decide_eq_false hz]; rfl, ?_⟩
    rw [beq_eq_decide, decide_eq_decide, and_128_eq_zero_iff]
    exact iff_of_false (by omega) hz

theorem length_significant_le (h : byteCount n ≤ maxDataSize) : (significant n).length ≤ maxDataSize := by
  rw [length_significant]
  exact Nat.max_le.2 ⟨by decide, h⟩

/-! ## Canonical blobs -/

theorem verify_eq_done_iff (b0 b1 b2 b3 : UInt8) (rest : List UInt8) : verify (b0 :: b1 :: b2 :: b3 :: rest) = .done () ↔
    ¬ (rest = [] ∧ b0.toNat < 128 ∧ b3 = 0xFF) ∧
      (if b0.toNat < 128 then headerCount (~~~b0) (~~~b1) (~~~b2) else headerCount b0 b1 b2).toNat = rest.length + 1 ∧
        (rest ≠ [] → (if b0.toNat < 128 then ~~~b3 else b3) ≠ 0) := by
  have hnegative : (b0 &&& 0x80 == 0) = decide (b0.toNat < 128) := by
    rw [beq_eq_decide, decide_eq_decide]
    exact and_128_eq_zero_iff b0
  have hempty : rest = [] ↔ rest.length = 0 := List.length_eq_zero_iff.symm
  unfold verify
  simp only [List.length_cons, read_cons_succ, read_cons_zero, Outcome.done_bind, hnegative, decide_eq_true_eq]
  rw [if_neg (by omega)]
  by_cases hzero : rest = [] ∧ b0.toNat < 128 ∧ b3 = 0xFF
  · rw [if_pos ⟨by rw [hzero.1]; rfl, hzero.2⟩]
    simp [hzero]
  · rw [if_neg (by rintro ⟨h, h'⟩; exact hzero ⟨hempty.2 (by omega), h'⟩)]
    by_cases hcount : (if b0.toNat < 128 then headerCount (~~~b0) (~~~b1) (~~~b2) else headerCount b0 b1 b2).toNat =
        rest.length + 1
    · rw [if_neg (by omega)]
      by_cases htop : rest ≠ [] ∧ (if b0.toNat < 128 then ~~~b3 else b3) = 0
      · rw [if_pos ⟨by have := List.length_pos_iff.2 htop.1; omega, htop.2⟩]
        simp [htop]
      · rw [if_neg (by rintro ⟨h, h'⟩; exact htop ⟨by rintro rfl; simp at h, h'⟩)]
        simp only [true_iff]
        exact ⟨hzero, hcount, fun h h' => htop ⟨h, h'⟩⟩
    · rw [if_pos (by omega)]
      simp [hcount]

theorem eq_header_significant {b0 b1 b2 b3 : UInt8} {rest : List UInt8} (hb0 : 128 ≤ b0.toNat)
    (hcount : (headerCount b0 b1 b2).toNat = rest.length + 1) (htop : rest ≠ [] → b3 ≠ 0) :
    byteCount (magnitude (b3 :: rest)) ≤ maxDataSize ∧ b0 :: b1 :: b2 :: b3 :: rest =
      setHeader (significant (magnitude (b3 :: rest))).length false ++ significant (magnitude (b3 :: rest)) := by
  have hlt0 := b0.toNat_lt
  have hlt1 := b1.toNat_lt
  have hlt2 := b2.toNat_lt
  rw [toNat_headerCount] at hcount
  have hlength : (b3 :: rest).length ≤ maxDataSize := by
    rw [List.length_cons]
    unfold maxDataSize
    omega
  have hsignificant : b3 :: rest = significant (magnitude (b3 :: rest)) := by
    refine eq_significant ?_
    cases rest with
    | nil =>
      have hle := byteCount_magnitude_le [b3]
      simp only [List.length_singleton] at hle ⊢
      omega
    | cons b rest =>
      rw [byteCount_of_head (htop (List.cons_ne_nil _ _)), List.length_cons]
      omega
  refine ⟨(byteCount_magnitude_le _).trans hlength, ?_⟩
  obtain ⟨c0, c1, c2, hheader, h0, h1, h2⟩ := setHeader_eq hlength
  rw [← hsignificant, hheader]
  rw [List.length_cons] at h0 h1 h2
  have e0 : b0 = c0 := UInt8.toNat_inj.1 (by omega)
  have e1 : b1 = c1 := UInt8.toNat_inj.1 (by omega)
  have e2 : b2 = c2 := UInt8.toNat_inj.1 (by omega)
  rw [e0, e1, e2]
  rfl

theorem headerCount_eq_of_header {b0 b1 b2 : UInt8} (h : n ≤ maxDataSize)
    (hheader : setHeader n false = [b0, b1, b2]) : 128 ≤ b0.toNat ∧ (headerCount b0 b1 b2).toNat = n := by
  obtain ⟨c0, c1, c2, hbytes, h0, h1, h2⟩ := setHeader_eq h
  rw [hbytes] at hheader
  obtain ⟨rfl, rfl, rfl⟩ : c0 = b0 ∧ c1 = b1 ∧ c2 = b2 := by simpa using hheader
  have hlt := c0.toNat_lt
  refine ⟨by omega, ?_⟩
  rw [toNat_headerCount, h0, h1, h2]
  unfold maxDataSize at h
  omega

theorem toNat_complement (b : UInt8) : (~~~b).toNat = 255 - b.toNat := UInt8.toNat_not _

theorem complement_eq_zero_iff (b : UInt8) : ~~~b = 0 ↔ b = 0xFF := by
  rw [← UInt8.toNat_inj, ← UInt8.toNat_inj, toNat_complement]
  have := b.toNat_lt
  show 255 - b.toNat = 0 ↔ b.toNat = 255
  omega

theorem significant_eq_cons (n : Nat) : ∃ b rest, significant n = b :: rest ∧ (rest ≠ [] → b ≠ 0) ∧ (b = 0 → n = 0) := by
  have hlength := length_significant n
  have hmagnitude := magnitude_significant n
  cases hn : significant n with
  | nil =>
    rw [hn, List.length_nil] at hlength
    omega
  | cons b rest =>
    rw [hn, List.length_cons] at hlength
    rw [hn] at hmagnitude
    have htop : rest ≠ [] → b ≠ 0 := by
      rintro hne rfl
      have hpos := List.length_pos_iff.2 hne
      rw [magnitude_cons, UInt8.toNat_zero, Nat.zero_mul, Nat.zero_add] at hmagnitude
      have hle := byteCount_magnitude_le rest
      rw [hmagnitude] at hle
      omega
    refine ⟨b, rest, rfl, htop, ?_⟩
    rintro rfl
    have hnil : rest = [] := not_not.1 fun hne => htop hne rfl
    rw [hnil] at hmagnitude
    exact hmagnitude.symm

theorem verify_iff (blob : List UInt8) : verify blob = .done () ↔ ∃ z, Fits z ∧ blob = encode z := by
  constructor
  · intro h
    rcases blob with - | ⟨b0, - | ⟨b1, - | ⟨b2, - | ⟨b3, rest⟩⟩⟩⟩
    iterate 4 · exact absurd h (by simp [verify])
    obtain ⟨hzero, hcount, htop⟩ := (verify_eq_done_iff b0 b1 b2 b3 rest).1 h
    by_cases hnegative : b0.toNat < 128
    · rw [if_pos hnegative] at hcount htop
      have hb0 : 128 ≤ (~~~b0).toNat := by
        rw [toNat_complement]
        omega
      obtain ⟨hfits, hbody⟩ := @eq_header_significant _ _ _ _ (rest.map fun b => ~~~b) hb0
        (by rw [hcount, List.length_map]) (fun h => htop (by simpa using h))
      generalize hn : magnitude (~~~b3 :: rest.map fun b => ~~~b) = n at hfits hbody
      have hpos : 0 < n := by
        refine Nat.pos_of_ne_zero fun hn' => ?_
        obtain rfl : rest = [] := by
          by_contra hrest
          have hcount' := @byteCount_of_head (rest.map fun b => ~~~b) _ (htop hrest)
          rw [hn, hn', byteCount_eq_zero_iff.2 rfl] at hcount'
          omega
        refine hzero ⟨rfl, hnegative, (complement_eq_zero_iff b3).1 (UInt8.toNat_inj.1 ?_)⟩
        rw [List.map_nil, magnitude_singleton, hn'] at hn
        exact hn
      have habs : (-(n : Int)).natAbs = n := by omega
      refine ⟨-n, by rwa [Fits, habs], ?_⟩
      rw [encode_eq_stored, habs, ← hbody, decide_eq_true (by omega)]
      exact (@stored_stored true (b0 :: b1 :: b2 :: b3 :: rest)).symm
    · rw [if_neg hnegative] at hcount htop
      obtain ⟨hfits, hbody⟩ := eq_header_significant (Nat.not_lt.1 hnegative) hcount htop
      refine ⟨magnitude (b3 :: rest), by rwa [Fits, Int.natAbs_natCast], ?_⟩
      rw [encode_eq_stored, Int.natAbs_natCast, ← hbody, decide_eq_false (by omega), stored_false]
  · rintro ⟨z, hfits, rfl⟩
    have hle := length_significant_le hfits
    obtain ⟨c0, c1, c2, hheader, -, -, -⟩ := setHeader_eq hle
    obtain ⟨hhigh, hcount⟩ := headerCount_eq_of_header hle hheader
    obtain ⟨b, rest, hbytes, htop, hzero⟩ := significant_eq_cons z.natAbs
    rw [encode_eq_stored, hheader, hbytes]
    rw [hbytes, List.length_cons] at hcount
    by_cases hz : z < 0
    · have hlow : (~~~c0).toNat < 128 := by
        rw [toNat_complement]
        omega
      rw [decide_eq_true hz, stored_true]
      simp only [List.map_cons, List.cons_append, List.nil_append]
      rw [verify_eq_done_iff]
      rw [if_pos hlow, if_pos hlow]
      simp only [UInt8.not_not, List.length_map]
      refine ⟨?_, hcount, fun h => htop (by simpa using h)⟩
      rintro ⟨-, -, hb⟩
      rw [← complement_eq_zero_iff, UInt8.not_not] at hb
      have := hzero hb
      omega
    · rw [decide_eq_false hz, stored_false]
      simp only [List.cons_append, List.nil_append]
      rw [verify_eq_done_iff]
      rw [if_neg (by omega), if_neg (by omega)]
      refine ⟨?_, hcount, htop⟩
      rintro ⟨-, hlt, -⟩
      omega

/-! ## Order -/

theorem magnitude_setHeader (h : n ≤ maxDataSize) : magnitude (setHeader n false) = 2 ^ 23 + n := by
  obtain ⟨b0, b1, b2, hheader, h0, h1, h2⟩ := setHeader_eq h
  rw [hheader, magnitude_cons, magnitude_cons, magnitude_singleton, h0, h1, h2]
  simp only [List.length_cons, List.length_nil]
  omega

/-- The blob of a magnitude: the header, and then the bytes. -/
def unsignedBlob (n : Nat) : List UInt8 := setHeader (significant n).length false ++ significant n

theorem lt_of_length_significant_lt {m : Nat} (h : (significant n).length < (significant m).length) : n < m := by
  rw [length_significant, length_significant] at h
  by_contra hle
  have hlt := lt_byteCount_iff (n := n) (k := byteCount m - 1)
  have hlt' := lt_byteCount_iff (n := m) (k := byteCount m - 1)
  have hm := hlt'.1 (by omega)
  have := hlt.2 (hm.trans (Nat.not_lt.1 hle))
  omega

theorem diverge_unsignedBlob {m : Nat} (hn : byteCount n ≤ maxDataSize) (hm : byteCount m ≤ maxDataSize) (hne : n ≠ m) :
    Diverge (compare n m) (unsignedBlob n) (unsignedBlob m) := by
  by_cases hlength : (significant n).length = (significant m).length
  · have hdiverge := diverge_of_magnitude hlength
    rw [magnitude_significant, magnitude_significant] at hdiverge
    rw [unsignedBlob, unsignedBlob, hlength]
    exact (hdiverge hne).prepend _
  · -- the headers differ
    have hheader := magnitude_setHeader (length_significant_le hn)
    have hheader' := magnitude_setHeader (length_significant_le hm)
    have hdiverge := @diverge_of_magnitude (setHeader (significant n).length false)
      (setHeader (significant m).length false) rfl (by omega)
    rw [hheader, hheader'] at hdiverge
    have hcompare : compare (2 ^ 23 + (significant n).length) (2 ^ 23 + (significant m).length) = compare n m := by
      rcases Nat.lt_or_gt_of_ne hlength with hlt | hgt
      · rw [Nat.compare_eq_lt.2 (lt_of_length_significant_lt hlt), Nat.compare_eq_lt.2 (by omega)]
      · rw [Nat.compare_eq_gt.2 (lt_of_length_significant_lt hgt), Nat.compare_eq_gt.2 (by omega)]
    rw [hcompare] at hdiverge
    exact hdiverge.append _ _

theorem encode_natCast (n : Nat) : encode n = unsignedBlob n := by
  rw [encode_eq_stored, decide_eq_false (by omega), stored_false, Int.natAbs_natCast, unsignedBlob]

theorem encode_neg (h : 0 < n) : encode (-n) = (unsignedBlob n).map fun b => ~~~b := by
  rw [encode_eq_stored, decide_eq_true (by omega), stored_true, Int.natAbs_neg, Int.natAbs_natCast, unsignedBlob]

theorem exists_unsignedBlob (h : byteCount n ≤ maxDataSize) :
    ∃ b rest, unsignedBlob n = b :: rest ∧ 128 ≤ b.toNat := by
  obtain ⟨b0, b1, b2, hheader, h0, -, -⟩ := setHeader_eq (length_significant_le h)
  refine ⟨b0, b1 :: b2 :: significant n, ?_, by omega⟩
  rw [unsignedBlob, hheader]
  rfl

theorem diverge_encode_neg {m : Nat} (hn : byteCount n ≤ maxDataSize) (hm : byteCount m ≤ maxDataSize) :
    Diverge .lt ((unsignedBlob n).map fun b => ~~~b) (unsignedBlob m) ∧
      Diverge .gt (unsignedBlob m) ((unsignedBlob n).map fun b => ~~~b) := by
  obtain ⟨b, rest, hblob, hb⟩ := exists_unsignedBlob hn
  obtain ⟨c, rest', hblob', hc⟩ := exists_unsignedBlob hm
  have hlt : (~~~b).toNat < c.toNat := by
    rw [toNat_complement]
    omega
  rw [hblob, hblob', List.map_cons]
  constructor
  · exact .here _ _ (by rw [compare_toNat, Nat.compare_eq_lt.2 hlt]) nofun
  · exact .here _ _ (by rw [compare_toNat, Nat.compare_eq_gt.2 hlt]) nofun

theorem compare_int_natCast (n m : Nat) : compare (n : Int) m = compare n m := by
  rcases Nat.lt_trichotomy n m with h | h | h
  · rw [Nat.compare_eq_lt.2 h, Int.compare_eq_lt.2 (by omega)]
  · rw [Nat.compare_eq_eq.2 h, Int.compare_eq_eq.2 (by omega)]
  · rw [Nat.compare_eq_gt.2 h, Int.compare_eq_gt.2 (by omega)]

theorem diverge_encode {z w : Int} (hz : Fits z) (hw : Fits w) (hne : z ≠ w) :
    Diverge (compare z w) (encode z) (encode w) := by
  unfold Fits at hz hw
  rcases Int.lt_or_le z 0 with hzneg | hzpos
  · obtain ⟨n, rfl⟩ : ∃ n : Nat, z = -n := ⟨z.natAbs, by omega⟩
    rw [Int.natAbs_neg, Int.natAbs_natCast] at hz
    rw [encode_neg (by omega)]
    rcases Int.lt_or_le w 0 with hwneg | hwpos
    · obtain ⟨m, rfl⟩ : ∃ m : Nat, w = -m := ⟨w.natAbs, by omega⟩
      rw [Int.natAbs_neg, Int.natAbs_natCast] at hw
      rw [encode_neg (by omega)]
      have hnm : n ≠ m := by omega
      have hcompare : compare (-n : Int) (-m) = (compare n m).swap := by
        rcases Nat.lt_or_gt_of_ne hnm with h | h
        · rw [Nat.compare_eq_lt.2 h, Int.compare_eq_gt.2 (by omega)]
          rfl
        · rw [Nat.compare_eq_gt.2 h, Int.compare_eq_lt.2 (by omega)]
          rfl
      rw [hcompare]
      refine (diverge_unsignedBlob hz hw hnm).map (fun x y hxy => by rw [compare_complement, hxy]) ?_
      intro heq
      exact hnm (Nat.compare_eq_eq.1 (Ordering.swap_eq_eq.1 heq))
    · obtain ⟨m, rfl⟩ := Int.eq_ofNat_of_zero_le hwpos
      rw [Int.natAbs_natCast] at hw
      rw [encode_natCast, Int.compare_eq_lt.2 (by omega)]
      exact (diverge_encode_neg hz hw).1
  · obtain ⟨n, rfl⟩ := Int.eq_ofNat_of_zero_le hzpos
    rw [Int.natAbs_natCast] at hz
    rw [encode_natCast]
    rcases Int.lt_or_le w 0 with hwneg | hwpos
    · obtain ⟨m, rfl⟩ : ∃ m : Nat, w = -m := ⟨w.natAbs, by omega⟩
      rw [Int.natAbs_neg, Int.natAbs_natCast] at hw
      rw [encode_neg (by omega), Int.compare_eq_gt.2 (by omega)]
      exact (diverge_encode_neg hw hz).2
    · obtain ⟨m, rfl⟩ := Int.eq_ofNat_of_zero_le hwpos
      rw [Int.natAbs_natCast] at hw
      rw [encode_natCast, compare_int_natCast]
      exact diverge_unsignedBlob hz hw (by omega)

theorem compare_encode {z w : Int} (hz : Fits z) (hw : Fits w) : compare (encode z) (encode w) = compare z w := by
  by_cases hne : z = w
  · rw [hne, Std.ReflOrd.compare_self, Std.ReflOrd.compare_self]
  · exact (diverge_encode hz hw hne).compare_eq

end Haybarn.Bignum
