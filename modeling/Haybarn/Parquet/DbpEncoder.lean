/-
What the encoders write with, and that the decoders read it: integers of variable length, integers with their sign in
the lowest bit, and groups of 32 values of a width. What is left of a page is the bytes from a cursor on, and every read
is told by the bytes that it takes from the front of them.

The encoder of delta-binary-packed values: the differences of neighbours are gathered to blocks of 2048, of which the
smallest is taken away, and a block is written as miniblocks of 256 values with a bit width each. What is written is a
header and one piece for each block, whatever the length of the last one.
-/
import Haybarn.Lib.Bits
import Haybarn.Lib.Buffer
import Haybarn.Parquet.DbpDecoder
import Mathlib.Data.Nat.Size
import Haybarn.Lib.Chunks

namespace Haybarn.Parquet

open Lib Outcome ByteBuffer List

/-! ## Definitions -/

def varintEncode (val : Nat) : List UInt8 :=
  let byte := val % 128
  let val := val / 128
  if val ≠ 0 then UInt8.ofNat (byte + 128) :: varintEncode val else [UInt8.ofNat byte]
termination_by val
decreasing_by omega

/-- `IntToZigzag`, on the bits of the integers. -/
def intToZigzag (x : Nat) : Nat := x <<< 1 % 2 ^ 64 ^^^ (if x < 2 ^ 63 then 0 else 2 ^ 64 - 1)

/-- The bytes of a number, the low one first. -/
def toLittleEndian : Nat → Nat → List UInt8
  | 0, _ => []
  | count + 1, value => UInt8.ofNat value :: toLittleEndian count (value / 256)

/-- `PackGroup<T>`: the bytes that hold the 32 values, the low bits first. -/
def packGroup (values : List Nat) (width : Nat) : List UInt8 := toLittleEndian (4 * width) (packBits width values)

/-- `BitPackAligned<T>`. The groups are written next to each other. -/
def bitPackAligned (src : List Nat) (count width : Nat) : List UInt8 :=
  (List.range (count / groupSize)).flatMap fun group => packGroup ((src.drop (group * groupSize)).take groupSize) width

def getEffectiveWidth (width : Nat) : Nat := if width + 8 > 64 then 64 else width

def minimumBitWidth (values : List Nat) : Nat :=
  let maxValue := values.foldl max 0
  if maxValue = 0 then 0 else getEffectiveWidth maxValue.size

/-! ## What is left of a page -/

/-- The bytes from the cursor on begin with the given ones. The end of these, and the end of the buffer, do not move. -/
structure Remains (page : Page) (stop limit : Nat) (b : ByteBuffer) (bytes : List UInt8) : Prop where
  inside : b.Inside page
  begins : bytes <+: page.bytes.drop b.ptr
  stop_eq : b.ptr + bytes.length = stop
  limit_eq : b.ptr + b.len = limit
  le : stop ≤ limit

variable {page : Page} {stop limit : Nat} {b : ByteBuffer} {bytes front : List UInt8}

theorem Remains.length_le (h : Remains page stop limit b bytes) : bytes.length ≤ b.len := by
  have := h.stop_eq
  have := h.limit_eq
  have := h.le
  omega

theorem Remains.unsafeInc {n : Nat} (h : Remains page stop limit b (front ++ bytes)) (hn : front.length = n) :
    Remains page stop limit (b.unsafeInc n) bytes := by
  subst hn
  have hle := h.length_le
  rw [length_append] at hle
  have hmoved := h.inside.moved (n := front.length) (by omega)
  have hlen := hmoved.len
  have hstop := h.stop_eq
  rw [length_append] at hstop
  refine ⟨hmoved.inside, ?_, ?_, ?_, h.le⟩
  · rw [unsafeInc_ptr, ← drop_drop]
    obtain ⟨rest, hrest⟩ := h.begins
    rw [← hrest, append_assoc, drop_left]
    exact prefix_append _ _
  · rw [unsafeInc_ptr]
    omega
  · have := h.limit_eq
    rw [unsafeInc_ptr]
    omega

theorem Remains.available (h : Remains page stop limit b (front ++ bytes)) : b.available front.length = done () := by
  have hle := h.length_le
  rw [length_append] at hle
  unfold ByteBuffer.available checkAvailable
  rw [if_pos (by simpa using by omega)]

theorem Remains.loadRange (h : Remains page stop limit b (front ++ bytes)) {i n : Nat} (hi : b.ptr = i)
    (hn : front.length = n) : Parquet.loadRange page.bytes i n = done front := by
  subst hi hn
  obtain ⟨rest, hrest⟩ := h.begins
  have hle := h.length_le
  have hfits := h.inside.fits
  rw [length_append] at hle
  unfold Parquet.loadRange
  rw [if_pos (.inr (by omega)), ← hrest, append_assoc, take_left]

variable {byte : UInt8} {val width : Nat} {values : List Nat}

theorem Remains.get (h : Remains page stop limit b (byte :: bytes)) :
    b.unsafeGet page = done byte := by
  obtain ⟨rest, hrest⟩ := h.begins
  unfold unsafeGet
  rw [getElem?_of_drop hrest.symm]

theorem Remains.next (h : Remains page stop limit b (byte :: bytes)) :
    Remains page stop limit (b.unsafeInc 1) bytes :=
  @Remains.unsafeInc page stop limit b bytes [byte] 1 h rfl

theorem Remains.readByte (h : Remains page stop limit b (byte :: bytes)) (checked : Bool) :
    b.readByte page checked = done (byte, b.unsafeInc 1) := by
  have havailable : b.available 1 = done () := @Remains.available page stop limit b bytes [byte] h
  unfold ByteBuffer.readByte ByteBuffer.read unsafeRead
  rw [havailable, h.get]
  cases checked <;> rfl

/-! ## Integers -/

theorem varintEncode_small (h : val < 128) : varintEncode val = [UInt8.ofNat val] := by
  rw [varintEncode, if_neg (by omega), Nat.mod_eq_of_lt h]

theorem varintEncode_large (h : 128 ≤ val) :
    varintEncode val = UInt8.ofNat (val % 128 + 128) :: varintEncode (val / 128) := by
  rw [varintEncode, if_pos (by omega)]

/-- From a shift of `7 * k`, what is left of the value is put above the bits that are there. Of the last byte some bits
may be lost, and a value that goes on behind it is refused. -/
theorem varintDecodeLoop_varintEncode {bits : Nat} (hbits : bits ≤ 64) (hseven : bits % 7 ≠ 0) {checked : Bool} :
    ∀ {turns k result val : Nat} {b : ByteBuffer}, bits < 7 * (k + turns) → 7 * k < bits → result < 2 ^ (7 * k) →
    Remains page stop limit b (varintEncode val ++ bytes) →
    (val < 2 ^ (7 * (bits / 7 + 1 - k)) → ∃ b', varintDecodeLoop page bits checked turns result (7 * k) b =
        done ((result + 2 ^ (7 * k) * val) % 2 ^ bits, b') ∧ Remains page stop limit b' bytes) ∧
      (2 ^ (7 * (bits / 7 + 1 - k)) ≤ val → varintDecodeLoop page bits checked turns result (7 * k) b =
        error "Varint-decoding found too large number")
  | 0, _, _, _, _, hturns, hk, _, _ => absurd hturns (by omega)
  | turns + 1, k, result, val, b, hturns, hk, hresult, hb => by
    have hbound : 2 ^ (7 * (bits / 7 + 1 - k)) = 2 ^ (7 * (bits / 7 - k)) * 128 := by
      rw [show bits / 7 + 1 - k = bits / 7 - k + 1 by omega, Nat.mul_succ, Nat.pow_add]
    have hone := Nat.one_le_two_pow (n := 7 * (bits / 7 - k))
    unfold varintDecodeLoop
    rcases Nat.lt_or_ge val 128 with hval | hval
    · rw [varintEncode_small hval] at hb
      have hbyte : (UInt8.ofNat val).toNat = val := by
        rw [UInt8.toNat_ofNat']
        omega
      refine ⟨fun _ => ⟨_, ?_, Remains.next hb⟩, fun hge => absurd hge (by omega)⟩
      rw [Remains.readByte hb, done_bind]
      dsimp only
      rw [hbyte, if_pos hval, Nat.mod_eq_of_lt hval, or_shiftLeft_mod hresult hk]
    · rw [varintEncode_large hval] at hb
      have hbyte : (UInt8.ofNat (val % 128 + 128)).toNat = val % 128 + 128 := by
        rw [UInt8.toNat_ofNat']
        omega
      have hpow : 2 ^ (7 * (k + 1)) = 2 ^ (7 * k) * 128 := by rw [Nat.mul_succ, Nat.pow_add]
      have hsplit : result + 2 ^ (7 * k) * (val % 128) + 2 ^ (7 * (k + 1)) * (val / 128) = result + 2 ^ (7 * k) * val := by
        rw [hpow, Nat.mul_assoc, Nat.add_assoc, ← Nat.mul_add, Nat.mod_add_div]
      have hlow : result + 2 ^ (7 * k) * (val % 128) < 2 ^ (7 * (k + 1)) := by
        have := Nat.mul_le_mul_left (2 ^ (7 * k)) (show val % 128 + 1 ≤ 128 by omega)
        rw [Nat.mul_succ] at this
        omega
      rw [Remains.readByte hb, done_bind]
      dsimp only
      rw [hbyte, if_neg (by omega), show (val % 128 + 128) % 128 = val % 128 by omega, or_shiftLeft_mod hresult hk,
        show (7 * k + 7) % 256 = 7 * (k + 1) by omega]
      by_cases hlast : 7 * (k + 1) > bits
      · rw [if_pos hlast, show bits / 7 + 1 - k = 1 by omega]
        exact ⟨fun hlt => absurd hlt (by omega), fun _ => rfl⟩
      · have hmod : (result + 2 ^ (7 * k) * (val % 128)) % 2 ^ bits = result + 2 ^ (7 * k) * (val % 128) :=
          Nat.mod_eq_of_lt (hlow.trans_le (Nat.pow_le_pow_right (by decide) (by omega)))
        have ih := @varintDecodeLoop_varintEncode bits hbits hseven checked turns (k + 1) _ _ _
          (by omega) (by omega) hlow (Remains.next hb)
        rw [hsplit, Nat.add_sub_add_right] at ih
        rw [if_neg hlast, hmod, hbound]
        exact ⟨fun hlt => ih.1 (by omega), fun hge => ih.2 (by omega)⟩

theorem varintDecode_varintEncode (hval : val < 2 ^ 64)
    (hb : Remains page stop limit b (varintEncode val ++ bytes)) :
    ∃ b', varintDecode page 64 true b = done (val, b') ∧ Remains page stop limit b' bytes := by
  have h := (@varintDecodeLoop_varintEncode page stop limit bytes 64 (Nat.le_refl 64) (by decide) true 64 0 0 val b
    (by decide) (by decide) (by decide) hb).1 (hval.trans (by decide))
  rwa [Nat.zero_add, Nat.mul_zero, Nat.pow_zero, Nat.one_mul, Nat.mod_eq_of_lt hval] at h

theorem intToZigzag_lt (x : Nat) : intToZigzag x < 2 ^ 64 :=
  Nat.xor_lt_two_pow (Nat.mod_lt _ (by decide)) (by split <;> decide)

theorem zigzagToInt_intToZigzag {x : Nat} (h : x < 2 ^ 64) : zigzagToInt (intToZigzag x) = x := by
  unfold zigzagToInt intToZigzag
  rw [Nat.shiftLeft_eq, Nat.pow_one]
  split
  · rename_i hpos
    rw [Nat.xor_zero, Nat.mod_eq_of_lt (by omega), if_pos (by omega), Nat.xor_zero, Nat.shiftRight_eq_div_pow]
    omega
  · rename_i hneg
    rw [xor_allOnes (Nat.mod_lt _ (by decide)), if_neg (by omega), Nat.shiftRight_eq_div_pow, xor_allOnes (by omega)]
    omega

/-! ## Groups -/

theorem length_toLittleEndian : ∀ (count value : Nat), (toLittleEndian count value).length = count
  | 0, _ => rfl
  | count + 1, value => by rw [toLittleEndian, length_cons, length_toLittleEndian count]

theorem littleEndian_toLittleEndian : ∀ {count value : Nat}, value < 256 ^ count →
    littleEndian (toLittleEndian count value) = value
  | 0, value, h => by
    rw [Nat.pow_zero] at h
    exact (Nat.lt_one_iff.1 h).symm
  | count + 1, value, h => by
    have hrest : value / 256 < 256 ^ count := Nat.div_lt_of_lt_mul (by rwa [Nat.mul_comm, ← Nat.pow_succ])
    rw [toLittleEndian, littleEndian, littleEndian_toLittleEndian hrest, UInt8.toNat_ofNat']
    exact Nat.mod_add_div value 256

theorem le_foldl_max : ∀ {values : List Nat} {m : Nat},
    m ≤ values.foldl max m ∧ ∀ v ∈ values, v ≤ values.foldl max m
  | [], m => ⟨Nat.le_refl m, by simp⟩
  | a :: values, m => by
    obtain ⟨hm, hvalues⟩ := @le_foldl_max values (max m a)
    refine ⟨(Nat.le_max_left m a).trans hm, ?_⟩
    rintro v (_ | ⟨_, hv⟩)
    · exact (Nat.le_max_right m a).trans hm
    · exact hvalues v hv

theorem minimumBitWidth_le (values : List Nat) : minimumBitWidth values ≤ 64 := by
  unfold minimumBitWidth getEffectiveWidth
  dsimp only
  split
  · exact Nat.zero_le _
  · split <;> omega

theorem lt_minimumBitWidth {v : Nat} (h : ∀ v ∈ values, v < 2 ^ 64) (hv : v ∈ values) :
    v < 2 ^ minimumBitWidth values := by
  have hle := (@le_foldl_max values 0).2 v hv
  unfold minimumBitWidth getEffectiveWidth
  dsimp only
  split
  · omega
  · split
    · exact h v hv
    · exact hle.trans_lt (Nat.lt_size_self _)

theorem length_packGroup (values : List Nat) (width : Nat) : (packGroup values width).length = 4 * width :=
  length_toLittleEndian _ _

theorem unPackGroup_packGroup (hlen : values.length = groupSize)
    (hlt : ∀ v ∈ values, v < 2 ^ width) : unPackGroup (packGroup values width) width = values := by
  have hbits := packBits_lt width values
  have hpow : 256 ^ (4 * width) = 2 ^ (width * values.length) := by
    rw [show 256 = 2 ^ 8 from rfl, ← Nat.pow_mul, hlen]
    congr 1
    unfold groupSize
    omega
  unfold unPackGroup packGroup
  rw [littleEndian_toLittleEndian (hpow ▸ hbits)]
  apply ext_getElem
  · rw [length_map, length_range, hlen]
  · intro i hi hi'
    have hget := packBits_get width values i values[i] (getElem?_eq_getElem hi')
    rw [Nat.mod_eq_of_lt (hlt _ (getElem_mem hi')), Nat.mul_comm] at hget
    rw [getElem_map, getElem_range, Nat.shiftRight_eq_div_pow, hget]

theorem toLittleEndian_append : ∀ {m x : Nat} (n y : Nat), x < 256 ^ m →
    toLittleEndian (m + n) (x + 256 ^ m * y) = toLittleEndian m x ++ toLittleEndian n y
  | 0, x, n, y, h => by
    rw [Nat.pow_zero, Nat.lt_one_iff] at h
    rw [h, Nat.pow_zero, Nat.one_mul, Nat.zero_add, Nat.zero_add]
    rfl
  | m + 1, x, n, y, h => by
    have hrest : x / 256 < 256 ^ m := Nat.div_lt_of_lt_mul (by rwa [Nat.mul_comm, ← Nat.pow_succ])
    have hmul : 256 ^ (m + 1) * y = 256 * (256 ^ m * y) := by rw [Nat.pow_succ]; ring
    have hbyte : UInt8.ofNat (x + 256 ^ (m + 1) * y) = UInt8.ofNat x := by
      rw [hmul]
      apply UInt8.toNat_inj.1
      rw [UInt8.toNat_ofNat', UInt8.toNat_ofNat', Nat.add_mul_mod_self_left]
    rw [show m + 1 + n = m + n + 1 by omega, toLittleEndian, hbyte, hmul, Nat.add_mul_div_left _ _ (by decide),
      toLittleEndian_append n y hrest]
    rfl

theorem toLittleEndian_packBits {m : Nat} {vs : List Nat} (h : width * vs.length = 8 * m) (n : Nat)
    (us : List Nat) : toLittleEndian (m + n) (packBits width (vs ++ us)) =
      toLittleEndian m (packBits width vs) ++ toLittleEndian n (packBits width us) := by
  have hpow : 256 ^ m = 2 ^ (width * vs.length) := by rw [h, Nat.pow_mul]
  rw [packBits_append, ← hpow]
  exact toLittleEndian_append n _ (hpow ▸ packBits_lt width vs)

section Aligned

variable {size width dst : Nat}

variable {us : List Nat}

theorem Remains.group {n : Nat} {vs : List Nat} (hvs : vs.length = groupSize)
    (hb : Remains page stop limit b (toLittleEndian ((n + 1) * (4 * width)) (packBits width (vs ++ us)) ++ bytes)) :
    Parquet.loadRange page.bytes b.ptr (4 * width) = done (packGroup vs width) ∧
      Remains page stop limit (b.unsafeInc (4 * width)) (toLittleEndian (n * (4 * width)) (packBits width us) ++ bytes) := by
  rw [Nat.add_one_mul, Nat.add_comm, toLittleEndian_packBits (by rw [hvs]; unfold groupSize; ring),
    append_assoc] at hb
  exact ⟨hb.loadRange rfl (length_packGroup vs width), hb.unsafeInc (length_packGroup vs width)⟩

theorem groupSize_mul (width : Nat) : groupSize * width / bitpackDlen = 4 * width := by
  unfold groupSize bitpackDlen
  omega

section Group

variable {group : Nat} {vs us cells : List Nat} (hvs : vs.length = groupSize) (hlt : ∀ v ∈ vs, v < 2 ^ width)
  (hload : loadRange page.bytes b.ptr (4 * width) = done (packGroup vs width))
  (hdst : dst + group * groupSize + groupSize ≤ cells.length)
include hvs hlt hload hdst

theorem returns_unPackBufferGroup {src : Nat} (hptr : b.ptr = src + group * (4 * width)) :
    (unPackBufferGroup page src dst width group cells).Returns (Put cells (dst + group * groupSize) vs) := by
  have hi : group * groupSize * width / bitpackDlen = group * (4 * width) := by
    unfold groupSize bitpackDlen
    rw [show group * 32 * width = group * (4 * width) * 8 by ring]
    exact Nat.mul_div_cancel _ (by decide)
  unfold unPackBufferGroup
  dsimp only
  rw [hi, groupSize_mul, ← hptr, hload, done_bind, unPackGroup_packGroup hvs hlt]
  exact returns_storeRange (by omega)

theorem returns_unpackGroupAligned (hwidth : width ≤ size * 8) :
    (unpackGroupAligned page size dst width group (b, cells)).Returns fun s =>
      s.1 = b.unsafeInc (4 * width) ∧ Put cells (dst + group * groupSize) vs s.2 := by
  have hpacked := length_packGroup vs width
  unfold unpackGroupAligned
  dsimp only
  rw [groupSize_mul, hload, done_bind]
  refine (returns_storeRange ?_).bind fun aligned haligned => ?_
  · rw [hpacked, length_replicate]
    unfold groupSize
    omega
  have hblock : loadRange aligned 0 (4 * width) = done (packGroup vs width) := by
    have htake := haligned.take
    have hle := haligned.le
    rw [haligned.length.symm, hpacked, Nat.zero_add] at hle
    rw [hpacked, Nat.zero_add, take_zero, nil_append] at htake
    unfold loadRange
    rw [if_pos (.inr (by omega)), drop_zero, htake]
  rw [hblock, done_bind, unPackGroup_packGroup hvs hlt]
  exact (returns_storeRange (by omega)).bind fun cells' hput => returns_done ⟨rfl, hput⟩

end Group

theorem exists_group {n : Nat} (h : us.length = (n + 1) * groupSize) :
    ∃ vs us', us = vs ++ us' ∧ vs.length = groupSize ∧ us'.length = n * groupSize := by
  rw [Nat.add_one_mul] at h
  refine ⟨us.take groupSize, us.drop groupSize, (take_append_drop _ us).symm, ?_, ?_⟩
  · rw [length_take]
    omega
  · rw [length_drop]
    omega

theorem returns_unPackBufferGroups {src : Nat} : ∀ {n start : Nat} {us cells : List Nat} {b : ByteBuffer},
    b.ptr = src + start * (4 * width) → us.length = n * groupSize → (∀ v ∈ us, v < 2 ^ width) →
    dst + start * groupSize + us.length ≤ cells.length →
    Remains page stop limit b (toLittleEndian (n * (4 * width)) (packBits width us) ++ bytes) →
    (forLoop (unPackBufferGroup page src dst width) start n cells).Returns (Put cells (dst + start * groupSize) us)
  | 0, start, us, cells, b, _, hus, _, hdst, _ => by
    rw [Nat.zero_mul, length_eq_zero_iff] at hus
    subst hus
    exact returns_done (Put.nil hdst)
  | n + 1, start, us, cells, b, hptr, hus, hlt, hdst, hb => by
    obtain ⟨vs, us, rfl, hvs, hus'⟩ := exists_group hus
    rw [length_append] at hdst
    obtain ⟨hload, hrest⟩ := hb.group hvs
    have hsucc : dst + start * groupSize + groupSize = dst + (start + 1) * groupSize := by ring
    refine (returns_unPackBufferGroup hvs (fun v hv => hlt v (mem_append_left us hv)) hload (by omega) hptr).bind ?_
    intro cells' hput
    have hlength := hput.length
    refine (returns_unPackBufferGroups (by rw [unsafeInc_ptr, hptr]; ring) hus'
      (fun v hv => hlt v (mem_append_right vs hv)) (by omega) hrest).mono fun cells'' hput' => hput.trans ?_
    rwa [hvs, hsucc]

theorem returns_unpackGroupsAligned (hwidth : width ≤ size * 8) :
    ∀ {n start : Nat} {us cells : List Nat} {b : ByteBuffer}, us.length = n * groupSize → (∀ v ∈ us, v < 2 ^ width) →
    dst + start * groupSize + us.length ≤ cells.length →
    Remains page stop limit b (toLittleEndian (n * (4 * width)) (packBits width us) ++ bytes) →
    (forLoop (unpackGroupAligned page size dst width) start n (b, cells)).Returns fun s =>
      Remains page stop limit s.1 bytes ∧ Put cells (dst + start * groupSize) us s.2
  | 0, start, us, cells, b, hus, _, hdst, hb => by
    rw [Nat.zero_mul, length_eq_zero_iff] at hus
    subst hus
    rw [Nat.zero_mul] at hb
    exact returns_done ⟨hb, Put.nil hdst⟩
  | n + 1, start, us, cells, b, hus, hlt, hdst, hb => by
    obtain ⟨vs, us, rfl, hvs, hus'⟩ := exists_group hus
    rw [length_append] at hdst
    obtain ⟨hload, hrest⟩ := hb.group hvs
    have hsucc : dst + start * groupSize + groupSize = dst + (start + 1) * groupSize := by ring
    refine (returns_unpackGroupAligned hvs (fun v hv => hlt v (mem_append_left us hv)) hload (by omega)
      hwidth).bind ?_
    rintro ⟨b', cells'⟩ ⟨rfl, hput⟩
    have hlength : cells'.length = cells.length := hput.length
    refine (returns_unpackGroupsAligned hwidth hus' (fun v hv => hlt v (mem_append_right vs hv)) (by omega)
      hrest).mono fun s hs => ⟨hs.1, hput.trans ?_⟩
    rw [hvs, hsucc]
    exact hs.2

theorem returns_bitUnpackAlignedInternal {n : Nat} {cells : List Nat} (hwidth : width ≤ size * 8)
    (hus : us.length = n * groupSize) (hlt : ∀ v ∈ us, v < 2 ^ width) (hdst : dst + us.length ≤ cells.length)
    (hb : Remains page stop limit b (toLittleEndian (n * (4 * width)) (packBits width us) ++ bytes)) :
    (bitUnpackAlignedInternal page size b cells dst (n * groupSize) width).Returns fun s =>
      Remains page stop limit s.1 bytes ∧ Put cells dst us s.2 := by
  have hgroups : n * groupSize / groupSize = n := Nat.mul_div_cancel _ (by decide)
  have hbytes : n * groupSize * width / bitpackDlen = n * (4 * width) := by
    unfold groupSize bitpackDlen
    rw [show n * 32 * width = n * (4 * width) * 8 by ring]
    exact Nat.mul_div_cancel _ (by decide)
  have hstart : dst + 0 * groupSize = dst := by rw [Nat.zero_mul, Nat.add_zero]
  unfold bitUnpackAlignedInternal checkTargetWidth
  rw [if_neg (by unfold bitpackDlen; omega), done_bind, hgroups, hbytes]
  split
  · refine (returns_unPackBufferGroups (by rw [Nat.zero_mul, Nat.add_zero]) hus hlt (hstart.symm ▸ hdst) hb).bind ?_
    intro cells' hput
    exact returns_done ⟨hb.unsafeInc (length_toLittleEndian _ _), hstart ▸ hput⟩
  · have h := @returns_unpackGroupsAligned page stop limit bytes size width dst hwidth n 0 us cells b hus hlt
      (hstart.symm ▸ hdst) hb
    rwa [hstart] at h

end Aligned

theorem bitUnpackAligned_packGroup {cells : List Nat} (hlen : values.length = groupSize)
    (hlt : ∀ v ∈ values, v < 2 ^ width) (hwidth : width ≤ 64) (hcells : cells.length = groupSize)
    (hb : Remains page stop limit b (packGroup values width ++ bytes)) :
    (bitUnpackAligned page 8 b cells 0 groupSize width).Returns fun s =>
      Remains page stop limit s.1 bytes ∧ s.2 = values := by
  have hread : groupSize * width % 2 ^ 64 / bitpackDlen = 4 * width := by
    unfold groupSize bitpackDlen
    omega
  have havailable := hb.available
  rw [length_packGroup] at havailable
  unfold bitUnpackAligned checkWidth bitpackMasksSize
  rw [if_neg (by omega), done_bind, if_neg (by decide), hread, havailable, done_bind]
  have hone : Remains page stop limit b (toLittleEndian (1 * (4 * width)) (packBits width values) ++ bytes) := by
    rwa [Nat.one_mul]
  have h := returns_bitUnpackAlignedInternal (show width ≤ 8 * 8 by omega)
    (show values.length = 1 * groupSize by rw [hlen, Nat.one_mul]) hlt (show 0 + values.length ≤ cells.length by omega) hone
  refine h.mono fun s hs => ⟨hs.1, ?_⟩
  have htake := hs.2.take
  rwa [hlen, ← hcells, ← hs.2.length, Nat.zero_add, take_length, take_zero, nil_append] at htake

/-! ## The encoder -/

def blockSizeInValues : Nat := 2048

def numberOfMiniblocksInABlock : Nat := 8

def numberOfValuesInAMiniblock : Nat := blockSizeInValues / numberOfMiniblocksInABlock

/-- `MinValue<int64_t>`, on the bits of the integers. -/
def minValue (a b : Nat) : Nat := if (BitVec.ofNat 64 a).slt (BitVec.ofNat 64 b) then a else b

/-- The first `block_count` values of `data` are kept, and no others are read. -/
structure DbpEncoder where
  totalValueCount : UInt64
  count : Nat
  previousValue : Nat
  minDelta : Nat
  data : List Nat

/-- The integers that are written, which are the specializations of the encoder. -/
def Target.IsInteger (t : Target) : Prop := t.size = 4 ∨ t.size = 8

instance (t : Target) : Decidable t.IsInteger := inferInstanceAs (Decidable (_ ∨ _))

namespace DbpEncoder

def blockCount (e : DbpEncoder) : Nat := e.data.length

/-- How many miniblocks hold so many values. -/
def numberOfMiniblocks (blockCount : Nat) : Nat :=
  (blockCount + numberOfValuesInAMiniblock - 1) / numberOfValuesInAMiniblock

/-- The differences of a block without the smallest one, filled up to full miniblocks. -/
def relative (minDelta : Nat) (data : List Nat) : List Nat :=
  data.map (sub64 · minDelta) ++
    List.replicate (numberOfMiniblocks data.length * numberOfValuesInAMiniblock - data.length) 0

/-- `&data[miniblock_idx * NUMBER_OF_VALUES_IN_A_MINIBLOCK]`, as the values of a miniblock. -/
def miniblock (values : List Nat) (miniblockIdx : Nat) : List Nat :=
  (values.drop (miniblockIdx * numberOfValuesInAMiniblock)).take numberOfValuesInAMiniblock

/-- The bit width of a miniblock. Those that are not needed have none. -/
def bitwidth (minDelta : Nat) (data : List Nat) (miniblockIdx : Nat) : Nat :=
  if miniblockIdx < numberOfMiniblocks data.length then minimumBitWidth (miniblock (relative minDelta data) miniblockIdx)
  else 0

def listOfBitwidths (minDelta : Nat) (data : List Nat) : List UInt8 :=
  (List.range numberOfMiniblocksInABlock).map fun miniblockIdx => UInt8.ofNat (bitwidth minDelta data miniblockIdx)

/-- What `WriteBlock` writes. -/
def blockBytes (minDelta : Nat) (data : List Nat) : List UInt8 :=
  varintEncode (intToZigzag minDelta) ++ listOfBitwidths minDelta data ++
    (List.range (numberOfMiniblocks data.length)).flatMap fun miniblockIdx =>
      bitPackAligned (miniblock (relative minDelta data) miniblockIdx) numberOfValuesInAMiniblock
        (bitwidth minDelta data miniblockIdx)

def writeBlock (e : DbpEncoder) (writer : List UInt8) : DbpEncoder × List UInt8 :=
  ({ e with count := e.count + e.blockCount, minDelta := 2 ^ 63 - 1, data := [] },
    writer ++ blockBytes e.minDelta e.data)

def beginWriteInternal (e : DbpEncoder) (writer : List UInt8) (firstValue : Nat) : DbpEncoder × List UInt8 :=
  ({ e with
      count := if e.totalValueCount ≠ 0 then e.count + 1 else e.count
      previousValue := firstValue
      minDelta := 2 ^ 63 - 1
      data := [] },
    writer ++ varintEncode blockSizeInValues ++ varintEncode numberOfMiniblocksInABlock ++
      varintEncode e.totalValueCount.toNat ++ varintEncode (intToZigzag firstValue))

def writeValueInternal (e : DbpEncoder) (writer : List UInt8) (value : Nat) : DbpEncoder × List UInt8 :=
  let delta := sub64 value e.previousValue
  let e := { e with previousValue := value, minDelta := minValue e.minDelta delta, data := e.data ++ [delta] }
  if e.blockCount = blockSizeInValues then e.writeBlock writer else (e, writer)

/-- `BeginWrite<T>`, of a value by its bits. -/
def beginWrite (t : Target) (e : DbpEncoder) (writer : List UInt8) (firstValue : BitVec (t.size * 8)) :
    Outcome (DbpEncoder × List UInt8) :=
  if t.IsInteger then done (e.beginWriteInternal writer (t.cast firstValue.toNat))
  else error "DbpEncoder should only be used with integers"

def writeValue (t : Target) (e : DbpEncoder) (writer : List UInt8) (value : BitVec (t.size * 8)) :
    Outcome (DbpEncoder × List UInt8) :=
  if t.IsInteger then done (e.writeValueInternal writer (t.cast value.toNat))
  else error "DbpEncoder should only be used with integers"

def finishWrite (e : DbpEncoder) (writer : List UInt8) : Outcome (List UInt8) :=
  if e.count + e.blockCount ≠ e.totalValueCount.toNat then
    error "value count mismatch when writing DELTA_BINARY_PACKED"
  else if e.blockCount ≠ 0 then done (e.writeBlock writer).2
  else done writer

/-- The values after the first one are written, and the write is finished. -/
def writeValues (t : Target) : DbpEncoder → List UInt8 → List (BitVec (t.size * 8)) → Outcome (List UInt8)
  | e, writer, [] => e.finishWrite writer
  | e, writer, value :: values => do
    let (e, writer) ← writeValue t e writer value
    writeValues t e writer values

end DbpEncoder

/-- The constructor of `DbpEncoder`. What it does not set is set by `BeginWrite`. -/
def dbpEncoder (totalValueCount : UInt64) : DbpEncoder := ⟨totalValueCount, 0, 0, 0, []⟩

/-- What an encoder writes for values. -/
def dbpEncode (t : Target) (totalValueCount : UInt64) (firstValue : BitVec (t.size * 8))
    (values : List (BitVec (t.size * 8))) : Outcome (List UInt8) := do
  let (e, writer) ← (dbpEncoder totalValueCount).beginWrite t [] firstValue
  e.writeValues t writer values

/-! ## What is written -/

/-- The differences of the values to the ones before them. -/
def deltas : Nat → List Nat → List Nat
  | _, [] => []
  | previous, value :: values => sub64 value previous :: deltas value values

/-- The smallest difference of a block. -/
def smallest (data : List Nat) : Nat := data.foldl minValue (2 ^ 63 - 1)

theorem smallest_nil : smallest [] = 2 ^ 63 - 1 := List.foldl_nil

/-- The bytes of a block. -/
def bytesOf (data : List Nat) : List UInt8 := DbpEncoder.blockBytes (smallest data) data

/-- The bytes in front of the blocks. -/
def headerBytes (totalValueCount firstValue : Nat) : List UInt8 :=
  varintEncode blockSizeInValues ++ varintEncode numberOfMiniblocksInABlock ++ varintEncode totalValueCount ++
    varintEncode (intToZigzag firstValue)

/-- The integers of a type, as 64 bits. -/
def casts (t : Target) (values : List (BitVec (t.size * 8))) : List Nat := values.map fun value => t.cast value.toNat

@[simp] theorem deltas_nil (previous : Nat) : deltas previous [] = [] := rfl

@[simp] theorem deltas_cons (previous value : Nat) (values : List Nat) :
    deltas previous (value :: values) = sub64 value previous :: deltas value values := rfl

@[simp] theorem casts_nil (t : Target) : casts t [] = [] := rfl

@[simp] theorem casts_cons (t : Target) (value : BitVec (t.size * 8)) (values : List (BitVec (t.size * 8))) :
    casts t (value :: values) = t.cast value.toNat :: casts t values := rfl

namespace DbpEncoder

variable {t : Target}

/-- The encoder with one more difference, before its block is written. -/
def gather (e : DbpEncoder) (value : Nat) : DbpEncoder :=
  { e with
    previousValue := value
    minDelta := minValue e.minDelta (sub64 value e.previousValue)
    data := e.data ++ [sub64 value e.previousValue] }

variable {e : DbpEncoder}

theorem smallest_gather (h : e.minDelta = smallest e.data) (value : Nat) :
    (e.gather value).minDelta = smallest (e.gather value).data := by
  dsimp only [gather]
  rw [h, smallest, smallest, List.foldl_append, List.foldl_cons, List.foldl_nil]

theorem writeBlock_eq (h : e.minDelta = smallest e.data) (writer : List UInt8) :
    e.writeBlock writer =
      ({ e with count := e.count + e.data.length, minDelta := smallest [], data := [] }, writer ++ bytesOf e.data) := by
  rw [writeBlock, bytesOf, h, smallest_nil, blockCount]

theorem writeValue_eq (ht : t.IsInteger) {writer : List UInt8} {value : BitVec (t.size * 8)} :
    e.writeValue t writer value = done (if (e.gather (t.cast value.toNat)).data.length = blockSizeInValues then
      (e.gather (t.cast value.toNat)).writeBlock writer else (e.gather (t.cast value.toNat), writer)) :=
  if_pos ht

theorem writeValues_eq (ht : t.IsInteger) : ∀ {values : List (BitVec (t.size * 8))} {e : DbpEncoder} {writer : List UInt8},
    e.minDelta = smallest e.data → e.data.length < blockSizeInValues →
    e.count + e.data.length + values.length = e.totalValueCount.toNat →
    ∃ blocks, Chunked blockSizeInValues blocks ∧
      blocks.flatten = e.data ++ deltas e.previousValue (casts t values) ∧
      e.writeValues t writer values = done (writer ++ blocks.flatMap bytesOf)
  | [], e, writer, hmin, hlt, hcount => by
    unfold writeValues finishWrite blockCount
    rw [List.length_nil, Nat.add_zero] at hcount
    rw [if_neg (not_not.2 hcount)]
    by_cases hempty : e.data.length = 0
    · rw [if_neg (not_not.2 hempty)]
      have hnil := List.length_eq_zero_iff.1 hempty
      exact ⟨[], Chunked.nil, by simp [hnil], by simp⟩
    · rw [if_pos hempty, writeBlock_eq hmin]
      exact ⟨[e.data], Chunked.last (by omega) hlt.le, by simp, by simp⟩
  | value :: values, e, writer, hmin, hlt, hcount => by
    have hmin' := smallest_gather hmin (t.cast value.toNat)
    have hdata : (e.gather (t.cast value.toNat)).data = e.data ++ [sub64 (t.cast value.toNat) e.previousValue] := rfl
    have hlength : (e.gather (t.cast value.toNat)).data.length = e.data.length + 1 := by simp [hdata]
    have hflat : e.data ++ deltas e.previousValue (casts t (value :: values)) =
        (e.gather (t.cast value.toNat)).data ++ deltas (t.cast value.toNat) (casts t values) := by
      simp [hdata]
    rw [List.length_cons] at hcount
    unfold writeValues
    rw [writeValue_eq ht, done_bind, hflat]
    by_cases hfull : (e.gather (t.cast value.toNat)).data.length = blockSizeInValues
    · rw [if_pos hfull, writeBlock_eq hmin']
      obtain ⟨blocks, hblocks, hflatten, hwrite⟩ := @writeValues_eq ht values
        { e.gather (t.cast value.toNat) with
          count := e.count + (e.gather (t.cast value.toNat)).data.length, minDelta := smallest [], data := [] }
        (writer ++ bytesOf (e.gather (t.cast value.toNat)).data) rfl (Nat.zero_lt_succ _) (by
          show e.count + (e.gather (t.cast value.toNat)).data.length + 0 + values.length = e.totalValueCount.toNat
          omega)
      refine ⟨_ :: blocks, Chunked.cons (Nat.zero_lt_succ _) hfull hblocks, ?_, ?_⟩
      · rw [List.flatten_cons, hflatten]
        rfl
      · rw [List.flatMap_cons, ← List.append_assoc]
        exact hwrite
    · rw [if_neg hfull]
      exact writeValues_eq ht hmin' (by omega) (by
        show e.count + (e.gather (t.cast value.toNat)).data.length + values.length = e.totalValueCount.toNat
        omega)

end DbpEncoder

theorem dbpEncode_eq {t : Target} (ht : t.IsInteger) {totalValueCount : UInt64} {firstValue : BitVec (t.size * 8)}
    {values : List (BitVec (t.size * 8))} (hcount : values.length + 1 = totalValueCount.toNat) :
    ∃ blocks, Chunked blockSizeInValues blocks ∧
      blocks.flatten = deltas (t.cast firstValue.toNat) (casts t values) ∧
      dbpEncode t totalValueCount firstValue values =
        done (headerBytes totalValueCount.toNat (t.cast firstValue.toNat) ++ blocks.flatMap bytesOf) := by
  have hne : totalValueCount ≠ 0 := by
    rintro rfl
    simp at hcount
  unfold dbpEncode DbpEncoder.beginWrite
  rw [if_pos ht, done_bind]
  unfold DbpEncoder.beginWriteInternal dbpEncoder headerBytes
  dsimp only
  rw [if_pos hne, List.nil_append]
  refine @DbpEncoder.writeValues_eq t ht values ⟨totalValueCount, 0 + 1, t.cast firstValue.toNat, 2 ^ 63 - 1, []⟩ _
    smallest_nil.symm (Nat.zero_lt_succ _) ?_
  dsimp only
  rw [← hcount, List.length_nil]
  omega

end Haybarn.Parquet
