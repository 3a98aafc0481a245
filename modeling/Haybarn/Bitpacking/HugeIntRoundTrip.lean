/-
What is packed is unpacked, for every width: after packing, the bits of the words are those of the values one after the
other, each cut to the width, and unpacking reads them back. A value merges into the word that the value before it ends in,
which holds no bits behind that value.
-/
import Haybarn.Bitpacking.HugeInt
import Mathlib.Data.List.Range
import Mathlib.Data.Nat.Bitwise
import Mathlib.Algebra.Group.Nat.Defs

namespace Haybarn.Bitpacking.HugeInt

open List Nat

/-! ## Bits -/

/-- A bit of the buffer, where the bits of a word are behind those of the word before. -/
def bitAt (words : Nat → BitVec 32) (b : Nat) : Bool := (words (b / 32)).getLsbD (b % 32)

section Bits

variable {word : BitVec 32} {value : Uhugeint} {shr delta j k n : Nat}

theorem getLsbD_mod_two_pow {m : Nat} (x : BitVec m) (d : Nat) :
    (x % (1#m <<< d)).getLsbD j = (decide (j < d) && x.getLsbD j) := by
  by_cases hd : d < m
  · have hone : (1#m <<< d).toNat = 2 ^ d := by
      have hlt : 2 ^ d < 2 ^ m := Nat.pow_lt_pow_right (by omega) hd
      have hm : 1 % 2 ^ m = 1 := Nat.mod_eq_of_lt (Nat.one_lt_two_pow (by omega))
      rw [BitVec.toNat_shiftLeft, BitVec.toNat_ofNat, hm, Nat.shiftLeft_eq, one_mul, Nat.mod_eq_of_lt hlt]
    rw [← BitVec.testBit_toNat, BitVec.toNat_umod, hone, Nat.testBit_mod_two_pow, BitVec.testBit_toNat]
  · have hzero : 1#m <<< d = 0#m := by
      apply BitVec.eq_of_getLsbD_eq
      intro i hi
      simp only [BitVec.getLsbD_shiftLeft, BitVec.getLsbD_zero]
      simp
      omega
    rw [hzero, BitVec.umod_zero]
    by_cases hj : j < d
    · simp [hj]
    · rw [BitVec.getLsbD_of_ge x j (by omega)]
      simp

theorem getLsbD_mask (hd : delta < 128) : (1#128 <<< delta - 1).getLsbD j = decide (j < delta) := by
  have hlt : 2 ^ delta < 2 ^ 128 := Nat.pow_lt_pow_right (by omega) hd
  have hpos := Nat.two_pow_pos delta
  have hone : (1#128 <<< delta).toNat = 2 ^ delta := by
    rw [BitVec.toNat_shiftLeft, BitVec.toNat_ofNat, Nat.shiftLeft_eq, Nat.mod_eq_of_lt (by omega : 1 < 2 ^ 128), one_mul,
      Nat.mod_eq_of_lt hlt]
  have hmask : (1#128 <<< delta - 1).toNat = 2 ^ delta - 1 := by
    have h1 : (1 : BitVec 128).toNat = 1 := rfl
    rw [BitVec.toNat_sub, hone, h1]
    omega
  rw [← BitVec.testBit_toNat, hmask, Nat.testBit_two_pow_sub_one]

theorem getLsbD_wide_shr : (wide word >>> shr).getLsbD j =
    (decide ((shr + j) / 32 = 0) && word.getLsbD ((shr + j) % 32)) := by
  rw [BitVec.getLsbD_ushiftRight, wide, BitVec.getLsbD_setWidth]
  by_cases h : shr + j < 32
  · have h0 : (shr + j) / 32 = 0 := by omega
    have h1 : (shr + j) % 32 = shr + j := by omega
    have h2 : shr + j < 128 := by omega
    simp [h0, h1, h2]
  · have h0 : (shr + j) / 32 ≠ 0 := by omega
    rw [BitVec.getLsbD_of_ge word _ (by omega)]
    simp [h0]

theorem getLsbD_wide_shl (hshr : shr < 32) (hk : 0 < k) (hj : j < 128) : (wide word <<< (32 * k - shr)).getLsbD j =
    (decide ((shr + j) / 32 = k) && word.getLsbD ((shr + j) % 32)) := by
  rw [BitVec.getLsbD_shiftLeft, wide, BitVec.getLsbD_setWidth]
  rcases lt_trichotomy ((shr + j) / 32) k with h | h | h
  · have h0 : j < 32 * k - shr := by omega
    simp [h0, h.ne]
  · have h0 : ¬ j < 32 * k - shr := by omega
    have h1 : j - (32 * k - shr) = (shr + j) % 32 := by omega
    have h2 : (shr + j) % 32 < 128 := by omega
    simp [h0, h1, h2, h, hj]
  · rw [BitVec.getLsbD_of_ge word (j - (32 * k - shr)) (by omega)]
    simp [h.ne']

theorem getLsbD_lowBits : (lowBits word n).getLsbD j = (decide (j < n) && word.getLsbD j) :=
  getLsbD_mod_two_pow word n

end Bits

/-! ## Reading -/

section Reading

variable {i : Input} {delta shr j : Nat}

/-- The input when words have been read, from its position on, and it has moved. -/
def Input.moved (i : Input) (count steps : Nat) : Input :=
  { i with pos := i.pos + steps, read := i.read ++ List.range' i.pos count }

theorem unpackSingle_input (hdelta : 0 < delta) (hdelta' : delta < 128) (hshr : shr < 32) :
    (unpackSingle i delta shr).2 = i.moved ((delta + shr + 31) / 32) ((delta + shr) / 32) := by
  have hread : ∀ c s, (delta + shr + 31) / 32 = c → (delta + shr) / 32 = s →
      i.moved ((delta + shr + 31) / 32) ((delta + shr) / 32) = i.moved c s := by
    rintro c s rfl rfl
    rfl
  unfold unpackSingle
  split_ifs with h1 h2 h3 h4 h5 h6 h7 h8
  · rw [hread 1 0 (by omega) (by omega)]
    rfl
  · rw [hread 2 1 (by omega) (by omega)]
    simp [Input.get, Input.advance, Input.moved, range']
  · rw [hread 1 1 (by omega) (by omega)]
    rfl
  · rw [hread 3 2 (by omega) (by omega)]
    simp [Input.get, Input.advance, Input.moved, range']
  · rw [hread 2 2 (by omega) (by omega)]
    simp [Input.get, Input.advance, Input.moved, range']
  · rw [hread 4 3 (by omega) (by omega)]
    simp [Input.get, Input.advance, Input.moved, range']
  · rw [hread 3 3 (by omega) (by omega)]
    simp [Input.get, Input.advance, Input.moved, range']
  · rw [hread 5 4 (by omega) (by omega)]
    simp [Input.get, Input.advance, Input.moved, range']
  · rw [hread 4 4 (by omega) (by omega)]
    simp [Input.get, Input.advance, Input.moved, range']

theorem bitAt_eq {words : Nat → BitVec 32} {pos k : Nat} (hk : (shr + j) / 32 = k) :
    bitAt words (32 * pos + shr + j) = (words (pos + k)).getLsbD ((shr + j) % 32) := by
  have hword : (32 * pos + shr + j) / 32 = pos + k := by omega
  have hbit : (32 * pos + shr + j) % 32 = (shr + j) % 32 := by omega
  rw [bitAt, hword, hbit]

theorem unpackSingle_bits (hshr : shr < 32) (hj : j < 128) :
    (unpackSingle i delta shr).1.getLsbD j = (decide (j < delta) && bitAt i.words (32 * i.pos + shr + j)) := by
  have hword : ∀ k, 0 < k → ∀ word : BitVec 32, (wide word <<< (32 * k - shr)).getLsbD j =
      (decide ((shr + j) / 32 = k) && word.getLsbD ((shr + j) % 32)) := fun k hk _ => getLsbD_wide_shl hshr hk hj
  have h1 := hword 1 one_pos
  have h2 := hword 2 (by omega)
  have h3 := hword 3 (by omega)
  have h4 := hword 4 (by omega)
  have hq : (shr + j) / 32 = 0 ∨ (shr + j) / 32 = 1 ∨ (shr + j) / 32 = 2 ∨ (shr + j) / 32 = 3 ∨ (shr + j) / 32 = 4 := by
    omega
  unfold unpackSingle
  -- whichever word the bit is in, it is the only one of the words read that has a bit there
  split_ifs
  all_goals
    simp only [mul_one, reduceMul] at h1 h2 h3 h4
    simp only [Input.get, Input.advance, BitVec.getLsbD_or, getLsbD_mod_two_pow, getLsbD_wide_shr, h1, h2, h3, h4,
      getLsbD_lowBits]
    rcases hq with hq | hq | hq | hq | hq <;> rw [bitAt_eq hq] <;> simp [hq] <;> grind

end Reading

/-! ## Writing -/

section Writing

variable {value : Uhugeint} {o o' : Output} {delta shl pos j k n : Nat}

/-- A bit of the word `k` that a value is written to: of what was there before, or of the value. -/
def Output.spread (o : Output) (pos : Nat) (value : Uhugeint) (delta shl k j : Nat) : Bool :=
  (decide (k = 0 ∧ shl ≠ 0) && (o.words pos).getLsbD j) ||
    (decide (shl ≤ 32 * k + j ∧ 32 * k + j < shl + delta) && value.getLsbD (32 * k + j - shl))

/-- The value has been written to `count` words, from a position on. -/
structure Spread (o o' : Output) (pos : Nat) (value : Uhugeint) (delta shl count : Nat) : Prop where
  written : o'.written = o.written ++ List.range' pos count
  bits : ∀ k < count, ∀ j < 32, (o'.words (pos + k)).getLsbD j = o.spread pos value delta shl k j
  others : ∀ w, w < pos ∨ pos + count ≤ w → o'.words w = o.words w

theorem getLsbD_low : (low value).getLsbD j = (decide (j < 32) && value.getLsbD j) := by
  rw [low, BitVec.getLsbD_setWidth]

theorem Spread.store {count : Nat} (h : Spread o o' pos value delta shl count) {word : BitVec 32}
    (hpos : o'.out + k = pos + count) (hword : ∀ j < 32, word.getLsbD j = o.spread pos value delta shl count j) :
    Spread o (o'.store k word) pos value delta shl (count + 1) := by
  constructor
  · rw [Output.store, h.written, hpos, append_assoc, range'_1_concat]
  · intro k' hk' j hj
    rw [Output.store, hpos]
    dsimp only
    rcases Nat.lt_succ_iff_lt_or_eq.1 hk' with hlt | rfl
    · rw [Function.update_of_ne (by omega)]
      exact h.bits k' hlt j hj
    · rw [Function.update_self]
      exact hword j hj
  · intro w hw
    rw [Output.store, hpos]
    dsimp only
    rw [Function.update_of_ne (by omega)]
    exact h.others w (by omega)

theorem Spread.advance {count : Nat} (h : Spread o o' pos value delta shl count) (k : Nat) :
    Spread o (o'.advance k) pos value delta shl count := ⟨h.written, h.bits, h.others⟩

theorem spread_nil (o : Output) (pos : Nat) (value : Uhugeint) (delta shl : Nat) : Spread o o pos value delta shl 0 := by
  constructor
  · simp
  · simp
  · exact fun _ _ => rfl

theorem spread_packFirst {aligned shifted : BitVec 32} (haligned : shl = 0 → ∀ j < 32, aligned.getLsbD j =
    o.spread o.out value delta shl 0 j) (hshifted : shl ≠ 0 → ∀ j < 32, shifted.getLsbD j =
    (decide (shl ≤ j ∧ j < shl + delta) && value.getLsbD (j - shl))) :
    Spread o (packFirst o shl aligned shifted) o.out value delta shl 1 := by
  unfold packFirst
  split
  · rename_i h
    exact (spread_nil o o.out value delta shl).store rfl (haligned h)
  · rename_i h
    refine (spread_nil o o.out value delta shl).store rfl fun j hj => ?_
    rw [BitVec.getLsbD_or, hshifted h j hj]
    simp [Output.spread, h]

@[simp] theorem Output.store_out {word : BitVec 32} : (o.store k word).out = o.out := rfl

@[simp] theorem Output.merge_out {word : BitVec 32} : (o.merge k word).out = o.out := rfl

@[simp] theorem Output.advance_out : (o.advance k).out = o.out + k := rfl

@[simp] theorem packFirst_out {aligned shifted : BitVec 32} : (packFirst o shl aligned shifted).out = o.out := by
  unfold packFirst
  split <;> rfl

theorem spread_shifted (hdelta : delta < 128) (hshl : shl < 32) (hk : 0 < k) (j : Nat) (hj : j < 32) :
    (low ((value &&& (1#128 <<< delta - 1)) >>> (32 * k - shl))).getLsbD j = o.spread pos value delta shl k j := by
  have hbit : 32 * k - shl + j = 32 * k + j - shl := by omega
  have hlt : 32 * k + j - shl < delta ↔ 32 * k + j < shl + delta := by omega
  have hle : shl ≤ 32 * k + j := by omega
  rw [getLsbD_low, BitVec.getLsbD_ushiftRight, BitVec.getLsbD_and, getLsbD_mask hdelta, hbit]
  simp [Output.spread, hj, hlt, hle, hk.ne', Bool.and_comm]

theorem spread_aligned (hdelta : delta < 128) (j : Nat) (hj : j < 32) :
    (low (value &&& (1#128 <<< delta - 1))).getLsbD j = o.spread pos value delta 0 0 j := by
  rw [getLsbD_low, BitVec.getLsbD_and, getLsbD_mask hdelta]
  simp [Output.spread, hj, Bool.and_comm]

theorem spread_merged (hdelta : delta < 128) (j : Nat) (hj : j < 32) :
    (low ((value &&& (1#128 <<< delta - 1)) <<< shl)).getLsbD j =
      (decide (shl ≤ j ∧ j < shl + delta) && value.getLsbD (j - shl)) := by
  have hlt : shl ≤ j → (j - shl < delta ↔ j < shl + delta) := by omega
  rw [getLsbD_low, BitVec.getLsbD_shiftLeft, BitVec.getLsbD_and, getLsbD_mask hdelta]
  by_cases hle : shl ≤ j
  · have h128 : j < 128 := by omega
    simp [hj, hle, h128, hlt hle, Bool.and_comm]
  · simp [hle]

theorem spread_merged_full (hfull : 32 ≤ delta + shl) (j : Nat) (hj : j < 32) :
    (low (value <<< shl)).getLsbD j = (decide (shl ≤ j ∧ j < shl + delta) && value.getLsbD (j - shl)) := by
  rw [getLsbD_low, BitVec.getLsbD_shiftLeft]
  by_cases hle : shl ≤ j
  · have h128 : j < 128 := by omega
    have hlt : j < shl + delta := by omega
    simp [hj, hle, h128, hlt]
  · simp [hle]

/-- `PackSingle` writes the words that the value reaches, and moves to the one that it ends in. -/
theorem packSingle_spec (hpos : 0 < delta) (hdelta : delta < 128) (hshl : shl < 32) :
    Spread o (packSingle value o delta shl (1#128 <<< delta - 1)) o.out value delta shl ((delta + shl + 31) / 32) ∧
      (packSingle value o delta shl (1#128 <<< delta - 1)).out = o.out + (delta + shl) / 32 := by
  have hcount : ∀ c s, (delta + shl + 31) / 32 = c → (delta + shl) / 32 = s → ∀ o' : Output,
      Spread o o' o.out value delta shl c ∧ o'.out = o.out + s →
        Spread o o' o.out value delta shl ((delta + shl + 31) / 32) ∧ o'.out = o.out + (delta + shl) / 32 := by
    rintro c s rfl rfl o' h
    exact h
  have hword : ∀ k, 0 < k → ∀ j < 32,
      (low ((value &&& (1#128 <<< delta - 1)) >>> (32 * k - shl))).getLsbD j = o.spread o.out value delta shl k j :=
    fun k hk => spread_shifted hdelta hshl hk
  have h1 := hword 1 one_pos
  have h2 := hword 2 (by omega)
  have h3 := hword 3 (by omega)
  have h4 := hword 4 (by omega)
  have haligned : shl = 0 → ∀ j < 32, (low (value &&& (1#128 <<< delta - 1))).getLsbD j =
      o.spread o.out value delta shl 0 j := by
    rintro rfl
    exact spread_aligned hdelta
  have hmasked : Spread o _ o.out value delta shl 1 := spread_packFirst haligned fun _ => spread_merged hdelta
  have hfull : 32 ≤ delta + shl → Spread o _ o.out value delta shl 1 := fun h =>
    spread_packFirst haligned fun _ => spread_merged_full h
  -- where the value reaches the fifth word, its first word is shared
  have hmerged : 128 ≤ delta + shl → Spread o ((o.merge 0 (low (value <<< shl))).store 1
      (low ((value &&& (1#128 <<< delta - 1)) >>> (32 - shl)))) o.out value delta shl 2 := by
    intro h
    have hfirst := hfull (by omega)
    rw [packFirst, if_neg (by omega)] at hfirst
    exact hfirst.store (by simp) h1
  unfold packSingle
  split_ifs
  · exact hcount 1 0 (by omega) (by omega) _ ⟨hmasked, packFirst_out⟩
  · exact hcount 2 1 (by omega) (by omega) _ ⟨(hmasked.advance 1).store (by simp) h1, by simp⟩
  · exact hcount 1 1 (by omega) (by omega) _ ⟨hmasked.advance 1, by simp⟩
  · have hsecond := (hfull (by omega)).store (k := 1) (by simp) h1
    exact hcount 3 2 (by omega) (by omega) _ ⟨(hsecond.advance 2).store (by simp) h2, by simp⟩
  · have hsecond := (hfull (by omega)).store (k := 1) (by simp) h1
    exact hcount 2 2 (by omega) (by omega) _ ⟨hsecond.advance 2, by simp⟩
  · have hsecond := (hfull (by omega)).store (k := 1) (by simp) h1
    have hthird := hsecond.store (k := 2) (by simp) h2
    exact hcount 4 3 (by omega) (by omega) _ ⟨(hthird.advance 3).store (by simp) h3, by simp⟩
  · have hsecond := (hfull (by omega)).store (k := 1) (by simp) h1
    have hthird := hsecond.store (k := 2) (by simp) h2
    exact hcount 3 3 (by omega) (by omega) _ ⟨hthird.advance 3, by simp⟩
  · have hthird := (hmerged (by omega)).store (k := 2) (by simp) h2
    have hfourth := hthird.store (k := 3) (by simp) h3
    exact hcount 5 4 (by omega) (by omega) _ ⟨(hfourth.advance 4).store (by simp) h4, by simp⟩
  · have hthird := (hmerged (by omega)).store (k := 2) (by simp) h2
    have hfourth := hthird.store (k := 3) (by simp) h3
    exact hcount 4 4 (by omega) (by omega) _ ⟨hfourth.advance 4, by simp⟩

theorem lastShift_lt (delta : Nat) : delta * 31 % 32 < 32 := mod_lt _ (by omega)

theorem lastShift_add (h : delta % 32 ≠ 0) : delta + delta * 31 % 32 = 32 * (delta / 32 + 1) := by
  omega

/-- `PackLast` writes the words that the last value reaches. -/
theorem packLast_spec (hdelta : delta < 128) (h : delta % 32 ≠ 0) :
    Spread o (packLast value o delta) o.out value delta (delta * 31 % 32) (delta / 32 + 1) := by
  have hadd := lastShift_add h
  have hlt := lastShift_lt delta
  unfold packLast
  dsimp only
  generalize delta * 31 % 32 = shift at hadd hlt ⊢
  have hmerge : Spread o (o.merge 0 (low (value <<< shift))) o.out value delta shift 1 := by
    have hne : shift ≠ 0 := by omega
    have hfirst : Spread o _ o.out value delta shift 1 :=
      @spread_packFirst value o delta shift 0 _ (fun h0 => absurd h0 hne) fun _ => spread_merged_full (by omega)
    rwa [packFirst, if_neg hne] at hfirst
  -- a word behind the first is full of the value's bits
  have hword : ∀ k, 0 < k → 32 * k < delta → ∀ j < 32,
      (low (value >>> (32 * k - shift))).getLsbD j = o.spread o.out value delta shift k j := by
    intro k hk hreach j hj
    have hbit : 32 * k - shift + j = 32 * k + j - shift := by omega
    have hin : 32 * k + j < shift + delta := by omega
    have hle : shift ≤ 32 * k + j := by omega
    rw [getLsbD_low, BitVec.getLsbD_ushiftRight, hbit]
    simp [Output.spread, hj, hle, hin, hk.ne']
  have hstep : ∀ k o', 0 < k → 32 * k < delta → Spread o o' o.out value delta shift k → o'.out = o.out →
      Spread o (packLastWord value delta shift k o') o.out value delta shift (k + 1) ∧
        (packLastWord value delta shift k o').out = o.out := by
    intro k o' hk hreach hs hout
    rw [packLastWord, if_pos hreach]
    exact ⟨hs.store (by rw [hout]) (hword k hk hreach), hout⟩
  have hstop : ∀ k o', ¬ 32 * k < delta → packLastWord value delta shift k o' = o' :=
    fun k o' hreach => if_neg hreach
  rcases lt_or_ge 96 delta with h3 | h3
  · have hsecond := hstep 1 _ one_pos (by omega) hmerge rfl
    have hthird := hstep 2 _ (by omega) (by omega) hsecond.1 hsecond.2
    have hfourth := hstep 3 _ (by omega) (by omega) hthird.1 hthird.2
    have hcount : delta / 32 = 3 := by omega
    rw [hcount]
    exact hfourth.1
  · rw [hstop 3 _ (by omega)]
    rcases lt_or_ge 64 delta with h2 | h2
    · have hsecond := hstep 1 _ one_pos (by omega) hmerge rfl
      have hthird := hstep 2 _ (by omega) (by omega) hsecond.1 hsecond.2
      have hcount : delta / 32 = 2 := by omega
      rw [hcount]
      exact hthird.1
    · rw [hstop 2 _ (by omega)]
      rcases lt_or_ge 32 delta with h1 | h1
      · have hsecond := hstep 1 _ one_pos (by omega) hmerge rfl
        have hcount : delta / 32 = 1 := by omega
        rw [hcount]
        exact hsecond.1
      · rw [hstop 1 _ (by omega)]
        have hcount : delta / 32 = 0 := by omega
        rw [hcount]
        exact hmerge

/-- The words of a value that starts with a word. -/
theorem packWords_spec (pos : Nat) (value : Uhugeint) (count : Nat) (o : Output) (hout : o.out = 0) :
    ∀ k ≤ count, Spread o (packWords value pos k o) pos value (32 * count) 0 k ∧ (packWords value pos k o).out = 0
  | 0, _ => ⟨spread_nil o pos value (32 * count) 0, hout⟩
  | k + 1, hk => by
    obtain ⟨ih, hpos⟩ := packWords_spec pos value count o hout k (by omega)
    constructor
    · refine ih.store (by omega) fun j hj => ?_
      have hin : 32 * k + j < 32 * count := by omega
      rw [getLsbD_low, BitVec.getLsbD_ushiftRight]
      simp [Output.spread, hj, hin]
    · exact hpos

end Writing

/-! ## Runs -/

section Runs

variable {values : Nat → Uhugeint} {words : Nat → BitVec 32} {o o' : Output} {width n : Nat}

/-- The words that the first values reach. -/
def wordsUpTo (width n : Nat) : Nat := (width * n + 31) / 32

/-- The first `n` values have been written: their bits stand one after the other, the last word holds no others, and the
words behind are as they were. -/
structure Packed (values : Nat → Uhugeint) (words : Nat → BitVec 32) (width n : Nat) (o : Output) : Prop where
  bits : ∀ b < width * n, bitAt o.words b = (values (b / width)).getLsbD (b % width)
  tail : ∀ b, width * n ≤ b → b < 32 * wordsUpTo width n → bitAt o.words b = false
  others : ∀ w, wordsUpTo width n ≤ w → o.words w = words w
  written : ∀ w, w ∈ o.written ↔ w < wordsUpTo width n

theorem packed_zero : Packed values words width 0 ⟨words, 0, []⟩ := by
  have hnone : wordsUpTo width 0 = 0 := by simp [wordsUpTo]
  constructor
  · simp
  · simp [hnone]
  · exact fun _ _ => rfl
  · simp [hnone]

theorem Packed.next (h : Packed values words width n o) (hwidth : 0 < width)
    (hs : Spread o o' (width * n / 32) (values n) width (width * n % 32) ((width + width * n % 32 + 31) / 32)) :
    Packed values words width (n + 1) o' := by
  have hmul : width * (n + 1) = width * n + width := Nat.mul_succ width n
  have hreach : width * n / 32 + (width + width * n % 32 + 31) / 32 = wordsUpTo width (n + 1) := by
    rw [wordsUpTo, hmul]
    omega
  have hstart : width * n / 32 ≤ wordsUpTo width n ∧ wordsUpTo width n ≤ width * n / 32 + 1 := by
    unfold wordsUpTo
    omega
  have hold : ∀ b, b / 32 < width * n / 32 ∨ wordsUpTo width (n + 1) ≤ b / 32 → bitAt o'.words b = bitAt o.words b := by
    intro b hb
    rw [bitAt, bitAt, hs.others _ (by omega)]
  have hnew : ∀ b, width * n / 32 ≤ b / 32 → b / 32 < wordsUpTo width (n + 1) → bitAt o'.words b =
      ((decide (b / 32 = width * n / 32 ∧ width * n % 32 ≠ 0) && bitAt o.words b) ||
        (decide (width * n ≤ b ∧ b < width * n + width) && (values n).getLsbD (b - width * n))) := by
    intro b hlo hhi
    obtain ⟨k, hk⟩ := Nat.exists_eq_add_of_le hlo
    have hbits := hs.bits k (by omega) (b % 32) (Nat.mod_lt b (by omega))
    rw [bitAt, hk, hbits, Output.spread]
    have hle : width * n % 32 ≤ 32 * k + b % 32 ↔ width * n ≤ b := by omega
    have hlt : 32 * k + b % 32 < width * n % 32 + width ↔ b < width * n + width := by omega
    have hsub : 32 * k + b % 32 - width * n % 32 = b - width * n := by omega
    simp only [hle, hlt, hsub]
    rcases Nat.eq_zero_or_pos k with rfl | hk0
    · simp only [bitAt, hk, Nat.add_zero, true_and]
    · simp [hk0.ne']
  constructor
  · intro b hb
    rcases Nat.lt_or_ge b (width * n) with hlt | hge
    · rw [← h.bits b hlt]
      rcases Nat.lt_or_ge (b / 32) (width * n / 32) with hw | hw
      · exact hold b (.inl hw)
      · rw [hnew b hw (by omega)]
        have hword : b / 32 = width * n / 32 := by omega
        have hne : width * n % 32 ≠ 0 := by omega
        have hle : ¬ width * n ≤ b := by omega
        simp [hword, hne, hle]
    · have hdiv : b / width = n := by
        rw [Nat.div_eq_iff hwidth, Nat.mul_comm n width]
        omega
      have hmod : b % width = b - width * n := by
        rw [Nat.mod_eq_sub_mul_div, hdiv]
      rw [hnew b (by omega) (by omega), hdiv, hmod]
      have hin : b < width * n + width := by omega
      by_cases hshared : b / 32 = width * n / 32 ∧ width * n % 32 ≠ 0
      · rw [h.tail b hge (by unfold wordsUpTo; omega)]
        simp [hge, hin]
      · simp [hshared, hge, hin]
  · intro b hge hlt
    rw [hnew b (by omega) (by omega)]
    have hout : ¬ b < width * n + width := by omega
    by_cases hshared : b / 32 = width * n / 32 ∧ width * n % 32 ≠ 0
    · rw [h.tail b (by omega) (by unfold wordsUpTo; omega)]
      simp [hout]
    · simp [hshared, hout]
  · intro w hw
    rw [hs.others w (by omega), h.others w (by omega)]
  · intro w
    rw [hs.written, mem_append, h.written, mem_range'_1]
    omega

theorem packSingles_spec (hwidth : 0 < width) (hlt : width < 128) : ∀ n,
    Packed values words width n (packSingles values width n ⟨words, 0, []⟩) ∧
      (packSingles values width n ⟨words, 0, []⟩).out = width * n / 32
  | 0 => ⟨packed_zero, by simp [packSingles]⟩
  | n + 1 => by
    obtain ⟨ih, hout⟩ := packSingles_spec hwidth hlt n
    obtain ⟨hs, hmoved⟩ := @packSingle_spec (values n) (packSingles values width n ⟨words, 0, []⟩) _ _
      hwidth hlt (mod_lt (width * n) (by decide : 32 > 0))
    rw [hout] at hs hmoved
    refine ⟨ih.next hwidth hs, hmoved.trans ?_⟩
    rw [mul_succ]
    omega

theorem packAligned_spec {count : Nat} (hcount : 0 < count) : ∀ n,
    Packed values words (32 * count) n (packAligned values count n ⟨words, 0, []⟩) ∧
      (packAligned values count n ⟨words, 0, []⟩).out = 0
  | 0 => ⟨packed_zero, rfl⟩
  | n + 1 => by
    obtain ⟨ih, hout⟩ := packAligned_spec hcount n
    obtain ⟨hs, hpos⟩ := packWords_spec (n * count) (values n) count _ hout count le_rfl
    refine ⟨ih.next (by omega) ?_, hpos⟩
    have hstart : 32 * count * n = 32 * (n * count) := by rw [mul_assoc, mul_comm count n]
    have h0 : 32 * count * n / 32 = n * count := by omega
    have h1 : 32 * count * n % 32 = 0 := by omega
    have h2 : (32 * count + 0 + 31) / 32 = count := by omega
    rw [h0, h1, h2]
    exact hs

theorem width_mod_ne (h : width ≤ 128) (h0 : width ≠ 0) (h32 : width ≠ 32) (h64 : width ≠ 64) (h96 : width ≠ 96)
    (h128 : width ≠ 128) : 0 < width ∧ width < 128 ∧ width % 32 ≠ 0 := by
  omega

theorem pack_packed (values : Nat → Uhugeint) (words : Nat → BitVec 32) (h : width ≤ 128) :
    Packed values words width 32 (pack values words width) := by
  unfold pack
  split
  · constructor
    · simp
    · simp [wordsUpTo]
    · exact fun _ _ => rfl
    · simp [wordsUpTo]
  · exact (packAligned_spec (by omega : 0 < 1) 32).1
  · exact (packAligned_spec (by omega : 0 < 2) 32).1
  · exact (packAligned_spec (by omega : 0 < 3) 32).1
  · exact (packAligned_spec (by omega : 0 < 4) 32).1
  · rename_i h0 h32 h64 h96 h128
    obtain ⟨hpos, hlt, hmod⟩ := width_mod_ne h h0 h32 h64 h96 h128
    obtain ⟨ih, hout⟩ := @packSingles_spec values words width hpos hlt 31
    have hs := @packLast_spec (values 31) (packSingles values width 31 ⟨words, 0, []⟩) _ hlt hmod
    rw [hout] at hs
    refine ih.next hpos ?_
    have hcount : (width + width * 31 % 32 + 31) / 32 = width / 32 + 1 := by
      rw [lastShift_add hmod]
      omega
    rw [hcount]
    exact hs

/-- The first `n` values have been read: each is made of the bits that stand in its place. -/
structure Unpacked (words : Nat → BitVec 32) (width n : Nat) (r : List Uhugeint × Input) : Prop where
  length : r.1.length = n
  bits : ∀ k v, r.1[k]? = some v → ∀ j < 128, v.getLsbD j = (decide (j < width) && bitAt words (width * k + j))
  words : r.2.words = words
  read : ∀ w, w ∈ r.2.read ↔ w < wordsUpTo width n

theorem unpacked_zero : Unpacked words width 0 ([], ⟨words, 0, []⟩) := by
  constructor
  · rfl
  · simp
  · rfl
  · simp [wordsUpTo]

theorem Unpacked.next {out : List Uhugeint} {i i' : Input} {value : Uhugeint} (h : Unpacked words width n (out, i))
    (hbits : ∀ j < 128, value.getLsbD j = (decide (j < width) && bitAt words (width * n + j)))
    (hwords : i'.words = i.words)
    (hread : i'.read = i.read ++ range' (width * n / 32) ((width + width * n % 32 + 31) / 32)) :
    Unpacked words width (n + 1) (out ++ [value], i') := by
  have hlength : out.length = n := h.length
  constructor
  · simp [hlength]
  · intro k v hv
    rcases Nat.lt_trichotomy k n with hk | rfl | hk
    · rw [getElem?_append_left (by omega)] at hv
      exact h.bits k v hv
    · rw [getElem?_append_right (by omega), hlength, Nat.sub_self] at hv
      obtain rfl : value = v := by simpa using hv
      exact hbits
    · rw [getElem?_append_right (by omega), getElem?_eq_none (by simp; omega)] at hv
      cases hv
  · exact hwords.trans h.words
  · intro w
    have hold : w ∈ i.read ↔ w < wordsUpTo width n := h.read w
    rw [hread, mem_append, mem_range'_1, hold]
    have hmul : width * (n + 1) = width * n + width := Nat.mul_succ width n
    unfold wordsUpTo
    rw [hmul]
    omega

theorem unpackSingles_succ (i : Input) : unpackSingles width (n + 1) i =
    ((unpackSingles width n i).1 ++ [(unpackSingle (unpackSingles width n i).2 width (width * n % 32)).1],
      (unpackSingle (unpackSingles width n i).2 width (width * n % 32)).2) := rfl

theorem unpackSingles_spec (hwidth : 0 < width) (hlt : width < 128) : ∀ n,
    Unpacked words width n (unpackSingles width n ⟨words, 0, []⟩) ∧
      (unpackSingles width n ⟨words, 0, []⟩).2.pos = width * n / 32
  | 0 => ⟨unpacked_zero, by simp [unpackSingles]⟩
  | n + 1 => by
    obtain ⟨ih, hpos⟩ := unpackSingles_spec hwidth hlt n
    have hshr : width * n % 32 < 32 := mod_lt _ (by omega)
    have hinput := unpackSingle_input (i := (unpackSingles width n ⟨words, 0, []⟩).2) hwidth hlt hshr
    rw [unpackSingles_succ]
    constructor
    · apply ih.next
      · intro j hj
        have hplace : 32 * (width * n / 32) + width * n % 32 + j = width * n + j := by omega
        rw [unpackSingle_bits hshr hj, ih.words, hpos, hplace]
      · rw [hinput]
        rfl
      · rw [hinput, Input.moved, hpos]
    · rw [hinput]
      show _ + _ = _
      rw [hpos, mul_succ]
      omega

/-- The bits of the words of a value that starts with a word. -/
theorem unpackWords_spec (pos count : Nat) (i : Input) (hpos : i.pos = 0) : ∀ k,
    (∀ j < 128, (unpackWords pos k i).1.getLsbD j = (decide (j < 32 * k) && bitAt i.words (32 * pos + j))) ∧
      (unpackWords pos k i).2 = { i with read := i.read ++ range' pos k }
  | 0 => by simp [unpackWords]
  | k + 1 => by
    obtain ⟨ih, hinput⟩ := unpackWords_spec pos count i hpos k
    have hstep : unpackWords pos (k + 1) i =
        ((unpackWords pos k i).1 ||| wide (i.words (pos + k)) <<< (32 * k),
          { i with read := i.read ++ range' pos (k + 1) }) := by
      simp only [unpackWords, Input.get, hinput, hpos]
      simp [range'_1_concat]
    rw [hstep]
    refine ⟨fun j hj => ?_, rfl⟩
    have hbit : (wide (i.words (pos + k)) <<< (32 * k)).getLsbD j =
        (decide (j / 32 = k) && (i.words (pos + k)).getLsbD (j % 32)) := by
      rcases Nat.eq_zero_or_pos k with rfl | hk
      · have h0 := @getLsbD_wide_shr (i.words (pos + 0)) 0 j
        simpa using h0
      · have h0 := @getLsbD_wide_shl (i.words (pos + k)) 0 j k (by omega) hk hj
        simpa using h0
    rw [BitVec.getLsbD_or, ih j hj, hbit]
    by_cases hlt : j < 32 * k
    · have hne : j / 32 ≠ k := by omega
      have hin : j < 32 * (k + 1) := by omega
      simp [hlt, hne, hin]
    · by_cases hword : j / 32 = k
      · have hin : j < 32 * (k + 1) := by omega
        have hplace := @bitAt_eq 0 j i.words pos k (by simpa using hword)
        simp only [add_zero, zero_add] at hplace
        simp [hlt, hword, hin, hplace]
      · have hout : ¬ j < 32 * (k + 1) := by omega
        simp [hlt, hword, hout]

theorem unpackAligned_spec {count : Nat} (hcount : 0 < count) : ∀ n,
    Unpacked words (32 * count) n (unpackAligned count n ⟨words, 0, []⟩) ∧
      (unpackAligned count n ⟨words, 0, []⟩).2.pos = 0
  | 0 => ⟨unpacked_zero, rfl⟩
  | n + 1 => by
    obtain ⟨ih, hpos⟩ := unpackAligned_spec hcount n
    obtain ⟨hbits, hinput⟩ := unpackWords_spec (n * count) count (unpackAligned count n ⟨words, 0, []⟩).2 hpos count
    have hplace : 32 * count * n = 32 * (n * count) := by rw [mul_assoc, mul_comm count n]
    have hsucc : unpackAligned count (n + 1) ⟨words, 0, []⟩ =
        ((unpackAligned count n ⟨words, 0, []⟩).1 ++
            [(unpackWords (n * count) count (unpackAligned count n ⟨words, 0, []⟩).2).1],
          (unpackWords (n * count) count (unpackAligned count n ⟨words, 0, []⟩).2).2) := rfl
    rw [hsucc]
    constructor
    · apply ih.next
      · intro j hj
        rw [hbits j hj, ih.words, hplace]
      · rw [hinput]
      · have h0 : 32 * count * n / 32 = n * count := by omega
        have h1 : (32 * count + 32 * count * n % 32 + 31) / 32 = count := by omega
        rw [hinput, h0, h1]
    · rw [hinput]
      exact hpos

/-- The last value as far as its first `count` words. -/
structure LastRead (i : Input) (shift count : Nat) (r : Uhugeint × Input) : Prop where
  bits : ∀ j < 128, r.1.getLsbD j = (decide (shift + j < 32 * count) && bitAt i.words (32 * i.pos + shift + j))
  input : r.2 = { i with read := i.read ++ List.range' i.pos count }

theorem LastRead.next {i : Input} {delta shift k : Nat} {r : Uhugeint × Input} (h : LastRead i shift k r)
    (hshift : shift < 32) (hk : 0 < k) (hreach : 32 * k < delta) :
    LastRead i shift (k + 1) (unpackLastWord delta shift k r) := by
  have hstep : unpackLastWord delta shift k r =
      (r.1 ||| wide (i.words (i.pos + k)) <<< (32 * k - shift),
        { i with read := i.read ++ range' i.pos (k + 1) }) := by
    simp only [unpackLastWord, if_pos hreach, Input.get, h.input]
    simp [range'_1_concat]
  rw [hstep]
  constructor
  · intro j hj
    rw [BitVec.getLsbD_or, h.bits j hj, getLsbD_wide_shl hshift hk hj]
    rcases lt_trichotomy ((shift + j) / 32) k with hlt | heq | hgt
    · have hin : shift + j < 32 * k := by omega
      have hin' : shift + j < 32 * (k + 1) := by omega
      simp [hin, hin', hlt.ne]
    · have hout : ¬ shift + j < 32 * k := by omega
      have hin : shift + j < 32 * (k + 1) := by omega
      simp [hout, hin, heq, bitAt_eq heq]
    · have hout : ¬ shift + j < 32 * k := by omega
      have hout' : ¬ shift + j < 32 * (k + 1) := by omega
      simp [hout, hout', hgt.ne']
  · rfl

/-- The words of the last value. -/
theorem unpackLast_spec {i : Input} {delta : Nat} (hdelta : delta < 128) (h : delta % 32 ≠ 0) :
    LastRead i (delta * 31 % 32) (delta / 32 + 1) (unpackLast i delta) := by
  have hlt := lastShift_lt delta
  unfold unpackLast
  dsimp only
  generalize delta * 31 % 32 = shift at hlt ⊢
  have hfirst : LastRead i shift 1 (wide ((i.get 0).1 >>> shift), (i.get 0).2) := by
    constructor
    · intro j hj
      rw [wide, BitVec.getLsbD_setWidth, BitVec.getLsbD_ushiftRight]
      by_cases hin : shift + j < 32
      · have hword : (shift + j) / 32 = 0 := by omega
        have hbit : (shift + j) % 32 = shift + j := by omega
        simp [hin, hj, bitAt_eq hword, hbit, Input.get]
      · rw [BitVec.getLsbD_of_ge _ _ (by omega)]
        simp [hin]
    · rfl
  have hstop : ∀ k r, ¬ 32 * k < delta → unpackLastWord delta shift k r = r := fun k r hreach => if_neg hreach
  rcases lt_or_ge 96 delta with h3 | h3
  · have hcount : delta / 32 = 3 := by omega
    rw [hcount]
    exact ((hfirst.next hlt (by omega) (by omega)).next hlt (by omega) (by omega)).next hlt (by omega) h3
  · rw [hstop 3 _ (by omega)]
    rcases lt_or_ge 64 delta with h2 | h2
    · have hcount : delta / 32 = 2 := by omega
      rw [hcount]
      exact (hfirst.next hlt (by omega) (by omega)).next hlt (by omega) h2
    · rw [hstop 2 _ (by omega)]
      rcases lt_or_ge 32 delta with h1 | h1
      · have hcount : delta / 32 = 1 := by omega
        rw [hcount]
        exact hfirst.next hlt (by omega) h1
      · have hcount : delta / 32 = 0 := by omega
        rw [hstop 1 _ (by omega), hcount]
        exact hfirst

theorem unpackDelta0_spec : Unpacked words 0 32 (unpackDelta0 ⟨words, 0, []⟩) := by
  constructor
  · rfl
  · intro k v hv j _
    have hzero : v = 0 := by
      rw [unpackDelta0, getElem?_replicate] at hv
      split at hv
      · exact (Option.some.inj hv).symm
      · cases hv
    simp [hzero]
  · rfl
  · simp [unpackDelta0, wordsUpTo]

theorem Unpacked.last {r : List Uhugeint × Input} (h : Unpacked words width 31 r) (hlt : width < 128)
    (hmod : width % 32 ≠ 0) (hpos : r.2.pos = width * 31 / 32) :
    Unpacked words width 32 (r.1 ++ [(unpackLast r.2 width).1], (unpackLast r.2 width).2) := by
  have hlast := unpackLast_spec (i := r.2) hlt hmod
  have hadd := lastShift_add hmod
  apply h.next
  · intro j hj
    have hend : width * 31 % 32 + j < 32 * (width / 32 + 1) ↔ j < width := by omega
    have hbit : 32 * (width * 31 / 32) + width * 31 % 32 + j = width * 31 + j := by omega
    rw [hlast.bits j hj, h.words, hpos, decide_eq_decide.2 hend, hbit]
  · rw [hlast.input]
  · have hcount : (width + width * 31 % 32 + 31) / 32 = width / 32 + 1 := by omega
    rw [hlast.input, hpos, hcount]

theorem unpack_unpacked (words : Nat → BitVec 32) (h : width ≤ 128) : Unpacked words width 32 (unpack words width) := by
  unfold unpack
  split
  · exact unpackDelta0_spec
  · exact (unpackAligned_spec (by omega : 0 < 1) 32).1
  · exact (unpackAligned_spec (by omega : 0 < 2) 32).1
  · exact (unpackAligned_spec (by omega : 0 < 3) 32).1
  · exact (unpackAligned_spec (by omega : 0 < 4) 32).1
  · rename_i h0 h32 h64 h96 h128
    obtain ⟨hpos, hlt, hmod⟩ := width_mod_ne h h0 h32 h64 h96 h128
    obtain ⟨ih, hplace⟩ := @unpackSingles_spec words width hpos hlt 31
    exact ih.last hlt hmod hplace

/-- What `Pack` writes, `Unpack` reads back, for every width, each value cut to the width: and both touch the words below the
width, and no others. -/
theorem unpack_pack (values : Nat → Uhugeint) (words : Nat → BitVec 32) (h : width ≤ 128) :
    (unpack (pack values words width).words width).1 =
        (List.range 32).map (fun k => BitVec.ofNat 128 ((values k).toNat % 2 ^ width)) ∧
      (∀ k, k ∈ (pack values words width).written ↔ k < width) ∧
      (∀ k, width ≤ k → (pack values words width).words k = words k) ∧
      ∀ buffer k, k ∈ (unpack buffer width).2.read ↔ k < width := by
  have hall : wordsUpTo width 32 = width := by
    unfold wordsUpTo
    omega
  have hpack := pack_packed values words h
  have hunpack := unpack_unpacked (pack values words width).words h
  refine ⟨?_, ?_, ?_, ?_⟩
  · apply List.ext_getElem?
    intro k
    by_cases hk : k < 32
    · obtain ⟨v, hv⟩ : ∃ v, (unpack (pack values words width).words width).1[k]? = some v :=
        ⟨_, List.getElem?_eq_getElem (by rw [hunpack.length]; exact hk)⟩
      rw [hv, List.getElem?_map, List.getElem?_range hk, Option.map_some]
      congr 1
      apply BitVec.eq_of_getLsbD_eq
      intro j hj
      rw [hunpack.bits k v hv j hj, BitVec.getLsbD_ofNat, Nat.testBit_mod_two_pow, BitVec.testBit_toNat]
      by_cases hjw : j < width
      · have hb : width * k + j < width * 32 := by
          have hle : width * (k + 1) ≤ width * 32 := Nat.mul_le_mul_left width hk
          rw [Nat.mul_succ] at hle
          omega
        have hdiv : (width * k + j) / width = k := by
          rw [Nat.mul_add_div (by omega), Nat.div_eq_of_lt hjw, Nat.add_zero]
        have hmod : (width * k + j) % width = j := by
          rw [Nat.mul_add_mod, Nat.mod_eq_of_lt hjw]
        rw [hpack.bits _ hb, hdiv, hmod]
        simp [hj, hjw]
      · simp [hjw]
    · rw [List.getElem?_eq_none (by rw [hunpack.length]; omega), List.getElem?_eq_none (by simp; omega)]
  · intro k
    rw [hpack.written, hall]
  · intro k hk
    exact hpack.others k (by rw [hall]; exact hk)
  · intro buffer k
    rw [(unpack_unpacked buffer h).read, hall]

/-- A width that is not a number of words, over a buffer of ones. -/
theorem unpack_pack_45 : 45 ≤ 128 ∧
    (unpack (pack (fun k => BitVec.ofNat 128 k <<< 40) (fun _ => BitVec.allOnes 32) 45).words 45).1 =
      (List.range 32).map (fun k => BitVec.ofNat 128 ((BitVec.ofNat 128 k <<< 40).toNat % 2 ^ 45)) := by
  have h : 45 ≤ 128 := by decide
  exact ⟨h, (unpack_pack (fun k => BitVec.ofNat 128 k <<< 40) (fun _ => BitVec.allOnes 32) h).1⟩

end Runs

end Haybarn.Bitpacking.HugeInt
