/-
The sums of `bignum.cpp` are exact: an addition of two blobs, and any number of additions in place, if the memory of the
target is never too small for a carry. What memory is needed is guessed from the first bits of both operands; behind
filler bytes of the right one the guess is wrong, and a carry is lost.
-/
import Haybarn.Bignum.Intermediate
import Mathlib.Tactic.Ring

namespace Haybarn.Bignum

open Lib Lib.Outcome List

/-! ## Stored bytes -/

variable {isNegative : Bool} {bytes : List UInt8}

theorem complement_eq_filler_iff (b : UInt8) : ~~~b = 0xFF ↔ b = 0 := by
  rw [← complement_eq_zero_iff, UInt8.not_not]

theorem countLeading_stored (bytes : List UInt8) :
    countLeading (filler isNegative) (stored isNegative bytes) = leadingZeros bytes := by
  induction bytes with
  | nil => cases isNegative <;> rfl
  | cons b bytes ih =>
    cases isNegative with
    | false => exact if_congr Iff.rfl (congrArg (· + 1) ih) rfl
    | true => exact if_congr (complement_eq_filler_iff b) (congrArg (· + 1) ih) rfl

theorem getStartDataPos_stored (isNegative : Bool) (bytes : List UInt8) :
    getStartDataPos (stored isNegative bytes) isNegative = leadingZeros bytes := countLeading_stored bytes

theorem stored_drop (n : Nat) : (stored isNegative bytes).drop n = stored isNegative (bytes.drop n) := by
  cases isNegative <;> simp

theorem stored_take (n : Nat) : (stored isNegative bytes).take n = stored isNegative (bytes.take n) := by
  cases isNegative <;> simp

theorem getElem?_stored (i : Nat) :
    (stored isNegative bytes)[i]? = bytes[i]?.map fun b => if isNegative then ~~~b else b := by
  cases isNegative <;> simp

theorem trim_stored (hpos : 0 < bytes.length) :
    trim (stored isNegative bytes) isNegative = stored isNegative (significant (magnitude bytes)) := by
  have hcount := length_sub_leadingZeros bytes
  unfold trim
  rw [getStartDataPos_stored, length_stored]
  dsimp only
  split
  next h =>
    congr 1
    refine eq_significant ?_
    rw [h, Nat.sub_zero] at hcount
    omega
  next h =>
    split
    next hzero =>
      have hmagnitude : magnitude bytes = 0 := byteCount_eq_zero_iff.1 (by omega)
      rw [stored_take, hmagnitude]
      congr 1
      have hlength : (bytes.take 1).length = 1 := by
        rw [length_take]
        omega
      have htake : magnitude (bytes.take 1) = 0 := by
        rw [← take_append_drop 1 bytes, magnitude_append] at hmagnitude
        have hpow : 0 < 256 ^ (bytes.drop 1).length := by positivity
        by_contra hne
        have := Nat.mul_pos (Nat.pos_of_ne_zero hne) hpow
        omega
      have hone := @eq_significant (bytes.take 1) (by rw [hlength, htake, byteCount_eq_zero_iff.2 rfl]; rfl)
      rw [hone, htake]
    next hpos' =>
      rw [stored_drop, stored_take, take_of_length_le (by rw [length_drop])]
      have hsignificant := @eq_significant (bytes.drop (leadingZeros bytes)) (by
        rw [magnitude_drop_leadingZeros, length_drop]
        omega)
      rw [hsignificant, magnitude_drop_leadingZeros]

theorem overOrUnderflow_stored (bytes : List UInt8) :
    overOrUnderflow (stored isNegative bytes) isNegative = decide (maxDataSize < byteCount (magnitude bytes)) := by
  have hle := byteCount_magnitude_le bytes
  unfold overOrUnderflow
  rw [length_stored]
  split
  next h => rw [decide_eq_false (by omega)]
  next h =>
    have hany : ∀ zeros : List UInt8, (stored isNegative zeros).any (fun b => b != filler isNegative) =
        zeros.any fun b => b != 0 := by
      intro zeros
      cases isNegative with
      | false => rfl
      | true =>
        rw [stored_true, any_map]
        congr 1
        funext b
        rw [Function.comp_apply, Bool.eq_iff_iff, bne_iff_ne, bne_iff_ne]
        exact (complement_eq_filler_iff b).not
    rw [stored_take, hany]
    by_cases hfits : byteCount (magnitude bytes) ≤ maxDataSize
    · rw [take_eq_zeros (byteCount_le_iff.1 hfits), decide_eq_false (by omega)]
      simp
    · rw [decide_eq_true (by omega), any_eq_true]
      by_contra hnone
      refine hfits (byteCount_le_iff.2 ?_)
      have hzeros : bytes.take (bytes.length - maxDataSize) = replicate (bytes.length - maxDataSize) 0 := by
        refine eq_replicate_iff.2 ⟨by rw [length_take]; omega, fun b hb => ?_⟩
        by_contra hne
        exact hnone ⟨b, hb, by simpa using hne⟩
      have hlt := magnitude_lt (bytes.drop (bytes.length - maxDataSize))
      rw [length_drop, show bytes.length - (bytes.length - maxDataSize) = maxDataSize by omega] at hlt
      rwa [← take_append_drop (bytes.length - maxDataSize) bytes, hzeros, magnitude_zeros_append]

/-! ## Intermediates -/

namespace BignumIntermediate

/-- The bytes of the magnitude, with those in front of it. -/
def absolute (v : BignumIntermediate) : List UInt8 := stored v.isNegative v.data

variable {v rhs : BignumIntermediate} {z w : Int}

theorem data_eq (v : BignumIntermediate) : v.data = stored v.isNegative v.absolute := stored_stored.symm

theorem length_absolute (v : BignumIntermediate) : v.absolute.length = v.size := length_stored

theorem startDataPos_eq (v : BignumIntermediate) : v.startDataPos = leadingZeros v.absolute := by
  rw [startDataPos, data_eq, getStartDataPos_stored]

theorem actualSize_eq (v : BignumIntermediate) : v.size - v.startDataPos = byteCount (magnitude v.absolute) := by
  rw [startDataPos_eq, ← length_absolute, length_sub_leadingZeros]

theorem getAbsoluteByte_natCast (v : BignumIntermediate) (i : Nat) : v.getAbsoluteByte i = Lib.read v.absolute i := by
  unfold getAbsoluteByte
  rw [if_neg (by omega), Int.toNat_natCast, absolute, Lib.read, Lib.read, getElem?_stored]
  cases v.data[i]? <;> rfl

theorem getAbsoluteByte_digit (v : BignumIntermediate) (k : Nat) :
    v.getAbsoluteByte (v.size - 1 - k) = done (UInt8.ofNat (magnitude v.absolute / 256 ^ k % 256)) := by
  have hlength := v.length_absolute
  by_cases hk : k < v.size
  · have hindex : (v.size - 1 - k : Int) = (v.size - 1 - k : Nat) := by omega
    have hlt : v.size - 1 - k < v.absolute.length := by omega
    have hget := getElem?_eq_getElem hlt
    have hdigit := toNat_eq_digit (k := k) hget (by omega)
    rw [hindex, getAbsoluteByte_natCast, Lib.read, hget, ← hdigit, UInt8.ofNat_toNat]
  · have hlt := magnitude_lt v.absolute
    have hpow : 256 ^ v.absolute.length ≤ 256 ^ k := Nat.pow_le_pow_right (by decide) (by omega)
    rw [getAbsoluteByte, if_pos (by omega), Nat.div_eq_of_lt (hlt.trans_le hpow)]
    rfl

theorem isMSBSet_eq (hpos : 0 < v.size) : v.isMSBSet = done (decide (256 ^ v.size ≤ 2 * magnitude v.absolute)) := by
  obtain ⟨isNegative, data⟩ := v
  cases data with
  | nil => exact absurd hpos (Nat.lt_irrefl 0)
  | cons b data =>
    have htop : ∀ (c : UInt8) (bytes : List UInt8),
        256 ^ (bytes.length + 1) ≤ 2 * magnitude (c :: bytes) ↔ 128 ≤ c.toNat := by
      intro c bytes
      have hlt := magnitude_lt bytes
      rw [magnitude_cons, Nat.pow_succ]
      constructor
      · intro h
        by_contra hc
        have hle : c.toNat * 256 ^ bytes.length ≤ 127 * 256 ^ bytes.length := Nat.mul_le_mul_right _ (by omega)
        omega
      · intro h
        have hle : 128 * 256 ^ bytes.length ≤ c.toNat * 256 ^ bytes.length := Nat.mul_le_mul_right _ h
        omega
    have hbit := and_128_eq_zero_iff b
    have hlt := b.toNat_lt
    cases isNegative with
    | false =>
      have hread : (⟨false, b :: data⟩ : BignumIntermediate).isMSBSet = done (b &&& 0x80 != 0) := rfl
      rw [hread]
      congr 1
      rw [Bool.eq_iff_iff, bne_iff_ne, decide_eq_true_eq]
      refine Iff.trans ?_ (htop b data).symm
      rw [ne_eq, hbit, Nat.not_lt]
    | true =>
      have hread : (⟨true, b :: data⟩ : BignumIntermediate).isMSBSet = done (b &&& 0x80 == 0) := rfl
      have habsolute : absolute ⟨true, b :: data⟩ = ~~~b :: data.map fun b => ~~~b := rfl
      have hsize : size ⟨true, b :: data⟩ = (data.map fun b => ~~~b).length + 1 := by simp [size]
      rw [hread, habsolute, hsize]
      congr 1
      rw [Bool.eq_iff_iff, beq_iff_eq, decide_eq_true_eq, hbit, htop, toNat_complement]
      omega

/-- What the comparison of two magnitudes says. -/
def comparisonOf : Ordering → AbsoluteNumberComparison
  | .lt => .smaller
  | .eq => .equal
  | .gt => .greater

theorem compareBytes_eq : ∀ {turns targetIdx sourceIdx : Nat}, v.size < turns + targetIdx → targetIdx ≤ v.size →
    (v.absolute.drop targetIdx).length = (rhs.absolute.drop sourceIdx).length →
      compareBytes v rhs turns targetIdx sourceIdx =
        done (comparisonOf (compare (v.absolute.drop targetIdx) (rhs.absolute.drop sourceIdx)))
  | 0, _, _, hturns, hle, _ => absurd hturns (by omega)
  | turns + 1, targetIdx, sourceIdx, hturns, hle, hlength => by
    have hv := v.length_absolute
    unfold compareBytes
    by_cases hlt : targetIdx < v.size
    · rw [if_pos hlt]
      obtain ⟨b, bytes, hb⟩ := exists_drop (hv.symm ▸ hlt : targetIdx < v.absolute.length)
      have hlength' := hlength
      rw [hb, List.length_cons] at hlength'
      obtain ⟨c, bytes', hc⟩ : ∃ c bytes', rhs.absolute.drop sourceIdx = c :: bytes' :=
        List.exists_cons_of_length_pos (by omega)
      rw [getAbsoluteByte_natCast, getAbsoluteByte_natCast, read_of_drop hb, read_of_drop hc, done_bind, done_bind, hb, hc,
        List.compare_cons_cons, compare_toNat]
      rcases Nat.lt_trichotomy b.toNat c.toNat with h | h | h
      · have hbc : b < c := UInt8.lt_iff_toNat_lt.2 h
        rw [if_neg (UInt8.lt_asymm hbc), if_pos hbc, Nat.compare_eq_lt.2 h]
        rfl
      · obtain rfl : b = c := UInt8.toNat_inj.1 h
        have hrest := drop_succ_of_drop hb
        have hrest' := drop_succ_of_drop hc
        rw [if_neg (UInt8.lt_irrefl b), if_neg (UInt8.lt_irrefl b), Nat.compare_eq_eq.2 rfl]
        rw [compareBytes_eq (by omega) hlt (by rw [hrest, hrest']; rw [hc, List.length_cons] at hlength'; omega), hrest,
          hrest']
        rfl
      · have hbc : c < b := UInt8.lt_iff_toNat_lt.2 h
        rw [if_pos hbc, Nat.compare_eq_gt.2 h]
        rfl
    · have hnil : v.absolute.drop targetIdx = [] := List.drop_eq_nil_of_le (by omega)
      have hnil' : rhs.absolute.drop sourceIdx = [] := by
        rw [← List.length_eq_zero_iff, ← hlength, hnil]
        rfl
      rw [if_neg hlt, hnil, hnil']
      rfl

theorem isAbsoluteBigger_eq (v rhs : BignumIntermediate) :
    v.isAbsoluteBigger rhs = done (comparisonOf (compare (magnitude v.absolute) (magnitude rhs.absolute))) := by
  have hlt : ∀ {n m : Nat}, byteCount n < byteCount m → n < m := fun {n m} h =>
    (byteCount_le_iff.1 (Nat.le_refl _)).trans_le (lt_byteCount_iff.1 h)
  unfold isAbsoluteBigger
  dsimp only
  rw [actualSize_eq, actualSize_eq]
  rcases Nat.lt_trichotomy (byteCount (magnitude v.absolute)) (byteCount (magnitude rhs.absolute)) with h | h | h
  · rw [if_neg (by omega), if_pos h, Nat.compare_eq_lt.2 (hlt h)]
    rfl
  · rw [if_neg (by omega), if_neg (by omega)]
    have hle := leadingZeros_le v.absolute
    have hlength : (v.absolute.drop v.startDataPos).length = (rhs.absolute.drop rhs.startDataPos).length := by
      rw [length_drop, length_drop, length_absolute, length_absolute, actualSize_eq, actualSize_eq, h]
    rw [compareBytes_eq (by omega) (by rw [startDataPos_eq, ← length_absolute]; exact hle) hlength]
    have hmagnitude : ∀ u : BignumIntermediate, magnitude (u.absolute.drop u.startDataPos) = magnitude u.absolute := by
      intro u
      rw [startDataPos_eq, magnitude_drop_leadingZeros]
    congr 2
    by_cases hne : magnitude v.absolute = magnitude rhs.absolute
    · rw [eq_of_magnitude_eq hlength (by rw [hmagnitude, hmagnitude, hne]), hne, Nat.compare_eq_eq.2 rfl,
        Std.ReflOrd.compare_self]
    · have hdiverge := diverge_of_magnitude hlength
      rw [hmagnitude, hmagnitude] at hdiverge
      exact (hdiverge hne).compare_eq
  · rw [if_pos h, Nat.compare_eq_gt.2 (hlt h)]
    rfl

end BignumIntermediate

/-! ## Digit by digit -/

section Addition

variable {sameSign bigger : Bool} {carry borrow : Nat}

/-- The sign of the left operand in the sum of the magnitudes, or in their difference. -/
def lhsFactor (sameSign bigger : Bool) : Int := if sameSign || bigger then 1 else -1

/-- The sign of the right one. -/
def rhsFactor (sameSign bigger : Bool) : Int := if sameSign || !bigger then 1 else -1

/-- A carry or a borrow, of one at most, and only the one that there can be. -/
structure Carries (sameSign : Bool) (carry borrow : Nat) : Prop where
  carry_le : carry ≤ 1
  borrow_le : borrow ≤ 1
  carry_eq : sameSign = false → carry = 0
  borrow_eq : sameSign = true → borrow = 0

/-- The byte of the result, and what is carried over to the next one. -/
theorem addBytes_spec (h : Carries sameSign carry borrow) (a b : UInt8) :
    ∃ sum carry' borrow', addBytes sameSign bigger a b carry borrow = (sum, carry', borrow') ∧
      Carries sameSign carry' borrow' ∧
      ((sum &&& 0xFF : Nat) : Int) = lhsFactor sameSign bigger * a.toNat + rhsFactor sameSign bigger * b.toNat +
        (carry - borrow) - 256 * (carry' - borrow') := by
  have ha := a.toNat_lt
  have hb := b.toNat_lt
  have hcarry := h.carry_le
  have hborrow := h.borrow_le
  have hmask : ∀ sum : Nat, sum &&& 0xFF = sum % 256 := fun sum => Nat.and_two_pow_sub_one_eq_mod sum 8
  have hshift : ∀ sum : Nat, sum >>> 8 = sum / 256 := fun sum => Nat.shiftRight_eq_div_pow sum 8
  cases sameSign with
  | true =>
    have hzero := h.borrow_eq rfl
    refine ⟨_, _, _, rfl, ⟨?_, hborrow, nofun, h.borrow_eq⟩, ?_⟩
    · rw [hmask, hshift]
      omega
    · simp only [lhsFactor, rhsFactor, Bool.true_or, if_true, hmask, hshift]
      omega
  | false =>
    have hzero := h.carry_eq rfl
    cases bigger with
    | true =>
      refine ⟨_, _, _, rfl, ⟨hcarry, by split <;> omega, h.carry_eq, nofun⟩, ?_⟩
      simp only [lhsFactor, rhsFactor, Bool.or_true, Bool.not_true, Bool.or_false, Bool.false_eq_true, if_true, if_false,
        hmask]
      split <;> omega
    | false =>
      refine ⟨_, _, _, rfl, ⟨hcarry, by split <;> omega, h.carry_eq, nofun⟩, ?_⟩
      simp only [lhsFactor, rhsFactor, Bool.or_true, Bool.not_false, Bool.or_false, Bool.false_eq_true, if_true, if_false,
        hmask]
      split <;> omega

variable {result : List UInt8} {lhs : List UInt8 → BignumIntermediate} {rhs : BignumIntermediate} {A : Nat}

/-- What the left operand is read as, while the last bytes of the result are written. -/
structure Supplies (lhs : List UInt8 → BignumIntermediate) (result : List UInt8) (A : Nat) : Prop where
  byte : ∀ k < result.length, ∀ bytes : List UInt8,
    (lhs (result.take (result.length - k) ++ bytes)).getAbsoluteByte ((lhs result).size - 1 - k) =
      done (UInt8.ofNat (A / 256 ^ k % 256))
  isNegative : ∀ data, (lhs data).isNegative = (lhs result).isNegative

theorem supplies_const (v : BignumIntermediate) (result : List UInt8) :
    Supplies (fun _ => v) result (magnitude v.absolute) where
  byte k _ _ := v.getAbsoluteByte_digit k
  isNegative _ := rfl

theorem supplies_inPlace (v : BignumIntermediate) :
    Supplies (fun data => { v with data := data }) v.data (magnitude v.absolute) where
  byte k hk bytes := by
    have hdigit := v.getAbsoluteByte_digit k
    have hindex : (v.size - 1 - k : Int) = (v.data.length - 1 - k : Nat) := by
      unfold BignumIntermediate.size
      omega
    have hread : Lib.read (v.data.take (v.data.length - k) ++ bytes) (v.data.length - 1 - k) =
        Lib.read v.data (v.data.length - 1 - k) := by
      have hlength : (v.data.take (v.data.length - k)).length = v.data.length - k := by
        rw [length_take]
        omega
      rw [Lib.read, Lib.read, getElem?_append_left (by omega), getElem?_take_of_lt (by omega)]
    have hsize : ({ v with data := v.data } : BignumIntermediate).size = v.size := rfl
    rw [hsize]
    rw [hindex] at hdigit ⊢
    unfold BignumIntermediate.getAbsoluteByte at hdigit ⊢
    rw [if_neg (by omega), Int.toNat_natCast] at hdigit ⊢
    rw [hread]
    exact hdigit
  isNegative _ := rfl

/-- The last bytes of the result are written, and stand for the last bytes of the sum or of the difference. -/
structure Written (lhs : List UInt8 → BignumIntermediate) (rhs : BignumIntermediate) (result : List UInt8) (A : Nat)
    (sameSign bigger isResultNegative : Bool) (s : AdditionState) (k : Nat) (bytes : List UInt8) : Prop where
  le : k ≤ result.length
  iTarget : s.iTarget = (lhs result).size - 1 - k
  iSource : s.iSource = rhs.size - 1 - k
  iResult : s.iResult = result.length - 1 - k
  carries : Carries sameSign s.carry s.borrow
  result : s.result = result.take (result.length - k) ++ stored isResultNegative bytes
  length : bytes.length = k
  magnitude : (magnitude bytes : Int) = lhsFactor sameSign bigger * (A % 256 ^ k : Nat) +
    rhsFactor sameSign bigger * (Lib.magnitude rhs.absolute % 256 ^ k : Nat) - (s.carry - s.borrow) * (256 ^ k : Nat)

theorem returns_additionTurn {s : AdditionState} {k : Nat} {bytes : List UInt8} {isResultNegative : Bool}
    (hsupplies : Supplies lhs result A) (hsame : sameSign = ((lhs result).isNegative == rhs.isNegative))
    (h : Written lhs rhs result A sameSign bigger isResultNegative s k bytes) (hk : k < result.length) :
    (additionTurn bigger isResultNegative lhs rhs s).Returns fun s' =>
      ∃ bytes', Written lhs rhs result A sameSign bigger isResultNegative s' (k + 1) bytes' := by
  have hlength := h.length
  unfold additionTurn
  rw [h.result, h.iTarget, h.iSource, hsupplies.byte k hk, rhs.getAbsoluteByte_digit, done_bind, done_bind,
    hsupplies.isNegative, ← hsame]
  obtain ⟨sum, carry', borrow', hadd, hcarries, hsum⟩ := @addBytes_spec sameSign bigger s.carry s.borrow h.carries
    (UInt8.ofNat (A / 256 ^ k % 256)) (UInt8.ofNat (Lib.magnitude rhs.absolute / 256 ^ k % 256))
  rw [hadd]
  dsimp only
  rw [UInt8.toNat_ofNat_of_lt' (Nat.mod_lt _ (by decide)), UInt8.toNat_ofNat_of_lt' (Nat.mod_lt _ (by decide))] at hsum
  have hmask : sum &&& 0xFF = sum % 256 := Nat.and_two_pow_sub_one_eq_mod sum 8
  have hindex : s.iResult.toNat = result.length - 1 - k := by
    have := h.iResult
    omega
  have htake : (result.take (result.length - k)).length = result.length - k := by
    rw [length_take]
    omega
  generalize hbyte : UInt8.ofNat (sum &&& 0xFF) = b
  have hb : b.toNat = sum &&& 0xFF := by
    rw [← hbyte, hmask, UInt8.toNat_ofNat_of_lt' (Nat.mod_lt _ (by decide))]
  -- the byte in front of those that are written
  have hwrite : write (result.take (result.length - k) ++ stored isResultNegative bytes) s.iResult.toNat
      (if isResultNegative then ~~~b else b) =
        done (result.take (result.length - (k + 1)) ++ stored isResultNegative (b :: bytes)) := by
    have hsplit : result.take (result.length - k) =
        result.take (result.length - (k + 1)) ++ [result[result.length - 1 - k]] := by
      rw [show result.length - k = result.length - 1 - k + 1 by omega, take_succ_eq_append_getElem (by omega),
        show result.length - (k + 1) = result.length - 1 - k by omega]
    have hhead : stored isResultNegative (b :: bytes) =
        (if isResultNegative then ~~~b else b) :: stored isResultNegative bytes := by cases isResultNegative <;> rfl
    have hlen : (result.take (result.length - (k + 1))).length = result.length - 1 - k := by
      rw [length_take]
      omega
    rw [write, if_pos (by rw [length_append]; omega), hindex, hsplit, hhead, append_assoc,
      set_append_right _ _ (by omega), hlen, Nat.sub_self]
    rfl
  rw [hwrite, done_bind]
  refine returns_done ⟨b :: bytes, by omega, ?_, ?_, ?_, hcarries, rfl, by rw [length_cons, hlength], ?_⟩
  · dsimp only
    push_cast
    ring
  · dsimp only
    push_cast
    ring
  · dsimp only
    rw [h.iResult]
    push_cast
    ring
  · dsimp only
    have hmagnitude := h.magnitude
    rw [magnitude_cons, hlength, hb, Nat.mod_pow_succ, Nat.mod_pow_succ]
    push_cast at hmagnitude hsum ⊢
    rw [hmagnitude, hsum]
    ring

theorem returns_bignumAddition (hsupplies : Supplies lhs result A) (hA : A < 256 ^ result.length)
    (hB : magnitude rhs.absolute < 256 ^ result.length)
    (hsame : sameSign = ((lhs result).isNegative == rhs.isNegative))
    (hnonneg : 0 ≤ lhsFactor sameSign bigger * A + rhsFactor sameSign bigger * magnitude rhs.absolute)
    (hlt : lhsFactor sameSign bigger * A + rhsFactor sameSign bigger * magnitude rhs.absolute < (256 ^ result.length : Nat)) :
    (bignumAddition result result.length bigger lhs rhs).Returns fun data =>
      ∃ bytes, data = stored (if bigger then (lhs result).isNegative else rhs.isNegative) bytes ∧
        bytes.length = result.length ∧
        (magnitude bytes : Int) = lhsFactor sameSign bigger * A + rhsFactor sameSign bigger * magnitude rhs.absolute := by
  unfold bignumAddition
  dsimp only
  generalize hneg : (if bigger then (lhs result).isNegative else rhs.isNegative) = isResultNegative
  refine (returns_loop (I := fun s => ∃ k bytes, Written lhs rhs result A sameSign bigger isResultNegative s k bytes)
    (μ := fun s => (s.iResult + 1).toNat) ?_ ⟨0, [], ?_⟩ ?_).bind ?_
  · rintro s ⟨k, bytes, h⟩ hcond
    have hge := of_decide_eq_true hcond
    have hi := h.iResult
    refine (returns_additionTurn hsupplies hsame h (by omega)).mono ?_
    rintro s' ⟨bytes', h'⟩
    have hi' := h'.iResult
    exact ⟨⟨k + 1, bytes', h'⟩, by omega⟩
  · refine ⟨Nat.zero_le _, by simp, by simp, by simp, ⟨Nat.zero_le 1, Nat.zero_le 1, fun _ => rfl, fun _ => rfl⟩, ?_, rfl, ?_⟩
    · cases isResultNegative <;> simp
    · simp [Nat.mod_one]
  · dsimp only
    omega
  · rintro s ⟨⟨k, bytes, h⟩, hcond⟩
    have hge := of_decide_eq_false hcond
    have hi := h.iResult
    have hle := h.le
    obtain rfl : k = result.length := by omega
    have hbytes := h.length
    have hresult : s.result = stored isResultNegative bytes := by
      rw [h.result, Nat.sub_self, List.take_zero, List.nil_append]
    -- no carry is left
    have hmagnitude : (magnitude bytes : Int) =
        lhsFactor sameSign bigger * A + rhsFactor sameSign bigger * magnitude rhs.absolute := by
      have hm := h.magnitude
      have hmlt := magnitude_lt bytes
      have hcarry := h.carries.carry_le
      have hborrow := h.carries.borrow_le
      rw [hbytes] at hmlt
      rw [Nat.mod_eq_of_lt hA, Nat.mod_eq_of_lt hB] at hm
      generalize lhsFactor sameSign bigger * (A : Int) + rhsFactor sameSign bigger * (magnitude rhs.absolute : Int) = X
        at hnonneg hlt hm ⊢
      generalize 256 ^ result.length = base at hlt hm hmlt
      obtain hc | hc | hc : (s.carry : Int) - s.borrow = 0 ∨ (s.carry : Int) - s.borrow = 1 ∨
          (s.carry : Int) - s.borrow = -1 := by omega
      all_goals
        rw [hc] at hm
        omega
    split
    next hflip =>
      -- the sign is turned: the result is the difference from the right operand, in its last bytes
      obtain rfl : bigger = false := by
        cases bigger with
        | true => exact absurd hneg.symm hflip
        | false => rfl
      obtain rfl : isResultNegative = rhs.isNegative := hneg.symm
      have hsameFalse : sameSign = false := by
        rw [hsame, beq_eq_false_iff_ne]
        exact Ne.symm hflip
      have hrest : magnitude bytes < 256 ^ rhs.size := by
        have hrhs := magnitude_lt rhs.absolute
        rw [BignumIntermediate.length_absolute] at hrhs
        rw [hsameFalse] at hmagnitude
        simp only [lhsFactor, rhsFactor, Bool.or_self, Bool.not_false, Bool.or_true, Bool.false_eq_true, if_true,
          if_false] at hmagnitude
        omega
      have hzeros := take_eq_zeros hrest
      rw [hbytes] at hzeros
      have hloop := returns_forLoop (fun i result => write result i (filler rhs.isNegative)) 0 (result.length - rhs.size)
        (s := s.result) (I := fun _ data => data = stored rhs.isNegative bytes) ?_ hresult
      · exact hloop.mono fun data hdata => ⟨bytes, hdata, hbytes, hmagnitude⟩
      · rintro i data - hi' rfl
        rw [Nat.zero_add] at hi'
        have hlt' : i < bytes.length := by omega
        have hzero : bytes[i]? = some 0 := by
          have hget : (bytes.take (result.length - rhs.size))[i]? = some 0 := by
            rw [hzeros, List.getElem?_replicate, if_pos hi']
          rwa [List.getElem?_take_of_lt hi'] at hget
        have hget : (stored rhs.isNegative bytes)[i]? = some (filler rhs.isNegative) := by
          rw [getElem?_stored, hzero]
          cases rhs.isNegative <;> rfl
        unfold write
        rw [if_pos (by rw [length_stored]; exact hlt')]
        refine returns_done ?_
        obtain ⟨hlen, helem⟩ := List.getElem?_eq_some_iff.1 hget
        rw [← helem, List.set_getElem_self]
    next => exact returns_done ⟨bytes, hresult, hbytes, hmagnitude⟩

end Addition

/-! ## What an intermediate stands for -/

namespace BignumIntermediate

variable {v rhs : BignumIntermediate} {z w : Int}

/-- An integer that fits, in no more memory than there ever is. Zero is not negative. -/
structure Holds (v : BignumIntermediate) (z : Int) : Prop where
  pos : 0 < v.size
  size_le : v.size ≤ 2 ^ 24
  magnitude : magnitude v.absolute = z.natAbs
  isNegative : v.isNegative = decide (z < 0)
  fits : Fits z

theorem holds_initialized : initialized.Holds 0 := ⟨by decide, by decide, rfl, rfl, by decide⟩

theorem Holds.actualSize (h : v.Holds z) : v.size - v.startDataPos = byteCount z.natAbs := by
  rw [actualSize_eq, h.magnitude]

theorem Holds.lt (h : v.Holds z) : z.natAbs < 256 ^ v.size := by
  have hlt := magnitude_lt v.absolute
  rwa [h.magnitude, length_absolute] at hlt

theorem Holds.toBignum (h : v.Holds z) : v.toBignum = encode z := by
  have hpos := h.pos
  unfold BignumIntermediate.toBignum
  dsimp only
  rw [data_eq, trim_stored (by rw [length_absolute]; exact hpos), h.magnitude, h.isNegative, length_stored, encode]

theorem returns_ofBlob (h : Fits z) : (ofBlob (encode z)).Returns fun v => v.Holds z ∧ v.size = max 1 (byteCount z.natAbs) := by
  have hle := length_significant_le h
  obtain ⟨b, rest, hencode, hsign⟩ := exists_head_encode h
  have hdrop : (encode z).drop bignumHeaderSize = stored (decide (z < 0)) (significant z.natAbs) := rfl
  unfold ofBlob
  rw [hdrop, hencode, read_cons_zero, done_bind, hsign]
  have hsize : (⟨decide (z < 0), stored (decide (z < 0)) (significant z.natAbs)⟩ : BignumIntermediate).size =
      max 1 (byteCount z.natAbs) := by
    rw [size, length_stored, length_significant]
  have hmax : maxDataSize ≤ 2 ^ 24 := by decide
  rw [length_significant] at hle
  refine returns_done ⟨⟨?_, ?_, ?_, rfl, h⟩, hsize⟩
  · rw [hsize]
    exact Nat.le_max_left 1 _
  · rw [hsize]
    exact hle.trans hmax
  · rw [absolute, stored_stored, magnitude_significant]

theorem negate_eq (h : v.Holds z) (hsize : v.size = max 1 (byteCount z.natAbs)) : v.negate = encode (-z) := by
  have hbytes : v.absolute = significant z.natAbs := by
    have := @eq_significant v.absolute (by rw [length_absolute, hsize, h.magnitude])
    rwa [h.magnitude] at this
  have hlength : v.size = (significant z.natAbs).length := by rw [← hbytes, length_absolute]
  have hdata : v.data = stored (decide (z < 0)) (significant z.natAbs) := by rw [data_eq, hbytes, h.isNegative]
  unfold negate
  by_cases hz : z = 0
  · have hzero : (!v.isNegative && v.data == [0]) = true := by
      rw [hdata, h.isNegative, hz]
      rfl
    rw [if_pos hzero, hdata, h.isNegative, hlength, hz]
    rfl
  · have hnot : (!v.isNegative && v.data == [0]) = false := by
      rw [Bool.and_eq_false_iff]
      by_cases hneg : z < 0
      · exact .inl (by rw [h.isNegative, decide_eq_true hneg]; rfl)
      · refine .inr (beq_eq_false_iff_ne.2 fun hdata' => ?_)
        have hm := h.magnitude
        rw [absolute, h.isNegative, decide_eq_false hneg, stored_false, hdata'] at hm
        exact hz (Int.natAbs_eq_zero.1 hm.symm)
    rw [if_neg (by rw [hnot]; exact Bool.false_ne_true), hdata, h.isNegative, hlength, encode, Int.natAbs_neg]
    by_cases hneg : z < 0
    · rw [decide_eq_true hneg, decide_eq_false (by omega : ¬ -z < 0)]
      have htwice := @stored_stored true (significant z.natAbs)
      rw [stored_true, stored_true] at htwice
      rw [stored_true, htwice]
      rfl
    · rw [decide_eq_false hneg, decide_eq_true (by omega : -z < 0)]
      rfl

theorem returns_reallocate (h : v.Holds z) {minSize : Nat} (hle : minSize ≤ 2 ^ 23) :
    (v.reallocate minSize).Returns fun v' => v'.Holds z ∧ v.size ≤ v'.size ∧ minSize < v'.size := by
  have hpos := h.pos
  have hsize := h.size_le
  unfold reallocate
  split
  next hlt => exact returns_done ⟨h, Nat.le_refl _, hlt⟩
  next hge =>
    refine (returns_loop (I := fun newSize => v.size ≤ newSize ∧ newSize ≤ 2 ^ 24) (μ := fun newSize => minSize + 1 - newSize)
      ?_ ⟨Nat.le_refl _, hsize⟩ (by omega)).bind ?_
    · rintro newSize ⟨hlow, -⟩ hcond
      have hle' := of_decide_eq_true hcond
      have hmod : newSize * 2 % 2 ^ 32 = newSize * 2 := Nat.mod_eq_of_lt (by omega)
      rw [hmod]
      exact returns_done ⟨⟨by omega, by omega⟩, by omega⟩
    · rintro newSize ⟨⟨hlow, hhigh⟩, hcond⟩
      have hgt := of_decide_eq_false hcond
      have hnew : (⟨v.isNegative, replicate (newSize - v.size) (filler v.isNegative) ++ v.data⟩ :
          BignumIntermediate).size = newSize := by
        rw [size, length_append, length_replicate]
        unfold size at hlow ⊢
        omega
      refine returns_done ⟨⟨?_, ?_, ?_, h.isNegative, h.fits⟩, ?_, ?_⟩
      · rw [hnew]
        omega
      · rw [hnew]
        exact hhigh
      · have hzeros : replicate (newSize - v.size) (filler v.isNegative) =
            stored v.isNegative (replicate (newSize - v.size) 0) := (stored_replicate_zero _).symm
        rw [absolute]
        dsimp only
        rw [hzeros, stored_append, stored_stored, magnitude_zeros_append]
        exact h.magnitude
      · rw [hnew]
        exact hlow
      · rw [hnew]
        omega

theorem needsByte_eq (h : v.Holds z) (h' : rhs.Holds w) : v.needsByte rhs = done
    (decide (byteCount z.natAbs < byteCount w.natAbs) || decide (z < 0) == decide (w < 0) &&
      (decide (256 ^ v.size ≤ 2 * z.natAbs) || decide (256 ^ rhs.size ≤ 2 * w.natAbs) && v.size == rhs.size)) := by
  unfold needsByte
  rw [isMSBSet_eq h.pos, isMSBSet_eq h'.pos, done_bind, done_bind, h.actualSize, h'.actualSize, h.isNegative, h'.isNegative,
    h.magnitude, h'.magnitude]

/-! ## One addition -/

/-- What the magnitudes of operands compare as, where their signs differ. -/
def signedComparison (z w : Int) : AbsoluteNumberComparison :=
  if decide (z < 0) = decide (w < 0) then .greater else comparisonOf (compare z.natAbs w.natAbs)

theorem comparison_eq (h : v.Holds z) (h' : rhs.Holds w) :
    (if v.isNegative ≠ rhs.isNegative then v.isAbsoluteBigger rhs else done .greater) = done (signedComparison z w) := by
  unfold signedComparison
  rw [h.isNegative, h'.isNegative, isAbsoluteBigger_eq, h.magnitude, h'.magnitude]
  split_ifs <;> simp_all

theorem add_eq_zero_of_equal (h : signedComparison z w = .equal) : z + w = 0 := by
  unfold signedComparison at h
  split at h
  next => exact absurd h (by decide)
  next hsign =>
    rw [decide_eq_decide] at hsign
    cases hc : compare z.natAbs w.natAbs with
    | eq =>
      have := Nat.compare_eq_eq.1 hc
      omega
    | lt => rw [hc] at h; exact absurd h (by decide)
    | gt => rw [hc] at h; exact absurd h (by decide)

theorem factors_eq (h : signedComparison z w ≠ .equal) :
    lhsFactor (decide (z < 0) == decide (w < 0)) (decide (signedComparison z w ≠ .smaller)) * z.natAbs +
        rhsFactor (decide (z < 0) == decide (w < 0)) (decide (signedComparison z w ≠ .smaller)) * w.natAbs =
      (z + w).natAbs ∧
    (if decide (signedComparison z w ≠ .smaller) then decide (z < 0) else decide (w < 0)) = decide (z + w < 0) := by
  by_cases hsign : decide (z < 0) = decide (w < 0)
  · have hgreater : signedComparison z w = .greater := if_pos hsign
    rw [hgreater, hsign]
    rw [decide_eq_decide] at hsign
    simp only [lhsFactor, rhsFactor, beq_self_eq_true, Bool.true_or, if_true, ne_eq, reduceCtorEq, not_false_eq_true,
      decide_true]
    exact ⟨by omega, decide_eq_decide.2 (by omega)⟩
  · have hcompare : signedComparison z w = comparisonOf (compare z.natAbs w.natAbs) := if_neg hsign
    have hbeq : (decide (z < 0) == decide (w < 0)) = false := beq_eq_false_iff_ne.2 hsign
    rw [hbeq]
    rw [hcompare] at h ⊢
    rw [decide_eq_decide] at hsign
    cases hc : compare z.natAbs w.natAbs with
    | eq => exact absurd (by rw [hc]; rfl) h
    | lt =>
      have hlt := Nat.compare_eq_lt.1 hc
      simp only [comparisonOf, lhsFactor, rhsFactor, ne_eq, not_true_eq_false, decide_false, Bool.or_self, Bool.not_false,
        Bool.or_true, Bool.false_eq_true, if_true, if_false]
      exact ⟨by omega, decide_eq_decide.2 (by omega)⟩
    | gt =>
      have hgt := Nat.compare_eq_gt.1 hc
      simp only [comparisonOf, lhsFactor, rhsFactor, ne_eq, reduceCtorEq, not_false_eq_true, decide_true, Bool.or_true,
        Bool.not_true, Bool.or_self, Bool.false_eq_true, if_true, if_false]
      exact ⟨by omega, decide_eq_decide.2 (by omega)⟩

/-- Bytes that are enough for both operands, and for their sum where the signs are the same. -/
structure Enough (n : Nat) (z w : Int) : Prop where
  left : z.natAbs < 256 ^ n
  right : w.natAbs < 256 ^ n
  sum : (z < 0 ↔ w < 0) → z.natAbs + w.natAbs < 256 ^ n

theorem Enough.lt {n : Nat} (h : Enough n z w) : (z + w).natAbs < 256 ^ n := by
  have hleft := h.left
  have hright := h.right
  by_cases hsign : z < 0 ↔ w < 0
  · have := h.sum hsign
    omega
  · omega

theorem returns_sum {result : List UInt8} {lhs : List UInt8 → BignumIntermediate} (h' : rhs.Holds w)
    (hsupplies : Supplies lhs result z.natAbs) (hneg : (lhs result).isNegative = decide (z < 0))
    (henough : Enough result.length z w) (hne : signedComparison z w ≠ .equal) :
    (bignumAddition result result.length (decide (signedComparison z w ≠ .smaller)) lhs rhs).Returns fun data =>
      ∃ bytes, data = stored (decide (z + w < 0)) bytes ∧ bytes.length = result.length ∧
        magnitude bytes = (z + w).natAbs := by
  obtain ⟨hfactors, hsign⟩ := factors_eq hne
  have hlt := henough.lt
  have hreturns := @returns_bignumAddition _ (decide (signedComparison z w ≠ .smaller)) _ _ _ _ hsupplies
    henough.left (by rw [h'.magnitude]; exact henough.right) rfl
  rw [hneg, h'.isNegative, h'.magnitude, hfactors, hsign] at hreturns
  refine (hreturns (by omega) (by exact_mod_cast hlt)).mono ?_
  rintro data ⟨bytes, hdata, hlength, hmagnitude⟩
  exact ⟨bytes, hdata, hlength, by exact_mod_cast hmagnitude⟩

theorem two_mul_pow_le {m n : Nat} (h : m < n) : 2 * 256 ^ m ≤ 256 ^ n := by
  have hle : 256 ^ (m + 1) ≤ 256 ^ n := Nat.pow_le_pow_right (by decide) h
  rw [Nat.pow_succ] at hle
  omega

theorem Enough.of_byteCount {m n : Nat} (hz : byteCount z.natAbs ≤ m) (hw : byteCount w.natAbs ≤ m) (h : m < n) :
    Enough n z w := by
  have hle := two_mul_pow_le h
  have hlt := byteCount_le_iff.1 hz
  have hlt' := byteCount_le_iff.1 hw
  exact ⟨by omega, by omega, fun _ => by omega⟩

theorem enough_add (h : v.Holds z) (h' : rhs.Holds w) (hsize : v.size = max 1 (byteCount z.natAbs))
    (hsize' : rhs.size = max 1 (byteCount w.natAbs)) {needed : Bool} (hneeded : v.needsByte rhs = done needed) {n : Nat}
    (hn : n = if needed then (if byteCount z.natAbs < byteCount w.natAbs then byteCount w.natAbs + 1
      else byteCount z.natAbs + 1) else byteCount z.natAbs) : Enough (if n = 0 then n + 1 else n) z w := by
  rw [needsByte_eq h h'] at hneeded
  have hneeded' := Outcome.done.inj hneeded
  cases needed with
  | true =>
    rw [if_pos rfl] at hn
    rw [if_neg (by split at hn <;> omega)]
    by_cases hlt : byteCount z.natAbs < byteCount w.natAbs
    · rw [if_pos hlt] at hn
      exact Enough.of_byteCount hlt.le (Nat.le_refl _) (by omega)
    · rw [if_neg hlt] at hn
      exact Enough.of_byteCount (Nat.le_refl _) (Nat.not_lt.1 hlt) (by omega)
  | false =>
    rw [if_neg Bool.false_ne_true] at hn
    rw [Bool.or_eq_false_iff, decide_eq_false_iff_not] at hneeded'
    obtain ⟨hle, hcarry⟩ := hneeded'
    have hnsize : (if n = 0 then n + 1 else n) = v.size := by
      rw [hsize]
      split <;> omega
    have hzsize := h.lt
    have hwsize : w.natAbs < 256 ^ v.size := by
      rw [hsize]
      exact byteCount_le_iff.1 (by omega)
    rw [hnsize]
    refine ⟨hzsize, hwsize, fun hsign => ?_⟩
    rw [decide_eq_decide.2 hsign, beq_self_eq_true, Bool.true_and, Bool.or_eq_false_iff, decide_eq_false_iff_not,
      Bool.and_eq_false_iff, decide_eq_false_iff_not, beq_eq_false_iff_ne] at hcarry
    rcases hcarry.2 with hmsb | hne
    · rcases Nat.lt_or_ge rhs.size v.size with hlt | hge
      · have hpow := two_mul_pow_le hlt
        have := h'.lt
        omega
      · have heq : rhs.size = v.size := by omega
        rw [heq] at hmsb
        omega
    · have hpow := two_mul_pow_le (show rhs.size < v.size by omega)
      have := h'.lt
      omega

/-- `Add` of canonical blobs is exact, and fails where the sum needs too many bytes. -/
theorem add_spec (h : v.Holds z) (h' : rhs.Holds w) (hsize : v.size = max 1 (byteCount z.natAbs))
    (hsize' : rhs.size = max 1 (byteCount w.natAbs)) :
    (Fits (z + w) → v.add rhs = done (encode (z + w))) ∧ (¬ Fits (z + w) → ∃ message, v.add rhs = error message) := by
  obtain ⟨needed, hneeded⟩ : ∃ needed, v.needsByte rhs = done needed := ⟨_, needsByte_eq h h'⟩
  unfold add
  rw [h.actualSize, h'.actualSize, comparison_eq h h']
  dsimp only
  rw [hneeded, done_bind, done_bind]
  by_cases hequal : signedComparison z w = .equal
  · rw [if_pos hequal, add_eq_zero_of_equal hequal]
    exact ⟨fun _ => rfl, fun hfits => absurd (by decide) hfits⟩
  · generalize hn : (if needed = true then (if byteCount z.natAbs < byteCount w.natAbs then byteCount w.natAbs + 1
      else byteCount z.natAbs + 1) else byteCount z.natAbs) = n
    have henough := enough_add h h' hsize hsize' hneeded hn.symm
    have hmpos : 0 < if n = 0 then n + 1 else n := by split <;> omega
    generalize (if n = 0 then n + 1 else n) = m at henough hmpos ⊢
    have hm : m = (replicate m (0 : UInt8)).length := length_replicate.symm
    have hsupplies := supplies_const v (replicate m 0)
    rw [h.magnitude] at hsupplies
    have hsum := returns_sum h' hsupplies h.isNegative (hm ▸ henough) hequal
    rw [← hm] at hsum
    obtain ⟨data, hdata, bytes, rfl, hlength, hmagnitude⟩ := hsum
    have hsign := (factors_eq hequal).2
    rw [if_neg hequal, hdata, done_bind, h.isNegative, h'.isNegative]
    have hresult : (if signedComparison z w ≠ .smaller then decide (z < 0) else decide (w < 0)) = decide (z + w < 0) := by
      rw [← hsign]
      simp only [decide_eq_true_eq]
    rw [hresult, overOrUnderflow_stored, hmagnitude]
    constructor
    · intro hfits
      rw [if_neg (by rw [decide_eq_true_eq]; exact Nat.not_lt.2 hfits), trim_stored (by omega), hmagnitude, length_stored,
        encode]
    · intro hfits
      rw [if_pos (decide_eq_true (Nat.not_le.1 hfits))]
      exact ⟨_, rfl⟩

/-- The addition loses a carry: nothing makes room for it, since the first bit of the left operand is clear and that of the
right one is hidden behind a filler byte. -/
def LosesCarry (v rhs : BignumIntermediate) : Prop :=
  v.isNegative = rhs.isNegative ∧ v.startDataPos = 0 ∧ v.isMSBSet = done false ∧ 0 < rhs.startDataPos ∧
    rhs.size - rhs.startDataPos = v.size ∧ 256 ^ v.size ≤ Lib.magnitude v.absolute + Lib.magnitude rhs.absolute

instance (v rhs : BignumIntermediate) : Decidable (LosesCarry v rhs) := by
  unfold LosesCarry
  infer_instance

theorem enough_of_not_needed (h : v.Holds z) (h' : rhs.Holds w) (hneeded : v.needsByte rhs = done false)
    (hcarry : ¬ LosesCarry v rhs) : Enough v.size z w := by
  rw [needsByte_eq h h'] at hneeded
  have hneeded' := Outcome.done.inj hneeded
  rw [Bool.or_eq_false_iff, decide_eq_false_iff_not] at hneeded'
  obtain ⟨hle, hbits⟩ := hneeded'
  have hzsize := h.lt
  have hcount : byteCount z.natAbs ≤ v.size := byteCount_le_iff.2 hzsize
  have hwsize : w.natAbs < 256 ^ v.size := byteCount_le_iff.1 (by omega)
  refine ⟨hzsize, hwsize, fun hsign => ?_⟩
  rw [decide_eq_decide.2 hsign, beq_self_eq_true, Bool.true_and, Bool.or_eq_false_iff, decide_eq_false_iff_not,
    Bool.and_eq_false_iff, decide_eq_false_iff_not, beq_eq_false_iff_ne] at hbits
  obtain ⟨hmsb, hrhs⟩ := hbits
  by_contra hsum
  -- the right operand needs all bytes of the left one
  have hwcount : v.size ≤ byteCount w.natAbs := by
    by_contra hlt
    have hpow := two_mul_pow_le (Nat.not_le.1 hlt)
    have := byteCount_le_iff.1 (Nat.le_refl (byteCount w.natAbs))
    omega
  have hpos := h.pos
  have hactual := h.actualSize
  have hactual' := h'.actualSize
  have hsize' : byteCount w.natAbs ≤ rhs.size := byteCount_le_iff.2 h'.lt
  have hne : rhs.size ≠ v.size := by
    intro heq
    rcases hrhs with hrhs | hrhs
    · rw [heq] at hrhs
      omega
    · exact hrhs heq.symm
  refine hcarry ⟨?_, by omega, ?_, by omega, by omega, ?_⟩
  · rw [h.isNegative, h'.isNegative, decide_eq_decide.2 hsign]
  · rw [isMSBSet_eq h.pos, h.magnitude, decide_eq_false hmsb]
  · rw [h.magnitude, h'.magnitude]
    omega

theorem returns_room (h : v.Holds z) (h' : rhs.Holds w) (hcarry : ¬ LosesCarry v rhs) {needed : Bool}
    (hneeded : v.needsByte rhs = done needed) :
    (if needed = true then v.reallocate (if byteCount z.natAbs < byteCount w.natAbs then byteCount w.natAbs + 1
      else v.size + 1) else done v).Returns fun v' => v'.Holds z ∧ Enough v'.size z w := by
  cases needed with
  | false =>
    rw [if_neg Bool.false_ne_true]
    exact returns_done ⟨h, enough_of_not_needed h h' hneeded hcarry⟩
  | true =>
    rw [if_pos rfl]
    have hfits := h.fits
    have hfits' := h'.fits
    have hcount : byteCount z.natAbs ≤ v.size := byteCount_le_iff.2 h.lt
    unfold Fits maxDataSize at hfits hfits'
    by_cases hlt : byteCount z.natAbs < byteCount w.natAbs
    · rw [if_pos hlt]
      refine (returns_reallocate h (by omega)).mono ?_
      rintro v' ⟨hv', -, hsize⟩
      exact ⟨hv', Enough.of_byteCount hlt.le (Nat.le_refl _) (by omega)⟩
    · -- all bytes of one of the operands are needed
      rw [if_neg hlt]
      rw [needsByte_eq h h', decide_eq_false hlt, Bool.false_or] at hneeded
      have hbits := Outcome.done.inj hneeded
      rw [Bool.and_eq_true, Bool.or_eq_true, decide_eq_true_eq, Bool.and_eq_true, decide_eq_true_eq, beq_iff_eq] at hbits
      have hfull : ∀ {n x : Nat}, 256 ^ n ≤ 2 * x → n ≤ byteCount x := by
        intro n x hx
        by_contra hn
        have hpow := two_mul_pow_le (Nat.not_le.1 hn)
        have := byteCount_le_iff.1 (Nat.le_refl (byteCount x))
        omega
      have hsize : v.size ≤ 8388607 := by
        rcases hbits.2 with hmsb | ⟨hmsb, heq⟩
        · exact (hfull hmsb).trans hfits
        · rw [beq_iff_eq.1 heq]
          exact (hfull hmsb).trans hfits'
      refine (returns_reallocate h (by omega)).mono ?_
      rintro v' ⟨hv', -, hsize'⟩
      exact ⟨hv', Enough.of_byteCount hcount (by omega) (by omega)⟩

/-- `AddInPlace` is exact where no carry is lost, and fails where the sum needs too many bytes. -/
theorem addInPlace_spec (h : v.Holds z) (h' : rhs.Holds w) (hcarry : ¬ LosesCarry v rhs) :
    (Fits (z + w) → (v.addInPlace rhs).Returns fun v' => v'.Holds (z + w)) ∧
      (¬ Fits (z + w) → ∃ message, v.addInPlace rhs = error message) := by
  obtain ⟨needed, hneeded⟩ : ∃ needed, v.needsByte rhs = done needed := ⟨_, needsByte_eq h h'⟩
  obtain ⟨v', hroom, hv', henough⟩ := returns_room h h' hcarry hneeded
  have hcomparison := comparison_eq hv' h'
  simp only [ne_comm (a := v'.isNegative)] at hcomparison
  unfold addInPlace
  rw [h.actualSize, h'.actualSize]
  dsimp only
  rw [hneeded, done_bind, hroom, done_bind, hcomparison, done_bind]
  by_cases hequal : signedComparison z w = .equal
  · rw [if_pos hequal, add_eq_zero_of_equal hequal]
    exact ⟨fun _ => returns_done holds_initialized, fun hfits => absurd (by decide) hfits⟩
  · have hsupplies := supplies_inPlace v'
    rw [hv'.magnitude] at hsupplies
    obtain ⟨data, hdata, bytes, rfl, hlength, hmagnitude⟩ :=
      returns_sum h' hsupplies hv'.isNegative henough hequal
    have hsign := (factors_eq hequal).2
    have hresult : (if signedComparison z w ≠ .smaller then decide (z < 0) else decide (w < 0)) = decide (z + w < 0) := by
      rw [← hsign]
      simp only [decide_eq_true_eq]
    have hsize : v'.data.length = v'.size := rfl
    rw [hsize] at hdata hlength
    rw [if_neg hequal, hdata, done_bind, hv'.isNegative, h'.isNegative, hresult, overOrUnderflow_stored, hmagnitude]
    constructor
    · intro hfits
      rw [if_neg (by rw [decide_eq_true_eq]; exact Nat.not_lt.2 hfits)]
      have hnew : (⟨decide (z + w < 0), stored (decide (z + w < 0)) bytes⟩ : BignumIntermediate).size = v'.size := by
        rw [size, length_stored, hlength]
      refine returns_done ⟨hnew ▸ hv'.pos, hnew ▸ hv'.size_le, ?_, rfl, hfits⟩
      rw [absolute, stored_stored, hmagnitude]
    · intro hfits
      rw [if_pos (decide_eq_true (Nat.not_le.1 hfits))]
      exact ⟨_, rfl⟩

end BignumIntermediate

/-! ## Any number of additions -/

open BignumIntermediate

/-- The value of a canonical blob. -/
structure Value where
  value : Int
  fits : Fits value

/-- How an intermediate is made: it starts as zero, and values and other intermediates are added to it in place. -/
inductive Build where
  | start
  | addValue (target : Build) (input : Value)
  | addState (target source : Build)

namespace Build

def eval : Build → Outcome BignumIntermediate
  | start => done initialized
  | addValue target input => do
    let v ← target.eval
    let rhs ← ofBlob (encode input.value)
    v.addInPlace rhs
  | addState target source => do
    let v ← target.eval
    let rhs ← source.eval
    v.addInPlace rhs

/-- The sum of everything that is added. -/
def sum : Build → Int
  | start => 0
  | addValue target input => target.sum + input.value
  | addState target source => target.sum + source.sum

/-- All sums on the way fit. -/
def InRange : Build → Prop
  | start => True
  | addValue target input => target.InRange ∧ Fits (target.sum + input.value)
  | addState target source => target.InRange ∧ source.InRange ∧ Fits (target.sum + source.sum)

/-- No addition of an intermediate loses a carry. -/
def Keeps : Build → Prop
  | start => True
  | addValue target _ => target.Keeps
  | addState target source => target.Keeps ∧ source.Keeps ∧
      ∀ v rhs, target.eval = done v → source.eval = done rhs → ¬ LosesCarry v rhs

theorem not_losesCarry_of_value {v rhs : BignumIntermediate} {z w : Int} (h : v.Holds z) (h' : rhs.Holds w)
    (hsize : rhs.size = max 1 (byteCount w.natAbs)) : ¬ LosesCarry v rhs := by
  rintro ⟨-, -, -, hfiller, hactual, -⟩
  have hpos := h.pos
  rw [h'.actualSize] at hactual
  have hrhs := h'.actualSize
  omega

theorem eval_spec : ∀ b : Build, b.Keeps →
    (b.InRange → b.eval.Returns fun v => v.Holds b.sum) ∧ (¬ b.InRange → ∃ message, b.eval = error message)
  | start, _ => ⟨fun _ => returns_done holds_initialized, fun h => absurd trivial h⟩
  | addValue target input, hkeeps => by
    obtain ⟨hin, hout⟩ := eval_spec target hkeeps
    rw [eval, InRange, sum]
    by_cases htarget : target.InRange
    · obtain ⟨v, heval, hv⟩ := hin htarget
      obtain ⟨rhs, hblob, hrhs, hsize⟩ := returns_ofBlob input.fits
      obtain ⟨hsum, herror⟩ := addInPlace_spec hv hrhs (not_losesCarry_of_value hv hrhs hsize)
      rw [heval, done_bind, hblob, done_bind]
      exact ⟨fun h => hsum h.2, fun h => herror fun hfits => h ⟨htarget, hfits⟩⟩
    · obtain ⟨message, herror⟩ := hout htarget
      rw [herror, error_bind]
      exact ⟨fun h => absurd h.1 htarget, fun _ => ⟨message, rfl⟩⟩
  | addState target source, hkeeps => by
    obtain ⟨hin, hout⟩ := eval_spec target hkeeps.1
    obtain ⟨hin', hout'⟩ := eval_spec source hkeeps.2.1
    rw [eval, InRange, sum]
    by_cases htarget : target.InRange
    · obtain ⟨v, heval, hv⟩ := hin htarget
      rw [heval, done_bind]
      by_cases hsource : source.InRange
      · obtain ⟨rhs, heval', hrhs⟩ := hin' hsource
        obtain ⟨hsum, herror⟩ := addInPlace_spec hv hrhs (hkeeps.2.2 v rhs heval heval')
        rw [heval', done_bind]
        exact ⟨fun h => hsum h.2.2, fun h => herror fun hfits => h ⟨htarget, hsource, hfits⟩⟩
      · obtain ⟨message, herror⟩ := hout' hsource
        rw [herror, error_bind]
        exact ⟨fun h => absurd h.2.1 hsource, fun _ => ⟨message, rfl⟩⟩
    · obtain ⟨message, herror⟩ := hout htarget
      rw [herror, error_bind]
      exact ⟨fun h => absurd h.1 htarget, fun _ => ⟨message, rfl⟩⟩

end Build

/-- Sums of two blobs and negations are exact, and so are sums in place, if no addition of another intermediate loses a
carry: the blob that is made of the intermediate is that of the sum of everything that was added. -/
theorem bignum_sums_exact (b : Build) :
    (∀ z w, Fits z → Fits w → (Fits (z + w) → bignumAdd (encode z) (encode w) = done (encode (z + w))) ∧
      (¬ Fits (z + w) → ∃ message, bignumAdd (encode z) (encode w) = error message)) ∧
    (∀ z, Fits z → bignumNegate (encode z) = done (encode (-z))) ∧
    (b.Keeps → (b.InRange → b.eval.Returns fun v => v.toBignum = encode b.sum) ∧
      (¬ b.InRange → ∃ message, b.eval = error message)) := by
  refine ⟨fun z w hz hw => ?_, fun z hz => ?_, fun hkeeps => ?_⟩
  · obtain ⟨lhs, hlhs, h, hsize⟩ := returns_ofBlob hz
    obtain ⟨rhs, hrhs, h', hsize'⟩ := returns_ofBlob hw
    unfold bignumAdd
    rw [hlhs, done_bind, hrhs, done_bind]
    exact add_spec h h' hsize hsize'
  · obtain ⟨lhs, hlhs, h, hsize⟩ := returns_ofBlob hz
    unfold bignumNegate
    rw [hlhs, done_bind, negate_eq h hsize]
  · obtain ⟨hin, hout⟩ := Build.eval_spec b hkeeps
    exact ⟨fun h => (hin h).mono fun v hv => hv.toBignum, hout⟩

/-- A sum, a negation, and a sum of two intermediates. -/
theorem bignum_sums_exact_two :
    bignumAdd (encode 300) (encode (-5)) = done [0x80, 0x00, 0x02, 0x01, 0x27] ∧
      bignumNegate (encode 5) = done [0x7F, 0xFF, 0xFE, 0xFA] ∧
      (Build.addState (.addValue .start ⟨-5, by decide +kernel⟩) (.addValue .start ⟨7, by decide +kernel⟩)).eval.Returns
        fun v => v.toBignum = [0x80, 0x00, 0x01, 0x02] := by
  obtain ⟨hadd, hnegate, hbuild⟩ := bignum_sums_exact
    (.addState (.addValue .start ⟨-5, by decide +kernel⟩) (.addValue .start ⟨7, by decide +kernel⟩))
  refine ⟨?_, ?_, ?_⟩
  · rw [(hadd 300 (-5) (by decide +kernel) (by decide +kernel)).1 (by decide +kernel)]
    decide +kernel
  · rw [hnegate 5 (by decide +kernel)]
    decide +kernel
  · have hreturns := (hbuild ⟨trivial, trivial, fun v rhs hv hrhs => ?_⟩).1
        ⟨⟨trivial, by decide +kernel⟩, ⟨trivial, by decide +kernel⟩, by decide +kernel⟩
    · refine hreturns.mono fun v hv => hv.trans ?_
      decide +kernel
    · obtain rfl := Outcome.done.inj ((show _ = done ⟨true, [0xFF, 0xFF, 0xFF, 0xFA]⟩ by decide +kernel).symm.trans hv)
      rintro ⟨hsign, -⟩
      obtain rfl := Outcome.done.inj ((show _ = done ⟨false, [0x00, 0x00, 0x00, 0x07]⟩ by decide +kernel).symm.trans hrhs)
      exact absurd hsign (by decide)

/-- A target of four bytes without a filler byte, and a source of four bytes behind filler bytes. -/
def losing : Build :=
  .addState (.addValue (.addValue (.addValue .start ⟨65535, by decide +kernel⟩) ⟨65535, by decide +kernel⟩)
      ⟨16777215, by decide +kernel⟩)
    (.addValue .start ⟨4294967295, by decide +kernel⟩)

/-- The carry is lost. -/
theorem losing_wrong : losing.InRange ∧ losing.sum = 4311875580 ∧
    (losing.eval.Returns fun v => v.toBignum = encode 16908284) ∧
    ¬ losing.eval.Returns fun v => v.toBignum = encode losing.sum := by
  have heval : losing.eval = done ⟨false, [0x01, 0x01, 0xFF, 0xFC]⟩ := by decide +kernel
  refine ⟨?_, rfl, ⟨_, heval, by decide +kernel⟩, ?_⟩
  · exact ⟨⟨⟨⟨trivial, by decide +kernel⟩, by decide +kernel⟩, by decide +kernel⟩, ⟨trivial, by decide +kernel⟩,
      by decide +kernel⟩
  · rintro ⟨v, hv, hblob⟩
    obtain rfl := Outcome.done.inj (heval.symm.trans hv)
    exact absurd hblob (by decide +kernel)

/-! ## The aggregate -/

/-- How a state of the aggregate is made. -/
inductive Aggregation where
  | initial
  | operation (target : Aggregation) (input : Value)
  | combine (source target : Aggregation)

namespace Aggregation

def run : Aggregation → Outcome BignumState
  | initial => done .initial
  | operation target input => do
    let state ← target.run
    state.operation (encode input.value)
  | combine source target => do
    let state ← target.run
    let source ← source.run
    source.combine state

/-- The intermediate of a state that has a value. -/
def build : Aggregation → Option Build
  | initial => none
  | operation target input => some (.addValue (target.build.getD .start) input)
  | combine source target =>
    match source.build with
    | none => target.build
    | some source => some (.addState (target.build.getD .start) source)

/-- The state is the intermediate, once a value was added. -/
def stateOf : Option Build → Outcome BignumState
  | none => done .initial
  | some b => b.eval >>= fun v => done ⟨true, v⟩

theorem stateOf_set (b : Option Build) (f : BignumIntermediate → Outcome BignumState) :
    (stateOf b >>= fun state => f state.set.value) = (b.getD .start).eval >>= f := by
  cases b with
  | none => rfl
  | some b =>
    rw [stateOf, Option.getD_some]
    cases b.eval <;> rfl

theorem run_eq (a : Aggregation) : a.run = stateOf a.build := by
  induction a with
  | initial => rfl
  | operation target input ih =>
    rw [run, ih, build, stateOf, Build.eval]
    refine (stateOf_set target.build fun v => do
      let rhs ← ofBlob (encode input.value)
      let value ← v.addInPlace rhs
      done ⟨true, value⟩).trans ?_
    cases (target.build.getD .start).eval with
    | done v =>
      rw [done_bind, done_bind]
      cases ofBlob (encode input.value) <;> rfl
    | error | fault | hang => rfl
  | combine source target ihsource ihtarget =>
    rw [run, ihsource, ihtarget, build]
    cases source.build with
    | none =>
      dsimp only
      cases stateOf target.build <;> rfl
    | some source =>
      have hcombine : ∀ state : BignumState, (stateOf (some source) >>= fun source => source.combine state) =
          source.eval >>= fun rhs => state.set.value.addInPlace rhs >>= fun value => done ⟨true, value⟩ := by
        intro state
        rw [stateOf]
        cases source.eval <;> rfl
      dsimp only
      simp only [hcombine]
      refine (stateOf_set target.build fun v =>
        source.eval >>= fun rhs => v.addInPlace rhs >>= fun value => done ⟨true, value⟩).trans ?_
      rw [stateOf, Build.eval]
      cases (target.build.getD .start).eval <;> cases source.eval <;> rfl

/-- The values that went in, into whichever state. -/
def inputs : Aggregation → List Int
  | initial => []
  | operation target input => target.inputs ++ [input.value]
  | combine source target => target.inputs ++ source.inputs

theorem sum_inputs (a : Aggregation) :
    (a.build = none ↔ a.inputs = []) ∧ (a.build.getD .start).sum = a.inputs.sum := by
  induction a with
  | initial => exact ⟨iff_of_true rfl rfl, rfl⟩
  | operation target input ih => simp [build, inputs, Build.sum, ih.2]
  | combine source target ihs iht =>
    obtain ⟨hnone, hsum⟩ := ihs
    cases hsource : source.build with
    | none => simpa [build, inputs, hsource, hnone.1 hsource] using iht
    | some b => simp_all [build, inputs, Build.sum]

/-- However the values are spread over states, where no carry is lost the aggregate is the blob of the sum of them all, or
NULL if there are none; and it raises an error exactly where a sum on the way does not fit. -/
theorem aggregate_exact (a : Aggregation) (hkeeps : ∀ b ∈ a.build, b.Keeps) :
    ((∀ b ∈ a.build, b.InRange) → a.run.Returns fun state =>
      state.finalize = if a.inputs = [] then none else some (encode a.inputs.sum)) ∧
    ((∃ b ∈ a.build, ¬ b.InRange) → ∃ message, a.run = error message) := by
  obtain ⟨hnone, hsum⟩ := a.sum_inputs
  rw [run_eq]
  cases hbuild : a.build with
  | none => exact ⟨fun _ => returns_done (if_pos (hnone.1 hbuild)).symm, fun ⟨_, hb, _⟩ => nomatch hb⟩
  | some b =>
    rw [hbuild] at hnone hsum
    obtain ⟨hin, hout⟩ := Build.eval_spec b (hkeeps b hbuild)
    refine ⟨fun hfits => (hin (hfits b rfl)).bind fun v hv => returns_done ?_, ?_⟩
    · rw [if_neg (fun h => nomatch hnone.2 h), ← hsum, Option.getD_some, ← hv.toBignum]
      rfl
    · rintro ⟨_, ⟨⟩, hb⟩
      obtain ⟨message, h⟩ := hout hb
      exact ⟨message, by rw [stateOf, h]; rfl⟩

theorem aggregate_exact_two : (combine (operation initial ⟨-7, by decide +kernel⟩)
    (operation initial ⟨1000, by decide +kernel⟩)).run.Returns fun state => state.finalize = some (encode 993) := by
  refine (aggregate_exact _ ?_).1 ?_
  · rintro _ ⟨⟩
    refine ⟨trivial, trivial, fun v rhs hv hrhs => ?_⟩
    have htarget : (Build.addValue .start ⟨1000, by decide +kernel⟩).eval = done ⟨false, [0, 0, 0x03, 0xE8]⟩ := by decide +kernel
    have hsource : (Build.addValue .start ⟨-7, by decide +kernel⟩).eval = done ⟨true, [0xFF, 0xFF, 0xFF, 0xF8]⟩ := by
      decide +kernel
    obtain rfl := Outcome.done.inj (htarget.symm.trans hv)
    obtain rfl := Outcome.done.inj (hsource.symm.trans hrhs)
    rintro ⟨hsign, -⟩
    exact absurd hsign (by decide)
  · rintro _ ⟨⟩
    exact ⟨⟨trivial, by decide +kernel⟩, ⟨trivial, by decide +kernel⟩, by decide +kernel⟩

end Aggregation

end Haybarn.Bignum
