/-
The text of a DECIMAL is a literal with its value, so that the cast of the text back to the type returns the number. The
length that is computed beforehand is the length of the text, which fills the buffer.
-/
import Haybarn.Cast.DecimalFormat
import Haybarn.Cast.DecimalStringExact

namespace Haybarn.Cast

open Lib Lib.Outcome Common Decimal Nat
open List hiding count

/-! ## Writing -/

/-- A pointer that a text has been written before. -/
def Cursor.wrote (ptr : Cursor) (text : List UInt8) : Cursor := ⟨ptr.before.drop text.length, text ++ ptr.written⟩

section Write

variable {ptr : Cursor} {text text' : List UInt8} {n k : Nat}

@[simp] theorem Cursor.wrote_nil : ptr.wrote [] = ptr := rfl

theorem Cursor.wrote_wrote : (ptr.wrote text).wrote text' = ptr.wrote (text' ++ text) := by
  simp [Cursor.wrote, drop_drop, add_comm]

@[simp] theorem Cursor.written_wrote : (ptr.wrote text).written = text ++ ptr.written := rfl

@[simp] theorem Cursor.length_before_wrote : (ptr.wrote text).before.length = ptr.before.length - text.length :=
  length_drop

theorem Cursor.buffer_wrote {front hole : List UInt8} (h : hole.length = text.length) :
    ((Cursor.atEnd (front ++ hole)).wrote text).buffer = front ++ text := by
  rw [Cursor.buffer, Cursor.wrote, Cursor.atEnd, reverse_append, ← h, ← length_reverse, drop_left,
    reverse_reverse, append_nil]

theorem Cursor.put_eq {c : UInt8} (h : 1 ≤ ptr.before.length) : ptr.put c = .done (ptr.wrote [c]) := by
  obtain ⟨before, written⟩ := ptr
  cases before with
  | nil => exact absurd h (by simp)
  | cons b before => rfl

/-- Digits as bytes. -/
def digitBytes (ds : List Nat) : List UInt8 := ds.map digitByte

@[simp] theorem digitBytes_append {ds ds' : List Nat} : digitBytes (ds ++ ds') = digitBytes ds ++ digitBytes ds' :=
  map_append

@[simp] theorem length_digitBytes {ds : List Nat} : (digitBytes ds).length = ds.length := length_map ..

theorem getElem?_digitPairs (h : n < 100) :
    digitPairs[n * 2]? = some (digitByte (n / 10)) ∧ digitPairs[n * 2 + 1]? = some (digitByte (n % 10)) := by
  have hall : ∀ n < 100, digitPairs[n * 2]? = some (digitByte (n / 10)) ∧
      digitPairs[n * 2 + 1]? = some (digitByte (n % 10)) := by decide +kernel
  exact hall n h

theorem putPair_eq (hn : n < 100) (h : 2 ≤ ptr.before.length) :
    putPair (n * 2) ptr = .done (ptr.wrote [digitByte (n / 10), digitByte (n % 10)]) := by
  obtain ⟨hhigh, hlow⟩ := getElem?_digitPairs hn
  have hlow' : read digitPairs (n * 2 + 1) = .done (digitByte (n % 10)) := by rw [Lib.read, hlow]
  have hhigh' : read digitPairs (n * 2) = .done (digitByte (n / 10)) := by rw [Lib.read, hhigh]
  rw [putPair, hlow', done_bind, Cursor.put_eq (by omega), done_bind, hhigh', done_bind,
    Cursor.put_eq (by rw [Cursor.length_before_wrote]; simp; omega), Cursor.wrote_wrote]
  rfl

theorem formatUnsigned_eq (n : Nat) {ptr : Cursor} (h : (decimal n).length ≤ ptr.before.length) :
    formatUnsigned n ptr = .done (ptr.wrote (digitBytes (decimal n))) := by
  rw [formatUnsigned]
  by_cases hlarge : n ≥ 100
  · have hsplit : decimal n = decimal (n / 100) ++ [n % 100 / 10, n % 100 % 10] := by
      have hpadded : padded 2 (n % 100) = [n % 100 / 10, n % 100 % 10] := by
        have hlt := mod_lt n (show 100 > 0 by decide)
        refine eq_of_number_eq padded_lt (by simp; omega) (by rw [length_padded (by decide) hlt]; rfl) ?_
        rw [number_padded, number_cons, number_cons, number_nil]
        simp
        omega
      rw [← hpadded]
      exact decimal_split (k := 2) (by decide) hlarge
    have hlength : (decimal (n / 100)).length + 2 = (decimal n).length := by rw [hsplit]; simp
    rw [if_pos hlarge, putPair_eq (mod_lt n (by decide)) (by omega), done_bind,
      formatUnsigned_eq (n / 100) (by rw [Cursor.length_before_wrote]; simp; omega), Cursor.wrote_wrote, hsplit,
      digitBytes_append]
    rfl
  · rw [if_neg hlarge]
    by_cases hsmall : n < 10
    · have hone : decimal n = [n] := by
        refine eq_of_number_eq decimal_lt (by simpa using hsmall) (length_decimal (.inl rfl) (by simpa using hsmall)) ?_
        rw [number_decimal]
        simp [number]
      rw [if_pos hsmall, Cursor.put_eq (by rw [hone] at h; simpa using h), hone]
      rfl
    · have htwo : decimal n = [n / 10, n % 10] := by
        refine eq_of_number_eq decimal_lt (by simp; omega) (length_decimal (k := 1) (.inr (by omega)) (by omega)) ?_
        rw [number_decimal, number_cons, number_cons, number_nil]
        simp
        omega
      rw [if_neg hsmall, putPair_eq (by omega) (by rw [htwo] at h; simpa using h), htwo]
      rfl
termination_by n

theorem padZeros_eq : ∀ {count : Nat} {ptr : Cursor}, count ≤ ptr.before.length →
    padZeros count ptr = .done (ptr.wrote (digitBytes (replicate count 0)))
  | 0, ptr, _ => rfl
  | count + 1, ptr, h => by
    rw [padZeros, Cursor.put_eq (by omega), done_bind, padZeros_eq (by rw [Cursor.length_before_wrote]; simp; omega),
      Cursor.wrote_wrote, replicate_succ', digitBytes_append]
    rfl

theorem toNat_eq_lower {value : Hugeint} (h : ¬ (0 : BitVec 64).slt value.upper = true) (hlt : value.toNat < 2 ^ 127) :
    value.toNat = value.lower.toNat := by
  have hzero : (0 : BitVec 64).toInt = 0 := rfl
  rw [BitVec.slt_iff_toInt_lt, hzero, BitVec.toInt_eq_toNat_cond] at h
  rw [Hugeint.toNat] at hlt ⊢
  split at h <;> omega

theorem formatUnsignedHugeint_eq (value : Hugeint) {ptr : Cursor} (hlt : value.toNat < 2 ^ 127)
    (h : (decimal value.toNat).length ≤ ptr.before.length) :
    formatUnsignedHugeint value ptr = .done (ptr.wrote (digitBytes (decimal value.toNat))) := by
  rw [formatUnsignedHugeint]
  by_cases hupper : (0 : BitVec 64).slt value.upper = true
  · obtain ⟨hlo, -⟩ := toNat_lt_of_upper hupper
    obtain ⟨hdiv, hmod⟩ := Hugeint.divModPositive_spec hlt (show 0 < (100000000000000000 : BitVec 64).toNat by decide)
      (by decide)
    have hpow : (100000000000000000 : BitVec 64).toNat = 10 ^ 17 := by decide
    rw [hpow] at hdiv hmod
    have hrest := Nat.mod_lt value.toNat (show 0 < 10 ^ 17 by decide)
    have hsplit := decimal_split (k := 17) (n := value.toNat) (by decide) (by omega)
    have hpadded := length_padded (k := 17) (by decide) hrest
    have hdigits := (length_decimal_le (k := 17) (by decide)).2 hrest
    have hlength : (decimal (value.toNat / 10 ^ 17)).length + 17 = (decimal value.toNat).length := by
      rw [hsplit, length_append, hpadded]
    rw [dif_pos hupper]
    dsimp only
    rw [hmod, formatUnsigned_eq _ (by omega), done_bind, Cursor.written_wrote, length_append,
      Nat.add_sub_cancel, length_digitBytes, padZeros_eq (by rw [Cursor.length_before_wrote, length_digitBytes]; omega),
      done_bind, Cursor.wrote_wrote, ← digitBytes_append, ← padded]
    rw [formatUnsignedHugeint_eq _ (by omega) (by rw [hdiv, Cursor.length_before_wrote, length_digitBytes]; omega), hdiv,
      Cursor.wrote_wrote, ← digitBytes_append, ← hsplit]
  · rw [dif_neg hupper, formatUnsigned_eq _ (by rw [← toNat_eq_lower hupper hlt]; exact h), toNat_eq_lower hupper hlt]
termination_by value.toNat
decreasing_by
  rw [hdiv, hpow]
  omega

end Write

/-! ## The parts of a decimal -/

/-- The text before the point, if the type has digits there, and behind it. -/
def partsText (n width scale : Nat) : List UInt8 :=
  (if width > scale then digitBytes (decimal (n / 10 ^ scale)) else []) ++ point :: digitBytes (padded scale (n % 10 ^ scale))

theorem formatParts_eq {α : Type} {formatNumber : α → Cursor → Outcome Cursor} {toNat : α → Nat} {major minor : α}
    {n width scale : Nat} {dst : List UInt8}
    (hformat : ∀ value ptr, toNat value ≤ n → (decimal (toNat value)).length ≤ ptr.before.length →
      formatNumber value ptr = .done (ptr.wrote (digitBytes (decimal (toNat value)))))
    (hmajor : toNat major = n / 10 ^ scale) (hminor : toNat minor = n % 10 ^ scale) (hscale : 0 < scale)
    (h : (partsText n width scale).length ≤ dst.length) :
    formatParts formatNumber major minor width scale (Cursor.atEnd dst) =
      .done ((Cursor.atEnd dst).wrote (partsText n width scale)) := by
  have hlt := mod_lt n (show 0 < 10 ^ scale by positivity)
  have hpadded := length_padded hscale hlt
  have hdigits := (length_decimal_le hscale).2 hlt
  have hbefore : (Cursor.atEnd dst).before.length = dst.length := length_reverse
  have hwritten : (Cursor.atEnd dst).written = [] := rfl
  rw [partsText, length_append, length_cons, length_digitBytes, hpadded] at h
  rw [formatParts, hformat minor _ (by rw [hminor]; exact mod_le _ _) (by rw [hminor, hbefore]; omega), done_bind,
    Cursor.written_wrote, hwritten, append_nil, length_digitBytes, hminor,
    padZeros_eq (by rw [Cursor.length_before_wrote, length_digitBytes, hbefore]; omega), done_bind, Cursor.wrote_wrote,
    ← digitBytes_append, ← padded,
    Cursor.put_eq (by rw [Cursor.length_before_wrote, length_digitBytes, hpadded, hbefore]; omega), done_bind,
    Cursor.wrote_wrote]
  by_cases hwidth : width > scale
  · rw [if_pos hwidth, length_digitBytes] at h
    rw [if_pos hwidth, hformat major _ (by rw [hmajor]; exact div_le_self _ _) (by
      rw [hmajor, Cursor.length_before_wrote, length_append, length_digitBytes, hpadded, hbefore, length_singleton]
      omega), Cursor.wrote_wrote, hmajor, partsText, if_pos hwidth]
    rfl
  · rw [if_neg hwidth, partsText, if_neg hwidth]
    rfl

/-! ## Lengths -/

section Lengths

variable {n start count : Nat}

theorem length_filter_range (start l : Nat) : ∀ count,
    ((range count).filter fun i => start + i < l).length = min count (l - start)
  | 0 => by simp
  | count + 1 => by
    rw [range_succ, filter_append, length_append, length_filter_range start l count]
    by_cases h : start + count < l
    · simp [h]
      omega
    · simp [h]
      omega

theorem grow_eq (hstart : 0 < start) (hlo : start = 1 ∨ 10 ^ (start - 1) ≤ n) (hhi : n < 10 ^ (start + count)) :
    grow n start count = (decimal n).length := by
  have hle := (@length_decimal_le n (start + count) (by omega)).2 hhi
  have hge : start ≤ (decimal n).length := by
    rcases lt_or_ge 1 start with h | h
    · have := (@length_decimal_le n (start - 1) (by omega)).not.2 (by omega)
      omega
    · have := length_decimal_pos n
      omega
  have hfilter : (range count).filter (fun i => decide (n ≥ 10 ^ (start + i))) =
      (range count).filter fun i => start + i < (decimal n).length := by
    refine filter_congr fun i _ => decide_eq_decide.2 ?_
    have := @length_decimal_le n (start + i) (by omega)
    omega
  rw [grow, hfilter, length_filter_range]
  omega

theorem unsignedLength16_eq (h : n < 10 ^ 5) : unsignedLength16 n = (decimal n).length :=
  grow_eq (by decide) (.inl rfl) h

theorem unsignedLength32_eq (h : n < 10 ^ 10) : unsignedLength32 n = (decimal n).length := by
  rw [unsignedLength32]
  split
  next hlo => exact grow_eq (by decide) (.inr hlo) h
  next hlo => exact grow_eq (by decide) (.inl rfl) (show n < 10 ^ 4 by omega)

theorem unsignedLength64_eq (h : n < 10 ^ 20) : unsignedLength64 n = (decimal n).length := by
  rw [unsignedLength64]
  split
  next =>
    split
    next hlo => exact grow_eq (by decide) (.inr hlo) h
    next hlo _ => exact grow_eq (by decide) (.inr (show 10 ^ 10 ≤ n by omega)) (show n < 10 ^ 15 by omega)
  next =>
    split
    next hlo => exact grow_eq (by decide) (.inr hlo) (show n < 10 ^ 10 by omega)
    next hlo => exact grow_eq (by decide) (.inl rfl) (show n < 10 ^ 5 by omega)

variable {value : Hugeint}

theorem atLeastPower_iff {i : Nat} (hi : i ≤ 38) (hlt : value.toNat < 2 ^ 127) :
    atLeastPower value i = true ↔ 10 ^ i ≤ value.toNat := by
  have hpow : 10 ^ i ≤ 10 ^ 38 := Nat.pow_le_pow_right (by decide) hi
  have hholds : Storage.int128.Holds ((10 ^ i : Nat) : Int) := @holds_signed .int128 false (10 ^ i) (by
    have : 10 ^ 38 < greatest .int128 := @pow_maxWidth_lt .int128
    omega)
  have hcast : ((10 : Int) ^ i) = ((10 ^ i : Nat) : Int) := by push_cast; rfl
  rw [atLeastPower, hcast, Hugeint.greaterThanEquals_iff, Storage.toInt_limbs hholds, Hugeint.toInt_eq_toNat hlt]
  exact Int.ofNat_le

theorem growHugeint_eq (hlt : value.toNat < 2 ^ 127) (hcount : start + count ≤ 39) (hstart : 0 < start)
    (hlo : start = 1 ∨ 10 ^ (start - 1) ≤ value.toNat) (hhi : value.toNat < 10 ^ (start + count)) :
    growHugeint value start count = (decimal value.toNat).length := by
  rw [← grow_eq hstart hlo hhi, growHugeint, grow]
  congr 2
  refine filter_congr fun i hi => ?_
  rw [Bool.eq_iff_iff, atLeastPower_iff (by have := mem_range.1 hi; omega) hlt, decide_eq_true_iff]

theorem unsignedLengthHugeint_eq (hlt : value.toNat < 2 ^ 127) :
    unsignedLengthHugeint value = (decimal value.toNat).length := by
  have hpower : ∀ i, i ≤ 38 → (atLeastPower value i = true ↔ 10 ^ i ≤ value.toNat) := fun i hi => atLeastPower_iff hi hlt
  have hlower := value.lower.isLt
  rw [unsignedLengthHugeint]
  by_cases hupper : value.upper = 0
  · have heq : value.toNat = value.lower.toNat := by
      rw [Hugeint.toNat, hupper]
      simp
    rw [if_pos hupper, heq, unsignedLength64_eq (by omega)]
  · have hlarge : 2 ^ 64 ≤ value.toNat := by
      have hne : value.upper.toNat ≠ 0 := fun h => hupper (BitVec.eq_of_toNat_eq h)
      rw [Hugeint.toNat]
      omega
    rw [if_neg hupper]
    simp only [hpower 27 (by decide), hpower 32 (by decide), hpower 36 (by decide), hpower 30 (by decide),
      hpower 22 (by decide), hpower 25 (by decide), hpower 20 (by decide)]
    split
    next h27 =>
      split
      next h32 =>
        split
        next h36 => exact growHugeint_eq hlt (by decide) (by decide) (.inr h36) (by omega)
        next h36 => exact growHugeint_eq hlt (by decide) (by decide) (.inr h32) (by omega)
      next h32 =>
        split
        next h30 => exact growHugeint_eq hlt (by decide) (by decide) (.inr h30) (by omega)
        next h30 => exact growHugeint_eq hlt (by decide) (by decide) (.inr h27) (by omega)
    next h27 =>
      split
      next h22 =>
        split
        next h25 => exact growHugeint_eq hlt (by decide) (by decide) (.inr h25) (by omega)
        next h25 => exact growHugeint_eq hlt (by decide) (by decide) (.inr h22) (by omega)
      next h22 =>
        split
        next h20 => exact growHugeint_eq hlt (by decide) (by decide) (.inr h20) (by omega)
        next h20 => exact growHugeint_eq hlt (by decide) (by decide) (.inr (by omega)) (by omega)

theorem signedLength_eq {unsignedLength : Nat → Nat} {value : Int}
    (h : unsignedLength value.natAbs = (decimal value.natAbs).length) :
    signedLength unsignedLength value = (decimal value.natAbs).length + if value < 0 then 1 else 0 := by
  have hnot : ~~~value = -value - 1 := by
    cases value with
    | ofNat n =>
      show Int.negSucc n = _
      rw [Int.negSucc_eq]
      simp
      omega
    | negSucc n =>
      show Int.ofNat n = _
      rw [Int.negSucc_eq]
      simp
  rw [signedLength]
  by_cases hneg : value < 0
  · have habs : (~~~value - -1).toNat = value.natAbs := by
      rw [hnot]
      omega
    simp only [if_pos hneg, if_neg (show (-1 : Int) ≠ 0 by decide), habs, h]
    omega
  · have habs : (value - 0).toNat = value.natAbs := by omega
    simp only [if_neg hneg, if_true, habs, h]
    omega

theorem length_decimal_div (n : Nat) {scale : Nat} (hscale : 0 < scale) :
    (decimal (n / 10 ^ scale)).length = max 1 ((decimal n).length - scale) := by
  rcases Nat.lt_or_ge n (10 ^ scale) with h | h
  · have := (length_decimal_le hscale).2 h
    rw [Nat.div_eq_of_lt h, Nat.sub_eq_zero_of_le this]
    rfl
  · have hpos := length_decimal_pos (n / 10 ^ scale)
    have hsplit := congrArg length (decimal_split hscale h)
    rw [length_append, length_padded hscale (Nat.mod_lt _ (by positivity))] at hsplit
    omega

theorem length_partsText {width scale : Nat} (hscale : 0 < scale) (hle : scale ≤ width) (hn : n < 10 ^ width) :
    (partsText n width scale).length =
      max (scale + if width > scale then 2 else 1) ((decimal n).length + 1) := by
  have hpadded := length_padded hscale (mod_lt n (show 0 < 10 ^ scale by positivity))
  rw [partsText, length_append, length_cons, length_digitBytes, hpadded]
  by_cases hwidth : width > scale
  · rw [if_pos hwidth, if_pos hwidth, length_digitBytes, length_decimal_div n hscale]
    omega
  · have := (@length_decimal_le n scale hscale).2 (by rwa [show scale = width by omega])
    rw [if_neg hwidth, if_neg hwidth, length_nil]
    omega

end Lengths

/-! ## `Format` -/

/-- The magnitude of a decimal as text. -/
def magnitudeText (n width scale : Nat) : List UInt8 :=
  if scale = 0 then digitBytes (decimal n) else partsText n width scale

/-- The sign of a decimal as text. -/
def signText (value : Int) : List UInt8 := if value < 0 then [minusSign] else []

section Format

variable {type : DecimalType} {value : Int}

variable {dst : List UInt8} {width scale : Nat}

theorem putSign_eq {length : Nat} (h : dst.length = length + 1) :
    ∃ hole, putSign dst = .done ([minusSign] ++ hole) ∧ hole.length = length := by
  cases dst with
  | nil => cases h
  | cons b rest => exact ⟨rest, rfl, by simpa using h⟩

theorem decimalLength_eq {unsignedLength : Nat → Nat} (hle : scale ≤ width)
    (hvalue : value.natAbs < 10 ^ width) (h : unsignedLength value.natAbs = (decimal value.natAbs).length) :
    decimalLength unsignedLength value width scale =
      (magnitudeText value.natAbs width scale).length + if value < 0 then 1 else 0 := by
  rw [decimalLength, magnitudeText, signedLength_eq h]
  by_cases hscale : scale = 0
  · rw [if_pos hscale, if_pos hscale, length_digitBytes]
  · rw [if_neg hscale, if_neg hscale, length_partsText (pos_of_ne_zero hscale) hle hvalue]
    dsimp only
    split <;> omega

theorem formatDecimal_eq {t : Storage} (ht : t ≠ .int128) (hwidth : width ≤ 18)
    (hle : scale ≤ width) (hholds : t.Holds value) (hneg : t.Holds (-value))
    (hlength : dst.length = (magnitudeText value.natAbs width scale).length + if value < 0 then 1 else 0) :
    formatDecimal t value width scale dst = .done (signText value ++ magnitudeText value.natAbs width scale) := by
  -- what is left of the buffer behind the sign
  obtain ⟨hole, hsign, hhole⟩ : ∃ hole, (if value < 0 then do
        let n ← t.neg value
        let value ← t.convert n
        let dst ← putSign dst
        .done (value, dst)
      else .done (value, dst) : Outcome (Int × List UInt8)) = .done ((value.natAbs : Int), signText value ++ hole) ∧
      hole.length = (magnitudeText value.natAbs width scale).length := by
    by_cases hlt : value < 0
    · rw [if_pos hlt] at hlength
      obtain ⟨hole, hput, hhole⟩ := putSign_eq hlength
      refine ⟨hole, ?_, hhole⟩
      have habs : -value = (value.natAbs : Int) := by omega
      rw [if_pos hlt, Storage.neg_done hholds (Storage.holds_promoted hneg), done_bind, Storage.convert_done hneg, done_bind,
        hput, done_bind, habs, signText, if_pos hlt]
    · rw [if_neg hlt] at hlength
      have habs : value = (value.natAbs : Int) := by omega
      refine ⟨dst, ?_, hlength⟩
      rw [if_neg hlt, signText, if_neg hlt, ← habs, nil_append]
  rw [formatDecimal, hsign, done_bind]
  dsimp only
  rw [Int.toNat_natCast]
  by_cases hscale : scale = 0
  · rw [magnitudeText, if_pos hscale] at hhole ⊢
    have hroom : (decimal value.natAbs).length ≤ (Cursor.atEnd (signText value ++ hole)).before.length := by
      rw [length_digitBytes] at hhole
      rw [Cursor.atEnd, length_reverse, length_append]
      omega
    rw [if_pos hscale, formatUnsigned_eq _ hroom, done_bind, Cursor.buffer_wrote hhole]
  · have hpower : t.powerOfTen scale = .done (10 ^ scale) := if_pos (by rw [if_neg ht]; omega)
    have hnat : ((10 : Int) ^ scale).toNat = 10 ^ scale := by
      rw [← cast_ofNat, ← cast_pow, Int.toNat_natCast]
    rw [magnitudeText, if_neg hscale] at hhole ⊢
    rw [if_neg hscale, hpower, done_bind, hnat,
      @formatParts_eq _ _ id _ _ value.natAbs width scale _ (fun n ptr _ => formatUnsigned_eq n) rfl rfl
        (pos_of_ne_zero hscale) (by rw [length_append]; omega),
      done_bind, Cursor.buffer_wrote hhole]

theorem toNat_of_toInt {a : Hugeint} {n : Nat} (h : a.toInt = n) : a.toNat = n := by
  have hlt := Hugeint.toNat_lt_of_nonneg (a := a) (by omega)
  have := Hugeint.toInt_eq_toNat hlt
  omega

theorem toNat_magnitude_limbs (hholds : Storage.int128.Holds value) (hneg : Storage.int128.Holds (-value)) :
    (if (Storage.limbs value).upper.slt 0 then Hugeint.negateInPlace (Storage.limbs value) else Storage.limbs value).toNat =
      value.natAbs := by
  have hrange := (Storage.inRange_iff.2 hneg).2
  rw [Hugeint.upper_slt_zero, Storage.toInt_limbs hholds]
  by_cases hlt : value < 0
  · rw [decide_eq_true hlt, if_pos rfl]
    refine toNat_of_toInt ?_
    rw [Hugeint.toInt_negateInPlace (Storage.limbs_ne_minimum hholds (by omega)), Storage.toInt_limbs hholds]
    omega
  · rw [decide_eq_false hlt, if_neg (by decide)]
    refine toNat_of_toInt ?_
    rw [Storage.toInt_limbs hholds]
    omega

theorem decimalLengthHugeint_eq (hle : scale ≤ width) (hholds : Storage.int128.Holds value)
    (hneg : Storage.int128.Holds (-value)) (hvalue : value.natAbs < 10 ^ width) (hwidth : width ≤ 38) :
    decimalLengthHugeint (Storage.limbs value) width scale =
      (magnitudeText value.natAbs width scale).length + if value < 0 then 1 else 0 := by
  have hmagnitude := toNat_magnitude_limbs hholds hneg
  have hpow : 10 ^ width ≤ 10 ^ 38 := Nat.pow_le_pow_right (by decide) hwidth
  have hlength := @unsignedLengthHugeint_eq (if (Storage.limbs value).upper.slt 0 then
    Hugeint.negateInPlace (Storage.limbs value) else Storage.limbs value) (by rw [hmagnitude]; omega)
  have hsign : (if (Storage.limbs value).upper.slt 0 then 1 else 0) = if value < 0 then 1 else 0 := by
    rw [Hugeint.upper_slt_zero, Storage.toInt_limbs hholds]
    simp
  rw [hmagnitude] at hlength
  rw [decimalLengthHugeint, magnitudeText]
  dsimp only
  rw [hlength, hsign]
  by_cases hscale : scale = 0
  · rw [if_pos hscale, if_pos hscale, length_digitBytes]
  · rw [if_neg hscale, if_neg hscale, length_partsText (Nat.pos_of_ne_zero hscale) hle hvalue]

theorem formatDecimalHugeint_eq (hwidth : width ≤ 38) (hle : scale ≤ width)
    (hholds : Storage.int128.Holds value) (hneg : Storage.int128.Holds (-value))
    (hlength : dst.length = (magnitudeText value.natAbs width scale).length + if value < 0 then 1 else 0) :
    formatDecimalHugeint (Storage.limbs value) width scale dst =
      .done (signText value ++ magnitudeText value.natAbs width scale) := by
  have hmagnitude := toNat_magnitude_limbs hholds hneg
  obtain ⟨hole, hsign, hhole⟩ : ∃ hole, (if (Storage.limbs value).upper.slt 0 then putSign dst else .done dst) =
      .done (signText value ++ hole) ∧ hole.length = (magnitudeText value.natAbs width scale).length := by
    rw [Hugeint.upper_slt_zero, Storage.toInt_limbs hholds]
    by_cases hlt : value < 0
    · rw [if_pos hlt] at hlength
      obtain ⟨hole, hput, hhole⟩ := putSign_eq hlength
      exact ⟨hole, by rw [decide_eq_true hlt, if_pos rfl, hput, signText, if_pos hlt], hhole⟩
    · rw [if_neg hlt] at hlength
      exact ⟨dst, by rw [decide_eq_false hlt, if_neg (by decide), signText, if_neg hlt, nil_append], hlength⟩
  have hlt : value.natAbs < 2 ^ 127 := by
    have hlo := (Storage.inRange_iff.2 hneg).2
    have hhi := (Storage.inRange_iff.2 hholds).2
    omega
  rw [formatDecimalHugeint]
  dsimp only
  rw [hsign, done_bind]
  generalize (if (Storage.limbs value).upper.slt 0 then Hugeint.negateInPlace (Storage.limbs value)
    else Storage.limbs value) = magnitude at hmagnitude ⊢
  by_cases hscale : scale = 0
  · rw [magnitudeText, if_pos hscale] at hhole ⊢
    have hroom : (decimal magnitude.toNat).length ≤ (Cursor.atEnd (signText value ++ hole)).before.length := by
      rw [length_digitBytes] at hhole
      rw [hmagnitude, Cursor.atEnd, length_reverse, length_append]
      omega
    rw [if_pos hscale, formatUnsignedHugeint_eq magnitude (by omega) hroom, done_bind, hmagnitude, Cursor.buffer_wrote hhole]
  · have hpower : Storage.powerOfTen .int128 scale = .done (10 ^ scale) := if_pos (by rw [if_pos rfl]; omega)
    have hpow : 10 ^ scale ≤ 10 ^ 38 := Nat.pow_le_pow_right (by decide) (by omega)
    have hcast : ((10 : Int) ^ scale) = ((10 ^ scale : Nat) : Int) := by push_cast; rfl
    have hpowHolds : Storage.int128.Holds ((10 : Int) ^ scale) := by
      rw [hcast]
      refine @holds_signed .int128 false (10 ^ scale) ?_
      have : 10 ^ 38 < greatest .int128 := @pow_maxWidth_lt .int128
      omega
    have hint : magnitude.toInt = value.natAbs := by rw [Hugeint.toInt_eq_toNat (by omega), hmagnitude]
    have hspec := Hugeint.divMod_spec (a := magnitude) (b := Storage.limbs (10 ^ scale))
      (by rw [Storage.toInt_limbs hpowHolds]; positivity) (by rw [hint]; omega)
    rw [hint, Storage.toInt_limbs hpowHolds, hcast, ← Int.ofNat_tdiv, ← Int.ofNat_tmod] at hspec
    rw [magnitudeText, if_neg hscale] at hhole ⊢
    rw [if_neg hscale, hpower, done_bind,
      @formatParts_eq _ _ Hugeint.toNat _ _ value.natAbs width scale _
        (fun n ptr hn => formatUnsignedHugeint_eq n (by omega)) (toNat_of_toInt (by rw [hcast]; exact hspec.1))
        (toNat_of_toInt (by rw [hcast]; exact hspec.2)) (Nat.pos_of_ne_zero hscale) (by rw [length_append]; omega),
      done_bind, Cursor.buffer_wrote hhole]

theorem format_eq (memory : Nat → UInt8) (hvalue : value.natAbs < 10 ^ type.width) :
    format memory type value = .done (signText value ++ magnitudeText value.natAbs type.width type.scale) := by
  have hgreatest := @pow_width_lt_greatest type
  have hboth : ∀ n : Int, n.natAbs = value.natAbs → type.internalType.Holds n := by
    intro n hn
    have hsigned : n = signed (decide (n < 0)) value.natAbs := by
      by_cases h : n < 0
      · rw [decide_eq_true h, signed, if_pos rfl]
        omega
      · rw [decide_eq_false h, signed, if_neg (by decide)]
        omega
    rw [hsigned]
    exact holds_signed (by omega)
  have hholds := hboth value rfl
  have hneg := hboth (-value) (Int.natAbs_neg value)
  have hlength : ∀ n, (emptyString memory n).length = n := fun n => by simp [emptyString]
  have hmax := width_le_maxWidth type
  rw [format]
  cases ht : type.internalType with
  | int16 =>
    rw [ht] at hholds hneg hmax
    have hpow : 10 ^ type.width ≤ 10 ^ 4 := Nat.pow_le_pow_right (by decide) hmax
    exact formatDecimal_eq (by decide) (le_trans hmax (by decide)) type.scale_le hholds hneg
      ((hlength _).trans (decimalLength_eq type.scale_le hvalue (unsignedLength16_eq (by omega))))
  | int32 =>
    rw [ht] at hholds hneg hmax
    have hpow : 10 ^ type.width ≤ 10 ^ 9 := Nat.pow_le_pow_right (by decide) hmax
    exact formatDecimal_eq (by decide) (le_trans hmax (by decide)) type.scale_le hholds hneg
      ((hlength _).trans (decimalLength_eq type.scale_le hvalue (unsignedLength32_eq (by omega))))
  | int64 =>
    rw [ht] at hholds hneg hmax
    have hpow : 10 ^ type.width ≤ 10 ^ 18 := Nat.pow_le_pow_right (by decide) hmax
    exact formatDecimal_eq (by decide) hmax type.scale_le hholds hneg
      ((hlength _).trans (decimalLength_eq type.scale_le hvalue (unsignedLength64_eq (by omega))))
  | int128 =>
    rw [ht] at hholds hneg hmax
    exact formatDecimalHugeint_eq hmax type.scale_le hholds hneg
      ((hlength _).trans (decimalLengthHugeint_eq type.scale_le hholds hneg hvalue hmax))

end Format

/-! ## The text as a literal -/

/-- Digits without underscores. -/
def plainDigits (ds : List Nat) (h : ∀ d ∈ ds, d < 10) : List Digit := ds.pmap (fun d hd => ⟨d, false, hd⟩) h

theorem values_plainDigits {ds : List Nat} {h : ∀ d ∈ ds, d < 10} : values (plainDigits ds h) = ds := by
  simp [values, plainDigits, map_pmap]

theorem digitsText_plainDigits : ∀ {ds : List Nat} {h : ∀ d ∈ ds, d < 10}, digitsText (plainDigits ds h) = digitBytes ds
  | [], _ => rfl
  | d :: ds, h => by
    have hmore : ∀ {ds : List Nat} {h : ∀ d ∈ ds, d < 10}, moreText (plainDigits ds h) = digitBytes ds := by
      intro ds
      induction ds with
      | nil => exact rfl
      | cons d ds ih =>
        intro h
        rw [plainDigits, pmap_cons, moreText, flatMap_cons, ← moreText, ← plainDigits, ih]
        simp [digitBytes, Digit.byte, digitByte, add_comm]
    rw [plainDigits, pmap_cons, digitsText, ← plainDigits, hmore]
    simp [digitBytes, Digit.byte, digitByte, add_comm]

section Formatted

variable (type : DecimalType) (value : Int)

/-- The text of a decimal as a literal. -/
def formatted : Literal where
  before := []
  sign := if value < 0 then .minus else .none
  whole :=
    if type.scale = 0 then plainDigits (decimal value.natAbs) decimal_lt
    else if type.width > type.scale then plainDigits (decimal (value.natAbs / 10 ^ type.scale)) decimal_lt
    else []
  decimals :=
    if type.scale = 0 then none else some (plainDigits (padded type.scale (value.natAbs % 10 ^ type.scale)) padded_lt)
  exponent := none
  after := []
  before_space := by simp
  after_space := by simp
  some_digit := by
    by_cases hscale : type.scale = 0
    · have hpos := length_decimal_pos value.natAbs
      refine .inl fun h => ?_
      rw [if_pos hscale] at h
      have := congrArg (fun ds => (values ds).length) h
      simp only [values_plainDigits] at this
      exact absurd this hpos.ne'
    · have hlength := length_padded (Nat.pos_of_ne_zero hscale)
        (Nat.mod_lt value.natAbs (show 0 < 10 ^ type.scale by positivity))
      refine .inr ⟨_, by rw [if_neg hscale]; rfl, fun h => ?_⟩
      have := congrArg (fun ds => (values ds).length) h
      simp only [values_plainDigits, hlength] at this
      exact hscale this

variable {type value}

theorem text_formatted : (formatted type value).text = signText value ++ magnitudeText value.natAbs type.width type.scale := by
  have hsign : (formatted type value).sign.text = signText value := by
    rw [formatted, signText]
    dsimp only
    split <;> rfl
  have hend : (formatted type value).endText = [] := rfl
  have hbefore : (formatted type value).before = [] := rfl
  rw [Literal.text, hbefore, nil_append, Literal.signedText, hsign, Literal.pointText, hend, append_nil,
    magnitudeText]
  by_cases hscale : type.scale = 0
  · simp only [formatted, if_pos hscale, Option.elim_none, append_nil, digitsText_plainDigits]
  · simp only [formatted, if_neg hscale, Option.elim_some, digitsText_plainDigits, partsText]
    by_cases hwidth : type.width > type.scale
    · simp only [if_pos hwidth, digitsText_plainDigits]
    · simp only [if_neg hwidth, digitsText]

theorem value_formatted (hvalue : value.natAbs < 10 ^ type.width) :
    (formatted type value).value * 10 ^ type.scale = value := by
  have hminus : (formatted type value).sign.isMinus = decide (value < 0) := by
    rw [formatted]
    dsimp only
    split <;> simp_all [Sign.isMinus]
  have hexponent : (formatted type value).exponentValue = 0 := rfl
  have hmantissa : (formatted type value).mantissa = value.natAbs ∧
      (formatted type value).decimalDigits.length = type.scale := by
    rw [Literal.mantissa, Literal.wholeDigits, Literal.decimalDigits, formatted]
    by_cases hscale : type.scale = 0
    · simp only [if_pos hscale, values_plainDigits, Option.getD_none]
      exact ⟨by simp [values, number_decimal], hscale.symm⟩
    · have hmod := mod_lt value.natAbs (show 0 < 10 ^ type.scale by positivity)
      have hlength := length_padded (pos_of_ne_zero hscale) hmod
      simp only [if_neg hscale, Option.getD_some, values_plainDigits]
      refine ⟨?_, hlength⟩
      rw [number_append, hlength, number_padded]
      by_cases hwidth : type.width > type.scale
      · rw [if_pos hwidth, values_plainDigits, number_decimal, div_add_mod']
      · have hequal : type.width = type.scale := le_antisymm (not_lt.1 hwidth) type.scale_le
        rw [if_neg hwidth, mod_eq_of_lt (hequal ▸ hvalue)]
        simp [values]
  have hsigned : (signed (decide (value < 0)) value.natAbs : Int) = value := by
    by_cases h : value < 0
    · rw [decide_eq_true h, signed, if_pos rfl]
      omega
    · rw [decide_eq_false h, signed, if_neg (by decide)]
      omega
  rw [Literal.value, hminus, hexponent, hmantissa.1, hmantissa.2, hsigned, zero_sub, mul_assoc, ← zpow_natCast,
    ← zpow_add₀ (by norm_num), neg_add_cancel, zpow_zero, mul_one]

end Formatted

/-! ## Casts and their inverse -/

/-- For a DECIMAL type the literals that are cast right are known, and each number with no more digits than the type is cast
back from its text. -/
theorem decimalCasts_right (type : DecimalType) :
    (∀ literal, CastRight type literal ↔
      (literal.WholeFits type → IntegerType.smallint.Holds literal.exponentValue → literal.Harmless type)) ∧
    ∀ memory (value : Int), |value| < 10 ^ type.width → ∃ text, format memory type value = .done text ∧
      tryDecimalStringCast type point text = .done (some value) := by
  refine ⟨fun literal => castRight_iff, fun memory value hlt => ?_⟩
  have hpow : ((10 ^ type.width : Nat) : Int) = 10 ^ type.width := by push_cast; rfl
  have hvalue : value.natAbs < 10 ^ type.width := by
    rw [← hpow, Int.abs_eq_natAbs] at hlt
    exact Int.ofNat_lt.1 hlt
  have hright : CastRight type (formatted type value) :=
    castRight_iff.2 fun _ _ => ⟨fun h => absurd h (lt_irrefl _), fun h => absurd h (lt_irrefl _)⟩
  have hround : RoundsTo ((formatted type value).value * 10 ^ type.scale) value := by
    rw [value_formatted hvalue]
    exact roundsTo_intCast value
  exact ⟨_, format_eq memory hvalue, text_formatted ▸ hright.accepts rfl value hround hlt⟩

/-- -12.5 as a DECIMAL(3, 1). -/
theorem decimalCasts_right_twelveAndAHalf :
    ∃ text, format (fun _ => 0) ⟨3, 1, by decide, by decide, by decide⟩ (-125) = .done text ∧
      tryDecimalStringCast ⟨3, 1, by decide, by decide, by decide⟩ point text = .done (some (-125)) :=
  (decimalCasts_right ⟨3, 1, by decide, by decide, by decide⟩).2 (fun _ => 0) (-125) (by decide)

/-- `'5e-2'`. -/
def fiveHundredths : Literal where
  before := []
  sign := .none
  whole := [⟨5, false, by decide⟩]
  decimals := none
  exponent := some ⟨false, .minus, [⟨2, false, by decide⟩], by decide⟩
  after := []
  before_space := by simp
  after_space := by simp
  some_digit := .inl (by decide)

/-- `'5e-2'` is cast to 1 as a DECIMAL(4, 0): the loop that drops two digits ends at the first, for which it rounds up. -/
theorem fiveHundredths_wrong : fiveHundredths.text = [0x35, 0x65, 0x2D, 0x32] ∧
    ∃ type : DecimalType, type.width = 4 ∧ type.scale = 0 ∧ ¬ CastRight type fiveHundredths := by
  refine ⟨by decide, ⟨4, 0, by decide, by decide, by decide⟩, rfl, rfl, fun h => ?_⟩
  exact (castRight_iff.1 h (by decide) (by decide)).drops (by decide) (by decide)

end Haybarn.Cast
