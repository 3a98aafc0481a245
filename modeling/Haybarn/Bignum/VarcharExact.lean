/-
Text of any length and canonical blobs are converted without loss, both ways, and blobs compare byte by byte as their
integers. Each loop goes from the digits of one number to those of the next, so that the digits that are left are always
those of a number to one base, without a zero in front.
-/
import Haybarn.Bignum.Varchar

namespace Haybarn.Bignum

open Lib Lib.Outcome List

/-! ## Digits of a number -/

theorem eq_digits {b : Nat} (hb : 1 < b) {digits : List Nat} (hdigits : ∀ d ∈ digits, d < b)
    (hlength : digits.length ≤ (Nat.digits b (Nat.ofDigits b digits)).length) :
    digits = Nat.digits b (Nat.ofDigits b digits) := by
  have hle := (Nat.digits_length_le_iff hb (Nat.ofDigits b digits)).2 (Nat.ofDigits_lt_base_pow_length hb hdigits)
  refine Nat.ofDigits_inj_of_len_eq hb (Nat.le_antisymm hlength hle) hdigits (fun d hd => Nat.digits_lt_base hb hd) ?_
  rw [Nat.ofDigits_digits]

theorem digits_cons {b : Nat} (hb : 1 < b) {x y : Nat} (hx : x < b) :
    Nat.digits b (x + b * y) = if x = 0 ∧ y = 0 then [] else x :: Nat.digits b y := by
  split
  next h => rw [h.1, h.2, Nat.mul_zero, Nat.add_zero, Nat.digits_zero]
  next h => exact Nat.digits_add b hb x y hx (by omega)

/-! ## Dividing -/

section Divide

variable {V : Nat}

theorem lt_of_mem_digits {d : Nat} (h : d ∈ Nat.digits (10 ^ maxDigits) V) : d < 10 ^ maxDigits :=
  Nat.digits_lt_base (by decide) h

/-- Above the place, the digits are those of the quotient. -/
structure Divided (V : Nat) (s : Division) (i : Nat) : Prop where
  digits : s.digits = (Nat.digits (10 ^ maxDigits) V).take ((Nat.digits (10 ^ maxDigits) V).length - i) ++
    Nat.digits (10 ^ maxDigits)
      (Nat.ofDigits (10 ^ maxDigits) ((Nat.digits (10 ^ maxDigits) V).drop ((Nat.digits (10 ^ maxDigits) V).length - i)) / 256)
  digitIdx : s.digitIdx = (Nat.digits (10 ^ maxDigits) V).length - 1 - i
  remainder : s.remainder =
    Nat.ofDigits (10 ^ maxDigits) ((Nat.digits (10 ^ maxDigits) V).drop ((Nat.digits (10 ^ maxDigits) V).length - i)) % 256

theorem returns_divideTurn {s : Division} {i : Nat} (h : Divided V s i) (hi : i < (Nat.digits (10 ^ maxDigits) V).length) :
    (divideTurn i s).Returns fun s' => Divided V s' (i + 1) := by
  obtain ⟨hdigits, hidx, hremainder⟩ := h
  have hlt : ∀ d ∈ Nat.digits (10 ^ maxDigits) V, d < 10 ^ maxDigits := fun d hd => lt_of_mem_digits hd
  generalize hD : Nat.digits (10 ^ maxDigits) V = D at *
  -- the place, and the digit there
  obtain ⟨j, hj⟩ : ∃ j, D.length - 1 - i = j := ⟨_, rfl⟩
  have hplace : D.length - i = j + 1 := by omega
  have hplace' : D.length - (i + 1) = j := by omega
  have hjlt : j < D.length := by omega
  have hidx' : s.digitIdx = j := by omega
  generalize hd : D[j] = d
  have hdlt : d < 10 ^ maxDigits := hd ▸ hlt _ (getElem_mem _)
  have hdrop : D.drop j = d :: D.drop (j + 1) := by rw [drop_eq_getElem_cons hjlt, hd]
  have htake : D.take (j + 1) = D.take j ++ [d] := by rw [take_succ_eq_append_getElem hjlt, hd]
  have hlen : (D.take j).length = j := by
    rw [length_take]
    omega
  rw [hplace] at hdigits hremainder
  generalize hT : Nat.ofDigits (10 ^ maxDigits) (D.drop (j + 1)) = T at *
  have hnext : Nat.ofDigits (10 ^ maxDigits) (D.drop j) = d + 10 ^ maxDigits * T := by rw [hdrop, Nat.ofDigits_cons, hT]
  rw [htake, append_assoc, singleton_append] at hdigits
  have hread : Lib.read s.digits j = done d := by
    rw [hdigits, Lib.read, getElem?_append_right (by omega), hlen, Nat.sub_self]
    rfl
  have hset : ∀ x, s.digits.set j x = D.take j ++ x :: Nat.digits (10 ^ maxDigits) (T / 256) := by
    intro x
    rw [hdigits, set_append_right _ _ (by omega), hlen, Nat.sub_self]
    rfl
  have hbase : 10 ^ maxDigits = 10000000000000000 := rfl
  generalize hx : d + T % 256 * 10 ^ maxDigits = x
  have hxle : x < 256 * 10 ^ maxDigits := by
    have hle : T % 256 * 10 ^ maxDigits ≤ 255 * 10 ^ maxDigits :=
      Nat.mul_le_mul_right _ (Nat.le_of_lt_succ (Nat.mod_lt T (by decide)))
    omega
  have hxmod : x % 2 ^ 64 = x := Nat.mod_eq_of_lt (by omega)
  have hsplit : d + 10 ^ maxDigits * T = x + 256 * (10 ^ maxDigits * (T / 256)) := by
    have hdiv := Nat.div_add_mod T 256
    rw [← hx]
    conv_lhs => rw [← hdiv]
    ring
  have hquotient : (d + 10 ^ maxDigits * T) / 256 = x / 256 + 10 ^ maxDigits * (T / 256) := by
    rw [hsplit, Nat.add_mul_div_left _ _ (by decide)]
  have hrest : (d + 10 ^ maxDigits * T) % 256 = x % 256 := by rw [hsplit, Nat.add_mul_mod_self_left]
  have hxlt : x / 256 < 10 ^ maxDigits := by omega
  unfold divideTurn
  rw [hidx', Int.toNat_natCast, hread, done_bind, hremainder, hx, hxmod]
  dsimp only
  rw [hset]
  refine returns_done ⟨?_, ?_, ?_⟩
  · rw [hD, hplace', hnext, hquotient, digits_cons (by decide) hxlt]
    dsimp only
    have hempty : (j : Int) = (D.take j ++ x / 256 :: Nat.digits (10 ^ maxDigits) (T / 256)).length - 1 ↔ T / 256 = 0 := by
      rw [length_append, length_cons, hlen, ← Nat.digits_eq_nil_iff_eq_zero (b := 10 ^ maxDigits),
        ← length_eq_zero_iff]
      omega
    rw [if_congr (and_congr Iff.rfl hempty) rfl rfl]
    split
    next hzero =>
      rw [hzero.2, Nat.digits_zero, append_nil, dropLast_append_of_ne_nil (cons_ne_nil _ _)]
      exact append_nil _
    next => rfl
  · rw [hD]
    dsimp only
    omega
  · rw [hD, hplace', hnext, hrest]

theorem returns_divide (V : Nat) : (forLoop divideTurn 0 (Nat.digits (10 ^ maxDigits) V).length
    ⟨Nat.digits (10 ^ maxDigits) V, (Nat.digits (10 ^ maxDigits) V).length - 1, 0⟩).Returns fun d =>
      d.digits = Nat.digits (10 ^ maxDigits) (V / 256) ∧ d.remainder = V % 256 := by
  refine (returns_forLoop divideTurn 0 (Nat.digits (10 ^ maxDigits) V).length (I := fun i s => Divided V s i) ?_ ?_).mono ?_
  · rintro i s - hi h
    exact returns_divideTurn h (by omega)
  · refine ⟨?_, by simp, ?_⟩
    · rw [Nat.sub_zero, take_length, drop_length]
      simp
    · rw [Nat.sub_zero, drop_length]
      simp
  · rintro s ⟨hdigits, -, hremainder⟩
    rw [Nat.zero_add, Nat.sub_self, take_zero, drop_zero, Nat.ofDigits_digits, nil_append] at hdigits
    rw [Nat.zero_add, Nat.sub_self, drop_zero, Nat.ofDigits_digits] at hremainder
    exact ⟨hdigits, hremainder⟩

/-- The bytes so far are the last ones of the number, the last one first, and the digits are those of the rest. -/
structure Converted (isNegative : Bool) (V : Nat) (s : Conversion) (rest : Nat) (bytes : List UInt8) : Prop where
  digits : s.digits = Nat.digits (10 ^ maxDigits) rest
  result : s.result = (stored isNegative bytes).reverse
  value : V = rest * 256 ^ bytes.length + magnitude bytes
  needed : bytes = [] ∨ 256 ^ (bytes.length - 1) ≤ V

theorem returns_encodeTurn {isNegative : Bool} {s : Conversion} {rest : Nat} {bytes : List UInt8}
    (h : Converted isNegative V s rest bytes) (hpos : 0 < rest) :
    (encodeTurn isNegative s).Returns fun s' => ∃ b, Converted isNegative V s' (rest / 256) (b :: bytes) := by
  obtain ⟨hdigits, hresult, hvalue, -⟩ := h
  obtain ⟨d, hdivide, hd, hremainder⟩ := returns_divide rest
  unfold encodeTurn
  rw [hdigits, hdivide, done_bind, hd, hremainder]
  have hb : (UInt8.ofNat (rest % 256)).toNat = rest % 256 := UInt8.toNat_ofNat_of_lt' (Nat.mod_lt _ (by decide))
  refine returns_done ⟨UInt8.ofNat (rest % 256), rfl, ?_, ?_, .inr ?_⟩
  · have hcons : stored isNegative (UInt8.ofNat (rest % 256) :: bytes) =
        (if isNegative then ~~~(UInt8.ofNat (rest % 256)) else UInt8.ofNat (rest % 256)) :: stored isNegative bytes := by
      cases isNegative <;> rfl
    rw [hcons, reverse_cons, hresult]
  · rw [magnitude_cons, hb, length_cons, Nat.pow_succ, hvalue]
    conv_lhs => rw [← Nat.div_add_mod rest 256]
    ring
  · rw [length_cons, Nat.add_sub_cancel, hvalue]
    exact (Nat.le_mul_of_pos_left _ hpos).trans (Nat.le_add_right _ _)

theorem byteCount_div_lt {n : Nat} (h : 0 < n) : byteCount (n / 256) < byteCount n := by
  have hpos : 0 < byteCount n := Nat.pos_of_ne_zero fun hzero => h.ne' (byteCount_eq_zero_iff.1 hzero)
  have hlt := byteCount_le_iff.1 (Nat.le_refl (byteCount n))
  have hsucc : 256 ^ byteCount n = 256 ^ (byteCount n - 1) * 256 := by
    rw [← Nat.pow_succ, Nat.succ_eq_add_one, Nat.sub_add_cancel hpos]
  have := (byteCount_le_iff (n := n / 256) (k := byteCount n - 1)).2 ((Nat.div_lt_iff_lt_mul (by decide)).2 (hsucc ▸ hlt))
  omega

theorem returns_encodeLoop (isNegative : Bool) (V : Nat) (hpos : 0 < V) :
    (loop (fun s => !s.digits.isEmpty) (encodeTurn isNegative) (7 * (Nat.digits (10 ^ maxDigits) V).length + 1)
      ⟨Nat.digits (10 ^ maxDigits) V, []⟩).Returns fun s => s.result = (stored isNegative (significant V)).reverse := by
  have hturns : byteCount V < 7 * (Nat.digits (10 ^ maxDigits) V).length + 1 := by
    refine Nat.lt_succ_of_le (byteCount_le_iff.2 ?_)
    have hlt := Nat.lt_base_pow_length_digits (b := 10 ^ maxDigits) (m := V) (by decide)
    refine hlt.trans_le ?_
    rw [Nat.pow_mul]
    exact Nat.pow_le_pow_left (by decide) _
  refine (returns_loop (I := fun s => ∃ rest bytes, Converted isNegative V s rest bytes)
    (μ := fun s => byteCount (Nat.ofDigits (10 ^ maxDigits) s.digits)) ?_ ⟨V, [], ?_⟩ ?_).mono ?_
  · rintro s ⟨rest, bytes, h⟩ hcond
    have hne : rest ≠ 0 := by
      rintro rfl
      rw [h.digits, Nat.digits_zero] at hcond
      exact absurd hcond (by decide)
    refine (returns_encodeTurn h (Nat.pos_of_ne_zero hne)).mono ?_
    rintro s' ⟨b, h'⟩
    refine ⟨⟨rest / 256, b :: bytes, h'⟩, ?_⟩
    rw [h.digits, h'.digits, Nat.ofDigits_digits, Nat.ofDigits_digits]
    exact byteCount_div_lt (Nat.pos_of_ne_zero hne)
  · refine ⟨rfl, ?_, by simp, .inl rfl⟩
    cases isNegative <;> rfl
  · rw [Nat.ofDigits_digits]
    exact hturns
  · rintro s ⟨⟨rest, bytes, h⟩, hcond⟩
    have hzero : rest = 0 := by
      have hempty : s.digits = [] := by simpa using hcond
      rw [h.digits] at hempty
      exact Nat.digits_eq_nil_iff_eq_zero.1 hempty
    have hvalue := h.value
    rw [hzero, Nat.zero_mul, Nat.zero_add] at hvalue
    have hle := byteCount_magnitude_le bytes
    have hneeded : bytes.length ≤ byteCount (magnitude bytes) := by
      rcases h.needed with rfl | hneeded
      · exact Nat.zero_le _
      · have hlt := lt_byteCount_iff.2 hneeded
        rw [hvalue] at hlt
        omega
    have hbytes : 0 < byteCount (magnitude bytes) := by
      rw [← hvalue]
      exact Nat.pos_of_ne_zero fun hzero => hpos.ne' (byteCount_eq_zero_iff.1 hzero)
    have hsignificant := @eq_significant bytes (by omega)
    rw [h.result, hsignificant, ← hvalue]

end Divide

/-! ## Cutting text into digits -/

section Cut

variable {text : List UInt8}

theorem isDigit_iff (c : UInt8) : isDigit c = true ↔ 0x30 ≤ c.toNat ∧ c.toNat ≤ 0x39 := by
  unfold isDigit
  rw [decide_eq_true_eq, UInt8.le_iff_toNat_le, UInt8.le_iff_toNat_le]
  rfl

/-- The number of a text of digits. -/
def textNumber (text : List UInt8) : Nat := number (text.map charToDigit)

theorem charToDigit_lt {c : UInt8} (h : isDigit c = true) : charToDigit c < 10 := by
  have := (isDigit_iff c).1 h
  unfold charToDigit
  omega

theorem textNumber_append {text' : List UInt8} :
    textNumber (text ++ text') = textNumber text * 10 ^ text'.length + textNumber text' := by
  rw [textNumber, map_append, number_append, length_map]
  rfl

theorem textNumber_lt (h : ∀ c ∈ text, isDigit c = true) : textNumber text < 10 ^ text.length := by
  have := @number_lt (text.map charToDigit) fun d hd => by
    obtain ⟨c, hc, rfl⟩ := mem_map.1 hd
    exact charToDigit_lt (h c hc)
  rwa [length_map] at this

theorem stoull_eq (h : ∀ c ∈ text, isDigit c = true) (hne : text ≠ []) (hlength : text.length ≤ maxDigits) :
    stoull text = done (textNumber text) := by
  have htake : text.takeWhile isDigit = text := by
    simpa using @takeWhile_append_of_pos _ isDigit text [] h
  have hlt := textNumber_lt h
  have hpow : 10 ^ text.length ≤ 10 ^ 16 := Nat.pow_le_pow_right (by decide) hlength
  unfold stoull
  rw [htake]
  dsimp only
  rw [if_neg (by simpa using hne)]
  exact if_pos (by show textNumber text < 2 ^ 64; omega)

/-- The last digits are cut, and those in front of them are left. -/
structure Cut (start : List UInt8) (text : List UInt8) (s : List Nat × Int) (i : Nat) : Prop where
  lt : ∀ d ∈ s.1, d < 10 ^ maxDigits
  length : s.1.length = i
  value : Nat.ofDigits (10 ^ maxDigits) s.1 = textNumber (text.drop (text.length - maxDigits * i))
  place : s.2 = ((start.length + text.length : Nat) : Int) - maxDigits * i

theorem returns_cutTurn {start rest : List UInt8} {s : List Nat × Int} {i : Nat} (h : ∀ c ∈ text, isDigit c = true)
    (hs : Cut start text s i) (hi : maxDigits * i < text.length) :
    (cutTurn (start ++ text ++ rest) start.length i s).Returns fun s' => Cut start text s' (i + 1) := by
  obtain ⟨hlt, hlength, hvalue, hplace⟩ := hs
  -- from where the next digits are
  obtain ⟨stop, hstop⟩ : ∃ stop, text.length - maxDigits * i = stop := ⟨_, rfl⟩
  have hnext : text.length - maxDigits * (i + 1) = stop - maxDigits := by
    rw [Nat.mul_add, Nat.mul_one]
    omega
  have hmax : maxDigits = 16 := rfl
  have hplace' : s.2 = ((start.length + stop : Nat) : Int) := by
    rw [hplace, ← hstop]
    push_cast
    omega
  have hstart : (if (start.length : Int) > s.2 - maxDigits then (start.length : Int) else s.2 - maxDigits) =
      ((start.length + (stop - maxDigits) : Nat) : Int) := by
    rw [hplace']
    split <;> omega
  have hcut : ((start ++ text ++ rest).drop (start.length + (stop - maxDigits))).take (stop - (stop - maxDigits)) =
      (text.drop (stop - maxDigits)).take (stop - (stop - maxDigits)) := by
    rw [append_assoc, ← drop_drop, drop_left, drop_append_of_le_length (by omega),
      take_append_of_le_length (by rw [length_drop]; omega)]
  generalize hpiece : (text.drop (stop - maxDigits)).take (stop - (stop - maxDigits)) = piece at hcut
  have hpieceLength : piece.length = stop - (stop - maxDigits) := by
    rw [← hpiece, length_take, length_drop]
    omega
  have hpieceDigits : ∀ c ∈ piece, isDigit c = true := by
    intro c hc
    rw [← hpiece] at hc
    exact h c (mem_of_mem_drop (mem_of_mem_take hc))
  have hpieceNe : piece ≠ [] := by
    rintro rfl
    rw [length_nil] at hpieceLength
    omega
  have hpieceLt := textNumber_lt hpieceDigits
  have hpow : 10 ^ piece.length ≤ 10 ^ maxDigits := Nat.pow_le_pow_right (by decide) (by omega)
  unfold cutTurn
  dsimp only
  rw [hstart, hplace', Int.toNat_natCast,
    show (((start.length + stop : Nat) : Int) - ((start.length + (stop - maxDigits) : Nat) : Int)).toNat =
      stop - (stop - maxDigits) by omega,
    hcut, stoull_eq hpieceDigits hpieceNe (by omega), done_bind]
  refine returns_done ⟨?_, ?_, ?_, ?_⟩
  · intro d hd
    rcases mem_append.1 hd with hd | hd
    · exact hlt d hd
    · rw [mem_singleton.1 hd]
      omega
  · rw [length_append, hlength, length_singleton]
  · have hsplit : text.drop (stop - maxDigits) = piece ++ text.drop stop := by
      rw [← hpiece]
      conv_lhs => rw [← take_append_drop (stop - (stop - maxDigits)) (text.drop (stop - maxDigits)), drop_drop]
      congr 2
      omega
    have hdropLength : (text.drop stop).length = maxDigits * i := by
      rw [length_drop]
      omega
    rw [Nat.ofDigits_append, hlength, hvalue, hstop, Nat.ofDigits_singleton, hnext, hsplit, textNumber_append, hdropLength,
      Nat.pow_mul]
    ring
  · dsimp only
    rw [← hplace', hplace]
    push_cast
    ring

theorem pow_le_textNumber {c : UInt8} (h : ∀ c' ∈ c :: text, isDigit c' = true) (hc : c ≠ 0x30) :
    10 ^ text.length ≤ textNumber (c :: text) := by
  have hdigit : 0 < charToDigit c := by
    have hrange := (isDigit_iff c).1 (h c mem_cons_self)
    have hne : c.toNat ≠ 0x30 := fun heq => hc (UInt8.toNat_inj.1 heq)
    unfold charToDigit
    omega
  rw [← singleton_append, textNumber_append]
  refine Nat.le_trans ?_ (Nat.le_add_right _ _)
  refine Nat.le_mul_of_pos_left _ ?_
  simpa [textNumber, number] using hdigit

theorem returns_cut {start rest : List UInt8} (h : ∀ c ∈ text, isDigit c = true) {c : UInt8} {text' : List UInt8}
    (htext : text = c :: text') (hc : c ≠ 0x30) :
    (forLoop (cutTurn (start ++ text ++ rest) start.length) 0 ((text.length + maxDigits - 1) / maxDigits)
      ([], ((start.length + text.length : Nat) : Int))).Returns fun s =>
        s.1 = Nat.digits (10 ^ maxDigits) (textNumber text) ∧ s.1.length = (text.length + maxDigits - 1) / maxDigits ∧
          0 < textNumber text := by
  have hmax : maxDigits = 16 := rfl
  have hlength : text.length = text'.length + 1 := by rw [htext, length_cons]
  have hge : 10 ^ text'.length ≤ textNumber text := by
    rw [htext] at h ⊢
    exact pow_le_textNumber h hc
  have hpos : 0 < textNumber text := (Nat.pow_pos (by decide)).trans_le hge
  refine (returns_forLoop _ 0 _ (I := fun i s => Cut start text s i) ?_ ?_).mono ?_
  · rintro i s - hi hs
    refine returns_cutTurn h hs ?_
    rw [hmax] at hi ⊢
    omega
  · refine ⟨nofun, rfl, ?_, by simp⟩
    simp [textNumber]
  · rintro s hs
    rw [Nat.zero_add] at hs
    have hvalue := hs.value
    rw [Nat.sub_eq_zero_of_le (by rw [hmax]; omega), drop_zero] at hvalue
    refine ⟨?_, hs.length, hpos⟩
    have hdigits := eq_digits (b := 10 ^ maxDigits) (by decide) hs.lt
    rw [hvalue] at hdigits
    refine hdigits ?_
    -- as many digits as there are
    by_contra hlt
    have hle := (Nat.digits_length_le_iff (b := 10 ^ maxDigits) (k := s.1.length - 1) (by decide) (textNumber text)).1
      (by omega)
    rw [hs.length, ← Nat.pow_mul] at hle
    have hpow : 10 ^ (maxDigits * ((text.length + maxDigits - 1) / maxDigits - 1)) ≤ 10 ^ text'.length :=
      Nat.pow_le_pow_right (by decide) (by rw [hmax]; omega)
    omega

end Cut

/-! ## Decimal strings -/

/-- The sign of a decimal string. -/
inductive Sign where
  | none
  | plus
  | minus
  deriving DecidableEq

def Sign.text : Sign → List UInt8
  | .none => []
  | .plus => [0x2B]
  | .minus => [0x2D]

/-- The integer of a sign and of digits. -/
def valueOf (sign : Sign) (digits : List UInt8) : Int :=
  if sign = .minus then -(textNumber digits : Int) else textNumber digits

/-- The digits without leading zeros, with the sign in front if it is a minus; one zero if nothing is left of them. -/
def plainText (sign : Sign) (digits : List UInt8) : List UInt8 :=
  let trimmed := digits.dropWhile fun c => c == 0x30
  if trimmed.isEmpty then [0x30] else (if sign = .minus then [0x2D] else []) ++ trimmed

section Text

variable {sign : Sign} {digits : List UInt8}

theorem dropWhile_zeros (digits : List UInt8) : ∃ k, digits = replicate k 0x30 ++ digits.dropWhile fun c => c == 0x30 := by
  induction digits with
  | nil => exact ⟨0, rfl⟩
  | cons c digits ih =>
    obtain ⟨k, hk⟩ := ih
    by_cases hc : c = 0x30
    · refine ⟨k + 1, ?_⟩
      rw [dropWhile_cons_of_pos (by simpa using hc), replicate_succ, cons_append, ← hk, hc]
    · exact ⟨0, by rw [dropWhile_cons_of_neg (by simpa using hc)]; rfl⟩

theorem textNumber_zeros (k : Nat) (digits : List UInt8) : textNumber (replicate k 0x30 ++ digits) = textNumber digits := by
  have hzero : textNumber (replicate k 0x30) = 0 := by
    induction k with
    | zero => rfl
    | succ k ih =>
      have hone : textNumber [0x30] = 0 := rfl
      rw [replicate_succ, ← singleton_append, textNumber_append, ih, hone, Nat.zero_mul]
  rw [textNumber_append, hzero, Nat.zero_mul, Nat.zero_add]

/-- A decimal string is taken apart: the sign and the zeros, and what is left of the digits. -/
theorem varcharFormatting_spec (h : ∀ c ∈ digits, isDigit c = true) (hne : digits ≠ []) {k : Nat} {trimmed : List UInt8}
    (hdigits : digits = replicate k 0x30 ++ trimmed) (htrimmed : trimmed = digits.dropWhile fun c => c == 0x30) :
    varcharFormatting (sign.text ++ digits) = done (some ⟨sign.text.length + k, (sign.text ++ digits).length,
      decide (sign = .minus), trimmed.isEmpty⟩) := by
  obtain ⟨c, rest, hcons⟩ := exists_cons_of_ne_nil hne
  have hc := (isDigit_iff c).1 (h c (hcons ▸ mem_cons_self))
  have hminus : c ≠ 0x2D := fun heq => by
    rw [heq] at hc
    exact absurd hc (by decide)
  have hplus : c ≠ 0x2B := fun heq => by
    rw [heq] at hc
    exact absurd hc (by decide)
  -- the first character
  obtain ⟨first, hread, hneg, hstart⟩ : ∃ first, Lib.read (sign.text ++ digits) 0 = done first ∧
      (first == 0x2D) = decide (sign = .minus) ∧
      (if first == 0x2B then (if first == 0x2D then 1 else 0) + 1 else if first == 0x2D then 1 else 0) = sign.text.length := by
    cases sign with
    | none => exact ⟨c, by rw [hcons]; rfl, by simpa using hminus, by simp [hminus, hplus, Sign.text]⟩
    | plus => exact ⟨0x2B, rfl, rfl, rfl⟩
    | minus => exact ⟨0x2D, rfl, rfl, rfl⟩
  have hlength : (sign.text ++ digits).length = sign.text.length + k + trimmed.length := by
    rw [hdigits, length_append, length_append, length_replicate, Nat.add_assoc]
  have hdrop : (sign.text ++ digits).drop sign.text.length = digits := drop_left
  obtain ⟨j, hskip, hle, hle', hj⟩ := @skipWhile_spec _ (sign.text ++ digits) (fun c => c == 0x30)
    ((sign.text ++ digits).length + 1) sign.text.length (by omega) (by omega)
  rw [hdrop, ← htrimmed] at hj
  have hjlength := congrArg length hj
  rw [length_drop] at hjlength
  obtain rfl : j = sign.text.length + k := by omega
  have hempty : (sign.text ++ digits).isEmpty = false := by
    rw [hcons]
    cases sign <;> rfl
  unfold varcharFormatting
  rw [if_neg (by rw [hempty]; exact Bool.false_ne_true)]
  dsimp only
  rw [hread, done_bind, hneg.symm, hstart, hskip, done_bind]
  by_cases hnil : trimmed = []
  · have hk : 0 < k := by
      refine Nat.pos_of_ne_zero fun hzero => hne ?_
      rw [hdigits, hzero, hnil]
      rfl
    rw [if_pos (by rw [hlength, hnil, length_nil]; rfl), if_pos (decide_eq_true (by omega)), hnil]
    rfl
  · have hpos := length_pos_iff.2 hnil
    have hall : trimmed.dropWhile isDigit = [] := by
      have hpos' : ∀ c ∈ trimmed, isDigit c = true := fun c hc => h c (hdigits ▸ mem_append_right _ hc)
      simpa using @dropWhile_append_of_pos _ isDigit trimmed [] hpos'
    obtain ⟨j', hskip', -, hle'', hj'⟩ := @skipWhile_spec _ (sign.text ++ digits) isDigit
      ((sign.text ++ digits).length + 1) (sign.text.length + k) (by omega) hle'
    rw [hj, hall, drop_eq_nil_iff] at hj'
    obtain rfl : j' = (sign.text ++ digits).length := by omega
    rw [if_neg (by omega), hskip', done_bind, if_neg (Nat.lt_irrefl _)]
    cases trimmed with
    | nil => exact absurd rfl hnil
    | cons c trimmed => rfl

theorem varcharToBignum_eq (h : ∀ c ∈ digits, isDigit c = true) (hne : digits ≠ []) :
    varcharToBignum (sign.text ++ digits) = done (encode (valueOf sign digits)) := by
  obtain ⟨k, hk⟩ := dropWhile_zeros digits
  generalize htrimmed : (digits.dropWhile fun c => c == 0x30) = trimmed at hk
  have hnumber : textNumber digits = textNumber trimmed := by rw [hk, textNumber_zeros]
  unfold varcharToBignum
  rw [varcharFormatting_spec h hne hk htrimmed.symm, done_bind]
  dsimp only
  unfold encodeBignum
  cases htext : trimmed with
  | nil =>
    have hzero : valueOf sign digits = 0 := by
      rw [valueOf, hnumber, htext]
      cases sign <;> rfl
    rw [hzero]
    rfl
  | cons c text' =>
    have hc : c ≠ 0x30 := by
      have hhead := head_dropWhile_not (fun c : UInt8 => c == 0x30) (l := digits) (by rw [htrimmed, htext]; exact cons_ne_nil _ _)
      simp only [htrimmed, htext, head_cons] at hhead
      simpa using hhead
    have hdigits' : ∀ c ∈ trimmed, isDigit c = true := fun c hc => h c (hk ▸ mem_append_right _ hc)
    have hvalue : sign.text ++ digits = sign.text ++ replicate k 0x30 ++ trimmed ++ [] := by
      conv_lhs => rw [hk]
      rw [append_nil, append_assoc]
    have hstart : (sign.text ++ replicate k (0x30 : UInt8)).length = sign.text.length + k := by
      rw [length_append, length_replicate]
    have hlength : (sign.text ++ digits).length = sign.text.length + k + trimmed.length := by
      rw [hvalue, append_nil, length_append, hstart]
    obtain ⟨cut, hcut, hfst, hcount, hpos⟩ := @returns_cut _ (sign.text ++ replicate k 0x30) [] hdigits' _ _
      htext hc
    obtain ⟨s, hloop, hresult⟩ := returns_encodeLoop (decide (sign = .minus)) (textNumber trimmed) hpos
    rw [hstart, ← hvalue] at hcut
    rw [← htext]
    dsimp only
    rw [if_neg (by rw [htext]; exact Bool.false_ne_true), hlength, Nat.add_sub_cancel_left, hcut, done_bind, ← hcount, hfst,
      hloop, done_bind, hresult, reverse_reverse, length_reverse, length_stored]
    congr 1
    have habs : (valueOf sign digits).natAbs = textNumber trimmed := by
      unfold valueOf
      split <;> omega
    have hneg : decide (valueOf sign digits < 0) = decide (sign = .minus) := by
      unfold valueOf
      rw [decide_eq_decide]
      split
      next hsign => exact iff_of_true (by omega) hsign
      next hsign => exact iff_of_false (by omega) hsign
    rw [encode, habs, hneg]

end Text

/-! ## Multiplying -/

section Multiply

/-- The text of an integer. -/
def decimalText (z : Int) : List UInt8 := (if z < 0 then [0x2D] else []) ++ (decimal z.natAbs).map digitToChar

theorem loadDigit_eq {bytes : List UInt8} {i : Nat} {b0 b1 b2 b3 : UInt8} {rest : List UInt8}
    (h : bytes.drop i = b0 :: b1 :: b2 :: b3 :: rest) : loadDigit bytes i = done (magnitude [b0, b1, b2, b3]) := by
  have h1 := drop_succ_of_drop h
  have h2 := drop_succ_of_drop h1
  have h3 := drop_succ_of_drop h2
  have hlt1 := b1.toNat_lt
  have hlt2 := b2.toNat_lt
  have hlt3 := b3.toNat_lt
  unfold loadDigit
  simp only [forLoop, Nat.add_zero, Nat.zero_add, read_of_drop h, read_of_drop h1, read_of_drop h2, read_of_drop h3,
    done_bind, Nat.zero_or]
  congr 1
  have hshift : ∀ (b : UInt8) (k : Nat), b.toNat <<< k = b.toNat * 2 ^ k := fun b k => Nat.shiftLeft_eq _ _
  have hfst := Nat.two_pow_add_eq_or_of_lt (i := 24) (show b1.toNat * 2 ^ 16 < 2 ^ 24 by omega) b0.toNat
  have hsnd := Nat.two_pow_add_eq_or_of_lt (i := 16) (show b2.toNat * 2 ^ 8 < 2 ^ 16 by omega) (2 ^ 8 * b0.toNat + b1.toNat)
  have hthd := Nat.two_pow_add_eq_or_of_lt (i := 8) (show b3.toNat < 2 ^ 8 by omega)
    (2 ^ 16 * b0.toNat + 2 ^ 8 * b1.toNat + b2.toNat)
  rw [magnitude_cons, magnitude_cons, magnitude_cons, magnitude_singleton]
  simp only [hshift, length_cons, length_nil]
  rw [show b0.toNat * 2 ^ (8 * (4 - 0 - 1)) = 2 ^ 24 * b0.toNat by omega,
    show b1.toNat * 2 ^ (8 * (4 - 1 - 1)) = b1.toNat * 2 ^ 16 by omega, ← hfst,
    show b2.toNat * 2 ^ (8 * (4 - (1 + 1) - 1)) = b2.toNat * 2 ^ 8 by omega,
    show 2 ^ 24 * b0.toNat + b1.toNat * 2 ^ 16 = 2 ^ 16 * (2 ^ 8 * b0.toNat + b1.toNat) by omega, ← hsnd,
    show b3.toNat * 2 ^ (8 * (4 - (1 + 1 + 1) - 1)) = b3.toNat by omega,
    show 2 ^ 16 * (2 ^ 8 * b0.toNat + b1.toNat) + b2.toNat * 2 ^ 8 =
      2 ^ 8 * (2 ^ 16 * b0.toNat + 2 ^ 8 * b1.toNat + b2.toNat) by omega, ← hthd]
  omega

theorem multiplyDigits_spec : ∀ {digits : List Nat} {hi : Nat}, (∀ d ∈ digits, d < decimalBase) → hi < 2 ^ 32 →
    (multiplyDigits digits hi).1.length = digits.length ∧ (∀ d ∈ (multiplyDigits digits hi).1, d < decimalBase) ∧
      Nat.ofDigits decimalBase (multiplyDigits digits hi).1 + decimalBase ^ digits.length * (multiplyDigits digits hi).2 =
        Nat.ofDigits decimalBase digits * 2 ^ 32 + hi
  | [], hi, _, _ => ⟨rfl, nofun, by simp [multiplyDigits]⟩
  | digit :: digits, hi, h, hhi => by
    have hdigit := h digit mem_cons_self
    have hbase : decimalBase = 1000000000 := rfl
    unfold multiplyDigits
    dsimp only
    have htmp : digit <<< 32 ||| hi = digit * 2 ^ 32 + hi := by
      have hor := Nat.two_pow_add_eq_or_of_lt hhi digit
      rw [Nat.shiftLeft_eq, Nat.mul_comm, ← hor]
    rw [htmp]
    obtain ⟨tmp, ht⟩ : ∃ tmp, digit * 2 ^ 32 + hi = tmp := ⟨_, rfl⟩
    rw [ht]
    have hquotient : tmp / decimalBase % 2 ^ 32 = tmp / decimalBase :=
      Nat.mod_eq_of_lt (by rw [hbase]; omega)
    rw [hquotient]
    obtain ⟨hlength, hlt, hvalue⟩ := @multiplyDigits_spec digits (tmp / decimalBase)
      (fun d hd => h d (mem_cons_of_mem _ hd)) (by rw [hbase]; omega)
    have hremainder : (tmp - decimalBase * (tmp / decimalBase) % 2 ^ 32) % 2 ^ 32 = tmp % decimalBase := by
      rw [hbase]
      omega
    rw [hremainder]
    refine ⟨by rw [length_cons, length_cons, hlength], ?_, ?_⟩
    · intro d hd
      rcases mem_cons.1 hd with rfl | hd
      · exact Nat.mod_lt _ (by decide)
      · exact hlt d hd
    · have hdiv := Nat.div_add_mod tmp decimalBase
      rw [Nat.ofDigits_cons, Nat.ofDigits_cons, length_cons, Nat.pow_succ]
      calc tmp % decimalBase + decimalBase * Nat.ofDigits decimalBase (multiplyDigits digits (tmp / decimalBase)).1 +
            decimalBase ^ digits.length * decimalBase * (multiplyDigits digits (tmp / decimalBase)).2
          = tmp % decimalBase + decimalBase * (Nat.ofDigits decimalBase (multiplyDigits digits (tmp / decimalBase)).1 +
              decimalBase ^ digits.length * (multiplyDigits digits (tmp / decimalBase)).2) := by ring
        _ = decimalBase * (Nat.ofDigits decimalBase digits * 2 ^ 32) + (decimalBase * (tmp / decimalBase) + tmp % decimalBase) := by
          rw [hvalue]
          ring
        _ = (digit + decimalBase * Nat.ofDigits decimalBase digits) * 2 ^ 32 + hi := by
          rw [hdiv, ← ht]
          ring

theorem pushDigits_eq : ∀ {turns : Nat} {digits : List Nat} {hi : Nat}, hi < turns →
    pushDigits turns digits hi = done (digits ++ Nat.digits decimalBase hi)
  | 0, _, _, h => absurd h (Nat.not_lt_zero _)
  | turns + 1, digits, hi, h => by
    unfold pushDigits
    by_cases hzero : hi = 0
    · rw [if_neg (not_not.2 hzero), hzero, Nat.digits_zero, append_nil]
    · have hlt : hi / decimalBase < turns := by
        have := Nat.div_lt_self (Nat.pos_of_ne_zero hzero) (show 1 < decimalBase by decide)
        omega
      rw [if_pos hzero, pushDigits_eq hlt, Nat.digits_eq_cons_digits_div (by decide) hzero, append_assoc]
      rfl

theorem returns_multiply (V : Nat) {hi : Nat} (hhi : hi < 2 ^ 32) :
    pushDigits ((multiplyDigits (Nat.digits decimalBase V) hi).2 + 1) (multiplyDigits (Nat.digits decimalBase V) hi).1
      (multiplyDigits (Nat.digits decimalBase V) hi).2 = done (Nat.digits decimalBase (V * 2 ^ 32 + hi)) := by
  obtain ⟨hlength, hlt, hvalue⟩ := @multiplyDigits_spec (Nat.digits decimalBase V) hi
    (fun d hd => Nat.digits_lt_base (by decide) hd) hhi
  generalize (multiplyDigits (Nat.digits decimalBase V) hi).1 = low at *
  generalize (multiplyDigits (Nat.digits decimalBase V) hi).2 = high at *
  rw [Nat.ofDigits_digits] at hvalue
  rw [pushDigits_eq (Nat.lt_succ_self high)]
  congr 1
  have hnumber : Nat.ofDigits decimalBase (low ++ Nat.digits decimalBase high) = V * 2 ^ 32 + hi := by
    rw [Nat.ofDigits_append, Nat.ofDigits_digits, hlength, hvalue]
  have hdigits := @eq_digits decimalBase (by decide) (low ++ Nat.digits decimalBase high) fun d hd => by
    rcases mem_append.1 hd with hd | hd
    · exact hlt d hd
    · exact Nat.digits_lt_base (by decide) hd
  rw [hnumber] at hdigits
  refine hdigits ?_
  -- no digit is in front of those that are needed
  rw [length_append, hlength]
  rcases Nat.eq_zero_or_pos high with hzero | hpos
  · rw [hzero, Nat.digits_zero, length_nil, Nat.add_zero]
    exact Nat.le_length_digits_le _ _ _ (by omega)
  · have hpow := Nat.digits_base_pow_mul (b := decimalBase) (k := (Nat.digits decimalBase V).length) (by decide) hpos
    have hle := Nat.le_length_digits_le decimalBase (decimalBase ^ (Nat.digits decimalBase V).length * high) (V * 2 ^ 32 + hi)
      (by omega)
    rw [hpow, length_append, length_replicate] at hle
    exact hle

theorem returns_digits {bytes : List UInt8} (h : bytes.length % 4 = 0) :
    forLoop (digitsTurn bytes) 0 ((bytes.length + 3) / 4) [] = done (Nat.digits decimalBase (magnitude bytes)) := by
  have hloop := returns_forLoop (digitsTurn bytes) 0 ((bytes.length + 3) / 4) (s := [])
    (I := fun k digits => digits = Nat.digits decimalBase (magnitude (bytes.take (4 * k)))) ?_ (by simp)
  · obtain ⟨digits, hdone, rfl⟩ := hloop
    rw [hdone, take_of_length_le (by omega)]
  · rintro k digits - hk rfl
    obtain ⟨b0, r0, h0⟩ := exists_drop (show 4 * k < bytes.length by omega)
    obtain ⟨b1, r1, h1⟩ := exists_drop (show 4 * k + 1 < bytes.length by omega)
    obtain ⟨b2, r2, h2⟩ := exists_drop (show 4 * k + 2 < bytes.length by omega)
    obtain ⟨b3, r3, h3⟩ := exists_drop (show 4 * k + 3 < bytes.length by omega)
    have hdrop : bytes.drop (4 * k) = b0 :: b1 :: b2 :: b3 :: r3 := by
      rw [h0, ← drop_succ_of_drop h0, h1, ← drop_succ_of_drop h1, h2, ← drop_succ_of_drop h2, h3]
    have hpow : 256 ^ [b0, b1, b2, b3].length = 2 ^ 32 := by
      rw [show [b0, b1, b2, b3].length = 4 from rfl]
      norm_num
    have hlt : magnitude [b0, b1, b2, b3] < 2 ^ 32 := hpow ▸ magnitude_lt [b0, b1, b2, b3]
    have htake : bytes.take (4 * (k + 1)) = bytes.take (4 * k) ++ [b0, b1, b2, b3] := by
      rw [Nat.mul_add, take_add, hdrop]
      rfl
    unfold digitsTurn
    rw [loadDigit_eq hdrop, done_bind]
    dsimp only
    rw [returns_multiply _ hlt]
    refine returns_done ?_
    rw [htake, magnitude_append, hpow]

end Multiply

/-! ## Characters -/

section Characters

/-- The digits that `lowCharacters` writes, the last one first. -/
def lowDigits : Nat → Nat → List Nat
  | 0, _ => []
  | count + 1, n => n % 10 :: lowDigits count (n / 10)

theorem length_lowDigits : ∀ count n : Nat, (lowDigits count n).length = count
  | 0, _ => rfl
  | count + 1, n => by rw [lowDigits, length_cons, length_lowDigits count]

theorem lowDigits_lt : ∀ {count n d : Nat}, d ∈ lowDigits count n → d < 10
  | count + 1, n, d, h => by
    rcases mem_cons.1 h with rfl | h
    · exact Nat.mod_lt _ (by decide)
    · exact lowDigits_lt h

theorem ofDigits_lowDigits : ∀ {count n : Nat}, n < 10 ^ count → Nat.ofDigits 10 (lowDigits count n) = n
  | 0, n, h => by
    obtain rfl : n = 0 := by simpa using h
    rfl
  | count + 1, n, h => by
    have hlt : n / 10 < 10 ^ count := (Nat.div_lt_iff_lt_mul (by decide)).2 (by rwa [Nat.pow_succ] at h)
    rw [lowDigits, Nat.ofDigits_cons, ofDigits_lowDigits hlt, Nat.mod_add_div]

theorem allCharacters_eq : ∀ {turns n : Nat}, n < turns → allCharacters turns n = done ((decimal n).reverse.map digitToChar)
  | 0, _, h => absurd h (Nat.not_lt_zero _)
  | turns + 1, n, h => by
    unfold allCharacters
    by_cases hdiv : n / 10 = 0
    · rw [if_neg (not_not.2 hdiv)]
      have hlt : n < 10 := by omega
      have hone : decimal n = [n % 10] := by
        rw [decimal, Nat.mod_eq_of_lt hlt]
        split
        next hzero => rw [hzero]
        next hne => rw [Nat.digits_of_lt 10 n hne hlt]; rfl
      rw [hone]
      rfl
    · have hdecimal : (decimal n).reverse = n % 10 :: (decimal (n / 10)).reverse := by
        rw [decimal, if_neg (by omega), decimal, if_neg hdiv, reverse_reverse, reverse_reverse,
          Nat.digits_eq_cons_digits_div (by decide) (by omega)]
      rw [if_pos hdiv, allCharacters_eq (by omega), done_bind, hdecimal, map_cons]

theorem ofDigits_flatMap {digits rest : List Nat} (h : ∀ d ∈ digits, d < decimalBase) :
    Nat.ofDigits 10 (digits.flatMap (lowDigits decimalShift) ++ rest) =
      Nat.ofDigits decimalBase digits + decimalBase ^ digits.length * Nat.ofDigits 10 rest := by
  induction digits with
  | nil => simp
  | cons d digits ih =>
    have hd : Nat.ofDigits 10 (lowDigits decimalShift d) = d := ofDigits_lowDigits (h d mem_cons_self)
    have hbase : (10 : Nat) ^ decimalShift = decimalBase := rfl
    rw [flatMap_cons, append_assoc, Nat.ofDigits_append, hd, length_lowDigits, hbase,
      ih fun d' hd' => h d' (mem_cons_of_mem _ hd'), Nat.ofDigits_cons, length_cons, Nat.pow_succ]
    ring

theorem characters_eq {V : Nat} {front : List Nat} {back : Nat} (h : Nat.digits decimalBase V = front ++ [back]) :
    front.flatMap (lowDigits decimalShift) ++ (decimal back).reverse = Nat.digits 10 V := by
  have hlt : ∀ d ∈ front ++ [back], d < decimalBase := by
    rw [← h]
    exact fun d hd => Nat.digits_lt_base (by decide) hd
  have hback : back ≠ 0 := by
    have hne : V ≠ 0 := by
      rintro rfl
      rw [Nat.digits_zero] at h
      exact absurd h.symm (by simp)
    have hlast := Nat.getLast_digit_ne_zero decimalBase hne
    simpa [h] using hlast
  have hdecimal : (decimal back).reverse = Nat.digits 10 back := by rw [decimal, if_neg hback, reverse_reverse]
  have hnumber : Nat.ofDigits 10 (front.flatMap (lowDigits decimalShift) ++ Nat.digits 10 back) = V := by
    rw [ofDigits_flatMap fun d hd => hlt d (mem_append_left _ hd), Nat.ofDigits_digits]
    conv_rhs => rw [← Nat.ofDigits_digits decimalBase V, h, Nat.ofDigits_append, Nat.ofDigits_singleton]
  have hdigits := Nat.digits_ofDigits 10 (by decide) (front.flatMap (lowDigits decimalShift) ++ Nat.digits 10 back) ?_ ?_
  · rw [hnumber] at hdigits
    rw [hdecimal, hdigits]
  · intro d hd
    rcases mem_append.1 hd with hd | hd
    · obtain ⟨d', -, hd'⟩ := mem_flatMap.1 hd
      exact lowDigits_lt hd'
    · exact Nat.digits_lt_base (by decide) hd
  · intro hne
    have hne' : Nat.digits 10 back ≠ [] := Nat.digits_ne_nil_iff_ne_zero.2 hback
    rw [getLast_append_of_ne_nil _ hne']
    exact Nat.getLast_digit_ne_zero 10 hback

theorem getByteArray_encode {z : Int} (h : Fits z) :
    getByteArray (encode z) = done (significant z.natAbs, decide (z < 0)) := by
  obtain ⟨b, rest, hencode, hsign⟩ := exists_head_encode h
  have hdrop : (encode z).drop 3 = stored (decide (z < 0)) (significant z.natAbs) := rfl
  have hlength : 4 ≤ (encode z).length := by
    have hpos := length_significant z.natAbs
    rw [encode, length_append, length_stored]
    show 4 ≤ 3 + _
    omega
  have hbytes : (stored (decide (z < 0)) (significant z.natAbs)).map
      (fun b => if decide (z < 0) = true then ~~~b else b) = significant z.natAbs := by
    have htwice := @stored_stored (decide (z < 0)) (significant z.natAbs)
    cases hz : decide (z < 0) with
    | true => rw [hz] at htwice; simpa using htwice
    | false => simp
  unfold getByteArray
  rw [if_neg (by omega)]
  have hread : Lib.read (encode z) 0 = done b := by rw [hencode, read_cons_zero]
  rw [hread, done_bind, hsign, hdrop]
  dsimp only
  rw [hbytes]

theorem bignumToVarchar_encode {z : Int} (h : Fits z) : bignumToVarchar (encode z) = done (decimalText z) := by
  unfold bignumToVarchar
  rw [getByteArray_encode h, done_bind]
  dsimp only
  generalize hV : z.natAbs = V
  have hpadding : ((-UInt64.ofNat (significant V).length) &&& 3).toNat = (2 ^ 64 - (significant V).length % 2 ^ 64) % 4 := by
    rw [UInt64.toNat_and, show (3 : UInt64).toNat = 2 ^ 2 - 1 from rfl, Nat.and_two_pow_sub_one_eq_mod, UInt64.toNat_neg,
      UInt64.toNat_ofNat']
    unfold UInt64.size
    omega
  rw [hpadding]
  generalize hpad : (2 ^ 64 - (significant V).length % 2 ^ 64) % 4 = padding
  have hlength : (replicate padding (0 : UInt8) ++ significant V).length % 4 = 0 := by
    rw [length_append, length_replicate]
    omega
  rw [returns_digits hlength, done_bind, magnitude_zeros_append, magnitude_significant]
  have hsign : ∀ chars : List UInt8, (chars ++ if decide (z < 0) = true then [0x2D] else []).reverse =
      (if z < 0 then [0x2D] else []) ++ chars.reverse := by
    intro chars
    rw [reverse_append]
    by_cases hz : z < 0
    · rw [decide_eq_true hz, if_pos hz]
      rfl
    · rw [decide_eq_false hz, if_neg hz]
      rfl
  rw [decimalText, hV]
  rcases eq_nil_or_concat (Nat.digits decimalBase V) with hnil | ⟨front, back, hdigits⟩
  · have hzero : V = 0 := Nat.digits_eq_nil_iff_eq_zero.1 hnil
    rw [hnil, hzero]
    exact congrArg done (hsign [0x30])
  · rw [concat_eq_append] at hdigits
    have hne : V ≠ 0 := by
      rintro rfl
      rw [Nat.digits_zero] at hdigits
      exact absurd hdigits.symm (by simp)
    have hempty : (front ++ [back]).isEmpty = false := by simp
    have hlen : (front ++ [back]).length - 1 = front.length := by simp
    have hread : Lib.read (front ++ [back]) front.length = done back := by simp [Lib.read]
    rw [hdigits, hempty, if_neg Bool.false_ne_true, hlen, hread, done_bind, allCharacters_eq (Nat.lt_succ_self back),
      done_bind, take_left, hsign]
    have hchars : front.flatMap (lowCharacters decimalShift) ++ (decimal back).reverse.map digitToChar =
        (Nat.digits 10 V).map digitToChar := by
      rw [← characters_eq hdigits, map_append, map_flatMap]
      congr 2
    rw [hchars, decimal, if_neg hne, map_reverse]

theorem charToDigit_digitToChar {d : Nat} (h : d < 10) : charToDigit (digitToChar d) = d ∧ isDigit (digitToChar d) = true := by
  have hchar : (digitToChar d).toNat = d + 0x30 := UInt8.toNat_ofNat_of_lt' (by show d + 48 < 256; omega)
  rw [isDigit_iff]
  unfold charToDigit
  omega

theorem textNumber_map {digits : List Nat} (h : ∀ d ∈ digits, d < 10) :
    textNumber (digits.map digitToChar) = number digits := by
  rw [textNumber, map_map]
  congr 1
  refine (map_congr_left fun d hd => ?_).trans (map_id _)
  exact (charToDigit_digitToChar (h d hd)).1

theorem varcharToBignum_decimalText (z : Int) : varcharToBignum (decimalText z) = done (encode z) := by
  have hdigits : ∀ c ∈ (decimal z.natAbs).map digitToChar, isDigit c = true := by
    intro c hc
    obtain ⟨d, hd, rfl⟩ := mem_map.1 hc
    exact (charToDigit_digitToChar (decimal_lt d hd)).2
  have hne : (decimal z.natAbs).map digitToChar ≠ [] := by
    rw [ne_eq, map_eq_nil_iff, ← length_eq_zero_iff]
    exact (length_decimal_pos _).ne'
  have hnumber : textNumber ((decimal z.natAbs).map digitToChar) = z.natAbs := by
    rw [textNumber_map decimal_lt, number_decimal]
  by_cases hz : z < 0
  · have htext := @varcharToBignum_eq .minus _ hdigits hne
    rw [valueOf, if_pos rfl, hnumber, show (-(z.natAbs : Int)) = z by omega] at htext
    rw [decimalText, if_pos hz]
    exact htext
  · have htext := @varcharToBignum_eq .none _ hdigits hne
    rw [valueOf, if_neg (by decide), hnumber, show ((z.natAbs : Int)) = z by omega] at htext
    rw [decimalText, if_neg hz]
    exact htext

end Characters

/-! ## The round trip -/

theorem decimalText_valueOf {sign : Sign} {digits : List UInt8} (h : ∀ c ∈ digits, isDigit c = true) :
    decimalText (valueOf sign digits) = plainText sign digits := by
  obtain ⟨k, hk⟩ := dropWhile_zeros digits
  unfold plainText
  dsimp only
  generalize htrimmed : (digits.dropWhile fun c => c == 0x30) = trimmed at hk ⊢
  have hnumber : textNumber digits = textNumber trimmed := by rw [hk, textNumber_zeros]
  cases htext : trimmed with
  | nil =>
    have hzero : valueOf sign digits = 0 := by
      rw [valueOf, hnumber, htext]
      cases sign <;> rfl
    rw [hzero]
    rfl
  | cons c text =>
    have hdigits : ∀ c ∈ trimmed, isDigit c = true := fun c hc => h c (hk ▸ mem_append_right _ hc)
    have hc : c ≠ 0x30 := by
      have hhead := head_dropWhile_not (fun c : UInt8 => c == 0x30) (l := digits)
        (by rw [htrimmed, htext]; exact cons_ne_nil _ _)
      simp only [htrimmed, htext, head_cons] at hhead
      simpa using hhead
    have hmem : ∀ d ∈ trimmed.map charToDigit, d < 10 := by
      intro d hd
      obtain ⟨c, hc, rfl⟩ := mem_map.1 hd
      exact charToDigit_lt (hdigits c hc)
    have hge : 10 ^ text.length ≤ textNumber trimmed := by
      rw [htext] at hdigits ⊢
      exact pow_le_textNumber hdigits hc
    have hlt := textNumber_lt hdigits
    rw [htext, length_cons, ← htext] at hlt
    have hpos : 0 < textNumber trimmed := (Nat.pow_pos (by decide)).trans_le hge
    -- the digits of the number
    have hdecimal : decimal (textNumber trimmed) = trimmed.map charToDigit := by
      refine eq_of_number_eq decimal_lt hmem ?_ (number_decimal _)
      rw [length_decimal (.inr hge) hlt, length_map, htext, length_cons]
    have hback : (trimmed.map charToDigit).map digitToChar = trimmed := by
      rw [map_map]
      refine (map_congr_left fun c hc => ?_).trans (map_id _)
      have hrange := (isDigit_iff c).1 (hdigits c hc)
      refine UInt8.toNat_inj.1 ?_
      rw [Function.comp_apply, digitToChar, UInt8.toNat_ofNat_of_lt' (by show charToDigit c + 48 < 256; unfold charToDigit; omega)]
      unfold charToDigit
      show c.toNat - 48 + 48 = c.toNat
      omega
    have habs : (valueOf sign digits).natAbs = textNumber trimmed := by
      unfold valueOf
      split <;> omega
    have hsign : (if valueOf sign digits < 0 then [0x2D] else []) = if sign = .minus then [(0x2D : UInt8)] else [] := by
      refine if_congr ?_ rfl rfl
      unfold valueOf
      split
      next hs => exact iff_of_true (by omega) hs
      next hs => exact iff_of_false (by omega) hs
    rw [decimalText, habs, hdecimal, hback, hsign, htext]
    rfl

/-- The integer that a blob stands for. -/
def blobValue (blob : List UInt8) : Int :=
  if blob.headD 0 &&& 0x80 == 0 then -(magnitude ((blob.drop bignumHeaderSize).map fun b => ~~~b) : Int)
  else magnitude (blob.drop bignumHeaderSize)

theorem blobValue_encode {z : Int} (h : Fits z) : blobValue (encode z) = z := by
  obtain ⟨b, rest, hencode, hsign⟩ := exists_head_encode h
  have hdrop : (encode z).drop bignumHeaderSize = stored (decide (z < 0)) (significant z.natAbs) := rfl
  have hhead : (encode z).headD 0 = b := by rw [hencode]; rfl
  unfold blobValue
  rw [hhead, hsign, hdrop]
  by_cases hz : z < 0
  · have htwice := @stored_stored true (significant z.natAbs)
    rw [stored_true] at htwice
    rw [decide_eq_true hz, if_pos rfl, htwice, magnitude_significant]
    omega
  · rw [decide_eq_false hz, if_neg Bool.false_ne_true, stored_false, magnitude_significant]
    omega

/-- Conversions between text and blobs are inverse to each other, and blobs compare as integers do. A decimal string
becomes a canonical blob, whose text is the string without plus sign and leading zeros, if the magnitude needs no more bytes
than a blob can have; a canonical blob is that of its text; and canonical blobs compare byte by byte as their integers. -/
theorem bignum_roundTrip :
    (∀ (sign : Sign) (digits : List UInt8), digits ≠ [] → (∀ c ∈ digits, isDigit c = true) →
      byteCount (textNumber digits) ≤ maxDataSize →
        ∃ blob, varcharToBignum (sign.text ++ digits) = done blob ∧ verify blob = done () ∧
          bignumToVarchar blob = done (plainText sign digits)) ∧
    (∀ blob, verify blob = done () →
      ∃ text, bignumToVarchar blob = done text ∧ varcharToBignum text = done blob) ∧
    ∀ blob blob', verify blob = done () → verify blob' = done () →
      compare blob blob' = compare (blobValue blob) (blobValue blob') := by
  refine ⟨fun sign digits hne hdigits hfits => ?_, fun blob hblob => ?_, fun blob blob' hblob hblob' => ?_⟩
  · have hvalue : Fits (valueOf sign digits) := by
      have habs : (valueOf sign digits).natAbs = textNumber digits := by
        unfold valueOf
        split <;> omega
      rwa [Fits, habs]
    refine ⟨encode (valueOf sign digits), varcharToBignum_eq hdigits hne, (verify_iff _).2 ⟨_, hvalue, rfl⟩, ?_⟩
    rw [bignumToVarchar_encode hvalue, decimalText_valueOf hdigits]
  · obtain ⟨z, hz, rfl⟩ := (verify_iff blob).1 hblob
    exact ⟨decimalText z, bignumToVarchar_encode hz, varcharToBignum_decimalText z⟩
  · obtain ⟨z, hz, rfl⟩ := (verify_iff blob).1 hblob
    obtain ⟨w, hw, rfl⟩ := (verify_iff blob').1 hblob'
    rw [blobValue_encode hz, blobValue_encode hw, compare_encode hz hw]

/-- The string of a sign, two zeros and 42, and two blobs. -/
theorem bignum_roundTrip_fortyTwo :
    (∃ blob, varcharToBignum [0x2D, 0x30, 0x30, 0x34, 0x32] = done blob ∧ verify blob = done () ∧
      bignumToVarchar blob = done [0x2D, 0x34, 0x32]) ∧
    (∃ text, bignumToVarchar [0x7F, 0xFF, 0xFE, 0xD5] = done text ∧
      varcharToBignum text = done [0x7F, 0xFF, 0xFE, 0xD5]) ∧
    compare [0x7F, 0xFF, 0xFE, 0xD5] [0x80, 0x00, 0x02, 0x01, 0x00] = compare (-42 : Int) 256 := by
  obtain ⟨htext, hblob, horder⟩ := bignum_roundTrip
  refine ⟨?_, hblob _ (by decide +kernel), ?_⟩
  · exact htext .minus [0x30, 0x30, 0x34, 0x32] (by decide +kernel) (by decide +kernel) (by decide +kernel)
  · exact horder [0x7F, 0xFF, 0xFE, 0xD5] [0x80, 0x00, 0x02, 0x01, 0x00] (by decide +kernel) (by decide +kernel)

end Haybarn.Bignum
