/-
Numbers as text: spaces, a sign, digits, decimals behind a point, an exponent, and spaces. `TryIntegerCast` hands their
digits to its operation one by one, and then the exponent, or it finalizes.
-/
import Haybarn.Cast.IntegerCastLoop
import Haybarn.Lib.Digits

namespace Haybarn.Cast

open Lib Lib.Outcome Common List Option

/-! ## Text -/

/-- A digit, and whether an underscore stands between it and a digit before it. -/
structure Digit where
  value : Nat
  underscored : Bool
  lt : value < 10

/-- The byte of a digit. -/
def Digit.byte (d : Digit) : UInt8 := UInt8.ofNat (d.value + 0x30)

/-- Digits behind a digit, as text. -/
def moreText (ds : List Digit) : List UInt8 := ds.flatMap fun d => if d.underscored then [underscore, d.byte] else [d.byte]

/-- Digits as text. -/
def digitsText : List Digit → List UInt8
  | [] => []
  | d :: ds => d.byte :: moreText ds

/-- The values of digits. -/
def values (ds : List Digit) : List Nat := ds.map Digit.value

/-- A sign, which may be left out. -/
inductive Sign where
  | none
  | plus
  | minus
  deriving DecidableEq

/-- The sign as text. -/
def Sign.text : Sign → List UInt8
  | none => []
  | plus => [plusSign]
  | minus => [minusSign]

/-- Whether the number is negative. -/
def Sign.isMinus (sign : Sign) : Bool := sign = minus

/-- A number with a sign put to it. -/
def signed (negative : Bool) (n : Nat) : Int := if negative then -n else n

/-- `'.'`. -/
def point : UInt8 := 0x2E

/-- An exponent. -/
structure Exponent where
  capital : Bool
  sign : Sign
  digits : List Digit
  digits_ne_nil : digits ≠ []

/-- What is behind the letter of an exponent, as text. -/
def Exponent.numberText (e : Exponent) : List UInt8 := e.sign.text ++ digitsText e.digits

/-- The exponent as text. -/
def Exponent.text (e : Exponent) : List UInt8 := (if e.capital then 0x45 else 0x65) :: e.numberText

/-- The number of an exponent. -/
def Exponent.value (e : Exponent) : Int := signed e.sign.isMinus (number (values e.digits))

/-- A number as it can be written. -/
structure Literal where
  before : List UInt8
  sign : Sign
  whole : List Digit
  /-- The digits behind the point, if there is one. -/
  decimals : Option (List Digit)
  exponent : Option Exponent
  after : List UInt8
  before_space : ∀ c ∈ before, characterIsSpace c = true
  after_space : ∀ c ∈ after, characterIsSpace c = true
  some_digit : whole ≠ [] ∨ ∃ ds ∈ decimals, ds ≠ []

namespace Literal

variable (literal : Literal)

/-- The digits before the point. -/
def wholeDigits : List Nat := values literal.whole

/-- The digits behind the point. -/
def decimalDigits : List Nat := values (literal.decimals.getD [])

/-- What follows the mantissa. -/
def endText : List UInt8 := (literal.exponent.elim [] Exponent.text) ++ literal.after

/-- What follows the digits before the point. -/
def pointText : List UInt8 := (literal.decimals.elim [] fun ds => point :: digitsText ds) ++ literal.endText

/-- The literal from the sign on. -/
def signedText : List UInt8 := literal.sign.text ++ (digitsText literal.whole ++ literal.pointText)

/-- The literal as text. -/
def text : List UInt8 := literal.before ++ literal.signedText

/-- The number of the digits before and behind the point. -/
def mantissa : Nat := number (literal.wholeDigits ++ literal.decimalDigits)

/-- The exponent, zero if there is none. -/
def exponentValue : Int := literal.exponent.elim 0 Exponent.value

/-- The exact value. -/
def value : ℚ :=
  (signed literal.sign.isMinus literal.mantissa : ℚ) * (10 : ℚ) ^ (literal.exponentValue - literal.decimalDigits.length)

end Literal

/-! ## Characters -/

theorem Digit.toNat_byte (d : Digit) : d.byte.toNat = d.value + 0x30 := by
  have := d.lt
  rw [byte, UInt8.toNat_ofNat']
  omega

@[simp] theorem characterIsDigit_byte (d : Digit) : characterIsDigit d.byte = true := by
  have h := d.toNat_byte
  have := d.lt
  rw [characterIsDigit, decide_eq_true_iff, UInt8.le_iff_toNat_le, UInt8.le_iff_toNat_le, h]
  exact ⟨by simp, by simp; omega⟩

@[simp] theorem digitOf_byte (d : Digit) : digitOf d.byte = d.value := by
  rw [digitOf, d.toNat_byte, Nat.add_sub_cancel]

variable {c : UInt8} {ds : List Digit}

theorem Digit.byte_ne {d : Digit} (hc : characterIsDigit c = false) : d.byte ≠ c := by
  rintro rfl
  simp at hc

theorem characterIsDigit_of_space (h : characterIsSpace c = true) : characterIsDigit c = false := by
  rw [characterIsSpace, decide_eq_true_iff] at h
  rcases h with rfl | rfl | rfl | rfl | rfl | rfl <;> decide

/-- What follows digits: no digit, and no underscore. -/
def Stops (tail : List UInt8) : Prop := ∀ c ∈ tail.head?, characterIsDigit c = false ∧ c ≠ underscore

variable {tail : List UInt8}

theorem stops_of_space (h : ∀ c ∈ tail, characterIsSpace c = true) : Stops tail := by
  intro c hc
  have hspace := h c (mem_of_mem_head? hc)
  refine ⟨characterIsDigit_of_space hspace, ?_⟩
  rintro rfl
  revert hspace
  decide

/-! ## The digits of a text -/

theorem skipUnderscore_moreText (htail : Stops tail) :
    skipUnderscore characterIsDigit (moreText ds ++ tail) = some (digitsText ds ++ tail) := by
  cases ds with
  | nil =>
    cases tail with
    | nil => rfl
    | cons c tail =>
      have hc := (htail c rfl).2
      simp [moreText, digitsText, skipUnderscore, hc]
  | cons d ds =>
    have hne : d.byte ≠ underscore := d.byte_ne (by decide)
    cases hunder : d.underscored with
    | true => simp [moreText, digitsText, skipUnderscore, hunder]
    | false => simp [moreText, digitsText, skipUnderscore, hunder, hne]

section Loop

variable {σ : Type} {op : Operation σ} {negative : Bool} {separator : UInt8}
  {exponentOf : Option (List UInt8 → Outcome (Option Int))}

/-- Digits handed over one by one. -/
def handleAll (handle : σ → Nat → Outcome (Option σ)) : List Nat → σ → Outcome (Option σ)
  | [], state => .done (some state)
  | d :: ds, state => orFail (handle state d) (handleAll handle ds)

variable {α β : Type} {f : α → Outcome (Option β)}

@[simp] theorem orFail_some {a : α} : orFail (.done (some a)) f = f a := rfl

@[simp] theorem orFail_none : orFail (.done none) f = .done none := rfl

theorem orFail_assoc {γ : Type} {o : Outcome (Option α)} {g : β → Outcome (Option γ)} :
    orFail (orFail o f) g = orFail o fun a => orFail (f a) g := by
  cases o with
  | done a => cases a <;> rfl
  | error message => rfl
  | fault => rfl
  | hang => rfl

theorem orFail_congr {o : Outcome (Option α)} {g : α → Outcome (Option β)} (h : ∀ a, f a = g a) :
    orFail o f = orFail o g := by
  rw [show f = g from funext h]

theorem decimalsLoop_digits {tail : List UInt8} (htail : Stops tail) : ∀ {ds : List Digit} {state : σ},
    decimalsLoop op negative (digitsText ds ++ tail) state =
      orFail (handleAll (op.handleDecimal negative) (values ds) state) fun state => .done (some (tail, state))
  | [], state => by
    rw [decimalsLoop.eq_def]
    cases tail with
    | nil => rfl
    | cons c tail => simp [digitsText, values, handleAll, (htail c rfl).1]
  | d :: ds, state => by
    rw [digitsText, cons_append, decimalsLoop]
    simp only [characterIsDigit_byte, digitOf_byte, values, map_cons, handleAll, orFail_assoc]
    refine orFail_congr fun state => ?_
    have hskip := @skipUnderscore_moreText ds tail htail
    split
    next h =>
      rw [hskip] at h
      cases h
    next rest h =>
      rw [hskip] at h
      obtain rfl := some.inj h
      exact decimalsLoop_digits htail

theorem integerCastLoopFrom_digits {tail : List UInt8} (htail : Stops tail) :
    ∀ {ds : List Digit} {moved : Bool} {state : σ},
      integerCastLoopFrom op negative false separator exponentOf moved (digitsText ds ++ tail) state =
        orFail (handleAll (op.handleDigit negative) (values ds) state) fun state =>
          integerCastLoopFrom op negative false separator exponentOf (moved || ds ≠ []) tail state
  | [], moved, state => by simp [digitsText, values, handleAll]
  | d :: ds, moved, state => by
    rw [digitsText, cons_append, integerCastLoopFrom]
    simp only [characterIsDigit_byte, digitOf_byte, values, map_cons, handleAll, orFail_assoc, Bool.not_true,
      Bool.false_eq_true, if_false]
    refine orFail_congr fun state => ?_
    have hskip := @skipUnderscore_moreText ds tail htail
    split
    next h =>
      rw [hskip] at h
      cases h
    next rest h =>
      rw [hskip] at h
      obtain rfl := some.inj h
      rw [integerCastLoopFrom_digits htail]
      simp [values]

theorem integerCastLoopFrom_spaces {tail : List UInt8} (htail : ∀ c ∈ tail, characterIsSpace c = true)
    (hseparator : characterIsSpace separator = false) {state : σ} :
    integerCastLoopFrom op negative false separator exponentOf true tail state = finish op negative true state := by
  cases tail with
  | nil => rw [integerCastLoopFrom]
  | cons c tail =>
    have hspace := htail c (by simp)
    have hall : tail.all characterIsSpace = true := all_eq_true.2 fun c hc => htail c (by simp [hc])
    have hne : c ≠ separator := by
      rintro rfl
      rw [hspace] at hseparator
      cases hseparator
    rw [integerCastLoopFrom, characterIsDigit_of_space hspace]
    simp only [Bool.not_false, if_true, if_neg hne, nonDigit, hspace, hall]

end Loop

/-! ## Whole literals -/

theorem finish_true {σ : Type} {op : Operation σ} {negative : Bool} {state : σ} :
    finish op negative true state = op.finalize negative state := by
  rw [finish]
  cases op.finalize negative state with
  | done a => cases a <;> rfl
  | error message => rfl
  | fault => rfl
  | hang => rfl

theorem digitsText_head (h : ds ≠ []) (hc : characterIsDigit c = false) :
    (digitsText ds ++ tail).head? ≠ some c := by
  cases ds with
  | nil => exact absurd rfl h
  | cons d ds => simpa [digitsText] using d.byte_ne hc

theorem integerCastLoopWith_sign {σ : Type} {op : Operation σ} {separator : UInt8}
    {exponentOf : Option (List UInt8 → Outcome (Option Int))} {sign : Sign} {body : List UInt8} {state : σ}
    (hplus : body.head? ≠ some plusSign) :
    integerCastLoopWith op sign.isMinus false separator exponentOf (sign.text ++ body) state =
      integerCastLoopFrom op sign.isMinus false separator exponentOf false body state := by
  cases sign with
  | none => simp [integerCastLoopWith, Sign.isMinus, Sign.text, hplus]
  | plus => simp [integerCastLoopWith, Sign.isMinus, Sign.text]
  | minus => simp [integerCastLoopWith, Sign.isMinus, Sign.text]

theorem head_sign_append {sign : Sign} {body : List UInt8} (hminus : body.head? ≠ some minusSign) :
    decide ((sign.text ++ body).head? = some minusSign) = sign.isMinus := by
  cases sign with
  | none => simp [Sign.text, Sign.isMinus, hminus]
  | plus => rfl
  | minus => rfl

/-! ## Integers -/

section Integers

variable {t : IntegerType} {negative : Bool} {m : Nat}

theorem signed_succ {d : Nat} :
    signed negative (m * 10 + d) = if negative then signed negative m * 10 - d else signed negative m * 10 + d := by
  cases negative with
  | true => simp [signed]; ring
  | false => simp [signed]

theorem holds_of_le {n : Nat} (h : t.Holds (signed negative n)) (hle : m ≤ n) : t.Holds (signed negative m) := by
  obtain ⟨hlo, hhi⟩ := h
  have hmin : t.minimum ≤ 0 := by cases t <;> decide
  have hmax : 0 ≤ t.maximum := by cases t <;> decide
  cases negative with
  | true =>
    simp only [signed, if_true] at hlo hhi ⊢
    constructor <;> omega
  | false =>
    simp only [signed, Bool.false_eq_true, if_false] at hlo hhi ⊢
    constructor <;> omega

theorem integerHandleDigit_eq (hsigned : negative = true → t.minimum ≤ -128) {d : Nat} (hd : d < 10)
    (hm : t.Holds (signed negative m)) :
    integerHandleDigit t negative (signed negative m) d =
      .done (if t.Holds (signed negative (m * 10 + d)) then some (signed negative (m * 10 + d)) else none) := by
  have hmax : 127 ≤ t.maximum := by cases t <;> decide
  obtain ⟨hlo, hhi⟩ := hm
  cases negative with
  | true =>
    have hmin := hsigned rfl
    have hdiv : (t.minimum + d).tdiv 10 = -((-t.minimum - d) / 10) := by
      rw [show t.minimum + d = -(-t.minimum - d) by ring, Int.neg_tdiv, Int.tdiv_eq_ediv_of_nonneg (by omega)]
    have hcheck : decide (signed true m < (t.minimum + d).tdiv 10) = !decide (t.Holds (signed true (m * 10 + d))) := by
      rw [hdiv, ← decide_not, decide_eq_decide]
      simp only [signed, if_true, IntegerType.Holds]
      push_cast
      omega
    rw [integerHandleDigit, if_pos rfl, guarded, hcheck]
    by_cases hholds : t.Holds (signed true (m * 10 + d))
    · have hnext : signed true m * 10 - d = signed true (m * 10 + d) := by rw [signed_succ, if_pos rfl]
      simp [hholds, hnext, Decimal.staticCast]
      rfl
    · simp [hholds]
  | false =>
    have hdiv : (t.maximum - d).tdiv 10 = (t.maximum - d) / 10 := Int.tdiv_eq_ediv_of_nonneg (by omega)
    have hcheck : decide (signed false m > (t.maximum - d).tdiv 10) = !decide (t.Holds (signed false (m * 10 + d))) := by
      have hmin : t.minimum ≤ 0 := by cases t <;> decide
      rw [hdiv, ← decide_not, decide_eq_decide]
      simp only [signed, Bool.false_eq_true, if_false, IntegerType.Holds]
      push_cast
      omega
    rw [integerHandleDigit, if_neg (by decide), guarded, hcheck]
    by_cases hholds : t.Holds (signed false (m * 10 + d))
    · have hnext : signed false m * 10 + d = signed false (m * 10 + d) := by rw [signed_succ, if_neg (by decide)]
      simp [hholds, hnext, Decimal.staticCast]
      rfl
    · simp [hholds]

theorem handleAll_integer (hsigned : negative = true → t.minimum ≤ -128) : ∀ {ds : List Nat} {m : Nat},
    (∀ d ∈ ds, d < 10) → t.Holds (signed negative m) →
      handleAll (integerHandleDigit t negative) ds (signed negative m) =
        .done (if t.Holds (signed negative (m * 10 ^ ds.length + number ds))
          then some (signed negative (m * 10 ^ ds.length + number ds)) else none)
  | [], m, _, hm => by simp [handleAll, hm]
  | d :: ds, m, hds, hm => by
    have hnumber : m * 10 ^ (d :: ds).length + number (d :: ds) = (m * 10 + d) * 10 ^ ds.length + number ds := by
      rw [number_cons, length_cons, pow_succ]
      ring
    rw [handleAll, integerHandleDigit_eq hsigned (hds d (by simp)) hm, hnumber]
    by_cases hholds : t.Holds (signed negative (m * 10 + d))
    · rw [if_pos hholds, orFail_some, handleAll_integer hsigned (fun d hd => hds d (by simp [hd])) hholds]
    · have hnot : ¬ t.Holds (signed negative ((m * 10 + d) * 10 ^ ds.length + number ds)) := fun h =>
        hholds (holds_of_le h (le_trans (Nat.le_mul_of_pos_right _ (by positivity)) (Nat.le_add_right _ _)))
      rw [if_neg hholds, orFail_none, if_neg hnot]

end Integers

/-! ## Exponents -/

theorem values_lt : ∀ d ∈ values ds, d < 10 := by
  intro d hd
  obtain ⟨d, -, rfl⟩ := mem_map.1 hd
  exact d.lt

theorem exponentCast_text {separator : UInt8} (hseparator : characterIsSpace separator = false) (e : Exponent)
    {after : List UInt8} (hafter : ∀ c ∈ after, characterIsSpace c = true) :
    exponentCast false separator (e.numberText ++ after) =
      .done (if IntegerType.smallint.Holds e.value then some e.value else none) := by
  have hbody : e.numberText ++ after = e.sign.text ++ (digitsText e.digits ++ after) := by
    rw [Exponent.numberText, append_assoc]
  have hminus : (digitsText e.digits ++ after).head? ≠ some minusSign := digitsText_head e.digits_ne_nil (by decide)
  have hplus : (digitsText e.digits ++ after).head? ≠ some plusSign := digitsText_head e.digits_ne_nil (by decide)
  have hmoved : (false || decide (e.digits ≠ [])) = true := by simp [e.digits_ne_nil]
  rw [exponentCast, hbody, head_sign_append hminus, integerCastLoopWith_sign hplus,
    integerCastLoopFrom_digits (stops_of_space hafter)]
  simp only [hmoved, integerCastLoopFrom_spaces hafter hseparator, finish_true]
  have hzero : IntegerType.smallint.Holds (signed e.sign.isMinus 0) := by
    cases e.sign.isMinus <;> decide
  have hall := @handleAll_integer .smallint e.sign.isMinus (fun _ => by decide) (values e.digits) 0 values_lt hzero
  rw [Nat.zero_mul, Nat.zero_add, ← Exponent.value,
    show signed e.sign.isMinus 0 = 0 by cases e.sign.isMinus <;> rfl] at hall
  show orFail (handleAll (integerHandleDigit .smallint e.sign.isMinus) (values e.digits) 0) _ = _
  rw [hall]
  split <;> rfl

/-! ## The loop on a literal -/

section Run

variable {σ : Type} {op : Operation σ} {separator : UInt8} {allowExponent : Bool} (literal : Literal)

/-- What a cast makes of a literal: the operation gets the digits, the decimals, and the exponent if sixteen bits hold it. -/
def Literal.run (op : Operation σ) (allowExponent : Bool) (state : σ) : Outcome (Option σ) :=
  orFail (handleAll (op.handleDigit literal.sign.isMinus) literal.wholeDigits state) fun state =>
    orFail (handleAll (op.handleDecimal literal.sign.isMinus) literal.decimalDigits state) fun state =>
      match literal.exponent with
      | none => op.finalize literal.sign.isMinus state
      | some e =>
        if allowExponent ∧ IntegerType.smallint.Holds e.value then op.handleExponent literal.sign.isMinus state e.value
        else .done none

/-- The parser of exponents, if they are allowed. -/
def exponentParser (allowExponent : Bool) (separator : UInt8) : Option (List UInt8 → Outcome (Option Int)) :=
  if allowExponent then some (exponentCast false separator) else none

variable {c : UInt8} {state : σ}

theorem Literal.endText_head (hc : literal.endText.head? = some c) :
    c = 0x45 ∨ c = 0x65 ∨ characterIsSpace c = true := by
  rw [Literal.endText] at hc
  cases hexponent : literal.exponent with
  | none =>
    rw [hexponent, elim_none, nil_append] at hc
    exact .inr (.inr (literal.after_space c (mem_of_mem_head? hc)))
  | some e =>
    rw [hexponent, elim_some, Exponent.text, cons_append, head?_cons, some.injEq] at hc
    subst hc
    cases e.capital with
    | true => exact .inl rfl
    | false => exact .inr (.inl rfl)

theorem Literal.endText_stops : Stops literal.endText := by
  intro c hc
  rcases literal.endText_head hc with rfl | rfl | hspace
  · decide
  · decide
  · have hstops : Stops [c] := stops_of_space (by simpa using hspace)
    exact hstops c rfl

/-- The loop behind the mantissa, at the end of the text or not. -/
theorem Literal.endText_spec (hseparator : characterIsSpace separator = false) {negative : Bool} :
    (match literal.endText with
      | [] => finish op negative true state
      | c :: rest => nonDigit op negative false (exponentParser allowExponent separator) true c rest state) =
      match literal.exponent with
      | none => op.finalize negative state
      | some e =>
        if allowExponent ∧ IntegerType.smallint.Holds e.value then op.handleExponent negative state e.value
        else .done none := by
  rw [Literal.endText]
  cases literal.exponent with
  | none =>
    cases hafter : literal.after with
    | nil => exact finish_true
    | cons c rest =>
      have hspace := literal.after_space
      rw [hafter] at hspace
      have hall : rest.all characterIsSpace = true := all_eq_true.2 fun c hc => hspace c (by simp [hc])
      simp only [elim_none, nil_append, nonDigit, hspace c (by simp), hall, if_true, finish_true]
  | some e =>
    have hletter : ((if e.capital then 0x45 else 0x65 : UInt8) = 0x65 ∨ (if e.capital then 0x45 else 0x65 : UInt8) = 0x45) ∧
        characterIsSpace (if e.capital then 0x45 else 0x65) = false := by
      cases e.capital <;> decide
    have hne : e.numberText ++ literal.after ≠ [] := by
      have := e.digits_ne_nil
      cases hdigits : e.digits with
      | nil => exact absurd hdigits this
      | cons d ds => simp [Exponent.numberText, hdigits, digitsText]
    simp only [elim_some, Exponent.text, cons_append, nonDigit, hletter.1, hletter.2, Bool.false_eq_true,
      if_false, Bool.not_true, if_neg hne, if_true]
    cases allowExponent with
    | false => simp [exponentParser]
    | true =>
      simp only [exponentParser, if_true, exponentCast_text hseparator e literal.after_space, true_and]
      split <;> rfl

theorem Literal.pointText_spec {negative moved : Bool} (hmoved : moved = true ∨ ∃ ds ∈ literal.decimals, ds ≠ []) :
    integerCastLoopFrom op negative false point (exponentParser allowExponent point) moved literal.pointText state =
      orFail (handleAll (op.handleDecimal negative) literal.decimalDigits state) fun state =>
        match literal.exponent with
        | none => op.finalize negative state
        | some e =>
          if allowExponent ∧ IntegerType.smallint.Holds e.value then op.handleExponent negative state e.value
          else .done none := by
  have hpoint : characterIsSpace point = false := by decide
  rw [Literal.pointText, Literal.decimalDigits]
  cases hdecimals : literal.decimals with
  | none =>
    obtain rfl : moved = true := by simpa [hdecimals] using hmoved
    rw [elim_none, nil_append, getD_none, values, map_nil, handleAll, orFail_some,
      ← literal.endText_spec hpoint, integerCastLoopFrom.eq_def]
    have hstops := literal.endText_stops
    cases hend : literal.endText with
    | nil => rfl
    | cons c rest =>
      rw [hend] at hstops
      have hc := hstops c rfl
      have hne : c ≠ point := by
        rintro rfl
        rcases literal.endText_head (by rw [hend]; rfl) with h | h | h <;> exact absurd h (by decide)
      simp only [hc.1, Bool.not_false, if_true, if_neg hne]
  | some ds =>
    have hlength : ((digitsText ds ++ literal.endText).length > literal.endText.length) ↔ ds ≠ [] := by
      cases ds with
      | nil => simp [digitsText]
      | cons d ds => simp [digitsText]
    have hmoved' : (moved || decide (literal.endText.length < (digitsText ds ++ literal.endText).length)) = true := by
      rcases hmoved with rfl | ⟨ds', hds', hne⟩
      · rfl
      · rw [hdecimals] at hds'
        obtain rfl := some.inj hds'
        rw [decide_eq_true (hlength.2 hne), Bool.or_true]
    have hdigit : characterIsDigit point = false := by decide
    rw [elim_some, cons_append, integerCastLoopFrom, decimalsLoop_digits literal.endText_stops]
    simp only [hdigit, Bool.not_false, if_true, Bool.false_eq_true, if_false, orFail_assoc, orFail_some, hmoved',
      Bool.not_true, getD_some]
    exact orFail_congr fun state => literal.endText_spec hpoint

theorem Literal.pointText_head (hc : literal.pointText.head? = some c) :
    c = point ∨ c = 0x45 ∨ c = 0x65 ∨ characterIsSpace c = true := by
  rw [Literal.pointText] at hc
  cases hdecimals : literal.decimals with
  | none =>
    rw [hdecimals, elim_none, nil_append] at hc
    exact .inr (literal.endText_head hc)
  | some ds =>
    rw [hdecimals, elim_some, cons_append, head?_cons, some.injEq] at hc
    exact .inl hc.symm

theorem Literal.pointText_stops : Stops literal.pointText := by
  intro c hc
  rcases literal.pointText_head hc with rfl | rfl | rfl | hspace
  · decide
  · decide
  · decide
  · have hstops : Stops [c] := stops_of_space (by simpa using hspace)
    exact hstops c rfl

theorem Literal.head_ne_letter {ds : List Digit} (hletter : c = 0x78 ∨ c = 0x58 ∨ c = 0x62 ∨ c = 0x42) :
    (moreText ds ++ literal.pointText).head? ≠ some c := by
  intro hc
  cases ds with
  | nil =>
    rw [show moreText [] = [] from rfl, nil_append] at hc
    rcases hletter with rfl | rfl | rfl | rfl <;>
      rcases literal.pointText_head hc with h | h | h | h <;> exact absurd h (by decide)
  | cons d ds =>
    have hdigit : characterIsDigit c = false := by
      rcases hletter with rfl | rfl | rfl | rfl <;> decide
    cases hunder : d.underscored with
    | true =>
      simp only [moreText, flatMap_cons, hunder, if_true, cons_append, head?_cons, some.injEq] at hc
      subst hc
      exact absurd hletter (by decide)
    | false =>
      simp only [moreText, flatMap_cons, hunder, Bool.false_eq_true, if_false, cons_append, head?_cons,
        some.injEq] at hc
      exact d.byte_ne hdigit hc

theorem Literal.integerCastLoop_text :
    integerCastLoop op literal.sign.isMinus allowExponent false point literal.signedText state =
      literal.run op allowExponent state := by
  have hmoved : (false || decide (literal.whole ≠ [])) = true ∨ ∃ ds ∈ literal.decimals, ds ≠ [] := by
    simpa using literal.some_digit
  have hplus : (digitsText literal.whole ++ literal.pointText).head? ≠ some plusSign := by
    by_cases hwhole : literal.whole = []
    · intro h
      rw [hwhole, digitsText, nil_append] at h
      rcases literal.pointText_head h with h | h | h | h <;> exact absurd h (by decide)
    · exact digitsText_head hwhole (by decide)
  rw [integerCastLoop, Literal.signedText, integerCastLoopWith_sign hplus,
    integerCastLoopFrom_digits literal.pointText_stops]
  exact orFail_congr fun state => literal.pointText_spec hmoved

theorem Literal.signedText_cons : ∃ c rest, literal.signedText = c :: rest ∧ characterIsSpace c = false ∧
    (c = minusSign ↔ literal.sign = .minus) ∧
      (c = 0x30 → ∀ letter, letter = 0x78 ∨ letter = 0x58 ∨ letter = 0x62 ∨ letter = 0x42 → rest.head? ≠ some letter) := by
  cases hsign : literal.sign with
  | plus =>
    refine ⟨plusSign, _, by rw [Literal.signedText, hsign]; rfl, by decide, by decide, fun h => absurd h (by decide)⟩
  | minus =>
    refine ⟨minusSign, _, by rw [Literal.signedText, hsign]; rfl, by decide, by simp, fun h => absurd h (by decide)⟩
  | none =>
    cases hwhole : literal.whole with
    | nil =>
      obtain ⟨ds, hds, -⟩ : ∃ ds ∈ literal.decimals, ds ≠ [] := by simpa [hwhole] using literal.some_digit
      refine ⟨point, digitsText ds ++ literal.endText, ?_, by decide, by decide, fun h => absurd h (by decide)⟩
      rw [Literal.signedText, hsign, hwhole, Literal.pointText, hds]
      rfl
    | cons d ds =>
      refine ⟨d.byte, moreText ds ++ literal.pointText, ?_, ?_, ?_, fun _ letter h => literal.head_ne_letter h⟩
      · rw [Literal.signedText, hsign, hwhole]
        rfl
      · by_contra hspace
        have := characterIsDigit_of_space (Bool.eq_true_of_not_eq_false hspace)
        simp at this
      · exact iff_of_false (d.byte_ne (by decide)) (by decide)

theorem Literal.tryIntegerCast_text {isSigned : Bool} (hminus : literal.sign ≠ .minus ∨ isSigned = true) :
    tryIntegerCast op isSigned allowExponent point literal.text state false =
      literal.run op allowExponent state := by
  obtain ⟨c, rest, htext, hspace, hsign, hletter⟩ := literal.signedText_cons
  have hskip : literal.text.dropWhile characterIsSpace = c :: rest := by
    rw [Literal.text, dropWhile_append_of_pos literal.before_space, htext,
      dropWhile_cons_of_neg (by simp [hspace])]
  rw [tryIntegerCast, hskip, ← literal.integerCastLoop_text, htext]
  dsimp only
  by_cases hc : c = minusSign
  · have hminus' := hsign.1 hc
    have hsigned : isSigned = true := hminus.resolve_left (not_not.2 hminus')
    rw [if_pos hc, hsigned, hminus']
    rfl
  · have hplus : literal.sign.isMinus = false := by simpa [Sign.isMinus] using hsign.not.1 hc
    have hhex : ¬ (c = 0x30 ∧ (rest.head? = some 0x78 ∨ rest.head? = some 0x58)) := by
      rintro ⟨hzero, h | h⟩
      · exact hletter hzero _ (by simp) h
      · exact hletter hzero _ (by simp) h
    have hbinary : ¬ (c = 0x30 ∧ (rest.head? = some 0x62 ∨ rest.head? = some 0x42)) := by
      rintro ⟨hzero, h | h⟩
      · exact hletter hzero _ (by simp) h
      · exact hletter hzero _ (by simp) h
    rw [if_neg hc, if_neg hhex, if_neg hbinary, if_neg (by simp), hplus]

end Run

end Haybarn.Cast
