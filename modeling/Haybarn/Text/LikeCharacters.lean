/-
`LIKE` on the bytes of characters: a pattern is read alike from its bytes and from its characters, and a way to match the
bytes, which may begin inside a character, gives one to match the characters.
-/
import Haybarn.Lib.Utf8
import Haybarn.Text.Like

namespace Haybarn.Text

open Lib Lib.Outcome Lib.Wildcard Lib.Utf8 List

/-! ## Matching -/

/-- The characters with a meaning of their own. -/
def likeCharacters (escape : Option Char) : Wildcards Char := ⟨'%', '_', escape⟩

/-- The symbol of a character, on its bytes. -/
def encodeSymbol : Symbol Char → List (Symbol UInt8)
  | .many => [.many]
  | .one => [.one]
  | .letter c => (String.utf8EncodeChar c).map .letter

/-- Symbols of characters, on their bytes. -/
def encodeSymbols (p : List (Symbol Char)) : List (Symbol UInt8) := p.flatMap encodeSymbol

@[simp] theorem encodeSymbols_nil : encodeSymbols [] = [] := rfl

@[simp] theorem encodeSymbols_cons {x : Symbol Char} {p : List (Symbol Char)} :
    encodeSymbols (x :: p) = encodeSymbol x ++ encodeSymbols p := rfl

theorem nextCharacter_continues {tail : List UInt8} (htail : ∀ b ∈ tail, Continues b) (text : List Char) :
    nextCharacter (tail ++ encode text) = encode text := by
  induction tail with
  | nil =>
    cases text with
    | nil => rfl
    | cons c text =>
      obtain ⟨lead, conts, hc, hlead, -⟩ := encodeChar_cons c
      rw [nil_append, encode_cons, hc, cons_append, nextCharacter, dropWhile_cons_of_neg]
      simpa [isCharacter, Continues] using hlead
  | cons b tail ih =>
    rw [cons_append, nextCharacter, dropWhile_cons_of_pos]
    · exact ih fun b hb => htail b (by simp [hb])
    · simpa [isCharacter, Continues] using htail b (by simp)

/-- Bytes that match the symbols of a pattern begin a character, or they are the rest of one that some symbol lets be
anything: then the pattern matches with that character too. -/
theorem matches_encode : ∀ (p : List (Symbol Char)),
    (∀ text, Wildcard.Matches nextCharacter (encodeSymbols p) (encode text) ↔ Wildcard.Matches id p text) ∧
      ∀ c text tail, tail ≠ [] → (∀ b ∈ tail, Continues b) →
        Wildcard.Matches nextCharacter (encodeSymbols p) (tail ++ encode text) → Wildcard.Matches id p (c :: text)
  | [] => by
    constructor
    · intro text
      cases text with
      | nil => simp
      | cons c text =>
        obtain ⟨lead, conts, hc, -⟩ := encodeChar_cons c
        simp [hc]
    · intro c text tail hnil _ h
      exact absurd (append_eq_nil_iff.1 h).1 hnil
  | x :: p => by
    obtain ⟨hiff, hcut⟩ := matches_encode p
    -- an end of a text, which may be cut inside a character
    have hend : ∀ {t : List UInt8} {text : List Char}, t <:+ encode text →
        Wildcard.Matches nextCharacter (encodeSymbols p) t → ∃ text', text' <:+ text ∧ Wildcard.Matches id p text' := by
      intro t text ht h
      rcases suffix_encode ht with ⟨text', h', rfl⟩ | ⟨c, text', tail, h', hnil, htail, rfl⟩
      · exact ⟨text', h', (hiff _).1 h⟩
      · exact ⟨c :: text', h', hcut _ _ _ hnil htail h⟩
    cases x with
    | many =>
      constructor
      · intro text
        constructor
        · rintro ⟨t, ht, h⟩
          exact hend ht h
        · rintro ⟨text', h', h⟩
          exact ⟨encode text', encode_suffix h', (hiff _).2 h⟩
      · rintro c text tail - htail ⟨t, ht, h⟩
        rcases suffix_append_cases ht with ht | ⟨tail', htail', rfl⟩
        · obtain ⟨text', h', h⟩ := hend ht h
          exact ⟨text', h'.trans (suffix_cons _ _), h⟩
        · by_cases hnil : tail' = []
          · subst hnil
            exact ⟨text, suffix_cons _ _, (hiff _).1 h⟩
          · exact ⟨c :: text, suffix_rfl, hcut _ _ _ hnil (fun b hb => htail b (htail'.subset hb)) h⟩
    | one =>
      constructor
      · intro text
        cases text with
        | nil => simp [encodeSymbol]
        | cons c text =>
          obtain ⟨lead, conts, hc, -, hconts⟩ := encodeChar_cons c
          simp only [encodeSymbols_cons, encodeSymbol, cons_append, nil_append, encode_cons, hc,
            matches_one_cons, nextCharacter_continues hconts, hiff, id]
      · intro c text tail hnil htail h
        cases tail with
        | nil => exact absurd rfl hnil
        | cons b tail =>
          simp only [encodeSymbols_cons, encodeSymbol, cons_append, nil_append, matches_one_cons,
            nextCharacter_continues fun b hb => htail b (mem_cons_of_mem _ hb), hiff] at h
          simpa using h
    | letter c =>
      constructor
      · intro text
        rw [encodeSymbols_cons, encodeSymbol, matches_letters]
        cases text with
        | nil =>
          obtain ⟨lead, conts, hc, -⟩ := encodeChar_cons c
          simp [hc]
        | cons d text =>
          rw [matches_letter_cons, ← hiff]
          constructor
          · rintro ⟨t, heq, h⟩
            obtain ⟨rfl, rfl⟩ := encodeChar_append_inj heq
            exact ⟨rfl, h⟩
          · rintro ⟨rfl, h⟩
            exact ⟨_, rfl, h⟩
      · intro d text tail hnil htail h
        rw [encodeSymbols_cons, encodeSymbol, matches_letters] at h
        obtain ⟨t, heq, -⟩ := h
        obtain ⟨lead, conts, hc, hlead, -⟩ := encodeChar_cons c
        cases tail with
        | nil => exact absurd rfl hnil
        | cons b tail =>
          rw [hc] at heq
          obtain rfl := (cons.inj heq).1
          exact absurd (htail b (by simp)) hlead

/-! ## Reading the pattern -/

/-- The byte of a character of the first block. -/
def byteOf (c : Char) : UInt8 := UInt8.ofNat c.toNat

theorem byteOf_inj {c d : Char} (hc : c.toNat < 128) (hd : d.toNat < 128) : byteOf c = byteOf d ↔ c = d := by
  rw [byteOf, byteOf, ← UInt8.toNat_inj, UInt8.toNat_ofNat', UInt8.toNat_ofNat', ← Char.toNat_inj]
  omega

theorem byteOf_lt {c : Char} (hc : c.toNat < 128) : (byteOf c).toNat < 128 := by
  rw [byteOf, UInt8.toNat_ofNat']
  omega

section Parse

variable {escapeChar : Option Char}

theorem plain_of_le (hescape : ∀ c ∈ escapeChar, c.toNat < 128) {b : UInt8} (hb : 128 ≤ b.toNat) :
    (likeBytes (escapeChar.map byteOf)).Plain b := by
  refine ⟨fun h => ?_, ?_, ?_⟩
  · obtain ⟨c, hc, rfl⟩ := Option.map_eq_some_iff.1 h
    have := byteOf_lt (hescape c hc)
    omega
  · intro h
    rw [h] at hb
    exact absurd hb (show ¬ 128 ≤ underscore.toNat by decide)
  · intro h
    rw [h] at hb
    exact absurd hb (show ¬ 128 ≤ percentage.toNat by decide)

theorem symbol_byteOf {c : Char} (hc : c.toNat < 128) :
    [(likeBytes (escapeChar.map byteOf)).symbol (byteOf c)] = encodeSymbol ((likeCharacters escapeChar).symbol c) := by
  by_cases hone : c = '_'
  · subst hone
    rfl
  · by_cases hmany : c = '%'
    · subst hmany
      rfl
    · have hbyte_one : byteOf c ≠ underscore := fun h => hone ((byteOf_inj hc (d := '_') (by decide)).1 h)
      have hbyte_many : byteOf c ≠ percentage := fun h => hmany ((byteOf_inj hc (d := '%') (by decide)).1 h)
      rw [Wildcards.symbol_letter hbyte_one hbyte_many, Wildcards.symbol_letter hone hmany, encodeSymbol,
        encodeChar_ascii hc]
      rfl

theorem symbol_of_le {c : Char} (hc : 128 ≤ c.toNat) : (likeCharacters escapeChar).symbol c = .letter c := by
  refine Wildcards.symbol_letter ?_ ?_
  · intro h
    rw [h] at hc
    exact absurd hc (show ¬ 128 ≤ '_'.toNat by decide)
  · intro h
    rw [h] at hc
    exact absurd hc (show ¬ 128 ≤ '%'.toNat by decide)

theorem parse_encode (hescape : ∀ c ∈ escapeChar, c.toNat < 128) : ∀ pattern : List Char,
    (likeBytes (escapeChar.map byteOf)).parse (encode pattern) =
      (encodeSymbols ((likeCharacters escapeChar).parse pattern).1, ((likeCharacters escapeChar).parse pattern).2)
  | [] => rfl
  | c :: pattern => by
    by_cases hsome : (likeCharacters escapeChar).escape = some c
    · have hc : c.toNat < 128 := hescape c hsome
      have hbyte : (likeBytes (escapeChar.map byteOf)).escape = some (byteOf c) := congrArg (Option.map byteOf) hsome
      rw [encode_cons, encodeChar_ascii hc]
      cases pattern with
      | nil =>
        rw [Wildcards.parse_dangling hsome]
        exact Wildcards.parse_dangling hbyte
      | cons d pattern =>
        -- the escape takes the first byte of the character behind it, and the others stand for themselves
        obtain ⟨lead, conts, hd, -, hconts⟩ := encodeChar_cons d
        rw [Wildcards.parse_escape hsome, encode_cons, hd, singleton_append, cons_append]
        refine (Wildcards.parse_escape hbyte).trans ?_
        rw [Wildcards.parse_plain fun b hb => plain_of_le hescape (continues_iff.1 (hconts b hb)).1,
          parse_encode hescape pattern]
        simp [encodeSymbol, hd]
    · rw [Wildcards.parse_cons hsome, encode_cons, encodeSymbols_cons]
      by_cases hc : c.toNat < 128
      · have hbyte : (likeBytes (escapeChar.map byteOf)).escape ≠ some (byteOf c) := by
          intro h
          obtain ⟨d, hd, heq⟩ := Option.map_eq_some_iff.1 h
          exact hsome (hd.trans (congrArg some ((byteOf_inj (hescape d hd) hc).1 heq)))
        rw [encodeChar_ascii hc, singleton_append, ← symbol_byteOf hc]
        refine (Wildcards.parse_cons hbyte).trans ?_
        rw [parse_encode hescape pattern]
        rfl
      · rw [Wildcards.parse_plain fun b hb => plain_of_le hescape (le_of_mem_encodeChar (by omega) hb),
          parse_encode hescape pattern]
        rw [symbol_of_le (by omega)]
        rfl

end Parse

/-! ## `LIKE` -/

theorem leads_encode {escapeChar : Option Char} (hescape : ∀ c ∈ escapeChar, c.toNat < 128)
    {last : List (Symbol Char)} {flag : Bool} {pattern string : List Char} :
    Leads nextCharacter (encodeSymbols last) flag ((likeBytes (escapeChar.map byteOf)).parse (encode pattern))
        (encode string) ↔ Leads id last flag ((likeCharacters escapeChar).parse pattern) string := by
  rw [parse_encode hescape, Leads, Leads, ← (matches_encode _).1]
  simp [encodeSymbols]

theorem accepts_iff_like {pattern string : List Char} :
    Accepts id ((likeCharacters none).parse pattern) string ↔ Like pattern string := by
  rw [Wildcards.parse_of_none rfl, Accepts, Leads, append_nil]
  simp only [true_and]
  constructor
  · intro h
    induction pattern generalizing string with
    | nil =>
      obtain rfl : string = [] := h
      exact .nil
    | cons c pattern ih =>
      rw [map_cons] at h
      by_cases hone : c = '_'
      · subst hone
        obtain ⟨d, string, rfl, h⟩ := h
        exact .underscore (ih h)
      · by_cases hmany : c = '%'
        · subst hmany
          obtain ⟨string, ⟨skipped, rfl⟩, h⟩ := h
          exact .percentage (ih h)
        · rw [Wildcards.symbol_letter hone hmany] at h
          obtain ⟨string, rfl, h⟩ := h
          exact .character ⟨hmany, hone⟩ (ih h)
  · intro h
    induction h with
    | nil => rfl
    | @percentage _ skipped string _ ih => exact ⟨string, ⟨skipped, rfl⟩, ih⟩
    | @underscore c _ string _ ih => exact ⟨c, string, rfl, ih⟩
    | @character c _ string plain _ ih =>
      rw [map_cons, Wildcards.symbol_letter plain.2 plain.1]
      exact ⟨string, rfl, ih⟩

theorem likeOperatorFunction_decides (string pattern : List Char) :
    (likeOperatorFunction (encode string) (encode pattern)).Decides (Like pattern string) := by
  have hanswers : Answers standardCharacterReader nextCharacter (escapeOf false 0) (encode string) (encode pattern)
      (likeOperatorFunction (encode string) (encode pattern)) :=
    templatedLikeOperator_spec standardCharacterReader_reads (by simp) _ _
  have hmap : ∀ l : List UInt8, l.map standardCharacterReader.operation = l := map_id
  rw [Answers, hmap, hmap] at hanswers
  have hleads : ∀ last flag, Leads nextCharacter (encodeSymbols last) flag
      ((likeBytes (escapeOf false 0)).parse (encode pattern)) (encode string) ↔
        Leads id last flag ((likeCharacters none).parse pattern) string := fun last flag =>
    @leads_encode none (by simp) last flag pattern string
  refine (hanswers.2 ?_).congr ((hleads [] false).trans accepts_iff_like)
  intro h
  have := ((hleads [.one, .many] true).1 h).1
  rw [Wildcards.parse_of_none rfl] at this
  cases this

end Haybarn.Text
