/-
`ILIKE`: the general path lower-cases the string and the pattern and goes on with `LIKE` and its default escape, and the
path for strings without unicode compares lower-cased bytes. The lower-case mapping of the characters that are not ASCII is
a parameter.
-/
import Haybarn.Text.LikeCharacters

namespace Haybarn.Text

open Lib Lib.Outcome Lib.Wildcard Lib.Utf8 List

/-! ## Code points -/

/-- `Utf8Proc::UTF8ToCodepoint`: the code point, and the number of bytes read. -/
def utf8ToCodepoint (u : List UInt8) : Outcome (Int × Nat) := do
  let u0 ← read u 0
  if u0 ≤ 127 then .done (u0.toNat, 1)
  else do
    let u1 ← read u 1
    if 192 ≤ u0 ∧ u0 ≤ 223 then .done (((u0.toNat : Int) - 192) * 64 + ((u1.toNat : Int) - 128), 2)
    else if u0 = 0xED ∧ u1 &&& 0xA0 = 0xA0 then
      .error "invalid code point detected in Utf8Proc::UTF8ToCodepoint (0xd800 to 0xdfff), likely due to invalid UTF-8"
    else do
      let u2 ← read u 2
      if 224 ≤ u0 ∧ u0 ≤ 239 then
        .done (((u0.toNat : Int) - 224) * 4096 + ((u1.toNat : Int) - 128) * 64 + ((u2.toNat : Int) - 128), 3)
      else do
        let u3 ← read u 3
        if 240 ≤ u0 ∧ u0 ≤ 247 then
          .done (((u0.toNat : Int) - 240) * 262144 + ((u1.toNat : Int) - 128) * 4096 + ((u2.toNat : Int) - 128) * 64 +
            ((u3.toNat : Int) - 128), 4)
        else .error "invalid code point detected in Utf8Proc::UTF8ToCodepoint, likely due to invalid UTF-8"

def codepointLength (cp : Nat) : Outcome Nat :=
  if cp ≤ 0x7F then .done 1
  else if cp ≤ 0x7FF then .done 2
  else if 0xD800 ≤ cp ∧ cp ≤ 0xDFFF then
    .error "invalid code point detected in Utf8Proc::CodepointLength (0xd800 to 0xdfff), likely due to invalid UTF-8"
  else if cp ≤ 0xFFFF then .done 3
  else if cp ≤ 0x10FFFF then .done 4
  else .error "invalid code point detected in Utf8Proc::CodepointLength, likely due to invalid UTF-8"

/-- `Utf8Proc::CodepointToUtf8`: the bytes written, a fault where it fails and sets the size to minus one. -/
def codepointToUtf8 (cp : Nat) : Outcome (List UInt8) :=
  if cp ≤ 0x7F then .done [UInt8.ofNat cp]
  else if cp ≤ 0x7FF then .done [UInt8.ofNat (cp / 64 + 192), UInt8.ofNat (cp % 64 + 128)]
  else if 0xD800 ≤ cp ∧ cp ≤ 0xDFFF then .fault
  else if cp ≤ 0xFFFF then
    .done [UInt8.ofNat (cp / 4096 + 224), UInt8.ofNat (cp / 64 % 64 + 128), UInt8.ofNat (cp % 64 + 128)]
  else if cp ≤ 0x10FFFF then
    .done [UInt8.ofNat (cp / 262144 + 240), UInt8.ofNat (cp / 4096 % 64 + 128), UInt8.ofNat (cp / 64 % 64 + 128),
      UInt8.ofNat (cp % 64 + 128)]
  else .fault

section Lower

variable (lower : Char → Char)

/-- `Utf8Proc::CodepointToLower`, by the mapping of characters. -/
def codepointToLower (codepoint : Int) : Nat := (lower (Char.ofNat codepoint.toNat)).toNat

/-! ## `LowerCase` -/

/-- `GetResultLength<false>`, from `i` on. -/
def getResultLengthFrom (inputData : List UInt8) : Nat → Nat → Nat → Outcome Nat
  | 0, _, _ => .hang
  | turns + 1, i, outputLength =>
    if i < inputData.length then do
      let c ← read inputData i
      if c &&& 0x80 = 0 then getResultLengthFrom inputData turns (i + 1) (outputLength + 1)
      else do
        let (codepoint, sz) ← utf8ToCodepoint (inputData.drop i)
        let newSz ← codepointLength (codepointToLower lower codepoint)
        getResultLengthFrom inputData turns (i + sz) (outputLength + newSz)
    else .done outputLength

def lowerLength (inputData : List UInt8) : Outcome Nat :=
  getResultLengthFrom lower inputData (inputData.length + 1) 0 0

/-- `CaseConvert<false>`, from `i` on: the bytes written. -/
def caseConvertFrom (inputData : List UInt8) : Nat → Nat → Outcome (List UInt8)
  | 0, _ => .hang
  | turns + 1, i =>
    if i < inputData.length then do
      let c ← read inputData i
      if c &&& 0x80 ≠ 0 then do
        let (codepoint, sz) ← utf8ToCodepoint (inputData.drop i)
        let bytes ← codepointToUtf8 (codepointToLower lower codepoint)
        let rest ← caseConvertFrom inputData turns (i + sz)
        .done (bytes ++ rest)
      else do
        let rest ← caseConvertFrom inputData turns (i + 1)
        .done (asciiToLowerMap c :: rest)
    else .done []

def lowerCase (inputData : List UInt8) : Outcome (List UInt8) := caseConvertFrom lower inputData (inputData.length + 1) 0

/-- The string of `LowerLength` bytes that `LowerCase` fills: more bytes are written behind the array, and with fewer some
are never set. -/
def lowerString (data : List UInt8) : Outcome (List UInt8) := do
  let llength ← lowerLength lower data
  let ldata ← lowerCase lower data
  if ldata.length = llength then .done ldata else .fault

/-! ## `ILIKE` -/

def iLikeOperatorFunction (str pattern : List UInt8) (escape : UInt8) : Outcome Bool := do
  let strLcase ← lowerString lower str
  let patLcase ← lowerString lower pattern
  likeEscapeOperatorFunction strLcase patLcase escape

/-- `ILikeOperator`, which leaves the escape to its default. -/
def iLikeOperator (str pattern : List UInt8) : Outcome Bool := iLikeOperatorFunction lower str pattern 0

end Lower

def iLikeOperatorASCII (str pattern : List UInt8) : Outcome Bool :=
  templatedLikeOperator asciiLCaseReader false str pattern 0

/-! ## Lower case of texts -/

theorem codepointToUtf8_toNat (c : Char) : codepointToUtf8 c.toNat = .done (String.utf8EncodeChar c) := by
  unfold codepointToUtf8
  rcases encodeChar_blocks c with ⟨hc, h⟩ | ⟨hc, h⟩ | ⟨hc, h⟩ | ⟨hc, h⟩
  · rw [h, if_pos hc]
  · rw [h, if_neg (by omega), if_pos hc.2]
  · rw [h, if_neg (by omega), if_neg (by omega), if_neg (by omega), if_pos (by omega)]
  · rw [h, if_neg (by omega), if_neg (by omega), if_neg (by omega), if_neg (by omega), if_pos (by omega)]

theorem codepointLength_toNat (c : Char) : codepointLength c.toNat = .done (String.utf8EncodeChar c).length := by
  unfold codepointLength
  rcases encodeChar_blocks c with ⟨hc, h⟩ | ⟨hc, h⟩ | ⟨hc, h⟩ | ⟨hc, h⟩
  · rw [h, if_pos hc]
    rfl
  · rw [h, if_neg (by omega), if_pos hc.2]
    rfl
  · rw [h, if_neg (by omega), if_neg (by omega), if_neg (by omega), if_pos (by omega)]
    rfl
  · rw [h, if_neg (by omega), if_neg (by omega), if_neg (by omega), if_neg (by omega), if_pos (by omega)]
    rfl

theorem and_0xA0 {b : UInt8} (h : 128 ≤ b.toNat ∧ b.toNat < 160) : b &&& 0xA0 ≠ 0xA0 := by
  have hall : ∀ b : BitVec 8, 128 ≤ b.toNat ∧ b.toNat < 160 → (b &&& 0xA0#8) ≠ 0xA0#8 := by decide
  intro heq
  exact hall b.toBitVec h (UInt8.toBitVec_inj.2 heq)

theorem utf8ToCodepoint_encodeChar (c : Char) (rest : List UInt8) :
    utf8ToCodepoint (String.utf8EncodeChar c ++ rest) = .done ((c.toNat : Int), (String.utf8EncodeChar c).length) := by
  unfold utf8ToCodepoint
  rcases encodeChar_blocks c with ⟨hc, h⟩ | ⟨hc, h⟩ | ⟨hc, h⟩ | ⟨hc, h⟩
  all_goals
    rw [h]
    simp only [cons_append, nil_append, read_cons_zero, read_cons_succ, done_bind, UInt8.le_iff_toNat_le,
      UInt8.toNat_ofNat', length_cons, length_nil, UInt8.reduceToNat]
  · rw [if_pos (by omega)]
    congr 2
    omega
  · rw [if_neg (by omega), if_pos (by omega)]
    congr 2
    omega
  · have hlow : ¬ (UInt8.ofNat (c.toNat / 4096 + 224) = 0xED ∧ UInt8.ofNat (c.toNat / 64 % 64 + 128) &&& 0xA0 = 0xA0) := by
      rintro ⟨hlead, hsecond⟩
      have hlead : _ = 237 := congrArg UInt8.toNat hlead
      rw [UInt8.toNat_ofNat'] at hlead
      refine and_0xA0 ?_ hsecond
      rw [UInt8.toNat_ofNat']
      omega
    rw [if_neg (by omega), if_neg (by omega), if_neg hlow, if_pos (by omega)]
    congr 2
    omega
  · have hlow : ¬ (UInt8.ofNat (c.toNat / 262144 + 240) = 0xED ∧ UInt8.ofNat (c.toNat / 4096 % 64 + 128) &&& 0xA0 = 0xA0) := by
      rintro ⟨hlead, -⟩
      have hlead : _ = 237 := congrArg UInt8.toNat hlead
      rw [UInt8.toNat_ofNat'] at hlead
      omega
    rw [if_neg (by omega), if_neg (by omega), if_neg hlow, if_neg (by omega), if_pos (by omega)]
    congr 2
    omega

variable {lower : Char → Char}

/-- The lower case of a character. -/
def lowerChar (lower : Char → Char) (c : Char) : Char := if c.toNat < 128 then c.toLower else lower c

variable {c : Char}

theorem asciiToLowerMap_byteOf (hc : c.toNat < 128) :
    asciiToLowerMap (byteOf c) = byteOf c.toLower ∧ c.toLower.toNat < 128 := by
  have hall : ∀ v < 128, asciiToLowerMap (UInt8.ofNat v) = byteOf (Char.ofNat v).toLower ∧
      (Char.ofNat v).toLower.toNat < 128 := by decide +kernel
  have h := hall c.toNat hc
  rwa [Char.ofNat_toNat] at h

theorem asciiToLowerMap_of_le {b : UInt8} (hb : 128 ≤ b.toNat) : asciiToLowerMap b = b := by
  rw [asciiToLowerMap, if_neg]
  rintro ⟨-, h⟩
  rw [UInt8.le_iff_toNat_le] at h
  have : (90 : UInt8).toNat = 90 := rfl
  omega

theorem and_0x80 {b : UInt8} : b &&& 0x80 = 0 ↔ b.toNat < 128 := by
  have hall : ∀ b : BitVec 8, (b &&& 0x80#8) = 0#8 ↔ b.toNat < 128 := by decide
  rw [← UInt8.toBitVec_inj]
  exact hall b.toBitVec

theorem encodeChar_lowerChar (hc : c.toNat < 128) :
    String.utf8EncodeChar (lowerChar lower c) = [asciiToLowerMap (UInt8.ofNat c.toNat)] := by
  obtain ⟨hbyte, hlt⟩ := asciiToLowerMap_byteOf hc
  rw [lowerChar, if_pos hc, encodeChar_ascii hlt]
  exact congrArg (fun b => [b]) hbyte.symm

theorem codepointToLower_toNat (hc : ¬ c.toNat < 128) :
    codepointToLower lower (c.toNat : Int) = (lowerChar lower c).toNat := by
  rw [codepointToLower, Int.toNat_natCast, Char.ofNat_toNat, lowerChar, if_neg hc]

/-- What a loop over the characters of a text finds at the beginning of one. -/
structure CharacterAt (data : List UInt8) (i : Nat) (c : Char) (text : List Char) (b : UInt8) (rest : List UInt8) : Prop where
  drop : data.drop i = b :: rest
  ascii_iff : b &&& 0x80 = 0 ↔ c.toNat < 128
  ascii : c.toNat < 128 → b = UInt8.ofNat c.toNat ∧ data.drop (i + 1) = encode text
  codepoint : utf8ToCodepoint (data.drop i) = .done ((c.toNat : Int), (String.utf8EncodeChar c).length)
  skip : data.drop (i + (String.utf8EncodeChar c).length) = encode text
  pos : 0 < (String.utf8EncodeChar c).length
  le : i + (String.utf8EncodeChar c).length ≤ data.length

theorem exists_characterAt {data : List UInt8} {i : Nat} {text : List Char}
    (hdrop : data.drop i = encode (c :: text)) : ∃ b rest, CharacterAt data i c text b rest := by
  have hskip : data.drop (i + (String.utf8EncodeChar c).length) = encode text := by
    rw [← drop_drop, hdrop, encode_cons, drop_left]
  have hcodepoint : utf8ToCodepoint (data.drop i) = .done ((c.toNat : Int), (String.utf8EncodeChar c).length) := by
    rw [hdrop, encode_cons, utf8ToCodepoint_encodeChar]
  have hlen : i + (String.utf8EncodeChar c).length ≤ data.length := by
    have hpos := length_pos_iff.2 (@String.utf8EncodeChar_ne_nil c)
    have := congrArg length hdrop
    rw [length_drop, encode_cons, length_append] at this
    omega
  rcases encodeChar_eq c with ⟨hc, h⟩ | ⟨hc, lead, tail, h, hlead, -⟩
  · rw [h] at hskip hcodepoint hlen
    have hand : UInt8.ofNat c.toNat &&& 0x80 = 0 := by
      rw [and_0x80, UInt8.toNat_ofNat']
      omega
    rw [encode_cons, h] at hdrop
    exact ⟨_, _, hdrop, iff_of_true hand hc, fun _ => ⟨rfl, hskip⟩, by rwa [h], by rwa [h], by simp [h], by rwa [h]⟩
  · rw [h] at hskip hcodepoint hlen
    have hand : ¬ lead &&& 0x80 = 0 := by
      rw [and_0x80]
      omega
    rw [encode_cons, h] at hdrop
    exact ⟨_, _, hdrop, iff_of_false hand (by omega), fun h => absurd h (by omega), by rwa [h], by rwa [h], by simp [h],
      by rwa [h]⟩

theorem caseConvertFrom_encode {data : List UInt8} : ∀ {text : List Char} {turns i : Nat},
    data.drop i = encode text → data.length < turns + i → i ≤ data.length →
      caseConvertFrom lower data turns i = .done (encode (text.map (lowerChar lower)))
  | _, 0, i, _, hturns, hle => absurd hturns (by omega)
  | [], turns + 1, i, hdrop, hturns, hle => by
    have hend : data.length ≤ i := drop_eq_nil_iff.1 hdrop
    rw [caseConvertFrom, if_neg (by omega)]
    rfl
  | c :: text, turns + 1, i, hdrop, hturns, hle => by
    obtain ⟨b, rest, h⟩ := exists_characterAt hdrop
    have hlt := lt_of_drop h.drop
    have hpos := h.pos
    rw [caseConvertFrom, if_pos hlt, read_of_drop h.drop, done_bind, map_cons, encode_cons]
    by_cases hc : c.toNat < 128
    · obtain ⟨rfl, hnext⟩ := h.ascii hc
      rw [if_neg (not_not.2 (h.ascii_iff.2 hc)), caseConvertFrom_encode hnext (by omega) hlt, done_bind,
        encodeChar_lowerChar hc]
      rfl
    · rw [if_pos (h.ascii_iff.not.2 hc), h.codepoint, done_bind]
      dsimp only
      rw [codepointToLower_toNat hc, codepointToUtf8_toNat, done_bind, caseConvertFrom_encode h.skip (by omega) h.le,
        done_bind]

theorem getResultLengthFrom_encode {data : List UInt8} : ∀ {text : List Char} {turns i outputLength : Nat},
    data.drop i = encode text → data.length < turns + i → i ≤ data.length →
      getResultLengthFrom lower data turns i outputLength =
        .done (outputLength + (encode (text.map (lowerChar lower))).length)
  | _, 0, i, _, _, hturns, hle => absurd hturns (by omega)
  | [], turns + 1, i, _, hdrop, hturns, hle => by
    have hend : data.length ≤ i := drop_eq_nil_iff.1 hdrop
    rw [getResultLengthFrom, if_neg (by omega)]
    rfl
  | c :: text, turns + 1, i, outputLength, hdrop, hturns, hle => by
    obtain ⟨b, rest, h⟩ := exists_characterAt hdrop
    have hlt := lt_of_drop h.drop
    have hpos := h.pos
    rw [getResultLengthFrom, if_pos hlt, read_of_drop h.drop, done_bind, map_cons, encode_cons, length_append,
      ← Nat.add_assoc]
    by_cases hc : c.toNat < 128
    · obtain ⟨rfl, hnext⟩ := h.ascii hc
      rw [if_pos (h.ascii_iff.2 hc), getResultLengthFrom_encode hnext (by omega) hlt, encodeChar_lowerChar hc]
      rfl
    · rw [if_neg (h.ascii_iff.not.2 hc), h.codepoint, done_bind]
      dsimp only
      rw [codepointToLower_toNat hc, codepointLength_toNat, done_bind, getResultLengthFrom_encode h.skip (by omega) h.le]

theorem lowerString_encode (text : List Char) :
    lowerString lower (encode text) = .done (encode (text.map (lowerChar lower))) := by
  have hlength : lowerLength lower (encode text) = .done (encode (text.map (lowerChar lower))).length := by
    have := @getResultLengthFrom_encode lower (encode text) text ((encode text).length + 1) 0 0 rfl (by omega)
      (Nat.zero_le _)
    rwa [Nat.zero_add] at this
  have hcase : lowerCase lower (encode text) = .done (encode (text.map (lowerChar lower))) :=
    caseConvertFrom_encode rfl (by omega) (Nat.zero_le _)
  rw [lowerString, hlength, done_bind, hcase, done_bind, if_pos rfl]

/-! ## The two paths -/

/-- The pattern as the general path reads it: lower-cased as unicode, with the zero byte as an escape. -/
def generalReading (lower : Char → Char) (pattern : List Char) : List (Symbol Char) × Bool :=
  (likeCharacters (some (Char.ofNat 0))).parse (pattern.map (lowerChar lower))

/-- The pattern as the path for strings without unicode reads it: only the characters of the first block are lower-cased,
and there is no escape. -/
def asciiReading (pattern : List Char) : List (Symbol Char) × Bool :=
  (likeCharacters none).parse (pattern.map (lowerChar id))

theorem iLikeOperator_settles (lower : Char → Char) (string pattern : List Char) :
    (iLikeOperator lower (encode string) (encode pattern)).Settles escapeAtEnd
      (Stuck id (generalReading lower pattern) (string.map (lowerChar lower)))
      (Accepts id (generalReading lower pattern) (string.map (lowerChar lower))) := by
  rw [iLikeOperator, iLikeOperatorFunction, lowerString_encode, done_bind, lowerString_encode, done_bind]
  have hanswers : Answers standardCharacterReader nextCharacter (escapeOf true 0)
      (encode (string.map (lowerChar lower))) (encode (pattern.map (lowerChar lower)))
      (likeEscapeOperatorFunction (encode (string.map (lowerChar lower))) (encode (pattern.map (lowerChar lower))) 0) :=
    templatedLikeOperator_spec standardCharacterReader_reads (fun _ => ⟨by decide, fun _ => rfl⟩) _ _
  have hmap : ∀ l : List UInt8, l.map standardCharacterReader.operation = l := map_id
  rw [Answers, hmap, hmap] at hanswers
  have hleads : ∀ last flag, Leads nextCharacter (encodeSymbols last) flag
      ((likeBytes (escapeOf true 0)).parse (encode (pattern.map (lowerChar lower))))
      (encode (string.map (lowerChar lower))) ↔
        Leads id last flag (generalReading lower pattern) (string.map (lowerChar lower)) := fun last flag =>
    @leads_encode (some (Char.ofNat 0)) (by simp) last flag _ _
  exact hanswers.congr (hleads [.one, .many] true) (hleads [] false)

theorem map_asciiToLowerMap_encode (text : List Char) :
    (encode text).map asciiToLowerMap = encode (text.map (lowerChar id)) := by
  induction text with
  | nil => rfl
  | cons c text ih =>
    rw [encode_cons, map_append, ih, map_cons, encode_cons]
    congr 1
    by_cases hc : c.toNat < 128
    · rw [encodeChar_lowerChar hc, encodeChar_ascii hc]
      rfl
    · rw [lowerChar, if_neg hc, id, map_congr_left fun b hb => asciiToLowerMap_of_le
        (le_of_mem_encodeChar (by omega) hb), map_id']

theorem matches_ascii {p : List (Symbol UInt8)} {s : List UInt8} (hs : ∀ b ∈ s, b.toNat < 128) :
    Wildcard.Matches id p s ↔ Wildcard.Matches nextCharacter p s := by
  induction p generalizing s with
  | nil => rfl
  | cons x p ih =>
    cases x with
    | many => exact exists_congr fun t => and_congr_right fun ht => ih fun b hb => hs b (ht.subset hb)
    | one =>
      cases s with
      | nil => simp
      | cons b s =>
        have hrest : ∀ b ∈ s, b.toNat < 128 := fun b hb => hs b (mem_cons_of_mem _ hb)
        have hnext : nextCharacter s = s := by
          cases s with
          | nil => rfl
          | cons c s =>
            rw [nextCharacter, dropWhile_cons_of_neg]
            have := hrest c (by simp)
            have hnot : ¬ Continues c := by
              rw [continues_iff]
              omega
            simpa [isCharacter, Continues] using hnot
        rw [matches_one_cons, matches_one_cons, hnext, id, ih hrest]
    | letter a =>
      cases s with
      | nil => simp
      | cons b s => rw [matches_letter_cons, matches_letter_cons, ih fun b hb => hs b (mem_cons_of_mem _ hb)]

theorem toNat_lt_of_mem_encode {text : List Char} (htext : ∀ c ∈ text, c.toNat < 128) {b : UInt8} (hb : b ∈ encode text) :
    b.toNat < 128 := by
  obtain ⟨c, hc, hb⟩ := mem_flatMap.1 hb
  rw [encodeChar_ascii (htext c hc), mem_singleton] at hb
  rw [hb]
  exact byteOf_lt (htext c hc)

theorem iLikeOperatorASCII_decides {string : List Char} (hstring : ∀ c ∈ string, c.toNat < 128) (pattern : List Char) :
    (iLikeOperatorASCII (encode string) (encode pattern)).Decides
      (Accepts id (asciiReading pattern) (string.map (lowerChar id))) := by
  have hanswers : Answers asciiLCaseReader id (escapeOf false 0) (encode string) (encode pattern)
      (iLikeOperatorASCII (encode string) (encode pattern)) :=
    templatedLikeOperator_spec asciiLCaseReader_reads (by simp) _ _
  have hlower : ∀ c ∈ string.map (lowerChar id), c.toNat < 128 := by
    intro c hc
    obtain ⟨d, hd, rfl⟩ := mem_map.1 hc
    rw [lowerChar, if_pos (hstring d hd)]
    exact (asciiToLowerMap_byteOf (hstring d hd)).2
  have hleads : ∀ last flag, Leads id (encodeSymbols last) flag
      ((likeBytes (escapeOf false 0)).parse ((encode pattern).map asciiToLowerMap))
      ((encode string).map asciiToLowerMap) ↔
        Leads id last flag (asciiReading pattern) (string.map (lowerChar id)) := by
    intro last flag
    rw [map_asciiToLowerMap_encode, map_asciiToLowerMap_encode, Leads,
      matches_ascii fun b => toNat_lt_of_mem_encode hlower]
    exact @leads_encode none (by simp) last flag _ _
  refine (hanswers.2 ?_).congr (hleads [] false)
  intro h
  have := ((hleads [.one, .many] true).1 h).1
  rw [asciiReading, Wildcards.parse_of_none rfl] at this
  cases this

/-! ### Characters that are read differently -/

/-- A way to match the string, which is lower-cased, reaches a character of the pattern that the two paths read differently:
a zero byte, or a character that is not ASCII and has the next one of the string, or a character with a meaning of its
own, as its lower case. -/
inductive MeetsOther (lower : Char → Char) : List Char → List Char → Prop
  | zero {d : Char} {pattern string : List Char} : MeetsOther lower (Char.ofNat 0 :: pattern) (d :: string)
  | folded {c d : Char} {pattern string : List Char} (hc : 128 ≤ c.toNat) (h : lower c ∈ [d, '%', '_', Char.ofNat 0]) :
    MeetsOther lower (c :: pattern) (d :: string)
  | atEnd {c : Char} {pattern : List Char} (hc : 128 ≤ c.toNat) (h : lower c = '%') : MeetsOther lower (c :: pattern) []
  | many {pattern string rest : List Char} (hrest : rest <:+ string) (h : MeetsOther lower pattern rest) :
    MeetsOther lower ('%' :: pattern) string
  | one {d : Char} {pattern string : List Char} (h : MeetsOther lower pattern string) :
    MeetsOther lower ('_' :: pattern) (d :: string)
  | letter {c : Char} {pattern string : List Char} (hc : c.toNat < 128) (h : MeetsOther lower pattern string) :
    MeetsOther lower (c :: pattern) (c.toLower :: string)

/-- The two readings agree on the string: the general one is not stuck in an escape, and both match or neither does. -/
def Agree (lower : Char → Char) (pattern string : List Char) : Prop :=
  ¬ Stuck id (generalReading lower pattern) string ∧
    (Accepts id (asciiReading pattern) string ↔ Accepts id (generalReading lower pattern) string)

/-- The two readings agree on all that a symbol in front of the pattern can leave of the string. -/
def AgreeBehind (lower : Char → Char) (pattern : List Char) : Symbol Char → List Char → Prop
  | .many, string => ∀ rest, rest <:+ string → Agree lower pattern rest
  | _, [] => True
  | .one, _ :: string => Agree lower pattern string
  | .letter a, d :: string => d = a → Agree lower pattern string

variable {string pattern : List Char}

/-- Lower-casing neither makes nor removes a symbol of the pattern: it changes only letters, and into letters. -/
theorem toLower_eq_iff {a : Char} (ha : a ∈ ['%', '_', Char.ofNat 0]) : c.toLower = a ↔ c = a := by
  have hval : a.val = 37 ∨ a.val = 95 ∨ a.val = 0 := by
    simp only [mem_cons, not_mem_nil, or_false] at ha
    rcases ha with rfl | rfl | rfl <;> decide
  unfold Char.toLower
  split
  case isTrue hupper =>
    obtain ⟨hge, hle⟩ : 65 ≤ c.val ∧ c.val ≤ 90 := hupper
    rw [Char.ext_iff, Char.ext_iff]
    have hshift : (97 - 65 : UInt32) = 32 := by decide
    change c.val + (97 - 65) = a.val ↔ c.val = a.val
    rw [hshift]
    grind
  case isFalse => rfl

/-- A character that is read as the same symbol. -/
theorem agree_cons {x : Symbol Char} (hgeneral : generalReading lower (c :: pattern) =
      (x :: (generalReading lower pattern).1, (generalReading lower pattern).2))
    (hascii : asciiReading (c :: pattern) = (x :: (asciiReading pattern).1, (asciiReading pattern).2))
    (h : AgreeBehind lower pattern x string) : Agree lower (c :: pattern) string := by
  rw [Agree, hgeneral, hascii]
  unfold AgreeBehind at h
  simp only [Stuck, Accepts, Leads, List.cons_append, List.append_nil] at *
  cases x with
  | many =>
    refine ⟨fun hstuck => ?_, ?_⟩
    · obtain ⟨hflag, rest, hrest, hmatch⟩ := hstuck
      exact (h rest hrest).1 ⟨hflag, by simpa using hmatch⟩
    · simp only [matches_many, ← exists_and_left]
      refine exists_congr fun rest => ?_
      have hiff : rest <:+ string → _ := fun hrest => (h rest hrest).2
      simp only [Accepts, Leads, List.append_nil] at hiff
      grind
  | one =>
    cases string with
    | nil => simp
    | cons d string => simpa [Agree, Stuck, Accepts, Leads] using h
  | letter a =>
    cases string with
    | nil => simp
    | cons d string =>
      simp only [matches_letter_cons]
      by_cases hd : d = a
      · simpa [Agree, Stuck, Accepts, Leads, hd] using h hd
      · simp [hd]

theorem asciiReading_cons (c : Char) (pattern : List Char) : asciiReading (c :: pattern) =
    ((likeCharacters none).symbol (lowerChar id c) :: (asciiReading pattern).1, (asciiReading pattern).2) :=
  Wildcards.parse_cons (Option.some_ne_none _).symm

/-- At the end of the string neither reading of a zero byte matches. -/
theorem agree_zero (lower : Char → Char) (pattern : List Char) : Agree lower (Char.ofNat 0 :: pattern) [] := by
  have hrejects : ∀ (escape : Option Char) (lower : Char → Char), escape ≠ some '%' →
      ¬ Accepts id ((likeCharacters escape).parse ((Char.ofNat 0 :: pattern).map (lowerChar lower))) [] := by
    intro escape lower hescape haccepts
    have hnot : Char.ofNat 0 ≠ '%' := by decide
    have hone : (likeCharacters escape).many ≠ (likeCharacters escape).one := show '%' ≠ '_' by decide
    refine hnot ((accepts_nil hescape hone).1 haccepts _ ?_)
    exact mem_cons.2 (.inl (if_pos (by decide)).symm)
  exact ⟨not_stuck_nil, iff_of_false (hrejects none id (by simp)) (hrejects (some (Char.ofNat 0)) lower (by decide))⟩

/-- An ASCII character is the same symbol in both readings, unless it is the zero byte. -/
theorem agree_ascii (hc : c.toNat < 128) (hzero : c ≠ Char.ofNat 0)
    (h : AgreeBehind lower pattern ((likeCharacters none).symbol c.toLower) string) :
    Agree lower (c :: pattern) string := by
  have hlower : ∀ lower : Char → Char, lowerChar lower c = c.toLower := fun lower => if_pos hc
  have hescape : ¬ c.toLower = Char.ofNat 0 := (toLower_eq_iff (by simp)).not.2 hzero
  have hgeneral : generalReading lower (c :: pattern) = ((likeCharacters none).symbol c.toLower ::
      (generalReading lower pattern).1, (generalReading lower pattern).2) := by
    rw [← hlower lower]
    refine Wildcards.parse_cons fun heq => hescape ?_
    rw [← hlower lower]
    exact (Option.some.inj heq).symm
  exact agree_cons hgeneral (hlower id ▸ asciiReading_cons c pattern) h

/-- A character that is not ASCII matches nothing where it is not lower-cased, and nothing of the string where it is. -/
theorem agree_other (hc : 128 ≤ c.toNat) (hstring : ∀ c ∈ string, c.toNat < 128)
    (h : ¬ MeetsOther lower (c :: pattern) string) : Agree lower (c :: pattern) string := by
  have hlower : lowerChar lower c = lower c := if_neg (Nat.not_lt.2 hc)
  have hne : ∀ d : Char, d.toNat < 128 → d ≠ c := fun d hd heq => absurd (heq ▸ hd) (Nat.not_lt.2 hc)
  have hascii := asciiReading_cons c pattern
  rw [show lowerChar id c = c from if_neg (Nat.not_lt.2 hc),
    Wildcards.symbol_letter (hne '_' (by decide)).symm (hne '%' (by decide)).symm] at hascii
  cases string with
  | nil =>
    refine ⟨not_stuck_nil, iff_of_false ?_ fun haccepts => ?_⟩
    · rw [hascii, Accepts, Leads]
      simp
    · refine h (.atEnd hc ?_)
      rw [← hlower]
      exact (accepts_nil (w := likeCharacters (some (Char.ofNat 0))) (by decide) (by decide)).1 haccepts _ mem_cons_self
  | cons d string =>
    have hother : lower c ∉ [d, '%', '_', Char.ofNat 0] := fun hm => h (.folded hc hm)
    simp only [mem_cons, not_mem_nil, or_false, not_or] at hother
    have hplain : (likeCharacters (some (Char.ofNat 0))).Plain (lower c) :=
      ⟨fun heq => hother.2.2.2 (Option.some.inj heq).symm, hother.2.2.1, hother.2.1⟩
    have hgeneral : ∀ last flag, ¬ Leads id last flag (generalReading lower (c :: pattern)) (d :: string) := by
      intro last flag hleads
      rw [generalReading, map_cons, hlower, leads_letter hplain] at hleads
      exact hother.1 hleads.1.symm
    refine ⟨hgeneral _ _, iff_of_false (fun haccepts => ?_) (hgeneral _ _)⟩
    rw [hascii, Accepts, Leads, List.cons_append, matches_letter_cons] at haccepts
    exact hne d (hstring d mem_cons_self) haccepts.2.1

/-- Where no such character is met, the two readings agree. -/
theorem agree_of_not_meets (hstring : ∀ c ∈ string, c.toNat < 128) (h : ¬ MeetsOther lower pattern string) :
    Agree lower pattern string := by
  induction pattern generalizing string with
  | nil => simp [Agree, generalReading, asciiReading, Stuck, Accepts, Leads]
  | cons c pattern ih =>
    by_cases hc : c.toNat < 128
    · by_cases hzero : c = Char.ofNat 0
      · subst hzero
        cases string with
        | nil => exact agree_zero lower pattern
        | cons d string => exact absurd .zero h
      · refine agree_ascii hc hzero ?_
        by_cases hone : c = '_'
        · subst hone
          cases string with
          | nil => trivial
          | cons d string => exact ih (fun c hc => hstring c (mem_cons_of_mem _ hc)) fun hm => h (.one hm)
        · by_cases hmany : c = '%'
          · subst hmany
            exact fun rest hrest => ih (fun c hc => hstring c (hrest.subset hc)) fun hm => h (.many hrest hm)
          · have hone' : c.toLower ≠ '_' := (toLower_eq_iff (by simp)).not.2 hone
            have hmany' : c.toLower ≠ '%' := (toLower_eq_iff (by simp)).not.2 hmany
            rw [Wildcards.symbol_letter hone' hmany']
            cases string with
            | nil => trivial
            | cons d string =>
              rintro rfl
              exact ih (fun c hc => hstring c (mem_cons_of_mem _ hc)) fun hm => h (.letter hc hm)
    · exact agree_other (Nat.le_of_not_lt hc) hstring h

/-- The two paths give the same result where no character is met that they read differently. -/
theorem iLike_paths_agree (lower : Char → Char) (string pattern : List Char) (hstring : ∀ c ∈ string, c.toNat < 128)
    (hmeets : ¬ MeetsOther lower pattern (string.map Char.toLower)) :
    iLikeOperatorASCII (encode string) (encode pattern) = iLikeOperator lower (encode string) (encode pattern) := by
  have hlower : string.map (lowerChar lower) = string.map Char.toLower :=
    List.map_congr_left fun c hc => if_pos (hstring c hc)
  have hlower' : string.map (lowerChar id) = string.map Char.toLower :=
    List.map_congr_left fun c hc => if_pos (hstring c hc)
  have hlt : ∀ c ∈ string.map Char.toLower, c.toNat < 128 := by
    intro c hc
    obtain ⟨d, hd, rfl⟩ := mem_map.1 hc
    exact (asciiToLowerMap_byteOf (hstring d hd)).2
  obtain ⟨hstuck, hagree⟩ := agree_of_not_meets hlt hmeets
  have hgeneral := iLikeOperator_settles lower string pattern
  obtain ⟨b, hb, hascii⟩ := iLikeOperatorASCII_decides hstring pattern
  rw [hlower] at hgeneral
  rw [hlower'] at hascii
  obtain ⟨b', hb', hiff⟩ := hgeneral.2 hstuck
  rw [hb, hb', Bool.eq_iff_iff.2 (hascii.trans (hagree.trans hiff.symm))]

/-- The Kelvin sign. -/
def kelvin : Char := Char.ofNat 0x212A

/-- A lower-case mapping as far as the Kelvin sign goes. -/
def kelvinLower (c : Char) : Char := if c = kelvin then 'k' else c

/-- The Kelvin sign is lower-cased to `k` on the general path only, and a zero byte is an escape on the general path only. -/
theorem iLike_paths_differ :
    iLikeOperatorASCII (encode ['k']) (encode [kelvin]) = .done false ∧
      iLikeOperator kelvinLower (encode ['k']) (encode [kelvin]) = .done true ∧
      iLikeOperatorASCII (encode ['a']) (encode [Char.ofNat 0, 'a']) = .done false ∧
      iLikeOperator kelvinLower (encode ['a']) (encode [Char.ofNat 0, 'a']) = .done true ∧
      ¬ ∀ string pattern, (∀ c ∈ string, c.toNat < 128) →
        iLikeOperatorASCII (encode string) (encode pattern) = iLikeOperator kelvinLower (encode string) (encode pattern) := by
  have hfast : iLikeOperatorASCII (encode ['k']) (encode [kelvin]) = .done false := by rfl
  have hgeneral : iLikeOperator kelvinLower (encode ['k']) (encode [kelvin]) = .done true := by rfl
  refine ⟨hfast, hgeneral, by rfl, by rfl, fun h => ?_⟩
  have := h ['k'] [kelvin] (by simp)
  rw [hfast, hgeneral] at this
  cases this

/-- A pattern with a Kelvin sign that no way to match the string reaches. -/
theorem iLike_paths_agree_unmet :
    iLikeOperatorASCII (encode ['A', 'b']) (encode ['a', 'c', kelvin]) =
      iLikeOperator kelvinLower (encode ['A', 'b']) (encode ['a', 'c', kelvin]) := by
  refine iLike_paths_agree kelvinLower ['A', 'b'] ['a', 'c', kelvin] (by simp) fun h => ?_
  have hbehind : ∀ s, ¬ MeetsOther kelvinLower ['c', kelvin] ('b' :: s) := by
    intro s h
    generalize hp : ['c', kelvin] = p at h
    generalize hs : 'b' :: s = s' at h
    cases h with
    | letter => exact absurd ((cons.inj hs).1.trans (congrArg Char.toLower (cons.inj hp).1.symm)) (by decide)
    | folded hc => exact absurd ((cons.inj hp).1 ▸ hc) (by decide)
    | zero | many => exact absurd (cons.inj hp).1 (by decide)
    | atEnd | one => first | exact absurd (cons.inj hp).1 (by decide) | cases hs
  generalize hp : ['a', 'c', kelvin] = p at h
  generalize hs : ['A', 'b'].map Char.toLower = s at h
  cases h with
  | letter _ h =>
    obtain ⟨-, rfl⟩ := cons.inj hp
    obtain ⟨-, rfl⟩ := cons.inj hs
    exact hbehind [] h
  | folded hc => exact absurd ((cons.inj hp).1 ▸ hc) (by decide)
  | zero | many => exact absurd (cons.inj hp).1 (by decide)
  | atEnd | one => first | exact absurd (cons.inj hp).1 (by decide) | cases hs

end Haybarn.Text
