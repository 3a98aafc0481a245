/-
The bytes of a text: every character begins with a byte that marks a beginning and goes on with bytes that do not, no
character's bytes begin another's, and a text that is cut anywhere goes on with the rest of one character. Nothing here
names a particular program.
-/
import Mathlib.Data.List.Basic

namespace Haybarn.Lib.Utf8

open UInt8 List

/-- The text as bytes. -/
def encode (text : List Char) : List UInt8 := text.flatMap String.utf8EncodeChar

/-- The byte is not the first of a character. -/
def Continues (b : UInt8) : Prop := b &&& 0xC0 = 0x80

instance : DecidablePred Continues := fun b => inferInstanceAs (Decidable (b &&& 0xC0 = 0x80))

variable {c d : Char} {text : List Char} {b : UInt8} {bytes rest rest' : List UInt8}

@[simp] theorem encode_nil : encode [] = [] := rfl

@[simp] theorem encode_cons : encode (c :: text) = String.utf8EncodeChar c ++ encode text := rfl

/-! ## The bytes of one character -/

/-- Whether a byte goes on can be read off its number. -/
theorem continues_iff : Continues b ↔ 128 ≤ b.toNat ∧ b.toNat < 192 := by
  have hall : ∀ b : BitVec 8, (b &&& 0xC0#8 = 0x80#8) ↔ 128 ≤ b.toNat ∧ b.toNat < 192 := by decide
  have := hall b.toBitVec
  rw [Continues, ← UInt8.toBitVec_inj]
  exact this

/-- The bytes of a character, by the block of its number. -/
theorem encodeChar_blocks (c : Char) :
    c.toNat ≤ 0x7F ∧ String.utf8EncodeChar c = [ofNat c.toNat] ∨
      (0x7F < c.toNat ∧ c.toNat ≤ 0x7FF) ∧
        String.utf8EncodeChar c = [ofNat (c.toNat / 64 + 192), ofNat (c.toNat % 64 + 128)] ∨
      (0x7FF < c.toNat ∧ c.toNat ≤ 0xFFFF ∧ (c.toNat < 0xD800 ∨ 0xDFFF < c.toNat)) ∧
        String.utf8EncodeChar c = [ofNat (c.toNat / 4096 + 224), ofNat (c.toNat / 64 % 64 + 128),
          ofNat (c.toNat % 64 + 128)] ∨
      (0xFFFF < c.toNat ∧ c.toNat ≤ 0x10FFFF) ∧
        String.utf8EncodeChar c = [ofNat (c.toNat / 262144 + 240), ofNat (c.toNat / 4096 % 64 + 128),
          ofNat (c.toNat / 64 % 64 + 128), ofNat (c.toNat % 64 + 128)] := by
  have hvalid : c.toNat < 0xD800 ∨ 0xDFFF < c.toNat ∧ c.toNat < 0x110000 := c.valid
  unfold String.utf8EncodeChar
  simp only [Char.toNat_val]
  generalize c.toNat = v at hvalid
  by_cases h1 : v ≤ 0x7F
  · exact .inl ⟨h1, if_pos h1⟩
  · rw [if_neg h1]
    by_cases h2 : v ≤ 0x7FF
    · rw [if_pos h2, show v / 64 % 32 = v / 64 by omega]
      exact .inr (.inl ⟨by omega, rfl⟩)
    · rw [if_neg h2]
      by_cases h3 : v ≤ 0xFFFF
      · rw [if_pos h3, show v / 4096 % 16 = v / 4096 by omega]
        exact .inr (.inr (.inl ⟨by omega, rfl⟩))
      · rw [if_neg h3, show v / 262144 % 8 = v / 262144 by omega]
        exact .inr (.inr (.inr ⟨by omega, rfl⟩))

theorem encodeChar_eq (c : Char) :
    c.toNat < 128 ∧ String.utf8EncodeChar c = [ofNat c.toNat] ∨
      128 ≤ c.toNat ∧ ∃ lead tail, String.utf8EncodeChar c = lead :: tail ∧ 192 ≤ lead.toNat ∧
        ∀ b ∈ tail, 128 ≤ b.toNat ∧ b.toNat < 192 := by
  rcases encodeChar_blocks c with ⟨hc, h⟩ | ⟨hc, h⟩ | ⟨hc, h⟩ | ⟨hc, h⟩
  · exact .inl ⟨by omega, h⟩
  all_goals
    refine .inr ⟨by omega, _, _, h, ?_, ?_⟩
    · rw [toNat_ofNat']
      omega
    · simp
      omega

/-- A character begins with a byte that marks a beginning, and the others go on. -/
theorem encodeChar_cons (c : Char) :
    ∃ lead tail, String.utf8EncodeChar c = lead :: tail ∧ ¬ Continues lead ∧ ∀ b ∈ tail, Continues b := by
  rcases encodeChar_eq c with ⟨hc, h⟩ | ⟨-, lead, tail, h, hlead, htail⟩
  · refine ⟨_, [], h, ?_, by simp⟩
    rw [continues_iff, toNat_ofNat']
    omega
  · refine ⟨lead, tail, h, ?_, fun b hb => continues_iff.2 (htail b hb)⟩
    rw [continues_iff]
    omega

/-- The bytes of a character of the first block are its number. -/
theorem encodeChar_ascii (hc : c.toNat < 128) : String.utf8EncodeChar c = [ofNat c.toNat] := by
  rcases encodeChar_eq c with ⟨-, h⟩ | ⟨h, -⟩
  · exact h
  · omega

/-- The bytes of the other characters lie behind the first block. -/
theorem le_of_mem_encodeChar (hc : 128 ≤ c.toNat) (hb : b ∈ String.utf8EncodeChar c) : 128 ≤ b.toNat := by
  rcases encodeChar_eq c with ⟨h, -⟩ | ⟨-, lead, tail, h, hlead, htail⟩
  · omega
  · rw [h] at hb
    rcases mem_cons.1 hb with rfl | hb
    · omega
    · exact (htail b hb).1

/-- The character that bytes begin with can be read off them. -/
theorem encodeChar_append_inj (h : String.utf8EncodeChar c ++ rest = String.utf8EncodeChar d ++ rest') :
    c = d ∧ rest = rest' := by
  have hbytes : (String.utf8EncodeChar c).toByteArray ++ rest.toByteArray =
      (String.utf8EncodeChar d).toByteArray ++ rest'.toByteArray := by
    rw [← toByteArray_append, ← toByteArray_append, h]
  have hsame := congrArg (ByteArray.utf8DecodeChar? · 0) hbytes
  simp only [ByteArray.utf8DecodeChar?_utf8EncodeChar_append, Option.some.injEq] at hsame
  subst hsame
  exact ⟨rfl, append_cancel_left h⟩

/-! ## Ends of a text -/

/-- An end of two lists is an end of the second, or an end of the first and the second. -/
theorem suffix_append_cases {α : Type} {s t u : List α} (h : s <:+ t ++ u) :
    s <:+ u ∨ ∃ t', t' <:+ t ∧ s = t' ++ u := by
  obtain ⟨front, hfront⟩ := h
  rcases append_eq_append_iff.1 hfront with ⟨t', ht, hs⟩ | ⟨skipped, -, hu⟩
  · exact .inr ⟨t', ⟨front, ht.symm⟩, hs⟩
  · exact .inl ⟨skipped, hu.symm⟩

/-- What is left of a text cut at a byte: an end of the text, or the rest of a character and an end of the text. -/
theorem suffix_encode : ∀ {text : List Char}, bytes <:+ encode text →
    (∃ text', text' <:+ text ∧ bytes = encode text') ∨
      ∃ c text' tail, c :: text' <:+ text ∧ tail ≠ [] ∧ (∀ b ∈ tail, Continues b) ∧ bytes = tail ++ encode text'
  | [], h => .inl ⟨[], suffix_rfl, by simpa using h⟩
  | c :: text, h => by
    rcases suffix_append_cases h with h | ⟨tail, htail, rfl⟩
    · rcases suffix_encode h with ⟨text', h, hbytes⟩ | ⟨d, text', tail, h, hnil, hconts, hbytes⟩
      · exact .inl ⟨text', h.trans (suffix_cons _ _), hbytes⟩
      · exact .inr ⟨d, text', tail, h.trans (suffix_cons _ _), hnil, hconts, hbytes⟩
    · obtain ⟨lead, conts, hc, -, hconts⟩ := encodeChar_cons c
      rw [hc, suffix_cons_iff, ← hc] at htail
      rcases htail with rfl | htail
      · exact .inl ⟨c :: text, suffix_rfl, rfl⟩
      · by_cases hnil : tail = []
        · exact .inl ⟨text, suffix_cons _ _, by rw [hnil]; rfl⟩
        · exact .inr ⟨c, text, tail, suffix_rfl, hnil, fun b hb => hconts b (htail.subset hb), rfl⟩

theorem encode_suffix {text' : List Char} (h : text' <:+ text) : encode text' <:+ encode text := by
  obtain ⟨front, rfl⟩ := h
  exact ⟨encode front, by simp [encode]⟩

end Haybarn.Lib.Utf8
