/-
`Glob`, the matcher of file patterns: one loop over the string and the pattern with gotos for brackets, and a call of
itself on the rest of the pattern behind an asterisk. Next to it stands the pattern language as a relation between a
pattern and the strings it matches, in which only the reading of a question mark is left open.
-/
import Haybarn.Lib.Buffer

namespace Haybarn.Text

open Lib Lib.Outcome

/-! ## The function -/

/-- `a <= b` on values of type `char`, which a platform takes as signed or not. -/
def charLe (charIsSigned : Bool) (a b : UInt8) : Bool := if charIsSigned then a.toInt8 ≤ b.toInt8 else a ≤ b

/-- `'*'`. -/
def asterisk : UInt8 := 0x2A

/-- `'?'`. -/
def questionMark : UInt8 := 0x3F

/-- `'['`. -/
def openBracket : UInt8 := 0x5B

/-- `']'`. -/
def closeBracket : UInt8 := 0x5D

/-- `'!'`. -/
def exclamationMark : UInt8 := 0x21

/-- `'-'`. -/
def dash : UInt8 := 0x2D

/-- `'\\'`. -/
def backslash : UInt8 := 0x5C

/-- `while (pidx < plen && pattern[pidx] == '*') pidx++;`. -/
def skipAsterisks (pattern : List UInt8) : Nat → Nat → Outcome Nat
  | 0, _ => .hang
  | turns + 1, pidx =>
    if pidx < pattern.length then do
      let p ← read pattern pidx
      if p = asterisk then skipAsterisks pattern turns (pidx + 1) else .done pidx
    else .done pidx

/-- The loop over the inside of a bracket: it ends with `pidx`, `found_match` and `found_closing_bracket`. -/
def bracketLoop (charIsSigned : Bool) (pattern : List UInt8) (s : UInt8) (invert : Bool) (startPos : Nat) :
    Nat → Nat → Bool → Outcome (Nat × Bool × Bool)
  | 0, _, _ => .hang
  | turns + 1, pidx, foundMatch =>
    if pidx < pattern.length then do
      let p ← read pattern pidx
      if p = closeBracket ∧ pidx > startPos then .done (pidx + 1, foundMatch, true)
      else if pidx + 1 = pattern.length then .done (pidx, foundMatch, false)
      else do
        let next ← read pattern (pidx + 1)
        if next = dash then
          if pidx + 2 = pattern.length then .done (pidx, foundMatch, false)
          else do
            let nextChar ← read pattern (pidx + 2)
            let found := charLe charIsSigned p s && charLe charIsSigned s nextChar
            bracketLoop charIsSigned pattern s invert startPos turns (pidx + 3)
              (if foundMatch = invert && found then !invert else foundMatch)
        else
          bracketLoop charIsSigned pattern s invert startPos turns (pidx + 1)
            (if foundMatch = invert && p = s then !invert else foundMatch)
    else .done (pidx, foundMatch, false)

/-- `parse_bracket`: the position behind the bracket when the byte is in it, nothing when `Glob` returns false. -/
def parseBracket (charIsSigned : Bool) (pattern : List UInt8) (s : UInt8) (pidx : Nat) : Outcome (Option Nat) :=
  if pidx = pattern.length then .done none
  else do
    let p ← read pattern pidx
    let invert : Bool := p = exclamationMark
    let startPos := if invert then pidx + 1 else pidx
    let (pidx, foundMatch, foundClosingBracket) ←
      bracketLoop charIsSigned pattern s invert startPos (pattern.length + 1) startPos invert
    if !foundClosingBracket then .done none
    else if !foundMatch then .done none
    else .done (some pidx)

/-- `main_loop`, and the calls of `Glob` in it, which leave `allow_question_mark` to its default. -/
def globFrom (charIsSigned : Bool) : Nat → Bool → List UInt8 → List UInt8 → Nat → Nat → Outcome Bool
  | 0, _, _, _, _, _ => .hang
  | turns + 1, allowQuestionMark, string, pattern, sidx, pidx =>
    if sidx < string.length ∧ pidx < pattern.length then do
      let s ← read string sidx
      let p ← read pattern pidx
      if p = asterisk then do
        let pidx ← skipAsterisks pattern (pattern.length + 1) (pidx + 1)
        if pidx = pattern.length then .done true
        else (List.range' sidx (string.length - sidx)).anyM fun sidx =>
          globFrom charIsSigned turns true (string.drop sidx) (pattern.drop pidx) 0 0
      else if p = questionMark ∧ allowQuestionMark then
        globFrom charIsSigned turns allowQuestionMark string pattern (sidx + 1) (pidx + 1)
      -- without the flag a question mark falls through to the bracket
      else if p = questionMark ∨ p = openBracket then do
        match ← parseBracket charIsSigned pattern s (pidx + 1) with
        | none => .done false
        | some pidx => globFrom charIsSigned turns allowQuestionMark string pattern (sidx + 1) pidx
      else if p = backslash then
        if pidx + 1 = pattern.length then .done false
        else do
          let p ← read pattern (pidx + 1)
          if s ≠ p then .done false
          else globFrom charIsSigned turns allowQuestionMark string pattern (sidx + 1) (pidx + 2)
      else if s ≠ p then .done false
      else globFrom charIsSigned turns allowQuestionMark string pattern (sidx + 1) (pidx + 1)
    else do
      let pidx ← skipAsterisks pattern (pattern.length + 1) pidx
      .done (pidx = pattern.length ∧ sidx = string.length)

def glob (charIsSigned : Bool) (string pattern : List UInt8) (allowQuestionMark : Bool) : Outcome Bool :=
  globFrom charIsSigned (pattern.length + 1) allowQuestionMark string pattern 0 0

/-! ## The pattern language -/

/-- What stands in a bracket. -/
inductive Item where
  | byte (c : UInt8)
  | range (low high : UInt8)

/-- The byte is the one listed, or in the range. -/
def Item.Has (charIsSigned : Bool) (c : UInt8) : Item → Prop
  | byte c' => c' = c
  | range low high => charLe charIsSigned low c = true ∧ charLe charIsSigned c high = true

/-- The inside of a bracket, up to the closing one, and the pattern behind it. The first byte is never the closing
bracket. -/
inductive Items : Bool → List UInt8 → List Item → List UInt8 → Prop
  | close {rest : List UInt8} : Items false (closeBracket :: rest) [] rest
  | range {first : Bool} {low high : UInt8} {inside rest : List UInt8} {items : List Item}
      (literal : first = true ∨ low ≠ closeBracket) (behind : Items false inside items rest) :
      Items first (low :: dash :: high :: inside) (.range low high :: items) rest
  | byte {first : Bool} {c : UInt8} {inside rest : List UInt8} {items : List Item}
      (literal : first = true ∨ c ≠ closeBracket) (single : inside.head? ≠ some dash)
      (behind : Items false inside items rest) : Items first (c :: inside) (.byte c :: items) rest

/-- The pattern behind an opening bracket is a bracket that has the byte, and a rest. -/
inductive InBracket (charIsSigned : Bool) (c : UInt8) : List UInt8 → List UInt8 → Prop
  | listed {inside rest : List UInt8} {items : List Item} (plain : inside.head? ≠ some exclamationMark)
      (bracket : Items true inside items rest) (has : ∃ item ∈ items, item.Has charIsSigned c) :
      InBracket charIsSigned c inside rest
  | unlisted {inside rest : List UInt8} {items : List Item} (bracket : Items true inside items rest)
      (hasNot : ∀ item ∈ items, ¬ item.Has charIsSigned c) : InBracket charIsSigned c (exclamationMark :: inside) rest

/-- Readings of a question mark. -/
inductive Question where
  /-- It matches any byte. -/
  | anyByte
  /-- It matches itself. -/
  | itself
  /-- It opens a bracket. -/
  | bracket
  deriving DecidableEq

/-- The strings that a pattern matches, when a question mark is read as `now` says before the first asterisk and as
`behind` says behind it. -/
inductive Matches (charIsSigned : Bool) (behind : Question) : Question → List UInt8 → List UInt8 → Prop
  | nil {now : Question} : Matches charIsSigned behind now [] []
  | asterisk {now : Question} {pattern skipped string : List UInt8} (rest : Matches charIsSigned behind behind pattern string) :
      Matches charIsSigned behind now (asterisk :: pattern) (skipped ++ string)
  | anyByte {c : UInt8} {pattern string : List UInt8} (rest : Matches charIsSigned behind .anyByte pattern string) :
      Matches charIsSigned behind .anyByte (questionMark :: pattern) (c :: string)
  | itself {pattern string : List UInt8} (rest : Matches charIsSigned behind .itself pattern string) :
      Matches charIsSigned behind .itself (questionMark :: pattern) (questionMark :: string)
  | bracket {now : Question} {opening c : UInt8} {inside pattern string : List UInt8}
      (opens : opening = openBracket ∨ opening = questionMark ∧ now = .bracket)
      (bracket : InBracket charIsSigned c inside pattern) (rest : Matches charIsSigned behind now pattern string) :
      Matches charIsSigned behind now (opening :: inside) (c :: string)
  | escaped {now : Question} {c : UInt8} {pattern string : List UInt8} (rest : Matches charIsSigned behind now pattern string) :
      Matches charIsSigned behind now (backslash :: c :: pattern) (c :: string)
  | literal {now : Question} {c : UInt8} {pattern string : List UInt8}
      (plain : c ∉ [Text.asterisk, questionMark, openBracket, backslash])
      (rest : Matches charIsSigned behind now pattern string) : Matches charIsSigned behind now (c :: pattern) (c :: string)

end Haybarn.Text
