/-
`Glob` ends on every string and pattern, reads neither buffer behind its end, and decides whether the pattern matches with
question marks read as they are in the code: any byte with the flag, and without it the opening of a bracket before the
first asterisk and any byte behind it, since the call behind an asterisk leaves the flag to its default.
-/
import Haybarn.Text.Glob

namespace Haybarn.Text

open Lib Lib.Outcome List

variable {charIsSigned : Bool} {behind now : Question} {pattern pattern' string rest inside : List UInt8} {c s : UInt8}

/-! ## The language, by the first byte of the pattern -/

theorem matches_nil : Matches charIsSigned behind now [] string ↔ string = [] := by
  constructor
  · rintro ⟨⟩
    rfl
  · rintro rfl
    exact .nil

/-- The pattern matches an end of the string. -/
def MatchesEnd (charIsSigned : Bool) (behind : Question) (pattern string : List UInt8) : Prop :=
  ∃ rest, rest <:+ string ∧ Matches charIsSigned behind behind pattern rest

theorem matches_asterisk :
    Matches charIsSigned behind now (asterisk :: pattern) string ↔ MatchesEnd charIsSigned behind pattern string := by
  constructor
  · intro h
    generalize hp : asterisk :: pattern = p at h
    cases h with
    | nil => cases hp
    | @asterisk _ _ skipped rest h => cases hp; exact ⟨rest, ⟨skipped, rfl⟩, h⟩
    | anyByte _ => exact absurd (cons.inj hp).1 (by decide)
    | itself _ => exact absurd (cons.inj hp).1 (by decide)
    | bracket opens _ _ =>
      obtain ⟨rfl, -⟩ := cons.inj hp
      rcases opens with h | ⟨h, -⟩ <;> exact absurd h (by decide)
    | escaped _ => exact absurd (cons.inj hp).1 (by decide)
    | literal plain _ =>
      obtain ⟨rfl, -⟩ := cons.inj hp
      exact absurd plain (by decide)
  · rintro ⟨rest, ⟨skipped, rfl⟩, h⟩
    exact .asterisk h

theorem matchesEnd_asterisk :
    MatchesEnd charIsSigned behind (asterisk :: pattern) string ↔ MatchesEnd charIsSigned behind pattern string := by
  constructor
  · rintro ⟨rest, hrest, h⟩
    obtain ⟨rest', hrest', h'⟩ := matches_asterisk.1 h
    exact ⟨rest', hrest'.trans hrest, h'⟩
  · rintro ⟨rest, hrest, h⟩
    exact ⟨rest, hrest, matches_asterisk.2 ⟨rest, suffix_rfl, h⟩⟩

theorem matchesEnd_asterisks : ∀ {stars : List UInt8}, (∀ c ∈ stars, c = asterisk) →
    (MatchesEnd charIsSigned behind (stars ++ pattern) string ↔ MatchesEnd charIsSigned behind pattern string)
  | [], _ => Iff.rfl
  | c :: stars, h => by
    obtain rfl := h c (by simp)
    exact matchesEnd_asterisk.trans (matchesEnd_asterisks fun c hc => h c (by simp [hc]))

theorem matches_empty_iff : Matches charIsSigned behind now pattern [] ↔ ∀ c ∈ pattern, c = asterisk := by
  induction pattern generalizing now with
  | nil => simp [matches_nil]
  | cons p pattern ih =>
    constructor
    · intro h
      generalize hs : ([] : List UInt8) = string at h
      cases h with
      | @asterisk _ _ skipped rest h =>
        obtain ⟨rfl, rfl⟩ := append_eq_nil_iff.1 hs.symm
        simpa using ih.1 h
      | anyByte _ => cases hs
      | itself _ => cases hs
      | bracket _ _ _ => cases hs
      | escaped _ => cases hs
      | literal _ _ => cases hs
    · intro h
      obtain rfl := h p (by simp)
      exact matches_asterisk.2 ⟨[], suffix_rfl, ih.2 fun c hc => h c (by simp [hc])⟩

theorem matches_questionMark_anyByte :
    Matches charIsSigned behind .anyByte (questionMark :: pattern) (c :: string) ↔
      Matches charIsSigned behind .anyByte pattern string := by
  constructor
  · intro h
    generalize hp : questionMark :: pattern = p at h
    generalize hs : c :: string = s at h
    cases h with
    | nil => cases hp
    | asterisk _ => exact absurd (cons.inj hp).1 (by decide)
    | anyByte h => cases hp; cases hs; exact h
    | bracket opens _ _ =>
      obtain ⟨rfl, -⟩ := cons.inj hp
      rcases opens with h | ⟨-, h⟩
      · exact absurd h (by decide)
      · cases h
    | escaped _ => exact absurd (cons.inj hp).1 (by decide)
    | literal plain _ =>
      obtain ⟨rfl, -⟩ := cons.inj hp
      exact absurd plain (by decide)
  · exact .anyByte

theorem matches_bracket {opening : UInt8} (opens : opening = openBracket ∨ opening = questionMark ∧ now = .bracket) :
    Matches charIsSigned behind now (opening :: inside) (c :: string) ↔
      ∃ pattern, InBracket charIsSigned c inside pattern ∧ Matches charIsSigned behind now pattern string := by
  constructor
  · intro h
    generalize hp : opening :: inside = p at h
    generalize hs : c :: string = s at h
    cases h with
    | nil => cases hp
    | asterisk _ =>
      obtain ⟨rfl, -⟩ := cons.inj hp
      rcases opens with h | ⟨h, -⟩ <;> exact absurd h (by decide)
    | anyByte _ =>
      obtain ⟨rfl, -⟩ := cons.inj hp
      rcases opens with h | ⟨-, h⟩
      · exact absurd h (by decide)
      · cases h
    | itself _ =>
      obtain ⟨rfl, -⟩ := cons.inj hp
      rcases opens with h | ⟨-, h⟩
      · exact absurd h (by decide)
      · cases h
    | bracket _ hbracket h => cases hp; cases hs; exact ⟨_, hbracket, h⟩
    | escaped _ =>
      obtain ⟨rfl, -⟩ := cons.inj hp
      rcases opens with h | ⟨h, -⟩ <;> exact absurd h (by decide)
    | literal plain _ =>
      obtain ⟨rfl, -⟩ := cons.inj hp
      rcases opens with rfl | ⟨rfl, -⟩ <;> exact absurd plain (by decide)
  · rintro ⟨pattern, hbracket, h⟩
    exact .bracket opens hbracket h

theorem matches_escaped :
    Matches charIsSigned behind now (backslash :: pattern) (c :: string) ↔
      ∃ pattern', pattern = c :: pattern' ∧ Matches charIsSigned behind now pattern' string := by
  constructor
  · intro h
    generalize hp : backslash :: pattern = p at h
    generalize hs : c :: string = s at h
    cases h with
    | nil => cases hp
    | asterisk _ => exact absurd (cons.inj hp).1 (by decide)
    | anyByte _ => exact absurd (cons.inj hp).1 (by decide)
    | itself _ => exact absurd (cons.inj hp).1 (by decide)
    | bracket opens _ _ =>
      obtain ⟨rfl, -⟩ := cons.inj hp
      rcases opens with h | ⟨h, -⟩ <;> exact absurd h (by decide)
    | escaped h => cases hp; cases hs; exact ⟨_, rfl, h⟩
    | literal plain _ =>
      obtain ⟨rfl, -⟩ := cons.inj hp
      exact absurd plain (by decide)
  · rintro ⟨pattern', rfl, h⟩
    exact .escaped h

theorem matches_literal {p : UInt8} (plain : p ∉ [asterisk, questionMark, openBracket, backslash]) :
    Matches charIsSigned behind now (p :: pattern) (c :: string) ↔ c = p ∧ Matches charIsSigned behind now pattern string := by
  constructor
  · intro h
    generalize hp : p :: pattern = p' at h
    generalize hs : c :: string = s at h
    cases h with
    | nil => cases hp
    | asterisk _ =>
      obtain ⟨rfl, -⟩ := cons.inj hp
      exact absurd plain (by decide)
    | anyByte _ =>
      obtain ⟨rfl, -⟩ := cons.inj hp
      exact absurd plain (by decide)
    | itself _ =>
      obtain ⟨rfl, -⟩ := cons.inj hp
      exact absurd plain (by decide)
    | bracket opens _ _ =>
      obtain ⟨rfl, -⟩ := cons.inj hp
      rcases opens with rfl | ⟨rfl, -⟩ <;> exact absurd plain (by decide)
    | escaped _ =>
      obtain ⟨rfl, -⟩ := cons.inj hp
      exact absurd plain (by decide)
    | literal _ h => cases hp; cases hs; exact ⟨rfl, h⟩
  · rintro ⟨rfl, h⟩
    exact .literal plain h

/-! ## Brackets -/

variable {items : List Item} {first : Bool}

theorem items_close :
    Items false (closeBracket :: inside) items rest ↔ items = [] ∧ rest = inside := by
  constructor
  · intro h
    generalize hp : closeBracket :: inside = p at h
    generalize hfirst : false = first at h
    cases h with
    | close => exact ⟨rfl, (cons.inj hp).2.symm⟩
    | range literal _ =>
      obtain ⟨rfl, -⟩ := cons.inj hp
      exact absurd rfl (literal.resolve_left (by simp [← hfirst]))
    | byte literal _ _ =>
      obtain ⟨rfl, -⟩ := cons.inj hp
      exact absurd rfl (literal.resolve_left (by simp [← hfirst]))
  · rintro ⟨rfl, rfl⟩
    exact .close

theorem items_range {low high : UInt8} (literal : first = true ∨ low ≠ closeBracket) :
    Items first (low :: dash :: high :: inside) items rest ↔
      ∃ items', items = .range low high :: items' ∧ Items false inside items' rest := by
  constructor
  · intro h
    cases h with
    | close => exact absurd rfl (literal.resolve_left (by decide))
    | range _ h => exact ⟨_, rfl, h⟩
    | byte _ single _ => exact absurd rfl single
  · rintro ⟨items', rfl, h⟩
    exact .range literal h

theorem items_byte (literal : first = true ∨ c ≠ closeBracket)
    (single : inside.head? ≠ some dash) :
    Items first (c :: inside) items rest ↔ ∃ items', items = .byte c :: items' ∧ Items false inside items' rest := by
  constructor
  · intro h
    cases h with
    | close => exact absurd rfl (literal.resolve_left (by decide))
    | range _ _ => exact absurd rfl single
    | byte _ _ h => exact ⟨_, rfl, h⟩
  · rintro ⟨items', rfl, h⟩
    exact .byte literal single h

theorem not_items_nil : ¬ Items first [] items rest := by
  rintro ⟨⟩

theorem not_items_single (literal : first = true ∨ c ≠ closeBracket) :
    ¬ Items first [c] items rest := by
  rw [items_byte literal (by simp)]
  rintro ⟨_, -, h⟩
  exact not_items_nil h

theorem not_items_dash (literal : first = true ∨ c ≠ closeBracket) :
    ¬ Items first [c, dash] items rest := by
  intro h
  cases h with
  | close => exact absurd rfl (literal.resolve_left (by decide))
  | byte _ single _ => exact absurd rfl single

theorem Items.unique {items' : List Item} {rest' : List UInt8} (h : Items first inside items rest) :
    Items first inside items' rest' → items' = items ∧ rest' = rest := by
  induction h generalizing items' rest' with
  | close => exact items_close.1
  | range literal _ ih =>
    rw [items_range literal]
    rintro ⟨items', rfl, h⟩
    obtain ⟨rfl, rfl⟩ := ih h
    exact ⟨rfl, rfl⟩
  | byte literal single _ ih =>
    rw [items_byte literal single]
    rintro ⟨items', rfl, h⟩
    obtain ⟨rfl, rfl⟩ := ih h
    exact ⟨rfl, rfl⟩

/-- What the loop over the inside of a bracket, entered at `pidx`, ends with. -/
structure LoopResult (charIsSigned : Bool) (pattern : List UInt8) (s : UInt8) (invert first : Bool) (pidx : Nat)
    (foundMatch : Bool) (result : Nat × Bool × Bool) : Prop where
  unterminated : result.2.2 = false → ∀ items rest, ¬ Items first (pattern.drop pidx) items rest
  terminated : result.2.2 = true → pidx < result.1 ∧ result.1 ≤ pattern.length ∧
    ∃ items, Items first (pattern.drop pidx) items (pattern.drop result.1) ∧
      (result.2.1 ≠ invert ↔ foundMatch ≠ invert ∨ ∃ item ∈ items, item.Has charIsSigned s)

theorem LoopResult.cons {invert foundMatch found : Bool} {pidx pidx' : Nat} {result : Nat × Bool × Bool} {item : Item}
    (hread : ∀ items rest, Items first (pattern.drop pidx) items rest ↔
      ∃ items', items = item :: items' ∧ Items false (pattern.drop pidx') items' rest)
    (hlt : pidx < pidx') (hfound : found = true ↔ item.Has charIsSigned s)
    (h : LoopResult charIsSigned pattern s invert false pidx'
      (if foundMatch = invert && found then !invert else foundMatch) result) :
    LoopResult charIsSigned pattern s invert first pidx foundMatch result where
  unterminated hclosed items rest := by
    rw [hread]
    rintro ⟨items', -, h'⟩
    exact h.unterminated hclosed items' rest h'
  terminated hclosed := by
    obtain ⟨hlt', hle, items, hitems, hany⟩ := h.terminated hclosed
    refine ⟨by omega, hle, item :: items, (hread _ _).2 ⟨items, rfl, hitems⟩, hany.trans ?_⟩
    rw [exists_mem_cons_iff, ← hfound, ← or_assoc]
    refine or_congr_left ?_
    cases foundMatch <;> cases invert <;> cases found <;> decide

theorem bracketLoop_spec {invert : Bool} {startPos : Nat} :
    ∀ {turns pidx : Nat} {foundMatch : Bool}, pattern.length < turns + pidx → startPos ≤ pidx → pidx ≤ pattern.length →
      (bracketLoop charIsSigned pattern s invert startPos turns pidx foundMatch).Returns
        (LoopResult charIsSigned pattern s invert (decide (pidx = startPos)) pidx foundMatch)
  | 0, pidx, foundMatch, hturns, _, hle => absurd hturns (by omega)
  | turns + 1, pidx, foundMatch, hturns, hstart, _ => by
    unfold bracketLoop
    by_cases hlt : pidx < pattern.length
    · rw [if_pos hlt]
      obtain ⟨p, inside, hdrop⟩ := exists_drop hlt
      rw [read_of_drop hdrop, done_bind]
      by_cases hclose : p = closeBracket ∧ pidx > startPos
      · rw [if_pos hclose]
        obtain ⟨rfl, hgt⟩ := hclose
        refine returns_done ⟨by simp, fun _ => ⟨Nat.lt_succ_self _, hlt, [], ?_, by simp⟩⟩
        rw [hdrop, drop_succ_of_drop hdrop, decide_eq_false (by omega)]
        exact .close
      · rw [if_neg hclose]
        have literal : decide (pidx = startPos) = true ∨ p ≠ closeBracket := by
          by_cases hp : p = closeBracket
          · exact .inl (decide_eq_true (by have : ¬ pidx > startPos := fun h => hclose ⟨hp, h⟩; omega))
          · exact .inr hp
        have hnext := drop_succ_of_drop hdrop
        obtain _ | ⟨next, inside⟩ := inside
        · rw [if_pos (by have := congrArg length hdrop; simp at this; omega)]
          refine returns_done ⟨fun _ items rest => ?_, by simp⟩
          rw [hdrop]
          exact not_items_single literal
        · have hlt' := lt_of_drop hnext
          rw [if_neg (by omega), read_of_drop hnext, done_bind]
          have hnext' := drop_succ_of_drop hnext
          by_cases hdash : next = dash
          · subst hdash
            rw [if_pos rfl]
            obtain _ | ⟨high, inside⟩ := inside
            · rw [if_pos (by have := congrArg length hnext; simp at this; omega)]
              refine returns_done ⟨fun _ items rest => ?_, by simp⟩
              rw [hdrop]
              exact not_items_dash literal
            · have hlt'' := lt_of_drop hnext'
              rw [if_neg (by omega), read_of_drop hnext', done_bind]
              have hread : ∀ items rest, Items (decide (pidx = startPos)) (pattern.drop pidx) items rest ↔
                  ∃ items', items = .range p high :: items' ∧ Items false (pattern.drop (pidx + 3)) items' rest := by
                intro items rest
                rw [hdrop, items_range literal, drop_succ_of_drop hnext']
              refine (bracketLoop_spec (by omega) (by omega) (by omega)).mono fun result h => ?_
              rw [decide_eq_false (by omega)] at h
              exact LoopResult.cons hread (by omega) (by simp [Item.Has]) h
          · rw [if_neg hdash]
            have hread : ∀ items rest, Items (decide (pidx = startPos)) (pattern.drop pidx) items rest ↔
                ∃ items', items = .byte p :: items' ∧ Items false (pattern.drop (pidx + 1)) items' rest := by
              intro items rest
              rw [hdrop, items_byte literal (by simpa using hdash), hnext]
            refine (bracketLoop_spec (by omega) (by omega) (by omega)).mono fun result h => ?_
            rw [decide_eq_false (by omega)] at h
            exact LoopResult.cons hread (by omega) (by simp [Item.Has]) h
    · rw [if_neg hlt]
      refine returns_done ⟨fun _ items rest => ?_, by simp⟩
      rw [drop_eq_nil_iff.2 (by omega)]
      exact not_items_nil

/-- What `parse_bracket`, entered at `pidx`, ends with: the position behind the bracket that has the byte. -/
structure Parsed (charIsSigned : Bool) (pattern : List UInt8) (s : UInt8) (pidx : Nat) (result : Option Nat) : Prop where
  inBracket_iff : ∀ rest, InBracket charIsSigned s (pattern.drop pidx) rest ↔ ∃ pidx' ∈ result, rest = pattern.drop pidx'
  bounds : ∀ pidx' ∈ result, pidx < pidx' ∧ pidx' ≤ pattern.length

theorem not_inBracket_nil : ¬ InBracket charIsSigned s [] rest := by
  intro h
  cases h with
  | listed _ bracket _ => exact not_items_nil bracket

theorem inBracket_cons {p : UInt8} :
    InBracket charIsSigned s (p :: inside) rest ↔
      ∃ items, Items true (if p = exclamationMark then inside else p :: inside) items rest ∧
        ((∃ item ∈ items, item.Has charIsSigned s) ↔ p ≠ exclamationMark) := by
  constructor
  · intro h
    generalize hp : p :: inside = inside' at h
    cases h with
    | @listed _ _ items plain bracket has =>
      subst hp
      have hp : p ≠ exclamationMark := by simpa using plain
      exact ⟨items, by rwa [if_neg hp], by simp [hp, has]⟩
    | @unlisted _ _ items bracket hasNot =>
      obtain ⟨rfl, rfl⟩ := cons.inj hp
      exact ⟨items, by rwa [if_pos rfl], by simpa using hasNot⟩
  · rintro ⟨items, hitems, hhas⟩
    by_cases hp : p = exclamationMark
    · rw [if_pos hp] at hitems
      subst hp
      exact .unlisted hitems (by simpa using hhas)
    · rw [if_neg hp] at hitems
      exact .listed (by simpa using hp) hitems (by simpa [hp] using hhas)

theorem parseBracket_spec {pidx : Nat} (hle : pidx ≤ pattern.length) :
    (parseBracket charIsSigned pattern s pidx).Returns (Parsed charIsSigned pattern s pidx) := by
  unfold parseBracket
  by_cases hend : pidx = pattern.length
  · rw [if_pos hend]
    refine returns_done ⟨fun rest => ?_, by simp⟩
    rw [drop_eq_nil_iff.2 (by omega)]
    simpa using not_inBracket_nil
  · rw [if_neg hend]
    obtain ⟨p, inside, hdrop⟩ := exists_drop (show pidx < pattern.length by omega)
    rw [read_of_drop hdrop, done_bind]
    dsimp only
    -- the inside begins at `startPos`
    generalize hstart : (if decide (p = exclamationMark) = true then pidx + 1 else pidx) = startPos
    have hbounds : pidx ≤ startPos ∧ startPos ≤ pattern.length := by
      have := lt_of_drop hdrop
      split at hstart <;> omega
    have hinside : pattern.drop startPos = if p = exclamationMark then inside else p :: inside := by
      subst hstart
      by_cases hp : p = exclamationMark
      · simp [hp, ← drop_succ_of_drop hdrop]
      · simp [hp, hdrop]
    have hloop : (bracketLoop charIsSigned pattern s (decide (p = exclamationMark)) startPos (pattern.length + 1) startPos
        (decide (p = exclamationMark))).Returns (LoopResult charIsSigned pattern s (decide (p = exclamationMark))
          (decide (startPos = startPos)) startPos (decide (p = exclamationMark))) :=
      bracketLoop_spec (by omega) (Nat.le_refl _) hbounds.2
    refine hloop.bind ?_
    rintro ⟨pidx', foundMatch, closed⟩ h
    rw [decide_eq_true rfl] at h
    dsimp only
    cases closed with
    | false =>
      refine returns_done ⟨fun rest => ?_, by simp⟩
      rw [hdrop, inBracket_cons, ← hinside]
      constructor
      · rintro ⟨items, hitems, -⟩
        exact absurd hitems (h.unterminated rfl items rest)
      · rintro ⟨_, ⟨⟩, _⟩
    | true =>
      obtain ⟨hlt, hle', items, hitems, hany⟩ := h.terminated rfl
      dsimp only at hlt hle' hitems hany
      have hfound : foundMatch = true ↔ ((∃ item ∈ items, item.Has charIsSigned s) ↔ p ≠ exclamationMark) := by
        have hany : foundMatch ≠ decide (p = exclamationMark) ↔ ∃ item ∈ items, item.Has charIsSigned s := by
          simpa using hany
        rw [← hany]
        by_cases hp : p = exclamationMark <;> cases foundMatch <;> simp [hp]
      have hread : ∀ rest, InBracket charIsSigned s (pattern.drop pidx) rest ↔
          foundMatch = true ∧ rest = pattern.drop pidx' := by
        intro rest
        rw [hdrop, inBracket_cons, ← hinside, hfound]
        constructor
        · rintro ⟨items', hitems', hhas⟩
          obtain ⟨rfl, rfl⟩ := hitems.unique hitems'
          exact ⟨hhas, rfl⟩
        · rintro ⟨hhas, rfl⟩
          exact ⟨items, hitems, hhas⟩
      cases foundMatch with
      | false => exact returns_done ⟨fun rest => by simp [hread], by simp⟩
      | true =>
        refine returns_done ⟨fun rest => by simp [hread], ?_⟩
        rintro _ ⟨⟩
        exact ⟨by omega, hle'⟩

/-! ## Asterisks -/

/-- Where skipping the asterisks from `pidx` on ends. -/
structure Skipped (pattern : List UInt8) (pidx pidx' : Nat) : Prop where
  bounds : pidx ≤ pidx' ∧ pidx' ≤ pattern.length
  asterisks : ∃ stars, (∀ c ∈ stars, c = asterisk) ∧ pattern.drop pidx = stars ++ pattern.drop pidx'
  stop : (pattern.drop pidx').head? ≠ some asterisk

theorem skipAsterisks_spec : ∀ {turns pidx : Nat}, pattern.length < turns + pidx → pidx ≤ pattern.length →
    (skipAsterisks pattern turns pidx).Returns (Skipped pattern pidx)
  | 0, pidx, hturns, hle => absurd hturns (by omega)
  | turns + 1, pidx, hturns, hle => by
    unfold skipAsterisks
    by_cases hlt : pidx < pattern.length
    · rw [if_pos hlt]
      obtain ⟨p, rest, hdrop⟩ := exists_drop hlt
      rw [read_of_drop hdrop, done_bind]
      by_cases hp : p = asterisk
      · rw [if_pos hp]
        subst hp
        refine (skipAsterisks_spec (by omega) hlt).mono fun pidx' h => ?_
        obtain ⟨stars, hstars, heq⟩ := h.asterisks
        refine ⟨⟨by have := h.bounds; omega, h.bounds.2⟩, ⟨asterisk :: stars, by simpa using hstars, ?_⟩, h.stop⟩
        rw [hdrop, cons_append, ← heq, drop_succ_of_drop hdrop]
      · rw [if_neg hp]
        exact returns_done ⟨⟨Nat.le_refl _, hle⟩, ⟨[], by simp, rfl⟩, by simpa [hdrop] using hp⟩
    · rw [if_neg hlt]
      have hend : pattern.drop pidx = [] := drop_eq_nil_iff.2 (by omega)
      exact returns_done ⟨⟨Nat.le_refl _, hle⟩, ⟨[], by simp, rfl⟩, by simp [hend]⟩

/-! ## The matcher -/

/-- The reading of a question mark that the code goes by. -/
def Question.inCode (allowQuestionMark : Bool) : Question := if allowQuestionMark then .anyByte else .bracket

theorem matchesEnd_iff_exists {sidx : Nat} (hne : pattern ≠ []) (hhead : pattern.head? ≠ some asterisk) :
    MatchesEnd charIsSigned behind pattern (string.drop sidx) ↔
      ∃ i ∈ range' sidx (string.length - sidx), Matches charIsSigned behind behind pattern (string.drop i) := by
  refine exists_suffix_iff_exists_drop fun h => ?_
  obtain _ | ⟨p, pattern⟩ := pattern
  · exact hne rfl
  · exact hhead (by simpa using matches_empty_iff.1 h p (by simp))

theorem globFrom_spec : ∀ {turns : Nat} {allowQuestionMark : Bool} {string pattern : List UInt8} {sidx pidx : Nat},
    pattern.length < turns + pidx → sidx ≤ string.length → pidx ≤ pattern.length →
      (globFrom charIsSigned turns allowQuestionMark string pattern sidx pidx).Decides
        (Matches charIsSigned .anyByte (.inCode allowQuestionMark) (pattern.drop pidx) (string.drop sidx))
  | 0, allowQuestionMark, string, pattern, sidx, pidx, hturns, _, hpidx => absurd hturns (by omega)
  | turns + 1, allowQuestionMark, string, pattern, sidx, pidx, hturns, hsidx, hpidx => by
    unfold globFrom
    by_cases hlt : sidx < string.length ∧ pidx < pattern.length
    · rw [if_pos hlt]
      obtain ⟨s, string', hs⟩ := exists_drop hlt.1
      obtain ⟨p, pattern', hp⟩ := exists_drop hlt.2
      have hs' := drop_succ_of_drop hs
      have hp' := drop_succ_of_drop hp
      rw [read_of_drop hs, done_bind, read_of_drop hp, done_bind]
      by_cases hasterisk : p = asterisk
      · rw [if_pos hasterisk]
        subst hasterisk
        have hskipped : (skipAsterisks pattern (pattern.length + 1) (pidx + 1)).Returns (Skipped pattern (pidx + 1)) :=
          skipAsterisks_spec (by omega) hlt.2
        obtain ⟨pidx', heq, hskip⟩ := hskipped
        obtain ⟨stars, hstars, hdrop⟩ := hskip.asterisks
        have hiff : Matches charIsSigned .anyByte (.inCode allowQuestionMark) (pattern.drop pidx) (string.drop sidx) ↔
            MatchesEnd charIsSigned .anyByte (pattern.drop pidx') (string.drop sidx) := by
          rw [hp, matches_asterisk, ← hp', hdrop, matchesEnd_asterisks hstars]
        rw [heq, done_bind]
        by_cases hend : pidx' = pattern.length
        · rw [if_pos hend]
          refine decides_true (hiff.2 ⟨[], nil_suffix, ?_⟩)
          rw [hend, drop_length]
          exact .nil
        · rw [if_neg hend]
          have hbounds := hskip.bounds
          have hne : pattern.drop pidx' ≠ [] := fun h => hend (by have := drop_eq_nil_iff.1 h; omega)
          refine (decides_anyM (P := fun i =>
            Matches charIsSigned .anyByte .anyByte (pattern.drop pidx') (string.drop i)) fun i _ => ?_).congr
              ((matchesEnd_iff_exists hne hskip.stop).symm.trans hiff.symm)
          have hrec : (globFrom charIsSigned turns true (string.drop i) (pattern.drop pidx') 0 0).Decides _ :=
            globFrom_spec (by rw [length_drop]; omega) (Nat.zero_le _) (Nat.zero_le _)
          exact hrec
      · rw [if_neg hasterisk]
        by_cases hquestion : p = questionMark ∧ allowQuestionMark = true
        · rw [if_pos hquestion]
          obtain ⟨rfl, rfl⟩ := hquestion
          refine (globFrom_spec (by omega) hlt.1 hlt.2).congr ?_
          rw [hs, hp, hs', hp', Question.inCode, if_pos rfl, matches_questionMark_anyByte]
        · rw [if_neg hquestion]
          by_cases hopens : p = questionMark ∨ p = openBracket
          · rw [if_pos hopens]
            have opens : p = openBracket ∨ p = questionMark ∧ Question.inCode allowQuestionMark = .bracket := by
              rcases hopens with h | h
              · exact .inr ⟨h, if_neg fun h' => hquestion ⟨h, h'⟩⟩
              · exact .inl h
            have hresult : (parseBracket charIsSigned pattern s (pidx + 1)).Returns
                (Parsed charIsSigned pattern s (pidx + 1)) := parseBracket_spec hlt.2
            obtain ⟨result, heq, hparsed⟩ := hresult
            rw [heq, done_bind, hs, hp, matches_bracket opens, ← hp', ← hs']
            cases result with
            | none =>
              refine decides_false ?_
              rintro ⟨rest, hbracket, -⟩
              obtain ⟨_, ⟨⟩, _⟩ := (hparsed.inBracket_iff rest).1 hbracket
            | some pidx' =>
              have hbounds := hparsed.bounds pidx' rfl
              refine (globFrom_spec (by omega) hlt.1 hbounds.2).congr ?_
              constructor
              · intro h
                exact ⟨_, (hparsed.inBracket_iff _).2 ⟨pidx', rfl, rfl⟩, h⟩
              · rintro ⟨rest, hbracket, h⟩
                obtain ⟨_, ⟨⟩, rfl⟩ := (hparsed.inBracket_iff rest).1 hbracket
                exact h
          · rw [if_neg hopens]
            rw [not_or] at hopens
            by_cases hescape : p = backslash
            · rw [if_pos hescape]
              subst hescape
              rw [hs, hp, matches_escaped]
              by_cases hend : pidx + 1 = pattern.length
              · rw [if_pos hend]
                refine decides_false ?_
                rintro ⟨rest, rfl, -⟩
                have := congrArg length hp
                simp at this
                omega
              · rw [if_neg hend]
                obtain ⟨p, pattern'', hp''⟩ := exists_drop (show pidx + 1 < pattern.length by omega)
                obtain rfl : pattern' = p :: pattern'' := hp'.symm.trans hp''
                rw [read_of_drop hp'', done_bind]
                by_cases hsame : s = p
                · rw [if_neg (not_not.2 hsame)]
                  refine (globFrom_spec (by omega) hlt.1 (by omega)).congr ?_
                  subst hsame
                  rw [hs', drop_succ_of_drop hp'']
                  simp
                · rw [if_pos hsame]
                  refine decides_false ?_
                  rintro ⟨rest, heq, -⟩
                  exact hsame (cons.inj heq).1.symm
            · rw [if_neg hescape, hs, hp,
                matches_literal (by simp [hasterisk, hopens.1, hopens.2, hescape])]
              by_cases hsame : s = p
              · rw [if_neg (not_not.2 hsame)]
                refine (globFrom_spec (by omega) hlt.1 hlt.2).congr ?_
                rw [hs', hp']
                simp [hsame]
              · rw [if_pos hsame]
                exact decides_false fun h => hsame h.1
    · rw [if_neg hlt]
      have hskipped : (skipAsterisks pattern (pattern.length + 1) pidx).Returns (Skipped pattern pidx) :=
        skipAsterisks_spec (by omega) hpidx
      obtain ⟨pidx', heq, hskip⟩ := hskipped
      obtain ⟨stars, hstars, hdrop⟩ := hskip.asterisks
      rw [heq, done_bind]
      refine decides_done ?_
      rw [decide_eq_true_iff]
      have hbounds := hskip.bounds
      by_cases hsend : sidx = string.length
      · rw [hsend, drop_length, matches_empty_iff, hdrop]
        simp only [and_true]
        constructor
        · rintro rfl
          simpa using hstars
        · intro h
          by_contra hne
          obtain ⟨p, rest, hrest⟩ := exists_drop (show pidx' < pattern.length by omega)
          refine hskip.stop ?_
          rw [hrest] at h ⊢
          simpa using h p (by simp)
      · obtain rfl : pidx = pattern.length := by omega
        rw [drop_length, matches_nil, drop_eq_nil_iff]
        constructor
        · intro h
          exact absurd h.2 hsend
        · intro h
          omega

theorem glob_decides (string pattern : List UInt8) (allowQuestionMark : Bool) :
    (glob charIsSigned string pattern allowQuestionMark).Decides
      (Matches charIsSigned .anyByte (.inCode allowQuestionMark) pattern string) :=
  globFrom_spec (by omega) (Nat.zero_le _) (Nat.zero_le _)

/-! ## Question marks without the flag -/

/-- The reading of a question mark that the flag stands for. -/
def Question.ofFlag (allowQuestionMark : Bool) : Question := if allowQuestionMark then .anyByte else .itself

/-- `Glob` ends with no fault, and its value is whether the pattern matches. -/
def GlobCorrect (charIsSigned : Bool) (string pattern : List UInt8) (allowQuestionMark : Bool) : Prop :=
  (glob charIsSigned string pattern allowQuestionMark).Decides
    (Matches charIsSigned (.ofFlag allowQuestionMark) (.ofFlag allowQuestionMark) pattern string)

/-- The pattern in front of a question mark matches a beginning of the string, with a byte behind it: before an asterisk
one that is a question mark itself or that is in the bracket which the question mark would open, and behind an asterisk
any byte. -/
inductive MeetsQuestion (charIsSigned : Bool) : Bool → List UInt8 → List UInt8 → Prop
  | itself {pattern string : List UInt8} :
    MeetsQuestion charIsSigned false (questionMark :: pattern) (questionMark :: string)
  | bracket {c : UInt8} {inside rest string : List UInt8} (h : InBracket charIsSigned c inside rest) :
    MeetsQuestion charIsSigned false (questionMark :: inside) (c :: string)
  | anyByte {c : UInt8} {pattern string : List UInt8} :
    MeetsQuestion charIsSigned true (questionMark :: pattern) (c :: string)
  | asterisk {behind : Bool} {pattern skipped string : List UInt8} (h : MeetsQuestion charIsSigned true pattern string) :
    MeetsQuestion charIsSigned behind (Text.asterisk :: pattern) (skipped ++ string)
  | behindBracket {behind : Bool} {c : UInt8} {inside pattern string : List UInt8}
    (bracket : InBracket charIsSigned c inside pattern) (h : MeetsQuestion charIsSigned behind pattern string) :
    MeetsQuestion charIsSigned behind (openBracket :: inside) (c :: string)
  | behindEscaped {behind : Bool} {c : UInt8} {pattern string : List UInt8}
    (h : MeetsQuestion charIsSigned behind pattern string) :
    MeetsQuestion charIsSigned behind (backslash :: c :: pattern) (c :: string)
  | behindLiteral {behind : Bool} {c : UInt8} {pattern string : List UInt8}
    (plain : c ∉ [Text.asterisk, questionMark, openBracket, backslash])
    (h : MeetsQuestion charIsSigned behind pattern string) : MeetsQuestion charIsSigned behind (c :: pattern) (c :: string)

/-- The reading in the code without the flag. -/
def Question.without (behind : Bool) : Question := if behind then .anyByte else .bracket

/-- Where no question mark is met, the pattern matches as it is read in the code whenever it matches with question marks
that stand for themselves. -/
theorem Matches.without {p : List UInt8} (h : Matches charIsSigned .itself now p string) (hnow : now = .itself)
    {behind : Bool} (hmeets : ¬ MeetsQuestion charIsSigned behind p string) :
    Matches charIsSigned .anyByte (.without behind) p string := by
  induction h generalizing behind with
  | nil => exact .nil
  | asterisk _ ih => exact .asterisk (ih rfl fun h => hmeets (.asterisk h))
  | anyByte _ _ => cases hnow
  | itself _ _ =>
    cases behind with
    | false => exact absurd .itself hmeets
    | true => exact absurd .anyByte hmeets
  | bracket opens bracket _ ih =>
    obtain rfl | ⟨rfl, h⟩ := opens
    · exact .bracket (.inl rfl) bracket (ih hnow fun h => hmeets (.behindBracket bracket h))
    · cases h.symm.trans hnow
  | escaped _ ih => exact .escaped (ih hnow fun h => hmeets (.behindEscaped h))
  | literal plain _ ih => exact .literal plain (ih hnow fun h => hmeets (.behindLiteral plain h))

theorem Matches.of_without {p : List UInt8} {behind : Bool} (h : Matches charIsSigned .anyByte now p string)
    (hnow : now = .without behind) (hmeets : ¬ MeetsQuestion charIsSigned behind p string) :
    Matches charIsSigned .itself .itself p string := by
  induction h generalizing behind with
  | nil => exact .nil
  | asterisk _ ih => exact .asterisk (@ih true rfl fun h => hmeets (.asterisk h))
  | anyByte _ _ =>
    cases behind with
    | false => cases hnow
    | true => exact absurd .anyByte hmeets
  | itself _ _ => cases behind <;> cases hnow
  | bracket opens bracket _ ih =>
    obtain rfl | ⟨rfl, h⟩ := opens
    · exact .bracket (.inl rfl) bracket (ih hnow fun h => hmeets (.behindBracket bracket h))
    · cases behind with
      | false => exact absurd (.bracket bracket) hmeets
      | true => cases h.symm.trans hnow
  | escaped _ ih => exact .escaped (ih hnow fun h => hmeets (.behindEscaped h))
  | literal plain _ ih => exact .literal plain (ih hnow fun h => hmeets (.behindLiteral plain h))

/-- `Glob` ends with no fault on every input. It is correct with the flag, and without it where no question mark is met. -/
theorem globCorrect_of_not_meets (charIsSigned : Bool) (string pattern : List UInt8) (allowQuestionMark : Bool) :
    (∃ b, glob charIsSigned string pattern allowQuestionMark = .done b) ∧
      (allowQuestionMark = true ∨ ¬ MeetsQuestion charIsSigned false pattern string →
        GlobCorrect charIsSigned string pattern allowQuestionMark) := by
  have hdecides := @glob_decides charIsSigned string pattern allowQuestionMark
  refine ⟨hdecides.imp fun b h => h.1, fun h => ?_⟩
  cases allowQuestionMark with
  | true => exact hdecides
  | false =>
    have hmeets := h.resolve_left Bool.false_ne_true
    exact hdecides.congr ⟨fun hm => hm.of_without rfl hmeets, fun hm => hm.without rfl hmeets⟩

/-- A string of which the first byte is not that in front of the question mark. -/
theorem globCorrect_of_not_meets_unmet : GlobCorrect true [0x62, questionMark] [0x61, questionMark] false := by
  refine (globCorrect_of_not_meets true [0x62, questionMark] [0x61, questionMark] false).2 (.inr fun h => ?_)
  generalize hp : [0x61, questionMark] = p at h
  generalize hs : [0x62, questionMark] = s at h
  cases h with
  | behindLiteral => exact absurd ((cons.inj hp).1.trans (cons.inj hs).1.symm) (by decide)
  | itself | bracket | asterisk | behindBracket | behindEscaped => exact absurd (cons.inj hp).1 (by decide)

/-- `?` does not match itself without the flag, and behind an asterisk it matches any byte. -/
theorem glob_question :
    Matches true .itself .itself [questionMark] [questionMark] ∧
      glob true [questionMark] [questionMark] false = .done false ∧
      ¬ GlobCorrect true [questionMark] [questionMark] false ∧
      glob true [0x61] [asterisk, questionMark] false = .done true ∧
      ¬ Matches true .itself .itself [asterisk, questionMark] [0x61] := by
  have hmatches : Matches true .itself .itself [questionMark] [questionMark] := .itself .nil
  have hglob : glob true [questionMark] [questionMark] false = .done false := by rfl
  refine ⟨hmatches, hglob, ?_, by rfl, ?_⟩
  · rintro ⟨b, hb, hiff⟩
    obtain rfl : b = false := by
      rw [hglob] at hb
      exact (Outcome.done.inj hb).symm
    exact absurd (hiff.2 hmatches) (by decide)
  · rw [matches_asterisk]
    rintro ⟨rest, hrest, h⟩
    generalize hp : [questionMark] = p at h
    cases h with
    | nil => cases hp
    | asterisk _ => exact absurd (List.cons.inj hp).1 (by decide)
    | itself _ =>
      have := hrest.subset List.mem_cons_self
      exact absurd this (by decide)
    | bracket opens _ _ =>
      obtain ⟨rfl, -⟩ := List.cons.inj hp
      rcases opens with h | ⟨-, h⟩
      · exact absurd h (by decide)
      · cases h
    | escaped _ => exact absurd (List.cons.inj hp).1 (by decide)
    | literal plain _ =>
      obtain ⟨rfl, -⟩ := List.cons.inj hp
      exact absurd plain (by decide)

end Haybarn.Text
