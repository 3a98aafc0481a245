/-
`LIKE`: the matcher that walks over the string and the pattern and calls itself behind a percentage sign, and the one that
cuts a constant pattern into segments and searches for them. Next to them stands the definition they are to meet, on
characters.

`TemplatedLikeOperator` ends on every string and pattern, reads neither behind its end, and answers as the pattern is read:
with wildcards over the bytes, where an underscore goes on to the next byte that begins a character.
-/
import Haybarn.Lib.Buffer
import Mathlib.Data.List.TakeWhile
import Haybarn.Lib.Wildcard

namespace Haybarn.Text

open Lib Lib.Outcome Lib.Wildcard List

/-! ## The definition -/

/-- The string can be split as the pattern says: a percentage sign stands for any characters, an underscore for one, and
every other character for itself. -/
inductive Like : List Char → List Char → Prop
  | nil : Like [] []
  | percentage {pattern skipped string : List Char} (rest : Like pattern string) :
      Like ('%' :: pattern) (skipped ++ string)
  | underscore {c : Char} {pattern string : List Char} (rest : Like pattern string) : Like ('_' :: pattern) (c :: string)
  | character {c : Char} {pattern string : List Char} (plain : c ≠ '%' ∧ c ≠ '_') (rest : Like pattern string) :
      Like (c :: pattern) (c :: string)

/-! ## `TemplatedLikeOperator` -/

/-- `'%'`. -/
def percentage : UInt8 := 0x25

/-- `'_'`. -/
def underscore : UInt8 := 0x5F

/-- `IsCharacter`: the byte is the first of a character. -/
def isCharacter (c : UInt8) : Bool := c &&& 0xC0 ≠ 0x80

/-- How bytes are read: what is behind a character, and what a byte is compared as. -/
structure Reader where
  nextCharacter : List UInt8 → Nat → Outcome Nat
  operation : UInt8 → UInt8

def standardCharacterReader : Reader where
  nextCharacter sdata sidx := skipWhile (fun c => !isCharacter c) sdata (sdata.length + 1) (sidx + 1)
  operation c := c

def asciiToLowerMap (c : UInt8) : UInt8 := if 65 ≤ c ∧ c ≤ 90 then c + 32 else c

def asciiLCaseReader : Reader where
  nextCharacter _ sidx := .done (sidx + 1)
  operation := asciiToLowerMap

/-- `while (pidx < plen && pdata[pidx] == PERCENTAGE) pidx++;`. -/
def skipPercentages (pdata : List UInt8) (pidx : Nat) : Outcome Nat :=
  skipWhile (· = percentage) pdata (pdata.length + 1) pidx

/-- The exception of a pattern that ends with the escape. -/
def escapeAtEnd : String := "Like pattern must not end with escape character!"

/-- The loop of `TemplatedLikeOperator`, and its calls of itself. -/
def templatedLikeFrom (reader : Reader) (hasEscape : Bool) (escape : UInt8) :
    Nat → List UInt8 → List UInt8 → Nat → Nat → Outcome Bool
  | 0, _, _, _, _ => .hang
  | turns + 1, sdata, pdata, sidx, pidx =>
    if pidx < pdata.length ∧ sidx < sdata.length then do
      let p ← read pdata pidx
      let s ← read sdata sidx
      let pchar := reader.operation p
      let schar := reader.operation s
      if hasEscape ∧ pchar = escape then
        if pidx + 1 = pdata.length then .error escapeAtEnd
        else do
          let p ← read pdata (pidx + 1)
          if p ≠ schar then .done false
          else templatedLikeFrom reader hasEscape escape turns sdata pdata (sidx + 1) (pidx + 2)
      else if pchar = underscore then do
        let sidx ← reader.nextCharacter sdata sidx
        templatedLikeFrom reader hasEscape escape turns sdata pdata sidx (pidx + 1)
      else if pchar = percentage then do
        let pidx ← skipPercentages pdata (pidx + 1)
        if pidx = pdata.length then .done true
        else (List.range' sidx (sdata.length - sidx)).anyM fun sidx =>
          templatedLikeFrom reader hasEscape escape turns (sdata.drop sidx) (pdata.drop pidx) 0 0
      else if pchar = schar then templatedLikeFrom reader hasEscape escape turns sdata pdata (sidx + 1) (pidx + 1)
      else .done false
    else do
      let pidx ← skipPercentages pdata pidx
      .done (pidx = pdata.length ∧ sidx = sdata.length)

def templatedLikeOperator (reader : Reader) (hasEscape : Bool) (sdata pdata : List UInt8) (escape : UInt8) : Outcome Bool :=
  templatedLikeFrom reader hasEscape escape (pdata.length + 1) sdata pdata 0 0

/-- `LikeOperatorFunction` without an escape. -/
def likeOperatorFunction (s pattern : List UInt8) : Outcome Bool :=
  templatedLikeOperator standardCharacterReader false s pattern 0

/-- `LikeOperatorFunction` with an escape. -/
def likeEscapeOperatorFunction (s pattern : List UInt8) (escape : UInt8) : Outcome Bool :=
  templatedLikeOperator standardCharacterReader true s pattern escape

/-! ## `LikeMatcher` -/

/-- `LikeMatcher`, with the patterns of its segments. -/
structure LikeMatcher where
  segments : List (List UInt8)
  hasStartPercentage : Bool
  hasEndPercentage : Bool
  deriving DecidableEq

/-- What the loop of `CreateLikeMatcher` carries. -/
structure CreateState where
  segments : List (List UInt8) := []
  lastNonPattern : Nat := 0
  hasStartPercentage : Bool := false
  hasEndPercentage : Bool := false

/-- One turn of the loop of `CreateLikeMatcher`, nothing where it returns no matcher. -/
def createTurn (likePattern : List UInt8) (escape : UInt8) (i : Nat) (ch : UInt8) (state : CreateState) :
    Option CreateState :=
  if ch = escape ∨ ch = percentage ∨ ch = underscore then
    let segments :=
      if i > state.lastNonPattern then
        state.segments ++ [(likePattern.drop state.lastNonPattern).take (i - state.lastNonPattern)]
      else state.segments
    if ch = escape ∨ ch = underscore then none
    else some
      { segments
        lastNonPattern := i + 1
        hasStartPercentage := state.hasStartPercentage || i = 0
        hasEndPercentage := state.hasEndPercentage || i + 1 = likePattern.length }
  else some state

/-- `for (idx_t i = 0; i < like_pattern.size(); i++)`, from `i` on with what is left of the pattern. -/
def createLoop (likePattern : List UInt8) (escape : UInt8) : Nat → List UInt8 → CreateState → Option CreateState
  | _, [], state => some state
  | i, ch :: rest, state => do
    let state ← createTurn likePattern escape i ch state
    createLoop likePattern escape (i + 1) rest state

def createLikeMatcher (likePattern : List UInt8) (escape : UInt8) : Option LikeMatcher := do
  let state ← createLoop likePattern escape 0 likePattern {}
  let segments :=
    if state.lastNonPattern < likePattern.length then
      state.segments ++ [(likePattern.drop state.lastNonPattern).take (likePattern.length - state.lastNonPattern)]
    else state.segments
  if segments = [] then none
  else some { segments, hasStartPercentage := state.hasStartPercentage, hasEndPercentage := state.hasEndPercentage }

/-- `FindStrInStr`: the first position at which the needle is found. -/
def findStrInStr (haystack needle : List UInt8) : Option Nat :=
  (List.range (haystack.length + 1)).find? fun offset => needle.isPrefixOf (haystack.drop offset)

/-- The main loop of `Match`, over the segments between the first and the last: what is left of the string. -/
def matchMiddle : List (List UInt8) → List UInt8 → Option (List UInt8)
  | [], str => some str
  | segment :: segments, str => do
    let nextOffset ← findStrInStr str segment
    matchMiddle segments (str.drop (nextOffset + segment.length))

/-- `memcmp` of a segment with the string from an offset on, where the string is long enough for it. -/
def matchesAt (str : List UInt8) (offset : Nat) (segment : List UInt8) : Bool :=
  (str.drop offset).take segment.length = segment

/-- The main loop of `Match` and what follows it, on the segments that are left. -/
def LikeMatcher.matchRest (matcher : LikeMatcher) (segments : List (List UInt8)) (str : List UInt8) : Bool :=
  match matchMiddle segments.dropLast str, segments.getLast? with
  | some str, some segment =>
    if !matcher.hasEndPercentage then
      if str.length < segment.length then false else matchesAt str (str.length - segment.length) segment
    else (findStrInStr str segment).isSome
  | _, _ => false

def LikeMatcher.match (matcher : LikeMatcher) (str : List UInt8) : Bool :=
  if !matcher.hasStartPercentage then
    match matcher.segments with
    | [] => false
    | segment :: segments =>
      if str.length < segment.length then false
      else if !matchesAt str 0 segment then false
      else
        let str := str.drop segment.length
        if segments = [] then matcher.hasEndPercentage || str.length = 0 else matcher.matchRest segments str
  else matcher.matchRest matcher.segments str

/-- The bytes with a meaning of their own. -/
def likeBytes (escape : Option UInt8) : Wildcards UInt8 := ⟨percentage, underscore, escape⟩

/-- What a reader does, on what its bytes are compared as: `next` drops what goes with an arbitrary byte. -/
structure Reader.Reads (reader : Reader) (next : List UInt8 → List UInt8) : Prop where
  nextCharacter {sdata : List UInt8} {sidx : Nat} (h : sidx < sdata.length) :
    (reader.nextCharacter sdata sidx).Returns fun sidx' => sidx' ≤ sdata.length ∧
      (sdata.drop sidx').map reader.operation = next ((sdata.drop (sidx + 1)).map reader.operation)
  operation_eq_percentage {c : UInt8} : reader.operation c = percentage ↔ c = percentage

/-- The bytes up to the next one that begins a character. -/
def nextCharacter (s : List UInt8) : List UInt8 := s.dropWhile fun c => !isCharacter c

theorem standardCharacterReader_reads : standardCharacterReader.Reads nextCharacter where
  nextCharacter {sdata sidx} h := by
    have hskip : (standardCharacterReader.nextCharacter sdata sidx).Returns _ := skipWhile_spec (by omega) h
    refine hskip.mono fun sidx' h' => ⟨h'.2.1, ?_⟩
    simpa [standardCharacterReader, nextCharacter] using h'.2.2
  operation_eq_percentage := Iff.rfl

theorem asciiToLowerMap_eq_percentage {c : UInt8} : asciiToLowerMap c = percentage ↔ c = percentage := by
  unfold asciiToLowerMap percentage
  split
  next h =>
    obtain ⟨hlow, hhigh⟩ := h
    rw [UInt8.le_iff_toNat_le] at hlow hhigh
    rw [← UInt8.toNat_inj, ← UInt8.toNat_inj, UInt8.toNat_add]
    simp at hlow hhigh ⊢
    omega
  next => exact Iff.rfl

theorem asciiLCaseReader_reads : asciiLCaseReader.Reads id where
  nextCharacter h := returns_done ⟨h, rfl⟩
  operation_eq_percentage := asciiToLowerMap_eq_percentage

variable {reader : Reader} {next : List UInt8 → List UInt8} {hasEscape : Bool} {escape : UInt8}

/-- The escape that the bytes of a pattern are read with. -/
def escapeOf (hasEscape : Bool) (escape : UInt8) : Option UInt8 := if hasEscape then some escape else none

theorem escapeOf_eq_some {c : UInt8} : escapeOf hasEscape escape = some c ↔ hasEscape = true ∧ c = escape := by
  cases hasEscape <;> simp [escapeOf, eq_comm]

variable {pdata sdata : List UInt8} {pidx : Nat}

theorem skipPercentages_spec (h : pidx ≤ pdata.length) :
    (skipPercentages pdata pidx).Returns fun pidx' => pidx ≤ pidx' ∧ pidx' ≤ pdata.length ∧
      pdata.drop pidx' = (pdata.drop pidx).dropWhile (· = percentage) :=
  skipWhile_spec (by omega) h

/-- What the matcher is to answer on what is left of a string and a pattern. -/
def Answers (reader : Reader) (next : List UInt8 → List UInt8) (escape : Option UInt8) (sdata pdata : List UInt8)
    (o : Outcome Bool) : Prop :=
  o.Settles escapeAtEnd
    (Stuck next ((likeBytes escape).parse (pdata.map reader.operation)) (sdata.map reader.operation))
    (Accepts next ((likeBytes escape).parse (pdata.map reader.operation)) (sdata.map reader.operation))

theorem Answers.of_leads {sdata' pdata' : List UInt8} {escape : Option UInt8} {o : Outcome Bool}
    (h : Answers reader next escape sdata' pdata' o)
    (hleads : ∀ last flag,
      Leads next last flag ((likeBytes escape).parse (pdata'.map reader.operation)) (sdata'.map reader.operation) ↔
        Leads next last flag ((likeBytes escape).parse (pdata.map reader.operation)) (sdata.map reader.operation)) :
    Answers reader next escape sdata pdata o :=
  h.congr (hleads _ _) (hleads _ _)

theorem answers_false {escape : Option UInt8}
    (h : ∀ last flag, ¬ Leads next last flag ((likeBytes escape).parse (pdata.map reader.operation))
      (sdata.map reader.operation)) : Answers reader next escape sdata pdata (.done false) :=
  settles_of_not (h _ _) (decides_false (h _ _))

theorem dropWhile_percentage_map (hreader : reader.Reads next) {l : List UInt8} :
    (l.dropWhile (· = percentage)).map reader.operation = (l.map reader.operation).dropWhile (· = percentage) := by
  induction l with
  | nil => rfl
  | cons c l ih =>
    by_cases hc : c = percentage
    · simp [hc, hreader.operation_eq_percentage.2, ih]
    · simp [hc, hreader.operation_eq_percentage.not.2 hc]

theorem answers_percentage {escape : Option UInt8} (hmany : escape ≠ some percentage)
    {sidx pidx' : Nat} {f : Nat → Outcome Bool}
    (hhead : ∃ rest, (pdata.drop pidx).map reader.operation = percentage :: rest ∧
      rest.dropWhile (· = percentage) = (pdata.drop pidx').map reader.operation)
    (hpidx' : pidx' ≤ pdata.length)
    (hf : ∀ i, Answers reader next escape (sdata.drop i) (pdata.drop pidx') (f i)) :
    Answers reader next escape (sdata.drop sidx) (pdata.drop pidx)
      (if pidx' = pdata.length then .done true else (range' sidx (sdata.length - sidx)).anyM f) := by
  obtain ⟨rest, hrest, hskip⟩ := hhead
  have hone : percentage ≠ underscore := by decide
  have hleads : ∀ last flag, Leads next last flag ((likeBytes escape).parse ((pdata.drop pidx).map reader.operation))
      ((sdata.drop sidx).map reader.operation) ↔ ∃ t, t <:+ (sdata.drop sidx).map reader.operation ∧
        Leads next last flag ((likeBytes escape).parse ((pdata.drop pidx').map reader.operation)) t := by
    intro last flag
    rw [hrest, ← hskip]
    exact leads_many (w := likeBytes escape) hmany hone
  by_cases hend : pidx' = pdata.length
  · rw [if_pos hend]
    rw [hend, drop_length] at hleads
    have hstuck : ¬ Stuck next ((likeBytes escape).parse ((pdata.drop pidx).map reader.operation))
        ((sdata.drop sidx).map reader.operation) := by
      intro h
      obtain ⟨_, -, h, -⟩ := (hleads _ _).1 h
      cases h
    exact settles_of_not hstuck (decides_true ((hleads _ _).2 ⟨[], nil_suffix, rfl, rfl⟩))
  · rw [if_neg hend]
    have haccepts : ¬ Accepts next ((likeBytes escape).parse ((pdata.drop pidx').map reader.operation)) [] := by
      obtain ⟨p, pdata', hp⟩ := exists_drop (show pidx' < pdata.length by omega)
      intro h
      have hp' := (accepts_nil (w := likeBytes escape) hmany hone).1 h (reader.operation p) (by simp [hp])
      have hnot := head?_dropWhile_not (fun c => decide (c = percentage)) rest
      rw [hskip, hp] at hnot
      simp [hp', likeBytes] at hnot
    have hany : ∀ last flag,
        ¬ Leads next last flag ((likeBytes escape).parse ((pdata.drop pidx').map reader.operation)) [] →
          ((∃ i ∈ range' sidx (sdata.length - sidx), Leads next last flag
            ((likeBytes escape).parse ((pdata.drop pidx').map reader.operation)) ((sdata.drop i).map reader.operation)) ↔
          Leads next last flag ((likeBytes escape).parse ((pdata.drop pidx).map reader.operation))
            ((sdata.drop sidx).map reader.operation)) := by
      intro last flag hnil
      rw [hleads]
      simp only [map_drop] at hnil ⊢
      rw [exists_suffix_iff_exists_drop hnil, length_map]
    exact (settles_anyM (fun i j h => not_accepts_of_stuck h) fun i _ => hf i).congr (hany _ _ not_stuck_nil)
      (hany _ _ haccepts)

theorem answers_end (hreader : reader.Reads next) {escape : Option UInt8} (hmany : escape ≠ some percentage)
    {sidx pidx' : Nat} (hend : pidx = pdata.length ∨ sidx = sdata.length)
    (hsidx : sidx ≤ sdata.length) (hpidx' : pidx' ≤ pdata.length)
    (hskip : pdata.drop pidx' = (pdata.drop pidx).dropWhile (· = percentage)) :
    Answers reader next escape (sdata.drop sidx) (pdata.drop pidx)
      (.done (pidx' = pdata.length ∧ sidx = sdata.length)) := by
  have hone : percentage ≠ underscore := by decide
  by_cases hs : sidx = sdata.length
  · have hnil : (sdata.drop sidx).map reader.operation = [] := by rw [hs, drop_length, map_nil]
    have hpidx' : pidx' = pdata.length ↔ (pdata.drop pidx).dropWhile (· = percentage) = [] := by
      rw [← hskip, drop_eq_nil_iff]
      omega
    refine settles_of_not (by rw [hnil]; exact not_stuck_nil) (decides_done ?_)
    rw [hnil, accepts_nil (w := likeBytes escape) hmany hone, decide_eq_true_iff, hpidx', dropWhile_eq_nil_iff,
      forall_mem_map]
    simp [hs, likeBytes, hreader.operation_eq_percentage]
  · obtain rfl : pidx = pdata.length := by omega
    rw [decide_eq_false (fun h => hs h.2)]
    have hnot : (sdata.drop sidx).map reader.operation ≠ [] := by simpa using by omega
    refine settles_of_not ?_ (decides_false ?_)
    · rw [drop_length]
      rintro ⟨⟨⟩, -⟩
    · rw [drop_length]
      rintro ⟨-, h⟩
      exact hnot h

theorem templatedLikeFrom_spec (hreader : reader.Reads next)
    (hescape : hasEscape = true → escape ≠ percentage ∧ ∀ c, reader.operation c = c) :
    ∀ {turns : Nat} {sdata pdata : List UInt8} {sidx pidx : Nat},
      pdata.length < turns + pidx → sidx ≤ sdata.length → pidx ≤ pdata.length →
        Answers reader next (escapeOf hasEscape escape) (sdata.drop sidx) (pdata.drop pidx)
          (templatedLikeFrom reader hasEscape escape turns sdata pdata sidx pidx)
  | 0, sdata, pdata, sidx, pidx, hturns, _, hpidx => absurd hturns (by omega)
  | turns + 1, sdata, pdata, sidx, pidx, hturns, hsidx, hpidx => by
    have hmany : escapeOf hasEscape escape ≠ some percentage := by
      intro h
      obtain ⟨h, heq⟩ := escapeOf_eq_some.1 h
      exact (hescape h).1 heq.symm
    unfold templatedLikeFrom
    by_cases hlt : pidx < pdata.length ∧ sidx < sdata.length
    · rw [if_pos hlt]
      obtain ⟨p, pdata', hp⟩ := exists_drop hlt.1
      obtain ⟨s, sdata', hs⟩ := exists_drop hlt.2
      have hp' := drop_succ_of_drop hp
      have hs' := drop_succ_of_drop hs
      rw [read_of_drop hp, done_bind, read_of_drop hs, done_bind]
      dsimp only
      by_cases hesc : hasEscape = true ∧ reader.operation p = escape
      · rw [if_pos hesc]
        have hsome : (likeBytes (escapeOf hasEscape escape)).escape = some (reader.operation p) := escapeOf_eq_some.2 hesc
        by_cases hend : pidx + 1 = pdata.length
        · rw [if_pos hend]
          have hnil : pdata' = [] := by rw [← hp', drop_eq_nil_iff]; omega
          refine ⟨fun _ => rfl, fun h => absurd ?_ h⟩
          rw [hp, hnil, hs]
          exact stuck_dangling hsome
        · rw [if_neg hend]
          obtain ⟨q, pdata'', hq⟩ := exists_drop (show pidx + 1 < pdata.length by omega)
          obtain rfl : pdata' = q :: pdata'' := hp'.symm.trans hq
          rw [read_of_drop hq, done_bind]
          have hleads : ∀ last flag, Leads next last flag
              ((likeBytes (escapeOf hasEscape escape)).parse ((pdata.drop pidx).map reader.operation))
              ((sdata.drop sidx).map reader.operation) ↔ reader.operation s = q ∧ Leads next last flag
                ((likeBytes (escapeOf hasEscape escape)).parse (pdata''.map reader.operation))
                (sdata'.map reader.operation) := by
            intro last flag
            rw [hp, hs, map_cons, map_cons, map_cons, leads_escape hsome, (hescape hesc.1).2 q]
          by_cases hsame : q = reader.operation s
          · rw [if_neg (not_not.2 hsame)]
            refine (templatedLikeFrom_spec hreader hescape (by omega) hlt.2 (by omega)).of_leads fun last flag => ?_
            rw [hleads, hs', drop_succ_of_drop hq]
            simp [hsame]
          · rw [if_pos hsame]
            refine answers_false fun last flag => ?_
            rw [hleads]
            exact fun h => hsame h.1.symm
      · rw [if_neg hesc]
        have hplain : (likeBytes (escapeOf hasEscape escape)).escape ≠ some (reader.operation p) := fun h =>
          hesc (escapeOf_eq_some.1 h)
        by_cases hunder : reader.operation p = underscore
        · rw [if_pos hunder]
          obtain ⟨sidx', heq, hle, hnext⟩ := hreader.nextCharacter hlt.2
          rw [heq, done_bind]
          refine (templatedLikeFrom_spec hreader hescape (by omega) hle hlt.1).of_leads fun last flag => ?_
          rw [hnext, hp, hp', hs, hs', map_cons, map_cons, hunder]
          exact (leads_one (w := likeBytes (escapeOf hasEscape escape)) (by rwa [hunder] at hplain)).symm
        · rw [if_neg hunder]
          by_cases hpercent : reader.operation p = percentage
          · rw [if_pos hpercent]
            obtain ⟨pidx', heq, hge, hle, hskip⟩ := skipPercentages_spec hlt.1
            rw [heq, done_bind]
            refine answers_percentage hmany ⟨pdata'.map reader.operation, ?_, ?_⟩ hle fun i => ?_
            · rw [hp, map_cons, hpercent]
            · rw [hskip, hp', dropWhile_percentage_map hreader]
            · have hrec : Answers reader next (escapeOf hasEscape escape) ((sdata.drop i).drop 0)
                  ((pdata.drop pidx').drop 0)
                  (templatedLikeFrom reader hasEscape escape turns (sdata.drop i) (pdata.drop pidx') 0 0) :=
                templatedLikeFrom_spec hreader hescape (by rw [length_drop]; omega) (Nat.zero_le _) (Nat.zero_le _)
              simpa only [drop_zero] using hrec
          · rw [if_neg hpercent]
            have hleads : ∀ last flag, Leads next last flag
                ((likeBytes (escapeOf hasEscape escape)).parse ((pdata.drop pidx).map reader.operation))
                ((sdata.drop sidx).map reader.operation) ↔ reader.operation s = reader.operation p ∧ Leads next last flag
                  ((likeBytes (escapeOf hasEscape escape)).parse (pdata'.map reader.operation))
                  (sdata'.map reader.operation) := by
              intro last flag
              rw [hp, hs, map_cons, map_cons, leads_letter ⟨hplain, hunder, hpercent⟩]
            by_cases hsame : reader.operation p = reader.operation s
            · rw [if_pos hsame]
              refine (templatedLikeFrom_spec hreader hescape (by omega) hlt.2 hlt.1).of_leads fun last flag => ?_
              rw [hleads, hs', hp']
              simp [hsame]
            · rw [if_neg hsame]
              refine answers_false fun last flag => ?_
              rw [hleads]
              exact fun h => hsame h.1.symm
    · rw [if_neg hlt]
      obtain ⟨pidx', heq, hge, hle, hdrop⟩ := skipPercentages_spec hpidx
      rw [heq, done_bind]
      exact answers_end hreader hmany (by omega) hsidx hle hdrop

/-- `TemplatedLikeOperator` answers as the pattern is read. -/
theorem templatedLikeOperator_spec (hreader : reader.Reads next)
    (hescape : hasEscape = true → escape ≠ percentage ∧ ∀ c, reader.operation c = c) (sdata pdata : List UInt8) :
    Answers reader next (escapeOf hasEscape escape) sdata pdata
      (templatedLikeOperator reader hasEscape sdata pdata escape) :=
  templatedLikeFrom_spec hreader hescape (by omega) (Nat.zero_le _) (Nat.zero_le _)

end Haybarn.Text
