/-
`LikeMatcher`: the segments that `CreateLikeMatcher` cuts a pattern into stand for what the pattern stands for, and the
search for them from the left, each behind the one before it, finds a way to match wherever there is one.
-/
import Haybarn.Text.Like

namespace Haybarn.Text

open Lib Lib.Wildcard List Option

variable {next : List UInt8 → List UInt8} {segment str haystack needle pattern : List UInt8}
  {segments : List (List UInt8)} {hasStart : Bool} {q : List (Symbol UInt8)}

/-! ## Segments -/

/-- Segments with any sequence before each. -/
def floating (segments : List (List UInt8)) : List (Symbol UInt8) :=
  segments.flatMap fun segment => .many :: segment.map .letter

/-- Segments with any sequence between them, and one before the first if the pattern starts so. -/
def joined (hasStart : Bool) (segments : List (List UInt8)) : List (Symbol UInt8) :=
  if hasStart then floating segments
  else match segments with
    | [] => []
    | segment :: segments => segment.map .letter ++ floating segments

/-- Any sequence, if the flag says so. -/
def manyIf (flag : Bool) : List (Symbol UInt8) := if flag then [.many] else []

/-- What the matcher stands for. -/
def LikeMatcher.symbols (matcher : LikeMatcher) : List (Symbol UInt8) :=
  joined matcher.hasStartPercentage matcher.segments ++ manyIf matcher.hasEndPercentage

theorem joined_append (h : hasStart = true ∨ segments ≠ []) :
    joined hasStart (segments ++ [segment]) = joined hasStart segments ++ .many :: segment.map .letter := by
  cases hasStart with
  | true => simp [joined, floating]
  | false =>
    cases segments with
    | nil => simp at h
    | cons first segments => simp [joined, floating]

/-! ## `Match` -/

theorem findStrInStr_some {k : Nat} (h : findStrInStr haystack needle = some k) :
    needle <+: haystack.drop k ∧ ∀ j, needle <+: haystack.drop j → k ≤ j := by
  rw [findStrInStr, find?_range_eq_some] at h
  obtain ⟨hfound, -, hfirst⟩ := h
  refine ⟨by simpa using hfound, fun j hj => ?_⟩
  by_contra hlt
  have hnot := hfirst j (by omega)
  rw [List.isPrefixOf_iff_prefix.2 hj] at hnot
  cases hnot

theorem findStrInStr_none (h : findStrInStr haystack needle = none) {t : List UInt8} (ht : t <:+ haystack) :
    ¬ needle <+: t := by
  rw [findStrInStr, find?_range_eq_none] at h
  have hle := ht.length_le
  have hnot := h (haystack.length - t.length) (by omega)
  rw [← suffix_iff_eq_drop.1 ht] at hnot
  intro hstarts
  rw [List.isPrefixOf_iff_prefix.2 hstarts] at hnot
  cases hnot

theorem isSome_findStrInStr :
    (findStrInStr haystack needle).isSome = true ↔ Wildcard.Matches next (.many :: needle.map .letter ++ [.many]) haystack := by
  rw [cons_append, matches_many]
  simp only [matches_letters, matches_many_last, and_true]
  constructor
  · intro h
    obtain ⟨k, hk⟩ := isSome_iff_exists.1 h
    obtain ⟨t, ht⟩ := (findStrInStr_some hk).1
    exact ⟨haystack.drop k, drop_suffix _ _, t, ht.symm⟩
  · rintro ⟨t, ht, u, hu⟩
    by_contra hnone
    exact findStrInStr_none (by simpa using hnone) ht ⟨u, hu.symm⟩

theorem matches_first_occurrence :
    Wildcard.Matches next (.many :: segment.map .letter ++ .many :: q) str ↔
      ∃ k ∈ findStrInStr str segment, Wildcard.Matches next (.many :: q) (str.drop (k + segment.length)) := by
  rw [cons_append, matches_many]
  constructor
  · rintro ⟨t, ht, h⟩
    obtain ⟨u, rfl, hrest⟩ := matches_letters.1 h
    cases hfind : findStrInStr str segment with
    | none => exact absurd (prefix_append _ _) (findStrInStr_none hfind ht)
    | some k =>
      refine ⟨k, rfl, hrest.of_suffix ?_⟩
      have hdrop := suffix_iff_eq_drop.1 ht
      have hle := (findStrInStr_some hfind).2 (str.length - (segment ++ u).length) (by rw [← hdrop]; exact ⟨u, rfl⟩)
      have hu : u = str.drop (str.length - (segment ++ u).length + segment.length) := by
        rw [← drop_drop, ← hdrop, drop_left]
      rw [hu, show str.length - (segment ++ u).length + segment.length =
        k + segment.length + (str.length - (segment ++ u).length - k) by omega, ← drop_drop]
      exact drop_suffix _ _
  · rintro ⟨k, hk, h⟩
    obtain ⟨t, ht⟩ := (findStrInStr_some hk).1
    refine ⟨str.drop k, drop_suffix _ _, matches_letters.2 ⟨t, ht.symm, ?_⟩⟩
    rwa [← drop_drop, ← ht, drop_left] at h

theorem matchesAt_iff {offset : Nat} : matchesAt str offset segment = true ↔ segment <+: str.drop offset := by
  rw [matchesAt, decide_eq_true_iff, prefix_iff_eq_take, eq_comm]

theorem matches_last : Wildcard.Matches next (.many :: segment.map .letter) str ↔
    (if str.length < segment.length then false else matchesAt str (str.length - segment.length) segment) = true := by
  rw [matches_many]
  simp only [matches_letters_last, exists_eq_right]
  split
  next h =>
    simp only [Bool.false_eq_true, iff_false]
    intro hsuffix
    have := hsuffix.length_le
    omega
  next h =>
    rw [matchesAt_iff, suffix_iff_eq_drop]
    have hlen : (str.drop (str.length - segment.length)).length = segment.length := by
      rw [length_drop]
      omega
    constructor
    · intro h
      exact h ▸ prefix_rfl
    · intro h
      exact h.eq_of_length hlen.symm

variable {matcher : LikeMatcher}

theorem LikeMatcher.matchRest_spec : ∀ {segments : List (List UInt8)} {str : List UInt8}, segments ≠ [] →
    (matcher.matchRest segments str = true ↔
      Wildcard.Matches next (floating segments ++ manyIf matcher.hasEndPercentage) str)
  | [], str, h => absurd rfl h
  | [segment], str, _ => by
    simp only [matchRest, dropLast_singleton, matchMiddle, getLast?_singleton, floating, flatMap_cons,
      flatMap_nil, append_nil]
    cases matcher.hasEndPercentage with
    | true => exact isSome_findStrInStr
    | false => exact (@matches_last next segment str).symm.trans (by simp [manyIf])
  | segment :: second :: segments, str, _ => by
    have hfloating : floating (segment :: second :: segments) ++ manyIf matcher.hasEndPercentage =
        .many :: segment.map .letter ++ .many ::
          (second.map .letter ++ (floating segments ++ manyIf matcher.hasEndPercentage)) := by
      simp [floating]
    rw [hfloating, matches_first_occurrence]
    have hstep : matcher.matchRest (segment :: second :: segments) str = true ↔
        ∃ k ∈ findStrInStr str segment,
          matcher.matchRest (second :: segments) (str.drop (k + segment.length)) = true := by
      simp only [matchRest, dropLast_cons_cons, matchMiddle, getLast?_cons_cons]
      cases findStrInStr str segment with
      | none => simp
      | some k => simp
    rw [hstep]
    refine exists_congr fun k => and_congr_right fun _ => ?_
    rw [matchRest_spec (cons_ne_nil _ _)]
    simp [floating]

/-- `Match` answers as the segments say. -/
theorem LikeMatcher.match_spec (hsegments : matcher.segments ≠ []) :
    matcher.match str = true ↔ Wildcard.Matches next matcher.symbols str := by
  unfold LikeMatcher.match LikeMatcher.symbols joined
  cases hstart : matcher.hasStartPercentage with
  | true => exact matchRest_spec hsegments
  | false =>
    cases hsegs : matcher.segments with
    | nil => exact absurd hsegs hsegments
    | cons segment segments =>
      simp only [Bool.not_false, if_true, Bool.false_eq_true, if_false, append_assoc]
      rw [matches_letters]
      by_cases hstarts : segment <+: str
      · obtain ⟨t, rfl⟩ := hstarts
        have hlen : ¬ (segment ++ t).length < segment.length := by simp
        have hmatches : matchesAt (segment ++ t) 0 segment = true := matchesAt_iff.2 (prefix_append _ _)
        rw [if_neg hlen, hmatches, drop_left]
        simp only [Bool.not_true, Bool.false_eq_true, if_false, append_cancel_left_eq, exists_eq_left']
        cases segments with
        | nil =>
          rw [if_pos rfl]
          cases matcher.hasEndPercentage <;> simp [floating, manyIf]
        | cons second segments =>
          rw [if_neg (cons_ne_nil _ _)]
          exact matchRest_spec (cons_ne_nil _ _)
      · have hmatches : matchesAt str 0 segment = false := by
          rw [Bool.eq_false_iff, ne_eq, matchesAt_iff]
          exact hstarts
        rw [hmatches]
        simp only [Bool.not_false, if_true, ite_self, Bool.false_eq_true, false_iff]
        rintro ⟨t, rfl, -⟩
        exact hstarts (prefix_append _ _)

/-! ## `CreateLikeMatcher` -/

/-- The symbols of a pattern without an escape. -/
def symbolsOf (pattern : List UInt8) : List (Symbol UInt8) := pattern.map (likeBytes none).symbol

theorem symbolsOf_plain (h : ∀ c ∈ pattern, c ≠ percentage ∧ c ≠ underscore) :
    symbolsOf pattern = pattern.map .letter :=
  map_congr_left fun c hc => Wildcards.symbol_letter (h c hc).2 (h c hc).1

/-- The bytes of the pattern from the last special one up to `i`. -/
def pending (pattern : List UInt8) (last i : Nat) : List UInt8 := (pattern.drop last).take (i - last)

/-- What stands before the pending bytes. -/
def CreateState.front (state : CreateState) : List (Symbol UInt8) :=
  joined state.hasStartPercentage state.segments ++ manyIf (decide (0 < state.lastNonPattern))

/-- The loop of `CreateLikeMatcher` stands at `i`: the pattern up to there means the segments and the pending bytes. -/
structure Cut (next : List UInt8 → List UInt8) (pattern : List UInt8) (i : Nat) (state : CreateState) : Prop where
  last_le : state.lastNonPattern ≤ i
  plain : ∀ c ∈ pending pattern state.lastNonPattern i, c ≠ percentage ∧ c ≠ underscore
  first : state.lastNonPattern = 0 → state.hasStartPercentage = false ∧ state.segments = []
  later : 0 < state.lastNonPattern → state.hasStartPercentage = true ∨ state.segments ≠ []
  hasEnd : state.hasEndPercentage = decide (0 < state.lastNonPattern ∧ state.lastNonPattern = pattern.length)
  language (q : List (Symbol UInt8)) (s : List UInt8) :
    Wildcard.Matches next (symbolsOf (pattern.take i) ++ q) s ↔
      Wildcard.Matches next (state.front ++ ((pending pattern state.lastNonPattern i).map .letter ++ q)) s

variable {state state' : CreateState} {i : Nat} {c escape : UInt8} {rest : List UInt8}

theorem pending_succ (hdrop : pattern.drop i = c :: rest) {last : Nat} (hle : last ≤ i) :
    pending pattern last (i + 1) = pending pattern last i ++ [c] := by
  have hget : (pattern.drop last)[i - last]? = some c := by
    rw [getElem?_drop, Nat.add_sub_cancel' hle, getElem?_of_drop hdrop]
  rw [pending, pending, show i + 1 - last = i - last + 1 by omega, take_add_one, hget]
  rfl

theorem symbolsOf_take_succ (hdrop : pattern.drop i = c :: rest) :
    symbolsOf (pattern.take (i + 1)) = symbolsOf (pattern.take i) ++ [(likeBytes none).symbol c] := by
  rw [take_add_one, getElem?_of_drop hdrop, symbolsOf, symbolsOf, map_append]
  rfl

theorem Cut.turn (h : Cut next pattern i state) (hdrop : pattern.drop i = c :: rest)
    (hturn : createTurn pattern escape i c state = some state') : Cut next pattern (i + 1) state' := by
  have hlt := lt_of_drop hdrop
  have hle := h.last_le
  unfold createTurn at hturn
  by_cases hspecial : c = escape ∨ c = percentage ∨ c = underscore
  · rw [if_pos hspecial] at hturn
    by_cases hnone : c = escape ∨ c = underscore
    · rw [if_pos hnone] at hturn
      cases hturn
    · rw [if_neg hnone] at hturn
      rw [not_or] at hnone
      obtain rfl : c = percentage := by
        rcases hspecial with h | h | h
        · exact absurd h hnone.1
        · exact h
        · exact absurd h hnone.2
      obtain rfl := (some.inj hturn).symm
      have hlanguage : ∀ q s, Wildcard.Matches next (symbolsOf (pattern.take (i + 1)) ++ q) s ↔ Wildcard.Matches next (state.front ++
          ((pending pattern state.lastNonPattern i).map .letter ++ .many :: q)) s := by
        intro q s
        rw [symbolsOf_take_succ hdrop, append_assoc, h.language]
        rfl
      have hend : (state.hasEndPercentage || decide (i + 1 = pattern.length)) =
          decide (0 < i + 1 ∧ i + 1 = pattern.length) := by
        have hold : state.hasEndPercentage = false := by
          rw [h.hasEnd]
          simp
          omega
        simp [hold]
      refine ⟨Nat.le_refl _, by simp [pending], by simp, fun _ => ?_, hend, fun q s => ?_⟩
      · -- the first byte starts the pattern, and behind it something was pending or had been found
        by_cases hfirst : state.lastNonPattern = 0
        · by_cases hi : i = 0
          · exact .inl (by simp [hi])
          · exact .inr (by simp [if_pos (show i > state.lastNonPattern by omega)])
        · rcases h.later (by omega) with hstart | hsegments
          · exact .inl (by simp [hstart])
          · refine .inr ?_
            split
            · simp
            · exact hsegments
      · rw [hlanguage]
        simp only [CreateState.front, Nat.zero_lt_succ, decide_true]
        by_cases hfirst : state.lastNonPattern = 0
        · obtain ⟨hstart, hsegments⟩ := h.first hfirst
          rw [hstart, hsegments, hfirst]
          by_cases hi : i = 0
          · simp [hi, joined, floating, manyIf, pending]
          · rw [if_pos (show i > 0 by omega)]
            simp [hi, joined, floating, manyIf, pending]
        · have hi : decide (i = 0) = false := decide_eq_false (by omega)
          rw [hi, Bool.or_false, decide_eq_true (show 0 < state.lastNonPattern by omega)]
          by_cases hpending : i > state.lastNonPattern
          · rw [if_pos hpending, joined_append (h.later (by omega))]
            simp [manyIf, pending]
          · rw [if_neg hpending, show i = state.lastNonPattern by omega]
            simp only [pending, manyIf, Nat.sub_self, take_zero, map_nil, nil_append, if_true,
              append_assoc]
            exact matches_append_congr fun s => matches_many_many
  · rw [if_neg hspecial] at hturn
    obtain rfl := (some.inj hturn).symm
    rw [not_or, not_or] at hspecial
    refine ⟨by omega, ?_, h.first, h.later, h.hasEnd, fun q s => ?_⟩
    · intro c' hc'
      rw [pending_succ hdrop hle, mem_append, mem_singleton] at hc'
      rcases hc' with hc' | rfl
      · exact h.plain c' hc'
      · exact hspecial.2
    · rw [symbolsOf_take_succ hdrop, pending_succ hdrop hle, append_assoc, h.language]
      rw [Wildcards.symbol_letter hspecial.2.2 hspecial.2.1]
      simp

theorem Cut.loop : ∀ {rest : List UInt8} {i : Nat} {state : CreateState}, Cut next pattern i state →
    i ≤ pattern.length → pattern.drop i = rest → createLoop pattern escape i rest state = some state' → Cut next pattern pattern.length state'
  | [], i, state, h, hle, hdrop, hloop => by
    obtain rfl := (some.inj hloop).symm
    obtain rfl : i = pattern.length := Nat.le_antisymm hle (drop_eq_nil_iff.1 hdrop)
    exact h
  | c :: rest, i, state, h, hle, hdrop, hloop => by
    rw [createLoop, bind_eq_bind, bind_eq_some_iff] at hloop
    obtain ⟨state, hturn, hloop⟩ := hloop
    exact Cut.loop (h.turn hdrop hturn) (lt_of_drop hdrop) (drop_succ_of_drop hdrop) hloop

/-- A matcher that `CreateLikeMatcher` returns has segments, and they stand for what the pattern stands for. -/
theorem createLikeMatcher_spec (h : createLikeMatcher pattern escape = some matcher) :
    matcher.segments ≠ [] ∧ ∀ s, Wildcard.Matches next matcher.symbols s ↔ Wildcard.Matches next (symbolsOf pattern) s := by
  rw [createLikeMatcher, bind_eq_bind, bind_eq_some_iff] at h
  obtain ⟨state, hloop, h⟩ := h
  have hcut : Cut next pattern 0 {} :=
    ⟨Nat.le_refl _, by simp [pending], fun _ => ⟨rfl, rfl⟩, by simp, by simp,
      by simp [CreateState.front, joined, manyIf, pending, symbolsOf]⟩
  have hdone := hcut.loop (Nat.zero_le _) rfl hloop
  rw [ite_none_left_eq_some, some.injEq] at h
  obtain ⟨hsegments, rfl⟩ := h
  refine ⟨hsegments, fun s => ?_⟩
  have hlanguage := hdone.language [] s
  rw [take_length, append_nil, append_nil] at hlanguage
  have hle := hdone.last_le
  rw [hlanguage, LikeMatcher.symbols, CreateState.front]
  dsimp only
  by_cases hlast : state.lastNonPattern < pattern.length
  · -- the pending bytes are the last segment
    have hend : state.hasEndPercentage = false := by
      rw [hdone.hasEnd]
      simp
      omega
    rw [if_pos hlast, hend]
    by_cases hfirst : state.lastNonPattern = 0
    · obtain ⟨hstart, hnil⟩ := hdone.first hfirst
      rw [hstart, hnil, hfirst]
      simp [joined, floating, manyIf, pending]
    · rw [joined_append (hdone.later (by omega)), decide_eq_true (show 0 < state.lastNonPattern by omega)]
      simp [manyIf, pending]
  · rw [if_neg hlast]
    have hend : state.hasEndPercentage = decide (0 < state.lastNonPattern) := by
      rw [hdone.hasEnd]
      exact decide_eq_decide.2 ⟨fun h => h.1, fun h => ⟨h, by omega⟩⟩
    rw [hend, show pending pattern state.lastNonPattern pattern.length = [] by
      rw [pending, drop_eq_nil_iff.2 (by omega), take_nil]]
    simp

end Haybarn.Text
