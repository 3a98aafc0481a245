/-
`LikeOptimizationRule`: a constant pattern whose only special characters are percentage signs at its ends becomes an
equality, or a call of the prefix, the suffix or the contains function. Each answers what `LIKE` answers, as the other two
matchers do.
-/
import Mathlib.Data.List.DropRight
import Haybarn.Text.LikeCharacters
import Haybarn.Text.LikeMatcher

namespace Haybarn.Text

open Lib Lib.Wildcard Lib.Utf8 List

/-! ## The rule -/

/-- None of the bytes is `%` or `_`. -/
def noSpecial (bytes : List UInt8) : Bool := bytes.all fun c => c ≠ percentage && c ≠ underscore

/-- The first loop of `PatternIsSuffix`: the position behind the leading percentage signs. -/
def leadingEnd (pattern : List UInt8) : Nat := (pattern.takeWhile (· = percentage)).length

/-- The first loop of `PatternIsPrefix`: the position of the trailing percentage signs. -/
def trailingStart (pattern : List UInt8) : Nat := (pattern.rdropWhile (· = percentage)).length

def patternIsConstant (pattern : List UInt8) : Bool := noSpecial pattern

def patternIsPrefix (pattern : List UInt8) : Bool :=
  if trailingStart pattern = pattern.length then false else noSpecial (pattern.take (trailingStart pattern))

def patternIsSuffix (pattern : List UInt8) : Bool :=
  if leadingEnd pattern = 0 then false else noSpecial (pattern.drop (leadingEnd pattern))

def patternIsContains (pattern : List UInt8) : Bool :=
  let start := leadingEnd pattern
  let stop := trailingStart pattern
  if start = 0 ∨ stop = pattern.length then false else noSpecial ((pattern.drop start).take (stop - start))

/-- What the rule replaces a call by. -/
inductive StringFunction where
  | equal
  | prefixFun
  | suffixFun
  | stringContains
  deriving DecidableEq

/-- `LikeOptimizationRule::Apply` on a constant pattern: the constant NULL, or a function, its second argument, and whether
it is negated. -/
inductive Replacement where
  | null
  | call (function : StringFunction) (constant : List UInt8) (negated : Bool)
  deriving DecidableEq

/-- `ApplyRule`, which removes every percentage sign. -/
def applyRule (function : StringFunction) (pattern : List UInt8) (isNotLike : Bool) : Replacement :=
  .call function (pattern.filter (· ≠ percentage)) isNotLike

/-- `LikeOptimizationRule::Apply`, nothing where it leaves the call as it is. -/
def likeOptimizationRule (constant : Option (List UInt8)) (isNotLike : Bool) : Option Replacement :=
  match constant with
  | none => some .null
  | some pattern =>
    if patternIsConstant pattern then some (.call .equal pattern isNotLike)
    else if patternIsPrefix pattern then some (applyRule .prefixFun pattern isNotLike)
    else if patternIsSuffix pattern then some (applyRule .suffixFun pattern isNotLike)
    else if patternIsContains pattern then some (applyRule .stringContains pattern isNotLike)
    else none

/-- The functions on bytes: equality, a prefix test, a suffix test and substring search. -/
def StringFunction.evaluate (function : StringFunction) (str constant : List UInt8) : Bool :=
  match function with
  | .equal => str = constant
  | .prefixFun => constant.isPrefixOf str
  | .suffixFun => constant.isSuffixOf str
  | .stringContains => (findStrInStr str constant).isSome

/-- The value of what a call was replaced by, nothing for NULL. -/
def Replacement.evaluate (str : List UInt8) : Replacement → Option Bool
  | .null => none
  | .call function constant negated => some (negated ^^ function.evaluate str constant)

/-! ## What it stands for -/

variable {next : List UInt8 → List UInt8} {pattern literal front back str : List UInt8}

theorem noSpecial_iff : noSpecial pattern = true ↔ ∀ c ∈ pattern, c ≠ percentage ∧ c ≠ underscore := by
  simp [noSpecial]

/-- The pattern is percentage signs, a literal, and percentage signs. -/
structure Framed (pattern front literal back : List UInt8) : Prop where
  eq : pattern = front ++ literal ++ back
  front_percentage : ∀ c ∈ front, c = percentage
  back_percentage : ∀ c ∈ back, c = percentage
  plain : ∀ c ∈ literal, c ≠ percentage ∧ c ≠ underscore

theorem symbolsOf_percentages (h : ∀ c ∈ front, c = percentage) :
    symbolsOf front = replicate front.length .many := by
  rw [eq_replicate_of_mem h, symbolsOf, map_replicate, length_replicate]
  rfl

namespace Framed

variable (h : Framed pattern front literal back)

include h

theorem filter_eq : pattern.filter (· ≠ percentage) = literal := by
  have hfront : front.filter (· ≠ percentage) = [] := by
    rw [filter_eq_nil_iff]
    simpa using h.front_percentage
  have hback : back.filter (· ≠ percentage) = [] := by
    rw [filter_eq_nil_iff]
    simpa using h.back_percentage
  have hliteral : literal.filter (· ≠ percentage) = literal := by
    rw [filter_eq_self]
    exact fun c hc => decide_eq_true (h.plain c hc).1
  rw [h.eq, filter_append, filter_append, hfront, hback, hliteral, nil_append, append_nil]

theorem symbolsOf_eq : symbolsOf pattern =
    replicate front.length .many ++ (literal.map .letter ++ replicate back.length .many) := by
  rw [h.eq, symbolsOf, map_append, map_append, ← symbolsOf, ← symbolsOf, ← symbolsOf,
    symbolsOf_percentages h.front_percentage, symbolsOf_percentages h.back_percentage, symbolsOf_plain h.plain,
    append_assoc]

theorem equal_iff (hfront : front = []) (hback : back = []) :
    Wildcard.Matches next (symbolsOf pattern) str ↔ StringFunction.equal.evaluate str literal = true := by
  rw [h.symbolsOf_eq, hfront, hback, StringFunction.evaluate, decide_eq_true_iff]
  simpa using matches_letters_last

theorem prefixFun_iff (hfront : front = []) (hback : back ≠ []) :
    Wildcard.Matches next (symbolsOf pattern) str ↔ StringFunction.prefixFun.evaluate str literal = true := by
  obtain ⟨k, hk⟩ : ∃ k, back.length = k + 1 := Nat.exists_eq_add_one.2 (length_pos_iff.2 hback)
  have hmany : ∀ s, Wildcard.Matches next (replicate (k + 1) .many) s := by
    intro s
    have := (@matches_many_replicate _ next s [] k).2 matches_many_last
    rwa [append_nil] at this
  rw [h.symbolsOf_eq, hfront, hk, length_nil, replicate_zero, nil_append, matches_letters,
    StringFunction.evaluate, isPrefixOf_iff_prefix]
  simp only [hmany, and_true]
  exact ⟨fun ⟨t, ht⟩ => ⟨t, ht.symm⟩, fun ⟨t, ht⟩ => ⟨t, ht.symm⟩⟩

theorem suffixFun_iff (hfront : front ≠ []) (hback : back = []) :
    Wildcard.Matches next (symbolsOf pattern) str ↔ StringFunction.suffixFun.evaluate str literal = true := by
  obtain ⟨k, hk⟩ : ∃ k, front.length = k + 1 := Nat.exists_eq_add_one.2 (length_pos_iff.2 hfront)
  rw [h.symbolsOf_eq, hback, hk, length_nil, replicate_zero, append_nil, replicate_succ,
    cons_append, matches_many_replicate, matches_many, StringFunction.evaluate, isSuffixOf_iff_suffix]
  simp only [matches_letters_last, exists_eq_right]

theorem stringContains_iff (hfront : front ≠ []) (hback : back ≠ []) :
    Wildcard.Matches next (symbolsOf pattern) str ↔ StringFunction.stringContains.evaluate str literal = true := by
  obtain ⟨k, hk⟩ : ∃ k, front.length = k + 1 := Nat.exists_eq_add_one.2 (length_pos_iff.2 hfront)
  obtain ⟨l, hl⟩ : ∃ l, back.length = l + 1 := Nat.exists_eq_add_one.2 (length_pos_iff.2 hback)
  rw [h.symbolsOf_eq, hk, hl, replicate_succ, replicate_succ, cons_append, matches_many_replicate,
    StringFunction.evaluate, @isSome_findStrInStr next, ← cons_append]
  refine matches_append_congr fun s => ?_
  have := @matches_many_replicate _ next s [] l
  rwa [append_nil] at this

end Framed

theorem framed_of_constant (h : patternIsConstant pattern = true) : Framed pattern [] pattern [] where
  eq := by simp
  front_percentage := by simp
  back_percentage := by simp
  plain := noSpecial_iff.1 h

theorem takeWhile_percentage {c : UInt8} (h : c ∈ pattern.takeWhile (· = percentage)) : c = percentage := by
  simpa using mem_takeWhile_imp h

theorem rtakeWhile_percentage {c : UInt8} (h : c ∈ pattern.rtakeWhile (· = percentage)) : c = percentage := by
  simpa using mem_rtakeWhile_imp h

theorem framed_of_prefix (h : patternIsPrefix pattern = true) :
    ∃ literal back, back ≠ [] ∧ Framed pattern [] literal back := by
  have hsplit : pattern.rdropWhile (· = percentage) ++ pattern.rtakeWhile (· = percentage) = pattern :=
    rdropWhile_append_rtakeWhile
  rw [patternIsPrefix, trailingStart] at h
  split at h
  next => cases h
  next hlen =>
    have htake : pattern.take (pattern.rdropWhile (· = percentage)).length = pattern.rdropWhile (· = percentage) :=
      (prefix_iff_eq_take.1 ⟨_, hsplit⟩).symm
    rw [htake] at h
    refine ⟨_, pattern.rtakeWhile (· = percentage), ?_, ⟨by rw [nil_append, hsplit], by simp,
      fun c => rtakeWhile_percentage, noSpecial_iff.1 h⟩⟩
    intro hnil
    rw [hnil, append_nil] at hsplit
    exact hlen (congrArg length hsplit)

theorem framed_of_suffix (h : patternIsSuffix pattern = true) :
    ∃ front literal, front ≠ [] ∧ Framed pattern front literal [] := by
  have hsplit : pattern.takeWhile (· = percentage) ++ pattern.dropWhile (· = percentage) = pattern :=
    takeWhile_append_dropWhile
  rw [patternIsSuffix, leadingEnd] at h
  split at h
  next => cases h
  next hlen =>
    have hdrop : pattern.drop (pattern.takeWhile (· = percentage)).length = pattern.dropWhile (· = percentage) := by
      have := congrArg (drop (pattern.takeWhile (· = percentage)).length) hsplit
      rw [drop_left] at this
      exact this.symm
    rw [hdrop] at h
    exact ⟨pattern.takeWhile (· = percentage), _, fun hnil => hlen (congrArg length hnil),
      ⟨by rw [append_nil, hsplit], fun c => takeWhile_percentage, by simp, noSpecial_iff.1 h⟩⟩

theorem framed_of_contains (h : patternIsContains pattern = true) (hstarts : ¬ patternIsPrefix pattern = true) :
    ∃ front literal back, front ≠ [] ∧ back ≠ [] ∧ Framed pattern front literal back := by
  have hsplit : pattern.rdropWhile (· = percentage) ++ pattern.rtakeWhile (· = percentage) = pattern :=
    rdropWhile_append_rtakeWhile
  rw [patternIsContains, leadingEnd, trailingStart] at h
  rw [patternIsPrefix, trailingStart] at hstarts
  split at h
  next => cases h
  next hends =>
    rw [not_or] at hends
    have hstop : pattern.rdropWhile (· = percentage) <+: pattern := ⟨_, hsplit⟩
    have hstart : pattern.takeWhile (· = percentage) <+: pattern := takeWhile_prefix _
    rcases Nat.le_total (pattern.takeWhile (· = percentage)).length (pattern.rdropWhile (· = percentage)).length with
      hle | hle
    · obtain ⟨literal, hliteral⟩ := prefix_of_prefix_length_le hstart hstop hle
      rw [← hliteral] at hsplit
      have hmiddle : (pattern.drop (pattern.takeWhile (· = percentage)).length).take
          ((pattern.rdropWhile (· = percentage)).length - (pattern.takeWhile (· = percentage)).length) = literal := by
        have hlen : (pattern.rdropWhile (· = percentage)).length - (pattern.takeWhile (· = percentage)).length =
            literal.length := by
          rw [← hliteral, length_append, Nat.add_sub_cancel_left]
        rw [hlen]
        have := congrArg (drop (pattern.takeWhile (· = percentage)).length) hsplit
        rw [append_assoc, drop_left] at this
        rw [← this, take_left]
      rw [hmiddle] at h
      refine ⟨_, literal, _, fun hnil => hends.1 (congrArg length hnil), ?_,
        ⟨hsplit.symm, fun c => takeWhile_percentage, fun c => rtakeWhile_percentage, noSpecial_iff.1 h⟩⟩
      intro hnil
      rw [hnil, append_nil, hliteral] at hsplit
      exact hends.2 (congrArg length hsplit)
    · exfalso
      -- everything before the trailing percentage signs is one, so nothing is
      have hnil : pattern.rdropWhile (· = percentage) = [] := by
        by_contra hne
        have hlast := rdropWhile_last_not _ _ hne
        have hmem := (prefix_of_prefix_length_le hstop hstart hle).subset (getLast_mem hne)
        exact hlast (decide_eq_true (takeWhile_percentage hmem))
      rw [hnil, if_neg (by rw [hnil] at hends; exact hends.2)] at hstarts
      exact hstarts rfl

/-- What the rule replaces a call by answers as the pattern says. -/
theorem likeOptimizationRule_spec {isNotLike : Bool} {replacement : Replacement}
    (h : likeOptimizationRule (some pattern) isNotLike = some replacement) (str : List UInt8) :
    ∃ b, replacement.evaluate str = some (isNotLike ^^ b) ∧ (b = true ↔ Wildcard.Matches next (symbolsOf pattern) str) := by
  rw [likeOptimizationRule] at h
  split at h
  next hconstant =>
    obtain rfl := Option.some.inj h
    exact ⟨_, rfl, ((framed_of_constant hconstant).equal_iff rfl rfl).symm⟩
  next =>
    split at h
    next hstarts =>
      obtain rfl := Option.some.inj h
      obtain ⟨literal, back, hback, hframed⟩ := framed_of_prefix hstarts
      rw [applyRule, hframed.filter_eq]
      exact ⟨_, rfl, (hframed.prefixFun_iff rfl hback).symm⟩
    next hstarts =>
      split at h
      next hsuffix =>
        obtain rfl := Option.some.inj h
        obtain ⟨front, literal, hfront, hframed⟩ := framed_of_suffix hsuffix
        rw [applyRule, hframed.filter_eq]
        exact ⟨_, rfl, (hframed.suffixFun_iff hfront rfl).symm⟩
      next =>
        split at h
        next hcontains =>
          obtain rfl := Option.some.inj h
          obtain ⟨front, literal, back, hfront, hback, hframed⟩ := framed_of_contains hcontains hstarts
          rw [applyRule, hframed.filter_eq]
          exact ⟨_, rfl, (hframed.stringContains_iff hfront hback).symm⟩
        next => cases h

/-! ## The three of them -/

/-- Every way to evaluate `LIKE` and `NOT LIKE` on texts meets the definition: the matcher that calls itself, the search for
segments wherever a matcher is created, and the function that the optimizer puts in its place wherever it does. -/
theorem like_implementations (pattern string : List Char) :
    (likeOperatorFunction (encode string) (encode pattern)).Decides (Like pattern string) ∧
      (∀ matcher, createLikeMatcher (encode pattern) 0 = some matcher →
        (matcher.match (encode string) = true ↔ Like pattern string)) ∧
      ∀ isNotLike replacement, likeOptimizationRule (some (encode pattern)) isNotLike = some replacement →
        ∃ b, replacement.evaluate (encode string) = some (isNotLike ^^ b) ∧ (b = true ↔ Like pattern string) := by
  have hlike : Wildcard.Matches nextCharacter (symbolsOf (encode pattern)) (encode string) ↔ Like pattern string := by
    have h := @leads_encode none (by simp) [] false pattern string
    rw [Leads, encodeSymbols_nil, List.append_nil, Option.map_none, Wildcards.parse_of_none rfl] at h
    exact (and_iff_right rfl).symm.trans (h.trans accepts_iff_like)
  refine ⟨likeOperatorFunction_decides string pattern, fun matcher hmatcher => ?_, fun isNotLike replacement h => ?_⟩
  · obtain ⟨hsegments, hsymbols⟩ := @createLikeMatcher_spec nextCharacter _ _ _ hmatcher
    exact (matcher.match_spec hsegments).trans ((hsymbols _).trans hlike)
  · obtain ⟨b, hb, hiff⟩ := @likeOptimizationRule_spec nextCharacter _ _ _ h (encode string)
    exact ⟨b, hb, hiff.trans hlike⟩

end Haybarn.Text
