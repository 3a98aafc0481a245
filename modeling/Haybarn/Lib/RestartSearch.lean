/-
Search for a word in a text with one counter of the letters matched so far, where a mismatch sets the counter back to zero
and goes on behind it. Such a search compares the word at some places of the text only, its attempts: the first place, and
the place behind the mismatch that ended the attempt before. It finds the word exactly when the word stands at an attempt.
-/
import Mathlib.Data.List.Infix
import Mathlib.Data.Nat.Find

namespace Haybarn.Lib.RestartSearch

open List

variable {α : Type} {word text : List α} {p q k : Nat}

/-- The word stands in the text at place `i`. -/
def OccursAt (word text : List α) (i : Nat) : Prop := word <+: text.drop i

/-- Place `i` is the first one at which the word stands. -/
def IsFirst (word text : List α) (i : Nat) : Prop := OccursAt word text i ∧ ∀ j < i, ¬ OccursAt word text j

instance [DecidableEq α] (i : Nat) : Decidable (OccursAt word text i) := inferInstanceAs (Decidable (_ <+: _))

instance [DecidableEq α] (i : Nat) : Decidable (IsFirst word text i) := inferInstanceAs (Decidable (_ ∧ _))

/-- The places at which the search begins to compare the word. -/
inductive Attempt (word text : List α) : Nat → Prop
  | first : Attempt word text 0
  /-- The attempt at `p` matches `k` letters and then meets another letter than the word's. -/
  | restart {p k : Nat} {letter : α} (before : Attempt word text p) (short : k < word.length)
      (matched : word.take k <+: text.drop p) (here : text[p + k]? = some letter) (mismatch : word[k]? ≠ some letter) :
      Attempt word text (p + k + 1)

/-- The search over the rest of the text, with the place it begins at and the letters matched before it. -/
def scan [DecidableEq α] (word : List α) : List α → Nat → Nat → Option Nat
  | [], _, _ => none
  | letter :: rest, place, matched =>
    if word[matched]? = some letter then
      if matched + 1 = word.length then some (place + 1 - word.length) else scan word rest (place + 1) (matched + 1)
    else scan word rest (place + 1) 0

theorem drop_of_getElem? {text : List α} {i : Nat} {letter : α} (h : text[i]? = some letter) :
    text.drop i = letter :: text.drop (i + 1) := by
  obtain ⟨hi, rfl⟩ := List.getElem?_eq_some_iff.1 h
  exact List.drop_eq_getElem_cons hi

/-- The letters matched are the word's next ones: one more of them is matched by the next letter of the text. -/
theorem take_succ_isPrefix_iff {letter : α} (hk : k < word.length) (hmatched : word.take k <+: text.drop p)
    (hhere : text[p + k]? = some letter) : word.take (k + 1) <+: text.drop p ↔ word[k]? = some letter := by
  obtain ⟨rest, hrest⟩ := hmatched
  have hlen : (word.take k).length = k := length_take_of_le (Nat.le_of_lt hk)
  have hnext : rest[0]? = some letter := by
    have : (text.drop p)[k]? = some letter := by rwa [getElem?_drop]
    rw [← hrest, getElem?_append_right (by omega), hlen, Nat.sub_self] at this
    exact this
  obtain _ | ⟨next, rest⟩ := rest
  · cases hnext
  obtain rfl : next = letter := by simpa using hnext
  rw [take_succ_eq_append_getElem hk, ← hrest, prefix_append_right_inj, getElem?_eq_getElem hk]
  simp [cons_prefix_cons]

variable [DecidableEq α]

/-- An attempt that matches `k` letters short of the word brings the search to the place behind them. -/
theorem scan_matched (hk : k < word.length) (hmatched : word.take k <+: text.drop p) :
    scan word (text.drop p) p 0 = scan word (text.drop (p + k)) (p + k) k := by
  induction k with
  | zero => rfl
  | succ k ih =>
    have htake : word.take k <+: word.take (k + 1) := take_prefix_take_left (Nat.le_succ k)
    rw [ih (by omega) (htake.trans hmatched)]
    have hlen := hmatched.length_le
    rw [length_take_of_le (by omega), length_drop] at hlen
    have hhere : text[p + k]? = some (text.get ⟨p + k, by omega⟩) := getElem?_eq_getElem (by omega)
    have hsame := (take_succ_isPrefix_iff (by omega) (htake.trans hmatched) hhere).1 hmatched
    rw [drop_of_getElem? hhere, scan, if_pos hsame, if_neg (by omega), Nat.add_assoc]

/-- The search comes to each of its attempts with no letter matched. -/
theorem scan_attempt (h : Attempt word text p) : scan word text 0 0 = scan word (text.drop p) p 0 := by
  induction h with
  | first => rfl
  | restart _ hshort hmatched hhere hmismatch ih =>
    rw [ih, scan_matched hshort hmatched, drop_of_getElem? hhere, scan, if_neg hmismatch]

/-- What the search finds from an attempt on is the word at an attempt. -/
theorem attempt_of_scan {rest : List α} :
    ∀ {p k : Nat}, Attempt word text p → k < word.length → word.take k <+: text.drop p → text.drop (p + k) = rest →
      scan word rest (p + k) k = some q → Attempt word text q ∧ OccursAt word text q := by
  induction rest with
  | nil => rintro p k _ _ _ _ ⟨⟩
  | cons letter rest ih =>
    intro p k hattempt hk hmatched hrest hscan
    have hhere : text[p + k]? = some letter := by
      have := congrArg (·[0]?) hrest
      simpa using this
    have hnext : text.drop (p + k + 1) = rest := by
      have := drop_of_getElem? hhere
      rw [hrest] at this
      exact (cons.inj this).2.symm
    rw [scan] at hscan
    by_cases hsame : word[k]? = some letter
    · rw [if_pos hsame] at hscan
      have hmatched' := (take_succ_isPrefix_iff hk hmatched hhere).2 hsame
      by_cases hend : k + 1 = word.length
      · rw [if_pos hend] at hscan
        obtain rfl : p = q := by
          have := Option.some.inj hscan
          omega
        rw [hend, take_length] at hmatched'
        exact ⟨hattempt, hmatched'⟩
      · rw [if_neg hend] at hscan
        exact ih hattempt (by omega) hmatched' hnext hscan
    · rw [if_neg hsame] at hscan
      have hrestart : Attempt word text (p + k + 1) := .restart hattempt hk hmatched hhere hsame
      exact ih hrestart (Nat.zero_lt_of_lt hk) (by simp) hnext hscan

/-- The search finds the word at place `p` exactly when it makes an attempt there and the word stands there. -/
theorem scan_eq_some_iff (hword : word ≠ []) :
    scan word text 0 0 = some p ↔ Attempt word text p ∧ OccursAt word text p := by
  have hpos : 0 < word.length := length_pos_iff.2 hword
  constructor
  · exact attempt_of_scan .first hpos nil_prefix rfl
  · rintro ⟨hattempt, hoccurs⟩
    obtain ⟨k, hk⟩ : ∃ k, k + 1 = word.length := ⟨word.length - 1, by omega⟩
    have htake : word.take k <+: text.drop p := ( take_prefix k word).trans hoccurs
    have hlen := hoccurs.length_le
    rw [length_drop] at hlen
    have hhere : text[p + k]? = some (text.get ⟨p + k, by omega⟩) := getElem?_eq_getElem (by omega)
    have hsame := (take_succ_isPrefix_iff (by omega) htake hhere).1 (by rwa [hk, take_length])
    rw [scan_attempt hattempt, scan_matched (by omega) htake, drop_of_getElem? hhere, scan, if_pos hsame, if_pos hk]
    congr 1
    omega

/-- An answer to a search: one more than the first place at which the word stands, or zero when it stands nowhere. -/
structure IsPosition (word text : List α) (answer : Nat) : Prop where
  of_isFirst : ∀ i, IsFirst word text i → answer = i + 1
  zero_iff : answer = 0 ↔ ∀ i, ¬ OccursAt word text i

theorem exists_isFirst (h : OccursAt word text p) : ∃ i ≤ p, IsFirst word text i := by
  have hex : ∃ i, OccursAt word text i := ⟨p, h⟩
  exact ⟨Nat.find hex, Nat.find_min' hex h, Nat.find_spec hex, fun j hj => Nat.find_min hex hj⟩

/-- The answer of the search, counted from one, is right exactly when the search makes an attempt at the first place at
which the word stands, if there is one. -/
theorem isPosition_scan_iff (hword : word ≠ []) :
    IsPosition word text (((scan word text 0 0).map (· + 1)).getD 0) ↔
      ∀ i, IsFirst word text i → Attempt word text i := by
  constructor
  · intro h i hi
    have hanswer := h.of_isFirst i hi
    cases hscan : scan word text 0 0 with
    | none => simp [hscan] at hanswer
    | some p =>
      obtain rfl : p = i := by simpa [hscan] using hanswer
      exact ((scan_eq_some_iff hword).1 hscan).1
  · intro h
    cases hscan : scan word text 0 0 with
    | none =>
      have hnowhere : ∀ i, ¬ OccursAt word text i := by
        intro i hi
        obtain ⟨j, -, hj⟩ := exists_isFirst hi
        have := (scan_eq_some_iff hword).2 ⟨h j hj, hj.1⟩
        rw [hscan] at this
        cases this
      exact ⟨fun i hi => absurd hi.1 (hnowhere i), by simpa using hnowhere⟩
    | some p =>
      have hfound := (scan_eq_some_iff hword).1 hscan
      refine ⟨fun i hi => ?_, by simpa using ⟨p, hfound.2⟩⟩
      have hi' := (scan_eq_some_iff hword).2 ⟨h i hi, hi.1⟩
      rw [hscan] at hi'
      simpa using hi'

end Haybarn.Lib.RestartSearch
