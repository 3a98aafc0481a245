/-
Patterns with wildcards: how they are read from a sequence of letters, where an escape makes the next letter stand for
itself, and which sequences they match. Nothing here names a particular program.
-/
import Mathlib.Data.List.Basic

namespace Haybarn.Lib.Wildcard

open List

/-- A part of a pattern: any sequence, any one element, or a letter. -/
inductive Symbol (α : Type) where
  | many
  | one
  | letter (a : α)
  deriving DecidableEq

variable {α : Type} {next : List α → List α} {a : α} {letters s t : List α} {x : Symbol α} {p q front : List (Symbol α)}

/-! ## Matching -/

/-- The pattern matches the sequence. With the one element that it lets be anything goes what `next` drops behind it. -/
def Matches (next : List α → List α) : List (Symbol α) → List α → Prop
  | [], s => s = []
  | .many :: p, s => ∃ t, t <:+ s ∧ Matches next p t
  | .one :: p, s => ∃ a t, s = a :: t ∧ Matches next p (next t)
  | .letter a :: p, s => ∃ t, s = a :: t ∧ Matches next p t

@[simp] theorem matches_nil : Matches next [] s ↔ s = [] := Iff.rfl

theorem matches_many : Matches next (.many :: p) s ↔ ∃ t, t <:+ s ∧ Matches next p t := Iff.rfl

@[simp] theorem matches_one_nil : ¬ Matches next (.one :: p) [] := by
  rintro ⟨_, _, ⟨⟩, _⟩

@[simp] theorem matches_one_cons : Matches next (.one :: p) (a :: s) ↔ Matches next p (next s) := by
  constructor
  · rintro ⟨_, _, ⟨⟩, h⟩
    exact h
  · intro h
    exact ⟨a, s, rfl, h⟩

@[simp] theorem matches_letter_nil : ¬ Matches next (.letter a :: p) [] := by
  rintro ⟨_, ⟨⟩, _⟩

@[simp] theorem matches_letter_cons {b : α} : Matches next (.letter a :: p) (b :: s) ↔ b = a ∧ Matches next p s := by
  constructor
  · rintro ⟨_, ⟨⟩, h⟩
    exact ⟨rfl, h⟩
  · rintro ⟨rfl, h⟩
    exact ⟨s, rfl, h⟩

/-- What matches behind any sequence also matches with more before it. -/
theorem Matches.of_suffix (h : Matches next (.many :: p) t) (ht : t <:+ s) : Matches next (.many :: p) s := by
  obtain ⟨u, hu, h⟩ := h
  exact ⟨u, hu.trans ht, h⟩

@[simp] theorem matches_many_many : Matches next (.many :: .many :: p) s ↔ Matches next (.many :: p) s := by
  constructor
  · rintro ⟨t, ht, h⟩
    exact h.of_suffix ht
  · intro h
    exact ⟨s, suffix_rfl, h⟩

theorem matches_many_replicate {k : Nat} :
    Matches next (.many :: (replicate k .many ++ p)) s ↔ Matches next (.many :: p) s := by
  induction k with
  | zero => rfl
  | succ k ih => rw [replicate_succ, cons_append, matches_many_many, ih]

@[simp] theorem matches_many_last : Matches next [.many] s := ⟨[], nil_suffix, rfl⟩

/-- Letters match themselves. -/
theorem matches_letters : Matches next (letters.map .letter ++ p) s ↔ ∃ t, s = letters ++ t ∧ Matches next p t := by
  induction letters generalizing s with
  | nil => simp
  | cons a letters ih =>
    cases s with
    | nil => simp
    | cons b s => simp [ih, and_assoc]

theorem matches_letters_last : Matches next (letters.map .letter) s ↔ s = letters := by
  have h : Matches next (letters.map .letter ++ []) s ↔ ∃ t, s = letters ++ t ∧ Matches next [] t := matches_letters
  simpa using h

/-- Equal rests may be exchanged. -/
theorem matches_append_congr (h : ∀ s, Matches next p s ↔ Matches next q s) :
    Matches next (front ++ p) s ↔ Matches next (front ++ q) s := by
  induction front generalizing s with
  | nil => exact h s
  | cons x front ih =>
    cases x with
    | many => simp only [cons_append, matches_many, ih]
    | one => cases s <;> simp [ih]
    | letter a => cases s <;> simp [ih]

/-- Only patterns of wildcards for any sequence match the empty one. -/
theorem matches_empty : Matches next p [] ↔ ∀ x ∈ p, x = .many := by
  induction p with
  | nil => simp
  | cons x p ih =>
    cases x with
    | many => simp [matches_many, ih]
    | one => simp
    | letter a => simp

/-! ## Reading a pattern -/

/-- The letters with a meaning of their own. -/
structure Wildcards (α : Type) where
  many : α
  one : α
  escape : Option α

variable [DecidableEq α]

/-- The symbol of a letter that is not an escape. -/
def Wildcards.symbol (w : Wildcards α) (a : α) : Symbol α :=
  if a = w.one then .one else if a = w.many then .many else .letter a

/-- The symbols of a pattern, and whether it ends in an escape with no letter behind it. -/
def Wildcards.parse (w : Wildcards α) : List α → List (Symbol α) × Bool
  | [] => ([], false)
  | a :: p =>
    if w.escape = some a then
      match p with
      | [] => ([], true)
      | b :: p => (.letter b :: (w.parse p).1, (w.parse p).2)
    else (w.symbol a :: (w.parse p).1, (w.parse p).2)

variable {w : Wildcards α} {pattern : List α}

theorem Wildcards.symbol_one : w.symbol w.one = .one := if_pos rfl

theorem Wildcards.symbol_many (h : w.many ≠ w.one) : w.symbol w.many = .many := by
  simp [Wildcards.symbol, h]

theorem Wildcards.symbol_letter (hone : a ≠ w.one) (hmany : a ≠ w.many) : w.symbol a = .letter a := by
  simp [Wildcards.symbol, hone, hmany]

@[simp] theorem Wildcards.parse_nil : w.parse [] = ([], false) := rfl

theorem Wildcards.parse_escape {b : α} (h : w.escape = some a) :
    w.parse (a :: b :: pattern) = (.letter b :: (w.parse pattern).1, (w.parse pattern).2) := by
  rw [Wildcards.parse, if_pos h]

theorem Wildcards.parse_dangling (h : w.escape = some a) : w.parse [a] = ([], true) := by
  rw [Wildcards.parse, if_pos h]

theorem Wildcards.parse_cons (h : w.escape ≠ some a) :
    w.parse (a :: pattern) = (w.symbol a :: (w.parse pattern).1, (w.parse pattern).2) := by
  cases pattern <;> simp [Wildcards.parse, h]

/-- The letter has no meaning of its own. -/
def Wildcards.Plain (w : Wildcards α) (a : α) : Prop := w.escape ≠ some a ∧ a ≠ w.one ∧ a ≠ w.many

/-- Letters with no meaning of their own stand for themselves. -/
theorem Wildcards.parse_plain (h : ∀ a ∈ letters, w.Plain a) :
    w.parse (letters ++ pattern) = (letters.map .letter ++ (w.parse pattern).1, (w.parse pattern).2) := by
  induction letters with
  | nil => rfl
  | cons a letters ih =>
    obtain ⟨hescape, hone, hmany⟩ := h a (by simp)
    rw [cons_append, Wildcards.parse_cons hescape, ih fun b hb => h b (by simp [hb])]
    rw [Wildcards.symbol_letter hone hmany]
    rfl

/-- Where the escape does not occur, every letter is read by itself. -/
theorem Wildcards.parse_of_not_mem (h : ∀ a ∈ pattern, w.escape ≠ some a) :
    w.parse pattern = (pattern.map w.symbol, false) := by
  induction pattern with
  | nil => rfl
  | cons a pattern ih =>
    rw [Wildcards.parse_cons (h a (by simp)), ih fun b hb => h b (by simp [hb])]
    rfl

/-- Without an escape every letter is read by itself. -/
theorem Wildcards.parse_of_none (h : w.escape = none) : w.parse pattern = (pattern.map w.symbol, false) :=
  Wildcards.parse_of_not_mem (by simp [h])

/-- Wildcards for any sequence at the front of a pattern are read as such. -/
theorem Wildcards.parse_dropWhile (hescape : w.escape ≠ some w.many) (hone : w.many ≠ w.one) :
    ∃ k, w.parse pattern = (replicate k .many ++ (w.parse (pattern.dropWhile (· = w.many))).1,
      (w.parse (pattern.dropWhile (· = w.many))).2) := by
  induction pattern with
  | nil => exact ⟨0, rfl⟩
  | cons a pattern ih =>
    by_cases ha : a = w.many
    · obtain ⟨k, hk⟩ := ih
      subst ha
      refine ⟨k + 1, ?_⟩
      rw [Wildcards.parse_cons hescape, dropWhile_cons_of_pos (by simp), hk]
      simp [Wildcards.symbol_many hone, replicate_succ]
    · refine ⟨0, ?_⟩
      rw [dropWhile_cons_of_neg (by simpa using ha)]
      rfl

/-! ## Matching what was read -/

/-- The pattern ends with the flag, and its symbols match with some more behind them. -/
def Leads (next : List α → List α) (last : List (Symbol α)) (flag : Bool) (reading : List (Symbol α) × Bool)
    (s : List α) : Prop :=
  reading.2 = flag ∧ Matches next (reading.1 ++ last) s

/-- The pattern matches: it does not end in an escape, and its symbols match. -/
def Accepts (next : List α → List α) : List (Symbol α) × Bool → List α → Prop := Leads next [] false

/-- The pattern ends in an escape, which a way to match it reaches before the end of the sequence. -/
def Stuck (next : List α → List α) : List (Symbol α) × Bool → List α → Prop := Leads next [.one, .many] true

variable {last : List (Symbol α)} {flag : Bool} {reading : List (Symbol α) × Bool}

omit [DecidableEq α] in
theorem not_accepts_of_stuck {t : List α} (h : Stuck next reading s) : ¬ Accepts next reading t := by
  intro h'
  exact absurd (h.1.symm.trans h'.1) (by decide)

omit [DecidableEq α] in
theorem not_stuck_nil : ¬ Stuck next reading [] := by
  rintro ⟨-, h⟩
  simpa using matches_empty.1 h .one

theorem leads_many (hescape : w.escape ≠ some w.many) (hone : w.many ≠ w.one) :
    Leads next last flag (w.parse (w.many :: pattern)) s ↔
      ∃ t, t <:+ s ∧ Leads next last flag (w.parse (pattern.dropWhile (· = w.many))) t := by
  obtain ⟨k, hk⟩ := @Wildcards.parse_dropWhile _ _ w pattern hescape hone
  rw [Wildcards.parse_cons hescape, hk, Wildcards.symbol_many hone]
  simp only [Leads, cons_append, append_assoc, matches_many_replicate]
  rw [matches_many]
  constructor
  · rintro ⟨hflag, t, ht, h⟩
    exact ⟨t, ht, hflag, h⟩
  · rintro ⟨t, ht, hflag, h⟩
    exact ⟨hflag, t, ht, h⟩

theorem leads_one (h : w.escape ≠ some w.one) :
    Leads next last flag (w.parse (w.one :: pattern)) (a :: s) ↔ Leads next last flag (w.parse pattern) (next s) := by
  rw [Wildcards.parse_cons h, Wildcards.symbol_one]
  simp [Leads]

theorem leads_letter {b : α} (h : w.Plain a) :
    Leads next last flag (w.parse (a :: pattern)) (b :: s) ↔ b = a ∧ Leads next last flag (w.parse pattern) s := by
  rw [Wildcards.parse_cons h.1, Wildcards.symbol_letter h.2.1 h.2.2]
  simp [Leads, and_left_comm]

theorem leads_escape {b c : α} (h : w.escape = some a) :
    Leads next last flag (w.parse (a :: b :: pattern)) (c :: s) ↔ c = b ∧ Leads next last flag (w.parse pattern) s := by
  rw [Wildcards.parse_escape h]
  simp [Leads, and_left_comm]

theorem stuck_dangling (h : w.escape = some a) {b : α} : Stuck next (w.parse [a]) (b :: s) := by
  rw [Wildcards.parse_dangling h]
  exact ⟨rfl, by simp⟩

/-- Only wildcards for any sequence match the empty one. -/
theorem accepts_nil (hescape : w.escape ≠ some w.many) (hone : w.many ≠ w.one) :
    Accepts next (w.parse pattern) [] ↔ ∀ a ∈ pattern, a = w.many := by
  induction pattern with
  | nil => simp [Accepts, Leads]
  | cons a pattern ih =>
    by_cases ha : a = w.many
    · subst ha
      rw [Wildcards.parse_cons hescape, Wildcards.symbol_many hone]
      simpa [Accepts, Leads, matches_many] using ih
    · refine iff_of_false ?_ fun h => ha (h a (by simp))
      rintro ⟨hflag, h⟩
      rw [append_nil, matches_empty] at h
      by_cases hescape : w.escape = some a
      · cases pattern with
        | nil => simp [Wildcards.parse_dangling hescape] at hflag
        | cons b pattern => simpa using h (.letter b) (by simp [Wildcards.parse_escape hescape])
      · rw [Wildcards.parse_cons hescape] at h
        have := h (w.symbol a) (by simp)
        simp only [Wildcards.symbol, ha, if_false] at this
        split at this <;> cases this

end Haybarn.Lib.Wildcard
