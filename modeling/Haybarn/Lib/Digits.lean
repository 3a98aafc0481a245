/-
Decimal digits, the most significant first, and the number they stand for. Nothing here names a particular program.
-/
import Mathlib.Data.Nat.Digits.Lemmas

namespace Haybarn.Lib

open List Nat

/-- The number that digits stand for. -/
def number (digits : List Nat) : Nat := Nat.ofDigits 10 digits.reverse

variable {digits digits' : List Nat} {d n : Nat}

@[simp] theorem number_nil : number [] = 0 := rfl

theorem number_append : number (digits ++ digits') = number digits * 10 ^ digits'.length + number digits' := by
  rw [number, number, number, reverse_append, ofDigits_append, length_reverse]
  ring

theorem number_concat : number (digits ++ [d]) = number digits * 10 + d := by
  rw [number_append]
  simp [number]

theorem number_cons : number (d :: digits) = d * 10 ^ digits.length + number digits := by
  rw [← singleton_append, number_append]
  simp [number]

/-- Digits stand for a number with no more of them. -/
theorem number_lt (h : ∀ d ∈ digits, d < 10) : number digits < 10 ^ digits.length := by
  have := ofDigits_lt_base_pow_length (b := 10) (l := digits.reverse) (by decide) (by simpa using h)
  rwa [length_reverse] at this

/-- Leaving out the last digits is dividing. -/
theorem number_append_take (h : ∀ d ∈ digits', d < 10) (i : Nat) :
    number (digits ++ digits'.take i) = number (digits ++ digits') / 10 ^ (digits'.length - i) := by
  have hlt := @number_lt (digits'.drop i) fun d hd => h d (mem_of_mem_drop hd)
  rw [length_drop] at hlt
  have hsplit : number (digits ++ digits') =
      number (digits'.drop i) + number (digits ++ digits'.take i) * 10 ^ (digits'.length - i) := by
    conv_lhs => rw [← take_append_drop i digits', ← append_assoc, number_append, length_drop]
    rw [add_comm]
  rw [hsplit, add_mul_div_right _ _ (by positivity), div_eq_of_lt hlt, zero_add]

/-- Digits are told by their number and how many they are. -/
theorem eq_of_number_eq (h : ∀ d ∈ digits, d < 10) (h' : ∀ d ∈ digits', d < 10) (hlength : digits.length = digits'.length)
    (hnumber : number digits = number digits') : digits = digits' := by
  have := ofDigits_inj_of_len_eq (b := 10) (by decide) (by simpa using hlength) (by simpa using h) (by simpa using h')
    hnumber
  simpa using this

/-! ## The digits of a number -/

/-- The digits of a number, one for zero. -/
def decimal (n : Nat) : List Nat := if n = 0 then [0] else (Nat.digits 10 n).reverse

theorem number_decimal (n : Nat) : number (decimal n) = n := by
  rw [decimal]
  split
  next h => rw [h]; rfl
  next => rw [number, reverse_reverse, ofDigits_digits]

theorem decimal_lt : ∀ d ∈ decimal n, d < 10 := by
  intro d hd
  rw [decimal] at hd
  split at hd
  next => simp_all
  next => exact digits_lt_base (by decide) (mem_reverse.1 hd)

theorem lt_pow_length_decimal (n : Nat) : n < 10 ^ (decimal n).length := by
  have := @number_lt (decimal n) decimal_lt
  rwa [number_decimal] at this

theorem length_decimal_le {k : Nat} (hk : 0 < k) : (decimal n).length ≤ k ↔ n < 10 ^ k := by
  rw [decimal]
  split
  next h =>
    rw [h]
    simp only [length_singleton]
    exact iff_of_true hk (by positivity)
  next => rw [length_reverse, digits_length_le_iff (by decide)]

theorem length_decimal_pos (n : Nat) : 0 < (decimal n).length := by
  by_contra h
  have := lt_pow_length_decimal n
  rw [Nat.eq_zero_of_not_pos h, pow_zero] at this
  rw [show n = 0 by omega] at h
  exact h (by decide)

/-- How many digits a number has. -/
theorem length_decimal {k : Nat} (hlo : k = 0 ∨ 10 ^ k ≤ n) (hhi : n < 10 ^ (k + 1)) : (decimal n).length = k + 1 := by
  have hle := (length_decimal_le (Nat.succ_pos k)).2 hhi
  rcases Nat.eq_zero_or_pos k with rfl | hk
  · have := length_decimal_pos n
    omega
  · have := (@length_decimal_le n k hk).not.2 (by omega)
    omega

/-- The digits of a number with zeros before them. -/
def padded (k n : Nat) : List Nat := List.replicate (k - (decimal n).length) 0 ++ decimal n

theorem padded_lt {k : Nat} : ∀ d ∈ padded k n, d < 10 := by
  intro d hd
  rcases mem_append.1 hd with h | h
  · rw [eq_of_mem_replicate h]
    decide
  · exact decimal_lt d h

theorem number_padded (k n : Nat) : number (padded k n) = n := by
  have hzeros : ∀ k, number (replicate k 0) = 0 := by
    intro k
    induction k with
    | zero => rfl
    | succ k ih => rw [replicate_succ, number_cons, ih, zero_mul]
  rw [padded, number_append, hzeros, zero_mul, zero_add, number_decimal]

theorem length_padded {k : Nat} (hk : 0 < k) (h : n < 10 ^ k) : (padded k n).length = k := by
  have := (length_decimal_le hk).2 h
  rw [padded, length_append, length_replicate]
  omega

/-- The digits of a number, in two parts. -/
theorem decimal_split {k : Nat} (hk : 0 < k) (h : 10 ^ k ≤ n) : decimal n = decimal (n / 10 ^ k) ++ padded k (n % 10 ^ k) := by
  have hpos : 0 < 10 ^ k := by positivity
  have hmod := Nat.mod_lt n hpos
  have hquotient : 0 < n / 10 ^ k := Nat.div_pos h hpos
  refine eq_of_number_eq decimal_lt (fun d hd => ?_) ?_ ?_
  · rcases mem_append.1 hd with hd | hd
    · exact decimal_lt d hd
    · exact padded_lt d hd
  · obtain ⟨l, hl⟩ : ∃ l, (decimal (n / 10 ^ k)).length = l + 1 := ⟨_, (Nat.succ_pred (length_decimal_pos _).ne').symm⟩
    rw [length_append, length_padded hk hmod, hl, show l + 1 + k = l + k + 1 by ring]
    refine length_decimal (.inr ?_) ?_
    · rw [pow_add, ← Nat.le_div_iff_mul_le hpos]
      rcases Nat.eq_zero_or_pos l with rfl | hl'
      · rwa [pow_zero]
      · have := (@length_decimal_le (n / 10 ^ k) l hl').not.1 (by omega)
        omega
    · rw [show l + k + 1 = l + 1 + k by ring, pow_add, ← Nat.div_lt_iff_lt_mul hpos, ← hl]
      exact lt_pow_length_decimal _
  · rw [number_append, number_decimal, number_decimal, number_padded, length_padded hk hmod, Nat.div_add_mod']

end Haybarn.Lib
