/-
Rounding a rational number to the nearest integer, ties away from zero, and the integer arithmetic that computes it for a
fraction. Nothing here names a particular program.
-/
import Mathlib.Algebra.Order.Field.Rat
import Mathlib.Algebra.Order.Floor.Defs
import Mathlib.Data.Rat.Cast.Order
import Mathlib.Tactic.FieldSimp
import Mathlib.Tactic.Linarith
import Mathlib.Tactic.Positivity
import Mathlib.Tactic.Ring

namespace Haybarn.Lib

open Nat

/-- The integer is the nearest one to the number, and of two nearest ones the one farther from zero. -/
structure RoundsTo (q : ℚ) (n : ℤ) : Prop where
  near : |q - n| ≤ 1 / 2
  tie : |q - n| = 1 / 2 → |q| < |(n : ℚ)|

variable {q : ℚ} {n m : ℤ}

theorem RoundsTo.neg (h : RoundsTo q n) : RoundsTo (-q) (-n) where
  near := by
    have := h.near
    push_cast
    rwa [show -q - -(n : ℚ) = -(q - n) by ring, abs_neg]
  tie := by
    intro htie
    push_cast at htie ⊢
    rw [show -q - -(n : ℚ) = -(q - n) by ring, abs_neg] at htie
    simpa using h.tie htie

theorem roundsTo_iff_of_nonneg (hq : 0 ≤ q) : RoundsTo q n ↔ q - 1 / 2 < n ∧ (n : ℚ) ≤ q + 1 / 2 := by
  constructor
  · rintro ⟨hnear, htie⟩
    obtain ⟨hlo, hhi⟩ := abs_le.1 hnear
    refine ⟨?_, by linarith⟩
    by_contra hle
    have hn : (n : ℚ) = q - 1 / 2 := by linarith
    have htie := htie (by rw [hn, sub_sub_cancel, abs_of_pos (by norm_num)])
    rw [abs_of_nonneg hq] at htie
    rcases lt_or_ge n 0 with hneg | hpos
    · have : (n : ℚ) ≤ -1 := by exact_mod_cast Int.le_sub_one_of_lt hneg
      linarith
    · rw [abs_of_nonneg (by exact_mod_cast hpos)] at htie
      linarith
  · rintro ⟨hlo, hhi⟩
    refine ⟨abs_le.2 ⟨by linarith, by linarith⟩, fun htie => ?_⟩
    rcases abs_cases (q - n) with ⟨heq, -⟩ | ⟨heq, -⟩
    · linarith
    · rw [abs_of_nonneg hq]
      exact lt_of_lt_of_le (by linarith) (le_abs_self (n : ℚ))

theorem RoundsTo.unique (h : RoundsTo q n) (h' : RoundsTo q m) : n = m := by
  have hnonneg : ∀ {q : ℚ} {n m : ℤ}, 0 ≤ q → RoundsTo q n → RoundsTo q m → n = m := by
    intro q n m hq h h'
    rw [roundsTo_iff_of_nonneg hq] at h h'
    have h1 : n < m + 1 := by
      have : (n : ℚ) < m + 1 := by linarith
      exact_mod_cast this
    have h2 : m < n + 1 := by
      have : (m : ℚ) < n + 1 := by linarith
      exact_mod_cast this
    omega
  rcases le_total 0 q with hq | hq
  · exact hnonneg hq h h'
  · exact neg_inj.1 (hnonneg (neg_nonneg.2 hq) h.neg h'.neg)

/-- An integer is rounded already. -/
theorem roundsTo_intCast (n : ℤ) : RoundsTo n n where
  near := by simp
  tie := by
    rw [sub_self, abs_zero]
    norm_num

/-! ## Fractions -/

/-- A fraction rounded to the nearest integer, one half up. -/
def halfUp (a d : ℕ) : ℕ := (2 * a + d) / (2 * d)

variable {d : ℕ}

theorem roundsTo_halfUp (a : ℕ) (hd : 0 < d) : RoundsTo ((a : ℚ) / d) (halfUp a d : ℤ) := by
  have hd' : (0 : ℚ) < d := by exact_mod_cast hd
  have hle : halfUp a d * (2 * d) ≤ 2 * a + d := div_mul_le_self _ _
  have hlt : 2 * a + d < (halfUp a d + 1) * (2 * d) := by
    rw [mul_comm (halfUp a d + 1)]
    exact lt_mul_div_succ (2 * a + d) (by omega)
  rw [roundsTo_iff_of_nonneg (by positivity), Int.cast_natCast]
  have hle' : (halfUp a d : ℚ) * (2 * d) ≤ 2 * a + d := by exact_mod_cast hle
  have hlt' : 2 * (a : ℚ) + d < (halfUp a d + 1) * (2 * d) := by exact_mod_cast hlt
  constructor
  · rw [sub_lt_iff_lt_add, div_lt_iff₀ hd']
    linarith
  · rw [← sub_le_iff_le_add, le_div_iff₀ hd']
    linarith

@[simp] theorem halfUp_one (a : ℕ) : halfUp a 1 = a := by
  unfold halfUp
  omega

theorem halfUp_mul_right (a d : ℕ) {c : ℕ} (hc : 0 < c) : halfUp (a * c) (d * c) = halfUp a d := by
  rw [halfUp, halfUp, show 2 * (a * c) + d * c = (2 * a + d) * c by ring, show 2 * (d * c) = 2 * d * c by ring,
    Nat.mul_div_mul_right _ _ hc]

theorem halfUp_le (a : ℕ) (hd : 0 < d) : halfUp a d ≤ a / d + 1 := by
  have hlt := lt_mul_div_succ a hd
  rw [halfUp, div_le_iff_le_mul_add_pred (by omega)]
  have hsplit : 2 * d * (a / d + 1) = 2 * (d * (a / d + 1)) := by ring
  rw [hsplit]
  omega

theorem div_le_halfUp (a : ℕ) (hd : 0 < d) : a / d ≤ halfUp a d := by
  rw [halfUp, le_div_iff_mul_le (by omega)]
  calc a / d * (2 * d) = 2 * (a / d * d) := by ring
    _ ≤ 2 * a := mul_le_mul_left 2 (div_mul_le_self a d)
    _ ≤ _ := le_add_right _ _

theorem halfUp_add_mul (a b : ℕ) (hd : 0 < d) : halfUp (a + b * d) d = halfUp a d + b := by
  rw [halfUp, halfUp, show 2 * (a + b * d) + d = 2 * a + d + b * (2 * d) by ring,
    add_mul_div_right _ _ (by omega)]

theorem halfUp_eq_zero_iff {a : ℕ} (hd : 0 < d) : halfUp a d = 0 ↔ 2 * a < d := by
  rw [halfUp, Nat.div_eq_zero_iff]
  omega

/-- A fraction is rounded down if less than one half of its denominator is left, and only then. -/
theorem halfUp_eq_div_iff {a : ℕ} (hd : 0 < d) : halfUp a d = a / d ↔ 2 * (a % d) < d := by
  have hsplit : halfUp a d = halfUp (a % d) d + a / d := by
    rw [← halfUp_add_mul _ _ hd, mod_add_div']
  rw [hsplit, add_eq_right, halfUp_eq_zero_iff hd]

/-- What is dropped before rounding to an even part changes nothing. -/
theorem halfUp_div (a : ℕ) {b : ℕ} (hb : 0 < b) (d : ℕ) : halfUp (a / b) (2 * d) = halfUp a (b * (2 * d)) := by
  have hinner : 2 * (a / b) + 2 * d = 2 * ((a + b * d) / b) := by
    rw [Nat.add_mul_div_left _ _ hb]
    ring
  have houter : 2 * a + b * (2 * d) = 2 * (a + b * d) := by ring
  rw [halfUp, halfUp, hinner, houter, Nat.mul_div_mul_left _ _ (by decide), Nat.mul_div_mul_left _ _ (by decide),
    Nat.div_div_eq_div_mul]

/-- A fraction is rounded by its magnitude, with the sign put back. -/
theorem roundsTo_div (n : ℤ) (hd : 0 < d) : RoundsTo ((n : ℚ) / d) (n.sign * halfUp n.natAbs d) := by
  rcases le_total 0 n with hn | hn
  · obtain ⟨a, rfl⟩ := Int.eq_ofNat_of_zero_le hn
    rcases Nat.eq_zero_or_pos a with rfl | ha
    · have : halfUp 0 d = 0 := Nat.div_eq_of_lt (by omega)
      simpa [this] using roundsTo_halfUp 0 hd
    · simpa [Int.sign_eq_one_of_pos (show (0 : ℤ) < a by omega)] using roundsTo_halfUp a hd
  · obtain ⟨a, ha⟩ := Int.eq_ofNat_of_zero_le (neg_nonneg.2 hn)
    obtain rfl : n = -(a : ℤ) := by omega
    rcases Nat.eq_zero_or_pos a with rfl | ha
    · have : halfUp 0 d = 0 := Nat.div_eq_of_lt (by omega)
      simpa [this] using roundsTo_halfUp 0 hd
    · have := (roundsTo_halfUp a hd).neg
      simpa [Int.sign_eq_one_of_pos (show (0 : ℤ) < a by omega), neg_div] using this

end Haybarn.Lib
