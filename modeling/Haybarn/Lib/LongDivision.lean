/-
Long division bit by bit: a quotient and a remainder of the bits above a position, moved down by one position at a
time. Nothing here names a particular program.
-/
import Mathlib.Data.Nat.Bits
import Mathlib.Algebra.Group.Nat.Defs

namespace Haybarn.Lib

/-- `q` and `r` are the quotient and the remainder of the bits of `n` from `x` on. -/
structure LongDivision (n d x q r : Nat) : Prop where
  divides : q * d + r = n / 2 ^ x
  lt : r < d

namespace LongDivision

variable {n d x q r : Nat}

/-- Above the highest bit there is nothing to divide. -/
theorem start (hd : 0 < d) (h : n < 2 ^ x) : LongDivision n d x 0 0 where
  divides := by rw [Nat.div_eq_of_lt h, Nat.zero_mul]
  lt := hd

/-- The next bit of `n`. -/
theorem div_two_pow (n x : Nat) : n / 2 ^ x = 2 * (n / 2 ^ (x + 1)) + (n.testBit x).toNat := by
  have hbit : (n.testBit x).toNat = n / 2 ^ x % 2 := by
    rw [Nat.testBit_eq_decide_div_mod_eq]
    rcases Nat.mod_two_eq_zero_or_one (n / 2 ^ x) with h | h <;> rw [h] <;> rfl
  have hhalf : n / 2 ^ (x + 1) = n / 2 ^ x / 2 := by
    rw [Nat.pow_succ, Nat.div_div_eq_div_mul]
  omega

/-- The remainder is large enough to divide once more. -/
theorem restore (h : LongDivision n d (x + 1) q r) (hge : d ≤ 2 * r + (n.testBit x).toNat) :
    LongDivision n d x (2 * q + 1) (2 * r + (n.testBit x).toNat - d) where
  divides := by
    have := h.divides
    rw [div_two_pow, ← this, Nat.add_mul, Nat.mul_assoc]
    omega
  lt := by
    have := h.lt
    have := (n.testBit x).toNat_le
    omega

/-- The remainder is too small. -/
theorem keep (h : LongDivision n d (x + 1) q r) (hlt : 2 * r + (n.testBit x).toNat < d) :
    LongDivision n d x (2 * q) (2 * r + (n.testBit x).toNat) where
  divides := by
    rw [div_two_pow, ← h.divides, Nat.mul_assoc]
    omega
  lt := hlt

/-- What has been consumed bounds the quotient and the remainder. -/
theorem le (h : LongDivision n d x q r) : q ≤ n / 2 ^ x ∧ r ≤ n / 2 ^ x := by
  have := h.divides
  have hd : 0 < d := Nat.lt_of_le_of_lt (Nat.zero_le r) h.lt
  have := Nat.le_mul_of_pos_right q hd
  omega

/-- All bits are consumed. -/
theorem result (h : LongDivision n d 0 q r) : q = n / d ∧ r = n % d := by
  have hn : n = q * d + r := by simpa using h.divides.symm
  have hd : 0 < d := Nat.lt_of_le_of_lt (Nat.zero_le r) h.lt
  constructor
  · rw [hn, Nat.add_comm, Nat.add_mul_div_right _ _ hd, Nat.div_eq_of_lt h.lt, Nat.zero_add]
  · rw [hn, Nat.add_comm, Nat.add_mul_mod_self_right, Nat.mod_eq_of_lt h.lt]

end LongDivision

end Haybarn.Lib
