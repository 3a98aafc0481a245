/-
Signed numbers of the machine and tables of them. A signed operation that overflows has no defined result, and neither
has an entry that a table does not have.
-/
import Mathlib.Data.Int.Basic
import Mathlib.Data.Int.DivMod
import Haybarn.Lib.Outcome
import Mathlib.Algebra.Group.Int.Defs

namespace Haybarn.Temporal

open Lib

/-! ## Ranges -/

/-- The numbers of `int32_t`. -/
def InInt32 (n : Int) : Prop := -2 ^ 31 ≤ n ∧ n < 2 ^ 31

/-- The numbers of `int64_t`. -/
def InInt64 (n : Int) : Prop := -2 ^ 63 ≤ n ∧ n < 2 ^ 63

instance (n : Int) : Decidable (InInt32 n) := inferInstanceAs (Decidable (_ ∧ _))

instance (n : Int) : Decidable (InInt64 n) := inferInstanceAs (Decidable (_ ∧ _))

theorem inInt32_toInt (v : BitVec 32) : InInt32 v.toInt := ⟨v.le_toInt, v.toInt_lt⟩

theorem inInt64_toInt (v : BitVec 64) : InInt64 v.toInt := ⟨v.le_toInt, v.toInt_lt⟩

theorem toInt_ofInt32 {n : Int} (h : InInt32 n) : (BitVec.ofInt 32 n).toInt = n :=
  BitVec.toInt_ofInt_eq_self (by decide) h.1 h.2

theorem toInt_ofInt64 {n : Int} (h : InInt64 n) : (BitVec.ofInt 64 n).toInt = n :=
  BitVec.toInt_ofInt_eq_self (by decide) h.1 h.2

/-! ## Operations -/

/-- The result of an operation on `int32_t`. -/
def int32 (n : Int) : Outcome Int := if InInt32 n then .done n else .fault

/-- The result of an operation on `int64_t`. -/
def int64 (n : Int) : Outcome Int := if InInt64 n then .done n else .fault

theorem int32_done {n : Int} (h : InInt32 n) : int32 n = .done n := if_pos h

theorem int64_done {n : Int} (h : InInt64 n) : int64 n = .done n := if_pos h

/-- An entry of a table. -/
def lookup (table : List Int) (i : Int) : Outcome Int :=
  if 0 ≤ i then
    match table[i.toNat]? with
    | some entry => .done entry
    | none => .fault
  else .fault

theorem lookup_done {table : List Int} {i entry : Int} (hi : 0 ≤ i) (h : table[i.toNat]? = some entry) :
    lookup table i = .done entry := by
  rw [lookup, if_pos hi, h]

/-! ## Truncating division -/

/-- The quotient and the remainder of a truncating division by a positive number. -/
theorem tdiv_spec (n : Int) {c : Int} (hc : 0 < c) :
    n = n.tdiv c * c + n.tmod c ∧ -c < n.tmod c ∧ n.tmod c < c ∧ (0 ≤ n → 0 ≤ n.tmod c) ∧
      (n ≤ 0 → n.tmod c ≤ 0) := by
  have hsum := Int.tdiv_mul_add_tmod n c
  refine ⟨hsum.symm, Int.lt_tmod_of_pos n hc, Int.tmod_lt_of_pos n hc, Int.tmod_nonneg c, fun h => ?_⟩
  have := Int.tmod_nonneg c (show 0 ≤ -n by omega)
  rw [Int.neg_tmod] at this
  omega

theorem tmod_eq_zero_iff (n c : Int) : n.tmod c = 0 ↔ n % c = 0 :=
  (Int.dvd_iff_tmod_eq_zero).symm.trans (Int.dvd_iff_emod_eq_zero)

end Haybarn.Temporal
