/-
Numbers made of bits: values of a width packed next to each other, bits put above a number, and all bits turned over.
Nothing here names a particular program.
-/
import Mathlib.Tactic.Ring

namespace Haybarn.Lib

open Nat

/-! ## Packing -/

/-- Values of a width, the first in the lowest bits. -/
def packBits (width : Nat) : List Nat → Nat
  | [] => 0
  | v :: vs => v % 2 ^ width + 2 ^ width * packBits width vs

theorem packBits_lt (width : Nat) : ∀ vs, packBits width vs < 2 ^ (width * vs.length)
  | [] => Nat.one_pos
  | v :: vs => by
    have hlow := Nat.mod_lt v (Nat.two_pow_pos width)
    have hhigh := Nat.mul_le_mul_left (2 ^ width) (packBits_lt width vs)
    rw [packBits, List.length_cons, Nat.mul_succ, Nat.add_comm (width * vs.length), Nat.pow_add]
    rw [Nat.mul_succ] at hhigh
    omega

theorem packBits_get (width : Nat) : ∀ (vs : List Nat) (i v : Nat), vs[i]? = some v →
    packBits width vs / 2 ^ (width * i) % 2 ^ width = v % 2 ^ width
  | v :: vs, 0, u, hu => by
    obtain rfl := Option.some.inj hu
    rw [Nat.mul_zero, Nat.pow_zero, Nat.div_one, packBits, Nat.add_mul_mod_self_left, Nat.mod_mod]
  | v :: vs, i + 1, u, hu => by
    have hlow := Nat.mod_lt v (Nat.two_pow_pos width)
    rw [Nat.mul_succ, Nat.add_comm, Nat.pow_add, ← Nat.div_div_eq_div_mul, packBits,
      Nat.add_mul_div_left _ _ (Nat.two_pow_pos width), Nat.div_eq_of_lt hlow, Nat.zero_add]
    exact packBits_get width vs i u hu

theorem packBits_append (width : Nat) : ∀ vs us,
    packBits width (vs ++ us) = packBits width vs + 2 ^ (width * vs.length) * packBits width us
  | [], us => by rw [List.nil_append, packBits, List.length_nil, mul_zero, pow_zero, one_mul, zero_add]
  | v :: vs, us => by
    rw [List.cons_append, packBits, packBits, packBits_append width vs us, List.length_cons]
    ring

/-! ## Single operations -/

/-- Bits that go above the result add to it. -/
theorem or_shiftLeft_mod {bits result shift n : Nat} (hr : result < 2 ^ shift) (hs : shift < bits) :
    result ||| n <<< shift % 2 ^ bits = (result + 2 ^ shift * n) % 2 ^ bits := by
  obtain ⟨k, rfl⟩ := Nat.exists_eq_add_of_lt hs
  have hpow : 2 ^ (shift + k + 1) = 2 ^ shift * 2 ^ (k + 1) := by rw [← Nat.pow_add, Nat.add_assoc]
  have hmod : n <<< shift % 2 ^ (shift + k + 1) = 2 ^ shift * (n % 2 ^ (k + 1)) := by
    rw [Nat.shiftLeft_eq, Nat.mul_comm, hpow, Nat.mul_mod_mul_left]
  have hsum : (result + 2 ^ shift * n) % 2 ^ (shift + k + 1) = result + 2 ^ shift * (n % 2 ^ (k + 1)) := by
    have hlt : result + 2 ^ shift * (n % 2 ^ (k + 1)) < 2 ^ (shift + k + 1) := by
      have hn : n % 2 ^ (k + 1) + 1 ≤ 2 ^ (k + 1) := Nat.mod_lt n (Nat.two_pow_pos _)
      calc result + 2 ^ shift * (n % 2 ^ (k + 1)) < 2 ^ shift + 2 ^ shift * (n % 2 ^ (k + 1)) := by omega
        _ = 2 ^ shift * (n % 2 ^ (k + 1) + 1) := by ring
        _ ≤ 2 ^ shift * 2 ^ (k + 1) := Nat.mul_le_mul_left _ hn
        _ = _ := hpow.symm
    rw [← Nat.mod_eq_of_lt hlt, ← hmod, Nat.shiftLeft_eq, Nat.add_mod_mod, Nat.mul_comm n]
  rw [hmod, hsum, Nat.or_comm, ← Nat.two_pow_add_eq_or_of_lt hr, Nat.add_comm]

/-- Turning all bits over takes the number away from the greatest one. -/
theorem xor_allOnes {bits x : Nat} (h : x < 2 ^ bits) : x ^^^ (2 ^ bits - 1) = 2 ^ bits - 1 - x := by
  have := congrArg BitVec.toNat (BitVec.xor_allOnes (x := BitVec.ofNat bits x))
  rwa [BitVec.toNat_xor, BitVec.toNat_not, BitVec.toNat_allOnes, BitVec.toNat_ofNat, mod_eq_of_lt h] at this

end Haybarn.Lib
