/-
Ranges cut into blocks, and the bits of a word: a range is the concatenation of its blocks of a
fixed width, and clearing the lowest set bit until none is left counts the set bits. Nothing here
names a particular system.
-/
import Mathlib.Data.List.Basic
import Mathlib.Data.List.Range
import Mathlib.Algebra.GroupWithZero.Nat

namespace Haybarn.Lib

open List Nat

/-! ## Blocks of a range -/

/-- The indices below `n` in the block number `b` of width `w`. -/
def block (w n b : Nat) : List Nat := List.range' (b * w) (min (b * w + w) n - b * w)

theorem mem_block {w n b i : Nat} : i ∈ block w n b ↔ b * w ≤ i ∧ i < b * w + w ∧ i < n := by
  unfold block
  rw [mem_range'_1]
  omega

/-- The first blocks cover the range up to their end. -/
theorem flatMap_first_blocks (w n : Nat) : ∀ k, (range k).flatMap (block w n) = range (min (k * w) n)
  | 0 => by simp
  | k + 1 => by
    rw [range_succ, flatMap_append, flatMap_first_blocks w n k, flatMap_singleton]
    have hk : (k + 1) * w = k * w + w := succ_mul k w
    by_cases hn : k * w ≤ n
    · have hmin : min ((k + 1) * w) n = k * w + (min (k * w + w) n - k * w) := by omega
      rw [block, min_eq_left hn, hmin, range_eq_range', range_eq_range', ← range'_append]
      simp
    · have hempty : min (k * w + w) n - k * w = 0 := by omega
      have hmin : min ((k + 1) * w) n = min (k * w) n := by omega
      rw [block, hempty, hmin]
      simp

/-- A range is the concatenation of its blocks. -/
theorem flatMap_block {w : Nat} (hw : 0 < w) (n : Nat) :
    (range ((n + (w - 1)) / w)).flatMap (block w n) = range n := by
  have hlt : n < ((n + (w - 1)) / w) * w + 1 := by
    have h := lt_div_mul_add hw (a := n + (w - 1))
    omega
  rw [flatMap_first_blocks, min_eq_right (by omega)]

/-! ## Counting bits -/

/-- The number of set bits of `n` below position `k`. -/
def bitCount (k n : Nat) : Nat := (List.range k).countP (n.testBit ·)

theorem bitCount_succ (k n : Nat) : bitCount (k + 1) n = n % 2 + bitCount k (n / 2) := by
  unfold bitCount
  rw [range_succ_eq_map, countP_cons, countP_map, add_comm]
  congr 1
  · rcases mod_two_eq_zero_or_one n with h | h
    · simp [testBit_zero, h]
    · simp [testBit_zero, h]
  · exact countP_congr fun i _ => by simp [testBit_succ]

/-- `n &&& (n - 1)` clears the lowest set bit. -/
theorem bitCount_clear_lowest : ∀ {k n : Nat}, n < 2 ^ k → n ≠ 0 → bitCount k (n &&& (n - 1)) + 1 = bitCount k n
  | 0, n, hlt, hne => absurd (by omega : n = 0) hne
  | k + 1, n, hlt, hne => by
    have hpow : 2 ^ (k + 1) = 2 * 2 ^ k := Nat.pow_succ'
    rw [bitCount_succ, bitCount_succ k n, Nat.and_div_two]
    rcases Nat.mod_two_eq_zero_or_one n with h | h
    · -- an even number keeps its lowest bit in the upper part
      have hmod : (n &&& (n - 1)) % 2 = 0 := by
        rw [Nat.and_mod_two_pow (n := 1), Nat.pow_one, h, Nat.zero_and]
      have hhalf : (n - 1) / 2 = n / 2 - 1 := by omega
      have ih := bitCount_clear_lowest (k := k) (n := n / 2) (by omega) (by omega)
      rw [hmod, hhalf, h]
      omega
    · have hmod : (n &&& (n - 1)) % 2 = 0 := by
        have h' : (n - 1) % 2 = 0 := by omega
        rw [Nat.and_mod_two_pow (n := 1), Nat.pow_one, h', Nat.and_zero]
      have hhalf : (n - 1) / 2 = n / 2 := by omega
      rw [hmod, hhalf, h, Nat.and_self]
      omega

/-- Clear the lowest set bit until none is left, and count the turns. -/
def clearLoop : Nat → Nat → Nat
  | 0, _ => 0
  | fuel + 1, n => if n = 0 then 0 else clearLoop fuel (n &&& (n - 1)) + 1

theorem bitCount_zero (k : Nat) : bitCount k 0 = 0 := by
  simp [bitCount]

theorem bitCount_pos {k n : Nat} (hlt : n < 2 ^ k) (hne : n ≠ 0) : 0 < bitCount k n := by
  have h := bitCount_clear_lowest hlt hne
  omega

theorem clearLoop_eq {k : Nat} : ∀ {fuel n : Nat}, n < 2 ^ k → bitCount k n ≤ fuel → clearLoop fuel n = bitCount k n
  | 0, n, hlt, hf => by
    by_cases hn : n = 0
    · rw [hn, bitCount_zero]
      rfl
    · have h := bitCount_pos hlt hn
      omega
  | fuel + 1, n, hlt, hf => by
    unfold clearLoop
    split
    · next hn => rw [hn, bitCount_zero]
    · next hn =>
      have h := bitCount_clear_lowest hlt hn
      have hle : n &&& (n - 1) < 2 ^ k := lt_of_le_of_lt and_le_left hlt
      rw [clearLoop_eq hle (by omega), h]

theorem bitCount_le (k n : Nat) : bitCount k n ≤ k := by
  have h := countP_le_length (p := (n.testBit ·)) (l := range k)
  rwa [length_range] at h

end Haybarn.Lib
