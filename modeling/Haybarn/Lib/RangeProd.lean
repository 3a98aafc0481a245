/-
Products over a range of positions, in order, in a monoid that need not be commutative. Ranges that meet are
multiplied together, and a range of blocks is the range of what the blocks cover. Nothing here names a particular
system.
-/
import Mathlib.Algebra.BigOperators.Group.List.Basic
import Mathlib.Order.Monotone.Basic

namespace Haybarn.Lib

open List

variable {M : Type} [Monoid M]

/-- The product of `f` over the positions from `a` up to `b`. -/
def rangeProd (f : Nat → M) (a b : Nat) : M := ((List.range' a (b - a)).map f).prod

variable {f g : Nat → M} {a b c : Nat}

@[simp]
theorem rangeProd_self (f : Nat → M) (a : Nat) : rangeProd f a a = 1 := by
  unfold rangeProd
  rw [Nat.sub_self]
  rfl

theorem rangeProd_of_le (h : b ≤ a) : rangeProd f a b = 1 := by
  unfold rangeProd
  rw [Nat.sub_eq_zero_of_le h]
  rfl

@[simp]
theorem rangeProd_succ_self (f : Nat → M) (a : Nat) : rangeProd f a (a + 1) = f a := by
  unfold rangeProd
  rw [Nat.add_sub_cancel_left, range'_one, map_singleton, prod_singleton]

/-- Ranges that meet. -/
theorem rangeProd_mul (hab : a ≤ b) (hbc : b ≤ c) : rangeProd f a b * rangeProd f b c = rangeProd f a c := by
  unfold rangeProd
  have hb : b = a + (b - a) := by omega
  have hc : c - a = (b - a) + (c - b) := by omega
  rw [← prod_append, ← map_append, hc, ← range'_append_1, ← hb]

theorem rangeProd_congr (h : ∀ i, a ≤ i → i < b → f i = g i) : rangeProd f a b = rangeProd g a b := by
  unfold rangeProd
  refine congrArg prod (map_congr_left fun i hi => ?_)
  obtain ⟨hlow, hhigh⟩ := mem_range'_1.1 hi
  exact h i hlow (by omega)

theorem rangeProd_succ (h : a ≤ b) : rangeProd f a (b + 1) = rangeProd f a b * f b := by
  rw [← rangeProd_mul h (Nat.le_succ b), rangeProd_succ_self]

/-- Blocks: position `i` of `g` stands for the positions of `f` from `start i` up to `start (i + 1)`. -/
theorem rangeProd_blocks {start : Nat → Nat} (hmono : Monotone start) (hab : a ≤ b)
    (h : ∀ i, a ≤ i → i < b → g i = rangeProd f (start i) (start (i + 1))) :
    rangeProd g a b = rangeProd f (start a) (start b) := by
  induction b, hab using Nat.le_induction with
  | base => rw [rangeProd_self, rangeProd_self]
  | succ b hab ih =>
    have hb : g b = rangeProd f (start b) (start (b + 1)) := h b hab (Nat.lt_succ_self b)
    have hrest := ih fun i hi hib => h i hi (Nat.lt_succ_of_lt hib)
    rw [rangeProd_succ hab, hrest, hb, rangeProd_mul (hmono hab) (hmono (Nat.le_succ b))]

theorem rangeProd_eq_one (h : ∀ i, a ≤ i → i < b → f i = 1) : rangeProd f a b = 1 := by
  unfold rangeProd
  refine prod_eq_one fun x hx => ?_
  obtain ⟨i, hi, rfl⟩ := mem_map.1 hx
  obtain ⟨hlow, hhigh⟩ := mem_range'_1.1 hi
  exact h i hlow (by omega)

/-- Only the positions from `a` up to `b` of a range count. -/
theorem rangeProd_between {low high : Nat} (hlow : low ≤ a) (hhigh : b ≤ high)
    (h : ∀ i, low ≤ i → i < high → g i = if a ≤ i ∧ i < b then f i else 1) :
    rangeProd g low high = rangeProd f a b := by
  rcases Nat.lt_or_ge a b with hab | hba
  · have hbefore : rangeProd g low a = 1 := rangeProd_eq_one fun i hi hia => by
      rw [h i hi (by omega), if_neg (by omega)]
    have hbehind : rangeProd g b high = 1 := rangeProd_eq_one fun i hi hib => by
      rw [h i (by omega) hib, if_neg (by omega)]
    have hinside : rangeProd g a b = rangeProd f a b := rangeProd_congr fun i hi hib => by
      rw [h i (by omega) (by omega), if_pos ⟨hi, hib⟩]
    rw [← rangeProd_mul (by omega : low ≤ b) hhigh, ← rangeProd_mul hlow hab.le, hbefore, hbehind, hinside, one_mul,
      mul_one]
  · rw [rangeProd_of_le hba]
    exact rangeProd_eq_one fun i hi hih => by rw [h i hi hih, if_neg (by omega)]

/-- Positions that do not count. -/
theorem prod_map_ite (p : Nat → Bool) (f : Nat → M) (rows : List Nat) :
    (rows.map fun r => if p r then f r else 1).prod = ((rows.filter p).map f).prod := by
  induction rows with
  | nil => rfl
  | cons r rows ih =>
    rw [map_cons, prod_cons, ih]
    cases hr : p r with
    | true => simp [hr]
    | false => simp [hr]

end Haybarn.Lib
