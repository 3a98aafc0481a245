/-
Memory as cells by address: lists are written to it and read from it, a write leaves the cells outside of it as they
were, and a list that is in memory is there part by part. Nothing here names a particular system.
-/
import Mathlib.Data.List.Basic

namespace Haybarn.Lib

open List

/-- The cells of a memory by their address. -/
abbrev Cells (α : Type) := Nat → α

namespace Cells

variable {α : Type} {m m' : Cells α} {p q n : Nat} {xs ys : List α}

def write (m : Cells α) (ptr : Nat) (xs : List α) : Cells α :=
  fun i => if ptr ≤ i then xs[i - ptr]?.getD (m i) else m i

def read (m : Cells α) (ptr n : Nat) : List α := (List.range n).map fun i => m (ptr + i)

/-- The list is in memory from an address on. -/
def Has (m : Cells α) (ptr : Nat) (xs : List α) : Prop := ∀ i x, xs[i]? = some x → m (ptr + i) = x

/-! ## Reading -/

@[simp] theorem length_read (m : Cells α) (p n : Nat) : (m.read p n).length = n := by
  simp [read]

theorem getElem?_read {i : Nat} (hi : i < n) : (m.read p n)[i]? = some (m (p + i)) := by
  simp [read, getElem?_range hi]

theorem Has.read_eq (h : m.Has p xs) : m.read p xs.length = xs := by
  apply ext_getElem?
  intro i
  by_cases hi : i < xs.length
  · rw [getElem?_read hi, h i xs[i] (getElem?_eq_getElem hi), getElem?_eq_getElem hi]
  · rw [getElem?_eq_none (by simpa using Nat.le_of_not_lt hi), getElem?_eq_none (Nat.le_of_not_lt hi)]

theorem has_read (m : Cells α) (p n : Nat) : m.Has p (m.read p n) := by
  intro i x hx
  have hi : i < n := by
    rw [← length_read m p n]
    exact (List.getElem?_eq_some_iff.1 hx).1
  rw [getElem?_read hi] at hx
  exact Option.some.inj hx

theorem Has.read_eq_of_length (h : m.Has p xs) (hn : xs.length = n) : m.read p n = xs := by
  subst hn
  exact h.read_eq

/-- Cells that are the same are read the same. -/
theorem Has.congr (h : m.Has p xs) (hm : ∀ i, i < xs.length → m' (q + i) = m (p + i)) : m'.Has q xs := by
  intro i x hx
  rw [hm i (List.getElem?_eq_some_iff.1 hx).1]
  exact h i x hx

@[simp] theorem has_nil : m.Has p [] := by
  intro i x hx
  simp at hx

theorem has_append : m.Has p (xs ++ ys) ↔ m.Has p xs ∧ m.Has (p + xs.length) ys := by
  constructor
  · intro h
    refine ⟨fun i x hx => h i x ?_, fun i x hx => ?_⟩
    · rwa [List.getElem?_append_left (List.getElem?_eq_some_iff.1 hx).1]
    · rw [Nat.add_assoc]
      apply h
      rwa [List.getElem?_append_right (by omega), Nat.add_sub_cancel_left]
  · rintro ⟨hxs, hys⟩ i x hx
    by_cases hi : i < xs.length
    · rw [List.getElem?_append_left hi] at hx
      exact hxs i x hx
    · rw [List.getElem?_append_right (by omega)] at hx
      have h := hys _ x hx
      rwa [show p + xs.length + (i - xs.length) = p + i from by omega] at h

/-- The parts of a list that is in memory are of one length, and each is where it has to be. -/
theorem Has.flatMap {β : Type} {f : β → List α} (hf : ∀ b, (f b).length = n) :
    ∀ {p : Nat} {bs : List β}, m.Has p (bs.flatMap f) → ∀ {k : Nat} {b : β}, bs[k]? = some b → m.Has (p + k * n) (f b)
  | p, b :: bs, h, 0, b', hb => by
    simp only [getElem?_cons_zero, Option.some.injEq] at hb
    subst hb
    rw [flatMap_cons, has_append] at h
    simpa using h.1
  | p, b :: bs, h, k + 1, b', hb => by
    rw [flatMap_cons, has_append, hf] at h
    have hk := Has.flatMap hf h.2 (by simpa using hb)
    rwa [show p + (k + 1) * n = p + n + k * n from by rw [Nat.succ_mul]; omega]

/-! ## Writing -/

theorem write_apply_outside {i : Nat} (h : i < p ∨ p + xs.length ≤ i) : m.write p xs i = m i := by
  unfold write
  split
  · rw [getElem?_eq_none (by omega)]
    rfl
  · rfl

theorem has_write (m : Cells α) (p : Nat) (xs : List α) : (m.write p xs).Has p xs := by
  intro i x hx
  simp [write, hx]

/-- A write next to a list leaves it in memory. -/
theorem Has.write (h : m.Has p xs) (hd : p + xs.length ≤ q ∨ q + ys.length ≤ p) : (m.write q ys).Has p xs := by
  apply h.congr
  intro i hi
  apply write_apply_outside
  omega

/-- What is copied is there as it was. -/
theorem Has.copy {k : Nat} (h : m.Has (p + k) xs) (hk : k + xs.length ≤ n) : (m'.write q (m.read p n)).Has (q + k) xs := by
  intro i x hx
  have hi : i < xs.length := (List.getElem?_eq_some_iff.1 hx).1
  have hcell := has_write m' q (m.read p n) (k + i) _ (getElem?_read (by omega))
  rw [Nat.add_assoc, hcell, ← Nat.add_assoc]
  exact h i x hx

theorem write_write_append (m : Cells α) (p : Nat) (xs ys : List α) :
    (m.write p xs).write (p + xs.length) ys = m.write p (xs ++ ys) := by
  funext i
  simp only [write]
  by_cases h : p + xs.length ≤ i
  · rw [if_pos h, if_pos (by omega), if_pos (by omega), getElem?_append_right (by omega),
      getElem?_eq_none (l := xs) (by omega), show i - (p + xs.length) = i - p - xs.length from by omega]
    rfl
  · by_cases hp : p ≤ i
    · rw [if_neg h, if_pos hp, if_pos hp, getElem?_append_left (by omega)]
    · rw [if_neg h, if_neg hp, if_neg hp]

@[simp] theorem write_nil (m : Cells α) (p : Nat) : m.write p [] = m := by
  funext i
  simp [write]

/-- Writing part after part, of one length each, is writing all at once. -/
theorem foldl_write {β : Type} {f : β → List α} (hf : ∀ b, (f b).length = n) (g : Nat → β) (m : Cells α) (p : Nat) :
    ∀ k, (range k).foldl (fun m i => m.write (p + i * n) (f (g i))) m
      = m.write p ((range k).flatMap fun i => f (g i))
  | 0 => by simp
  | k + 1 => by
    have hlen : ((range k).flatMap fun i => f (g i)).length = k * n := by
      rw [length_flatMap]
      simp [hf]
    rw [range_succ, foldl_append, foldl_write hf g m p k, flatMap_append, flatMap_singleton,
      ← write_write_append, hlen]
    rfl

theorem write_read_apply (m m' : Cells α) (p q : Nat) {i : Nat} (hi : i < n) : m.write p (m'.read q n) (p + i) = m' (q + i) :=
  has_write m p _ i _ (getElem?_read hi)

/-! ## Filling -/

/-- The cells from `p` up to `q` are set to one value. -/
def fill (m : Cells α) (p q : Nat) (x : α) : Cells α := fun i => if p ≤ i ∧ i < q then x else m i

theorem fill_apply (m : Cells α) (p q : Nat) (x : α) (i : Nat) : m.fill p q x i = if p ≤ i ∧ i < q then x else m i := rfl

@[simp] theorem fill_self (m : Cells α) (p : Nat) (x : α) : m.fill p p x = m := by
  funext i
  rw [fill_apply, if_neg (by omega)]

/-- Filling next to a list leaves it in memory. -/
theorem Has.fill {x : α} {s t : Nat} (h : m.Has p xs) (hd : t ≤ p ∨ p + xs.length ≤ s) : (m.fill s t x).Has p xs := by
  apply h.congr
  intro i hi
  rw [fill_apply, if_neg (by omega)]

end Cells

end Haybarn.Lib
