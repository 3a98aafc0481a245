/-
Repartitioning. When a table gets more radix bits, or is abandoned, its rows are copied into the partitions of their
hashes. No row is lost and none is there twice, unless the query is interrupted.
-/
import Haybarn.Aggregate.Filed

namespace Haybarn.Aggregate

open Lib Outcome List

variable {G M : Type} {hash : G → Hash} {t : HashTable G M} {bits : Nat} {memory : List (Row G M)} {p : Partitions}
  {interrupted : Interrupts}

/-! ## Interrupts -/

/-- The computation returns such a value, or one of its checks sees an interrupt. -/
def Interruptible {α : Type} (interrupted : Interrupts) (o : Outcome α) (P : α → Prop) : Prop :=
  o.Returns P ∨ o = interrupt ∧ ∃ pointer, interrupted pointer = true

namespace Interruptible

variable {α β : Type} {o : Outcome α} {P Q : α → Prop} {R : β → Prop}

theorem done {a : α} (h : P a) : Interruptible interrupted (Outcome.done a) P := .inl (returns_done h)

theorem mono (h : Interruptible interrupted o P) (hpq : ∀ a, P a → Q a) : Interruptible interrupted o Q :=
  h.imp_left (·.mono hpq)

theorem bind {f : α → Outcome β} (h : Interruptible interrupted o P)
    (hf : ∀ a, P a → Interruptible interrupted (f a) R) : Interruptible interrupted (o >>= f) R := by
  rcases h with ⟨a, rfl, ha⟩ | ⟨rfl, hseen⟩
  · exact hf a ha
  · exact .inr ⟨rfl, hseen⟩

end Interruptible

/-! ## Copies -/

/-- Every row is in the partition of its hash. -/
def Partitions.Placed (bits : Nat) (memory : List (Row G M)) (p : Partitions) : Prop :=
  ∀ k pointers, p[k]? = some pointers → ∀ x ∈ pointers,
    ∃ row, memory[x]? = some row ∧ partitionIndex bits row.hash = k

theorem Partitions.Placed.append (h : p.Placed bits memory) (hlength : p.length = 2 ^ bits) (row : Row G M) :
    (p.append row.hash memory.length).Placed bits (memory ++ [row]) := by
  intro k pointers hk x hx
  have hkeep : ∀ pointers, p[k]? = some pointers → x ∈ pointers →
      ∃ row', (memory ++ [row])[x]? = some row' ∧ partitionIndex bits row'.hash = k := by
    intro pointers hk hx
    obtain ⟨row', hrow', hindex⟩ := h k pointers hk x hx
    exact ⟨row', List.getElem?_append_left (List.getElem?_eq_some_iff.1 hrow').1 ▸ hrow', hindex⟩
  rw [Partitions.append, Partitions.radixBits, hlength, Nat.log2_two_pow, List.getElem?_modify] at hk
  obtain ⟨old, hold, rfl⟩ := Option.map_eq_some_iff.1 hk
  by_cases hindex : partitionIndex bits row.hash = k
  · rw [if_pos hindex] at hx
    rcases List.mem_append.1 hx with hx | hx
    · exact hkeep old hold hx
    · exact ⟨row, by simp [List.mem_singleton.1 hx], hindex⟩
  · rw [if_neg hindex] at hx
    exact hkeep old hold hx

namespace HashTable

end HashTable

end Haybarn.Aggregate
