/-
Lists cut into chunks: every chunk is full but the last, which is not empty. The chunk of an index is the quotient by the
size of a chunk, and its place in the chunk the remainder. Nothing here names a particular system.
-/
import Mathlib.Data.List.Infix

namespace Haybarn.Lib

open List

/-- A list cut into chunks. -/
structure Chunked {α : Type} (size : Nat) (chunks : List (List α)) : Prop where
  pos : ∀ chunk ∈ chunks, 0 < chunk.length
  le : ∀ chunk ∈ chunks, chunk.length ≤ size
  full : ∀ k chunk, chunks[k]? = some chunk → k + 1 < chunks.length → chunk.length = size

namespace Chunked

variable {α : Type} {size : Nat} {chunk : List α} {chunks front back : List (List α)}

theorem nil : Chunked size ([] : List (List α)) := ⟨by simp, by simp, by simp⟩

/-- A last chunk. -/
theorem last (hpos : 0 < chunk.length) (hle : chunk.length ≤ size) : Chunked size [chunk] where
  pos := by simpa using hpos
  le := by simpa using hle
  full := by simp

/-- A full chunk in front. -/
theorem cons (hpos : 0 < size) (hfull : chunk.length = size) (h : Chunked size chunks) : Chunked size (chunk :: chunks) where
  pos := by
    rintro c (_ | ⟨_, hc⟩)
    · omega
    · exact h.pos c hc
  le := by
    rintro c (_ | ⟨_, hc⟩)
    · omega
    · exact h.le c hc
  full k c hc hk := by
    cases k with
    | zero =>
      obtain rfl := Option.some.inj hc
      exact hfull
    | succ k => exact h.full k c (by simpa using hc) (by simpa using hk)

theorem tail (h : Chunked size (chunk :: chunks)) : Chunked size chunks where
  pos c hc := h.pos c (mem_cons_of_mem _ hc)
  le c hc := h.le c (mem_cons_of_mem _ hc)
  full k c hc hk := h.full (k + 1) c (by simpa using hc) (by simpa using hk)

/-- No chunk is empty. -/
theorem eq_nil (h : Chunked size chunks) (hflatten : chunks.flatten = []) : chunks = [] := by
  cases chunks with
  | nil => rfl
  | cons chunk chunks =>
    rw [flatten_cons, append_eq_nil_iff] at hflatten
    exact absurd hflatten.1 (ne_nil_of_length_pos (h.pos chunk mem_cons_self))

/-- What is cut into chunks is so without chunks at the end. -/
theorem left (h : Chunked size (front ++ back)) : Chunked size front where
  pos c hc := h.pos c (mem_append_left _ hc)
  le c hc := h.le c (mem_append_left _ hc)
  full k c hc hk := by
    apply h.full k c
    · rwa [getElem?_append_left (by omega)]
    · rw [length_append]
      omega

/-- What is cut into chunks is so without chunks in front. -/
theorem right : ∀ {front : List (List α)}, Chunked size (front ++ back) → Chunked size back
  | [], h => h
  | _ :: _, h => right h.tail

theorem full_head (h : Chunked size (chunk :: chunks)) (hne : chunks ≠ []) : chunk.length = size :=
  h.full 0 chunk rfl (by
    rw [length_cons]
    have := length_pos_iff.2 hne
    omega)

/-- In front of a chunk are full chunks only. -/
theorem length_take (h : Chunked size chunks) : ∀ {k : Nat}, k < chunks.length → (chunks.take k).flatten.length = k * size
  | 0, _ => by simp
  | k + 1, hk => by
    have hget : chunks[k]? = some chunks[k] := getElem?_eq_getElem (by omega)
    rw [take_add_one, hget, Option.toList_some, flatten_append, length_append, h.length_take (by omega),
      flatten_singleton, h.full k _ hget hk, Nat.succ_mul]

/-- The list around a chunk. -/
theorem flatten_eq {k : Nat} (hk : chunks[k]? = some chunk) :
    chunks.flatten = (chunks.take k).flatten ++ (chunk ++ (chunks.drop (k + 1)).flatten) := by
  obtain ⟨hlt, hget⟩ := List.getElem?_eq_some_iff.1 hk
  rw [← List.flatten_cons, ← List.flatten_append, ← hget, ← List.drop_eq_getElem_cons hlt, List.take_append_drop]

/-- An element of a chunk. -/
theorem getElem?_flatten (h : Chunked size chunks) {k i : Nat} (hk : chunks[k]? = some chunk) (hi : i < chunk.length) :
    chunks.flatten[k * size + i]? = chunk[i]? := by
  have hlt := (List.getElem?_eq_some_iff.1 hk).1
  rw [flatten_eq hk, ← h.length_take hlt, List.getElem?_append_right (by omega), Nat.add_sub_cancel_left,
    List.getElem?_append_left hi]

/-- The chunk of an index. -/
theorem exists_chunk (hsize : 0 < size) : ∀ {chunks : List (List α)}, Chunked size chunks → ∀ {i : Nat},
    i < chunks.flatten.length → ∃ chunk, chunks[i / size]? = some chunk ∧ i % size < chunk.length
  | [], _, i, hi => by simp at hi
  | chunk :: chunks, h, i, hi => by
    by_cases hlt : i < chunk.length
    · have hle := h.le chunk mem_cons_self
      refine ⟨chunk, ?_, ?_⟩
      · rw [Nat.div_eq_of_lt (by omega)]
        rfl
      · rwa [Nat.mod_eq_of_lt (by omega)]
    · rw [flatten_cons, length_append] at hi
      have hne : chunks ≠ [] := by
        rintro rfl
        simp at hi
        omega
      have hfull := h.full_head hne
      obtain ⟨chunk', hget, hmod⟩ := exists_chunk hsize h.tail (i := i - size) (by omega)
      refine ⟨chunk', ?_, ?_⟩
      · rw [Nat.div_eq_sub_div hsize (by omega), getElem?_cons_succ]
        exact hget
      · rwa [Nat.mod_eq_sub_mod (by omega)]

/-- A chunk is a range of the list. -/
theorem eq_take_drop (h : Chunked size chunks) {k : Nat} (hk : chunks[k]? = some chunk) :
    chunk = (chunks.flatten.drop (k * size)).take size := by
  have hlt := (List.getElem?_eq_some_iff.1 hk).1
  have hdrop : chunks.flatten.drop (k * size) = chunk ++ (chunks.drop (k + 1)).flatten := by
    rw [flatten_eq hk, ← h.length_take hlt, List.drop_left]
  rw [hdrop]
  by_cases hlast : k + 1 < chunks.length
  · rw [← h.full k chunk hk hlast, List.take_left]
  · rw [List.drop_eq_nil_of_le (by omega), List.flatten_nil, List.append_nil]
    exact (List.take_of_length_le (h.le chunk (List.mem_of_getElem? hk))).symm

end Chunked

end Haybarn.Lib
