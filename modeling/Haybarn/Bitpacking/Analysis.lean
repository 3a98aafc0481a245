/-
The groups of a column. The rows are cut into groups of one size, and an analysis that succeeds has flushed every one of
them with success, so that compression, which starts with other garbage in its buffer, does so too.
-/
import Haybarn.Bitpacking.Group
import Haybarn.Lib.Chunks

namespace Haybarn.Bitpacking

open Lib List

variable {t : IntType}

/-! ## Cutting -/

namespace Rows

/-- The groups of rows behind rows that are pending. -/
def groups (pending : Rows t) : Rows t → List (Rows t)
  | [] => if pending.isEmpty then [] else [pending]
  | row :: rows =>
    if pending.length + 1 = metadataGroupSize then (pending ++ [row]) :: groups [] rows
    else groups (pending ++ [row]) rows

theorem flatten_groups : ∀ (pending rows : Rows t), (groups pending rows).flatten = pending ++ rows
  | pending, [] => by
    unfold groups
    split
    · simp_all
    · simp
  | pending, row :: rows => by
    unfold groups
    split
    · rw [flatten_cons, flatten_groups, nil_append, append_assoc, singleton_append]
    · rw [flatten_groups, append_assoc, singleton_append]

theorem chunked_groups : ∀ {pending : Rows t} (rows : Rows t), pending.length < metadataGroupSize →
    Chunked metadataGroupSize (groups pending rows)
  | pending, [], hp => by
    unfold groups
    split
    · exact Chunked.nil
    · rename_i hne
      rw [List.isEmpty_iff] at hne
      exact Chunked.last (List.length_pos_iff.2 hne) hp.le
  | pending, row :: rows, hp => by
    unfold groups
    split
    · rename_i hfull
      have h := chunked_groups rows (show ([] : Rows t).length < metadataGroupSize by simp [metadataGroupSize])
      refine Chunked.cons (by decide) ?_ h
      rw [List.length_append, List.length_singleton, hfull]
    · exact chunked_groups rows (by
        rw [List.length_append, List.length_singleton]
        omega)

end Rows

namespace BitpackingState

variable {s s' : BitpackingState t} {mode : BitpackingMode} {pending rows : Rows t}

/-- A flush of the rows succeeds. -/
def Flushes (mode : BitpackingMode) (rows : Rows t) : Prop := ∀ s : BitpackingState t, s.Holds mode rows → s.flush.success = true

theorem Holds.flushes (h : s.Holds mode rows) (hs : s.flush.success = true) : Flushes mode rows :=
  fun _ h' => (h.flush_success_iff h').1 hs

theorem flushFor_mode (s : BitpackingState t) : s.flushFor.state.mode = s.mode := by
  unfold flushFor
  split <;> rfl

theorem flush_mode (s : BitpackingState t) : s.flush.state.mode = s.mode := by
  unfold flush
  split
  · rfl
  split
  · rfl
  split
  · exact flushFor_mode s
  split
  · rfl
  split
  · rfl
  · exact flushFor_mode s

theorem flushes_of_analyze {blockSize : Nat} : ∀ {rows : Rows t} {s s' : BitpackingState t} {pending : Rows t},
    s.Holds mode pending → s.analyze blockSize rows = some s' → s'.flush.success = true →
      ∀ group ∈ Rows.groups pending rows, Flushes mode group
  | [], s, s', pending, h, ha, hs, group, hgroup => by
    cases ha
    unfold Rows.groups at hgroup
    split at hgroup
    · cases hgroup
    · rw [mem_singleton] at hgroup
      exact hgroup ▸ h.flushes hs
  | row :: rows, s, s', pending, h, ha, hs, group, hgroup => by
    unfold analyze at ha
    split at ha
    · cases ha
    have hpush := h.push row
    have hlength : (s.push row).compressionBufferIdx = pending.length + 1 := by
      rw [hpush.idx, length_append, length_singleton]
    simp only [update_eq, hlength] at ha
    unfold Rows.groups at hgroup
    split at hgroup
    · rename_i hfull
      simp only [hfull, if_true] at ha
      split at ha
      · rename_i hsuccess
        rcases mem_cons.1 hgroup with rfl | hgroup
        · exact hpush.flushes hsuccess
        · exact flushes_of_analyze (holds_reset ((flush_mode _).trans hpush.mode)) ha hs group hgroup
      · cases ha
    · rename_i hfull
      simp only [hfull, if_false, if_true] at ha
      exact flushes_of_analyze hpush ha hs group hgroup

theorem analyze_blockSize {blockSize : Nat} (hne : rows ≠ []) (ha : s.analyze blockSize rows = some s') :
    t.bytes * metadataGroupSize * 2 ≤ blockSize := by
  cases rows with
  | nil => exact absurd rfl hne
  | cons row rows =>
    unfold analyze at ha
    split at ha
    · cases ha
    · omega

end BitpackingState

end Haybarn.Bitpacking
