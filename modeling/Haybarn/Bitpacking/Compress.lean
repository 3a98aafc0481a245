/-
What a compression writes. Every group of the rows is flushed with success, and the groups that are written are stored in
the segments one behind the other, however many segments it takes.
-/
import Haybarn.Bitpacking.Layout
import Mathlib.Data.List.Forall2

namespace Haybarn.Bitpacking

open Lib BitpackingState List

variable {t : IntType} {packing : Packing t.bits} {blockSize : Nat} (uninitialized : Nat → Block)

/-- A flush of the rows writes the group. -/
def Emits (mode : BitpackingMode) (g : Group t) (rows : Rows t) : Prop :=
  ∃ s : BitpackingState t, s.Holds mode rows ∧ s.flush.group = some g

theorem Emits.decodes {mode : BitpackingMode} {g : Group t} {rows : Rows t} (h : Emits mode g rows) : Decodes g rows := by
  obtain ⟨s, hs, hg⟩ := h
  exact hs.flush_decodes hg

theorem Emits.length_bytes_le {mode : BitpackingMode} {g : Group t} {rows : Rows t} (h : Emits mode g rows)
    (hrows : rows.length ≤ metadataGroupSize) : (g.bytes packing).length ≤ metadataGroupSize * t.bytes + 3 * t.bytes :=
  g.length_bytes_le packing (h.decodes.count ▸ hrows) h.decodes.width

namespace CompressionState

/-- The segments that are finished, and the one that is written, have the groups. -/
structure Compressed (packing : Packing t.bits) (blockSize : Nat) (c : CompressionState t) (finished : List (List (Group t)))
    (gs : List (Group t)) : Prop where
  segments : List.Forall₂ (SegmentOf packing blockSize) c.segments finished
  written : c.Written packing blockSize gs

variable {c : CompressionState t} {finished : List (List (Group t))} {gs : List (Group t)} {mode : BitpackingMode}

theorem written_new (h : 2 * headerSize ≤ blockSize) (s : BitpackingState t) :
    (new blockSize uninitialized s).Written packing blockSize [] where
  metadataPtr := rfl
  le_dataPtr := le_refl _
  dataPtr_le := by
    show headerSize + headerSize ≤ blockSize
    omega
  count := rfl
  groups k g hg := by simp at hg

theorem canStore_empty (c : CompressionState t) (hblock : t.bytes * metadataGroupSize * 2 ≤ blockSize) {n : Nat}
    (hn : n ≤ metadataGroupSize * t.bytes + 3 * t.bytes) :
    (createEmptySegment blockSize uninitialized c).canStore blockSize n metadataSize := by
  have hbytes := t.bytes_pos
  show alignValue n + (blockSize - (blockSize - headerSize) + metadataSize) ≤ blockSize - headerSize
  have halign := (alignValue_le n).2
  simp only [metadataGroupSize, headerSize, metadataSize] at hblock hn ⊢
  omega

theorem Compressed.writeGroup (h : c.Compressed packing blockSize finished gs)
    (hblock : t.bytes * metadataGroupSize * 2 ≤ blockSize) {g : Group t}
    (hg : (g.bytes packing).length ≤ metadataGroupSize * t.bytes + 3 * t.bytes) :
    ∃ c' finished' gs', c.writeGroup packing blockSize uninitialized g = .ok c' ∧ c'.state = c.state ∧
      c'.Compressed packing blockSize finished' gs' ∧ finished'.flatten ++ gs' = finished.flatten ++ gs ++ [g] := by
  rw [writeGroup_eq, reserveSpace]
  by_cases hspace : c.canStore blockSize (g.bytes packing).length metadataSize
  · rw [if_pos hspace]
    exact ⟨_, finished, gs ++ [g], rfl, rfl, ⟨h.segments, h.written.put hspace⟩, (append_assoc _ _ _).symm⟩
  · obtain ⟨segment, hflush, hsegment⟩ := h.written.flushSegment
    have hempty := canStore_empty uninitialized { c with segments := c.segments ++ [segment] } hblock hg
    have hnew : (createEmptySegment blockSize uninitialized { c with segments := c.segments ++ [segment] }).Written
        packing blockSize [] := by
      refine ⟨rfl, le_refl _, ?_, rfl, fun k g hg => by simp at hg⟩
      have hle := h.written.dataPtr_le
      have hlow := h.written.le_dataPtr
      have hptr := h.written.metadataPtr
      show headerSize + headerSize ≤ blockSize
      omega
    rw [if_neg hspace, hflush]
    refine ⟨_, finished ++ [gs], [g], rfl, rfl, ⟨?_, hnew.put hempty⟩, ?_⟩
    · exact rel_append h.segments (.cons hsegment .nil)
    · rw [flatten_append, flatten_singleton]

theorem Compressed.withState (h : c.Compressed packing blockSize finished gs) (state : BitpackingState t) :
    Compressed packing blockSize { c with state } finished gs where
  segments := h.segments
  written := ⟨h.written.metadataPtr, h.written.le_dataPtr, h.written.dataPtr_le, h.written.count, h.written.groups⟩

theorem Compressed.writeFlushed (h : c.Compressed packing blockSize finished gs)
    (hblock : t.bytes * metadataGroupSize * 2 ≤ blockSize) {s : BitpackingState t} {rows : Rows t}
    (hs : s.Holds mode rows) (hflushes : Flushes mode rows) (hpos : 0 < rows.length) (hrows : rows.length ≤ metadataGroupSize)
    (state : BitpackingState t) :
    ∃ c' finished' gs' g, c.writeFlushed packing blockSize uninitialized { s.flush with state } = .ok c' ∧ c'.state = state ∧
      c'.Compressed packing blockSize finished' gs' ∧ finished'.flatten ++ gs' = finished.flatten ++ gs ++ [g] ∧
      Emits mode g rows := by
  obtain ⟨g, hg⟩ := flush_group s (by rw [hs.idx]; omega) (hflushes s hs)
  have hemits : Emits mode g rows := ⟨s, hs, hg⟩
  obtain ⟨c', finished', gs', hok, hstate, hc', hgs⟩ :=
    (h.withState state).writeGroup uninitialized hblock (hemits.length_bytes_le hrows)
  refine ⟨c', finished', gs', g, ?_, hstate, hc', hgs, hemits⟩
  unfold CompressionState.writeFlushed
  simp only [hg]
  exact hok

theorem Compressed.flushSegment (h : c.Compressed packing blockSize finished gs) : ∃ c', c.flushSegment blockSize = .ok c' ∧
    List.Forall₂ (SegmentOf packing blockSize) c'.segments (finished ++ [gs]) := by
  obtain ⟨segment, hflush, hsegment⟩ := h.written.flushSegment
  exact ⟨_, hflush, rel_append h.segments (.cons hsegment .nil)⟩

theorem Compressed.finalize {pending : Rows t} {front : List (Rows t)} (h : c.Compressed packing blockSize finished gs)
    (hblock : pending ≠ [] → t.bytes * metadataGroupSize * 2 ≤ blockSize) (hs : c.state.Holds mode pending)
    (hpending : pending.length < metadataGroupSize) (hflushes : ∀ group ∈ Rows.groups pending [], Flushes mode group)
    (hfront : List.Forall₂ (Emits mode) (finished.flatten ++ gs) front) :
    ∃ segments groups, c.finalize packing blockSize uninitialized = .ok segments ∧
      List.Forall₂ (SegmentOf packing blockSize) segments groups ∧
      List.Forall₂ (Emits mode) groups.flatten (front ++ Rows.groups pending []) := by
  unfold Rows.groups at hflushes ⊢
  by_cases hempty : pending = []
  · subst hempty
    have hnone : c.writeFlushed packing blockSize uninitialized c.state.flush = .ok c := by
      unfold CompressionState.writeFlushed flush
      rw [if_pos (show c.state.compressionBufferIdx = 0 from hs.idx)]
    obtain ⟨c', hflush, hsegments⟩ := h.flushSegment
    refine ⟨c'.segments, finished ++ [gs], ?_, hsegments, ?_⟩
    · unfold CompressionState.finalize
      rw [hnone]
      show c.flushSegment blockSize >>= _ = _
      rw [hflush]
      rfl
    · rw [flatten_append, flatten_singleton, isEmpty_nil, if_pos rfl, append_nil]
      exact hfront
  · have hisEmpty : ¬pending.isEmpty = true := fun h => hempty (isEmpty_iff.1 h)
    rw [if_neg hisEmpty] at hflushes ⊢
    obtain ⟨c₁, finished', gs', g, hwrite, -, hc₁, hgs, hemits⟩ :=
      h.writeFlushed uninitialized (hblock hempty) hs (hflushes _ (mem_singleton.2 rfl))
        (length_pos_iff.2 hempty) hpending.le c.state.flush.state
    obtain ⟨c', hflush, hsegments⟩ := hc₁.flushSegment
    refine ⟨c'.segments, finished' ++ [gs'], ?_, hsegments, ?_⟩
    · unfold CompressionState.finalize
      rw [hwrite]
      show c₁.flushSegment blockSize >>= _ = _
      rw [hflush]
      rfl
    · rw [flatten_append, flatten_singleton, hgs]
      exact rel_append hfront (.cons hemits .nil)

theorem Compressed.append : ∀ {rows pending : Rows t} {c : CompressionState t} {finished : List (List (Group t))}
    {gs : List (Group t)} {front : List (Rows t)},
    c.Compressed packing blockSize finished gs → (pending ++ rows ≠ [] → t.bytes * metadataGroupSize * 2 ≤ blockSize) →
    c.state.Holds mode pending → pending.length < metadataGroupSize →
    (∀ group ∈ Rows.groups pending rows, Flushes mode group) → List.Forall₂ (Emits mode) (finished.flatten ++ gs) front →
    ∃ c' segments groups, c.append packing blockSize uninitialized rows = .ok c' ∧
      c'.finalize packing blockSize uninitialized = .ok segments ∧
      List.Forall₂ (SegmentOf packing blockSize) segments groups ∧
      List.Forall₂ (Emits mode) groups.flatten (front ++ Rows.groups pending rows)
  | [], pending, c, finished, gs, front, h, hblock, hs, hpending, hflushes, hfront => by
    rw [append_nil] at hblock
    obtain ⟨segments, groups, hfinalize⟩ := h.finalize uninitialized hblock hs hpending hflushes hfront
    exact ⟨c, segments, groups, rfl, hfinalize⟩
  | row :: rows, pending, c, finished, gs, front, h, hblock, hs, hpending, hflushes, hfront => by
    have hblock := hblock (by simp)
    have hpush := hs.push row
    have hlength : (c.state.push row).compressionBufferIdx = pending.length + 1 := by
      rw [hpush.idx, length_append, length_singleton]
    have hupdate := update_eq c.state row
    rw [hlength] at hupdate
    unfold CompressionState.append
    unfold Rows.groups at hflushes ⊢
    by_cases hfull : pending.length + 1 = metadataGroupSize
    · -- the group is full
      rw [if_pos hfull] at hflushes hupdate ⊢
      obtain ⟨c₁, finished', gs', g, hwrite, hstate, hc₁, hgs, hemits⟩ :=
        h.writeFlushed uninitialized hblock hpush (hflushes _ mem_cons_self) (by simp)
          (by rw [length_append, length_singleton, hfull]) (c.state.push row).flush.state.reset
      have hreset : c₁.state.Holds mode [] := hstate ▸ holds_reset ((flush_mode _).trans hpush.mode)
      have hfront' : List.Forall₂ (Emits mode) (finished'.flatten ++ gs') (front ++ [pending ++ [row]]) :=
        hgs ▸ rel_append hfront (.cons hemits .nil)
      obtain ⟨c', segments, groups, happend, hrest⟩ := hc₁.append (fun _ => hblock) hreset (by simp [metadataGroupSize])
        (fun group hgroup => hflushes group (mem_cons_of_mem _ hgroup)) hfront'
      refine ⟨c', segments, groups, ?_, ?_⟩
      · rw [hupdate, hwrite]
        exact happend
      · rwa [append_assoc, singleton_append] at hrest
    · rw [if_neg hfull] at hflushes hupdate ⊢
      obtain ⟨c', segments, groups, happend, hrest⟩ := (h.withState (c.state.push row)).append (fun _ => hblock) hpush
        (by rw [length_append, length_singleton]; omega) hflushes hfront
      refine ⟨c', segments, groups, ?_, hrest⟩
      rw [hupdate]
      exact happend

end CompressionState

end Haybarn.Bitpacking
