/-
Sharing a block loses no bytes. The blocks of a run are those that were written and those that are being filled; writing
one, filling one and taking a new one keep what holds of all of them, and so does every operation of a manager.
-/
import Haybarn.Block.Invariant
import Haybarn.Sharing.Manager

namespace Haybarn.Sharing

open Lib Block Function List
open Metadata (BlockSize)

variable {size : BlockSize} {blocks blocks' : Block.System} {storage : Storage} {p p' q : PartialBlock}
  {ps ps' : List PartialBlock}

/-! ## The block manager -/

theorem getFreeBlockId_spec (h : blocks.Inv False) (type : FreeBlockType) : ∃ b blocks',
    getFreeBlockId blocks type = .done (b, blocks') ∧ blocks'.Inv False ∧ blocks.references b = 0
      ∧ blocks'.references = update blocks.references b 1 := by
  have heq := h.getFreeBlockIdInternal_eq type
  refine ⟨_, _, ?_, h.getFreeBlockId type, h.peekFreeBlockId.1, ?_⟩
  · unfold getFreeBlockId
    rw [heq]
  · unfold Block.System.getFreeBlockId
    rw [heq]

theorem increaseBlockReferenceCount_spec (h : blocks.Inv False) {b : Nat} (hpos : 0 < blocks.references b)
    (hbound : blocks.references b + 1 < 2 ^ 32) : (increaseBlockReferenceCount blocks b).Inv False
      ∧ (increaseBlockReferenceCount blocks b).references = update blocks.references b (blocks.references b + 1) :=
  ⟨h.increaseBlockReferenceCount hpos hbound, rfl⟩

theorem used_of_references (h : blocks.Inv False) {b : Nat} (hpos : 0 < blocks.references b) :
    b < blocks.manager.maxBlock ∧ b ∉ blocks.manager.freeList := by
  have hb := h b
  constructor
  · by_contra hge
    have hzero := (hb.behind (Nat.le_of_not_lt hge)).1
    omega
  · intro hfree
    have hzero := (hb.free hfree).2.1
    omega

theorem registerBlock_spec (h : blocks.Inv False) {b : Nat} (hpos : 0 < blocks.references b) :
    (blocks.step (.registerBlock b)).Inv False ∧ (blocks.step (.registerBlock b)).references = blocks.references := by
  obtain ⟨hlt, hfree⟩ := used_of_references h hpos
  exact ⟨h.registerBlock hlt hfree, rfl⟩

theorem foldl_increase_spec {b : Nat} : ∀ (segments : List PartialColumnSegment) {blocks : Block.System}, blocks.Inv False →
    0 < blocks.references b → blocks.references b + segments.length < 2 ^ 32 →
      (segments.foldl (fun blocks _ => increaseBlockReferenceCount blocks b) blocks).Inv False
        ∧ (segments.foldl (fun blocks _ => increaseBlockReferenceCount blocks b) blocks).references
          = update blocks.references b (blocks.references b + segments.length)
  | [], blocks, h, _, _ => by simp [h]
  | s :: segments, blocks, h, hpos, hbound => by
    rw [length_cons] at hbound
    obtain ⟨hinv, href⟩ := increaseBlockReferenceCount_spec h hpos (by omega)
    have hb : (increaseBlockReferenceCount blocks b).references b = blocks.references b + 1 := by
      rw [href, update_self]
    obtain ⟨hinv', href'⟩ := foldl_increase_spec (b := b) segments hinv (by omega) (by omega)
    refine ⟨hinv', ?_⟩
    rw [foldl_cons, href', hb, href, update_idem, length_cons, Nat.add_right_comm, Nat.add_assoc]

/-! ## Written blocks -/

/-- What a block in the file has to hold: the bytes of each of its segments, no two of them in one place, and zeroes
everywhere else. The block manager counts one reference for each segment. -/
structure WrittenBlock.Intact (size : BlockSize) (m : BlockManager) (w : WrittenBlock) : Prop where
  contents : ∀ s ∈ w.segments, w.buffer.Has s.offsetInBlock s.segment
  inside : ∀ s ∈ w.segments, s.offsetInBlock + s.segment.length ≤ blockSize size
  apart : w.segments.Pairwise fun s t =>
    s.offsetInBlock + s.segment.length ≤ t.offsetInBlock ∨ t.offsetInBlock + t.segment.length ≤ s.offsetInBlock
  zero : ∀ i < blockSize size,
    (∀ s ∈ w.segments, ¬ (s.offsetInBlock ≤ i ∧ i < s.offsetInBlock + s.segment.length)) → w.buffer i = 0
  used : w.blockId < m.maxBlock ∧ w.blockId ∉ m.freeList
  references : (m.multiUseBlocks.lookup w.blockId).getD 1 = w.segments.length

/-- What a run keeps of a written block. -/
structure WrittenBlock.Ok (size : BlockSize) (blocks : Block.System) (w : WrittenBlock) : Prop where
  holds : Holds w.buffer (w.segments.map (·.part)) (blockSize size)
  nonempty : w.segments ≠ []
  references : blocks.references w.blockId = w.segments.length

theorem WrittenBlock.Ok.pos {w : WrittenBlock} (h : w.Ok size blocks) : 0 < blocks.references w.blockId := by
  rw [h.references]
  exact length_pos_iff.2 h.nonempty

theorem WrittenBlock.Ok.intact {w : WrittenBlock} (h : w.Ok size blocks) (hinv : blocks.Inv False) :
    w.Intact size blocks.manager where
  contents s hs := h.holds.has s.part (mem_map_of_mem hs)
  inside s hs := h.holds.inside s.part (mem_map_of_mem hs)
  apart := by
    refine (pairwise_map.1 h.holds.apart).imp fun {s t} hst => ?_
    exact hst.symm
  zero i hi hnone := by
    refine h.holds.zero i hi fun part hpart => ?_
    obtain ⟨s, hs, rfl⟩ := mem_map.1 hpart
    exact hnone s hs
  used := used_of_references hinv h.pos
  references := by
    have hpos := h.pos
    rw [(hinv w.blockId).multi, ← h.references]
    split
    · rfl
    · show 1 = blocks.references w.blockId
      omega

/-! ## All blocks of a run -/

def blockIds (ps : List PartialBlock) : List Nat := ps.filterMap (·.state.blockId)

theorem blockIds_cons : blockIds (p :: ps) = p.state.blockId.toList ++ blockIds ps := by
  unfold blockIds
  rw [filterMap_cons]
  cases p.state.blockId with
  | none => rfl
  | some b => rfl

/-- What holds of the blocks that are being filled, in whatever order, and of those that were written. -/
structure Good (size : BlockSize) (storage : Storage) (ps : List PartialBlock) : Prop where
  inv : storage.blocks.Inv False
  filled : ∀ p ∈ ps, p.Filled size storage.blocks
  nodup : (blockIds ps).Nodup
  written : ∀ w ∈ storage.written, w.Ok size storage.blocks
  writtenApart : ∀ w ∈ storage.written, w.blockId ∉ blockIds ps
  writtenNodup : (storage.written.map (·.blockId)).Nodup

theorem mem_blockIds {b : Nat} : b ∈ blockIds ps ↔ ∃ p ∈ ps, p.state.blockId = some b := mem_filterMap

theorem PartialBlock.Filled.pos (h : p.Filled size blocks) {b : Nat} (hb : p.state.blockId = some b) :
    0 < blocks.references b := by
  obtain ⟨s, rest, hsegments, -⟩ := h.first
  rw [h.references b hb, hsegments, length_cons]
  omega

theorem PartialBlock.Filled.congr (h : p.Filled size blocks)
    (hsame : ∀ b, p.state.blockId = some b → blocks'.references b = blocks.references b) : p.Filled size blocks' :=
  { h with references := fun b hb => (hsame b hb).trans (h.references b hb) }

theorem WrittenBlock.Ok.congr {w : WrittenBlock} (h : w.Ok size blocks)
    (hsame : blocks'.references w.blockId = blocks.references w.blockId) : w.Ok size blocks' :=
  { h with references := hsame.trans h.references }

namespace Good

theorem perm (h : Good size storage ps) (hperm : ps.Perm ps') : Good size storage ps' :=
  { h with
    filled := fun p hp => h.filled p (hperm.mem_iff.2 hp)
    nodup := (hperm.filterMap _).nodup_iff.1 h.nodup
    writtenApart := fun w hw hmem => h.writtenApart w hw ((hperm.filterMap _).mem_iff.2 hmem) }

theorem tail (h : Good size storage (p :: ps)) : Good size storage ps :=
  have hsublist : (blockIds ps).Sublist (blockIds (p :: ps)) := (sublist_cons_self p ps).filterMap _
  { h with
    filled := fun p hp => h.filled p (mem_cons_of_mem _ hp)
    nodup := h.nodup.sublist hsublist
    writtenApart := fun w hw hmem => h.writtenApart w hw (hsublist.subset hmem) }

theorem notMem_tail (h : Good size storage (p :: ps)) {b : Nat} (hb : p.state.blockId = some b) : b ∉ blockIds ps := by
  have hnodup := h.nodup
  rw [blockIds_cons, hb] at hnodup
  exact (nodup_cons.1 hnodup).1

theorem frame (h : Good size storage ps) (hinv : blocks'.Inv False)
    (hps : ∀ c ∈ blockIds ps, blocks'.references c = storage.blocks.references c)
    (hwritten : ∀ w ∈ storage.written, blocks'.references w.blockId = storage.blocks.references w.blockId) :
    Good size { storage with blocks := blocks' } ps :=
  { h with
    inv := hinv
    filled := fun p hp => (h.filled p hp).congr fun c hc => hps c (mem_blockIds.2 ⟨p, hp, hc⟩)
    written := fun w hw => (h.written w hw).congr (hwritten w hw) }

theorem cons (h : Good size storage ps) (hp : p.Filled size storage.blocks)
    (hps : ∀ b, p.state.blockId = some b → b ∉ blockIds ps ∧ ∀ w ∈ storage.written, w.blockId ≠ b) :
    Good size storage (p :: ps) where
  inv := h.inv
  filled := by
    intro q hq
    rcases mem_cons.1 hq with rfl | hq
    · exact hp
    · exact h.filled q hq
  nodup := by
    rw [blockIds_cons]
    cases hid : p.state.blockId with
    | none => exact h.nodup
    | some b => exact nodup_cons.2 ⟨(hps b hid).1, h.nodup⟩
  written := h.written
  writtenApart := by
    intro w hw hmem
    obtain ⟨q, hq, hid⟩ := mem_blockIds.1 hmem
    rcases mem_cons.1 hq with rfl | hq
    · exact (hps _ hid).2 w hw rfl
    · exact h.writtenApart w hw (mem_blockIds.2 ⟨q, hq, hid⟩)
  writtenNodup := h.writtenNodup

theorem replace (h : Good size storage (p :: ps)) (hinv : blocks'.Inv False)
    (hsame : ∀ c, p.state.blockId ≠ some c → blocks'.references c = storage.blocks.references c)
    (hid : p'.state.blockId = p.state.blockId) (hp' : p'.Filled size blocks') :
    Good size { storage with blocks := blocks' } (p' :: ps) := by
  have hwritten : ∀ w ∈ storage.written, p.state.blockId ≠ some w.blockId := fun w hw hb =>
    h.writtenApart w hw (mem_blockIds.2 ⟨p, mem_cons_self, hb⟩)
  refine (h.tail.frame hinv (fun c hc => hsame c fun hb => h.notMem_tail hb hc) fun w hw => hsame _ (hwritten w hw)).cons hp'
    fun b hb => ?_
  rw [hid] at hb
  exact ⟨h.notMem_tail hb, fun w hw hwb => hwritten w hw (hwb ▸ hb)⟩

theorem fresh (h : Good size storage ps) {b : Nat} (hb : storage.blocks.references b = 0) :
    b ∉ blockIds ps ∧ ∀ w ∈ storage.written, w.blockId ≠ b := by
  constructor
  · intro hmem
    obtain ⟨p, hp, hid⟩ := mem_blockIds.1 hmem
    have hpos := (h.filled p hp).pos hid
    omega
  · rintro w hw rfl
    have hpos := (h.written w hw).pos
    omega

theorem write (h : Good size storage ps) {w : WrittenBlock} (hw : w.Ok size storage.blocks) (hps : w.blockId ∉ blockIds ps)
    (hwritten : ∀ w' ∈ storage.written, w'.blockId ≠ w.blockId) :
    Good size { storage with written := storage.written ++ [w] } ps :=
  { h with
    written := by
      intro w' hw'
      rcases mem_append.1 hw' with hw' | hw'
      · exact h.written w' hw'
      · rwa [mem_singleton.1 hw']
    writtenApart := by
      intro w' hw'
      rcases mem_append.1 hw' with hw' | hw'
      · exact h.writtenApart w' hw'
      · rwa [mem_singleton.1 hw']
    writtenNodup := by
      rw [map_append, map_singleton]
      refine h.writtenNodup.append (nodup_singleton _) ?_
      rintro b hb hb'
      obtain ⟨w', hw', rfl⟩ := mem_map.1 hb
      exact hwritten w' hw' (mem_singleton.1 hb') }

theorem flush (h : Good size storage (p :: ps)) :
    (p.flush size storage (blockSize size - p.state.offset)).Returns fun storage' => Good size storage' ps := by
  have hp := h.filled p mem_cons_self
  have hholds := hp.holds_flushInternal
  have hmark := hp.markAsPersistent_eq
  have hfew := hp.few
  have hle := hp.offset_le
  have hlt := blockSize_lt size
  obtain ⟨s, rest, hsegments, hzero⟩ := hp.first
  have hne : p.segments ≠ [] := by simp [hsegments]
  have hlength : p.segments.length = rest.length + 1 := by rw [hsegments, length_cons]
  unfold PartialBlock.flush
  rw [if_neg hne, hmark]
  cases hid : p.state.blockId with
  | some b =>
    have hpos := hp.pos hid
    obtain ⟨hinv, href⟩ := registerBlock_spec h.inv hpos
    have hnot := h.notMem_tail hid
    have hwritten : ∀ w ∈ storage.written, w.blockId ≠ b := by
      rintro w hw rfl
      exact h.writtenApart w hw (mem_blockIds.2 ⟨p, mem_cons_self, hid⟩)
    refine Outcome.returns_done ?_
    refine (h.tail.frame hinv (fun c _ => congrFun href c) fun w _ => congrFun href _).write ⟨hholds, hne, ?_⟩ hnot hwritten
    exact (congrFun href b).trans (hp.references b hid)
  | none =>
    obtain ⟨b, blocks, heq, hinv, hfree, href⟩ := getFreeBlockId_spec h.inv .newlyUsedBlock
    have hone : blocks.references b = 1 := by rw [href, update_self]
    obtain ⟨hinv', href'⟩ := registerBlock_spec hinv (b := b) (by omega)
    obtain ⟨hinv'', href''⟩ := foldl_increase_spec (b := b) p.segments.tail hinv' (by rw [href', hone]; omega) (by
      rw [href', hone, hsegments, tail_cons]
      omega)
    obtain ⟨hnot, hwritten⟩ := h.tail.fresh hfree
    dsimp only
    rw [heq, Outcome.done_bind]
    have hsame : ∀ c, c ≠ b → (p.segments.tail.foldl (fun blocks _ => increaseBlockReferenceCount blocks b)
        (blocks.step (.registerBlock b))).references c = storage.blocks.references c := fun c hc => by
      rw [href'', update_of_ne hc, href', href, update_of_ne hc]
    refine Outcome.returns_done ?_
    refine (h.tail.frame hinv'' (fun c hc => hsame c fun hcb => hnot (hcb ▸ hc)) fun w hw => hsame _ (hwritten w hw)).write
      ⟨hholds, hne, ?_⟩ hnot hwritten
    · rw [href'', update_self, href', hone, hlength, hsegments, tail_cons]
      omega

end Good

end Haybarn.Sharing
