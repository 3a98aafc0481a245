/-
Every run of segment writes, merges and flushes writes intact blocks, as long as no block is used up to the limit and no
checkpoint merges a block of several segments. A block that reaches the limit is written with the offset from before its
last segment, which clears that segment; and a merge counts one reference, however many segments it moves.
-/
import Haybarn.Sharing.Shared

namespace Haybarn.Sharing

open Lib Block Outcome Function List
open Metadata (BlockSize)

variable {size : BlockSize} {storage : Storage} {p : PartialBlock}
  {ps others : List PartialBlock} {m : PartialBlockManager} {segmentSize : Nat}

/-! ## The map -/

def PartialBlockManager.blocks (m : PartialBlockManager) : List PartialBlock := m.partiallyFilledBlocks.map (·.2)

/-- An entry of the map tells the room behind the offset, and only the blocks of a checkpoint have an id. -/
structure EntryOk (size : BlockSize) (type : PartialBlockType) (e : Nat × PartialBlock) : Prop where
  key : e.1 = blockSize size - e.2.state.offset
  kind : e.2.state.blockId.isSome ↔ type = .fullCheckpoint

def PartialBlockManager.Ok (size : BlockSize) (m : PartialBlockManager) : Prop :=
  ∀ e ∈ m.partiallyFilledBlocks, EntryOk size m.partialBlockType e

theorem lowerBound_spec {n : Nat} : ∀ {blocks : List (Nat × PartialBlock)} {p : PartialBlock}
    {rest : List (Nat × PartialBlock)}, lowerBound n blocks = some (p, rest) → ∃ k, n ≤ k ∧ blocks.Perm ((k, p) :: rest)
  | [], _, _, h => by cases h
  | e :: blocks, p, rest, h => by
    unfold lowerBound at h
    split at h
    · cases hfound : lowerBound n blocks with
      | none =>
        rw [hfound] at h
        cases h
      | some r =>
        rw [hfound] at h
        cases h
        obtain ⟨k, hk, hperm⟩ := lowerBound_spec hfound
        exact ⟨k, hk, (hperm.cons e).trans (.swap _ _ _)⟩
    next hle =>
      cases h
      exact ⟨e.1, Nat.le_of_not_lt hle, .refl _⟩

theorem getPartialBlock_spec {rest : List (Nat × PartialBlock)} (h : m.getPartialBlock segmentSize = some (p, rest)) :
    ∃ k, segmentSize ≤ k ∧ m.partiallyFilledBlocks.Perm ((k, p) :: rest) := by
  unfold PartialBlockManager.getPartialBlock at h
  split at h
  · exact lowerBound_spec h
  · cases h

/-! ## Allocation -/

/-- The use count of the block that the next segment of a size goes to, with that segment. -/
def PartialBlockManager.nextUseCount (m : PartialBlockManager) (segmentSize : Nat) : Nat :=
  match m.getPartialBlock segmentSize with
  | some (p, _) => p.state.blockUseCount + 1
  | none => 1

theorem getBlockAllocation_some {rest : List (Nat × PartialBlock)} (h : Good size storage (p :: ps))
    (hkind : p.state.blockId.isSome ↔ m.partialBlockType = .fullCheckpoint)
    (hfound : m.getPartialBlock segmentSize = some (p, rest)) : ∃ blocks',
      m.getBlockAllocation size storage.blocks segmentSize = .done
        (⟨{ p.state with blockUseCount := p.state.blockUseCount + 1 },
          some { p with state := { p.state with blockUseCount := p.state.blockUseCount + 1 } }⟩,
          { m with partiallyFilledBlocks := rest }, blocks')
      ∧ blocks'.Inv False ∧ (∀ c, p.state.blockId ≠ some c → blocks'.references c = storage.blocks.references c)
      ∧ ∀ b, p.state.blockId = some b → blocks'.references b = p.segments.length + 1 := by
  have hp := h.filled p mem_cons_self
  unfold PartialBlockManager.getBlockAllocation
  rw [hfound]
  dsimp only
  cases hid : p.state.blockId with
  | some b =>
    have hfull : m.partialBlockType = .fullCheckpoint := hkind.1 (by rw [hid]; rfl)
    have hfew := hp.few
    have hle := hp.offset_le
    have hlt := blockSize_lt size
    have href := hp.references b hid
    obtain ⟨hinv, hincreased⟩ := increaseBlockReferenceCount_spec h.inv (hp.pos hid) (by omega)
    rw [hfull]
    refine ⟨_, rfl, hinv, fun c hc => ?_, fun c hc => ?_⟩
    · rw [hincreased, update_of_ne fun hcb => hc (congrArg some hcb.symm)]
    · obtain rfl := Option.some.inj hc
      rw [hincreased, update_self, href]
  | none =>
    have happend : m.partialBlockType = .appendToTable := by
      cases htype : m.partialBlockType with
      | fullCheckpoint =>
        have hsome := hkind.2 htype
        rw [hid] at hsome
        cases hsome
      | appendToTable => rfl
    rw [happend]
    exact ⟨_, rfl, h.inv, fun _ _ => rfl, fun b hb => by cases hb⟩

theorem getBlockAllocation_none (h : Good size storage ps) (hfound : m.getPartialBlock segmentSize = none) :
    ∃ blockId blocks', m.getBlockAllocation size storage.blocks segmentSize
        = .done (⟨⟨blockId, blockSize size, 0, 1⟩, none⟩, m, blocks')
      ∧ (blockId.isSome ↔ m.partialBlockType = .fullCheckpoint) ∧ Good size { storage with blocks := blocks' } ps
      ∧ ∀ b, blockId = some b → blocks'.references b = 1 ∧ b ∉ blockIds ps ∧ ∀ w ∈ storage.written, w.blockId ≠ b := by
  unfold PartialBlockManager.getBlockAllocation PartialBlockManager.allocateBlock
  rw [hfound]
  cases htype : m.partialBlockType with
  | fullCheckpoint =>
    obtain ⟨b, blocks', heq, hinv, hfree, href⟩ := getFreeBlockId_spec h.inv .checkpointedBlock
    obtain ⟨hps, hwritten⟩ := h.fresh hfree
    have hsame : ∀ c, c ≠ b → blocks'.references c = storage.blocks.references c := fun c hc => by
      rw [href, update_of_ne hc]
    refine ⟨some b, blocks', by simp [heq], by simp, ?_, fun c hc => ?_⟩
    · exact h.frame hinv (fun c hc => hsame c fun hcb => hps (hcb ▸ hc)) fun w hw => hsame _ (hwritten w hw)
    · obtain rfl := Option.some.inj hc
      exact ⟨by rw [href, update_self], hps, hwritten⟩
  | appendToTable => exact ⟨none, storage.blocks, by simp, by simp, h, by simp⟩

/-! ## Registration -/

/-- What an operation leaves: good blocks, and a map that is right. -/
structure Kept (size : BlockSize) (type : PartialBlockType) (others : List PartialBlock) (r : PartialBlockManager × Storage) :
    Prop where
  good : Good size r.2 (r.1.blocks ++ others)
  ok : r.1.Ok size
  type_eq : r.1.partialBlockType = type

theorem keepPartialBlock_spec (h : Good size storage (p :: (m.blocks ++ others))) (hok : m.Ok size)
    (hp : EntryOk size m.partialBlockType (blockSize size - p.state.offset, p)) :
    (m.keepPartialBlock size storage (blockSize size - p.state.offset) p).Returns (Kept size m.partialBlockType others) := by
  have hperm := perm_insertKey (k := blockSize size - p.state.offset) (v := p) (l := m.partiallyFilledBlocks)
  unfold PartialBlockManager.keepPartialBlock
  split
  next hnil =>
    rw [hnil] at hperm
    exact absurd hperm.length_eq (by simp)
  next e blocks hcons =>
    rw [hcons] at hperm
    have hentries : ∀ e' ∈ e :: blocks, EntryOk size m.partialBlockType e' := by
      intro e' he'
      rcases mem_cons.1 (hperm.mem_iff.1 he') with rfl | he'
      · exact hp
      · exact hok e' he'
    have hgood : Good size storage (e.2 :: (blocks.map (·.2) ++ others)) :=
      h.perm (((hperm.map Prod.snd).append_right others).symm)
    split
    · rw [(hentries e mem_cons_self).key]
      refine hgood.flush.bind fun storage' h' => ?_
      exact returns_done ⟨h', fun e' he' => hentries e' (mem_cons_of_mem _ he'), rfl⟩
    · exact returns_done ⟨hgood, hentries, rfl⟩

@[simp] theorem advance_blockId (p : PartialBlock) (allocationSize : Nat) :
    (PartialBlockManager.advance p allocationSize).state.blockId = p.state.blockId := by
  unfold PartialBlockManager.advance PartialBlock.addUninitializedRegion
  dsimp only
  split <;> rfl

theorem registerPartialBlock_spec (h : Good size storage (PartialBlockManager.advance p segmentSize :: (m.blocks ++ others)))
    (hok : m.Ok size) (hkind : p.state.blockId.isSome ↔ m.partialBlockType = .fullCheckpoint)
    (hcount : p.state.blockUseCount < m.maxUseCount) :
    (m.registerPartialBlock size storage segmentSize p).Returns (Kept size m.partialBlockType others) := by
  have hsize := (h.filled _ mem_cons_self).size_eq
  unfold PartialBlockManager.registerPartialBlock
  dsimp only
  rw [if_pos hcount, hsize]
  split
  · exact keepPartialBlock_spec h hok ⟨rfl, by rwa [advance_blockId]⟩
  · exact h.flush.bind fun storage' h' => returns_done ⟨h', hok, rfl⟩

/-! ## Operations -/

/-- A write that does not use a block up to the limit. -/
def WriteWithinLimit (m : PartialBlockManager) (segment : List UInt8) : Prop :=
  segment ≠ [] → m.nextUseCount segment.length < m.maxUseCount

instance (m : PartialBlockManager) (segment : List UInt8) : Decidable (WriteWithinLimit m segment) :=
  inferInstanceAs (Decidable (segment ≠ [] → _))

/-- A turn of a merge that does not use a block up to the limit, and that moves one segment where it counts one. -/
def MergeWithinLimit (size : BlockSize) (r : PartialBlockManager × Storage) (e : Nat × PartialBlock) : Prop :=
  r.1.hasBlockAllocation (blockSize size - e.1) = true →
    r.1.nextUseCount (blockSize size - e.1) < r.1.maxUseCount
      ∧ (r.1.partialBlockType = .fullCheckpoint → e.2.segments.length = 1)

instance (r : PartialBlockManager × Storage) (e : Nat × PartialBlock) : Decidable (MergeWithinLimit size r e) :=
  inferInstanceAs (Decidable (_ → _ ∧ (_ → _)))

theorem flushSegmentInternal_spec (h : Good size storage (m.blocks ++ others)) (hok : m.Ok size) {segment : List UInt8}
    (hsize : segment.length ≤ blockSize size) (hlimit : WriteWithinLimit m segment) (memory : Cells UInt8) :
    (m.flushSegmentInternal size storage segment memory).Returns (Kept size m.partialBlockType others) := by
  unfold PartialBlockManager.flushSegmentInternal
  rw [if_neg (Nat.not_lt.2 hsize)]
  split
  · exact returns_done ⟨h, hok, rfl⟩
  next hne =>
    have hcount := hlimit fun hnil => hne (by rw [hnil]; rfl)
    unfold PartialBlockManager.nextUseCount at hcount
    cases hfound : m.getPartialBlock segment.length with
    | some r =>
      obtain ⟨p, rest⟩ := r
      obtain ⟨k, hk, hperm⟩ := getPartialBlock_spec hfound
      have hentry := hok _ (hperm.mem_iff.2 mem_cons_self)
      have hgood : Good size storage (p :: (rest.map (·.2) ++ others)) := h.perm ((hperm.map Prod.snd).append_right others)
      have hp := hgood.filled p mem_cons_self
      obtain ⟨blocks', heq, hinv, hsame, hreferences⟩ := getBlockAllocation_some hgood hentry.kind hfound
      have hle := hp.offset_le
      have hkey := hentry.key
      dsimp only at hkey
      have hadded := hp.addSegment segment (p.state.blockUseCount + 1) (by omega) (by omega) hreferences
      rw [hfound] at hcount
      rw [heq, done_bind]
      refine registerPartialBlock_spec (m := { m with partiallyFilledBlocks := rest }) ?_ ?_ hentry.kind hcount
      · exact hgood.replace hinv hsame (advance_blockId ..) hadded
      · exact fun e he => hok e (hperm.mem_iff.2 (mem_cons_of_mem _ he))
    | none =>
      obtain ⟨blockId, blocks', heq, hkind, hgood, hreferences⟩ := getBlockAllocation_none h hfound
      rw [hfound] at hcount
      rw [heq, done_bind]
      refine registerPartialBlock_spec ?_ hok hkind hcount
      refine hgood.cons (filled_create hsize (by omega) fun b hb => (hreferences b hb).1) fun b hb => ?_
      rw [advance_blockId] at hb
      exact (hreferences b hb).2

theorem mergePartialBlock_spec {e : Nat × PartialBlock} (h : Good size storage (m.blocks ++ e.2 :: others)) (hok : m.Ok size)
    (he : EntryOk size m.partialBlockType e) (hlimit : MergeWithinLimit size (m, storage) e) :
    (PartialBlockManager.mergePartialBlock size (m, storage) e).Returns (Kept size m.partialBlockType others) := by
  unfold PartialBlockManager.mergePartialBlock
  dsimp only
  split
  next hhas =>
    obtain ⟨hcount, hone⟩ := hlimit hhas
    dsimp only at hcount hone
    unfold PartialBlockManager.nextUseCount at hcount
    unfold PartialBlockManager.hasBlockAllocation at hhas
    obtain ⟨⟨p, rest⟩, hfound⟩ := Option.isSome_iff_exists.1 hhas
    obtain ⟨k, hk, hperm⟩ := getPartialBlock_spec hfound
    have hentry := hok _ (hperm.mem_iff.2 mem_cons_self)
    have hgood : Good size storage (e.2 :: p :: (rest.map (·.2) ++ others)) :=
      h.perm (perm_middle.trans (((hperm.map Prod.snd).append_right others).cons e.2))
    have hother := hgood.filled e.2 mem_cons_self
    have hgood := hgood.tail
    have hp := hgood.filled p mem_cons_self
    obtain ⟨blocks', heq, hinv, hsame, hreferences⟩ := getBlockAllocation_some hgood hentry.kind hfound
    have hle := hp.offset_le
    have hle' := hother.offset_le
    have hkey := hentry.key
    dsimp only at hkey
    have hused : blockSize size - e.1 = e.2.state.offset := by
      rw [he.key]
      omega
    rw [hused] at hk hfound heq hcount ⊢
    have hmerged := hp.merge hother (p.state.blockUseCount + 1) (by omega) fun b hb => by
      rw [hreferences b hb, hone (hentry.kind.1 (by rw [hb]; rfl))]
    rw [hfound] at hcount
    rw [heq, done_bind]
    refine registerPartialBlock_spec (m := { m with partiallyFilledBlocks := rest }) ?_ ?_ hentry.kind hcount
    · exact hgood.replace hinv hsame (advance_blockId ..) hmerged
    · exact fun e he => hok e (hperm.mem_iff.2 (mem_cons_of_mem _ he))
  · have hperm := perm_insertKey (k := e.1) (v := e.2) (l := m.partiallyFilledBlocks)
    refine returns_done ⟨?_, ?_, rfl⟩
    · exact h.perm (perm_middle.trans ((hperm.map Prod.snd).append_right others).symm)
    · intro e' he'
      rcases mem_insertKey.1 he' with rfl | he'
      · exact he
      · exact hok e' he'

theorem merge_spec {other : PartialBlockManager} (h : Good size storage (m.blocks ++ (other.blocks ++ others)))
    (hok : m.Ok size) (hother : other.Ok size) (htype : m.partialBlockType = other.partialBlockType)
    (hlimit : Outcome.Served (PartialBlockManager.mergePartialBlock size) (MergeWithinLimit size) (m, storage)
      other.partiallyFilledBlocks) : (m.merge size storage other).Returns (Kept size m.partialBlockType others) := by
  unfold PartialBlockManager.merge
  refine (returns_serveAll (I := fun es r => Kept size m.partialBlockType (es.map (·.2) ++ others) r
    ∧ ∀ e ∈ es, EntryOk size m.partialBlockType e) ?_ other.partiallyFilledBlocks ?_ hlimit).mono fun r hr => hr.1
  · rintro ⟨m', storage'⟩ e es ⟨⟨hgood, hok', htype'⟩, hentries⟩ hlimit
    dsimp only at hgood hok' htype'
    rw [← htype'] at hentries ⊢
    refine (mergePartialBlock_spec hgood hok' (hentries e mem_cons_self) hlimit).mono fun r hr => ?_
    exact ⟨hr, fun e he => hentries e (mem_cons_of_mem _ he)⟩
  · rw [htype]
    exact ⟨⟨h, hok, htype⟩, hother⟩

theorem flushPartialBlocks_spec (h : Good size storage (m.blocks ++ others)) (hok : m.Ok size) :
    (m.flushPartialBlocks size storage).Returns (Kept size m.partialBlockType others) := by
  unfold PartialBlockManager.flushPartialBlocks
  refine (returns_serveAll (I := fun es storage => Good size storage (es.map (·.2) ++ others)
    ∧ ∀ e ∈ es, EntryOk size m.partialBlockType e) (C := fun _ _ => True) ?_ m.partiallyFilledBlocks ⟨h, hok⟩
    (served_of_forall (fun _ _ => trivial) _ _)).bind fun storage' h' => ?_
  · rintro storage e es ⟨hgood, hentries⟩ -
    rw [(hentries e mem_cons_self).key]
    exact Outcome.Returns.mono hgood.flush fun storage' h' => ⟨h', fun e he => hentries e (mem_cons_of_mem _ he)⟩
  · exact returns_done ⟨h'.1, fun e he => (by cases he), rfl⟩

/-! ## Runs -/

variable {n : Nat} {s : System n}

/-- The requests of a run: segments that fit into a block, and merges of two managers of one kind. -/
def System.Allowed (size : BlockSize) (s : System n) : Op n → Prop
  | .flushSegment _ segment _ => segment.length ≤ blockSize size
  | .merge i j => i ≠ j ∧ (s.managers i).partialBlockType = (s.managers j).partialBlockType
  | .flushPartialBlocks _ => True

instance (s : System n) : ∀ op, Decidable (s.Allowed size op)
  | .flushSegment _ segment _ => inferInstanceAs (Decidable (segment.length ≤ blockSize size))
  | .merge i j => inferInstanceAs (Decidable (i ≠ j ∧ (s.managers i).partialBlockType = (s.managers j).partialBlockType))
  | .flushPartialBlocks _ => .isTrue trivial

/-- The requests that do not use a block up to the limit, and count the references they add. -/
def System.WithinLimits (size : BlockSize) (s : System n) : Op n → Prop
  | .flushSegment i segment _ => WriteWithinLimit (s.managers i) segment
  | .merge i j => Outcome.Served (PartialBlockManager.mergePartialBlock size) (MergeWithinLimit size)
      (s.managers i, s.storage) (s.managers j).partiallyFilledBlocks
  | .flushPartialBlocks _ => True

instance (s : System n) : ∀ op, Decidable (s.WithinLimits size op)
  | .flushSegment i segment _ => inferInstanceAs (Decidable (WriteWithinLimit (s.managers i) segment))
  | .merge i j => inferInstanceAs (Decidable (Outcome.Served (PartialBlockManager.mergePartialBlock size)
      (MergeWithinLimit size) (s.managers i, s.storage) (s.managers j).partiallyFilledBlocks))
  | .flushPartialBlocks _ => .isTrue trivial

/-- Managers of any kinds and limits that have not filled a block yet, over a block manager whose lists are right. -/
structure System.Start (s : System n) : Prop where
  inv : s.storage.blocks.Inv False
  written : s.storage.written = []
  empty : ∀ i, (s.managers i).partiallyFilledBlocks = []

/-- Every block that was written is intact, and none was written over. -/
structure System.Intact (size : BlockSize) (s : System n) : Prop where
  written : ∀ w ∈ s.storage.written, w.Intact size s.storage.blocks.manager
  nodup : (s.storage.written.map (·.blockId)).Nodup

/-- The blocks that all managers are filling. -/
def System.blocks (s : System n) : List PartialBlock := (List.finRange n).flatMap fun i => (s.managers i).blocks

structure System.Ok (size : BlockSize) (s : System n) : Prop where
  good : Good size s.storage s.blocks
  ok : ∀ i, (s.managers i).Ok size

theorem System.Start.ok (h : s.Start) : s.Ok size := by
  have hblocks : s.blocks = [] := by
    unfold System.blocks PartialBlockManager.blocks
    simp [h.empty]
  constructor
  · rw [hblocks]
    constructor
    case inv => exact h.inv
    case nodup => exact nodup_nil
    all_goals simp [h.written]
  · intro i e he
    rw [h.empty i] at he
    cases he

theorem System.Ok.intact (h : s.Ok size) : s.Intact size :=
  ⟨fun w hw => (h.good.written w hw).intact h.good.inv, h.good.writtenNodup⟩

theorem flatMap_perm {ι β : Type} [DecidableEq ι] (f : ι → List β) {l : List ι} {i : ι} (hi : i ∈ l) :
    (l.flatMap f).Perm (f i ++ (l.erase i).flatMap f) :=
  (perm_cons_erase hi).flatMap_right f

theorem flatMap_update_perm {ι β : Type} [DecidableEq ι] (f : ι → List β) {l : List ι} (hl : l.Nodup) {i : ι} (hi : i ∈ l)
    (xs : List β) : (l.flatMap (update f i xs)).Perm (xs ++ (l.erase i).flatMap f) := by
  have hrest : (l.erase i).flatMap (update f i xs) = (l.erase i).flatMap f := by
    refine flatMap_congr fun j hj => ?_
    rw [update_of_ne (hl.mem_erase_iff.1 hj).1]
  have hperm := flatMap_perm (update f i xs) hi
  rwa [update_self, hrest] at hperm

theorem System.blocks_put (s : System n) (i : Fin n) (r : PartialBlockManager × Storage) :
    (fun j => ((s.put i r).managers j).blocks) = update (fun j => (s.managers j).blocks) i r.1.blocks :=
  funext fun j => apply_update (fun _ => PartialBlockManager.blocks) s.managers i r.1 j

theorem System.ok_put {i : Fin n} {r : PartialBlockManager × Storage} (h : ∀ j, (s.managers j).Ok size) (hr : r.1.Ok size)
    (j : Fin n) : ((s.put i r).managers j).Ok size := by
  unfold System.put
  dsimp only
  rw [update_apply]
  split
  · exact hr
  · exact h j

theorem System.Ok.put {i : Fin n} {r : PartialBlockManager × Storage} (h : s.Ok size)
    (hr : Kept size (s.managers i).partialBlockType (((finRange n).erase i).flatMap fun j => (s.managers j).blocks) r) :
    (s.put i r).Ok size := by
  refine ⟨?_, System.ok_put h.ok hr.ok⟩
  unfold System.blocks
  rw [System.blocks_put]
  exact hr.good.perm (flatMap_update_perm _ (nodup_finRange n) (mem_finRange i) _).symm

theorem System.Ok.step (h : s.Ok size) {op : Op n} (hallowed : s.Allowed size op) (hlimits : s.WithinLimits size op) :
    (s.step size op).Returns (System.Ok size) := by
  have htake : ∀ i : Fin n, Good size s.storage ((s.managers i).blocks
      ++ ((finRange n).erase i).flatMap fun j => (s.managers j).blocks) := fun i =>
    h.good.perm (flatMap_perm (fun j => (s.managers j).blocks) (mem_finRange i))
  cases op with
  | flushSegment i segment memory =>
    exact (flushSegmentInternal_spec (htake i) (h.ok i) hallowed hlimits memory).bind fun r hr =>
      returns_done (h.put hr)
  | merge i j =>
    obtain ⟨hne, htype⟩ := hallowed
    unfold System.step
    dsimp only
    rw [if_neg hne]
    have hmem : i ∈ (finRange n).erase j := (nodup_finRange n).mem_erase_iff.2 ⟨hne, mem_finRange i⟩
    have hgood : Good size s.storage ((s.managers i).blocks ++ ((s.managers j).blocks
        ++ (((finRange n).erase j).erase i).flatMap fun k => (s.managers k).blocks)) := by
      refine (htake j).perm (((flatMap_perm _ hmem).append_left _).trans ?_)
      rw [← append_assoc, ← append_assoc]
      exact perm_append_comm.append_right _
    refine (merge_spec hgood (h.ok i) (h.ok j) htype hlimits).bind fun r hr => returns_done ?_
    refine ⟨?_, System.ok_put (System.ok_put h.ok hr.ok) fun e he => by cases he⟩
    unfold System.blocks
    rw [System.blocks_put, System.blocks_put]
    refine hr.good.perm (((flatMap_update_perm _ (nodup_finRange n) (mem_finRange j) _).trans ?_)).symm
    exact flatMap_update_perm _ ((nodup_finRange n).erase j) hmem _
  | flushPartialBlocks i =>
    exact (flushPartialBlocks_spec (htake i) (h.ok i)).bind fun r hr => returns_done (h.put hr)

/-- In every run that keeps within the limits, every block that is written is intact. -/
theorem written_intact (hs : s.Start) (ops : List (Op n))
    (h : Outcome.Served (System.step size) (fun s op => s.Allowed size op ∧ s.WithinLimits size op) s ops) :
    (Outcome.serveAll (System.step size) s ops).Returns (System.Intact size) :=
  (Outcome.returns_serveAll (I := fun _ => System.Ok size) (fun _ _ _ hs h => hs.step h.1 h.2) ops hs.ok h).mono
    fun _ hs' => hs'.intact

/-! ## Runs on a new database -/

def defaultBlockSize : BlockSize := Metadata.defaultBlockSize

/-- Managers of one kind over a new database, with the default for the largest partial block. -/
def newSystem (n : Nat) (partialBlockType : PartialBlockType) (maxUseCount : Nat) : System n where
  managers := fun _ =>
    { partialBlockType, partiallyFilledBlocks := [], maxPartialBlockSize := blockSize defaultBlockSize / 5 * 4, maxUseCount }
  storage := ⟨.load .new ∅, []⟩

theorem newSystem_start (n : Nat) (type : PartialBlockType) (maxUseCount : Nat) : (newSystem n type maxUseCount).Start where
  inv := by
    refine Block.System.inv_load ⟨?_, ?_⟩ ?_
    · simp [Header.new]
    · intro b count h
      simp [Header.new] at h
    · simp
  written := rfl
  empty := fun _ => rfl

/-- Two writers fill a block each, and one is merged into the other. -/
theorem written_intact_merged :
    (Outcome.serveAll (System.step defaultBlockSize) (newSystem 2 .appendToTable 100)
      [.flushSegment 0 [1] fun _ => 5, .flushSegment 1 [2, 3] fun _ => 5, .flushSegment 1 [6] fun _ => 5, .merge 0 1,
        .flushPartialBlocks 0]).Returns (System.Intact defaultBlockSize) :=
  written_intact (newSystem_start 2 .appendToTable 100) _ (by decide +kernel)

/-- A block that may be used once is written with its only segment cleared. -/
theorem written_cleared : ¬ ∀ (size : BlockSize) (n : Nat) (s : System n) (ops : List (Op n)), s.Start →
    Outcome.Served (System.step size) (fun s op => s.Allowed size op) s ops →
      (Outcome.serveAll (System.step size) s ops).Returns (System.Intact size) := by
  intro h
  obtain ⟨s', hs', hintact⟩ := h defaultBlockSize 1 (newSystem 1 .appendToTable 1) [.flushSegment 0 [1] fun _ => 5]
    (newSystem_start 1 .appendToTable 1) (by decide +kernel)
  have hcleared : ∀ s', Outcome.serveAll (System.step defaultBlockSize) (newSystem 1 .appendToTable 1)
      [.flushSegment 0 [1] fun _ => 5] = .done s' →
        ∃ w ∈ s'.storage.written, ⟨[1], 0⟩ ∈ w.segments ∧ w.buffer 0 = 0 := by decide +kernel
  obtain ⟨w, hw, hsegment, hzero⟩ := hcleared s' hs'
  have hone := (hintact.written w hw).contents _ hsegment 0 1 rfl
  rw [Nat.add_zero, hzero] at hone
  cases hone

/-- A merge of checkpoints that moves two segments counts one reference for them. -/
example : ∀ s', Outcome.serveAll (System.step defaultBlockSize) (newSystem 2 .fullCheckpoint 100)
    [.flushSegment 0 [1] fun _ => 5, .flushSegment 1 [2, 3] fun _ => 5, .flushSegment 1 [6] fun _ => 5, .merge 0 1,
      .flushPartialBlocks 0] = .done s' → ∃ w ∈ s'.storage.written, w.segments.length = 3
        ∧ s'.storage.blocks.manager.multiUseBlocks.lookup w.blockId = some 2 := by decide +kernel

end Haybarn.Sharing
