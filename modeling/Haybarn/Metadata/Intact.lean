/-
The metadata of the last checkpoint stays as it is. In every run, a sub-block that is allocated is one that the last
checkpoint does not have, and a checkpoint releases exactly what is neither new nor kept; and the streams that are
written to such sub-blocks are read back.
-/
import Haybarn.Metadata.Checkpoint
import Haybarn.Metadata.RoundTrip

namespace Haybarn.Metadata

/-! ## Writers of a run -/

/-- What an allocation depends on: the order of the hash table, and the blocks that the block manager has next. -/
structure Choice where
  order : List Nat
  peekNextBlockId : Nat
  newBlockId : Nat
  newBlockId_lt : newBlockId < 2 ^ 56

/-- `NextHandle` of a writer of the run. The `n`-th handle is allocated with the choice `n`. -/
def System.nextHandle (choices : Nat → Choice) (s : System × Nat) :
    Except MetadataError (MetadataPointer × (System × Nat)) :=
  let choice := choices s.2
  match s.1.manager.allocateHandle choice.order choice.peekNextBlockId choice.newBlockId with
  | .ok a =>
    .ok (a.pointer, s.1.step (.allocateHandle choice.order choice.peekNextBlockId choice.newBlockId), s.2 + 1)
  | .error e => .error e

/-- The handles of a writer are allocated since the last checkpoint. -/
def System.supply (s : System × Nat) (chain : List MetadataPointer) : Prop := s.1.Inv ∧ ∀ p ∈ chain, p ∈ s.1.allocated

theorem System.freshHandles (choices : Nat → Choice) : FreshHandles (System.nextHandle choices) System.supply := by
  rintro ⟨s, n⟩ chain p ⟨s', n'⟩ ⟨hinv, hchain⟩ hnext
  have hsmall := (choices n).newBlockId_lt
  unfold System.nextHandle at hnext
  dsimp only at hnext
  rcases ha : s.manager.allocateHandle (choices n).order (choices n).peekNextBlockId (choices n).newBlockId with e | a
  · rw [ha] at hnext
    cases hnext
  · obtain ⟨-, hfresh, hinv'⟩ := hinv.allocateHandle ha
    have hinv' := hinv' hsmall
    have hspec := allocateHandle_allocates hinv.ok ha
    have hstep : s.step (.allocateHandle (choices n).order (choices n).peekNextBlockId (choices n).newBlockId)
        = { s with manager := a.manager, allocated := insert a.pointer s.allocated } := by
      unfold System.step
      dsimp only
      rw [ha]
    rw [ha] at hnext
    dsimp only at hnext
    rw [hstep] at hnext
    cases hnext
    refine ⟨⟨hinv'.small _ ((hspec.blocks _).2 (.inr rfl)), hspec.index_lt⟩, fun hp => hfresh (hchain _ hp), hinv', fun q hq => ?_⟩
    rcases List.mem_append.1 hq with hq | hq
    · exact Finset.mem_insert_of_mem (hchain q hq)
    · rw [List.mem_singleton.1 hq]
      exact Finset.mem_insert_self _ _

/-! ## Every run -/

/-- Metadata of the last checkpoint stays intact, and metadata streams round-trip. In every state of every run:
a sub-block that is allocated is neither of the last checkpoint nor was it written since; what is in use after the next
`MarkBlocksAsModified` is what was allocated or kept, and the blocks that are released are the ones without any such
sub-block; and what is written with handles of the manager is read back from every pointer that was taken. -/
theorem metadata_intact (ops : List Op) (hops : Lib.Steps System.step System.Allowed System.new ops) :
    let s := Lib.run System.step System.new ops
    (∀ order peekNextBlockId newBlockId a, s.manager.allocateHandle order peekNextBlockId newBlockId = .ok a →
      a.pointer ∉ s.occupied ∧ a.pointer ∉ s.allocated)
    ∧ (∀ p, s.manager.markBlocksAsModified.1.InUse p ↔ p ∈ s.allocated ∨ p ∈ s.kept)
    ∧ (∀ blockId ∈ s.manager.blocks,
      (blockId ∈ s.manager.markBlocksAsModified.2
        ↔ ∀ i < 64, (⟨blockId, i⟩ : MetadataPointer) ∉ s.allocated ∧ (⟨blockId, i⟩ : MetadataPointer) ∉ s.kept)
      ∧ (blockId ∈ s.manager.markBlocksAsModified.1.blocks ↔ blockId ∉ s.manager.markBlocksAsModified.2))
    ∧ ∀ (size : BlockSize) (choices : Nat → Choice) (memory : Memory) (before after : List WriterOp)
        (w₁ w₂ w₃ : Writer (System × Nat)) (pointer : MetaBlockPointer),
      Writer.run (System.nextHandle choices) size.metadataBlockSize { supply := (s, 0), memory } before = .ok w₁ →
      w₁.getMetaBlockPointer (System.nextHandle choices) size.metadataBlockSize = .ok (pointer, w₂) →
      w₂.run (System.nextHandle choices) size.metadataBlockSize after = .ok w₃ →
      fromBlockPointer (toBlockPointer pointer size.metadataBlockSize) size.metadataBlockSize = pointer
      ∧ ∀ sizes : List Nat, sizes.sum ≤ ((after.map WriterOp.bytes).flatten).length →
        (Reader.start pointer).readAll w₃.flush size.metadataBlockSize (· ∈ w₃.supply.1.manager.blocks) sizes
          = .ok (pieces ((after.map WriterOp.bytes).flatten) sizes) := by
  intro s
  have hinv : s.Inv := System.inv_run ops hops
  refine ⟨fun order peekNextBlockId newBlockId a ha => ?_, hinv.inUse_markBlocksAsModified, fun blockId hblock => ?_, ?_⟩
  · obtain ⟨hoccupied, hallocated, -⟩ := hinv.allocateHandle ha
    exact ⟨hoccupied, hallocated⟩
  · refine ⟨hinv.mem_released hblock, ?_⟩
    rw [mem_blocks_markBlocksAsModified]
    exact and_iff_right hblock
  · intro size choices memory before after w₁ w₂ w₃ pointer hbefore hpointer hafter
    obtain ⟨hconvert, chain, ⟨hinv', hchain⟩, hread⟩ := stream_roundTrip (System.freshHandles choices)
      size.lt_metadataBlockSize size.metadataBlockSize_le ⟨rfl, rfl, rfl, rfl⟩ ⟨hinv, nofun⟩ hbefore hpointer hafter
    refine ⟨hconvert, hread _ fun p hp => decide_eq_true ?_⟩
    obtain ⟨block, hblock, -⟩ := (hinv'.inUse p).2 (.inr (hchain p hp))
    exact AList.lookup_isSome.1 (Option.isSome_of_eq_some hblock)

/-- Three sub-blocks, of which the second checkpoint keeps one; then a start from that checkpoint. -/
def keepOps : List Op :=
  [.allocateHandle [] 3 3, .allocateHandle [3] 5 5, .checkpoint, .clearModifiedBlocks [getDiskPointer ⟨3, 0⟩ 8],
    .allocateHandle [3] 5 5, .checkpoint, .load [3], .clearModifiedBlocks [getDiskPointer ⟨3, 2⟩ 0], .allocateHandle [3] 5 5]

/-- What the next allocation behind these calls depends on. -/
def keepChoice : Choice := ⟨[3], 5, 5, by decide⟩

/-- The invariants of the run, and a stream that is written to its sub-blocks behind two bytes and read back. -/
theorem metadata_intact_keepOps :
    let s := Lib.run System.step System.new keepOps
    let nextHandle := System.nextHandle fun _ => keepChoice
    let size := defaultBlockSize.metadataBlockSize
    Lib.Steps System.step System.Allowed System.new keepOps ∧ s.allocated = {⟨3, 1⟩} ∧ s.kept = {⟨3, 2⟩}
      ∧ (∀ p, s.manager.markBlocksAsModified.1.InUse p ↔ p ∈ s.allocated ∨ p ∈ s.kept)
      ∧ ∀ memory, ∃ w₁, Writer.run nextHandle size { supply := (s, 0), memory } [.writeData [1, 2]] = .ok w₁
        ∧ ∃ pointer w₂, w₁.getMetaBlockPointer nextHandle size = .ok (pointer, w₂)
        ∧ ∃ w₃, w₂.run nextHandle size [.writeData [3, 4], .getMetaBlockPointer, .writeData [5]] = .ok w₃
        ∧ (Reader.start pointer).readAll w₃.flush size (· ∈ w₃.supply.1.manager.blocks) [1, 2] = .ok [[3], [4, 5]] := by
  have hops : Lib.Steps System.step System.Allowed System.new keepOps := by decide +kernel
  have hintact := metadata_intact keepOps hops
  refine ⟨hops, by decide +kernel, by decide +kernel, hintact.2.1, fun memory => ⟨_, rfl, _, _, rfl, _, rfl, ?_⟩⟩
  have hwritten := fun w₂ w₃ pointer => hintact.2.2.2 defaultBlockSize (fun _ => keepChoice) memory [.writeData [1, 2]]
    [.writeData [3, 4], .getMetaBlockPointer, .writeData [5]] _ w₂ w₃ pointer rfl
  have hread := fun w₃ => hwritten _ w₃ _ rfl
  exact (hread _ rfl).2 [1, 2] (by decide)

end Haybarn.Metadata
