/-
A block of the last checkpoint is not reused before the next one, in every run that writes no header while a block that
is free waits for its handles. `WriteHeader` leaves such blocks out of the free list that it writes, although they
become free as soon as their last handle is gone.
-/
import Haybarn.Block.Invariant

namespace Haybarn.Block

/-! ## Reuse -/

def BlockManager.lists (m : BlockManager) : List (Finset Nat) :=
  [m.freeList, m.freeBlocksInUse, m.modifiedBlocks, m.newlyUsedBlocks]

/-- The lists are apart, and the next block is one that nothing uses: no reference, no handle, not the last
checkpoint. -/
structure System.Safe (s : System) : Prop where
  disjoint : s.manager.lists.Pairwise Disjoint
  subset : ∀ blocks ∈ s.manager.lists, blocks ⊆ Finset.range s.manager.maxBlock
  getFreeBlockId : ∀ type, ∃ blockId, (s.manager.getFreeBlockIdInternal type).1 = .ok blockId ∧ s.references blockId = 0
    ∧ blockId ∉ s.manager.registered ∧ ¬ s.header.LeftOut blockId

theorem System.Inv.safe {s : System} (hs : s.Inv True) : s.Safe where
  disjoint := by
    simp only [BlockManager.lists, List.pairwise_cons, List.mem_cons, List.not_mem_nil, or_false, forall_eq_or_imp,
      forall_eq, Finset.disjoint_left]
    refine ⟨⟨fun b h => ((hs b).free h).2.2.1, fun b h => ((hs b).free h).2.2.2.2.1,
      fun b h => ((hs b).free h).2.2.2.1⟩, ⟨fun b h => ((hs b).inUse h).2.2.2, fun b h => ((hs b).inUse h).2.2.1⟩,
      fun b h => ((hs b).modified h).2.2, by simp⟩
  subset := by
    simp only [BlockManager.lists, List.mem_cons, List.not_mem_nil, or_false, forall_eq_or_imp, forall_eq,
      Finset.subset_iff, Finset.mem_range]
    exact ⟨fun b h => ((hs b).free h).1, fun b h => ((hs b).inUse h).1, fun b h => ((hs b).modified h).1,
      fun b h => (hs b).newly h⟩
  getFreeBlockId type := by
    obtain ⟨hreferences, hregistered, hleftOut⟩ := hs.peekFreeBlockId
    refine ⟨s.manager.peekFreeBlockId, ?_, hreferences, hregistered, hleftOut trivial⟩
    rw [hs.getFreeBlockIdInternal_eq type]

/-- From a database that is new or loaded, every run that counts and waits ends in a safe state. -/
theorem safe_run {header : Header} (hheader : header.WellFormed) {metadataBlocks : Finset Nat}
    (hmetadata : ∀ b ∈ metadataBlocks, header.LeftOut b) (ops : List Op)
    (hops : Lib.Steps System.step (fun s op => s.Allowed op ∧ s.Counted op ∧ s.NoneWaiting op) (.load header metadataBlocks) ops) :
    (Lib.run System.step (.load header metadataBlocks) ops).Safe :=
  (Lib.run_inv_of_steps (fun _ _ hs hop => hs.step hop.1 hop.2.1 fun _ => hop.2.2) ops
    (System.inv_load hheader hmetadata) hops).safe

/-- A block that is read while it is freed, and let go of after the second header. -/
def heldOps : List Op :=
  [.getFreeBlockIdForCheckpoint, .registerBlock 0, .markBlockAsModified 0, .writeHeader, .writeHeader, .unregisterBlock 0]

theorem heldOps_reused : Lib.Steps System.step System.Allowed (.load .new ∅) heldOps
    ∧ ((Lib.run System.step (.load .new ∅) heldOps).manager.getFreeBlockIdInternal .newlyUsedBlock).1 = .ok 0
    ∧ (Lib.run System.step (.load .new ∅) heldOps).header.LeftOut 0 := by
  decide +kernel

/-- One block is shared and loses a reference, one is used for a moment only, and one is freed while it is read, but
let go of before the next header. -/
def sharedOps : List Op :=
  [.getFreeBlockId, .getFreeBlockId, .markBlockAsUsed 3, .markBlockAsCheckpointed 0, .increaseBlockReferenceCount 0,
    .registerBlock 3, .markBlockAsModified 0, .markBlockAsModified 1, .writeHeader, .markBlockAsModified 3,
    .unregisterBlock 3, .writeHeader, .truncate, .getFreeBlockIdForCheckpoint]

theorem safe_run_sharedOps :
    Lib.Steps System.step (fun s op => s.Allowed op ∧ s.Counted op ∧ s.NoneWaiting op) (.load .new ∅) sharedOps
      ∧ (Lib.run System.step (.load .new ∅) sharedOps).Safe := by
  have hsteps : Lib.Steps System.step (fun s op => s.Allowed op ∧ s.Counted op ∧ s.NoneWaiting op) (.load .new ∅) sharedOps := by
    decide +kernel
  have hnew : Header.new.WellFormed := ⟨by decide, by simp [Header.new]⟩
  exact ⟨hsteps, safe_run hnew (by simp) sharedOps hsteps⟩

end Haybarn.Block
