/-
The written free list loses no block, exactly when no block that was freed waits for its handles. Every block of a file
that is written and loaded again is then either free or in use by what the header is of, with the references that it
had; and the blocks that are taken for the free list are always enough for it.
-/
import Haybarn.Block.FileRun

namespace Haybarn.Block

open Metadata Finset

variable {f f' : File}

/-! ## Accounting -/

/-- Every block that is loaded is either free or in use by the checkpoint, with the references it had. -/
structure Accounts (s : System) (loaded : BlockManager) : Prop where
  maxBlock : loaded.maxBlock = s.manager.maxBlock
  lt_maxBlock : ∀ b ∈ loaded.freeList, b < loaded.maxBlock
  free : ∀ b < loaded.maxBlock, b ∈ loaded.freeList ↔ ¬(0 < s.references b ∧ b ∉ s.manager.newlyUsedBlocks)
  notCounted : ∀ b ∈ loaded.freeList, loaded.multiUseBlocks.lookup b = none
  references : ∀ b < loaded.maxBlock, b ∉ loaded.freeList → (loaded.multiUseBlocks.lookup b).getD 1 = s.references b

theorem System.Inv.accounts_iff {s s' : System} (hs : s.Inv False) {registered : Finset Nat}
    (hs' : s' = { s.step .writeHeader with manager := { (s.step .writeHeader).manager with registered } })
    {loaded : BlockManager} (hfree : loaded.freeList = s'.header.freeList)
    (hmulti : ∀ b, loaded.multiUseBlocks.lookup b = s'.header.multiUseBlocks.lookup b)
    (hmax : loaded.maxBlock = s'.manager.maxBlock) : Accounts s' loaded ↔ s.manager.freeBlocksInUse = ∅ := by
  have hlists : s'.references = s.references ∧ s'.manager.newlyUsedBlocks = s.manager.newlyUsedBlocks
      ∧ s'.manager.maxBlock = s.manager.maxBlock ∧ s'.header = s.manager.writeHeader.1 := by
    rw [hs']
    simp only [System.step, BlockManager.writeHeader_eq, and_self]
  obtain ⟨hreferences, hnewly, hmaxBlock, hheader⟩ := hlists
  have hmem : ∀ b, b ∈ loaded.freeList
      ↔ (b ∈ s.manager.freeList ∨ b ∈ s.manager.modifiedBlocks) ∨ b ∈ s.manager.newlyUsedBlocks := fun b => by
    rw [hfree, hheader, BlockManager.writeHeader_freeList, mem_union, mem_union]
  constructor
  · intro h
    refine eq_empty_of_forall_notMem fun b hb => ?_
    have hblock := hs b
    obtain ⟨hlt, hzero, hnot⟩ := hblock.inUse hb
    have hin := (h.free b (by omega)).2 (by rw [hreferences]; omega)
    rw [hmem] at hin
    have hfree := hblock.free
    tauto
  · intro hnone
    -- a block that is in none of the lists has a reference
    have hused : ∀ b < loaded.maxBlock, b ∉ loaded.freeList → 0 < s.references b ∧ b ∉ s.manager.newlyUsedBlocks := by
      intro b hlt hnot
      rw [hmem, not_or, not_or] at hnot
      obtain ⟨⟨hfree, hmodified⟩, hnewly⟩ := hnot
      exact ⟨(hs b).used (by omega) hfree (by rw [hnone]; exact notMem_empty b) hmodified, hnewly⟩
    have hlookup : ∀ b, loaded.multiUseBlocks.lookup b
        = if b ∈ s.manager.newlyUsedBlocks then none else s.manager.multiUseBlocks.lookup b := fun b => by
      rw [hmulti, hheader, BlockManager.lookup_writeHeader]
    have hzero : ∀ b, b ∈ s.manager.freeList ∨ b ∈ s.manager.modifiedBlocks → s.references b = 0 := fun b hb =>
      hb.elim (fun hb => ((hs b).free hb).2.1) fun hb => ((hs b).modified hb).2.1
    refine ⟨hmax, fun b hb => ?_, fun b hlt => ⟨fun hb => ?_, fun hb => ?_⟩, fun b hb => ?_, fun b hlt hnot => ?_⟩
    · rw [hmax, hmaxBlock]
      rcases (hmem b).1 hb with (hb | hb) | hb
      · exact ((hs b).free hb).1
      · exact ((hs b).modified hb).1
      · exact (hs b).newly hb
    · rw [hreferences, hnewly]
      rcases (hmem b).1 hb with hb | hb
      · have := hzero b hb
        omega
      · exact fun h => h.2 hb
    · by_contra hnot
      rw [hreferences, hnewly] at hb
      exact hb (hused b hlt hnot)
    · rw [hlookup]
      split
      · rfl
      next hnot =>
        rw [(hs b).multi, hzero b (((hmem b).1 hb).resolve_right hnot)]
        rfl
    · obtain ⟨hpos, hnot⟩ := hused b hlt hnot
      rw [hlookup, if_neg hnot, (hs b).multi, hreferences]
      split
      · rfl
      · show 1 = s.references b
        omega

/-! ## Sizes -/

theorem System.Inv.lt_of_mem_multiUseBlocks {s : System} (hs : s.Inv False) {b : Nat} (hb : b ∈ s.manager.multiUseBlocks) :
    b < s.manager.maxBlock := by
  by_contra hge
  have hzero := ((hs b).behind (by omega)).1
  rw [← AList.lookup_isSome, (hs b).multi, hzero] at hb
  cases hb

theorem File.Inv.totalSize_le (h : f.Inv) : f.totalSize ≤ 24 + 60 * f.system.manager.maxBlock := by
  have hcard : ∀ blocks : Finset Nat, (∀ b ∈ blocks, b < f.system.manager.maxBlock) → blocks.card ≤ f.system.manager.maxBlock := by
    intro blocks hblocks
    have hle := card_le_card fun b hb => mem_range.2 (hblocks b hb)
    rwa [card_range] at hle
  have hfree := hcard _ fun b hb => ((h.system b).free hb).1
  have hinUse := hcard _ fun b hb => ((h.system b).inUse hb).1
  have hmodified := hcard _ fun b hb => ((h.system b).modified hb).1
  have hnewly := hcard _ fun b hb => (h.system b).newly hb
  have hmulti : f.system.manager.multiUseBlocks.entries.length ≤ f.system.manager.maxBlock := by
    rw [length_entries]
    exact hcard _ fun b hb => h.system.lt_of_mem_multiUseBlocks (List.mem_toFinset.1 hb)
  have hmetadata : f.metadata.blocks.entries.length ≤ f.system.manager.maxBlock := by
    rw [length_entries]
    exact hcard _ fun b hb => h.lt_maxBlock (List.mem_toFinset.1 hb)
  unfold File.totalSize
  dsimp only
  omega

theorem System.Inv.small_writeHeader {s : System} (hs : s.Inv False) (hmax : s.manager.maxBlock ≤ 2 ^ 56) :
    s.manager.writeHeader.1.Small := by
  have hlt : ∀ b ∈ s.manager.writeHeader.1.freeList, b < s.manager.maxBlock := fun b hb => by
    rw [BlockManager.writeHeader_freeList, mem_union, mem_union] at hb
    rcases hb with (hb | hb) | hb
    · exact ((hs b).free hb).1
    · exact ((hs b).modified hb).1
    · exact (hs b).newly hb
  have hlookup : ∀ b count, s.manager.writeHeader.1.multiUseBlocks.lookup b = some count →
      b < s.manager.maxBlock ∧ count < 2 ^ 32 := by
    intro b count h
    rw [BlockManager.lookup_writeHeader] at h
    split at h
    · cases h
    · refine ⟨hs.lt_of_mem_multiUseBlocks (AList.lookup_isSome.1 (by rw [h]; rfl)), ?_⟩
      rw [(hs b).multi] at h
      split at h
      · cases h
        exact (hs b).bound
      · cases h
  refine ⟨?_, fun b hb => (hlt b hb).trans_le (by omega), ?_, fun entry hentry => ?_⟩
  · have hcard := card_le_card fun b hb => mem_range.2 (hlt b hb)
    rw [card_range] at hcard
    omega
  · have hcard := card_le_card fun b (hb : b ∈ s.manager.writeHeader.1.multiUseBlocks.keys.toFinset) =>
      mem_range.2 (by
        obtain ⟨count, hcount⟩ := Option.isSome_iff_exists.1 (AList.lookup_isSome.2 (List.mem_toFinset.1 hb))
        exact (hlookup b count hcount).1)
    rw [card_range] at hcard
    rw [length_entries]
    omega
  · obtain ⟨hid, hcount⟩ := hlookup entry.1 entry.2 (AList.mem_lookup_iff.2 hentry)
    exact ⟨by omega, hcount⟩

/-! ## Writing and loading -/

/-- A file that is written and loaded again: the writer of the free list does not run out of blocks, and what is loaded
accounts for every block exactly when no freed block waited for its handles. The offsets in a file have 64 bits. -/
theorem File.Inv.writeHeader_load (h : f.Inv) (size : BlockSize) (hfile : f.system.manager.maxBlock * size.allocSize ≤ 2 ^ 64)
    (orders : Nat → List Nat) (readers : Finset Nat) (memory disk : Memory) :
    ∃ disk' f' manager metadata, f.writeHeader size orders readers memory disk = .ok (disk', f')
      ∧ disk'.load size = .ok (manager, metadata)
      ∧ (Accounts f'.system manager ↔ f.system.manager.freeBlocksInUse = ∅) := by
  obtain ⟨f', metadata, freeListBlocks, hwrites, hwrite⟩ := h.writeHeader size orders readers memory disk
  obtain ⟨s, hs, hwaiting, registered, hsystem⟩ := hwrites.lists
  -- fewer than `2 ^ 50` blocks, and fewer than `2 ^ 56` after those of the free list were taken
  have hblocks : f.system.manager.maxBlock ≤ 2 ^ 50 := by
    have hmul := Nat.mul_le_mul_left f.system.manager.maxBlock size.min_le_allocSize
    omega
  have htotal := h.totalSize_le
  have hmax := hwrites.maxBlock
  have hsmall : f'.system.manager.maxBlock ≤ 2 ^ 56 := by omega
  have hheader : f'.system.header = s.manager.writeHeader.1 := by
    rw [hsystem]
    rfl
  have hmaxBlock : f'.system.manager.maxBlock = s.manager.maxBlock := by
    rw [hsystem]
    simp only [System.step, BlockManager.writeHeader_eq]
  have hfits : ∀ p ∈ freeListBlocks, p.Fits := fun p hp => by
    have hdirty := hwrites.dirty p hp
    have hmem : p.blockIndex ∈ metadata.blocks := by
      rw [← AList.lookup_isSome]
      unfold Dirty at hdirty
      rcases hblock : metadata.blocks.lookup p.blockIndex with _ | block
      · rw [hblock] at hdirty
        cases hdirty
      · rfl
    exact ⟨(hwrites.owned _ hmem).trans_le hsmall, hwrites.index_lt p hp⟩
  obtain ⟨pointer, memory', chain, hfreeList, hwritten⟩ := writeFreeList_ok memory hwrites.ne_nil hwrites.nodup hfits
    hwrites.room
  -- the blocks of the stream are dirty, so that they are written
  obtain ⟨disk', hdisk'⟩ : ∃ disk', disk' = Disk.mk (flushMemory metadata memory' disk)
      ⟨pointer, f'.system.manager.maxBlock⟩ := ⟨_, rfl⟩
  have hdisk : Written size disk'.blocks freeListBlocks disk'.header.freeList
      (freeListWords f'.system.header metadata.write) chain := by
    rw [hdisk']
    exact ⟨hwritten.subset, hwritten.holds.congr (fun p hp => if_pos (hwrites.dirty p (hwritten.subset p hp)))
      (fun p hp => if_pos (hwrites.dirty p (hwritten.subset p hp))), hwritten.room, hwritten.valid, hwritten.sees⟩
  have hmetadata : ∀ b ∈ metadata.write, b < 2 ^ 56 := fun b hb =>
    (hwrites.owned b ((mem_write metadata b).1 hb)).trans_le hsmall
  have hlength : metadata.write.entries.length < 256 ^ 8 := by
    have hcard := card_le_card fun b (hb : b ∈ metadata.write.keys.toFinset) =>
      mem_range.2 (hmetadata b (List.mem_toFinset.1 hb))
    rw [card_range] at hcard
    rw [length_entries]
    omega
  have himage : ∀ entry ∈ metadata.write.entries, entry.1 < 256 ^ 8 := fun entry hentry =>
    (hmetadata entry.1 (List.mem_map_of_mem hentry)).trans_le (by omega)
  obtain ⟨manager, metadata', hload, hfree, hmulti, hcount⟩ := Disk.load_ok hdisk
    (hheader ▸ hs.small_writeHeader (hmaxBlock ▸ hsmall)) hlength himage
  refine ⟨disk', f', manager, metadata', ?_, hload, ?_⟩
  · rw [hwrite, hfreeList, hdisk']
  · rw [← hwaiting]
    exact hs.accounts_iff hsystem hfree hmulti (hcount.trans (by rw [hdisk']))

/-! ## Every run -/

/-- The written free list loses no block, in every file that a run leads to, exactly when no freed block waits for its
handles. -/
theorem accounts_run {header : Header} (hheader : header.WellFormed) {image : AList fun _ : Nat => BitVec 64}
    (himage : ∀ b ∈ image, header.LeftOut b) {freeListBlocks : List Nat} (hblocks : ∀ b ∈ freeListBlocks, b ∈ image)
    (size : BlockSize) (ops : List FileOp)
    (hops : Lib.Steps (File.step size) File.Allowed (.load header image freeListBlocks) ops)
    (hfile : (Lib.run (File.step size) (.load header image freeListBlocks) ops).system.manager.maxBlock * size.allocSize
      ≤ 2 ^ 64)
    (orders : Nat → List Nat) (readers : Finset Nat) (memory disk : Memory) :
    ∃ disk' f' manager metadata,
      (Lib.run (File.step size) (.load header image freeListBlocks) ops).writeHeader size orders readers memory disk
        = .ok (disk', f')
      ∧ disk'.load size = .ok (manager, metadata)
      ∧ (Accounts f'.system manager
        ↔ (Lib.run (File.step size) (.load header image freeListBlocks) ops).system.manager.freeBlocksInUse = ∅) :=
  (File.inv_run hheader himage hblocks size ops hops).writeHeader_load size hfile orders readers memory disk

/-- The default size of a block. -/
def defaultSize : BlockSize := Metadata.defaultBlockSize

/-- A metadata block, a block that is used twice, and one that is newly used. -/
def sharedFileOps : List FileOp :=
  [.allocateHandle [], .block .getFreeBlockId, .block (.markBlockAsCheckpointed 1), .block (.increaseBlockReferenceCount 1),
    .block .getFreeBlockId]

theorem accounts_run_sharedFileOps :
    Lib.Steps (File.step defaultSize) File.Allowed (.load .new ∅ []) sharedFileOps
      ∧ ∀ orders readers memory disk, ∃ disk' f' manager metadata,
        (Lib.run (File.step defaultSize) (.load .new ∅ []) sharedFileOps).writeHeader defaultSize orders readers memory disk
          = .ok (disk', f')
        ∧ disk'.load defaultSize = .ok (manager, metadata) ∧ Accounts f'.system manager := by
  have hsteps : Lib.Steps (File.step defaultSize) File.Allowed (.load .new ∅ []) sharedFileOps := by decide +kernel
  have hnew : Header.new.WellFormed := ⟨by decide, by simp [Header.new]⟩
  have hnoImage : ∀ b ∈ (∅ : AList fun _ : Nat => BitVec 64), Header.new.LeftOut b := by simp
  have hnoBlocks : ∀ b ∈ ([] : List Nat), b ∈ (∅ : AList fun _ : Nat => BitVec 64) := by simp
  refine ⟨hsteps, fun orders readers memory disk => ?_⟩
  obtain ⟨disk', f', manager, metadata, hwrite, hload, haccounts⟩ := accounts_run hnew hnoImage hnoBlocks
    defaultSize sharedFileOps hsteps (by decide +kernel) orders readers memory disk
  exact ⟨disk', f', manager, metadata, hwrite, hload, haccounts.2 (by decide +kernel)⟩

/-- A block that is freed while it is read. -/
def waitingOps : List FileOp := [.block .getFreeBlockId, .block (.registerBlock 0), .block (.markBlockAsModified 0)]

/-- The block is lost: it is neither free nor in use. -/
theorem waitingOps_lost :
    Lib.Steps (File.step defaultSize) File.Allowed (.load .new ∅ []) waitingOps
      ∧ ∀ orders readers memory disk, ∃ disk' f' manager metadata,
        (Lib.run (File.step defaultSize) (.load .new ∅ []) waitingOps).writeHeader defaultSize orders readers memory disk
          = .ok (disk', f')
        ∧ disk'.load defaultSize = .ok (manager, metadata) ∧ ¬Accounts f'.system manager := by
  have hsteps : Lib.Steps (File.step defaultSize) File.Allowed (.load .new ∅ []) waitingOps := by decide +kernel
  have hnew : Header.new.WellFormed := ⟨by decide, by simp [Header.new]⟩
  have hnoImage : ∀ b ∈ (∅ : AList fun _ : Nat => BitVec 64), Header.new.LeftOut b := by simp
  have hnoBlocks : ∀ b ∈ ([] : List Nat), b ∈ (∅ : AList fun _ : Nat => BitVec 64) := by simp
  refine ⟨hsteps, fun orders readers memory disk => ?_⟩
  have hinv := File.inv_run hnew hnoImage hnoBlocks defaultSize waitingOps hsteps
  obtain ⟨disk', f', manager, metadata, hwrite, hload, haccounts⟩ := hinv.writeHeader_load defaultSize (by decide +kernel) orders
    readers memory disk
  exact ⟨disk', f', manager, metadata, hwrite, hload, fun h => absurd (haccounts.1 h) (by decide +kernel)⟩

end Haybarn.Block
