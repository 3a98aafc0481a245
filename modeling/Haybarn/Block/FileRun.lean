/-
Writing a header of a file. The blocks for the free list are taken until they have room for it: a round adds less to the
list than it takes. The free list that is then written is no longer than the one that was measured, since a metadata
block that is released takes less room among the free blocks than it did among the metadata.
-/
import Haybarn.Block.File
import Haybarn.Block.FreeListStream

namespace Haybarn.Block

open Metadata List

variable {f f' : File}

/-! ## Handles of metadata blocks -/

theorem System.Inv.registerBlocks : ∀ (entries : List (Σ _ : Nat, MetadataBlock)) {s : System}, s.Inv False →
    (∀ entry ∈ entries, 0 < s.references entry.1) →
    ∃ registered, entries.foldl (fun system entry => system.step (.registerBlock entry.1)) s
        = { s with manager := { s.manager with registered } }
      ∧ ({ s with manager := { s.manager with registered } } : System).Inv False
  | [], s, hs, _ => ⟨s.manager.registered, rfl, hs⟩
  | entry :: entries, s, hs, hentries => by
    have hpos := hentries entry mem_cons_self
    have hblock := hs entry.1
    have hlt : entry.1 < s.manager.maxBlock := by
      by_contra hge
      have := (hblock.behind (by omega)).1
      omega
    have hfree : entry.1 ∉ s.manager.freeList := fun h => by have := (hblock.free h).2.1; omega
    obtain ⟨registered, hfold, hinv⟩ := System.Inv.registerBlocks entries (hs.registerBlock hlt hfree)
      fun e he => hentries e (mem_cons_of_mem _ he)
    exact ⟨registered, hfold, hinv⟩

namespace File

theorem Inv.flush (h : f.Inv) :
    ∃ f', f.flush = .ok f' ∧ f'.Inv ∧ f'.metadata.modifiedBlocks = f.metadata.modifiedBlocks
      ∧ ∃ registered, f'.system = { f.system with manager := { f.system.manager with registered } } := by
  have hmem : ∀ entry ∈ f.metadata.blocks.entries, f.metadata.blocks.lookup entry.1 = some entry.2 := fun entry hentry =>
    AList.mem_lookup_iff.2 hentry
  obtain ⟨registered, hfold, hinv⟩ := System.Inv.registerBlocks
    (f.metadata.blocks.entries.filter fun entry => !entry.2.persistent) h.system fun entry hentry => by
      refine (h.owned entry.1 (AList.lookup_isSome.1 ?_)).1
      rw [hmem entry (mem_filter.1 hentry).1]
      rfl
  have hnone : ¬(f.metadata.blocks.entries.any fun entry => !entry.2.dirty && !entry.2.persistent) = true := by
    rw [any_eq_true]
    rintro ⟨entry, hentry, hflags⟩
    rcases h.backed entry.1 entry.2 (hmem entry hentry) with hflag | hflag
    · simp [hflag] at hflags
    · simp [hflag] at hflags
  have hlookup : ∀ b, (MetadataManager.mapBlocks flushBlock f.metadata.blocks).lookup b
      = (f.metadata.blocks.lookup b).map flushBlock := lookup_mapBlocks flushBlock f.metadata.blocks
  have hfree : ∀ block : MetadataBlock, (flushBlock block).freeBlocks = block.freeBlocks := fun block => by
    unfold flushBlock
    split
    · rfl
    · rfl
  refine ⟨⟨{ f.system with manager := { f.system.manager with registered } },
    { f.metadata with blocks := MetadataManager.mapBlocks flushBlock f.metadata.blocks }⟩, ?_, ⟨hinv, ⟨?_, ?_⟩, fun b hb => ?_,
    fun p hp hmodified => ?_, fun b block hblock => ?_⟩, rfl, registered, rfl⟩
  · unfold File.flush
    rw [if_neg hnone]
    dsimp only
    rw [hfold]
  · intro b block hblock
    rw [hlookup] at hblock
    obtain ⟨block', hblock', rfl⟩ := Option.map_eq_some_iff.1 hblock
    rw [hfree]
    exact h.ok.nodup b block' hblock'
  · intro b block hblock
    rw [hlookup] at hblock
    obtain ⟨block', hblock', rfl⟩ := Option.map_eq_some_iff.1 hblock
    rw [hfree]
    exact h.ok.lt b block' hblock'
  · refine h.owned b ?_
    rw [← AList.lookup_isSome, hlookup, Option.isSome_map] at hb
    exact AList.lookup_isSome.1 hb
  · obtain ⟨block, hblock, hlt, hnot⟩ := h.modified p hp hmodified
    refine ⟨flushBlock block, ?_, hlt, by rwa [hfree]⟩
    dsimp only
    rw [hlookup, hblock]
    rfl
  · rw [hlookup] at hblock
    obtain ⟨block', hblock', rfl⟩ := Option.map_eq_some_iff.1 hblock
    unfold flushBlock
    split
    · exact .inl rfl
    · exact h.backed b block' hblock'

/-! ## The blocks of the free list -/

/-- The sub-blocks that were taken for the free list are in use, are not released with the next header, and are written
with it. -/
structure Reserved (f : File) (freeListBlocks : List MetadataPointer) : Prop where
  nodup : freeListBlocks.Nodup
  inUse : ∀ p ∈ freeListBlocks, f.metadata.InUse p
  kept : ∀ p ∈ freeListBlocks, ¬f.metadata.Modified p
  dirty : ∀ p ∈ freeListBlocks, Dirty f.metadata p.blockIndex

theorem Reserved.take {freeListBlocks : List MetadataPointer} {p : MetadataPointer} (hf : f.Inv)
    (h : f.Reserved freeListBlocks) (htakes : f.Takes f' p) : f'.Reserved (freeListBlocks ++ [p]) := by
  have hmodified : ∀ q, f'.metadata.Modified q ↔ f.metadata.Modified q := fun q => by
    unfold MetadataManager.Modified
    rw [htakes.modifiedBlocks]
  refine ⟨?_, fun q hq => (htakes.inUse q).2 ?_, fun q hq => ?_, fun q hq => htakes.dirty _ ?_⟩
  · refine nodup_append.2 ⟨h.nodup, nodup_singleton p, fun q hq r hr => ?_⟩
    rintro rfl
    rw [mem_singleton.1 hr] at hq
    exact htakes.fresh (h.inUse p hq)
  all_goals rw [mem_append, mem_singleton] at hq
  · exact hq.imp (h.inUse q) id
  · rw [hmodified]
    rcases hq with hq | rfl
    · exact h.kept q hq
    · exact fun hmod => htakes.fresh (hf.modified q htakes.index_lt hmod)
  · exact hq.imp (h.dirty q) fun hq => by rw [hq]

/-- What `GetFreeListBlocks` gives: sub-blocks with room for the stream. -/
structure Reserves (f f' : File) (blockSize : Nat) (freeListBlocks : List MetadataPointer) : Prop where
  inv : f'.Inv
  reserved : f'.Reserved freeListBlocks
  totalSize : f'.totalSize < freeListBlocks.length * blockSize
  freeBlocksInUse : f'.system.manager.freeBlocksInUse = f.system.manager.freeBlocksInUse

theorem getFreeListBlocksLoop_ok {blockSize : Nat} (hsize : 17 ≤ blockSize) (orders : Nat → List Nat) :
    ∀ (fuel : Nat) (f : File) (freeListBlocks : List MetadataPointer), f.Inv → f.Reserved freeListBlocks →
      f.totalSize + 1 ≤ freeListBlocks.length * blockSize + fuel →
      ∃ freeListBlocks' f', getFreeListBlocksLoop blockSize orders fuel f (freeListBlocks.length * blockSize) freeListBlocks
          = .ok (freeListBlocks', f')
        ∧ Reserves f f' blockSize freeListBlocks' ∧ f'.system.manager.maxBlock ≤ f.system.manager.maxBlock + fuel
  | 0, f, freeListBlocks, hf, hreserved, hfuel =>
    ⟨freeListBlocks, f, rfl, ⟨hf, hreserved, by omega, rfl⟩, Nat.le_refl _⟩
  | fuel + 1, f, freeListBlocks, hf, hreserved, hfuel => by
    unfold getFreeListBlocksLoop
    split
    next hlt => exact ⟨freeListBlocks, f, rfl, ⟨hf, hreserved, hlt, rfl⟩, Nat.le_add_right _ _⟩
    next =>
      obtain ⟨p, f₁, hallocate, htakes⟩ := hf.allocateHandle (orders freeListBlocks.length)
      have hlength : (freeListBlocks ++ [p]).length * blockSize = freeListBlocks.length * blockSize + blockSize := by
        rw [length_append, length_singleton, Nat.succ_mul]
      have htotal := htakes.totalSize
      obtain ⟨freeListBlocks', f₂, hloop, hreserves, hmax⟩ := getFreeListBlocksLoop_ok hsize orders fuel f₁
        (freeListBlocks ++ [p]) htakes.inv (hreserved.take hf htakes) (by omega)
      have hmax₁ := htakes.maxBlock
      rw [hlength] at hloop
      refine ⟨freeListBlocks', f₂, ?_, ⟨hreserves.inv, hreserves.reserved, hreserves.totalSize,
        hreserves.freeBlocksInUse.trans htakes.freeBlocksInUse⟩, by omega⟩
      rw [hallocate]
      exact hloop

theorem Inv.getFreeListBlocks (h : f.Inv) (size : BlockSize) (orders : Nat → List Nat) :
    ∃ freeListBlocks f', f.getFreeListBlocks size orders = .ok (freeListBlocks, f')
      ∧ Reserves f f' (size.metadataBlockSize - pointerSize) freeListBlocks
      ∧ f'.system.manager.maxBlock ≤ f.system.manager.maxBlock + (f.totalSize + 2) := by
  have hsize : 17 ≤ size.metadataBlockSize - pointerSize := by
    have := size.le_metadataBlockSize
    unfold pointerSize
    omega
  have hloop := getFreeListBlocksLoop_ok hsize orders (f.totalSize + 2) f [] h ⟨nodup_nil, nofun, nofun, nofun⟩ (by omega)
  rw [length_nil, Nat.zero_mul] at hloop
  exact hloop

end File

/-! ## The header -/

theorem lookup_foldl_erase : ∀ (blocks : List Nat) (m : AList fun _ : Nat => Nat) (b : Nat),
    (blocks.foldl (fun m blockId => m.erase blockId) m).lookup b = if b ∈ blocks then none else m.lookup b
  | [], m, b => by simp
  | blockId :: blocks, m, b => by
    rw [foldl_cons, lookup_foldl_erase blocks]
    rcases eq_or_ne b blockId with rfl | hne
    · simp
    · simp [hne]

theorem BlockManager.lookup_writeHeader (m : BlockManager) (b : Nat) : m.writeHeader.1.multiUseBlocks.lookup b
    = if b ∈ m.newlyUsedBlocks then none else m.multiUseBlocks.lookup b := by
  unfold writeHeader
  dsimp only
  rw [lookup_foldl_erase]
  simp only [Finset.mem_sort]

theorem BlockManager.length_writeHeader (m : BlockManager) :
    m.writeHeader.1.multiUseBlocks.entries.length ≤ m.multiUseBlocks.entries.length := by
  refine length_entries_le fun b hb => ?_
  rw [← AList.lookup_isSome, m.lookup_writeHeader] at hb
  rw [← AList.lookup_isSome]
  split at hb
  · cases hb
  · exact hb

theorem BlockManager.card_writeHeader (m : BlockManager) : m.writeHeader.1.freeList.card ≤ m.listed := by
  have hunion := Finset.card_union_le (m.freeList ∪ m.modifiedBlocks) m.newlyUsedBlocks
  have hunion' := Finset.card_union_le m.freeList m.modifiedBlocks
  rw [writeHeader_freeList]
  unfold listed
  omega

theorem length_freeListWords (header : Header) (image : AList fun _ : Nat => BitVec 64) :
    (wordsBytes (freeListWords header image)).length
      = (8 + 8 * header.freeList.card) + (8 + 12 * header.multiUseBlocks.entries.length) + (8 + 16 * image.entries.length) := by
  have hids : ∀ ids : List Nat, (wordsBytes (ids.map ((8, ·)))).length = 8 * ids.length := fun ids => by
    rw [length_wordsBytes, map_map]
    simp [Function.comp_def, Nat.mul_comm]
  have hpairs : ∀ {α : Type} (n : Nat) (entries : List α) (g h : α → Nat),
      (wordsBytes (entries.flatMap fun entry => [(8, g entry), (n, h entry)])).length = (8 + n) * entries.length := by
    intro α n entries g h
    induction entries with
    | nil => rfl
    | cons entry entries ih =>
      simp only [flatMap_cons, cons_append, nil_append, wordsBytes_cons, length_append, Wal.writeWord_length,
        length_cons, ih]
      rw [Nat.mul_succ]
      omega
  rw [wordsBytes_freeListWords]
  simp only [length_append, Wal.writeWord_length, hids, hpairs, Finset.length_sort, length_nil]
  omega

namespace File

/-- What `WriteHeader` writes: `metadata` is the metadata manager when the free list is written. -/
structure Writes (size : BlockSize) (f f' : File) (metadata : MetadataManager) (freeListBlocks : List MetadataPointer) :
    Prop where
  inv : f'.Inv
  lists : ∃ s : System, s.Inv False ∧ s.manager.freeBlocksInUse = f.system.manager.freeBlocksInUse
    ∧ ∃ registered, f'.system = { s.step .writeHeader with manager := { (s.step .writeHeader).manager with registered } }
  ne_nil : freeListBlocks ≠ []
  nodup : freeListBlocks.Nodup
  index_lt : ∀ p ∈ freeListBlocks, p.index < 64
  dirty : ∀ p ∈ freeListBlocks, Dirty metadata p.blockIndex
  owned : ∀ b ∈ metadata.blocks, b < f'.system.manager.maxBlock
  room : (wordsBytes (freeListWords f'.system.header metadata.write)).length
    ≤ freeListBlocks.length * (size.metadataBlockSize - pointerSize)
  maxBlock : f'.system.manager.maxBlock ≤ f.system.manager.maxBlock + (f.totalSize + 2)

theorem Inv.lt_maxBlock (h : f.Inv) {b : Nat} (hb : b ∈ f.metadata.blocks) : b < f.system.manager.maxBlock := by
  by_contra hge
  have := ((h.system b).behind (by omega)).1
  have := (h.owned b hb).1
  omega

theorem Reserved.markBlocksAsModified {freeListBlocks : List MetadataPointer} (h : f.Reserved freeListBlocks)
    {p : MetadataPointer} (hp : p ∈ freeListBlocks) : Dirty f.metadata.markBlocksAsModified.1 p.blockIndex := by
  have hinUse := (inUse_markBlocksAsModified f.metadata p).2 ⟨h.inUse p hp, h.kept p hp⟩
  obtain ⟨block, hblock, -⟩ := hinUse
  obtain ⟨block', hblock', -, hdirty⟩ := flags_markBlocksAsModified hblock
  have hflag := h.dirty p hp
  unfold Dirty at hflag ⊢
  rw [hblock'] at hflag
  rw [hblock, Option.any_some, ← hdirty]
  exact hflag

theorem length_write (m : MetadataManager) : m.write.entries.length = m.blocks.entries.length := length_map _

theorem Inv.writeHeader (h : f.Inv) (size : BlockSize) (orders : Nat → List Nat) (readers : Finset Nat) (memory disk : Memory) :
    ∃ f' metadata freeListBlocks, Writes size f f' metadata freeListBlocks
      ∧ f.writeHeader size orders readers memory disk
        = match writeFreeList size freeListBlocks memory (freeListWords f'.system.header metadata.write) with
          | .error e => .error (.metadata e)
          | .ok (freeList, memory) => .ok (⟨flushMemory metadata memory disk, ⟨freeList, f'.system.manager.maxBlock⟩⟩, f') := by
  obtain ⟨freeListBlocks, f₁, hget, hreserves, hmax⟩ := h.getFreeListBlocks size orders
  obtain ⟨f₂, hmark, hinv₂, hmetadata, hlisted, hlength, hmulti, hinUse, hmax₂⟩ := hreserves.inv.markBlocksAsModified readers
  have howned : ∀ b ∈ f₂.metadata.blocks, 0 < (f₂.system.step .writeHeader).references b
      ∧ b ∉ (f₂.system.step .writeHeader).manager.newlyUsedBlocks := fun b hb =>
    hinv₂.system.owned_step (hinv₂.owned b hb) (by simp)
  have hinv₃ : (⟨f₂.system.step .writeHeader, f₂.metadata⟩ : File).Inv :=
    ⟨hinv₂.system.writeHeader nofun, hinv₂.ok, howned, hinv₂.modified, hinv₂.backed⟩
  obtain ⟨f', hflush, hinv', -, registered, hsystem⟩ := hinv₃.flush
  have hmaxBlock : f'.system.manager.maxBlock = f₂.system.manager.maxBlock := by
    rw [hsystem]
    simp only [System.step, BlockManager.writeHeader_eq]
  have htotal := hreserves.totalSize
  refine ⟨f', f₂.metadata, freeListBlocks, ⟨hinv', ⟨f₂.system, hinv₂.system, hinUse.trans hreserves.freeBlocksInUse,
    registered, hsystem⟩, ?_, hreserves.reserved.nodup, fun p hp => ?_, fun p hp => ?_, fun b hb => ?_, ?_, ?_⟩, ?_⟩
  · rintro rfl
    simp at htotal
  · obtain ⟨-, -, hlt, -⟩ := hreserves.reserved.inUse p hp
    exact hlt
  · rw [hmetadata]
    exact hreserves.reserved.markBlocksAsModified hp
  · rw [hmaxBlock]
    exact hinv₂.lt_maxBlock hb
  · have hheader : f'.system.header = f₂.system.manager.writeHeader.1 := by
      rw [hsystem]
      rfl
    have hcard := f₂.system.manager.card_writeHeader
    have hmulti' := f₂.system.manager.length_writeHeader
    rw [length_freeListWords, length_write, hheader]
    unfold totalSize at htotal
    unfold BlockManager.listed at hcard hlisted
    dsimp only at htotal
    omega
  · rw [hmaxBlock, hmax₂]
    exact hmax
  · unfold File.writeHeader
    rw [hget]
    have hheader : f'.system.header = (f₂.system.step .writeHeader).header := by
      rw [hsystem]
    simp only [bind, Except.bind, hmark]
    rw [hheader]
    rcases writeFreeList size freeListBlocks memory
      (freeListWords (f₂.system.step .writeHeader).header f₂.metadata.write) with e | ⟨freeList, memory'⟩
    · rfl
    · simp only [hflush]
      rfl

/-! ## Runs -/

theorem clearModifiedBlocks_ok : ∀ {pointers : List MetaBlockPointer} {m m' : MetadataManager},
    m.clearModifiedBlocks pointers = .ok m' → m'.blocks = m.blocks ∧ ∀ p, m'.Modified p → m.Modified p
  | [], m, m', h => by
    cases h
    exact ⟨rfl, fun _ => id⟩
  | pointer :: pointers, m, m', h => by
    unfold MetadataManager.clearModifiedBlocks at h
    split at h
    next => cases h
    next modifiedList hlookup =>
      obtain ⟨hblocks, hmodified⟩ := clearModifiedBlocks_ok h
      refine ⟨hblocks, fun p hp => ?_⟩
      obtain ⟨list, hlist, hbit⟩ := hmodified p hp
      by_cases hid : p.blockIndex = pointer.getBlockId
      · rw [hid] at hlist
        rw [AList.lookup_insert, Option.some.injEq] at hlist
        rw [← hlist, BitVec.getLsbD_and, Bool.and_eq_true] at hbit
        exact ⟨modifiedList, by rw [hid]; exact hlookup, hbit.1⟩
      · rw [AList.lookup_insert_ne hid] at hlist
        exact ⟨list, hlist, hbit⟩

theorem persistent_registerBlocks : ∀ (blockIds : List Nat) {m : MetadataManager},
    (∀ b block, m.blocks.lookup b = some block → block.persistent = true) →
    ∀ b block, (blockIds.foldl MetadataManager.registerBlock m).blocks.lookup b = some block → block.persistent = true
  | [], _, hm => hm
  | id :: blockIds, m, hm => by
    refine persistent_registerBlocks blockIds fun b block hblock => ?_
    unfold MetadataManager.registerBlock at hblock
    split at hblock
    · exact hm b block hblock
    · rcases eq_or_ne b id with rfl | hne
      · rw [AList.lookup_insert, Option.some.injEq] at hblock
        rw [← hblock]
      · rw [AList.lookup_insert_ne hne] at hblock
        exact hm b block hblock

theorem persistent_read {m : MetadataManager} (hm : ∀ b block, m.blocks.lookup b = some block → block.persistent = true)
    (image : AList fun _ : Nat => BitVec 64) {b : Nat} {block : MetadataBlock}
    (hblock : (m.read image).blocks.lookup b = some block) : block.persistent = true := by
  unfold MetadataManager.read at hblock
  rw [lookup_foldl_readBlock image.entries image.nodupKeys] at hblock
  rcases himage : image.entries.dlookup b with _ | freeList
  all_goals rw [himage] at hblock
  · exact hm b block hblock
  · rw [Option.some.injEq] at hblock
    rw [← hblock]
    rcases hlookup : m.blocks.lookup b with _ | block'
    · rfl
    · exact hm b block' hlookup

theorem inv_load {header : Header} (hheader : header.WellFormed) {image : AList fun _ : Nat => BitVec 64}
    (himage : ∀ b ∈ image, header.LeftOut b) {freeListBlocks : List Nat} (hblocks : ∀ b ∈ freeListBlocks, b ∈ image) :
    (File.load header image freeListBlocks).Inv := by
  obtain ⟨m, hm⟩ : ∃ m, (freeListBlocks.foldl MetadataManager.registerBlock .empty).read image = m := ⟨_, rfl⟩
  have hload : File.load header image freeListBlocks
      = ⟨.load header m.markBlocksAsModified.1.blocks.keys.toFinset, m.markBlocksAsModified.1⟩ := by
    rw [← hm]
    rfl
  have hleftOut : ∀ b ∈ m.markBlocksAsModified.1.blocks, header.LeftOut b := fun b hb => by
    have hb := ((mem_blocks_markBlocksAsModified m b).1 hb).1
    rw [← hm, mem_read, (mem_foldl_registerBlock freeListBlocks .empty b).1] at hb
    rcases hb with (hb | hb) | hb
    · exact absurd hb (AList.notMem_empty _)
    · exact himage b (hblocks b hb)
    · exact himage b hb
  have hok : m.Ok := by
    rw [← hm]
    exact read_ok (foldl_registerBlock_ok freeListBlocks ⟨nofun, nofun⟩)
  rw [hload]
  refine ⟨System.inv_load hheader fun b hb => hleftOut b (mem_toFinset.1 hb), markBlocksAsModified_ok hok,
    fun b hb => ⟨?_, Finset.notMem_empty b⟩, fun p hp hmodified => (modified_markBlocksAsModified m hp).1 hmodified,
    fun b block hblock => .inl ?_⟩
  · have hin : b < header.blockCount ∧ b ∉ header.freeList := hleftOut b hb
    show 0 < header.references b
    rw [header.references_eq, if_pos hin]
    obtain hnone | ⟨count, hcount⟩ := lookup_cases header.multiUseBlocks b
    · rw [hnone]
      exact Nat.one_pos
    · rw [hcount]
      have := (hheader.multiUseBlocks b count hcount).2.2.1
      exact Nat.lt_of_lt_of_le Nat.two_pos this
  · obtain ⟨block', hblock', hpersistent, -⟩ := flags_markBlocksAsModified hblock
    rw [← hm] at hblock'
    rw [← hpersistent]
    have hempty : ∀ b block, MetadataManager.empty.blocks.lookup b = some block → block.persistent = true := fun b block h => by
      rw [show MetadataManager.empty.blocks.lookup b = none from AList.lookup_empty b] at h
      cases h
    exact persistent_read (persistent_registerBlocks freeListBlocks hempty) image hblock'

theorem Inv.step (h : f.Inv) (size : BlockSize) {op : FileOp} (hop : f.Allowed op) : (f.step size op).Inv := by
  cases op with
  | block op =>
    obtain ⟨-, hallowed, hcounted, hown⟩ := hop
    exact ⟨h.system.step hallowed hcounted nofun, h.ok, fun b hb => h.system.owned_step (h.owned b hb) (hown b hb), h.modified,
      h.backed⟩
  | allocateHandle order =>
    obtain ⟨p, f', hallocate, htakes⟩ := h.allocateHandle order
    unfold File.step
    dsimp only
    rw [hallocate]
    exact htakes.inv
  | clearModifiedBlocks pointers =>
    unfold File.step
    dsimp only
    rcases hclear : f.metadata.clearModifiedBlocks pointers with e | metadata
    · exact h
    · obtain ⟨hblocks, hmodified⟩ := clearModifiedBlocks_ok hclear
      have hinUse : ∀ p, metadata.InUse p ↔ f.metadata.InUse p := fun p => by
        unfold MetadataManager.InUse
        rw [hblocks]
      refine ⟨h.system, ⟨?_, ?_⟩, ?_, fun p hp hmod => (hinUse p).2 (h.modified p hp (hmodified p hmod)), ?_⟩
      all_goals
        dsimp only
        rw [hblocks]
      · exact h.ok.nodup
      · exact h.ok.lt
      · exact h.owned
      · exact h.backed
  | flush =>
    obtain ⟨f', hflush, hinv, -⟩ := h.flush
    unfold File.step
    dsimp only
    rw [hflush]
    exact hinv
  | writeHeader orders readers memory disk =>
    obtain ⟨f', metadata, freeListBlocks, hwrites, hwrite⟩ := h.writeHeader size orders readers memory disk
    unfold File.step
    dsimp only
    rw [hwrite]
    rcases writeFreeList size freeListBlocks memory (freeListWords f'.system.header metadata.write) with e | ⟨freeList, memory'⟩
    · exact h
    · exact hwrites.inv

theorem inv_run {header : Header} (hheader : header.WellFormed) {image : AList fun _ : Nat => BitVec 64}
    (himage : ∀ b ∈ image, header.LeftOut b) {freeListBlocks : List Nat} (hblocks : ∀ b ∈ freeListBlocks, b ∈ image)
    (size : BlockSize) (ops : List FileOp)
    (hops : Lib.Steps (File.step size) File.Allowed (.load header image freeListBlocks) ops) :
    (Lib.run (File.step size) (.load header image freeListBlocks) ops).Inv :=
  Lib.run_inv_of_steps (fun _ _ h hop => h.step size hop) ops (inv_load hheader himage hblocks) hops

end File

end Haybarn.Block
