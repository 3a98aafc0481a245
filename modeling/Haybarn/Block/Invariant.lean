/-
Every operation keeps the lists of the block manager right, and so does every run. Each operation changes the lists at
one block, or moves the blocks of a list as a whole, so that the proofs look at one block at a time.
-/
import Haybarn.Block.System

namespace Haybarn.Block

open Function Finset

variable {strict : Prop}

/-! ## Allocation -/

theorem BlockManager.peekFreeBlockId_cases (m : BlockManager) :
    (m.freeList.Nonempty ∧ m.peekFreeBlockId ∈ m.freeList) ∨ (m.freeList = ∅ ∧ m.peekFreeBlockId = m.maxBlock) := by
  unfold peekFreeBlockId
  split
  case isTrue h => exact .inl ⟨h, min'_mem _ h⟩
  case isFalse h => exact .inr ⟨not_nonempty_iff_eq_empty.1 h, rfl⟩

variable {s : System} {id : Nat}

theorem System.Inv.peekFreeBlockId (hs : s.Inv strict) :
    s.references s.manager.peekFreeBlockId = 0 ∧ s.manager.peekFreeBlockId ∉ s.manager.registered
      ∧ (strict → ¬ s.header.LeftOut s.manager.peekFreeBlockId) := by
  have hblock := hs s.manager.peekFreeBlockId
  obtain ⟨-, hmem⟩ | ⟨-, hpeek⟩ := s.manager.peekFreeBlockId_cases
  · obtain ⟨-, hreferences, -, -, -, hregistered⟩ := hblock.free hmem
    exact ⟨hreferences, hregistered, fun hstrict h => (hblock.leftOut hstrict h).2.1 hmem⟩
  · obtain ⟨hreferences, hregistered⟩ := hblock.behind hpeek.ge
    exact ⟨hreferences, hregistered, fun hstrict h => absurd (hblock.leftOut hstrict h).1 (by omega)⟩

theorem System.Inv.getFreeBlockIdInternal_eq (hs : s.Inv strict) (type : FreeBlockType) :
    s.manager.getFreeBlockIdInternal type = (.ok s.manager.peekFreeBlockId,
      { s.manager with
        freeList := s.manager.freeList.erase s.manager.peekFreeBlockId
        newlyUsedBlocks := if type = .newlyUsedBlock then insert s.manager.peekFreeBlockId s.manager.newlyUsedBlocks
          else s.manager.newlyUsedBlocks
        maxBlock := if s.manager.freeList.Nonempty then s.manager.maxBlock else s.manager.maxBlock + 1 }) := by
  have hregistered := hs.peekFreeBlockId.2.1
  unfold BlockManager.getFreeBlockIdInternal
  by_cases hfree : s.manager.freeList.Nonempty
  · cases type <;> simp [hfree, hregistered]
  · have hempty : s.manager.freeList = ∅ := not_nonempty_iff_eq_empty.1 hfree
    cases type <;> simp [hempty, hregistered]

theorem System.Inv.getFreeBlockId (hs : s.Inv strict) (type : FreeBlockType) : (s.getFreeBlockId type).Inv strict := by
  intro b
  have hnew := hs.peekFreeBlockId
  have hcases := s.manager.peekFreeBlockId_cases
  unfold System.getFreeBlockId
  rw [hs.getFreeBlockIdInternal_eq type]
  generalize s.manager.peekFreeBlockId = p at hnew hcases
  have hpeek := hs p
  have hblock := hs b
  constructor
  all_goals simp only [mem_erase, update_apply]
  all_goals grind

/-! ## References -/

theorem System.Inv.markBlockAsCheckpointed (hs : s.Inv strict) (id : Nat) :
    (s.step (.markBlockAsCheckpointed id)).Inv strict := by
  intro b
  have hblock := hs b
  constructor
  all_goals simp only [System.step, BlockManager.markBlockAsCheckpointed, mem_erase]
  all_goals grind

theorem BlockManager.increaseBlockReferenceCount_eq {m : BlockManager} {references : Nat} (hpos : 0 < references)
    (hbound : references + 1 < 2 ^ 32)
    (hmulti : m.multiUseBlocks.lookup id = if 2 ≤ references then some references else none) :
    m.increaseBlockReferenceCount id = { m with multiUseBlocks := m.multiUseBlocks.insert id (references + 1) } := by
  unfold increaseBlockReferenceCount
  rw [hmulti]
  split_ifs with h
  · simp only [Nat.mod_eq_of_lt hbound]
  · obtain rfl : references = 1 := by omega
    rfl

theorem System.Inv.increaseBlockReferenceCount (hs : s.Inv strict) (hpos : 0 < s.references id)
    (hbound : s.references id + 1 < 2 ^ 32) : (s.step (.increaseBlockReferenceCount id)).Inv strict := by
  intro b
  have hid := hs id
  have hblock := hs b
  unfold System.step
  dsimp only
  rw [BlockManager.increaseBlockReferenceCount_eq hpos hbound hid.multi]
  constructor
  all_goals simp only [update_apply]
  case multi =>
    by_cases hb : b = id
    · subst hb
      rw [AList.lookup_insert, if_pos rfl, if_pos (by omega)]
    · rw [AList.lookup_insert_ne hb, if_neg hb]
      exact hblock.multi
  all_goals grind

theorem System.Inv.markBlockAsUsed (hs : s.Inv strict) (hmodified : id ∉ s.manager.modifiedBlocks)
    (hinUse : id ∉ s.manager.freeBlocksInUse) (hbound : s.references id + 1 < 2 ^ 32) :
    (s.step (.markBlockAsUsed id)).Inv strict := by
  have hid := hs id
  by_cases hmax : s.manager.maxBlock ≤ id
  · intro b
    have hblock := hs b
    simp only [System.step, BlockManager.markBlockAsUsed, if_pos hmax]
    constructor
    all_goals simp only [update_apply, mem_union, mem_Ico]
    case multi =>
      rw [hblock.multi]
      grind
    all_goals grind
  by_cases hfree : id ∈ s.manager.freeList
  · intro b
    have hblock := hs b
    simp only [System.step, BlockManager.markBlockAsUsed, if_neg hmax, if_pos hfree]
    constructor
    all_goals simp only [update_apply, mem_erase]
    case multi =>
      rw [hblock.multi]
      grind
    all_goals grind
  · -- the block is in use, and the reference is counted
    have hpos := hid.used (by omega) hfree hinUse hmodified
    have hstep := hs.increaseBlockReferenceCount hpos hbound
    simp only [System.step, BlockManager.markBlockAsUsed, if_neg hmax, if_neg hfree] at hstep ⊢
    exact hstep

theorem System.Inv.markBlockAsModified (hs : s.Inv strict) (hpos : 0 < s.references id) :
    (s.step (.markBlockAsModified id)).Inv strict := by
  have hid := hs id
  have hmulti := hid.multi
  by_cases hcount : 2 ≤ s.references id
  · rw [if_pos hcount] at hmulti
    have hsub : (s.references id + 2 ^ 32 - 1) % 2 ^ 32 = s.references id - 1 := by
      have := hid.bound
      omega
    intro b
    have hblock := hs b
    simp only [System.step, BlockManager.markBlockAsModified, hmulti, hsub]
    by_cases hlast : s.references id - 1 ≤ 1
    · simp only [if_pos hlast]
      constructor
      all_goals simp only [update_apply]
      case multi =>
        by_cases hb : b = id
        · subst hb
          rw [AList.lookup_erase, if_pos rfl, if_neg (by omega)]
        · rw [AList.lookup_erase_ne hb, if_neg hb]
          exact hblock.multi
      all_goals grind
    · simp only [if_neg hlast]
      constructor
      all_goals simp only [update_apply]
      case multi =>
        by_cases hb : b = id
        · subst hb
          rw [AList.lookup_insert, if_pos rfl, if_pos (by omega)]
        · rw [AList.lookup_insert_ne hb, if_neg hb]
          exact hblock.multi
      all_goals grind
  · -- the last reference
    rw [if_neg hcount] at hmulti
    have hfree : id ∉ s.manager.freeList := fun h => by have := (hid.free h).2.1; omega
    have hmodified : id ∉ s.manager.modifiedBlocks := fun h => by have := (hid.modified h).2.1; omega
    intro b
    have hblock := hs b
    have hmulti' := hblock.multi
    simp only [System.step, BlockManager.markBlockAsModified, hmulti, if_neg hfree, if_neg hmodified,
      BlockManager.addFreeBlock]
    by_cases hnewly : id ∈ s.manager.newlyUsedBlocks
    · by_cases hregistered : id ∈ s.manager.registered
      · simp only [if_pos hnewly, if_pos hregistered]
        constructor
        all_goals simp only [update_apply, mem_insert, mem_erase]
        case multi =>
          rw [hmulti']
          grind
        all_goals grind
      · simp only [if_pos hnewly, if_neg hregistered]
        constructor
        all_goals simp only [update_apply, mem_insert, mem_erase]
        case multi =>
          rw [hmulti']
          grind
        all_goals grind
    · simp only [if_neg hnewly]
      constructor
      all_goals simp only [update_apply, mem_insert]
      case multi =>
        rw [hmulti']
        grind
      all_goals grind

/-! ## Handles -/

theorem System.Inv.registerBlock (hs : s.Inv strict) (hid : id < s.manager.maxBlock)
    (hfree : id ∉ s.manager.freeList) : (s.step (.registerBlock id)).Inv strict := by
  intro b
  have hblock := hs b
  constructor
  all_goals simp only [System.step, BlockManager.registerBlock, mem_insert]
  all_goals grind

theorem System.Inv.unregisterBlock (hs : s.Inv strict) (id : Nat) : (s.step (.unregisterBlock id)).Inv strict := by
  intro b
  have hid := hs id
  have hblock := hs b
  unfold System.step BlockManager.unregisterBlock
  dsimp only
  by_cases hinUse : id ∈ s.manager.freeBlocksInUse
  · simp only [if_pos hinUse]
    constructor
    all_goals simp only [mem_insert, mem_erase]
    all_goals grind
  · simp only [if_neg hinUse]
    constructor
    all_goals simp only [mem_erase]
    all_goals grind

/-! ## The file -/

/-- Only free blocks are cut off. -/
theorem BlockManager.truncateLoop_spec : ∀ (freeList : List Nat) (maxBlock : Nat),
    truncateLoop freeList maxBlock ≤ maxBlock
      ∧ ∀ b, truncateLoop freeList maxBlock ≤ b → b < maxBlock → b ∈ freeList
  | [], maxBlock => by
    simp only [truncateLoop, le_refl, true_and]
    omega
  | blockId :: freeList, maxBlock => by
    unfold truncateLoop
    split
    · exact ⟨le_rfl, by omega⟩
    · obtain ⟨hle, hmem⟩ := truncateLoop_spec freeList (maxBlock - 1)
      refine ⟨by omega, fun b hb hlt => ?_⟩
      by_cases hlast : b = blockId
      · exact List.mem_cons.2 (.inl hlast)
      · exact List.mem_cons_of_mem _ (hmem b hb (by omega))

theorem System.Inv.truncate (hs : s.Inv strict) : (s.step .truncate).Inv strict := by
  intro b
  have hblock := hs b
  unfold System.step BlockManager.truncate
  dsimp only
  obtain ⟨hle, hmem⟩ := BlockManager.truncateLoop_spec (s.manager.freeList.sort (· ≤ ·)).reverse s.manager.maxBlock
  generalize BlockManager.truncateLoop (s.manager.freeList.sort (· ≤ ·)).reverse s.manager.maxBlock = n at hle hmem
  have hcut : n ≤ b → b < s.manager.maxBlock → b ∈ s.manager.freeList := by
    simpa only [List.mem_reverse, mem_sort] using hmem b
  constructor
  all_goals simp only [mem_filter]
  all_goals grind

theorem BlockManager.foldl_addFreeBlock : ∀ (blocks : List Nat) (m : BlockManager), blocks.foldl addFreeBlock m =
    { m with
      freeList := m.freeList ∪ blocks.toFinset.filter (· ∉ m.registered)
      freeBlocksInUse := m.freeBlocksInUse ∪ blocks.toFinset.filter (· ∈ m.registered) }
  | [], m => by simp
  | blockId :: blocks, m => by
    rw [List.foldl_cons, foldl_addFreeBlock blocks]
    unfold addFreeBlock
    split
    case isTrue h => simp [filter_insert, h]
    case isFalse h => simp [filter_insert, h]

theorem BlockManager.writeHeader_eq (m : BlockManager) : m.writeHeader.2 =
    { m with
      freeList := m.freeList ∪ m.modifiedBlocks.filter (· ∉ m.registered)
      freeBlocksInUse := m.freeBlocksInUse ∪ m.modifiedBlocks.filter (· ∈ m.registered)
      modifiedBlocks := ∅ } := by
  unfold writeHeader
  simp only [foldl_addFreeBlock, sort_toFinset]

theorem BlockManager.writeHeader_freeList (m : BlockManager) :
    m.writeHeader.1.freeList = m.freeList ∪ m.modifiedBlocks ∪ m.newlyUsedBlocks := rfl

theorem BlockManager.writeHeader_blockCount (m : BlockManager) : m.writeHeader.1.blockCount = m.maxBlock := by
  unfold writeHeader
  simp only [foldl_addFreeBlock]

theorem System.Inv.writeHeader (hs : s.Inv strict) (hinUse : strict → s.manager.freeBlocksInUse = ∅) :
    (s.step .writeHeader).Inv strict := by
  intro b
  have hblock := hs b
  unfold System.step
  dsimp only
  rw [BlockManager.writeHeader_eq]
  constructor
  all_goals simp only [Header.LeftOut, BlockManager.writeHeader_freeList, BlockManager.writeHeader_blockCount,
    mem_union, mem_filter, notMem_empty]
  all_goals grind

/-! ## Runs -/

theorem System.Inv.step (hs : s.Inv strict) {op : Op} (hallowed : s.Allowed op) (hcounted : s.Counted op)
    (hwaiting : strict → s.NoneWaiting op) : (s.step op).Inv strict := by
  cases op with
  | getFreeBlockId => exact hs.getFreeBlockId _
  | getFreeBlockIdForCheckpoint => exact hs.getFreeBlockId _
  | markBlockAsCheckpointed id => exact hs.markBlockAsCheckpointed id
  | markBlockAsUsed id => exact hs.markBlockAsUsed hcounted.1 hcounted.2.1 hcounted.2.2
  | markBlockAsModified id => exact hs.markBlockAsModified hallowed
  | increaseBlockReferenceCount id => exact hs.increaseBlockReferenceCount hallowed hcounted
  | registerBlock id => exact hs.registerBlock hallowed.1 hallowed.2
  | unregisterBlock id => exact hs.unregisterBlock id
  | truncate => exact hs.truncate
  | writeHeader => exact hs.writeHeader fun hstrict => hwaiting hstrict rfl

end Haybarn.Block
