/-
The bookkeeping of the free segments: the set is the one of the buffers with a free segment that are not being vacuumed, and
a buffer is cached where it is not empty. Taking, freeing and writing a segment keep it, and change the segments in use by
that one only.

What `New`, `Free` and a write do: a new segment is one that was not in use, a segment that is freed is the only one that is
given up, and the bookkeeping of the free segments is kept. A block with one segment has to be ruled out for `Free`.
-/
import Haybarn.FixedSize.Allocator

namespace Haybarn.FixedSize

open Common Lib Outcome

namespace FixedSizeAllocator

variable {order : HashOrder} {a a' : FixedSizeAllocator}

/-! ## Segments in use -/

/-- The address of a segment in its buffer. -/
def address (a : FixedSizeAllocator) (offset : Nat) : Nat := offset * a.layout.segmentSize + a.layout.bitmaskOffset

/-- A segment is in use, with some contents. -/
def Holds (a : FixedSizeAllocator) (k : Slot) (x : List UInt8) : Prop :=
  ∃ b, a.buffers.lookup k.1 = some b ∧ k.2 < a.available ∧ b.mask.rowIsValid k.2 = false
    ∧ b.memory.read (a.address k.2) a.layout.segmentSize = x

/-- What the free segments are kept in agrees with the buffers. -/
structure Kept (a : FixedSizeAllocator) : Prop where
  layout : a.layout.Ok
  ids : ∀ id b, a.buffers.lookup id = some b → id < 2 ^ 32
  ok : ∀ id b, a.buffers.lookup id = some b → b.Ok a.available
  free : ∀ id, id ∈ a.buffersWithFreeSpace
    ↔ id ∉ a.vacuumBuffers ∧ ∃ b, a.buffers.lookup id = some b ∧ b.segmentCount < a.available
  cached : ∀ id, a.bufferWithFreeSpace = some id → id ∈ a.buffersWithFreeSpace
  uncached : a.bufferWithFreeSpace = none → a.buffersWithFreeSpace = ∅
  vacuum : ∀ id ∈ a.vacuumBuffers, id ∈ a.buffers

theorem kept_create {layout : Layout} (h : layout.Ok) : (create layout).Kept where
  layout := h
  ids id b hb := by cases hb
  ok id b hb := by cases hb
  free id := by simp [create]
  cached id hid := by cases hid
  uncached _ := rfl
  vacuum id hid := by simp [create] at hid

variable {k : Slot} {x : List UInt8} {id : Nat} {b : FixedSizeBuffer}

theorem not_holds_create {layout : Layout} : ¬ (create layout).Holds k x := by
  rintro ⟨b, hb, -⟩
  cases hb

theorem Kept.valid (h : a.Kept) (hk : a.Holds k x) : k ∈ Slot.valid := by
  obtain ⟨b, hb, hlt, -⟩ := hk
  exact ⟨h.ids _ _ hb, hlt.trans h.layout.small⟩

/-! ## The cached buffer -/

theorem begin_mem {ids : Finset Nat} (h : order.begin ids = some id) : id ∈ ids := by
  have hmem := (order.walkSet_perm _).mem_iff.1 (List.mem_of_mem_head? h)
  exact (Finset.mem_sort _).1 hmem

theorem begin_none {ids : Finset Nat} (h : order.begin ids = none) : ids = ∅ := by
  have hperm := order.walkSet_perm (ids.sort (· ≤ ·))
  rw [List.head?_eq_none_iff.1 h] at hperm
  rw [← Finset.sort_toFinset ids (· ≤ ·), ← hperm.nil_eq]
  rfl

theorem Kept.next (layout : a.layout.Ok) (ids : ∀ id b, a.buffers.lookup id = some b → id < 2 ^ 32)
    (ok : ∀ id b, a.buffers.lookup id = some b → b.Ok a.available)
    (free : ∀ id, id ∈ a.buffersWithFreeSpace
      ↔ id ∉ a.vacuumBuffers ∧ ∃ b, a.buffers.lookup id = some b ∧ b.segmentCount < a.available)
    (vacuum : ∀ id ∈ a.vacuumBuffers, id ∈ a.buffers) : (a.nextBufferWithFreeSpace order).Kept where
  layout := layout
  ids := ids
  ok := ok
  free := free
  cached _ h := begin_mem h
  uncached h := begin_none h
  vacuum := vacuum

/-! ## A buffer is replaced -/

theorem lookup_insert_iff {buffers : Buffers} {j : Nat} {b' : FixedSizeBuffer} :
    (buffers.insert id b).lookup j = some b' ↔ j = id ∧ b' = b ∨ j ≠ id ∧ buffers.lookup j = some b' := by
  by_cases hj : j = id
  · subst hj
    rw [AList.lookup_insert]
    constructor
    · rintro ⟨⟩
      exact .inl ⟨rfl, rfl⟩
    · rintro (⟨-, rfl⟩ | ⟨hne, -⟩)
      · rfl
      · exact absurd rfl hne
  · rw [AList.lookup_insert_ne hj]
    simp [hj]

theorem lookup_erase_iff {buffers : Buffers} {j : Nat} {b' : FixedSizeBuffer} :
    (buffers.erase id).lookup j = some b' ↔ j ≠ id ∧ buffers.lookup j = some b' := by
  by_cases hj : j = id
  · subst hj
    simp
  · rw [AList.lookup_erase_ne hj]
    simp [hj]

/-- What the set has to be once a buffer is replaced. -/
def FreeAfter (a : FixedSizeAllocator) (id count : Nat) (free : Finset Nat) : Prop :=
  ∀ j, j ∈ free ↔ j ≠ id ∧ j ∈ a.buffersWithFreeSpace ∨ j = id ∧ id ∉ a.vacuumBuffers ∧ count < a.available

theorem Kept.replace (h : a.Kept) (hid : id < 2 ^ 32) (hb : b.Ok a.available)
    {free : Finset Nat} (hfree : a.FreeAfter id b.segmentCount free) {next : Option Nat} {total : Nat}
    (hcached : ∀ id, next = some id → id ∈ free) (huncached : next = none → free = ∅) :
    Kept ⟨a.layout, total, a.buffers.insert id b, free, next, a.vacuumBuffers⟩ where
  layout := h.layout
  ids j b' hj := by
    rcases lookup_insert_iff.1 hj with ⟨rfl, -⟩ | ⟨-, hj⟩
    · exact hid
    · exact h.ids _ _ hj
  ok j b' hj := by
    rcases lookup_insert_iff.1 hj with ⟨-, rfl⟩ | ⟨-, hj⟩
    · exact hb
    · exact h.ok _ _ hj
  free j := by
    dsimp only
    rw [hfree j]
    by_cases hj : j = id
    · subst hj
      simp
    · simp [hj, h.free j, AList.lookup_insert_ne hj]
  cached := hcached
  uncached := huncached
  vacuum j hj := (AList.mem_insert _).2 (.inr (h.vacuum j hj))

theorem holds_insert {total : Nat} {free : Finset Nat} {next : Option Nat}
    : Holds ⟨a.layout, total, a.buffers.insert id b, free, next, a.vacuumBuffers⟩ k x
      ↔ k.1 ≠ id ∧ a.Holds k x ∨ k.1 = id ∧ k.2 < a.available ∧ b.mask.rowIsValid k.2 = false
        ∧ b.memory.read (a.address k.2) a.layout.segmentSize = x := by
  constructor
  · rintro ⟨b', hb', hrest⟩
    rcases lookup_insert_iff.1 hb' with ⟨hid, rfl⟩ | ⟨hne, hb'⟩
    · exact .inr ⟨hid, hrest⟩
    · exact .inl ⟨hne, b', hb', hrest⟩
  · rintro (⟨hne, b', hb', hrest⟩ | ⟨hid, hrest⟩)
    · exact ⟨b', lookup_insert_iff.2 (.inr ⟨hne, hb'⟩), hrest⟩
    · exact ⟨b, lookup_insert_iff.2 (.inl ⟨hid, rfl⟩), hrest⟩

theorem holds_iff (hb : a.buffers.lookup k.1 = some b) :
    a.Holds k x ↔ k.2 < a.available ∧ b.mask.rowIsValid k.2 = false
      ∧ b.memory.read (a.address k.2) a.layout.segmentSize = x := by
  constructor
  · rintro ⟨b', hb', hrest⟩
    rw [hb] at hb'
    cases hb'
    exact hrest
  · exact fun hrest => ⟨b, hb, hrest⟩

/-! ## The next id -/

theorem availableFrom_le (buffers : Buffers) : ∀ n, availableFrom buffers n ≤ n
  | 0 => Nat.le_refl 0
  | n + 1 => by
    unfold availableFrom
    split
    · exact (availableFrom_le buffers n).trans (Nat.le_succ n)
    · exact Nat.le_refl _

theorem availableFrom_not_mem (buffers : Buffers) : ∀ n, (∃ i ≤ n, i ∉ buffers) → availableFrom buffers n ∉ buffers
  | 0, ⟨i, hi, hfree⟩ => by
    obtain rfl : i = 0 := Nat.le_zero.1 hi
    exact hfree
  | n + 1, ⟨i, hi, hfree⟩ => by
    unfold availableFrom
    split
    next htaken =>
      refine availableFrom_not_mem buffers n ⟨i, ?_, hfree⟩
      have hne : i ≠ n + 1 := fun h => hfree (h ▸ htaken)
      omega
    next hnot => exact hnot

theorem getAvailableBufferId_not_mem (a : FixedSizeAllocator) : a.getAvailableBufferId ∉ a.buffers := by
  apply availableFrom_not_mem
  by_contra hall
  have hsub : Finset.range (a.buffers.keys.length + 1) ⊆ a.buffers.keys.toFinset := by
    intro i hi
    rw [List.mem_toFinset]
    by_contra hfree
    exact hall ⟨i, Nat.lt_succ_iff.1 (Finset.mem_range.1 hi), hfree⟩
  have hcard := (Finset.card_le_card hsub).trans (List.toFinset_card_le _)
  rw [Finset.card_range] at hcard
  omega

theorem lookup_getAvailableBufferId (a : FixedSizeAllocator) : a.buffers.lookup a.getAvailableBufferId = none :=
  AList.lookup_eq_none.2 a.getAvailableBufferId_not_mem

/-! ## New -/

/-- A new buffer is free, and is cached. -/
theorem Kept.addBuffer_spec (h : a.Kept) (hfew : a.buffers.keys.length < 2 ^ 32) :
    a.addBuffer.Kept ∧ ∀ k x, a.addBuffer.Holds k x ↔ a.Holds k x := by
  have hid : a.getAvailableBufferId < 2 ^ 32 := (availableFrom_le _ _).trans_lt hfew
  have hnew := a.lookup_getAvailableBufferId
  have hvacuum : a.getAvailableBufferId ∉ a.vacuumBuffers := fun hmem => a.getAvailableBufferId_not_mem (h.vacuum _ hmem)
  refine ⟨h.replace hid (FixedSizeBuffer.ok_setAllValid _ _) (fun j => ?_) (fun id hnext => ?_) (fun hnext => ?_),
    fun k x => holds_insert.trans ?_⟩
  · rw [Finset.mem_insert]
    by_cases hj : j = a.getAvailableBufferId
    · simp [hj, hvacuum, h.layout.pos]
    · simp [hj]
  · cases hnext
    exact Finset.mem_insert_self _ _
  · cases hnext
  · constructor
    · rintro (⟨-, hk⟩ | ⟨-, hlt, hvalid, -⟩)
      · exact hk
      · simp [hlt] at hvalid
    · refine fun hk => .inl ⟨?_, hk⟩
      rintro hk1
      obtain ⟨b, hb, -⟩ := hk
      rw [hk1, hnew] at hb
      cases hb

/-- What a call that hands out a segment does, and leaves a count of `total`. -/
structure Hands (a : FixedSizeAllocator) (total : Nat) (r : IndexPointer × FixedSizeAllocator) (k : Slot) (x : List UInt8) :
    Prop where
  pointer : r.1 = k.pointer
  kept : r.2.Kept
  layout : r.2.layout = a.layout
  total : r.2.totalSegmentCount = total
  vacuum : r.2.vacuumBuffers = a.vacuumBuffers
  valid : k ∈ Slot.valid
  stays : k.1 ∉ a.vacuumBuffers
  unused : ∀ y, ¬ a.Holds k y
  holds : ∀ k' y, r.2.Holds k' y ↔ a.Holds k' y ∨ k' = k ∧ y = x

/-- A buffer that is empty after a call was so before, and was not the next one to be filled. -/
def FillsNext (a : FixedSizeAllocator) (a' : FixedSizeAllocator) : Prop :=
  ∀ j b, a'.buffers.lookup j = some b → b.segmentCount = 0 → a.buffers.lookup j = some b ∧ a.bufferWithFreeSpace ≠ some j

variable {id : Nat} {k : Slot} {b : FixedSizeBuffer}

theorem Kept.takeSegment_spec (h : a.Kept) (hid : a.bufferWithFreeSpace = some id) :
    (a.takeSegment order).Returns fun r => (∃ k x, a.Hands (a.totalSegmentCount + 1) r k x) ∧ a.FillsNext r.2 := by
  obtain ⟨hstays, b, hb, hlt⟩ := (h.free id).1 (h.cached id hid)
  have hok := h.ok id b hb
  obtain ⟨o, hoffset, ho, hvalid⟩ := hok.getOffset_spec hlt h.layout.words
  have hk : (id, o) ∈ Slot.valid := ⟨h.ids id b hb, ho.trans h.layout.small⟩
  have htake := hok.take ho hvalid b.memory
  unfold FixedSizeAllocator.takeSegment
  simp only [hid, hb, hoffset, done_bind]
  -- the segments in use do not depend on the set and the cached buffer
  have hholds : ∀ total (free : Finset Nat) next k' y, Holds ⟨a.layout, total, a.buffers.insert id
      ⟨b.segmentCount + 1, b.mask.setInvalid o, b.memory⟩, free, next, a.vacuumBuffers⟩ k' y
        ↔ a.Holds k' y ∨ k' = (id, o) ∧ y = b.memory.read (a.address o) a.layout.segmentSize := by
    intro total free next k' y
    rw [holds_insert]
    by_cases hk1 : k'.1 = id
    · have hb' : a.buffers.lookup k'.1 = some b := hk1 ▸ hb
      rw [holds_iff hb', ValidityMask.rowIsValid_setInvalid]
      by_cases hk2 : k'.2 = o
      · have heq : k' = (id, o) := Prod.ext hk1 hk2
        subst heq
        simp [ho, hvalid, eq_comm]
      · have hne : k' ≠ (id, o) := fun hcontra => hk2 (congrArg Prod.snd hcontra)
        simp [hk1, hk2, hne]
    · have hne : k' ≠ (id, o) := fun hcontra => hk1 (congrArg Prod.fst hcontra)
      simp [hk1, hne]
  have hunused : ∀ y, ¬ a.Holds (id, o) y := by
    rintro y ⟨b', hb', -, hcleared, -⟩
    rw [hb] at hb'
    cases hb'
    rw [hvalid] at hcleared
    cases hcleared
  refine returns_done ⟨⟨(id, o), b.memory.read (a.address o) a.layout.segmentSize, rfl, ?_, ?_, ?_, ?_, hk, hstays,
    hunused, fun k' y => ?_⟩, fun j b' hb' hzero => ?_⟩
  · have hlast : b.segmentCount + 1 = a.available ∨ b.segmentCount + 1 < a.available := by omega
    rcases hlast with hfull | hmore
    · rw [if_pos hfull]
      refine h.replace (h.ids id b hb) htake (fun j => ?_) (fun _ hnext => begin_mem hnext) (fun hnext => begin_none hnext)
      rw [Finset.mem_erase]
      by_cases hj : j = id
      · simp [hj, hfull]
      · simp [hj]
    · rw [if_neg hmore.ne]
      refine h.replace (h.ids id b hb) htake (fun j => ?_) (fun _ hnext => h.cached _ (hid.trans hnext)) (fun hnext => ?_)
      swap
      · cases hnext
      by_cases hj : j = id
      · simp [hj, hstays, hmore, h.cached id hid]
      · simp [hj]
  · split <;> rfl
  · split <;> rfl
  · split <;> rfl
  · split
    · exact hholds _ _ _ k' y
    · exact hholds _ _ _ k' y
  · have hlookup : (a.buffers.insert id ⟨b.segmentCount + 1, b.mask.setInvalid o, b.memory⟩).lookup j = some b' := by
      split at hb' <;> exact hb'
    rcases lookup_insert_iff.1 hlookup with ⟨-, rfl⟩ | ⟨hne, hold⟩
    · cases hzero
    · exact ⟨hold, fun hnext => hne (Option.some.inj (hnext.symm.trans hid))⟩

/-- `New` hands out a segment that was not in use. -/
theorem Kept.new_spec (h : a.Kept) (hfew : a.bufferWithFreeSpace = none → a.buffers.keys.length < 2 ^ 32) :
    (a.new order).Returns fun r => (∃ k x, a.Hands (a.totalSegmentCount + 1) r k x) ∧ a.FillsNext r.2 := by
  unfold FixedSizeAllocator.new
  cases hid : a.bufferWithFreeSpace with
  | some id => exact h.takeSegment_spec hid
  | none =>
    obtain ⟨hadd, hsame⟩ := h.addBuffer_spec (hfew hid)
    refine (hadd.takeSegment_spec rfl).mono ?_
    rintro r ⟨⟨k, x, hr⟩, hnext⟩
    refine ⟨⟨k, x, hr.pointer, hr.kept, hr.layout, hr.total, hr.vacuum, hr.valid, hr.stays,
      fun y hy => hr.unused y ((hsame k y).2 hy), fun k' y => by rw [hr.holds, hsame]⟩, fun j b hb hzero => ?_⟩
    obtain ⟨hadded, hne⟩ := hnext j b hb hzero
    rcases lookup_insert_iff.1 hadded with ⟨rfl, -⟩ | ⟨-, hold⟩
    · exact absurd rfl hne
    · refine ⟨hold, ?_⟩
      rw [hid]
      rintro ⟨⟩

/-! ## Free -/

/-- What freeing a segment does. -/
structure Frees (a a' : FixedSizeAllocator) (k : Slot) : Prop where
  kept : a'.Kept
  layout : a'.layout = a.layout
  total : a'.totalSegmentCount = a.totalSegmentCount - 1
  vacuum : a'.vacuumBuffers = a.vacuumBuffers
  holds : ∀ k' y, a'.Holds k' y ↔ a.Holds k' y ∧ k' ≠ k

theorem holds_setValid {k' : Slot} (hb : a.buffers.lookup k.1 = some b) {count total : Nat}
    {free : Finset Nat} {next : Option Nat} {y : List UInt8} :
    Holds ⟨a.layout, total, a.buffers.insert k.1 ⟨count, b.mask.setValid k.2, b.memory⟩, free, next, a.vacuumBuffers⟩ k' y
      ↔ a.Holds k' y ∧ k' ≠ k := by
  rw [holds_insert]
  by_cases hk1 : k'.1 = k.1
  · have hb' : a.buffers.lookup k'.1 = some b := hk1 ▸ hb
    rw [holds_iff hb', ValidityMask.rowIsValid_setValid]
    by_cases hk2 : k'.2 = k.2
    · have heq : k' = k := Prod.ext hk1 hk2
      simp [heq]
    · have hne : k' ≠ k := fun hcontra => hk2 (congrArg Prod.snd hcontra)
      simp [hk1, hk2, hne]
  · have hne : k' ≠ k := fun hcontra => hk1 (congrArg Prod.fst hcontra)
    simp [hk1, hne]

theorem lookup_erase_insert {buffers : Buffers} {j : Nat} {b' : FixedSizeBuffer} :
    ((buffers.insert id b).erase id).lookup j = some b' ↔ j ≠ id ∧ buffers.lookup j = some b' := by
  rw [lookup_erase_iff, and_congr_right_iff]
  exact fun hj => by rw [AList.lookup_insert_ne hj]

theorem Kept.erase (h : a.Kept) (hidle : a.vacuumBuffers = ∅) {total : Nat} {next : Option Nat}
    (hcached : ∀ j, next = some j → j ∈ a.buffersWithFreeSpace.erase id)
    (huncached : next = none → a.buffersWithFreeSpace.erase id = ∅) :
    Kept ⟨a.layout, total, (a.buffers.insert id b).erase id, a.buffersWithFreeSpace.erase id, next, a.vacuumBuffers⟩ where
  layout := h.layout
  ids j b' hj := h.ids j b' (lookup_erase_insert.1 hj).2
  ok j b' hj := h.ok j b' (lookup_erase_insert.1 hj).2
  free j := by
    simp only [lookup_erase_insert, Finset.mem_erase, h.free j]
    by_cases hj : j = id
    · simp [hj]
    · simp [hj]
  cached := hcached
  uncached := huncached
  vacuum j hj := by simp [hidle] at hj

/-- Outside of a vacuum, `Free` gives up the segment, if a buffer has more than one. -/
theorem Kept.free_spec (h : a.Kept) (hidle : a.vacuumBuffers = ∅) (htwo : 2 ≤ a.available) {x : List UInt8}
    (hk : a.Holds k x) : (a.free order k.pointer).Returns fun a' => a.Frees a' k := by
  have hvalid := h.valid hk
  have hid := congrArg Prod.fst (Slot.slot_pointer hvalid)
  have hoffset := congrArg Prod.snd (Slot.slot_pointer hvalid)
  dsimp only [IndexPointer.slot] at hid hoffset
  obtain ⟨b, hb, hlt, hcleared, -⟩ := hk
  have hok := h.ok _ b hb
  have hfree := hok.free hlt hcleared
  have hle := hok.segmentCount_le
  have hstays : k.1 ∉ a.vacuumBuffers := by simp [hidle]
  unfold FixedSizeAllocator.free
  have hb' : a.buffers.lookup k.pointer.getBufferId = some b := by
    rw [hid]
    exact hb
  simp only [hb', hid, hoffset]
  by_cases hempty : b.segmentCount - 1 = 0
  · have hmem : k.1 ∈ a.buffersWithFreeSpace := (h.free _).2 ⟨hstays, b, hb, by omega⟩
    rw [if_neg (not_not.2 hempty)]
    split
    · refine returns_done ⟨?_, rfl, rfl, rfl, fun k' y => holds_setValid hb⟩
      refine h.replace hvalid.1 hfree (fun j => ?_) (fun _ hnext => h.cached _ hnext) (fun hnext => h.uncached hnext)
      by_cases hj : j = k.1
      · simp [hj, hmem, hstays, hempty, h.layout.pos]
      · simp [hj]
    next hcard =>
      have hempties : ∀ i < a.available, b.mask.rowIsValid i = true ∨ i = k.2 := by
        simpa using hfree.eq_zero_iff.1 hempty
      have hholds : ∀ next k' y, Holds ⟨a.layout, a.totalSegmentCount - 1, (a.buffers.insert k.1 ⟨b.segmentCount - 1,
          b.mask.setValid k.2, b.memory⟩).erase k.1, a.buffersWithFreeSpace.erase k.1, next, a.vacuumBuffers⟩ k' y
            ↔ a.Holds k' y ∧ k' ≠ k := by
        intro next k' y
        constructor
        · rintro ⟨b', hb', hrest⟩
          obtain ⟨hne, hb'⟩ := lookup_erase_insert.1 hb'
          exact ⟨⟨b', hb', hrest⟩, fun hcontra => hne (congrArg Prod.fst hcontra)⟩
        · rintro ⟨⟨b', hb', hlt', hcleared', hread⟩, hne⟩
          have hne1 : k'.1 ≠ k.1 := by
            intro hk1
            rw [hk1, hb] at hb'
            cases hb'
            rcases hempties k'.2 hlt' with hrow | hk2
            · rw [hrow] at hcleared'
              cases hcleared'
            · exact hne (Prod.ext hk1 hk2)
          exact ⟨b', lookup_erase_insert.2 ⟨hne1, hb'⟩, hlt', hcleared', hread⟩
      cases hcache : a.bufferWithFreeSpace with
      | none =>
        rw [h.uncached hcache] at hmem
        cases hmem
      | some next =>
        refine returns_done ?_
        split
        · exact ⟨h.erase hidle (fun _ => begin_mem) begin_none, rfl, rfl, rfl, hholds _⟩
        next hne =>
          refine ⟨h.erase hidle (fun j hj => ?_) (fun hcontra => by cases hcontra), rfl, rfl, rfl, hholds _⟩
          cases hj
          exact Finset.mem_erase.2 ⟨hne, h.cached _ hcache⟩
  · rw [if_pos hempty]
    refine returns_done ⟨?_, rfl, rfl, rfl, fun k' y => holds_setValid hb⟩
    refine h.replace hvalid.1 hfree (fun j => ?_) (fun id hnext => ?_) (fun hnext => ?_)
    · by_cases hj : j = k.1
      · have hfewer : b.segmentCount - 1 < a.available := by omega
        simp [hj, hstays, hfewer]
      · simp [hj]
    · rw [Finset.mem_insert]
      cases hcache : a.bufferWithFreeSpace with
      | none =>
        rw [hcache] at hnext
        exact .inl (Option.some.inj hnext).symm
      | some id' =>
        rw [hcache] at hnext
        exact .inr (Option.some.inj hnext ▸ h.cached _ hcache)
    · cases hcache : a.bufferWithFreeSpace <;> simp [hcache] at hnext

/-- Where a buffer has one segment and none of the buffers is empty, `Free` erases the buffer of the segment and asks for the
cached buffer, but there is none. -/
theorem Kept.free_error (h : a.Kept) (order : HashOrder) (hone : a.available = 1)
    (hfull : ∀ id b, a.buffers.lookup id = some b → b.segmentCount ≠ 0) {x : List UInt8} (hk : a.Holds k x) :
    a.free order k.pointer = .error invalidIndex := by
  have hid := congrArg Prod.fst (Slot.slot_pointer (h.valid hk))
  have hoffset := congrArg Prod.snd (Slot.slot_pointer (h.valid hk))
  dsimp only [IndexPointer.slot] at hid hoffset
  obtain ⟨b, hb, -⟩ := hk
  have hb' : a.buffers.lookup k.pointer.getBufferId = some b := by
    rw [hid]
    exact hb
  have hnone : a.buffersWithFreeSpace = ∅ := by
    apply Finset.eq_empty_of_forall_notMem
    intro id hmem
    obtain ⟨-, b, hb, hlt⟩ := (h.free id).1 hmem
    have hne := hfull id b hb
    omega
  have hcache : a.bufferWithFreeSpace = none := by
    cases hcache : a.bufferWithFreeSpace with
    | none => rfl
    | some id =>
      have hmem := h.cached id hcache
      rw [hnone] at hmem
      cases hmem
  have hle := (h.ok _ _ hb).segmentCount_le
  have hempty : b.segmentCount - 1 = 0 := by omega
  unfold FixedSizeAllocator.free
  simp only [hb', hid, hoffset]
  rw [if_neg (not_not.2 hempty), if_neg (by simp [hnone]), hcache]

end FixedSizeAllocator

end Haybarn.FixedSize
