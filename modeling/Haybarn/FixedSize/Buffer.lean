/-
The buffers of a fixed-size allocator: the model of `FixedSizeBuffer`, with a bitmask of the free segments in front of the
segments. The search halves a word until the rightmost bit that is set is left. What taking and freeing a segment does to
the count of the segments in use.
-/
import Haybarn.Common.ValidityMask
import Haybarn.Lib.Cells
import Haybarn.Lib.Outcome
import Mathlib.Data.Finset.Card

namespace Haybarn.FixedSize

open Common Lib

structure FixedSizeBuffer where
  segmentCount : Nat
  /-- The words at the start of the buffer; a bit is set where the segment is free. -/
  mask : ValidityMask
  /-- The bytes behind them, by their address in the buffer. -/
  memory : Cells UInt8

namespace FixedSizeBuffer

/-- The constructor of a buffer in memory, which is zeroed. -/
def new : FixedSizeBuffer := ⟨0, ⟨fun _ => 0#64⟩, fun _ => 0⟩

/-- `BASE` and `SHIFT`, level by level. -/
def levels : List (BitVec 64 × Nat) :=
  [(0x00000000FFFFFFFF, 32), (0x0000FFFF, 16), (0x00FF, 8), (0x0F, 4), (0x3, 2), (0x1, 1)]

/-- A level of the search: the right half of the entry is kept if it has a bit, and the left half otherwise. -/
def searchLevel (s : BitVec 64 × Nat) (level : BitVec 64 × Nat) : BitVec 64 × Nat :=
  if s.1 &&& level.1 != 0 then (s.1 &&& level.1, s.2) else (s.1 >>> level.2, s.2 + level.2)

/-- The position of the rightmost set bit of an entry. -/
def firstValidBit (entry : BitVec 64) : Nat := (levels.foldl searchLevel (entry, 0)).2

/-- `GetOffset`: a buffer is filled up in order before its words are searched for a free segment. -/
def getOffset (b : FixedSizeBuffer) (bitmaskCount : Nat) : Outcome (Nat × FixedSizeBuffer) :=
  if b.mask.rowIsValid b.segmentCount then
    .done (b.segmentCount, { b with mask := b.mask.setInvalid b.segmentCount })
  else
    match (List.range bitmaskCount).find? fun entryIdx => b.mask.entry entryIdx != 0 with
    | some entryIdx =>
      let position := entryIdx * bitsPerValue + firstValidBit (b.mask.entry entryIdx)
      .done (position, { b with mask := b.mask.setInvalid position })
    | none => .error "Invalid bitmask for FixedSizeAllocator"

/-! ## The search -/

/-- The search is left with bits of the entry, in a window of `h` bits. -/
structure Searching (entry : BitVec 64) (h : Nat) (s : BitVec 64 × Nat) : Prop where
  ne_zero : s.1 ≠ 0#64
  window : ∀ j, h ≤ j → s.1.getLsbD j = false
  bit : ∀ j, s.1.getLsbD j = true → entry.getLsbD (s.2 + j) = true

theorem exists_getLsbD {w : BitVec 64} (h : w ≠ 0#64) : ∃ j, w.getLsbD j = true := by
  by_contra hnone
  apply h
  apply BitVec.eq_of_getLsbD_eq
  intro j _
  rw [BitVec.getLsbD_zero]
  exact Bool.eq_false_iff.2 fun hj => hnone ⟨j, hj⟩

theorem Searching.searchLevel {entry base : BitVec 64} {h : Nat} {s : BitVec 64 × Nat} (hs : Searching entry (2 * h) s)
    (hbase : ∀ j, base.getLsbD j = decide (j < h)) : Searching entry h (searchLevel s (base, h)) := by
  unfold FixedSizeBuffer.searchLevel
  split
  next hright =>
    refine ⟨by simpa using hright, fun j hj => ?_, fun j hj => ?_⟩
    · rw [BitVec.getLsbD_and, hbase, decide_eq_false (by omega), Bool.and_false]
    · rw [BitVec.getLsbD_and, Bool.and_eq_true] at hj
      exact hs.bit j hj.1
  next hleft =>
    have hzero : s.1 &&& base = 0#64 := by simpa using hleft
    refine ⟨fun hcontra => ?_, fun j hj => ?_, fun j hj => ?_⟩
    · obtain ⟨j, hj⟩ := exists_getLsbD hs.ne_zero
      by_cases hlt : j < h
      · have hbit := congrArg (·.getLsbD j) hzero
        simp [hj, hbase, hlt] at hbit
      · have hbit := congrArg (·.getLsbD (j - h)) hcontra
        simp only [BitVec.getLsbD_ushiftRight, BitVec.getLsbD_zero] at hbit
        rw [show h + (j - h) = j from by omega, hj] at hbit
        cases hbit
    · rw [BitVec.getLsbD_ushiftRight]
      exact hs.window _ (by omega)
    · rw [BitVec.getLsbD_ushiftRight] at hj
      rw [Nat.add_assoc]
      exact hs.bit _ hj

theorem getLsbD_base {h : Nat} (hh : h ≤ 64) (j : Nat) : (BitVec.ofNat 64 (2 ^ h - 1)).getLsbD j = decide (j < h) := by
  rw [BitVec.getLsbD_ofNat, Nat.testBit_two_pow_sub_one]
  by_cases hj : j < h
  · simp [hj, show j < 64 from by omega]
  · simp [hj]

theorem getLsbD_firstValidBit {entry : BitVec 64} (h : entry ≠ 0#64) : entry.getLsbD (firstValidBit entry) = true := by
  have hstart : Searching entry 64 (entry, 0) :=
    ⟨h, fun j hj => BitVec.getLsbD_of_ge _ _ hj, fun j hj => by rwa [Nat.zero_add]⟩
  have h32 := hstart.searchLevel (getLsbD_base (h := 32) (by decide))
  have h16 := h32.searchLevel (h := 16) (getLsbD_base (by decide))
  have h8 := h16.searchLevel (h := 8) (getLsbD_base (by decide))
  have h4 := h8.searchLevel (h := 4) (getLsbD_base (by decide))
  have h2 := h4.searchLevel (h := 2) (getLsbD_base (by decide))
  have h1 := h2.searchLevel (h := 1) (getLsbD_base (by decide))
  have hend : Searching entry 1 (levels.foldl FixedSizeBuffer.searchLevel (entry, 0)) := h1
  obtain ⟨j, hj⟩ := exists_getLsbD hend.ne_zero
  have hzero : j = 0 := by
    by_contra hne
    rw [hend.window j (by omega)] at hj
    cases hj
  rw [hzero] at hj
  exact hend.bit 0 hj

theorem firstValidBit_lt {entry : BitVec 64} (h : entry ≠ 0#64) : firstValidBit entry < 64 := by
  by_contra hge
  have hbit := getLsbD_firstValidBit h
  rw [BitVec.getLsbD_of_ge _ _ (by omega)] at hbit
  cases hbit

/-! ## Segments in use -/

/-- The segments in use, of the `available` ones. -/
def cleared (b : FixedSizeBuffer) (available : Nat) : Finset Nat :=
  (Finset.range available).filter fun i => b.mask.rowIsValid i = false

/-- The count is the one of the segments in use, and no bit behind the segments is set. -/
structure Ok (available : Nat) (b : FixedSizeBuffer) : Prop where
  count : b.segmentCount = (b.cleared available).card
  behind : ∀ i, available ≤ i → b.mask.rowIsValid i = false

variable {available bitmaskCount : Nat} {b : FixedSizeBuffer}

theorem mem_cleared {i : Nat} : i ∈ b.cleared available ↔ i < available ∧ b.mask.rowIsValid i = false := by
  simp [cleared]

theorem Ok.segmentCount_le (h : b.Ok available) : b.segmentCount ≤ available := by
  rw [h.count]
  exact (Finset.card_filter_le _ _).trans (Finset.card_range _).le

theorem Ok.exists_valid (h : b.Ok available) : b.segmentCount < available ↔ ∃ i < available, b.mask.rowIsValid i = true := by
  have hcard : (Finset.range available).card = available := Finset.card_range _
  rw [h.count]
  constructor
  · intro hlt
    by_contra hnone
    rw [cleared, Finset.filter_true_of_mem, hcard] at hlt
    · exact Nat.lt_irrefl _ hlt
    · intro i hi
      exact Bool.eq_false_iff.2 fun hvalid => hnone ⟨i, Finset.mem_range.1 hi, hvalid⟩
  · rintro ⟨i, hi, hvalid⟩
    calc (b.cleared available).card < (Finset.range available).card := by
          refine Finset.card_lt_card ⟨Finset.filter_subset _ _, fun hsub => ?_⟩
          have hmem := (mem_cleared.1 (hsub (Finset.mem_range.2 hi))).2
          rw [hvalid] at hmem
          cases hmem
      _ = available := hcard

theorem Ok.eq_zero_iff (h : b.Ok available) : b.segmentCount = 0 ↔ ∀ i < available, b.mask.rowIsValid i = true := by
  rw [h.count, Finset.card_eq_zero, cleared, Finset.filter_eq_empty_iff]
  simp

/-- `GetOffset` finds a free segment where there is one. -/
theorem Ok.getOffset_spec (h : b.Ok available) (hlt : b.segmentCount < available) (hwords : available ≤ 64 * bitmaskCount) :
    ∃ o, b.getOffset bitmaskCount = .done (o, { b with mask := b.mask.setInvalid o })
      ∧ o < available ∧ b.mask.rowIsValid o = true := by
  unfold getOffset
  split
  next hvalid => exact ⟨_, rfl, hlt, hvalid⟩
  next hvalid =>
    obtain ⟨i, hi, hrow⟩ := h.exists_valid.1 hlt
    have hentry : b.mask.entry (i / 64) ≠ 0#64 := by
      intro hzero
      rw [ValidityMask.rowIsValid_eq, hzero, BitVec.getLsbD_zero] at hrow
      cases hrow
    cases hfind : (List.range bitmaskCount).find? fun entryIdx => b.mask.entry entryIdx != 0 with
    | none =>
      have hnone := List.find?_eq_none.1 hfind (i / 64) (List.mem_range.2 (by omega))
      exact absurd hentry (by simpa using hnone)
    | some e =>
      have hne : b.mask.entry e ≠ 0#64 := by simpa using List.find?_some hfind
      have hbit := firstValidBit_lt hne
      have hdiv : (e * 64 + firstValidBit (b.mask.entry e)) / 64 = e := by omega
      have hmod : (e * 64 + firstValidBit (b.mask.entry e)) % 64 = firstValidBit (b.mask.entry e) := by omega
      have hset : b.mask.rowIsValid (e * 64 + firstValidBit (b.mask.entry e)) = true := by
        rw [ValidityMask.rowIsValid_eq, hdiv, hmod]
        exact getLsbD_firstValidBit hne
      refine ⟨_, rfl, ?_, hset⟩
      by_contra hge
      exact absurd (hset.symm.trans (h.behind _ (Nat.le_of_not_lt hge))) (by decide)

theorem Ok.take (h : b.Ok available) {o : Nat} (ho : o < available) (hvalid : b.mask.rowIsValid o = true)
    (memory : Cells UInt8) : Ok available ⟨b.segmentCount + 1, b.mask.setInvalid o, memory⟩ where
  count := by
    have hinsert : cleared ⟨b.segmentCount + 1, b.mask.setInvalid o, memory⟩ available = insert o (b.cleared available) := by
      ext i
      rw [Finset.mem_insert, mem_cleared, mem_cleared, ValidityMask.rowIsValid_setInvalid]
      by_cases hi : i = o
      · simp [hi, ho]
      · simp [hi]
    have hnot : o ∉ b.cleared available := fun hmem => by
      rw [mem_cleared, hvalid] at hmem
      cases hmem.2
    rw [hinsert, Finset.card_insert_of_notMem hnot, h.count]
  behind i hi := by
    dsimp only
    rw [ValidityMask.rowIsValid_setInvalid, h.behind i hi, Bool.false_and]

theorem Ok.free (h : b.Ok available) {o : Nat} (ho : o < available) (hvalid : b.mask.rowIsValid o = false) :
    Ok available { b with segmentCount := b.segmentCount - 1, mask := b.mask.setValid o } where
  count := by
    have herase : cleared { b with segmentCount := b.segmentCount - 1, mask := b.mask.setValid o } available
        = (b.cleared available).erase o := by
      ext i
      rw [Finset.mem_erase, mem_cleared, mem_cleared, ValidityMask.rowIsValid_setValid]
      by_cases hi : i = o
      · simp [hi]
      · simp [hi]
    rw [herase, Finset.card_erase_of_mem (mem_cleared.2 ⟨ho, hvalid⟩), h.count]
  behind i hi := by
    have hne : i ≠ o := by omega
    dsimp only
    rw [ValidityMask.rowIsValid_setValid, h.behind i hi, beq_false_of_ne hne, Bool.or_false]

theorem ok_setAllValid (available : Nat) (memory : Cells UInt8) :
    Ok available ⟨0, new.mask.setAllValid available, memory⟩ where
  count := by
    symm
    rw [Finset.card_eq_zero, cleared, Finset.filter_eq_empty_iff]
    intro i hi
    simp [Finset.mem_range.1 hi]
  behind i hi := by
    have hnot : ¬ i < available := by omega
    dsimp only
    rw [ValidityMask.rowIsValid_setAllValid, decide_eq_false hnot, Bool.or_false, ValidityMask.rowIsValid_eq]
    exact BitVec.getLsbD_zero

end FixedSizeBuffer

end Haybarn.FixedSize
