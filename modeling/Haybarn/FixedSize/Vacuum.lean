/-
What reading, writing, merging and vacuuming do to the segments in use. Merging shifts the ids of the other allocator behind
the ones that are taken; a vacuum only takes buffers out of the set, its buffers have a free segment each, and what is left in
them when it ends is dropped.
-/
import Haybarn.FixedSize.Allocation
import Mathlib.Algebra.Order.BigOperators.Group.List

namespace Haybarn.FixedSize

open Common Lib Outcome

namespace FixedSizeAllocator

variable {order : HashOrder} {a other : FixedSizeAllocator}

/-! ## Contents -/

variable {x : List UInt8}

theorem Kept.getHandle_spec (h : a.Kept) {k : Slot} (hk : a.Holds k x) :
    ∃ b, a.buffers.lookup k.1 = some b ∧ b.memory.read (a.address k.2) a.layout.segmentSize = x
      ∧ a.getHandle k.pointer = .done (b, a.address k.2) := by
  have hvalid := h.valid hk
  have hid := congrArg Prod.fst (Slot.slot_pointer hvalid)
  have hoffset := congrArg Prod.snd (Slot.slot_pointer hvalid)
  dsimp only [IndexPointer.slot] at hid hoffset
  obtain ⟨b, hb, hlt, -, hread⟩ := hk
  have hb' : a.buffers.lookup k.pointer.getBufferId = some b := by
    rw [hid]
    exact hb
  have hfits := h.layout.fits
  have hmul : (k.2 + 1) * a.layout.segmentSize ≤ a.layout.availableSegmentsPerBuffer * a.layout.segmentSize :=
    Nat.mul_le_mul_right _ hlt
  rw [Nat.add_mul] at hmul
  refine ⟨b, hb, hread, ?_⟩
  unfold getHandle
  simp only [hb', hoffset]
  rw [if_pos (by omega)]
  rfl

theorem Kept.readSegment_spec (h : a.Kept) {k : Slot} (hk : a.Holds k x) :
    a.readSegment k.pointer = .done x := by
  obtain ⟨b, -, hread, hhandle⟩ := h.getHandle_spec hk
  rw [readSegment, hhandle, done_bind]
  exact congrArg done hread

/-- What writing a segment does. -/
structure Writes (a a' : FixedSizeAllocator) (k : Slot) (x : List UInt8) : Prop where
  kept : a'.Kept
  layout : a'.layout = a.layout
  total : a'.totalSegmentCount = a.totalSegmentCount
  vacuum : a'.vacuumBuffers = a.vacuumBuffers
  holds : ∀ k' y, a'.Holds k' y ↔ a.Holds k' y ∧ k' ≠ k ∨ (∃ z, a.Holds k z) ∧ k' = k ∧ y = x

theorem Kept.writeSegment_spec (h : a.Kept) {k : Slot} {bytes : List UInt8} (hk : a.Holds k x)
    (hlen : bytes.length = a.layout.segmentSize) : (a.writeSegment k.pointer bytes).Returns fun a' => a.Writes a' k bytes := by
  have hid := congrArg Prod.fst (Slot.slot_pointer (h.valid hk))
  obtain ⟨b, hb, -, hhandle⟩ := h.getHandle_spec hk
  have hheld := hk
  obtain ⟨b', hb', hlt, hcleared, -⟩ := hk
  rw [hb] at hb'
  cases hb'
  have hok := h.ok _ _ hb
  rw [writeSegment, hhandle, done_bind]
  dsimp only [IndexPointer.slot] at hid
  rw [hid]
  have hok' : FixedSizeBuffer.Ok a.available { b with memory := b.memory.write (a.address k.2) bytes } :=
    ⟨hok.count, hok.behind⟩
  refine returns_done ⟨?_, rfl, rfl, rfl, fun k' y => holds_insert.trans ?_⟩
  · refine h.replace (h.ids _ _ hb) hok' (fun j => ?_) (fun id hid => h.cached id hid) fun hid => h.uncached hid
    by_cases hj : j = k.1
    · subst hj
      rw [h.free]
      simp [hb]
    · simp [hj]
  · by_cases hk1 : k'.1 = k.1
    · have hb1 : a.buffers.lookup k'.1 = some b := hk1 ▸ hb
      rw [holds_iff hb1]
      by_cases hk2 : k'.2 = k.2
      · have heq : k' = k := Prod.ext hk1 hk2
        subst heq
        have hsame := (Cells.has_write b.memory (a.address k'.2) bytes).read_eq_of_length hlen
        simp [hlt, hcleared, hsame, eq_comm, show (∃ z, a.Holds k' z) from ⟨_, hheld⟩]
      · have hne : k' ≠ k := fun hcontra => hk2 (congrArg Prod.snd hcontra)
        -- the segments of one buffer do not overlap
        have hapart : a.address k'.2 + a.layout.segmentSize ≤ a.address k.2
            ∨ a.address k.2 + a.layout.segmentSize ≤ a.address k'.2 := by
          unfold address
          rcases Nat.lt_or_gt_of_ne hk2 with hbefore | hbehind
          · have hmul : (k'.2 + 1) * a.layout.segmentSize ≤ k.2 * a.layout.segmentSize := Nat.mul_le_mul_right _ hbefore
            rw [Nat.add_mul] at hmul
            omega
          · have hmul : (k.2 + 1) * a.layout.segmentSize ≤ k'.2 * a.layout.segmentSize := Nat.mul_le_mul_right _ hbehind
            rw [Nat.add_mul] at hmul
            omega
        have hread : (b.memory.write (a.address k.2) bytes).read (a.address k'.2) a.layout.segmentSize
            = b.memory.read (a.address k'.2) a.layout.segmentSize := by
          refine Cells.Has.read_eq_of_length ((Cells.has_read b.memory _ _).write ?_) (Cells.length_read ..)
          rw [Cells.length_read]
          omega
        simp [hk1, hne, hread]
    · have hne : k' ≠ k := fun hcontra => hk1 (congrArg Prod.fst hcontra)
      simp [hk1, hne]

/-! ## Buffers are dropped -/

theorem lookup_keep {buffers : Buffers} {test : Nat → FixedSizeBuffer → Bool} {id : Nat} {b : FixedSizeBuffer} :
    (buffers.keep test).lookup id = some b ↔ buffers.lookup id = some b ∧ test id b = true := by
  have hmem := @AList.mem_lookup_iff Nat (fun _ => FixedSizeBuffer) _ id b
  rw [← Option.mem_def, ← Option.mem_def, hmem, hmem, Buffers.keep, List.mem_filter]

/-- What leaves the segments in use as they are does. -/
structure Leaves (a a' : FixedSizeAllocator) : Prop where
  kept : a'.Kept
  layout : a'.layout = a.layout
  total : a'.totalSegmentCount = a.totalSegmentCount
  vacuum : a'.vacuumBuffers = a.vacuumBuffers
  holds : ∀ k x, a'.Holds k x ↔ a.Holds k x

/-- Outside of a vacuum, no segment of an empty buffer is in use. -/
theorem Kept.removeEmptyBuffers_spec (h : a.Kept) (order : HashOrder) (hidle : a.vacuumBuffers = ∅) : a.Leaves (a.removeEmptyBuffers order) where
  kept := by
    refine Kept.next h.layout (fun id b hb => h.ids _ _ (lookup_keep.1 hb).1) (fun id b hb => h.ok _ _ (lookup_keep.1 hb).1)
      (fun id => ?_) (fun id hid => by simp [hidle] at hid)
    dsimp only
    rw [Finset.mem_filter, h.free id]
    simp only [lookup_keep]
    constructor
    · rintro ⟨⟨hstays, b, hb, hlt⟩, hall⟩
      exact ⟨hstays, b, ⟨hb, by simpa [hb] using hall⟩, hlt⟩
    · rintro ⟨hstays, b, ⟨hb, hne⟩, hlt⟩
      exact ⟨⟨hstays, b, hb, hlt⟩, by simpa [hb] using hne⟩
  layout := rfl
  total := rfl
  vacuum := rfl
  holds k x := by
    constructor
    · rintro ⟨b, hb, hrest⟩
      exact ⟨b, (lookup_keep.1 hb).1, hrest⟩
    · rintro ⟨b, hb, hlt, hcleared, hread⟩
      refine ⟨b, lookup_keep.2 ⟨hb, ?_⟩, hlt, hcleared, hread⟩
      rw [bne_iff_ne]
      intro hzero
      rw [(h.ok _ _ hb).eq_zero_iff.1 hzero _ hlt] at hcleared
      cases hcleared

/-! ## Merging -/

theorem le_foldl_upperBound (ids : List Nat) : ∀ u : Nat,
    u ≤ ids.foldl (fun upperBoundId id => if upperBoundId ≤ id then id + 1 else upperBoundId) u
      ∧ ∀ id ∈ ids, id < ids.foldl (fun upperBoundId id => if upperBoundId ≤ id then id + 1 else upperBoundId) u := by
  induction ids with
  | nil => simp
  | cons id ids ih =>
    intro u
    rw [List.foldl_cons]
    obtain ⟨hle, hlt⟩ := ih (if u ≤ id then id + 1 else u)
    have hnext : u ≤ (if u ≤ id then id + 1 else u) ∧ id < (if u ≤ id then id + 1 else u) := by
      split <;> omega
    refine ⟨hnext.1.trans hle, fun j hj => ?_⟩
    rcases List.mem_cons.1 hj with rfl | hj
    · exact hnext.2.trans_le hle
    · exact hlt j hj

theorem lt_getUpperBoundBufferId {id : Nat} (h : id ∈ a.buffers) : id < a.getUpperBoundBufferId :=
  (le_foldl_upperBound _ 0).2 id h

theorem lookup_insertBuffers {upper id : Nat} {b : FixedSizeBuffer} :
    ∀ {entries : List (Σ _ : Nat, FixedSizeBuffer)} {buffers : Buffers}, entries.NodupKeys →
      (∀ e ∈ entries, e.1 + upper ∉ buffers) →
        ((insertBuffers buffers upper entries).lookup id = some b
          ↔ buffers.lookup id = some b ∨ ∃ e ∈ entries, e.1 + upper = id ∧ e.2 = b)
  | [], buffers, _, _ => by simp [insertBuffers]
  | e :: entries, buffers, hnodup, hfree => by
    obtain ⟨hnot, hnodup⟩ := List.nodupKeys_cons.1 hnodup
    have hfirst := hfree e List.mem_cons_self
    have hrest : ∀ e' ∈ entries, e'.1 + upper ∉ buffers.insert (e.1 + upper) e.2 := by
      intro e' he'
      rw [AList.mem_insert, not_or]
      refine ⟨fun heq => hnot ?_, hfree e' (List.mem_cons_of_mem _ he')⟩
      rw [show e.1 = e'.1 from by omega]
      exact List.mem_map_of_mem he'
    have ih : _ ↔ (_ = some b) ∨ ∃ e' ∈ entries, e'.1 + upper = id ∧ e'.2 = b := lookup_insertBuffers hnodup hrest
    unfold insertBuffers at ih ⊢
    rw [List.foldl_cons, if_neg hfirst, ih, lookup_insert_iff]
    constructor
    · rintro ((⟨rfl, rfl⟩ | ⟨-, hb⟩) | ⟨e', he', hsame⟩)
      · exact .inr ⟨e, List.mem_cons_self, rfl, rfl⟩
      · exact .inl hb
      · exact .inr ⟨e', List.mem_cons_of_mem _ he', hsame⟩
    · rintro (hb | ⟨e', he', hid, heq⟩)
      · refine .inl (.inr ⟨?_, hb⟩)
        rintro rfl
        exact hfirst (AList.lookup_isSome.1 (by rw [hb]; rfl))
      · rcases List.mem_cons.1 he' with rfl | he'
        · exact .inl (.inl ⟨hid.symm, heq.symm⟩)
        · exact .inr ⟨e', he', hid, heq⟩

/-- What merging does: the segments of the other allocator are shifted. -/
structure Merges (a other a' : FixedSizeAllocator) : Prop where
  kept : a'.Kept
  layout : a'.layout = a.layout
  total : a'.totalSegmentCount = a.totalSegmentCount + other.totalSegmentCount
  vacuum : a'.vacuumBuffers = ∅
  valid : ∀ k x, other.Holds k x → k.shift a.getUpperBoundBufferId ∈ Slot.valid
  apart : ∀ k x y, other.Holds k x → ¬ a.Holds (k.shift a.getUpperBoundBufferId) y
  holds : ∀ k x, a'.Holds k x ↔ a.Holds k x ∨ ∃ k₂ : Slot, k = k₂.shift a.getUpperBoundBufferId ∧ other.Holds k₂ x

theorem Kept.merge_spec (h : a.Kept) (order : HashOrder) (h' : other.Kept) (hidle : a.vacuumBuffers = ∅) (hidle' : other.vacuumBuffers = ∅)
    (hlayout : other.layout = a.layout) (hids : ∀ id ∈ other.buffers, id + a.getUpperBoundBufferId < 2 ^ 32) :
    a.Merges other (a.merge order other) := by
  generalize hupper : a.getUpperBoundBufferId = upper at hids
  have hbelow : ∀ {id}, id ∈ a.buffers → id < upper := fun hid => hupper ▸ lt_getUpperBoundBufferId hid
  have hlookup : ∀ id b, (insertBuffers a.buffers upper other.buffers.entries).lookup id = some b
      ↔ a.buffers.lookup id = some b ∨ ∃ j, j + upper = id ∧ other.buffers.lookup j = some b := by
    intro id b
    rw [lookup_insertBuffers other.buffers.nodupKeys fun e _ hmem => absurd (hbelow hmem) (by omega)]
    refine or_congr_right ⟨?_, ?_⟩
    · rintro ⟨⟨j, b⟩, he, hj, rfl⟩
      exact ⟨j, hj, AList.mem_lookup_iff.2 he⟩
    · rintro ⟨j, hj, hb⟩
      exact ⟨⟨j, b⟩, AList.mem_lookup_iff.1 hb, hj, rfl⟩
  have hmem : ∀ {s : FixedSizeAllocator} {id b}, s.buffers.lookup id = some b → id ∈ s.buffers := fun hb =>
    AList.lookup_isSome.1 (by rw [hb]; rfl)
  have havailable : other.available = a.available := by rw [available, hlayout]
  have haddress : ∀ i, other.address i = a.address i := fun i => by rw [address, address, hlayout]
  unfold merge
  simp only [hupper]
  refine ⟨Kept.next h.layout (fun id b hb => ?_) (fun id b hb => ?_) (fun id => ?_) (fun id hid => ?_), rfl, rfl, hidle,
    fun k x hk => ?_, fun k x y hk hcontra => ?_, fun k x => ?_⟩
  · rcases (hlookup id b).1 hb with hold | ⟨j, rfl, hnew⟩
    · exact h.ids _ _ hold
    · exact hids _ (hmem hnew)
  · rcases (hlookup id b).1 hb with hold | ⟨j, rfl, hnew⟩
    · exact h.ok _ _ hold
    · exact havailable ▸ h'.ok _ _ hnew
  · simp only [Finset.mem_union, Finset.mem_image, h.free id, h'.free, hlookup, hidle, hidle', havailable,
      Finset.notMem_empty, not_false_eq_true, true_and]
    constructor
    · rintro (⟨b, hb, hlt⟩ | ⟨j, ⟨b, hb, hlt⟩, rfl⟩)
      · exact ⟨b, .inl hb, hlt⟩
      · exact ⟨b, .inr ⟨j, rfl, hb⟩, hlt⟩
    · rintro ⟨b, hb | ⟨j, rfl, hb⟩, hlt⟩
      · exact .inl ⟨b, hb, hlt⟩
      · exact .inr ⟨j, ⟨b, hb, hlt⟩, rfl⟩
  · dsimp only at hid
    rw [hidle] at hid
    cases hid
  · rw [hupper]
    have hvalid := h'.valid hk
    obtain ⟨b, hb, -⟩ := hk
    exact ⟨hids _ (hmem hb), hvalid.2⟩
  · rw [hupper] at hcontra
    obtain ⟨b, hb, -⟩ := hcontra
    have hlt : k.1 + upper < upper := hbelow (hmem hb)
    omega
  · rw [hupper]
    constructor
    · rintro ⟨b, hb, hrest⟩
      rcases (hlookup _ b).1 hb with hb | ⟨j, hj, hb⟩
      · exact .inl ⟨b, hb, hrest⟩
      · refine .inr ⟨(j, k.2), Prod.ext hj.symm rfl, b, hb, ?_⟩
        rw [havailable, haddress, hlayout]
        exact hrest
    · rintro (⟨b, hb, hrest⟩ | ⟨k₂, rfl, b, hb, hrest⟩)
      · exact ⟨b, (hlookup _ b).2 (.inl hb), hrest⟩
      · rw [havailable, haddress, hlayout] at hrest
        exact ⟨b, (hlookup _ b).2 (.inr ⟨k₂.1, rfl, hb⟩), hrest⟩

/-! ## Vacuuming -/

theorem mem_of_mem_temporaryVacuumBuffers {e : Nat × Nat} (h : e ∈ a.temporaryVacuumBuffers order) : e.2 ∈ a.buffers := by
  rw [temporaryVacuumBuffers, (List.perm_insertionSort _ _).mem_iff, freeSegments, List.mem_filterMap] at h
  obtain ⟨id, hid, hmap⟩ := h
  obtain ⟨b, -, rfl⟩ := Option.map_eq_some_iff.1 hmap
  exact (order.walkMap_perm _).mem_iff.1 hid

theorem excess_le (order : HashOrder) (a : FixedSizeAllocator) :
    ((a.freeSegments order).map (·.1)).sum / a.available ≤ (a.temporaryVacuumBuffers order).length := by
  apply Nat.div_le_of_le_mul
  have hbound : ∀ n ∈ (a.freeSegments order).map (·.1), n ≤ a.available := by
    intro n hn
    obtain ⟨e, he, rfl⟩ := List.mem_map.1 hn
    obtain ⟨id, -, hmap⟩ := List.mem_filterMap.1 he
    obtain ⟨b, -, rfl⟩ := Option.map_eq_some_iff.1 hmap
    exact Nat.sub_le _ _
  have hsum := List.sum_le_card_nsmul _ _ hbound
  rw [List.length_map, nsmul_eq_mul, Nat.cast_id, Nat.mul_comm] at hsum
  rwa [temporaryVacuumBuffers, List.length_insertionSort]

/-- What starting a vacuum does: no segment is given up or taken. -/
structure Starts (a : FixedSizeAllocator) (r : Bool × FixedSizeAllocator) : Prop where
  kept : r.2.Kept
  layout : r.2.layout = a.layout
  total : r.2.totalSegmentCount = a.totalSegmentCount
  holds : ∀ k x, r.2.Holds k x ↔ a.Holds k x

theorem Kept.initializeVacuum_spec (h : a.Kept) (hidle : a.vacuumBuffers = ∅)
    (hempty : a.totalSegmentCount = 0 → ∀ k x, ¬ a.Holds k x) : (a.initializeVacuum order).Returns a.Starts := by
  unfold initializeVacuum
  split
  next hzero =>
    refine returns_done ⟨?_, rfl, hzero.symm, fun k x => ?_⟩
    · refine ⟨h.layout, fun id b hb => ?_, fun id b hb => ?_, fun id => ?_, fun id hid => ?_, fun _ => rfl, fun id hid => ?_⟩
      · cases hb
      · cases hb
      · simp [reset]
      · cases hid
      · simp [reset, hidle] at hid
    · refine ⟨?_, fun hk => (hempty hzero k x hk).elim⟩
      rintro ⟨b, hb, -⟩
      cases hb
  next hsome =>
    have hremove := h.removeEmptyBuffers_spec order hidle
    generalize a.removeEmptyBuffers order = a' at hremove
    have hidle' := hremove.vacuum.trans hidle
    have hkept := hremove.kept
    have hsame : a.Starts (false, a') := ⟨hkept, hremove.layout, hremove.total, hremove.holds⟩
    dsimp only
    split
    · exact returns_done hsame
    split
    · exact returns_done hsame
    rw [if_neg (Nat.not_lt.2 (excess_le order a'))]
    generalize hvacuumed : (List.map (·.2) ((a'.temporaryVacuumBuffers order).drop _)).toFinset = vacuumed
    have hmem : ∀ id ∈ vacuumed, id ∈ a'.buffers := by
      rintro id hid
      rw [← hvacuumed, List.mem_toFinset] at hid
      obtain ⟨e, he, rfl⟩ := List.mem_map.1 hid
      exact mem_of_mem_temporaryVacuumBuffers (List.mem_of_mem_drop he)
    refine returns_done ⟨?_, hremove.layout, hremove.total, hremove.holds⟩
    refine ⟨hkept.layout, hkept.ids, hkept.ok, fun id => ?_, fun id => begin_mem, begin_none, fun id hid => ?_⟩
    · simp only [nextBufferWithFreeSpace, Finset.mem_sdiff, hkept.free id, hidle', Finset.mem_union, Finset.notMem_empty,
        not_false_eq_true, true_and, false_or]
      exact and_comm
    · simp only [nextBufferWithFreeSpace, hidle', Finset.mem_union, Finset.notMem_empty, false_or] at hid
      exact hmem id hid

/-- `VacuumPointer` hands out a segment with the contents of the old one, and counts no segment more. -/
theorem Kept.vacuumPointer_spec (h : a.Kept) {k : Slot} (hk : a.Holds k x)
    (hfew : a.bufferWithFreeSpace = none → a.buffers.keys.length < 2 ^ 32) :
    (a.vacuumPointer order k.pointer).Returns fun r => ∃ k', a.Hands a.totalSegmentCount r k' x := by
  unfold vacuumPointer
  refine (h.new_spec hfew).bind ?_
  rintro ⟨ptr, a₁⟩ ⟨⟨k', x', hnew⟩, -⟩
  obtain rfl := hnew.pointer
  -- the count that `New` raised is lowered again
  have hkept : Kept { a₁ with totalSegmentCount := a₁.totalSegmentCount - 1 } :=
    ⟨hnew.kept.layout, hnew.kept.ids, hnew.kept.ok, hnew.kept.free, hnew.kept.cached, hnew.kept.uncached, hnew.kept.vacuum⟩
  have hholds : ∀ j y, Holds { a₁ with totalSegmentCount := a₁.totalSegmentCount - 1 } j y ↔ a.Holds j y ∨ j = k' ∧ y = x' :=
    hnew.holds
  have hlen : x.length = a₁.layout.segmentSize := by
    obtain ⟨b, -, -, -, rfl⟩ := hk
    rw [Cells.length_read, hnew.layout]
  have hread := hkept.readSegment_spec ((hholds k x).2 (.inl hk))
  dsimp only at hread ⊢
  rw [hread, done_bind]
  refine (hkept.writeSegment_spec ((hholds k' x').2 (.inr ⟨rfl, rfl⟩)) hlen).bind ?_
  intro a₂ hwrite
  refine returns_done ⟨k', rfl, hwrite.kept, hwrite.layout.trans hnew.layout, ?_, hwrite.vacuum.trans hnew.vacuum,
    hnew.valid, hnew.stays, hnew.unused, fun j y => ?_⟩
  · rw [hwrite.total]
    dsimp only
    rw [hnew.total, Nat.add_sub_cancel]
  · rw [hwrite.holds, hholds]
    constructor
    · rintro (⟨hj | ⟨rfl, -⟩, hne⟩ | ⟨-, hj⟩)
      · exact .inl hj
      · exact absurd rfl hne
      · exact .inr hj
    · rintro (hj | hj)
      · refine .inl ⟨.inl hj, ?_⟩
        rintro rfl
        exact hnew.unused _ hj
      · exact .inr ⟨⟨x', (hholds k' x').2 (.inr ⟨rfl, rfl⟩)⟩, hj⟩

/-- Ending a vacuum gives up the segments that are left in its buffers. -/
theorem Kept.finalizeVacuum_spec (h : a.Kept) : a.finalizeVacuum.Kept
    ∧ ∀ k x, a.finalizeVacuum.Holds k x ↔ a.Holds k x ∧ k.1 ∉ a.vacuumBuffers := by
  have hlookup : ∀ id b, a.finalizeVacuum.buffers.lookup id = some b
      ↔ a.buffers.lookup id = some b ∧ id ∉ a.vacuumBuffers := fun id b => by
    simp only [finalizeVacuum, lookup_keep, decide_eq_true_eq]
  refine ⟨⟨h.layout, fun id b hb => h.ids _ _ ((hlookup id b).1 hb).1, fun id b hb => h.ok _ _ ((hlookup id b).1 hb).1,
    fun id => ?_, h.cached, h.uncached, fun id hid => ?_⟩, fun k x => ?_⟩
  · refine (h.free id).trans ?_
    simp only [hlookup]
    constructor
    · rintro ⟨hstays, b, hb, hlt⟩
      exact ⟨Finset.notMem_empty id, b, ⟨hb, hstays⟩, hlt⟩
    · rintro ⟨-, b, ⟨hb, hstays⟩, hlt⟩
      exact ⟨hstays, b, hb, hlt⟩
  · exact absurd hid (Finset.notMem_empty id)
  · constructor
    · rintro ⟨b, hb, hrest⟩
      exact ⟨⟨b, ((hlookup _ b).1 hb).1, hrest⟩, ((hlookup _ b).1 hb).2⟩
    · rintro ⟨⟨b, hb, hrest⟩, hstays⟩
      exact ⟨b, (hlookup _ b).2 ⟨hb, hstays⟩, hrest⟩

end FixedSizeAllocator

end Haybarn.FixedSize
