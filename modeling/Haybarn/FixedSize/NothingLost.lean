/-
Every run of a fixed-size allocator hands out segments that are not in use and loses none, as long as no word of the bitmask
is cut off, no segment is freed where a buffer has only one, and the ids of the buffers fit in 32 bits. Freeing the only
segment of a buffer that is full erases the buffer, and then asks for the cached buffer where there is none.
-/
import Haybarn.FixedSize.Vacuum
import Haybarn.Lib.Pool

namespace Haybarn.FixedSize

open Common Lib Outcome
open Metadata (BlockSize)

/-! ## Clients -/

/-- An allocator, and the pointers that were handed out and not freed, with what was written to their segments. -/
structure Client where
  allocator : FixedSizeAllocator
  live : List (IndexPointer × List UInt8)

inductive Request where
  | new
  | free (ptr : IndexPointer)
  /-- The client writes to a segment. -/
  | write (ptr : IndexPointer) (bytes : List UInt8)
  | merge (other : Client)
  | removeEmptyBuffers
  | initializeVacuum
  | vacuumPointer (ptr : IndexPointer)
  | finalizeVacuum

namespace Client

def create (layout : Layout) : Client := ⟨.create layout, []⟩

/-- The pointers of the client. -/
def pointers (c : Client) : List IndexPointer := c.live.map (·.1)

def serve (order : HashOrder) (c : Client) : Request → Outcome Client
  | .new => do
    let (ptr, a) ← c.allocator.new order
    let bytes ← a.readSegment ptr
    .done ⟨a, (ptr, bytes) :: c.live⟩
  | .free ptr => do
    let a ← c.allocator.free order ptr
    .done ⟨a, c.live.filter (·.1 ≠ ptr)⟩
  | .write ptr bytes => do
    let a ← c.allocator.writeSegment ptr bytes
    .done ⟨a, c.live.map fun e => if e.1 = ptr then (e.1, bytes) else e⟩
  | .merge other =>
    let upperBoundId := c.allocator.getUpperBoundBufferId
    .done ⟨c.allocator.merge order other.allocator,
      c.live ++ other.live.map fun e => (e.1.increaseBufferId upperBoundId, e.2)⟩
  | .removeEmptyBuffers => .done { c with allocator := c.allocator.removeEmptyBuffers order }
  | .initializeVacuum => do
    let (_, a) ← c.allocator.initializeVacuum order
    .done { c with allocator := a }
  | .vacuumPointer ptr => do
    let (newPtr, a) ← c.allocator.vacuumPointer order ptr
    .done ⟨a, c.live.map fun e => if e.1 = ptr then (newPtr, e.2) else e⟩
  | .finalizeVacuum => .done { c with allocator := c.allocator.finalizeVacuum }

/-- No vacuum is going on. -/
def Idle (c : Client) : Prop := c.allocator.vacuumBuffers = ∅

/-- What a client may ask for: it uses its own pointers, and a vacuum is ended before anything else once every pointer
that needs it was vacuumed. -/
def Allowed (c : Client) : Request → Prop
  | .new => c.Idle
  | .free ptr => c.Idle ∧ ptr ∈ c.pointers
  | .write ptr bytes => ptr ∈ c.pointers ∧ bytes.length = c.allocator.layout.segmentSize
  | .merge other => c.Idle ∧ other.Idle
  | .removeEmptyBuffers => c.Idle
  | .initializeVacuum => c.Idle
  | .vacuumPointer ptr => ptr ∈ c.pointers ∧ c.allocator.needsVacuum ptr = true
  | .finalizeVacuum => ∀ ptr ∈ c.pointers, c.allocator.needsVacuum ptr = false

/-- A segment is freed where a block has room for two of them, a buffer is added where there are fewer than `2 ^ 32`, and the
shifted ids of a merge fit in 32 bits. -/
def InBounds (c : Client) : Request → Prop
  | .new => c.allocator.bufferWithFreeSpace = none → c.allocator.buffers.keys.length < 2 ^ 32
  | .free _ => 8 + 2 * c.allocator.layout.segmentSize ≤ c.allocator.layout.blockSize
  | .merge other => ∀ id ∈ other.allocator.buffers, id + c.allocator.getUpperBoundBufferId < 2 ^ 32
  | .vacuumPointer _ => c.allocator.bufferWithFreeSpace = none → c.allocator.buffers.keys.length < 2 ^ 32
  | _ => True

/-- The states that runs of allocators of one layout reach, if every request meets a condition. -/
inductive Reached (layout : Layout) (C : Client → Request → Prop) : Client → Prop
  | create : Reached layout C (.create layout)
  | serve {c c' : Client} {request : Request} {order : HashOrder} : Reached layout C c →
      (∀ other, request = .merge other → Reached layout C other) → c.Allowed request → C c request →
        c.serve order request = .done c' → Reached layout C c'

/-! ## What holds of a state -/

/-- The pointers are distinct and lie in their buffers, their segments have the contents that were written, and the
counts and the set of the free buffers are right. -/
structure Sound (c : Client) : Prop where
  distinct : c.pointers.Nodup
  placed : ∀ ptr ∈ c.pointers, ptr.getOffset < c.allocator.available ∧ ptr.getBufferId ∈ c.allocator.buffers
  contents : ∀ e ∈ c.live, c.allocator.readSegment e.1 = .done e.2
  total : c.allocator.totalSegmentCount = c.live.length
  counts : ∀ id b, c.allocator.buffers.lookup id = some b → b.segmentCount = (b.cleared c.allocator.available).card
  free : ∀ id, id ∈ c.allocator.buffersWithFreeSpace ↔ id ∉ c.allocator.vacuumBuffers ∧
    ∃ b, c.allocator.buffers.lookup id = some b ∧ ∃ i < c.allocator.available, b.mask.rowIsValid i = true
  cached : c.allocator.bufferWithFreeSpace.isSome ↔ c.allocator.buffersWithFreeSpace.Nonempty

/-- The bookkeeping is kept, and the segments in use outside of the buffers of a vacuum are the ones of the client. -/
structure Inv (layout : Layout) (c : Client) : Prop where
  kept : c.allocator.Kept
  layout : c.allocator.layout = layout
  held : Held Slot.pointer Slot.valid c.allocator.Holds (fun k => k.1 ∈ c.allocator.vacuumBuffers) c.live
  total : c.allocator.totalSegmentCount = c.live.length

variable {layout : Layout} {order : HashOrder} {c : Client}

theorem inv_create (h : layout.Ok) : (create layout).Inv layout where
  kept := FixedSizeAllocator.kept_create h
  layout := rfl
  held := by
    refine (Held.nil _ _ fun _ => False).congr (fun k x hk => hk.elim) fun k x hk => ?_
    exact (FixedSizeAllocator.not_holds_create hk).elim
  total := rfl

variable {ptr : IndexPointer}

theorem Inv.slot (h : c.Inv layout) (hptr : ptr ∈ c.pointers) :
    ∃ k x, ptr = k.pointer ∧ (ptr, x) ∈ c.live ∧ c.allocator.Holds k x := by
  obtain ⟨e, he, rfl⟩ := List.mem_map.1 hptr
  obtain ⟨k, hk, hholds⟩ := h.held.slot e he
  exact ⟨k, e.2, hk.symm, he, hholds⟩

theorem Inv.sound (h : c.Inv layout) : c.Sound where
  distinct := h.held.nodup
  placed ptr hptr := by
    obtain ⟨k, x, rfl, -, hholds⟩ := h.slot hptr
    have hslot := Slot.slot_pointer (h.kept.valid hholds)
    have hid := congrArg Prod.fst hslot
    have hoffset := congrArg Prod.snd hslot
    dsimp only [IndexPointer.slot] at hid hoffset
    obtain ⟨b, hb, hlt, -⟩ := hholds
    rw [hid, hoffset]
    exact ⟨hlt, AList.lookup_isSome.1 (by rw [hb]; rfl)⟩
  contents e he := by
    obtain ⟨k, hk, hholds⟩ := h.held.slot e he
    rw [← hk]
    exact h.kept.readSegment_spec hholds
  total := h.total
  counts id b hb := (h.kept.ok id b hb).count
  free id := by
    rw [h.kept.free id]
    refine and_congr_right fun _ => exists_congr fun b => and_congr_right fun hb => ?_
    exact (h.kept.ok id b hb).exists_valid
  cached := by
    cases hcache : c.allocator.bufferWithFreeSpace with
    | none => simp [h.kept.uncached hcache]
    | some id => simp [show c.allocator.buffersWithFreeSpace.Nonempty from ⟨id, h.kept.cached id hcache⟩]

/-! ## Steps -/

theorem Inv.new (h : c.Inv layout) (order : HashOrder)
    (hfew : c.allocator.bufferWithFreeSpace = none → c.allocator.buffers.keys.length < 2 ^ 32) :
    (c.serve order .new).Returns fun c' => c'.Inv layout ∧ c'.live.length = c.live.length + 1
      ∧ c'.allocator.vacuumBuffers = c.allocator.vacuumBuffers ∧ c.allocator.FillsNext c'.allocator := by
  refine (h.kept.new_spec hfew).bind ?_
  rintro ⟨ptr, a⟩ ⟨⟨k, x, hnew⟩, hnext⟩
  obtain rfl := hnew.pointer
  have hread := hnew.kept.readSegment_spec ((hnew.holds k x).2 (.inr ⟨rfl, rfl⟩))
  dsimp only at hread ⊢
  rw [hread, done_bind]
  refine returns_done ⟨⟨hnew.kept, hnew.layout.trans h.layout, ?_, ?_⟩, rfl, hnew.vacuum, hnext⟩
  · have hheld := h.held.take Slot.pointer_injOn hnew.valid hnew.unused hnew.holds
    rwa [← hnew.vacuum] at hheld
  · rw [hnew.total, h.total]
    rfl

theorem Inv.free (h : c.Inv layout) (hidle : c.Idle) (htwo : 2 ≤ layout.availableSegmentsPerBuffer)
    (hptr : ptr ∈ c.pointers) : (c.serve order (.free ptr)).Returns (Inv layout) := by
  obtain ⟨k, x, rfl, -, hk⟩ := h.slot hptr
  rw [← h.layout] at htwo
  refine (h.kept.free_spec hidle htwo hk).bind ?_
  intro a hfree
  refine returns_done ⟨hfree.kept, hfree.layout.trans h.layout, ?_, ?_⟩
  · have hheld := h.held.release Slot.pointer_injOn (h.kept.valid hk) hfree.holds
    rwa [← hfree.vacuum] at hheld
  · rw [hfree.total, h.total]
    exact (h.held.length_release hptr).symm

theorem Inv.write (h : c.Inv layout) {bytes : List UInt8} (hptr : ptr ∈ c.pointers)
    (hlen : bytes.length = c.allocator.layout.segmentSize) : (c.serve order (.write ptr bytes)).Returns (Inv layout) := by
  obtain ⟨k, x, rfl, -, hk⟩ := h.slot hptr
  refine (h.kept.writeSegment_spec hk hlen).bind ?_
  intro a hwrite
  refine returns_done ⟨hwrite.kept, hwrite.layout.trans h.layout, ?_, ?_⟩
  · have hheld := h.held.write Slot.pointer_injOn (h.kept.valid hk) hwrite.holds
    rwa [← hwrite.vacuum] at hheld
  · rw [hwrite.total, h.total]
    exact (List.length_map _).symm

theorem Inv.merge (h : c.Inv layout) {other : Client} (h' : other.Inv layout) (hidle : c.Idle) (hidle' : other.Idle)
    (hids : ∀ id ∈ other.allocator.buffers, id + c.allocator.getUpperBoundBufferId < 2 ^ 32) :
    (c.serve order (.merge other)).Returns (Inv layout) := by
  have hmerge := h.kept.merge_spec order h'.kept hidle hidle' (h'.layout.trans h.layout.symm) hids
  refine returns_done ⟨hmerge.kept, hmerge.layout.trans h.layout, ?_, ?_⟩
  · have hheld := h.held
    have hheld' := h'.held
    rw [show c.allocator.vacuumBuffers = ∅ from hidle] at hheld
    rw [show other.allocator.vacuumBuffers = ∅ from hidle'] at hheld'
    dsimp only
    rw [hmerge.vacuum]
    exact hheld.join hheld' Slot.pointer_injOn _ (·.increaseBufferId _) hmerge.valid (Slot.shift_injective _)
      (fun k x hk => Slot.increaseBufferId_pointer (h'.kept.valid hk) (hmerge.valid k x hk))
      (fun k => Finset.notMem_empty _) hmerge.apart hmerge.holds
  · rw [hmerge.total, h.total, h'.total]
    simp

theorem Inv.removeEmptyBuffers (h : c.Inv layout) (hidle : c.Idle) :
    (c.serve order .removeEmptyBuffers).Returns (Inv layout) := by
  have hremove := h.kept.removeEmptyBuffers_spec order hidle
  refine returns_done ⟨hremove.kept, hremove.layout.trans h.layout, ?_, hremove.total.trans h.total⟩
  refine h.held.congr (fun k x hk _ => (hremove.holds k x).2 hk) fun k x hk => ⟨(hremove.holds k x).1 hk, ?_⟩
  rw [show (c.allocator.removeEmptyBuffers order).vacuumBuffers = c.allocator.vacuumBuffers from hremove.vacuum]
  exact id

theorem Inv.initializeVacuum (h : c.Inv layout) (hidle : c.Idle) :
    (c.serve order .initializeVacuum).Returns (Inv layout) := by
  have hempty : c.allocator.totalSegmentCount = 0 → ∀ k x, ¬ c.allocator.Holds k x := by
    intro hzero k x hk
    have hnil : c.live = [] := List.length_eq_zero_iff.1 (h.total.symm.trans hzero)
    have hmem := h.held.named k x hk (by rw [show c.allocator.vacuumBuffers = ∅ from hidle]; exact Finset.notMem_empty _)
    rw [hnil] at hmem
    cases hmem
  refine (h.kept.initializeVacuum_spec hidle hempty).bind ?_
  rintro ⟨_, a⟩ hstart
  refine returns_done ⟨hstart.kept, hstart.layout.trans h.layout, ?_, hstart.total.trans h.total⟩
  refine h.held.congr (fun k x hk _ => (hstart.holds k x).2 hk) fun k x hk => ⟨(hstart.holds k x).1 hk, fun _ => ?_⟩
  rw [show c.allocator.vacuumBuffers = ∅ from hidle]
  exact Finset.notMem_empty _

theorem Inv.vacuumPointer (h : c.Inv layout) (hptr : ptr ∈ c.pointers)
    (hneeds : c.allocator.needsVacuum ptr = true)
    (hfew : c.allocator.bufferWithFreeSpace = none → c.allocator.buffers.keys.length < 2 ^ 32) :
    (c.serve order (.vacuumPointer ptr)).Returns (Inv layout) := by
  obtain ⟨k, x, rfl, hlive, hk⟩ := h.slot hptr
  have hvalid := h.kept.valid hk
  have hslot := congrArg Prod.fst (Slot.slot_pointer hvalid)
  dsimp only [IndexPointer.slot] at hslot
  rw [FixedSizeAllocator.needsVacuum, hslot, decide_eq_true_eq] at hneeds
  refine (h.kept.vacuumPointer_spec hk hfew).bind ?_
  rintro ⟨newPtr, a⟩ ⟨k', hnew⟩
  obtain rfl := hnew.pointer
  refine returns_done ⟨hnew.kept, hnew.layout.trans h.layout, ?_, ?_⟩
  · have hheld := h.held.move Slot.pointer_injOn hvalid hnew.valid hlive hneeds hnew.unused hnew.holds
    rwa [← hnew.vacuum] at hheld
  · rw [hnew.total, h.total]
    exact (List.length_map _).symm

theorem Inv.finalizeVacuum (h : c.Inv layout) (hdone : ∀ ptr ∈ c.pointers, c.allocator.needsVacuum ptr = false) :
    (c.serve order .finalizeVacuum).Returns (Inv layout) := by
  obtain ⟨hkept, hholds⟩ := h.kept.finalizeVacuum_spec
  refine returns_done ⟨hkept, h.layout, ?_, h.total⟩
  refine h.held.congr (fun k x hk hname => (hholds k x).2 ⟨hk, ?_⟩) fun k x hk => ⟨((hholds k x).1 hk).1, fun _ => ?_⟩
  · have hnot := hdone _ hname
    have hslot := congrArg Prod.fst (Slot.slot_pointer (h.kept.valid hk))
    dsimp only [IndexPointer.slot] at hslot
    rwa [FixedSizeAllocator.needsVacuum, hslot, decide_eq_false_iff_not] at hnot
  · exact ((hholds k x).1 hk).2

theorem Inv.serve (h : c.Inv layout) (order : HashOrder)
    (htwo : 8 + 2 * layout.segmentSize ≤ layout.blockSize → 2 ≤ layout.availableSegmentsPerBuffer) {request : Request}
    (hallowed : c.Allowed request) (hbounds : c.InBounds request)
    (hother : ∀ other, request = .merge other → other.Inv layout) : (c.serve order request).Returns (Inv layout) := by
  cases request with
  | new => exact (h.new order hbounds).mono fun _ hc' => hc'.1
  | free ptr =>
    have hroom := hbounds
    rw [InBounds, h.layout] at hroom
    exact h.free hallowed.1 (htwo hroom) hallowed.2
  | write ptr bytes => exact h.write hallowed.1 hallowed.2
  | merge other => exact h.merge (hother other rfl) hallowed.1 hallowed.2 hbounds
  | removeEmptyBuffers => exact h.removeEmptyBuffers hallowed
  | initializeVacuum => exact h.initializeVacuum hallowed
  | vacuumPointer ptr => exact h.vacuumPointer hallowed.1 hallowed.2 hbounds
  | finalizeVacuum => exact h.finalizeVacuum hallowed

/-! ## Runs -/

theorem inv_of_reached (hlayout : layout.Ok)
    (htwo : 8 + 2 * layout.segmentSize ≤ layout.blockSize → 2 ≤ layout.availableSegmentsPerBuffer)
    (h : Reached layout InBounds c) : c.Inv layout := by
  induction h with
  | create => exact inv_create hlayout
  | @serve c c' request order _ _ hallowed hbounds hdone ih hother =>
    obtain ⟨c'', hc'', hinv⟩ := ih.serve order htwo hallowed hbounds hother
    rw [hdone] at hc''
    cases hc''
    exact hinv

end Client

/-! ## The property -/

/-- Whatever the constructor accepts and a run whose requests meet a condition reaches is sound, and every such request is
served from there, with no error. -/
def NothingLost (C : Client → Request → Prop) (blockSize segmentSize : Nat) : Prop :=
  ∀ layout, Layout.construct blockSize segmentSize = .done layout → ∀ c, Client.Reached layout C c →
    c.Sound ∧ ∀ order request, c.Allowed request → C c request →
      (∀ other, request = .merge other → Client.Reached layout C other) → ∃ c', c.serve order request = .done c'

theorem Layout.size_of_construct {blockSize segmentSize : Nat} {layout : Layout} (hsize : 8 ≤ blockSize)
    (h : construct blockSize segmentSize = .done layout) : 0 < segmentSize ∧ segmentSize ≤ blockSize - 8 := by
  unfold construct at h
  split at h
  · cases h
  next hle =>
    refine ⟨Nat.pos_of_ne_zero fun hzero => ?_, Nat.le_of_not_lt hle⟩
    have hgo : Filling.goesOn blockSize ⟨0, 0, 0, false⟩ = true := by
      simp only [Filling.goesOn, Bool.not_false, Bool.true_and, decide_eq_true_eq]
      omega
    rw [hzero, loop, if_pos hgo] at h
    cases h

/-- In every run in bounds the allocator hands out no segment that is in use and loses none, where no word is cut off. -/
theorem nothingLost_inBounds {size : BlockSize} {segmentSize : Nat} (hfit : WordsFit (blockSize size) segmentSize) :
    NothingLost Client.InBounds (blockSize size) segmentSize := by
  intro layout hlayout c hreached
  have hsize := eight_le_blockSize size
  obtain ⟨hpos, hle⟩ := Layout.size_of_construct hsize hlayout
  obtain ⟨layout', hlayout', hok, hblock, hsegment, htwo⟩ := Layout.construct_spec hfit hpos hle hsize (blockSize_lt size)
  rw [hlayout] at hlayout'
  cases hlayout'
  rw [← hblock, ← hsegment] at htwo
  have hinv := Client.inv_of_reached hok htwo hreached
  refine ⟨hinv.sound, fun order request hallowed hbounds hother => ?_⟩
  obtain ⟨c', hc', -⟩ := hinv.serve order htwo hallowed hbounds fun other hreq =>
    Client.inv_of_reached hok htwo (hother other hreq)
  exact ⟨c', hc'⟩

/-- Containers that are walked in the order they are given in. -/
def HashOrder.given : HashOrder := ⟨id, id, fun _ => .refl _, fun _ => .refl _⟩

theorem reached_new {layout : Layout} (h : layout.Ok) (C : Client → Request → Prop)
    (hC : C (.create layout) .new) : ∃ c, Client.Reached layout C c ∧ c.Inv layout ∧ c.live.length = 1 ∧ c.Idle
      ∧ ∀ id b, c.allocator.buffers.lookup id = some b → b.segmentCount ≠ 0 := by
  obtain ⟨c, hc, hinv, hlength, hvacuum, hnext⟩ :=
    (Client.inv_create h).new .given fun _ => show 0 < 2 ^ 32 by decide
  have hallowed : (Client.create layout).Allowed .new := rfl
  refine ⟨c, .serve .create (fun other hother => by cases hother) hallowed hC hc, hinv, hlength, hvacuum, ?_⟩
  intro id b hb hzero
  cases (hnext id b hb hzero).1

/-- A segment that is handed out can be freed, and written to. -/
theorem nothingLost_inBounds_default : ∃ layout c ptr, Layout.construct (blockSize defaultSize) 24 = .done layout
    ∧ Client.Reached layout Client.InBounds c ∧ ptr ∈ c.pointers ∧ c.Sound
    ∧ (∃ c', c.serve .given (.free ptr) = .done c')
    ∧ ∃ c', c.serve .given (.write ptr (List.replicate c.allocator.layout.segmentSize 7)) = .done c' ∧ c'.Sound := by
  obtain ⟨layout, hlayout, hok, hblock, hsegment, -⟩ := Layout.construct_spec (B := blockSize defaultSize) (s := 24)
    (by decide) (by decide) (by decide) (by decide) (by decide)
  obtain ⟨c, hreached, hinv, hlength, hidle, -⟩ := reached_new hok Client.InBounds fun _ => show 0 < 2 ^ 32 by decide
  obtain ⟨e, he⟩ := List.exists_mem_of_length_pos (show 0 < c.live.length by omega)
  have hptr : e.1 ∈ c.pointers := List.mem_map_of_mem he
  obtain ⟨hsound, hserve⟩ := nothingLost_inBounds (by decide) layout hlayout c hreached
  have hroom : c.InBounds (.free e.1) := by
    show 8 + 2 * c.allocator.layout.segmentSize ≤ c.allocator.layout.blockSize
    rw [hinv.layout, hblock, hsegment]
    decide
  have hwrite : c.Allowed (.write e.1 (List.replicate c.allocator.layout.segmentSize 7)) := ⟨hptr, List.length_replicate⟩
  have hother : ∀ other, Request.write e.1 (List.replicate c.allocator.layout.segmentSize 7) = .merge other →
      Client.Reached layout Client.InBounds other := fun _ h => nomatch h
  obtain ⟨c', hc'⟩ := hserve .given _ hwrite trivial hother
  refine ⟨layout, c, e.1, hlayout, hreached, hptr, hsound,
    hserve .given (.free e.1) ⟨hidle, hptr⟩ hroom fun _ h => (nomatch h), c', hc', ?_⟩
  exact (nothingLost_inBounds (by decide) layout hlayout c' (.serve hreached hother hwrite trivial hc')).1

/-- Freeing the only segment of a buffer that is full throws. -/
theorem not_nothingLost_one_segment :
    ¬ ∀ (size : BlockSize) (segmentSize : Nat), NothingLost (fun _ _ => True) (blockSize size) segmentSize := by
  intro h
  obtain ⟨layout, hlayout, hok, hblock, hsegment, -⟩ := Layout.construct_spec (B := blockSize defaultSize) (s := 262128)
    (by decide) (by decide) (by decide) (by decide) (by decide)
  have hone : layout.availableSegmentsPerBuffer = 1 := by
    apply hok.eq_one
    rw [hblock, hsegment]
    decide
  obtain ⟨c, hreached, hinv, hlength, hidle, hfull⟩ := reached_new hok (fun _ _ => True) trivial
  obtain ⟨e, he⟩ := List.exists_mem_of_length_pos (show 0 < c.live.length by omega)
  have hptr : e.1 ∈ c.pointers := List.mem_map_of_mem he
  obtain ⟨k, x, hk, -, hholds⟩ := hinv.slot hptr
  obtain ⟨c', hc'⟩ := (h defaultSize 262128 layout hlayout c hreached).2 .given (.free e.1) ⟨hidle, hptr⟩ trivial
    fun other hother => by cases hother
  have havailable : c.allocator.available = 1 := by
    rw [FixedSizeAllocator.available, hinv.layout, hone]
  have herror := hinv.kept.free_error .given havailable hfull hholds
  rw [Client.serve, hk, herror] at hc'
  cases hc'

end Haybarn.FixedSize
