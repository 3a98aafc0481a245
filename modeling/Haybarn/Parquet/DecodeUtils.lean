/-
Bit-packed values in groups of 32, each in the bytes of its own, unpacked from the start of a byte. Where the bytes of the
groups are there, nothing outside the page is read.
-/
import Haybarn.Parquet.ByteBuffer
import Mathlib.Tactic.Ring

namespace Haybarn.Parquet

open Lib Outcome ByteBuffer

/-! ## Definitions -/

/-- `BITPACKING_ALGORITHM_GROUP_SIZE`. -/
def groupSize : Nat := 32

def bitpackDlen : Nat := 8

/-- `BITPACK_MASKS_SIZE`: one mask for each width from 0 to 64. -/
def bitpackMasksSize : Nat := 65

def checkWidth (width : Nat) : Outcome Unit :=
  if width ≥ bitpackMasksSize then
    error (s!"The width ({width}) of the bitpacked data exceeds the supported max width ({bitpackMasksSize}), " ++
      "the file might be corrupted.")
  else done ()

/-- The check that a value of the width fits in a `T` of `size` bytes. -/
def checkTargetWidth (size width : Nat) : Outcome Unit :=
  if width > size * bitpackDlen then
    error (s!"The width ({width}) of the bitpacked data exceeds the maximum width ({size * bitpackDlen}) for " ++
      "the target type, the file might be corrupted.")
  else done ()

/-- `UnPackGroup<T>`: the 32 values that the bytes hold, the low bits first. -/
def unPackGroup (bytes : List UInt8) (width : Nat) : List Nat :=
  (List.range groupSize).map fun i => littleEndian bytes >>> (i * width) % 2 ^ width

/-- `UnPackBuffer<T>`, one group of it: the group `i / 32` of the values of `dst`, from `src + i * width / 8`. -/
def unPackBufferGroup (page : Page) (src dst width group : Nat) (cells : List Nat) : Outcome (List Nat) := do
  let i := group * groupSize
  let bytes ← loadRange page.bytes (src + i * width / bitpackDlen) (groupSize * width / bitpackDlen)
  storeRange cells (dst + i) (unPackGroup bytes width)

/-- One turn of the loop of `BitUnpackAlignedInternal` that goes over an aligned buffer of 32 values of `size` bytes. -/
def unpackGroupAligned (page : Page) (size dst width group : Nat) (s : ByteBuffer × List Nat) :
    Outcome (ByteBuffer × List Nat) := do
  let nextRead := groupSize * width / bitpackDlen
  let bytes ← loadRange page.bytes s.1.ptr nextRead
  let alignedData ← storeRange (List.replicate (groupSize * size) 0) 0 bytes
  let block ← loadRange alignedData 0 nextRead
  let cells ← storeRange s.2 (dst + group * groupSize) (unPackGroup block width)
  done (s.1.unsafeInc nextRead, cells)

/-- `BitUnpackAlignedInternal<T>`, into the cells from `dst` on. -/
def bitUnpackAlignedInternal (page : Page) (size : Nat) (src : ByteBuffer) (cells : List Nat) (dst count width : Nat) :
    Outcome (ByteBuffer × List Nat) := do
  checkTargetWidth size width
  if (page.address + src.ptr) % size = 0 then
    let cells ← forLoop (unPackBufferGroup page src.ptr dst width) 0 (count / groupSize) cells
    done (src.unsafeInc (count * width / bitpackDlen), cells)
  else forLoop (unpackGroupAligned page size dst width) 0 (count / groupSize) (src, cells)

def bitUnpackAligned (page : Page) (size : Nat) (src : ByteBuffer) (cells : List Nat) (dst count width : Nat) :
    Outcome (ByteBuffer × List Nat) := do
  checkWidth width
  if count % groupSize ≠ 0 then error s!"Aligned bitpacking count must be a multiple of {groupSize}"
  else
    src.available (count * width % 2 ^ 64 / bitpackDlen)
    bitUnpackAlignedInternal page size src cells dst count width

/-! ## Groups -/

variable {page : Page} {size dst count width : Nat} {src : ByteBuffer} {cells : List Nat}

theorem ensures_checkWidth (width : Nat) : (checkWidth width).Ensures fun _ => width < bitpackMasksSize := by
  unfold checkWidth
  by_cases h : width ≥ bitpackMasksSize
  · simp [h]
  · rw [if_neg h]
    exact Nat.lt_of_not_ge h

theorem ensures_checkTargetWidth (size width : Nat) :
    (checkTargetWidth size width).Ensures fun _ => width ≤ size * bitpackDlen := by
  unfold checkTargetWidth
  by_cases h : width > size * bitpackDlen
  · simp [h]
  · rw [if_neg h]
    exact Nat.le_of_not_gt h

@[simp] theorem length_unPackGroup (bytes : List UInt8) (width : Nat) : (unPackGroup bytes width).length = 32 := by
  simp [unPackGroup, groupSize]

theorem ensures_unPackBufferGroup {group : Nat} (hsrc : src.ptr + (group + 1) * (4 * width) ≤ page.bytes.length)
    (hdst : dst + (group + 1) * 32 ≤ cells.length) :
    (unPackBufferGroup page src.ptr dst width group cells).Ensures fun cells' => cells'.length = cells.length := by
  have hi : group * groupSize * width / bitpackDlen = group * (4 * width) := by
    unfold groupSize bitpackDlen
    rw [show group * 32 * width = group * (4 * width) * 8 by ring]
    exact Nat.mul_div_cancel _ (by decide)
  have hn : groupSize * width / bitpackDlen = 4 * width := by
    unfold groupSize bitpackDlen
    omega
  unfold unPackBufferGroup
  dsimp only
  rw [hi, hn]
  refine (ensures_loadRange (by rw [Nat.add_one_mul] at hsrc; omega)).bind fun bytes _ => ?_
  refine ensures_storeRange ?_
  rw [length_unPackGroup]
  unfold groupSize
  omega

theorem ensures_unpackGroupAligned {group : Nat} {s : ByteBuffer × List Nat} (hb : s.1.Inside page)
    (hlen : 4 * width ≤ s.1.len) (hwidth : width ≤ size * bitpackDlen) (hdst : dst + (group + 1) * 32 ≤ s.2.length) :
    (unpackGroupAligned page size dst width group s).Ensures fun s' =>
      Moved page (4 * width) s.1 s'.1 ∧ s'.2.length = s.2.length := by
  have hn : groupSize * width / bitpackDlen = 4 * width := by
    unfold groupSize bitpackDlen
    omega
  unfold bitpackDlen at hwidth
  unfold unpackGroupAligned
  dsimp only
  rw [hn]
  refine (ensures_load hb hlen).bind fun bytes hbytes => ?_
  refine (ensures_storeRange ?_).bind fun aligned haligned => ?_
  · rw [hbytes, List.length_replicate]
    unfold groupSize
    omega
  rw [List.length_replicate] at haligned
  refine (ensures_loadRange ?_).bind fun block _ => ?_
  · rw [haligned]
    unfold groupSize
    omega
  refine (ensures_storeRange ?_).bind fun cells' hcells' => ⟨hb.moved hlen, hcells'⟩
  rw [length_unPackGroup]
  unfold groupSize
  omega

theorem ensures_bitUnpackAlignedInternal (hb : src.Inside page) (groups : Nat) (hlen : groups * (4 * width) ≤ src.len)
    (hdst : dst + groups * 32 ≤ cells.length) :
    (bitUnpackAlignedInternal page size src cells dst (groups * 32) width).Ensures fun s =>
      Moved page (groups * (4 * width)) src s.1 ∧ s.2.length = cells.length := by
  have hfits := hb.fits
  have hgroups : groups * 32 / groupSize = groups := Nat.mul_div_cancel _ (by decide)
  have hbytes : groups * 32 * width / bitpackDlen = groups * (4 * width) := by
    unfold bitpackDlen
    rw [show groups * 32 * width = groups * (4 * width) * 8 by ring]
    exact Nat.mul_div_cancel _ (by decide)
  unfold bitUnpackAlignedInternal
  refine (ensures_checkTargetWidth size width).bind fun _ hwidth => ?_
  rw [hgroups, hbytes]
  -- the bytes and the values of the groups up to one of them
  have hsrc : ∀ i < groups, (i + 1) * (4 * width) ≤ groups * (4 * width) := fun i hi => Nat.mul_le_mul_right _ hi
  have hcells : ∀ i < groups, (i + 1) * 32 ≤ groups * 32 := fun i hi => Nat.mul_le_mul_right _ hi
  split
  · have hloop := ensures_forLoop (unPackBufferGroup page src.ptr dst width) 0 groups
      (I := fun _ cells' => cells'.length = cells.length) (s := cells) (fun i cells' _ hi h => ?_) rfl
    · exact hloop.bind fun cells' h => ⟨hb.moved hlen, h⟩
    · have := hsrc i (by omega)
      exact (ensures_unPackBufferGroup (by omega) (by omega)).mono fun _ h' => h'.trans h
  · have hloop := ensures_forLoop (unpackGroupAligned page size dst width) 0 groups
      (I := fun i s => Moved page (i * (4 * width)) src s.1 ∧ s.2.length = cells.length)
      (s := (src, cells)) (fun i s _ hi h => ?_) ?_
    · rwa [Nat.zero_add] at hloop
    · obtain ⟨hm, hl⟩ := h
      have hptr := hm.ptr
      have hmlen := hm.len
      have := hsrc i (by omega)
      have := hcells i (by omega)
      have hadd : (i + 1) * (4 * width) = i * (4 * width) + 4 * width := Nat.add_one_mul i _
      refine (ensures_unpackGroupAligned hm.inside (by omega) hwidth (by omega)).mono ?_
      rintro s' ⟨hm', hl'⟩
      have hptr' := hm'.ptr
      have hmlen' := hm'.len
      exact ⟨⟨hm'.inside, by omega, by omega⟩, hl'.trans hl⟩
    · exact ⟨⟨hb, by simp, by simp⟩, rfl⟩

end Haybarn.Parquet
