/-
Metadata streams round-trip. What a writer has written lies in a chain of sub-blocks, byte by byte, and a pointer
that was taken from the writer is a position in it: a reader that starts there gets the bytes that follow, in
pieces of any sizes.
-/
import Haybarn.Metadata.Stream
import Mathlib.Data.List.GetD
import Mathlib.Algebra.GroupWithZero.Nat

namespace Haybarn.Metadata

open Function Nat
open List hiding count

/-! ## Sizes -/

theorem BlockSize.le_metadataBlockSize (size : BlockSize) : 248 ≤ size.metadataBlockSize := by
  have halloc := size.min_le_allocSize
  have hheader := size.headerSize_le_max
  unfold BlockSize.metadataBlockSize metadataBlockCount
  omega

theorem BlockSize.lt_metadataBlockSize (size : BlockSize) : pointerSize < size.metadataBlockSize := by
  have hle := size.le_metadataBlockSize
  unfold pointerSize
  omega

theorem BlockSize.metadataBlockSize_le (size : BlockSize) : size.metadataBlockSize * 64 ≤ 2 ^ 32 := by
  have halloc := size.allocSize_le_max
  unfold BlockSize.metadataBlockSize metadataBlockCount
  omega

/-! ## Pointers -/

/-- A sub-block that a pointer has room for. -/
structure MetadataPointer.Fits (p : MetadataPointer) : Prop where
  blockIndex_lt : p.blockIndex < 2 ^ 56
  index_lt : p.index < 64

variable {p : MetadataPointer} {offset : Nat}

theorem toNat_blockPointer (h : p.Fits) : (getDiskPointer p offset).blockPointer.toNat = p.index * 2 ^ 56 + p.blockIndex := by
  obtain ⟨hblock, hindex⟩ := h
  have hlow : p.blockIndex % 2 ^ 64 = p.blockIndex := Nat.mod_eq_of_lt (by omega)
  have hhigh : p.index % 2 ^ 64 = p.index := Nat.mod_eq_of_lt (by omega)
  have hshift : p.index <<< 56 % 2 ^ 64 = p.index <<< 56 := by
    rw [Nat.shiftLeft_eq]
    exact Nat.mod_eq_of_lt (by omega)
  unfold getDiskPointer
  rw [BitVec.toNat_or, BitVec.toNat_shiftLeft, BitVec.toNat_ofNat, BitVec.toNat_ofNat, hlow, hhigh, hshift, Nat.or_comm,
    ← Nat.shiftLeft_add_eq_or_of_lt hblock, Nat.shiftLeft_eq]

theorem getBlockId_getDiskPointer (h : p.Fits) : (getDiskPointer p offset).getBlockId = p.blockIndex := by
  have hmask : (~~~(0xFF#64 <<< 56)).toNat = 2 ^ 56 - 1 := by decide
  have hblock := h.blockIndex_lt
  unfold MetaBlockPointer.getBlockId
  rw [BitVec.toNat_and, hmask, and_two_pow_sub_one_eq_mod, toNat_blockPointer h]
  omega

theorem getBlockIndex_getDiskPointer (h : p.Fits) : (getDiskPointer p offset).getBlockIndex = p.index := by
  have hblock := h.blockIndex_lt
  unfold MetaBlockPointer.getBlockIndex
  rw [BitVec.toNat_ushiftRight, toNat_blockPointer h, shiftRight_eq_div_pow]
  omega

theorem blockPointer_ne_allOnes (h : p.Fits) : (getDiskPointer p offset).blockPointer ≠ BitVec.allOnes 64 := by
  intro he
  have hnat := congrArg BitVec.toNat he
  rw [toNat_blockPointer h, BitVec.toNat_allOnes] at hnat
  obtain ⟨hblock, hindex⟩ := h
  omega

theorem fromBlockPointer_toBlockPointer (h : p.Fits) {metadataBlockSize : Nat} (hoffset : offset < metadataBlockSize)
    (hsize : metadataBlockSize * 64 ≤ 2 ^ 32) :
    fromBlockPointer (toBlockPointer (getDiskPointer p offset) metadataBlockSize) metadataBlockSize
      = getDiskPointer p offset := by
  have hlt : p.index * metadataBlockSize + offset < 2 ^ 32 := by
    have hindex : (p.index + 1) * metadataBlockSize ≤ 64 * metadataBlockSize := mul_le_mul_right _ h.index_lt
    rw [succ_mul] at hindex
    omega
  have hdiv : (p.index * metadataBlockSize + offset) / metadataBlockSize = p.index := by
    rw [mul_comm, mul_add_div (by omega), div_eq_of_lt hoffset, add_zero]
  have hmod : (p.index * metadataBlockSize + offset) % metadataBlockSize = offset := by
    rw [mul_comm, mul_add_mod, mod_eq_of_lt hoffset]
  have hword : (getDiskPointer p offset).offset = offset := rfl
  unfold fromBlockPointer toBlockPointer
  dsimp only
  rw [getBlockId_getDiskPointer h, getBlockIndex_getDiskPointer h, hword, mod_eq_of_lt hlt, hdiv, hmod]
  rfl

/-! ## What is written -/

/-- The bytes `written` are in the chain of sub-blocks, `unit` of them in each. -/
structure Holds (metadataBlockSize : Nat) (memory : Memory) (chain : List MetadataPointer) (written : List UInt8) : Prop where
  nodup : chain.Nodup
  fits : ∀ p ∈ chain, p.Fits
  next : ∀ i p q, chain[i]? = some p → chain[i + 1]? = some q → memory.next p = (getDiskPointer q 0).blockPointer
  last : ∀ p, chain.getLast? = some p → memory.next p = BitVec.allOnes 64
  data : ∀ i p o, chain[i]? = some p → o < metadataBlockSize - pointerSize → i * (metadataBlockSize - pointerSize) + o < written.length →
    memory.data p (pointerSize + o) = written.getD (i * (metadataBlockSize - pointerSize) + o) 0

section Writing

variable {σ : Type} {nextHandle : σ → Except MetadataError (MetadataPointer × σ)} {size : Nat}
  {supply : σ → List MetadataPointer → Prop} {w w' : Writer σ} {chain : List MetadataPointer} {written : List UInt8}

/-- Handles are of sub-blocks that were not given before. -/
def FreshHandles (nextHandle : σ → Except MetadataError (MetadataPointer × σ)) (supply : σ → List MetadataPointer → Prop) :
    Prop :=
  ∀ s chain p s', supply s chain → nextHandle s = .ok (p, s') → p.Fits ∧ p ∉ chain ∧ supply s' (chain ++ [p])

/-- A writer before its first block. -/
def Writer.AtStart (w : Writer σ) (chain : List MetadataPointer) (written : List UInt8) : Prop :=
  chain = [] ∧ written = [] ∧ w.capacity = 0 ∧ w.offset = 0

/-- A writer in a block. -/
def Writer.InBlock (size : Nat) (w : Writer σ) (chain : List MetadataPointer) (written : List UInt8) : Prop :=
  w.capacity = size ∧ pointerSize ≤ w.offset ∧ w.offset ≤ size
    ∧ ∃ full, chain = full ++ [w.currentPointer]
      ∧ written.length = full.length * (size - pointerSize) + (w.offset - pointerSize)

/-- A writer that has written `written` to the sub-blocks `chain`. -/
structure Wrote (size : Nat) (supply : σ → List MetadataPointer → Prop) (w : Writer σ) (chain : List MetadataPointer)
    (written : List UInt8) : Prop where
  holds : Holds size w.memory chain written
  supply : supply w.supply chain
  position : w.AtStart chain written ∨ w.InBlock size chain written

theorem copyTo_nil (memory : Memory) (p : MetadataPointer) (offset : Nat) : memory.copyTo p offset [] = memory := by
  unfold Memory.copyTo
  congr 1
  funext q o
  exact if_neg fun h => by
    have hlt : o < offset + 0 := h.2.2
    omega

theorem copy_nil (w : Writer σ) : w.copy [] = w := by
  unfold Writer.copy
  rw [copyTo_nil]
  rfl

theorem copyTo_of_ne {memory : Memory} {p q : MetadataPointer} (h : q ≠ p) (offset o : Nat) (bytes : List UInt8) :
    (memory.copyTo p offset bytes).data q o = memory.data q o := if_neg fun hc => h hc.1

variable {buffer : List UInt8}

theorem Wrote.copy (h : Wrote size supply w chain written) (hblock : w.InBlock size chain written)
    (hfit : w.offset + buffer.length ≤ size) :
    Wrote size supply (w.copy buffer) chain (written ++ buffer) ∧ (w.copy buffer).InBlock size chain (written ++ buffer) := by
  obtain ⟨hcapacity, hlow, hhigh, full, rfl, hlength⟩ := hblock
  have hblock' : (w.copy buffer).InBlock size (full ++ [w.currentPointer]) (written ++ buffer) := by
    refine ⟨hcapacity, by simp only [Writer.copy]; omega, hfit, full, rfl, ?_⟩
    simp only [Writer.copy, List.length_append]
    omega
  refine ⟨⟨⟨h.holds.nodup, h.holds.fits, h.holds.next, h.holds.last, fun i p o hp ho hlt => ?_⟩, h.supply, .inr hblock'⟩,
    hblock'⟩
  have hi : i ≤ full.length := by
    have hlt := (List.getElem?_eq_some_iff.1 hp).1
    rw [List.length_append, List.length_singleton] at hlt
    omega
  rcases Nat.lt_or_eq_of_le hi with hi | rfl
  · -- a block that is full already
    have hmem : p ∈ full := by
      rw [List.getElem?_append_left hi] at hp
      exact List.mem_of_getElem? hp
    have hne : p ≠ w.currentPointer := fun he =>
      (List.nodup_append.1 h.holds.nodup).2.2 p hmem w.currentPointer (List.mem_singleton_self _) he
    have hbefore : (i + 1) * (size - pointerSize) ≤ full.length * (size - pointerSize) := Nat.mul_le_mul_right _ hi
    rw [Nat.succ_mul] at hbefore
    have hlt' : i * (size - pointerSize) + o < written.length := by omega
    exact ((copyTo_of_ne hne _ _ _).trans (h.holds.data i p o hp ho hlt')).trans (List.getD_append _ _ _ _ hlt').symm
  · have hcurrent : p = w.currentPointer := by
      rw [List.getElem?_append_right (Nat.le_refl _), Nat.sub_self] at hp
      exact (Option.some.inj hp).symm
    rw [List.length_append] at hlt
    rw [hcurrent] at hp ⊢
    by_cases ho' : pointerSize + o < w.offset
    · have hlt' : full.length * (size - pointerSize) + o < written.length := by omega
      have hkept : (w.copy buffer).memory.data w.currentPointer (pointerSize + o)
          = w.memory.data w.currentPointer (pointerSize + o) := if_neg fun hc => by omega
      exact (hkept.trans (h.holds.data _ _ o hp ho hlt')).trans (List.getD_append _ _ _ _ hlt').symm
    · have hcopied : (w.copy buffer).memory.data w.currentPointer (pointerSize + o)
          = buffer.getD (pointerSize + o - w.offset) 0 := if_pos ⟨rfl, by omega, by omega⟩
      have hindex : pointerSize + o - w.offset = full.length * (size - pointerSize) + o - written.length := by omega
      rw [hcopied, hindex]
      exact (List.getD_append_right _ _ _ _ (by omega)).symm

theorem Wrote.length_le (h : Wrote size supply w chain written) : written.length ≤ chain.length * (size - pointerSize) := by
  rcases h.position with ⟨rfl, rfl, -, -⟩ | ⟨-, hlow, hhigh, full, rfl, hlength⟩
  · exact zero_le _
  · rw [length_append, length_singleton, succ_mul]
    omega

theorem Wrote.holds_nextBlock (h : Wrote size supply w chain written) (hsize : pointerSize < size) (hfits : p.Fits)
    (hnot : p ∉ chain) :
    Holds size
      { w.memory with
        next := update (if w.capacity > 0 then
          update w.memory.next w.currentPointer (getDiskPointer p 0).blockPointer else w.memory.next)
          p (BitVec.allOnes 64) } (chain ++ [p]) written := by
  refine ⟨?_, fun q hq => ?_, fun i a b ha hb => ?_, fun a ha => ?_, fun i a o ha ho hlt => ?_⟩
  · exact List.nodup_append.2 ⟨h.holds.nodup, List.nodup_singleton p, fun a ha b hb => by
      rw [List.mem_singleton.1 hb]
      exact fun he => hnot (he ▸ ha)⟩
  · rcases List.mem_append.1 hq with hq | hq
    · exact h.holds.fits q hq
    · rw [List.mem_singleton.1 hq]
      exact hfits
  · have hi : i + 1 < chain.length + 1 := by
      have hlt := (List.getElem?_eq_some_iff.1 hb).1
      rwa [List.length_append, List.length_singleton] at hlt
    rw [List.getElem?_append_left (by omega)] at ha
    have hane : a ≠ p := fun he => hnot (he ▸ List.mem_of_getElem? ha)
    dsimp only
    rw [update_of_ne hane]
    rcases h.position with ⟨rfl, -, -, -⟩ | ⟨hcapacity, -, -, full, rfl, -⟩
    · exact absurd ha (by simp)
    rw [List.length_append, List.length_singleton] at hi
    rw [if_pos (by omega)]
    rcases Nat.lt_or_eq_of_le (Nat.le_of_lt_succ hi) with hi | hi
    · -- both are blocks of before, and the first is not the current one
      rw [List.getElem?_append_left (by rw [List.length_append, List.length_singleton]; exact hi)] at hb
      have hmem : a ∈ full := by
        rw [List.getElem?_append_left (by omega)] at ha
        exact List.mem_of_getElem? ha
      have hcurrent : a ≠ w.currentPointer := fun he =>
        (List.nodup_append.1 h.holds.nodup).2.2 a hmem w.currentPointer (List.mem_singleton_self _) he
      rw [update_of_ne hcurrent]
      exact h.holds.next i a b ha hb
    · have hacurrent : a = w.currentPointer := by
        rw [List.getElem?_append_right (by omega), (by omega : i - full.length = 0)] at ha
        exact (Option.some.inj ha).symm
      have hbnew : b = p := by
        rw [List.getElem?_append_right (by rw [List.length_append, List.length_singleton]; omega), List.length_append,
          List.length_singleton, (by omega : i + 1 - (full.length + 1) = 0)] at hb
        exact (Option.some.inj hb).symm
      rw [hacurrent, hbnew, update_self]
  · rw [List.getLast?_concat, Option.some.injEq] at ha
    rw [← ha]
    exact update_self ..
  · have hroom := h.length_le
    have hi : i < chain.length := by
      by_contra hge
      have hmul := Nat.mul_le_mul_right (size - pointerSize) (Nat.le_of_not_lt hge)
      omega
    rw [List.getElem?_append_left hi] at ha
    exact h.holds.data i a o ha ho hlt

theorem Wrote.nextBlock (hfresh : FreshHandles nextHandle supply) (hsize : pointerSize < size)
    (h : Wrote size supply w chain written) (hfull : w.capacity ≤ w.offset) (hnext : w.nextBlock nextHandle size = .ok w') :
    ∃ p, Wrote size supply w' (chain ++ [p]) written ∧ w'.InBlock size (chain ++ [p]) written
      ∧ w'.offset = pointerSize := by
  unfold Writer.nextBlock at hnext
  rcases hhandle : nextHandle w.supply with e | ⟨p, s'⟩
  · rw [hhandle] at hnext
    cases hnext
  · rw [hhandle] at hnext
    obtain ⟨hfits, hnot, hsupply⟩ := hfresh w.supply chain p s' h.supply hhandle
    have hlength : written.length = chain.length * (size - pointerSize) := by
      rcases h.position with ⟨rfl, rfl, -, -⟩ | ⟨hcapacity, hlow, hhigh, full, rfl, hlength⟩
      · exact (zero_mul _).symm
      · rw [length_append, length_singleton, succ_mul]
        omega
    cases hnext
    have hblock : ∀ memory, Writer.InBlock size (⟨s', memory, p, size, pointerSize⟩ : Writer σ) (chain ++ [p]) written :=
      fun memory => ⟨rfl, le_refl _, hsize.le, chain, rfl, by rw [hlength]; simp⟩
    exact ⟨p, ⟨h.holds_nextBlock hsize hfits hnot, hsupply, .inr (hblock _)⟩, hblock _, rfl⟩

theorem Wrote.copy_full (h : Wrote size supply w chain written)
    (hlong : w.capacity < w.offset + buffer.length) :
    Wrote size supply (w.copy (buffer.take (w.capacity - w.offset))) chain (written ++ buffer.take (w.capacity - w.offset))
      ∧ (w.copy (buffer.take (w.capacity - w.offset))).capacity
        ≤ (w.copy (buffer.take (w.capacity - w.offset))).offset := by
  rcases h.position with ⟨hchain, hwritten, hcapacity, hoffset⟩ | hblock
  · rw [hcapacity, hoffset, Nat.sub_self, take_zero, copy_nil, append_nil]
    exact ⟨h, by rw [hcapacity]; exact Nat.zero_le _⟩
  · have hcapacity := hblock.1
    have hhigh := hblock.2.2.1
    have hlength : (buffer.take (w.capacity - w.offset)).length = w.capacity - w.offset := by
      rw [length_take]
      omega
    refine ⟨(h.copy hblock (by omega)).1, ?_⟩
    simp only [Writer.copy, hlength]
    omega

theorem Wrote.writeLoop (hfresh : FreshHandles nextHandle supply) (hsize : pointerSize < size) :
    ∀ (fuel : Nat) (w : Writer σ) (buffer : List UInt8) (chain : List MetadataPointer) (written : List UInt8) (w' : Writer σ),
      Wrote size supply w chain written → buffer.length + (if w.offset < w.capacity then 1 else 2) ≤ fuel →
      Writer.writeLoop nextHandle size fuel w buffer = .ok w' →
      ∃ more, Wrote size supply w' (chain ++ more) (written ++ buffer)
  | 0, w, buffer, chain, written, w', _, hfuel, _ => by
    split at hfuel <;> omega
  | fuel + 1, w, buffer, chain, written, w', h, hfuel, hloop => by
    unfold Writer.writeLoop at hloop
    split at hloop
    next hlong =>
      obtain ⟨hcopy, hfull⟩ := h.copy_full hlong
      dsimp only at hloop
      rcases hnext : (w.copy (buffer.take (w.capacity - w.offset))).nextBlock nextHandle size with e | w₁
      · rw [hnext] at hloop
        cases hloop
      · rw [hnext] at hloop
        obtain ⟨p, hwrote, hblock, hoffset⟩ := hcopy.nextBlock hfresh hsize hfull hnext
        have hdrop : (buffer.drop (w.capacity - w.offset)).length = buffer.length - (w.capacity - w.offset) :=
          length_drop
        have hlt : w₁.offset < w₁.capacity := by
          rw [hoffset, hblock.1]
          exact hsize
        obtain ⟨more, hmore⟩ := Wrote.writeLoop hfresh hsize fuel w₁ (buffer.drop (w.capacity - w.offset)) (chain ++ [p])
          (written ++ buffer.take (w.capacity - w.offset)) w' hwrote (by rw [if_pos hlt]; split at hfuel <;> omega) hloop
        refine ⟨p :: more, ?_⟩
        rwa [append_assoc, append_assoc, take_append_drop] at hmore
    next hshort =>
      cases hloop
      refine ⟨[], ?_⟩
      rw [append_nil]
      rcases h.position with ⟨hchain, hwritten, hcapacity, hoffset⟩ | hblock
      · have hnil : buffer = [] := eq_nil_of_length_eq_zero (by omega)
        rw [hnil, copy_nil, append_nil]
        exact h
      · exact (h.copy hblock (by have hcapacity := hblock.1; omega)).1

theorem Wrote.writeData (hfresh : FreshHandles nextHandle supply) (hsize : pointerSize < size)
    (h : Wrote size supply w chain written) (hwrite : w.writeData nextHandle size buffer = .ok w') :
    ∃ more, Wrote size supply w' (chain ++ more) (written ++ buffer) :=
  Wrote.writeLoop hfresh hsize _ w buffer chain written w' h (by split <;> omega) hwrite

/-- A position in a chain: in the sub-block `p` behind the sub-blocks `full`, at the byte `o`. -/
structure Position (size : Nat) (chain : List MetadataPointer) (pos : Nat) (p : MetadataPointer) (o : Nat) : Prop where
  index : ∃ i, chain[i]? = some p ∧ pos = i * (size - pointerSize) + o
  lt : o < size - pointerSize

theorem Wrote.getMetaBlockPointer (hfresh : FreshHandles nextHandle supply) (hsize : pointerSize < size)
    (h : Wrote size supply w chain written) {pointer : MetaBlockPointer}
    (hpointer : w.getMetaBlockPointer nextHandle size = .ok (pointer, w')) :
    ∃ more p o, Wrote size supply w' (chain ++ more) written ∧ pointer = getDiskPointer p (pointerSize + o)
      ∧ Position size (chain ++ more) written.length p o := by
  have hinBlock : ∀ {w₁ : Writer σ} {chain₁ : List MetadataPointer}, w₁.InBlock size chain₁ written → w₁.offset < size →
      ∃ p o, getDiskPointer w₁.currentPointer w₁.offset = getDiskPointer p (pointerSize + o)
        ∧ Position size chain₁ written.length p o := by
    rintro w₁ chain₁ ⟨-, hlow, -, full, rfl, hlength⟩ hlt
    refine ⟨w₁.currentPointer, w₁.offset - pointerSize, by rw [Nat.add_sub_cancel' hlow], ⟨full.length, ?_, hlength⟩, by omega⟩
    rw [getElem?_append_right (Nat.le_refl _), Nat.sub_self]
    rfl
  unfold Writer.getMetaBlockPointer at hpointer
  split at hpointer
  next hfull =>
    rcases hnext : w.nextBlock nextHandle size with e | w₁
    · rw [hnext] at hpointer
      cases hpointer
    · rw [hnext] at hpointer
      cases hpointer
      obtain ⟨p, hwrote, hblock, hoffset⟩ := h.nextBlock hfresh hsize hfull hnext
      obtain ⟨q, o, heq, hpos⟩ := hinBlock hblock (by rw [hoffset]; exact hsize)
      exact ⟨[p], q, o, hwrote, heq, hpos⟩
  next hroom =>
    cases hpointer
    rcases h.position with ⟨-, -, hcapacity, hoffset⟩ | hblock
    · omega
    · obtain ⟨q, o, heq, hpos⟩ := hinBlock hblock (by have hcapacity := hblock.1; omega)
      rw [← append_nil chain] at h hpos
      exact ⟨[], q, o, h, heq, hpos⟩

theorem Wrote.run (hfresh : FreshHandles nextHandle supply) (hsize : pointerSize < size) :
    ∀ (ops : List WriterOp) (w : Writer σ) (chain : List MetadataPointer) (written : List UInt8) (w' : Writer σ),
      Wrote size supply w chain written → w.run nextHandle size ops = .ok w' →
      ∃ more, Wrote size supply w' (chain ++ more) (written ++ (ops.map WriterOp.bytes).flatten)
  | [], w, chain, written, w', h, hrun => by
    cases hrun
    exact ⟨[], by simpa using h⟩
  | .writeData buffer :: ops, w, chain, written, w', h, hrun => by
    unfold Writer.run at hrun
    rcases hwrite : w.writeData nextHandle size buffer with e | w₁
    · rw [hwrite] at hrun
      cases hrun
    · rw [hwrite] at hrun
      obtain ⟨more, hmore⟩ := h.writeData hfresh hsize hwrite
      obtain ⟨more', hmore'⟩ := Wrote.run hfresh hsize ops w₁ _ _ w' hmore hrun
      refine ⟨more ++ more', ?_⟩
      rwa [append_assoc, append_assoc] at hmore'
  | .getMetaBlockPointer :: ops, w, chain, written, w', h, hrun => by
    unfold Writer.run at hrun
    rcases hpointer : w.getMetaBlockPointer nextHandle size with e | ⟨pointer, w₁⟩
    · rw [hpointer] at hrun
      cases hrun
    · rw [hpointer] at hrun
      obtain ⟨more, -, -, hmore, -, -⟩ := h.getMetaBlockPointer hfresh hsize hpointer
      obtain ⟨more', hmore'⟩ := Wrote.run hfresh hsize ops w₁ _ _ w' hmore hrun
      refine ⟨more ++ more', ?_⟩
      rwa [append_assoc] at hmore'

theorem Holds.of_append {memory : Memory} {more : List UInt8} (h : Holds size memory chain (written ++ more)) :
    Holds size memory chain written := by
  refine ⟨h.nodup, h.fits, h.next, h.last, fun i p o hp ho hlt => ?_⟩
  rw [h.data i p o hp ho (by rw [length_append]; omega)]
  exact getD_append _ _ _ _ hlt

theorem Wrote.flush (h : Wrote size supply w chain written) : Holds size w.flush chain written := by
  unfold Writer.flush
  split
  next hroom =>
    rcases h.position with ⟨-, -, hcapacity, -⟩ | hblock
    · omega
    · have hzeros : w.offset + (replicate (w.capacity - w.offset) (0 : UInt8)).length ≤ size := by
        rw [length_replicate]
        have hcapacity := hblock.1
        omega
      exact (h.copy hblock hzeros).1.holds.of_append
  next => exact h.holds

end Writing

/-! ## Reading -/

section Reading

variable {size : Nat} {memory : Memory} {chain : List MetadataPointer} {written : List UInt8} {known : Nat → Bool}
  {r : Reader} {pos : Nat}

theorem Holds.copyFrom (h : Holds size memory chain written) {i o count : Nat} (hp : chain[i]? = some p)
    (hfit : o + count ≤ size - pointerSize) (hlength : i * (size - pointerSize) + o + count ≤ written.length) :
    memory.copyFrom p (pointerSize + o) count = (written.drop (i * (size - pointerSize) + o)).take count := by
  unfold Memory.copyFrom
  refine ext_getElem ?_ fun k hk hk' => ?_
  · rw [length_map, length_range, length_take, length_drop]
    omega
  · have hcount : k < count := by rwa [length_map, length_range] at hk
    have hlt : i * (size - pointerSize) + (o + k) < written.length := by omega
    have hdata := h.data i p (o + k) hp (by omega) hlt
    rw [getD_eq_getElem _ _ hlt] at hdata
    rw [getElem_map, getElem_range, getElem_take, getElem_drop, add_assoc, hdata]
    congr 1
    omega

/-- A reader in sub-block `i` of the chain, at the byte `o`. -/
structure Reader.InBlock (size : Nat) (chain : List MetadataPointer) (r : Reader) (i o : Nat) : Prop where
  pointer : chain[i]? = some r.pointer
  capacity : r.capacity = size
  offset : r.offset = pointerSize + o
  le : o ≤ size - pointerSize
  nextOffset : r.nextOffset = pointerSize
  hasNextBlock : i + 1 < chain.length → r.hasNextBlock = true
  nextPointer : ∀ q, chain[i + 1]? = some q → r.nextPointer = getDiskPointer q 0

theorem readNextBlock_inBlock (h : Holds size memory chain written) (hknown : ∀ p ∈ chain, known p.blockIndex = true)
    {i o o' : Nat} {q : MetadataPointer} (hq : chain[i]? = some q) (hnext : r.nextPointer = getDiskPointer q o')
    (hhas : r.hasNextBlock = true) (hoffset : max r.nextOffset pointerSize = pointerSize + o)
    (ho : o < size - pointerSize) :
    ∃ r', r.readNextBlock memory size known = .ok r' ∧ r'.InBlock size chain i o := by
  have hmem : q ∈ chain := mem_of_getElem? hq
  have hfits := h.fits q hmem
  have hdisk : Reader.fromDiskPointer known r.nextPointer = .ok q := by
    unfold Reader.fromDiskPointer
    rw [hnext, getBlockId_getDiskPointer hfits, getBlockIndex_getDiskPointer hfits, if_pos (hknown q hmem)]
  have hstart : (if r.nextOffset < pointerSize then pointerSize else r.nextOffset) = pointerSize + o := by
    split <;> omega
  have hhigh : ¬pointerSize + o > size := by omega
  refine ⟨⟨if memory.next q = BitVec.allOnes 64 then r.nextPointer else ⟨memory.next q, 0⟩,
    !decide (memory.next q = BitVec.allOnes 64), q, pointerSize + o, pointerSize, size⟩, ?_,
    ⟨hq, rfl, rfl, ho.le, rfl, fun hi => ?_, fun q' hq' => ?_⟩⟩
  · unfold Reader.readNextBlock
    rw [hhas, hdisk]
    dsimp only
    rw [hstart]
    simp [hhigh]
  · have hq' := getElem?_eq_getElem hi
    have hword := h.next i q _ hq hq'
    have hne : memory.next q ≠ BitVec.allOnes 64 := by
      rw [hword]
      exact blockPointer_ne_allOnes (h.fits _ (getElem_mem hi))
    dsimp only
    rw [decide_eq_false hne]
    rfl
  · have hword := h.next i q q' hq hq'
    have hne : memory.next q ≠ BitVec.allOnes 64 := by
      rw [hword]
      exact blockPointer_ne_allOnes (h.fits q' (mem_of_getElem? hq'))
    dsimp only
    rw [if_neg hne, hword]
    rfl

/-- A reader at a position of what is written: before its first block, or in a block. -/
def Reader.At (size : Nat) (chain : List MetadataPointer) (r : Reader) (pos : Nat) : Prop :=
  (∃ i o q o', chain[i]? = some q ∧ o < size - pointerSize ∧ pos = i * (size - pointerSize) + o
      ∧ max o' pointerSize = pointerSize + o ∧ r = Reader.start (getDiskPointer q o'))
    ∨ ∃ i o, r.InBlock size chain i o ∧ pos = i * (size - pointerSize) + o

theorem readLoop_at (hsize : pointerSize < size) (h : Holds size memory chain written)
    (hroom : written.length ≤ chain.length * (size - pointerSize)) (hknown : ∀ p ∈ chain, known p.blockIndex = true) :
    ∀ (fuel : Nat) (r : Reader) (count pos : Nat), r.At size chain pos → pos + count ≤ written.length →
      count + (if r.offset < r.capacity then 1 else 2) ≤ fuel →
      ∃ r', r.readLoop memory size known fuel count = .ok ((written.drop pos).take count, r') ∧ r'.At size chain (pos + count)
  | 0, r, count, pos, _, _, hfuel => by
    split at hfuel <;> omega
  | fuel + 1, r, count, pos, hat, hlength, hfuel => by
    -- the rest is read in the next sub-block
    have hrest : ∀ (r₁ r₂ : Reader) (toRead i o : Nat), toRead ≤ count → r₁.readNextBlock memory size known = .ok r₂ →
        r₂.InBlock size chain i o → o < size - pointerSize → pos + toRead = i * (size - pointerSize) + o →
        count - toRead + 1 ≤ fuel →
        ∃ r', (do
            let r ← r₁.readNextBlock memory size known
            let result ← Reader.readLoop memory size known fuel r (count - toRead)
            pure ((written.drop pos).take toRead ++ result.1, result.2)) = Except.ok ((written.drop pos).take count, r')
          ∧ r'.At size chain (pos + count) := by
      intro r₁ r₂ toRead i o hle hnext hblock ho hpos hfuel
      have hlt : r₂.offset < r₂.capacity := by
        rw [hblock.offset, hblock.capacity]
        omega
      obtain ⟨r', hread, hat'⟩ := readLoop_at hsize h hroom hknown fuel r₂ (count - toRead) (pos + toRead)
        (.inr ⟨i, o, hblock, hpos⟩) (by omega) (by rw [if_pos hlt]; exact hfuel)
      refine ⟨r', ?_, ?_⟩
      · rw [hnext]
        show (do
          let result ← Reader.readLoop memory size known fuel r₂ (count - toRead)
          pure ((written.drop pos).take toRead ++ result.1, result.2)) = _
        rw [hread]
        show Except.ok _ = _
        rw [← drop_drop, ← take_add, Nat.add_sub_cancel' hle]
      · rwa [Nat.add_assoc, Nat.add_sub_cancel' hle] at hat'
    unfold Reader.readLoop
    rcases hat with ⟨i, o, q, o', hq, ho, hpos, ho', hr⟩ | ⟨i, o, hblock, hpos⟩
    · have hoffset : r.offset = 0 := by rw [hr]; rfl
      have hcapacity : r.capacity = 0 := by rw [hr]; rfl
      split
      next hlong =>
        obtain ⟨r₂, hnext, hblock⟩ := readNextBlock_inBlock (r := r) h hknown hq (by rw [hr]; rfl) (by rw [hr]; rfl)
          (by rw [hr]; exact ho') ho
        have hzero : r.capacity - r.offset = 0 := by omega
        rw [hoffset, hcapacity, if_neg (Nat.lt_irrefl 0)] at hfuel
        dsimp only
        rw [hzero, if_neg (Nat.lt_irrefl 0)]
        exact hrest r r₂ 0 i o (Nat.zero_le _) hnext hblock ho hpos (by omega)
      next hshort =>
        have hcount : count = 0 := by omega
        rw [hcount, take_zero]
        exact ⟨r, rfl, .inl ⟨i, o, q, o', hq, ho, hpos, ho', hr⟩⟩
    · have hoffset := hblock.offset
      have hcapacity := hblock.capacity
      have hle := hblock.le
      split
      next hlong =>
        have htoRead : r.capacity - r.offset = size - pointerSize - o := by omega
        have hmul : (i + 1) * (size - pointerSize) = i * (size - pointerSize) + (size - pointerSize) := Nat.succ_mul ..
        have hi : i + 1 < chain.length := by
          by_contra hge
          have hbound := Nat.mul_le_mul_right (size - pointerSize) (Nat.le_of_not_lt hge)
          omega
        have hbytes : memory.copyFrom r.pointer r.offset (r.capacity - r.offset)
            = (written.drop pos).take (size - pointerSize - o) := by
          rw [htoRead, hoffset, hpos]
          exact h.copyFrom hblock.pointer (by omega) (by omega)
        obtain ⟨r₁, hr₁⟩ : ∃ r₁, r₁ = if r.capacity - r.offset > 0 then
          { r with offset := r.offset + (count - (r.capacity - r.offset)) } else r := ⟨_, rfl⟩
        have hkeep : r₁.nextPointer = r.nextPointer ∧ r₁.hasNextBlock = r.hasNextBlock ∧ r₁.nextOffset = r.nextOffset := by
          rw [hr₁]
          split
          · exact ⟨rfl, rfl, rfl⟩
          · exact ⟨rfl, rfl, rfl⟩
        obtain ⟨r₂, hnext, hblock'⟩ := readNextBlock_inBlock (r := r₁) (o := 0) h hknown (getElem?_eq_getElem hi)
          (hkeep.1.trans (hblock.nextPointer _ (getElem?_eq_getElem hi))) (hkeep.2.1.trans (hblock.hasNextBlock hi))
          (by rw [hkeep.2.2, hblock.nextOffset]; rfl) (by omega)
        dsimp only
        rw [← hr₁, hbytes, htoRead]
        exact hrest r₁ r₂ _ (i + 1) 0 (by omega) hnext hblock' (by omega) (by omega) (by split at hfuel <;> omega)
      next hshort =>
        have hbytes : memory.copyFrom r.pointer r.offset count = (written.drop pos).take count := by
          rw [hoffset, hpos]
          exact h.copyFrom hblock.pointer (by omega) (by omega)
        have hoffset' : r.offset + count = pointerSize + (o + count) := by omega
        refine ⟨{ r with offset := r.offset + count }, by rw [hbytes], .inr ⟨i, o + count, ?_, by omega⟩⟩
        exact ⟨hblock.pointer, hcapacity, hoffset', by omega, hblock.nextOffset, hblock.hasNextBlock, hblock.nextPointer⟩

/-- Pieces of the given sizes. -/
def pieces (bytes : List UInt8) : List Nat → List (List UInt8)
  | [] => []
  | size :: sizes => bytes.take size :: pieces (bytes.drop size) sizes

theorem readAll_at (hsize : pointerSize < size) (h : Holds size memory chain written)
    (hroom : written.length ≤ chain.length * (size - pointerSize)) (hknown : ∀ p ∈ chain, known p.blockIndex = true) :
    ∀ (sizes : List Nat) (r : Reader) (pos : Nat), r.At size chain pos → pos + sizes.sum ≤ written.length →
      r.readAll memory size known sizes = .ok (pieces (written.drop pos) sizes)
  | [], r, pos, _, _ => rfl
  | count :: sizes, r, pos, hat, hlength => by
    rw [sum_cons] at hlength
    obtain ⟨r', hread, hat'⟩ := readLoop_at hsize h hroom hknown (count + 2) r count pos hat (by omega) (by split <;> omega)
    have hrest := readAll_at hsize h hroom hknown sizes r' (pos + count) hat' (by omega)
    unfold Reader.readAll Reader.readData
    rw [hread]
    show (do
      let rest ← r'.readAll memory size known sizes
      pure ((written.drop pos).take count :: rest)) = _
    rw [hrest, ← drop_drop]
    rfl

end Reading

/-! ## Streams -/

/-- Streams round-trip: a reader that starts at a pointer taken from a writer reads, in pieces of any sizes, the bytes
that were written after the pointer was taken. -/
theorem stream_roundTrip {σ : Type} {nextHandle : σ → Except MetadataError (MetadataPointer × σ)}
    {supply : σ → List MetadataPointer → Prop} (hfresh : FreshHandles nextHandle supply) {size : Nat}
    (hsize : pointerSize < size) (hsize' : size * 64 ≤ 2 ^ 32) {w w₁ w₂ w₃ : Writer σ} (hstart : w.AtStart [] [])
    (hsupply : supply w.supply []) {before after : List WriterOp} {pointer : MetaBlockPointer}
    (hbefore : w.run nextHandle size before = .ok w₁)
    (hpointer : w₁.getMetaBlockPointer nextHandle size = .ok (pointer, w₂)) (hafter : w₂.run nextHandle size after = .ok w₃) :
    fromBlockPointer (toBlockPointer pointer size) size = pointer
      ∧ ∃ chain, supply w₃.supply chain ∧ ∀ (known : Nat → Bool), (∀ p ∈ chain, known p.blockIndex = true) →
        ∀ sizes : List Nat, sizes.sum ≤ ((after.map WriterOp.bytes).flatten).length →
          (Reader.start pointer).readAll w₃.flush size known sizes = .ok (pieces ((after.map WriterOp.bytes).flatten) sizes) := by
  have hwrote : Wrote size supply w [] [] := ⟨⟨List.nodup_nil, nofun, nofun, nofun, nofun⟩, hsupply, .inl hstart⟩
  obtain ⟨chain₁, hwrote₁⟩ := Wrote.run hfresh hsize before w [] [] w₁ hwrote hbefore
  obtain ⟨more, p, o, hwrote₂, rfl, ⟨i, hi, hpos⟩, ho⟩ := hwrote₁.getMetaBlockPointer hfresh hsize hpointer
  obtain ⟨more', hwrote₃⟩ := Wrote.run hfresh hsize after w₂ _ _ w₃ hwrote₂ hafter
  have hfits : p.Fits := hwrote₂.holds.fits p (List.mem_of_getElem? hi)
  refine ⟨fromBlockPointer_toBlockPointer hfits (by omega) hsize', _, hwrote₃.supply, fun known hknown sizes hsizes => ?_⟩
  have hi' : (([] ++ chain₁ ++ more) ++ more')[i]? = some p := by
    rwa [List.getElem?_append_left (List.getElem?_eq_some_iff.1 hi).1]
  have hread := readAll_at hsize hwrote₃.flush hwrote₃.length_le hknown sizes
    (Reader.start (getDiskPointer p (pointerSize + o))) _ (.inl ⟨i, o, p, _, hi', ho, hpos, by omega, rfl⟩)
    (by simp only [List.length_append]; omega)
  rw [hread, List.drop_left]

end Haybarn.Metadata
