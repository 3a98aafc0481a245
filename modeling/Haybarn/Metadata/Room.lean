/-
Streams with a given number of sub-blocks. A writer that has sub-blocks enough for what it writes does not run out of
them, and a reader of such a stream reads one piece after the other.
-/
import Haybarn.Metadata.RoundTrip

namespace Haybarn.Metadata

open List

/-! ## Writing -/

section Writing

variable {σ : Type} {nextHandle : σ → Except MetadataError (MetadataPointer × σ)} {size total : Nat}
  {supply : σ → List MetadataPointer → Prop} {w : Writer σ} {chain : List MetadataPointer} {written : List UInt8}

/-- There are handles for `total` sub-blocks. -/
def Supplies (nextHandle : σ → Except MetadataError (MetadataPointer × σ)) (supply : σ → List MetadataPointer → Prop)
    (total : Nat) : Prop :=
  ∀ s chain, supply s chain → chain.length < total → ∃ p s', nextHandle s = .ok (p, s')

theorem Wrote.nextBlock_ok (hsupplies : Supplies nextHandle supply total) (h : Wrote size supply w chain written)
    (hlt : chain.length < total) : ∃ w', w.nextBlock nextHandle size = .ok w' := by
  obtain ⟨p, s', hnext⟩ := hsupplies w.supply chain h.supply hlt
  unfold Writer.nextBlock
  rw [hnext]
  exact ⟨_, rfl⟩

theorem Wrote.length_lt_of_long (h : Wrote size supply w chain written) (hchain : chain ≠ []) {buffer : List UInt8}
    (hlong : w.capacity < w.offset + buffer.length)
    (hroom : written.length + buffer.length ≤ total * (size - pointerSize)) : chain.length < total := by
  rcases h.position with ⟨rfl, -, -, -⟩ | ⟨hcapacity, hlow, hhigh, full, rfl, hlength⟩
  · exact absurd rfl hchain
  · by_contra hge
    rw [length_append, length_singleton] at hge
    have hbound := Nat.mul_le_mul_right (size - pointerSize) (Nat.le_of_not_lt hge)
    rw [Nat.succ_mul] at hbound
    omega

theorem Wrote.writeLoop_ok (hfresh : FreshHandles nextHandle supply) (hsupplies : Supplies nextHandle supply total)
    (hsize : pointerSize < size) :
    ∀ (fuel : Nat) (w : Writer σ) (buffer : List UInt8) (chain : List MetadataPointer) (written : List UInt8),
      Wrote size supply w chain written → chain ≠ [] → written.length + buffer.length ≤ total * (size - pointerSize) →
      ∃ w', Writer.writeLoop nextHandle size fuel w buffer = .ok w'
  | 0, w, _, _, _, _, _, _ => ⟨w, rfl⟩
  | fuel + 1, w, buffer, chain, written, h, hchain, hroom => by
    unfold Writer.writeLoop
    split
    next hlong =>
      obtain ⟨hcopy, hfull⟩ := h.copy_full hlong
      obtain ⟨w₁, hnext⟩ := hcopy.nextBlock_ok hsupplies (h.length_lt_of_long hchain hlong hroom)
      obtain ⟨p, hwrote, -, -⟩ := hcopy.nextBlock hfresh hsize hfull hnext
      dsimp only
      rw [hnext]
      refine Wrote.writeLoop_ok hfresh hsupplies hsize fuel w₁ _ (chain ++ [p]) _ hwrote (by simp) ?_
      simp only [length_append, length_take, length_drop]
      omega
    next => exact ⟨_, rfl⟩

theorem Wrote.run_ok (hfresh : FreshHandles nextHandle supply) (hsupplies : Supplies nextHandle supply total)
    (hsize : pointerSize < size) :
    ∀ (buffers : List (List UInt8)) (w : Writer σ) (chain : List MetadataPointer) (written : List UInt8),
      Wrote size supply w chain written → chain ≠ [] →
      written.length + buffers.flatten.length ≤ total * (size - pointerSize) →
      ∃ w', w.run nextHandle size (buffers.map .writeData) = .ok w'
  | [], w, _, _, _, _, _ => ⟨w, rfl⟩
  | buffer :: buffers, w, chain, written, h, hchain, hroom => by
    rw [flatten_cons, length_append] at hroom
    obtain ⟨w₁, hwrite⟩ := Wrote.writeLoop_ok hfresh hsupplies hsize (buffer.length + 2) w buffer chain written h hchain
      (by omega)
    obtain ⟨more, hmore⟩ := h.writeData hfresh hsize hwrite
    obtain ⟨w', hrun⟩ := Wrote.run_ok hfresh hsupplies hsize buffers w₁ (chain ++ more) (written ++ buffer) hmore
      (by simp [hchain]) (by rw [length_append]; omega)
    refine ⟨w', ?_⟩
    rw [map_cons]
    unfold Writer.run Writer.writeData
    rw [hwrite]
    exact hrun

theorem Holds.congr {memory memory' : Memory} (h : Holds size memory chain written)
    (hnext : ∀ p ∈ chain, memory'.next p = memory.next p) (hdata : ∀ p ∈ chain, memory'.data p = memory.data p) :
    Holds size memory' chain written := by
  refine ⟨h.nodup, h.fits, fun i p q hp hq => ?_, fun p hp => ?_, fun i p o hp ho hlt => ?_⟩
  · rw [hnext p (mem_of_getElem? hp)]
    exact h.next i p q hp hq
  · rw [hnext p (mem_of_getLast? hp)]
    exact h.last p hp
  · rw [hdata p (mem_of_getElem? hp)]
    exact h.data i p o hp ho hlt

end Writing

/-! ## Reading -/

section Reading

variable {size : Nat} {memory : Memory} {chain : List MetadataPointer} {written : List UInt8} {r : Reader}

/-- A reader before the last bytes of a stream. -/
def Reader.Sees (size : Nat) (chain : List MetadataPointer) (written : List UInt8) (r : Reader) (bytes : List UInt8) :
    Prop :=
  ∃ pos, r.At size chain pos ∧ pos ≤ written.length ∧ written.drop pos = bytes

theorem Reader.Sees.readData (hsize : pointerSize < size) (h : Holds size memory chain written)
    (hroom : written.length ≤ chain.length * (size - pointerSize)) (known : Nat → Bool)
    (hknown : ∀ p ∈ chain, known p.blockIndex = true) {bytes rest : List UInt8} (hr : r.Sees size chain written (bytes ++ rest)) :
    ∃ r', r.readData memory size known bytes.length = .ok (bytes, r') ∧ r'.Sees size chain written rest := by
  obtain ⟨pos, hat, hpos, hdrop⟩ := hr
  have hlength : written.length - pos = bytes.length + rest.length := by
    rw [← length_drop, hdrop, length_append]
  obtain ⟨r', hread, hat'⟩ := readLoop_at hsize h hroom hknown (bytes.length + 2) r bytes.length pos hat (by omega)
    (by split <;> omega)
  rw [hdrop, take_left] at hread
  refine ⟨r', hread, pos + bytes.length, hat', by omega, ?_⟩
  rw [← drop_drop, hdrop, drop_left]

end Reading

end Haybarn.Metadata
