/-
Scans of uncompressed validity segments: the rest of `validity_uncompressed.cpp`. An unaligned scan moves windows of bits
from the words of the input to those of the result, each within a word of both; an aligned scan copies words; a selection
and a fetch look at single rows. All of them report the bits of the segment, and words outside the scanned range are not
read.
-/
import Haybarn.Validity.Segment

namespace Haybarn.Validity

open Common Lib Outcome BitVec List Nat Option
open ValidityMask (entryCount entryRowIsValid entryRowIsValid_eq getLsbD_one_shiftLeft)

/-! ## Definitions -/

def lowerMasks : List (BitVec 64) :=
  [0x0, 0x1, 0x3, 0x7, 0xf, 0x1f, 0x3f, 0x7f, 0xff, 0x1ff, 0x3ff, 0x7ff, 0xfff, 0x1fff, 0x3fff, 0x7fff, 0xffff,
    0x1ffff, 0x3ffff, 0x7ffff, 0xfffff, 0x1fffff, 0x3fffff, 0x7fffff, 0xffffff, 0x1ffffff, 0x3ffffff, 0x7ffffff,
    0xfffffff, 0x1fffffff, 0x3fffffff, 0x7fffffff, 0xffffffff, 0x1ffffffff, 0x3ffffffff, 0x7ffffffff, 0xfffffffff,
    0x1fffffffff, 0x3fffffffff, 0x7fffffffff, 0xffffffffff, 0x1ffffffffff, 0x3ffffffffff, 0x7ffffffffff, 0xfffffffffff,
    0x1fffffffffff, 0x3fffffffffff, 0x7fffffffffff, 0xffffffffffff, 0x1ffffffffffff, 0x3ffffffffffff, 0x7ffffffffffff,
    0xfffffffffffff, 0x1fffffffffffff, 0x3fffffffffffff, 0x7fffffffffffff, 0xffffffffffffff, 0x1ffffffffffffff,
    0x3ffffffffffffff, 0x7ffffffffffffff, 0xfffffffffffffff, 0x1fffffffffffffff, 0x3fffffffffffffff,
    0x7fffffffffffffff, 0xffffffffffffffff]

def upperMasks : List (BitVec 64) :=
  [0x0, 0x8000000000000000, 0xc000000000000000, 0xe000000000000000, 0xf000000000000000, 0xf800000000000000,
    0xfc00000000000000, 0xfe00000000000000, 0xff00000000000000, 0xff80000000000000, 0xffc0000000000000,
    0xffe0000000000000, 0xfff0000000000000, 0xfff8000000000000, 0xfffc000000000000, 0xfffe000000000000,
    0xffff000000000000, 0xffff800000000000, 0xffffc00000000000, 0xffffe00000000000, 0xfffff00000000000,
    0xfffff80000000000, 0xfffffc0000000000, 0xfffffe0000000000, 0xffffff0000000000, 0xffffff8000000000,
    0xffffffc000000000, 0xffffffe000000000, 0xfffffff000000000, 0xfffffff800000000, 0xfffffffc00000000,
    0xfffffffe00000000, 0xffffffff00000000, 0xffffffff80000000, 0xffffffffc0000000, 0xffffffffe0000000,
    0xfffffffff0000000, 0xfffffffff8000000, 0xfffffffffc000000, 0xfffffffffe000000, 0xffffffffff000000,
    0xffffffffff800000, 0xffffffffffc00000, 0xffffffffffe00000, 0xfffffffffff00000, 0xfffffffffff80000,
    0xfffffffffffc0000, 0xfffffffffffe0000, 0xffffffffffff0000, 0xffffffffffff8000, 0xffffffffffffc000,
    0xffffffffffffe000, 0xfffffffffffff000, 0xfffffffffffff800, 0xfffffffffffffc00, 0xfffffffffffffe00,
    0xffffffffffffff00, 0xffffffffffffff80, 0xffffffffffffffc0, 0xffffffffffffffe0, 0xfffffffffffffff0,
    0xfffffffffffffff8, 0xfffffffffffffffc, 0xfffffffffffffffe, 0xffffffffffffffff]

/-- The words that a scan may read. -/
def Words : Type := Nat → Option (BitVec 64)

/-- `input_data[entry]`. -/
def Words.read (input : Words) (entry : Nat) : Outcome (BitVec 64) :=
  match input entry with
  | some word => done word
  | none => fault

namespace Mask

/-- The mask with words, which all of them are set if it had none. -/
def writable (m : Mask) : Mask := if m.words = none then m.initialized else m

/-- `data[entry] &= word`, of a mask that has words. -/
def andEntry (m : Mask) (entry : Nat) (word : BitVec 64) : Outcome Mask :=
  match h : m.words with
  | some ws =>
    if hentry : entry < ws.length then
      done { m with
        words := some (ws.set entry (ws[entry] &&& word))
        room := by
          rintro _ ⟨⟩
          rw [List.length_set]
          exact m.room ws h }
    else fault
  | none => fault

/-- `data[entry] = word`, of a mask that has words. -/
def setEntry (m : Mask) (entry : Nat) (word : BitVec 64) : Outcome Mask :=
  match h : m.words with
  | some ws =>
    if entry < ws.length then
      done { m with
        words := some (ws.set entry word)
        room := by
          rintro _ ⟨⟩
          rw [List.length_set]
          exact m.room ws h }
    else fault
  | none => fault

def setInvalid (m : Mask) (row : Nat) : Outcome Mask :=
  m.writable.andEntry (row / bitsPerValue) (~~~(1#64 <<< (row % bitsPerValue)))

end Mask

/-- The places of `UnalignedScan` in the input and in the result, and the result. -/
structure Window where
  pos : Nat
  inputEntry : Nat
  inputIdx : Nat
  resultEntry : Nat
  resultIdx : Nat
  result : Mask

/-- The word of the input, moved to where the bits go in the result. -/
def lineUp (inputMask : BitVec 64) (inputIdx resultIdx : Nat) : Outcome (BitVec 64) :=
  if resultIdx < inputIdx then done (inputMask >>> (inputIdx - resultIdx))
  else do
    let shiftAmount := resultIdx - inputIdx
    let upper ← Lib.read upperMasks shiftAmount
    done ((inputMask &&& ~~~upper) <<< shiftAmount)

/-- One turn of the loop of `UnalignedScan`. -/
def scanWindow (input : Words) (scanCount : Nat) (w : Window) : Outcome Window := do
  let inputMask ← input.read w.inputEntry
  let bitsLeft := scanCount - w.pos
  let inputWindowSize := min bitsLeft (bitsPerValue - w.inputIdx)
  let resultWindowSize := min bitsLeft (bitsPerValue - w.resultIdx)
  let windowSize := min inputWindowSize resultWindowSize
  let inputMask ← lineUp inputMask w.inputIdx w.resultIdx
  let protectedUpperBits ← Lib.read upperMasks (bitsPerValue - w.resultIdx - windowSize)
  let protectedLowerBits ← Lib.read lowerMasks w.resultIdx
  let inputMask := inputMask ||| protectedUpperBits ||| protectedLowerBits
  let result ← (if inputMask ≠ BitVec.allOnes 64 then w.result.writable.andEntry w.resultEntry inputMask
    else done w.result)
  let inputIdx := (w.inputIdx + windowSize) % bitsPerValue
  let resultIdx := (w.resultIdx + windowSize) % bitsPerValue
  done {
    pos := w.pos + windowSize
    inputEntry := if inputIdx = 0 then w.inputEntry + 1 else w.inputEntry
    inputIdx := inputIdx
    resultEntry := if resultIdx = 0 then w.resultEntry + 1 else w.resultEntry
    resultIdx := resultIdx
    result := result }

def unalignedScan (input : Words) (inputStart : Nat) (result : Mask) (resultOffset scanCount : Nat) : Outcome Mask := do
  let resultEntry := resultOffset / bitsPerValue
  let inputEntry := inputStart / bitsPerValue
  let w ← loop (fun w => decide (w.pos < scanCount)) (scanWindow input scanCount) (scanCount + 1)
    ⟨0, inputEntry, inputStart - inputEntry * bitsPerValue, resultEntry, resultOffset - resultEntry * bitsPerValue, result⟩
  done w.result

/-- One turn of the loop of `AlignedScan`. -/
def scanEntry (input : Words) (startOffset i : Nat) (result : Mask) : Outcome Mask := do
  let inputEntry ← input.read (startOffset + i)
  if result.words = none ∧ inputEntry = BitVec.allOnes 64 then done result
  else result.writable.setEntry i inputEntry

def alignedScan (input : Words) (inputStart : Nat) (result : Mask) (scanCount : Nat) : Outcome Mask :=
  forLoop (scanEntry input (inputStart / bitsPerValue)) 0 ((scanCount + bitsPerValue - 1) / bitsPerValue) result

namespace Segment

/-- The words of the segment. -/
def input (s : Segment) : Words := loadWord s.data

/-- `RowIsValidUnsafe`, of the mask that the bytes of the segment are. -/
def rowIsValidUnsafe (s : Segment) (row : Nat) : Outcome Bool := do
  let entry ← s.input.read (row / bitsPerValue)
  done (entryRowIsValid entry (row % bitsPerValue))

def validityScanPartial (s : Segment) (start scanCount : Nat) (result : Mask) (resultOffset : Nat) : Outcome Mask :=
  unalignedScan s.input start result resultOffset scanCount

def validityScan (s : Segment) (start scanCount : Nat) (result : Mask) : Outcome Mask :=
  if start % bitsPerValue = 0 then alignedScan s.input start result scanCount
  else s.validityScanPartial start scanCount result 0

/-- One turn of the loop of `ValiditySelect`. -/
def selectRow (s : Segment) (start : Nat) (sel : Option (List Nat)) (i : Nat) (result : Mask) : Outcome Mask := do
  let idx ← getIndex sel i
  let isValid ← s.rowIsValidUnsafe (start + idx)
  if !isValid then result.setInvalid i else done result

def validitySelect (s : Segment) (start : Nat) (result : Mask) (sel : Option (List Nat)) (selCount : Nat) : Outcome Mask :=
  forLoop (s.selectRow start sel) 0 selCount result

def validityFetchRow (s : Segment) (rowId : Nat) (result : Mask) (resultIdx : Nat) : Outcome Mask := do
  let isValid ← s.rowIsValidUnsafe rowId
  if !isValid then result.setInvalid resultIdx else done result

end Segment

/-! ## Rows of a mask -/

namespace Mask

variable {m : Mask} {entry row : Nat} {word : BitVec 64}

theorem valid_initialized (m : Mask) (row : Nat) : m.initialized.valid row = true := by
  have hlt : row % 64 < 64 := mod_lt _ (by decide)
  have hones : (allOnes 64).getLsbD (row % 64) = true := by rw [getLsbD_allOnes, decide_eq_true hlt]
  unfold valid initialized
  dsimp only
  rw [getD_eq_getElem?_getD, getElem?_replicate]
  split
  · exact hones
  · exact hones

theorem writable_spec (m : Mask) : m.writable.words ≠ none ∧ m.writable.capacity = m.capacity ∧
    ∀ row, m.writable.valid row = m.valid row := by
  unfold writable
  split
  next h =>
    refine ⟨by simp [initialized], rfl, fun row => ?_⟩
    rw [valid_initialized, valid, h]
  next h => exact ⟨h, rfl, fun _ => rfl⟩

theorem getD_set (ws : List (BitVec 64)) {i j : Nat} (h : j < ws.length) (w d : BitVec 64) :
    (ws.set j w).getD i d = if i = j then w else ws.getD i d := by
  rw [getD_eq_getElem?_getD, getD_eq_getElem?_getD]
  split
  next hi => rw [hi, getElem?_set_self h]; rfl
  next hi => rw [getElem?_set_ne (Ne.symm hi)]

theorem returns_andEntry (hne : m.words ≠ none) (hrow : row < m.capacity) :
    (m.andEntry (row / 64) word).Returns fun m' => m'.capacity = m.capacity ∧
      ∀ j, m'.valid j = (m.valid j && if j / 64 = row / 64 then word.getLsbD (j % 64) else true) := by
  obtain ⟨words, capacity, room⟩ := m
  cases words with
  | none => exact absurd rfl hne
  | some ws =>
    have hlt := exists_word (m := ⟨some ws, capacity, room⟩) rfl hrow
    unfold andEntry
    dsimp only
    rw [dif_pos hlt]
    refine returns_done ⟨rfl, fun j => ?_⟩
    unfold valid
    dsimp only
    rw [getD_set ws hlt]
    split
    next hj => rw [hj, getLsbD_and, List.getD_eq_getElem?_getD, List.getElem?_eq_getElem hlt]; rfl
    next hj => rw [Bool.and_true]

theorem returns_setEntry (hne : m.words ≠ none) (hrow : row < m.capacity) :
    (m.setEntry (row / 64) word).Returns fun m' => m'.capacity = m.capacity ∧
      ∀ j, m'.valid j = if j / 64 = row / 64 then word.getLsbD (j % 64) else m.valid j := by
  obtain ⟨words, capacity, room⟩ := m
  cases words with
  | none => exact absurd rfl hne
  | some ws =>
    have hlt := exists_word (m := ⟨some ws, capacity, room⟩) rfl hrow
    unfold setEntry
    dsimp only
    rw [if_pos hlt]
    refine returns_done ⟨rfl, fun j => ?_⟩
    unfold valid
    dsimp only
    rw [getD_set ws hlt]
    split <;> rfl

/-- The rows of the result from an offset on are cleared where the bits are zero, and all others are as they were. -/
structure Cleared (m : Mask) (offset count : Nat) (bits : Nat → Bool) (m' : Mask) : Prop where
  capacity : m'.capacity = m.capacity
  valid : ∀ j, m'.valid j = (m.valid j && if offset ≤ j ∧ j < offset + count then bits (j - offset) else true)

theorem Cleared.refl (m : Mask) (offset : Nat) (bits : Nat → Bool) : m.Cleared offset 0 bits m :=
  ⟨rfl, fun j => by rw [if_neg (by omega), Bool.and_true]⟩

theorem Cleared.trans {m' m'' : Mask} {offset count count' : Nat} {bits bits' : Nat → Bool}
    (h : m.Cleared offset count bits m') (h' : m'.Cleared (offset + count) count' bits' m'')
    (hbits : ∀ i, bits' i = bits (count + i)) : m.Cleared offset (count + count') bits m'' where
  capacity := h'.capacity.trans h.capacity
  valid j := by
    rw [h'.valid, h.valid, Bool.and_assoc]
    congr 1
    by_cases hlow : j < offset + count
    · rw [if_neg (show ¬ (offset + count ≤ j ∧ j < offset + count + count') by omega), Bool.and_true]
      by_cases hstart : offset ≤ j
      · rw [if_pos ⟨hstart, hlow⟩, if_pos ⟨hstart, by omega⟩]
      · rw [if_neg (by omega), if_neg (by omega)]
    · rw [if_neg (show ¬ (offset ≤ j ∧ j < offset + count) by omega), Bool.true_and]
      by_cases hend : j < offset + count + count'
      · rw [if_pos ⟨by omega, hend⟩, if_pos ⟨by omega, by omega⟩, hbits]
        congr 1
        omega
      · rw [if_neg (by omega), if_neg (by omega)]

theorem returns_setInvalid (hrow : row < m.capacity) :
    (m.setInvalid row).Returns (m.Cleared row 1 fun _ => false) := by
  obtain ⟨hne, hcapacity, hvalid⟩ := m.writable_spec
  have hlt : row % bitsPerValue < 64 := mod_lt _ (by decide)
  unfold setInvalid
  refine (returns_andEntry hne (hcapacity ▸ hrow)).mono ?_
  rintro m' ⟨hcapacity', hvalid'⟩
  refine ⟨hcapacity'.trans hcapacity, fun j => ?_⟩
  rw [hvalid', hvalid, getLsbD_not, getLsbD_one_shiftLeft hlt]
  congr 1
  have hmod : j % 64 < 64 := mod_lt _ (by decide)
  by_cases hj : j = row
  · rw [if_pos (by rw [hj]), if_pos (by omega), hj]
    simp [bitsPerValue]
  · rw [if_neg (show ¬ (row ≤ j ∧ j < row + 1) by omega)]
    split
    next hdiv =>
      have hne : j % 64 ≠ row % bitsPerValue := by
        unfold bitsPerValue
        omega
      simp [hmod, hne]
    next => rfl

end Mask

/-! ## Windows -/

/-- A bit of the input. -/
def Words.bit (input : Words) (i : Nat) : Bool := ((input (i / 64)).getD (BitVec.allOnes 64)).getLsbD (i % 64)

variable {n : Nat}

theorem read_upperMasks (hn : n ≤ 64) : ∃ word, Lib.read upperMasks n = done word ∧
    ∀ j < 64, word.getLsbD j = decide (64 - n ≤ j) := by
  have hbits : ∀ n : Fin 65, ∀ j : Fin 64, (upperMasks.getD n 0).getLsbD j = decide (64 - n.val ≤ j.val) := by
    decide +kernel
  have hget : upperMasks[n]? = some (upperMasks.getD n 0) := by
    rw [List.getD_eq_getElem?_getD, List.getElem?_eq_getElem (show n < upperMasks.length from lt_succ_of_le hn)]
    rfl
  refine ⟨upperMasks.getD n 0, ?_, fun j hj => hbits ⟨n, by omega⟩ ⟨j, hj⟩⟩
  rw [Lib.read, hget]

theorem read_lowerMasks (hn : n ≤ 64) : ∃ word, Lib.read lowerMasks n = done word ∧
    ∀ j < 64, word.getLsbD j = decide (j < n) := by
  have hbits : ∀ n : Fin 65, ∀ j : Fin 64, (lowerMasks.getD n 0).getLsbD j = decide (j.val < n.val) := by
    decide +kernel
  have hget : lowerMasks[n]? = some (lowerMasks.getD n 0) := by
    rw [List.getD_eq_getElem?_getD, List.getElem?_eq_getElem (show n < lowerMasks.length from lt_succ_of_le hn)]
    rfl
  refine ⟨lowerMasks.getD n 0, ?_, fun j hj => hbits ⟨n, by omega⟩ ⟨j, hj⟩⟩
  rw [Lib.read, hget]

theorem returns_lineUp (inputMask : BitVec 64) {inputIdx resultIdx : Nat} (hi : inputIdx + n ≤ 64)
    (hr : resultIdx + n ≤ 64) : (lineUp inputMask inputIdx resultIdx).Returns fun word =>
      ∀ j, resultIdx ≤ j → j < resultIdx + n → word.getLsbD j = inputMask.getLsbD (inputIdx + (j - resultIdx)) := by
  unfold lineUp
  split
  next h =>
    refine returns_done fun j hj hj' => ?_
    rw [getLsbD_ushiftRight]
    congr 1
    omega
  next h =>
    obtain ⟨upper, hread, hupper⟩ := read_upperMasks (show resultIdx - inputIdx ≤ 64 by omega)
    dsimp only
    rw [hread, done_bind]
    refine returns_done fun j hj hj' => ?_
    rw [getLsbD_shiftLeft, getLsbD_and, getLsbD_not, hupper _ (by omega)]
    simp only [show j < 64 by omega, show ¬ j < resultIdx - inputIdx by omega,
      show j - (resultIdx - inputIdx) < 64 by omega,
      show ¬ 64 - (resultIdx - inputIdx) ≤ j - (resultIdx - inputIdx) by omega, decide_true, decide_false, Bool.not_false,
      Bool.true_and, Bool.and_true]
    congr 1
    omega

/-- The places of a window: so many rows behind the start, in the input and in the result. -/
structure Window.At (w : Window) (inputStart resultOffset : Nat) : Prop where
  input : 64 * w.inputEntry + w.inputIdx = inputStart + w.pos
  result : 64 * w.resultEntry + w.resultIdx = resultOffset + w.pos
  inputIdx : w.inputIdx < 64
  resultIdx : w.resultIdx < 64

variable {input : Words} {inputStart resultOffset scanCount : Nat}

theorem next_place {entry idx : Nat} (hpos : 0 < n) (hn : idx + n ≤ 64) :
    64 * (if (idx + n) % 64 = 0 then entry + 1 else entry) + (idx + n) % 64 = 64 * entry + idx + n := by
  split <;> omega

theorem returns_scanWindow {w : Window} (hat : w.At inputStart resultOffset) (hpos : w.pos < scanCount)
    (hinput : (input ((inputStart + w.pos) / 64)).isSome) (hroom : resultOffset + scanCount ≤ w.result.capacity) :
    (scanWindow input scanCount w).Returns fun w' => ∃ n, 0 < n ∧ w'.pos = w.pos + n ∧ w'.pos ≤ scanCount ∧
      w'.At inputStart resultOffset ∧
      w.result.Cleared (resultOffset + w.pos) n (fun i => input.bit (inputStart + w.pos + i)) w'.result := by
  have hiat := hat.input
  have hrat := hat.result
  have hi := hat.inputIdx
  have hr := hat.resultIdx
  have hentry : (inputStart + w.pos) / 64 = w.inputEntry := by omega
  rw [hentry] at hinput
  obtain ⟨word, hword⟩ := isSome_iff_exists.1 hinput
  unfold scanWindow bitsPerValue Words.read
  rw [hword]
  dsimp only
  rw [done_bind]
  generalize hn : min (min (scanCount - w.pos) (64 - w.inputIdx)) (min (scanCount - w.pos) (64 - w.resultIdx)) = n
  obtain ⟨aligned, haligned, hbits⟩ := returns_lineUp word (show w.inputIdx + n ≤ 64 by omega)
    (show w.resultIdx + n ≤ 64 by omega)
  obtain ⟨upper, hupper, hupperBits⟩ := read_upperMasks (show 64 - w.resultIdx - n ≤ 64 by omega)
  obtain ⟨lower, hlower, hlowerBits⟩ := read_lowerMasks (show w.resultIdx ≤ 64 by omega)
  rw [haligned, done_bind, hupper, done_bind, hlower, done_bind]
  -- the bits of the mask: those of the input in the window, and ones around it
  have hmask : ∀ j < 64, (aligned ||| upper ||| lower).getLsbD j =
      if w.resultIdx ≤ j ∧ j < w.resultIdx + n then input.bit (inputStart + w.pos + (j - w.resultIdx)) else true := by
    intro j hj
    rw [getLsbD_or, getLsbD_or, hupperBits j hj, hlowerBits j hj]
    split
    next h =>
      have hdiv : (inputStart + w.pos + (j - w.resultIdx)) / 64 = w.inputEntry := by omega
      have hmod : (inputStart + w.pos + (j - w.resultIdx)) % 64 = w.inputIdx + (j - w.resultIdx) := by omega
      rw [hbits j h.1 h.2, Words.bit, hdiv, hmod, hword, decide_eq_false (by omega), decide_eq_false (by omega)]
      simp
    next h =>
      by_cases hlow : j < w.resultIdx
      · rw [decide_eq_true hlow, Bool.or_true]
      · rw [decide_eq_true (show 64 - (64 - w.resultIdx - n) ≤ j by omega), Bool.or_true, Bool.true_or]
  generalize aligned ||| upper ||| lower = mask at hmask ⊢
  have hcleared : (if mask ≠ allOnes 64 then w.result.writable.andEntry w.resultEntry mask else done w.result).Returns
      (w.result.Cleared (resultOffset + w.pos) n fun i => input.bit (inputStart + w.pos + i)) := by
    have hrow : (resultOffset + w.pos) / 64 = w.resultEntry := by omega
    split
    next =>
      obtain ⟨hne, hcapacity, hvalid⟩ := w.result.writable_spec
      have hand := @Mask.returns_andEntry _ _ mask hne (show resultOffset + w.pos < w.result.writable.capacity by omega)
      rw [hrow] at hand
      refine hand.mono ?_
      rintro m' ⟨hcapacity', hvalid'⟩
      refine ⟨hcapacity'.trans hcapacity, fun j => ?_⟩
      rw [hvalid', hvalid]
      congr 1
      by_cases hj : j / 64 = w.resultEntry
      · rw [if_pos hj, hmask _ (Nat.mod_lt _ (by decide))]
        by_cases hin : w.resultIdx ≤ j % 64 ∧ j % 64 < w.resultIdx + n
        · rw [if_pos hin, if_pos (by omega)]
          congr 2
          omega
        · rw [if_neg hin, if_neg (by omega)]
      · rw [if_neg hj, if_neg (by omega)]
    next h =>
      -- all bits of the window are ones
      have hones : mask = allOnes 64 := not_not.1 h
      refine returns_done ⟨rfl, fun j => ?_⟩
      split
      next hin =>
        have hbit := hmask (w.resultIdx + (j - (resultOffset + w.pos))) (by omega)
        rw [hones, if_pos (by omega), Nat.add_sub_cancel_left, getLsbD_allOnes, decide_eq_true (by omega)] at hbit
        rw [← hbit, Bool.and_true]
      next => rw [Bool.and_true]
  refine hcleared.bind fun result hresult => ?_
  refine returns_done ⟨n, by omega, rfl, by dsimp only; omega, ⟨?_, ?_, Nat.mod_lt _ (by decide), Nat.mod_lt _ (by decide)⟩,
    hresult⟩
  · dsimp only
    rw [next_place (by omega) (by omega)]
    omega
  · dsimp only
    rw [next_place (by omega) (by omega)]
    omega

theorem returns_unalignedScan {result : Mask} (hinput : ∀ i < scanCount, (input ((inputStart + i) / 64)).isSome)
    (hroom : resultOffset + scanCount ≤ result.capacity) :
    (unalignedScan input inputStart result resultOffset scanCount).Returns
      (result.Cleared resultOffset scanCount fun i => input.bit (inputStart + i)) := by
  unfold unalignedScan
  refine (returns_loop (I := fun w : Window => w.pos ≤ scanCount ∧ w.At inputStart resultOffset ∧
    result.Cleared resultOffset w.pos (fun i => input.bit (inputStart + i)) w.result)
    (μ := fun w => scanCount - w.pos) ?_ ⟨zero_le _, ?_, Mask.Cleared.refl _ _ _⟩ ?_).bind ?_
  · rintro w ⟨hle, hat, hcleared⟩ hcond
    have hlt := of_decide_eq_true hcond
    have hcapacity := hcleared.capacity
    refine (returns_scanWindow hat hlt (hinput _ hlt) (by omega)).mono ?_
    rintro w' ⟨n, hn, hpos, hle', hat', hcleared'⟩
    refine ⟨⟨hle', hat', ?_⟩, by omega⟩
    rw [hpos]
    exact hcleared.trans hcleared' fun i => by rw [add_assoc]
  · unfold bitsPerValue
    refine ⟨?_, ?_, ?_, ?_⟩ <;> dsimp only <;> omega
  · dsimp only
    omega
  · rintro w ⟨⟨hle, -, hcleared⟩, hcond⟩
    have hge := of_decide_eq_false hcond
    have hend : w.pos = scanCount := by omega
    rw [hend] at hcleared
    exact returns_done hcleared

theorem returns_alignedScan {result : Mask} (hstart : inputStart % 64 = 0)
    (hinput : ∀ i < scanCount, (input ((inputStart + i) / 64)).isSome) (hroom : scanCount ≤ result.capacity) :
    (alignedScan input inputStart result scanCount).Returns fun m => m.capacity = result.capacity ∧
      (∀ i < scanCount, m.valid i = input.bit (inputStart + i)) ∧
        ∀ i, scanCount ≤ i / 64 * 64 → m.valid i = result.valid i := by
  unfold alignedScan bitsPerValue
  have hloop := returns_forLoop (scanEntry input (inputStart / 64)) 0 ((scanCount + 64 - 1) / 64) (s := result)
    (I := fun e m => m.capacity = result.capacity ∧
      ∀ i, m.valid i = if i / 64 < e then input.bit (inputStart + i) else result.valid i) ?_ ?_
  · refine hloop.mono ?_
    rintro m ⟨hcapacity, hvalid⟩
    refine ⟨hcapacity, fun i hi => ?_, fun i hi => ?_⟩
    · rw [hvalid, if_pos (by omega)]
    · rw [hvalid, if_neg (by omega)]
  · rintro e m - he ⟨hcapacity, hvalid⟩
    have hentry : (inputStart + 64 * e) / 64 = inputStart / 64 + e := by omega
    obtain ⟨word, hword⟩ := isSome_iff_exists.1 (hinput (64 * e) (by omega))
    rw [hentry] at hword
    have hbit : ∀ i, i / 64 = e → input.bit (inputStart + i) = word.getLsbD (i % 64) := by
      intro i hi
      have hdiv : (inputStart + i) / 64 = inputStart / 64 + e := by omega
      have hmod : (inputStart + i) % 64 = i % 64 := by omega
      rw [Words.bit, hdiv, hmod, hword]
      rfl
    unfold scanEntry Words.read
    rw [hword, done_bind]
    split
    next h =>
      obtain ⟨hnone, rfl⟩ := h
      refine returns_done ⟨hcapacity, fun i => ?_⟩
      by_cases hi : i / 64 = e
      · rw [if_pos (by omega), hbit i hi, getLsbD_allOnes, decide_eq_true (Nat.mod_lt _ (by decide)), Mask.valid,
          hnone]
      · rw [hvalid]
        split_ifs <;> first | rfl | omega
    next h =>
      obtain ⟨hne, hcapacity', hvalid'⟩ := m.writable_spec
      have hset := @Mask.returns_setEntry _ _ word hne (show 64 * e < m.writable.capacity by omega)
      rw [Nat.mul_div_cancel_left _ (by decide)] at hset
      refine hset.mono ?_
      rintro m' ⟨hcapacity'', hvalid''⟩
      refine ⟨hcapacity''.trans (hcapacity'.trans hcapacity), fun i => ?_⟩
      rw [hvalid'', hvalid', hvalid]
      by_cases hi : i / 64 = e
      · rw [if_pos hi, if_pos (by omega), hbit i hi]
      · rw [if_neg hi]
        split_ifs <;> first | rfl | omega
  · exact ⟨rfl, fun i => by rw [if_neg (Nat.not_lt_zero _)]⟩

/-! ## Scans of a segment -/

namespace Segment

variable {s : Segment} {bits : List Bool} {result : Mask} {start : Nat}

variable {row scanCount : Nat}

theorem Denotes.isSome_input (h : s.Denotes bits) (hrow : row < bits.length) :
    (s.input (row / 64)).isSome := by
  have hfits := word_fits (hrow.trans_le h.le)
  obtain ⟨word, hword⟩ := loadWord_some (show 8 * (row / 64) + 8 ≤ s.data.length by omega)
  exact isSome_iff_exists.2 ⟨word, hword⟩

theorem Denotes.bit_input (h : s.Denotes bits) (hrow : row < bits.length) :
    s.input.bit row = bits.getD row true := by
  obtain ⟨word, hword⟩ := isSome_iff_exists.1 (h.isSome_input hrow)
  have hfits := word_fits (hrow.trans_le h.le)
  have hsplit : 64 * (row / 64) + row % 64 = row := div_add_mod row 64
  have hsize : row < 8 * s.segmentSize := by
    unfold segmentSize
    omega
  rw [Words.bit, hword, getD_some, getLsbD_loadWord hword (mod_lt _ (by decide)), hsplit, h.bit row hsize]

theorem Denotes.rowIsValidUnsafe_eq (h : s.Denotes bits) (hrow : row < bits.length) :
    s.rowIsValidUnsafe row = done (bits.getD row true) := by
  obtain ⟨word, hword⟩ := isSome_iff_exists.1 (h.isSome_input hrow)
  have hbit := h.bit_input hrow
  rw [Words.bit, hword, getD_some] at hbit
  have hlt : row % bitsPerValue < 64 := mod_lt _ (by decide)
  have hread : s.input.read (row / bitsPerValue) = done word := by
    unfold Words.read bitsPerValue
    rw [hword]
  rw [rowIsValidUnsafe, hread, done_bind, entryRowIsValid_eq _ hlt, ← hbit]
  rfl

theorem Denotes.scanPartial (h : s.Denotes bits) {resultOffset : Nat} (hrows : start + scanCount ≤ bits.length)
    (hroom : resultOffset + scanCount ≤ result.capacity) :
    (s.validityScanPartial start scanCount result resultOffset).Returns
      (result.Cleared resultOffset scanCount fun i => bits.getD (start + i) true) := by
  refine (returns_unalignedScan (fun i hi => h.isSome_input (by omega)) hroom).mono ?_
  rintro m ⟨hcapacity, hvalid⟩
  refine ⟨hcapacity, fun j => ?_⟩
  rw [hvalid]
  split
  next hj => rw [h.bit_input (by omega)]
  next => rfl

/-- A mask reports the bits of so many rows, the first ones. -/
def Reports (m : Mask) (count : Nat) (bits : Nat → Bool) : Prop := ∀ i < count, m.valid i = bits i

theorem Denotes.alignedScan (h : s.Denotes bits) (hstart : start % 64 = 0)
    (hrows : start + scanCount ≤ bits.length) (hroom : scanCount ≤ result.capacity) :
    (Validity.alignedScan s.input start result scanCount).Returns fun m =>
      Reports m scanCount fun i => bits.getD (start + i) true := by
  refine (returns_alignedScan hstart (fun i hi => h.isSome_input (by omega)) hroom).mono ?_
  rintro m ⟨-, hvalid, -⟩ i hi
  rw [hvalid i hi, h.bit_input (by omega)]

theorem reports_of_cleared {m : Mask} {count : Nat} {f : Nat → Bool} (h : result.Cleared 0 count f m)
    (hvalid : Reports result count fun _ => true) : Reports m count f := by
  intro i hi
  rw [h.valid, hvalid i hi, if_pos (by omega), Bool.true_and, Nat.sub_zero]

theorem Denotes.scan (h : s.Denotes bits) (hrows : start + scanCount ≤ bits.length)
    (hroom : scanCount ≤ result.capacity) (hvalid : Reports result scanCount fun _ => true) :
    (s.validityScan start scanCount result).Returns fun m =>
      Reports m scanCount fun i => bits.getD (start + i) true := by
  unfold validityScan
  split
  next hstart => exact h.alignedScan hstart hrows hroom
  next => exact (h.scanPartial hrows (by omega)).mono fun m hm => reports_of_cleared hm hvalid

/-- The row of a selection. -/
def rowOf (sel : Option (List Nat)) (i : Nat) : Nat :=
  match sel with
  | some indices => indices.getD i 0
  | none => i

theorem getIndex_eq {sel : Option (List Nat)} {i : Nat} (h : ∀ indices, sel = some indices → i < indices.length) :
    getIndex sel i = done (rowOf sel i) := by
  unfold getIndex rowOf
  cases sel with
  | none => rfl
  | some indices =>
    have hlen := h indices rfl
    simp only [Lib.read, List.getElem?_eq_getElem hlen, List.getD_eq_getElem?_getD, getD_some]

theorem returns_clear {b : Bool} (hrow : row < result.capacity) :
    (if !b then result.setInvalid row else done result).Returns (result.Cleared row 1 fun _ => b) := by
  cases b with
  | true => exact returns_done ⟨rfl, fun j => by rw [ite_self, Bool.and_true]⟩
  | false => exact Mask.returns_setInvalid hrow

theorem Denotes.select (h : s.Denotes bits) {sel : Option (List Nat)} {selCount : Nat}
    (hsel : ∀ indices, sel = some indices → selCount ≤ indices.length)
    (hrows : ∀ i < selCount, start + rowOf sel i < bits.length) (hroom : selCount ≤ result.capacity) :
    (s.validitySelect start result sel selCount).Returns
      (result.Cleared 0 selCount fun i => bits.getD (start + rowOf sel i) true) := by
  unfold validitySelect
  have hloop := returns_forLoop (s.selectRow start sel) 0 selCount (s := result)
    (I := fun i m => result.Cleared 0 i (fun i => bits.getD (start + rowOf sel i) true) m) ?_ (Mask.Cleared.refl _ _ _)
  · rwa [zero_add] at hloop
  · rintro i m - hi hcleared
    rw [zero_add] at hi
    have hcapacity := hcleared.capacity
    unfold selectRow
    rw [getIndex_eq (fun indices hindices => hi.trans_le (hsel indices hindices)), done_bind,
      h.rowIsValidUnsafe_eq (hrows i hi), done_bind]
    refine (returns_clear (show i < m.capacity by omega)).mono fun m' hm' => ?_
    rw [← zero_add i] at hm'
    have hone : m.Cleared (0 + i) 1 (fun j => bits.getD (start + rowOf sel (i + j)) true) m' := by
      refine ⟨hm'.capacity, fun j => ?_⟩
      rw [hm'.valid]
      split
      next hj => rw [show i + (j - (0 + i)) = 0 + i by omega]
      next => rfl
    exact hcleared.trans hone fun _ => rfl

theorem Denotes.fetchRow (h : s.Denotes bits) {rowId resultIdx : Nat} (hrow : rowId < bits.length)
    (hroom : resultIdx < result.capacity) :
    (s.validityFetchRow rowId result resultIdx).Returns
      (result.Cleared resultIdx 1 fun _ => bits.getD rowId true) := by
  unfold validityFetchRow
  rw [h.rowIsValidUnsafe_eq hrow, done_bind]
  exact returns_clear hroom

/-- What is read of a segment are bits: the windows of a partial scan clear rows of the result where they are zero, a
scan of whole words and a scan over valid rows report them, and so do selections and fetches, row by row. -/
structure Reads (s : Segment) (bits : List Bool) : Prop where
  scanPartial : ∀ (start scanCount : Nat) (result : Mask) (resultOffset : Nat), start + scanCount ≤ bits.length →
    resultOffset + scanCount ≤ result.capacity →
      (s.validityScanPartial start scanCount result resultOffset).Returns
        (result.Cleared resultOffset scanCount fun i => bits.getD (start + i) true)
  alignedScan : ∀ (start scanCount : Nat) (result : Mask), start % 64 = 0 → start + scanCount ≤ bits.length →
    scanCount ≤ result.capacity →
      (Validity.alignedScan s.input start result scanCount).Returns fun m =>
        Reports m scanCount fun i => bits.getD (start + i) true
  scan : ∀ (start scanCount : Nat) (result : Mask), start + scanCount ≤ bits.length → scanCount ≤ result.capacity →
    (Reports result scanCount fun _ => true) →
      (s.validityScan start scanCount result).Returns fun m => Reports m scanCount fun i => bits.getD (start + i) true
  select : ∀ (start : Nat) (result : Mask) (sel : Option (List Nat)) (selCount : Nat),
    (∀ indices, sel = some indices → selCount ≤ indices.length) →
      (∀ i < selCount, start + rowOf sel i < bits.length) → selCount ≤ result.capacity →
        (s.validitySelect start result sel selCount).Returns
          (result.Cleared 0 selCount fun i => bits.getD (start + rowOf sel i) true)
  fetchRow : ∀ (rowId : Nat) (result : Mask) (resultIdx : Nat), rowId < bits.length → resultIdx < result.capacity →
    (s.validityFetchRow rowId result resultIdx).Returns (result.Cleared resultIdx 1 fun _ => bits.getD rowId true)

theorem Denotes.reads (h : s.Denotes bits) : s.Reads bits where
  scanPartial _ _ _ _ hrows hroom := h.scanPartial hrows hroom
  alignedScan _ _ _ hstart hrows hroom := h.alignedScan hstart hrows hroom
  scan _ _ _ hrows hroom hvalid := h.scan hrows hroom hvalid
  select _ _ _ _ hsel hrows hroom := h.select hsel hrows hroom
  fetchRow _ _ _ hrow hroom := h.fetchRow hrow hroom

/-- Validity segments are lists of bits. A run of appends and reverts leaves the bits that were appended and not given up,
which all ways to read the segment report; and an unaligned scan clears the rows of the result where the bits of the input
are zero, and no others, if only the words of the scanned rows are there. -/
theorem validity_bitLists (bytes : List (BitVec 8)) (ops : List Op)
    (hops : AllAllowed (validityInitSegment bytes).maxTuples ops []) :
    ((serveAll Op.apply (validityInitSegment bytes) ops).Returns fun s =>
      s.Denotes (denoteAll (validityInitSegment bytes).maxTuples ops []) ∧
        s.Reads (denoteAll (validityInitSegment bytes).maxTuples ops [])) ∧
    ∀ (input : Words) (inputStart : Nat) (result : Mask) (resultOffset scanCount : Nat),
      (∀ i < scanCount, (input ((inputStart + i) / 64)).isSome) → resultOffset + scanCount ≤ result.capacity →
        (unalignedScan input inputStart result resultOffset scanCount).Returns
          (result.Cleared resultOffset scanCount fun i => input.bit (inputStart + i)) := by
  constructor
  · refine ((denotes_validityInitSegment bytes).run ops hops).mono ?_
    rintro s ⟨-, hdenotes⟩
    exact ⟨hdenotes, hdenotes.reads⟩
  · intro input inputStart result resultOffset scanCount hinput hroom
    exact returns_unalignedScan hinput hroom

end Segment

/-- The rows of one word. -/
def Input.ofWord (word : BitVec 64) : Input where
  sel := none
  validity := ⟨some [word], 64, by rintro _ ⟨⟩; exact Nat.le_refl 1⟩
  offset := 0

namespace Segment

/-- Three rows, of which the last one is given up again, and two more. -/
theorem validity_bitLists_four :
    (serveAll Op.apply (validityInitSegment (List.replicate 256 0))
      [.append (Input.ofWord 0xFFFFFFFFFFFFFFFA) 3, .revert 2, .append (Input.ofWord 0xFFFFFFFFFFFFFFFE) 2]).Returns
        fun s => s.Denotes [false, true, false, true] ∧ s.Reads [false, true, false, true] := by
  have hmax : (validityInitSegment (List.replicate 256 0)).maxTuples = 2048 := by
    unfold maxTuples segmentSize validityInitSegment
    rw [List.length_replicate, List.length_replicate]
    rfl
  have hops : AllAllowed (validityInitSegment (List.replicate 256 0)).maxTuples
      [.append (Input.ofWord 0xFFFFFFFFFFFFFFFA) 3, .revert 2, .append (Input.ofWord 0xFFFFFFFFFFFFFFFE) 2] [] := by
    rw [hmax]
    refine ⟨⟨by simp [Input.ofWord], by decide⟩, ?_, ⟨by simp [Input.ofWord], by decide⟩, trivial⟩
    show 2 ≤ 3
    decide
  have hrun := (validity_bitLists (List.replicate 256 0) _ hops).1
  rw [hmax] at hrun
  exact hrun

end Segment

end Haybarn.Validity
