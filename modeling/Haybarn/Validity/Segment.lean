/-
Uncompressed validity segments: the appends and the reverts of `validity_uncompressed.cpp`. The bytes of a segment are
read and written as words of 64 bits, of which the row `i` has the bit `i % 64` of the word `i / 64`. Behind the rows
of a segment all bits are set, which an append relies on and a revert has to bring about.
-/
import Haybarn.Common.ValidityMask
import Haybarn.Lib.Buffer

namespace Haybarn.Validity

open Common Lib Outcome List Nat
open ValidityMask (entryCount entryRowIsValid entryRowIsValid_eq getLsbD_one_shiftLeft)

/-! ## Words -/

/-- The word that eight bytes are, the lowest one first. -/
def wordOf (bytes : List (BitVec 8)) : BitVec 64 := bytes.foldr (fun byte word => word <<< 8 ||| byte.setWidth 64) 0

def bytesOf (word : BitVec 64) : List (BitVec 8) := (List.range 8).map fun k => word.extractLsb' (8 * k) 8

/-- `data[entry]`, where the data are bytes that are taken for words. -/
def loadWord (data : List (BitVec 8)) (entry : Nat) : Option (BitVec 64) :=
  if 8 * entry + 8 ≤ data.length then some (wordOf ((data.drop (8 * entry)).take 8)) else none

def storeWord (data : List (BitVec 8)) (entry : Nat) (word : BitVec 64) : List (BitVec 8) :=
  data.take (8 * entry) ++ bytesOf word ++ data.drop (8 * entry + 8)

/-- `data[entry] = f(data[entry])`. -/
def updateWord (data : List (BitVec 8)) (entry : Nat) (f : BitVec 64 → BitVec 64) : Outcome (List (BitVec 8)) :=
  match loadWord data entry with
  | some word => done (storeWord data entry (f word))
  | none => fault

def setInvalidUnsafe (data : List (BitVec 8)) (row : Nat) : Outcome (List (BitVec 8)) :=
  updateWord data (row / bitsPerValue) fun word => word &&& ~~~(1#64 <<< (row % bitsPerValue))

/-- `SetValid`, of a mask that has data. -/
def setValid (data : List (BitVec 8)) (row : Nat) : Outcome (List (BitVec 8)) :=
  updateWord data (row / bitsPerValue) fun word => word ||| 1#64 <<< (row % bitsPerValue)

/-- The bit of a row. -/
def bit (data : List (BitVec 8)) (row : Nat) : Bool := (data.getD (row / 8) 0).getLsbD (row % 8)

/-! ## Masks of vectors -/

/-- A `ValidityMask`: its words, once there are any, and the rows that it has room for. -/
structure Mask where
  words : Option (List (BitVec 64))
  capacity : Nat
  room : ∀ ws, words = some ws → entryCount capacity ≤ ws.length

namespace Mask

/-- `Initialize`. -/
def initialized (m : Mask) : Mask where
  words := some (List.replicate (entryCount m.capacity) (BitVec.allOnes 64))
  capacity := m.capacity
  room := by
    rintro ws ⟨⟩
    rw [List.length_replicate]

def rowIsValidUnsafe (m : Mask) (row : Nat) : Outcome Bool :=
  match m.words with
  | some ws => do
    let entry ← read ws (row / bitsPerValue)
    done (entryRowIsValid entry (row % bitsPerValue))
  | none => fault

/-- Whether a row is valid. Without words every row is. -/
def valid (m : Mask) (row : Nat) : Bool :=
  match m.words with
  | some ws => (ws.getD (row / 64) (BitVec.allOnes 64)).getLsbD (row % 64)
  | none => true

end Mask

/-- `SelectionVector::get_index`. Without indices every row is selected. -/
def getIndex (sel : Option (List Nat)) (idx : Nat) : Outcome Nat :=
  match sel with
  | some indices => read indices idx
  | none => done idx

/-- The selection, the validity and the offset of the rows of a `UnifiedVectorFormat` that are appended. -/
structure Input where
  sel : Option (List Nat)
  validity : Mask
  offset : Nat

/-! ## Segments -/

def standardVectorSize : Nat := 2048

def standardMaskSize : Nat := entryCount standardVectorSize * 8

/-- The bytes of a segment, from its offset in the block on, its rows, and what its statistics have seen. -/
structure Segment where
  data : List (BitVec 8)
  count : Nat
  hasNull : Bool
  hasNoNull : Bool

namespace Segment

def segmentSize (s : Segment) : Nat := s.data.length

def maxTuples (s : Segment) : Nat := s.segmentSize / standardMaskSize * standardVectorSize

/-- `ValidityInitSegment`, for a segment that is not on disk, over whatever bytes are in the block. -/
def validityInitSegment (bytes : List (BitVec 8)) : Segment := ⟨List.replicate bytes.length 0xFF, 0, false, false⟩

/-- One turn of the loop of `ValidityAppend`. -/
def appendRow (input : Input) (i : Nat) (s : Segment) : Outcome Segment := do
  let idx ← getIndex input.sel (input.offset + i)
  let isValid ← input.validity.rowIsValidUnsafe idx
  if !isValid then
    let data ← setInvalidUnsafe s.data (s.count + i)
    done { s with data := data, hasNull := true }
  else done { s with hasNoNull := true }

/-- `ValidityAppend`, with the number of rows that are appended. -/
def validityAppend (s : Segment) (input : Input) (vcount : Nat) : Outcome (Nat × Segment) :=
  let appendCount := min vcount (s.maxTuples - s.count)
  if input.validity.words = none then
    done (appendCount, { s with count := s.count + appendCount, hasNoNull := true })
  else do
    let s' ← forLoop (appendRow input) 0 appendCount s
    done (appendCount, { s' with count := s.count + appendCount })

/-- `memset(data + start, 0xFF, size - start)`. -/
def setBytes (data : List (BitVec 8)) (start : Nat) : Outcome (List (BitVec 8)) :=
  if start ≤ data.length then done (data.take start ++ List.replicate (data.length - start) 0xFF) else fault

def validityRevertAppend (s : Segment) (newCount : Nat) : Outcome Segment :=
  let startBit := newCount
  if startBit % 8 ≠ 0 then do
    let bytePos := startBit / 8
    let bitEnd := (bytePos + 1) * 8
    let data ← forLoop (fun i data => setValid data i) startBit (bitEnd - startBit) s.data
    let data ← setBytes data (bitEnd / 8)
    done { s with data := data }
  else do
    let data ← setBytes s.data (startBit / 8)
    done { s with data := data }

def revertAppend (s : Segment) (newCount : Nat) : Outcome Segment := do
  let s ← s.validityRevertAppend newCount
  done { s with count := newCount }

end Segment

/-! ## The bits of words and masks -/

theorem getLsbD_wordOf : ∀ {bytes : List (BitVec 8)} {j : Nat}, j < 8 * bytes.length → j < 64 →
    (wordOf bytes).getLsbD j = (bytes.getD (j / 8) 0).getLsbD (j % 8)
  | [], j, h, _ => absurd h (not_lt_zero _)
  | byte :: bytes, j, h, hj => by
    have hcons : wordOf (byte :: bytes) = wordOf bytes <<< 8 ||| byte.setWidth 64 := rfl
    rw [length_cons] at h
    rw [hcons, BitVec.getLsbD_or, BitVec.getLsbD_shiftLeft, BitVec.getLsbD_setWidth]
    by_cases hlow : j < 8
    · rw [div_eq_of_lt hlow, mod_eq_of_lt hlow]
      simp [hlow, hj]
    · have hdiv : j / 8 = (j - 8) / 8 + 1 := by omega
      have hmod : j % 8 = (j - 8) % 8 := by omega
      have hhigh : byte.getLsbD j = false := BitVec.getLsbD_of_ge _ _ (by omega)
      rw [getLsbD_wordOf (by omega) (by omega), hdiv, hmod, getD_cons_succ, hhigh]
      simp [hlow, hj]

theorem length_bytesOf (word : BitVec 64) : (bytesOf word).length = 8 := by
  rw [bytesOf, length_map, length_range]

theorem getLsbD_bytesOf (word : BitVec 64) {k j : Nat} (hk : k < 8) (hj : j < 8) :
    ((bytesOf word).getD k 0).getLsbD j = word.getLsbD (8 * k + j) := by
  rw [bytesOf, getD_eq_getElem?_getD, getElem?_map, getElem?_range hk]
  simp [hj]

variable {data : List (BitVec 8)} {entry row : Nat} {word : BitVec 64}

theorem getLsbD_loadWord (h : loadWord data entry = some word) {j : Nat} (hj : j < 64) :
    word.getLsbD j = bit data (64 * entry + j) := by
  unfold loadWord at h
  split at h
  · obtain rfl := Option.some.inj h
    have hlen : ((data.drop (8 * entry)).take 8).length = 8 := by
      rw [length_take, length_drop]
      omega
    rw [getLsbD_wordOf (by omega) hj, bit, getD_eq_getElem?_getD, getElem?_take_of_lt (by omega),
      getElem?_drop, getD_eq_getElem?_getD, show 8 * entry + j / 8 = (64 * entry + j) / 8 by omega,
      show j % 8 = (64 * entry + j) % 8 by omega]
  · cases h

theorem loadWord_some (h : 8 * entry + 8 ≤ data.length) : ∃ word, loadWord data entry = some word := ⟨_, if_pos h⟩

theorem length_storeWord (h : 8 * entry + 8 ≤ data.length) : (storeWord data entry word).length = data.length := by
  unfold storeWord
  rw [length_append, length_append, length_bytesOf, length_take, length_drop]
  omega

theorem bit_storeWord (h : 8 * entry + 8 ≤ data.length) (i : Nat) :
    bit (storeWord data entry word) i = if i / 64 = entry then word.getLsbD (i % 64) else bit data i := by
  have htake : (data.take (8 * entry)).length = 8 * entry := by
    rw [length_take]
    omega
  unfold bit storeWord
  rw [getD_eq_getElem?_getD, getD_eq_getElem?_getD]
  rcases lt_trichotomy (i / 64) entry with hi | hi | hi
  · rw [if_neg (by omega), append_assoc, getElem?_append_left (by omega), getElem?_take_of_lt (by omega)]
  · rw [if_pos hi, append_assoc, getElem?_append_right (by omega),
      getElem?_append_left (by rw [length_bytesOf]; omega), htake, ← getD_eq_getElem?_getD,
      getLsbD_bytesOf word (by omega) (by omega)]
    congr 1
    omega
  · rw [if_neg (by omega), getElem?_append_right (by rw [length_append, length_bytesOf]; omega),
      length_append, length_bytesOf, htake, getElem?_drop]
    congr 3
    omega

theorem returns_updateWord {f : BitVec 64 → BitVec 64} {b : Bool → Bool} (h : row / 64 * 8 + 8 ≤ data.length)
    (hf : ∀ w : BitVec 64, ∀ j < 64, (f w).getLsbD j = if j = row % 64 then b (w.getLsbD j) else w.getLsbD j) :
    (updateWord data (row / 64) f).Returns fun data' => data'.length = data.length ∧
      ∀ i, bit data' i = if i = row then b (bit data i) else bit data i := by
  have hle : 8 * (row / 64) + 8 ≤ data.length := by omega
  obtain ⟨word, hword⟩ := loadWord_some hle
  unfold updateWord
  rw [hword]
  refine returns_done ⟨length_storeWord hle, fun i => ?_⟩
  have hbit : ∀ j < 64, word.getLsbD j = bit data (64 * (row / 64) + j) := fun j hj => getLsbD_loadWord hword hj
  rw [bit_storeWord hle]
  by_cases hi : i / 64 = row / 64
  · have hlt : i % 64 < 64 := mod_lt _ (by decide)
    have hsplit : 64 * (row / 64) + i % 64 = i := by omega
    rw [if_pos hi, hf word _ hlt, hbit _ hlt, hsplit]
    by_cases hrow : i = row
    · rw [if_pos (by rw [hrow]), if_pos hrow]
    · rw [if_neg (by omega), if_neg hrow]
  · rw [if_neg hi, if_neg (by rintro rfl; exact hi rfl)]

theorem returns_setInvalidUnsafe (h : row / 64 * 8 + 8 ≤ data.length) :
    (setInvalidUnsafe data row).Returns fun data' => data'.length = data.length ∧
      ∀ i, bit data' i = if i = row then false else bit data i := by
  have hlt : row % bitsPerValue < 64 := mod_lt _ (by decide)
  refine @returns_updateWord data row _ (fun _ => false) h fun w j hj => ?_
  rw [BitVec.getLsbD_and, BitVec.getLsbD_not, getLsbD_one_shiftLeft hlt]
  by_cases hrow : j = row % bitsPerValue
  · simp [hrow, bitsPerValue]
  · have hrow' : j ≠ row % 64 := hrow
    simp [hrow, hrow', hj]

theorem returns_setValid (h : row / 64 * 8 + 8 ≤ data.length) :
    (setValid data row).Returns fun data' => data'.length = data.length ∧
      ∀ i, bit data' i = if i = row then true else bit data i := by
  have hlt : row % bitsPerValue < 64 := mod_lt _ (by decide)
  refine @returns_updateWord data row _ (fun _ => true) h fun w j hj => ?_
  rw [BitVec.getLsbD_or, getLsbD_one_shiftLeft hlt]
  by_cases hrow : j = row % bitsPerValue
  · simp [hrow, bitsPerValue]
  · have hrow' : j ≠ row % 64 := hrow
    simp [hrow, hrow']

/-! ## The rows of a vector -/

namespace Input

/-- The place of a row in the mask. -/
def rowOf (input : Input) (i : Nat) : Nat :=
  match input.sel with
  | some indices => indices.getD (input.offset + i) 0
  | none => input.offset + i

/-- The validity of the first rows. -/
def bits (input : Input) (count : Nat) : List Bool := (List.range count).map fun i => input.validity.valid (input.rowOf i)

/-- The vector has so many rows: the selection has indices for them, and these are rows of the mask. -/
structure Holds (input : Input) (count : Nat) : Prop where
  selected : ∀ indices, input.sel = some indices → input.offset + count ≤ indices.length
  room : ∀ i < count, input.rowOf i < input.validity.capacity

variable {input : Input} {count i : Nat}

theorem length_bits (input : Input) (count : Nat) : (input.bits count).length = count := by
  rw [bits, length_map, length_range]

theorem bits_succ (input : Input) (count : Nat) :
    input.bits (count + 1) = input.bits count ++ [input.validity.valid (input.rowOf count)] := by
  rw [bits, range_succ, map_append]
  rfl

theorem take_bits (input : Input) (count n : Nat) : (input.bits count).take n = input.bits (min n count) := by
  rw [bits, bits, ← map_take, take_range]

theorem getIndex_eq (h : input.Holds count) (hi : i < count) :
    getIndex input.sel (input.offset + i) = done (input.rowOf i) := by
  unfold getIndex rowOf
  cases hsel : input.sel with
  | none => rfl
  | some indices =>
    have hlen := h.selected indices hsel
    have hget : indices[input.offset + i]? = some indices[input.offset + i] := getElem?_eq_getElem (by omega)
    simp only [Lib.read, hget, getD_eq_getElem?_getD, Option.getD_some]

end Input

namespace Mask

theorem exists_word {m : Mask} {ws : List (BitVec 64)} (hws : m.words = some ws) {row : Nat} (h : row < m.capacity) :
    row / 64 < ws.length := by
  have hroom := m.room ws hws
  unfold entryCount bitsPerValue at hroom
  omega

theorem rowIsValidUnsafe_eq {m : Mask} (hne : m.words ≠ none) {row : Nat} (h : row < m.capacity) :
    m.rowIsValidUnsafe row = done (m.valid row) := by
  unfold rowIsValidUnsafe valid
  cases hws : m.words with
  | none => exact absurd hws hne
  | some ws =>
    have hlt : row % bitsPerValue < 64 := mod_lt _ (by decide)
    have hfits := exists_word hws h
    have hget : ws[row / bitsPerValue]? = some ws[row / 64] := getElem?_eq_getElem hfits
    simp only [Lib.read, hget, done_bind, getD_eq_getElem?_getD]
    rw [entryRowIsValid_eq _ hlt, getElem?_eq_getElem hfits]
    rfl

end Mask

/-! ## What a segment stands for -/

namespace Segment

/-- The bits of the rows, and behind these set bits up to the end. -/
structure Denotes (s : Segment) (bits : List Bool) : Prop where
  count : s.count = bits.length
  le : bits.length ≤ s.maxTuples
  bit : ∀ i < 8 * s.segmentSize, bit s.data i = bits.getD i true

variable {s : Segment} {bits : List Bool} {input : Input} {vcount newCount : Nat}

theorem standardMaskSize_eq : standardMaskSize = 256 := rfl

theorem word_fits (h : row < s.maxTuples) : row / 64 * 8 + 8 ≤ s.data.length := by
  unfold maxTuples segmentSize standardVectorSize at h
  rw [standardMaskSize_eq] at h
  omega

theorem getD_concat (bits : List Bool) (b : Bool) (i : Nat) :
    (bits ++ [b]).getD i true = if i = bits.length then b else bits.getD i true := by
  rw [getD_eq_getElem?_getD, getD_eq_getElem?_getD]
  rcases lt_trichotomy i bits.length with h | h | h
  · rw [getElem?_append_left h, if_neg (by omega)]
  · rw [if_pos h, h, getElem?_concat_length]
    rfl
  · rw [if_neg (by omega), getElem?_eq_none (by rw [length_append, length_singleton]; omega),
      getElem?_eq_none (by omega)]

theorem denotes_validityInitSegment (bytes : List (BitVec 8)) : (validityInitSegment bytes).Denotes [] where
  count := rfl
  le := zero_le _
  bit i hi := by
    unfold validityInitSegment segmentSize at hi
    rw [length_replicate] at hi
    have hget : (replicate bytes.length (0xFF : BitVec 8))[i / 8]? = some 0xFF := by
      rw [getElem?_replicate, if_pos (by omega)]
    have hones : ∀ j < 8, (0xFF : BitVec 8).getLsbD j = true := by decide
    rw [Validity.bit, validityInitSegment, getD_eq_getElem?_getD, hget]
    exact hones _ (mod_lt _ (by decide))

theorem returns_appendRow (hholds : input.Holds vcount) (hne : input.validity.words ≠ none) {i : Nat} (hi : i < vcount)
    (hrow : s.count + i < s.maxTuples) :
    (appendRow input i s).Returns fun s' => s'.count = s.count ∧ s'.segmentSize = s.segmentSize ∧
      ∀ j, Validity.bit s'.data j =
        if j = s.count + i then input.validity.valid (input.rowOf i) && Validity.bit s.data j
        else Validity.bit s.data j := by
  unfold appendRow
  rw [Input.getIndex_eq hholds hi, done_bind, Mask.rowIsValidUnsafe_eq hne (hholds.room i hi), done_bind]
  cases hvalid : input.validity.valid (input.rowOf i) with
  | true => exact returns_done ⟨rfl, rfl, fun j => by simp⟩
  | false =>
    refine (returns_setInvalidUnsafe (word_fits hrow)).bind ?_
    rintro data ⟨hlength, hbit⟩
    refine returns_done ⟨rfl, hlength, fun j => ?_⟩
    dsimp only
    rw [hbit, Bool.false_and]

theorem Denotes.append (h : s.Denotes bits) (hholds : input.Holds vcount) :
    (s.validityAppend input vcount).Returns fun r =>
      r.1 = ((input.bits vcount).take (s.maxTuples - bits.length)).length ∧ r.2.segmentSize = s.segmentSize ∧
        r.2.Denotes (bits ++ (input.bits vcount).take (s.maxTuples - bits.length)) := by
  have hcount := h.count
  have hle := h.le
  have happended : (input.bits vcount).take (s.maxTuples - bits.length) =
      input.bits (min vcount (s.maxTuples - s.count)) := by
    rw [Input.take_bits, hcount, min_comm]
  unfold validityAppend
  dsimp only
  rw [happended, Input.length_bits]
  generalize hn : min vcount (s.maxTuples - s.count) = n
  by_cases hnone : input.validity.words = none
  · -- without words all rows are valid, as the bits behind the last row say
    rw [if_pos hnone]
    have hvalid : ∀ b ∈ input.bits n, b = true := by
      intro b hb
      obtain ⟨i, -, rfl⟩ := mem_map.1 hb
      unfold Mask.valid
      rw [hnone]
    refine returns_done ⟨rfl, rfl, ?_, ?_, fun i hi => ?_⟩
    · dsimp only
      rw [length_append, Input.length_bits, hcount]
    · dsimp only [maxTuples, segmentSize] at hle hn ⊢
      rw [length_append, Input.length_bits]
      omega
    · refine (h.bit i hi).trans ?_
      rw [getD_eq_getElem?_getD, getD_eq_getElem?_getD]
      by_cases hlt : i < bits.length
      · rw [getElem?_append_left hlt]
      · rw [getElem?_eq_none (by omega), getElem?_append_right (by omega)]
        cases hget : (input.bits n)[i - bits.length]? with
        | none => rfl
        | some b => exact (hvalid b (mem_of_getElem? hget)).symm
  · rw [if_neg hnone]
    have hloop := returns_forLoop (appendRow input) 0 n (I := fun i s' => s'.count = s.count ∧
      s'.segmentSize = s.segmentSize ∧ ∀ j < 8 * s.segmentSize, Validity.bit s'.data j = (bits ++ input.bits i).getD j true)
      (s := s) ?_ ?_
    · refine hloop.bind ?_
      rintro s' ⟨-, hsize, hbit⟩
      rw [zero_add] at hbit
      refine returns_done ⟨rfl, hsize, ?_, ?_, fun i hi => hbit i (hsize ▸ hi)⟩
      · dsimp only
        rw [length_append, Input.length_bits, hcount]
      · show (bits ++ input.bits n).length ≤ s'.segmentSize / standardMaskSize * standardVectorSize
        rw [hsize, length_append, Input.length_bits]
        unfold maxTuples at hle hn
        omega
    · rintro i s' - hi ⟨hcount', hsize, hbit⟩
      have hmax : s'.maxTuples = s.maxTuples := by rw [maxTuples, maxTuples, hsize]
      refine (returns_appendRow hholds hnone (by omega) (by omega)).mono ?_
      rintro s'' ⟨hcount'', hsize', hbit'⟩
      refine ⟨hcount''.trans hcount', hsize'.trans hsize, fun j hj => ?_⟩
      rw [hbit', hbit j hj, hcount', Input.bits_succ, ← append_assoc, getD_concat, length_append,
        Input.length_bits, hcount]
      split
      next heq =>
        rw [getD_eq_getElem?_getD, getElem?_eq_none (by rw [length_append, Input.length_bits]; omega)]
        simp
      next => rfl
    · refine ⟨rfl, rfl, fun j hj => ?_⟩
      rw [h.bit j hj]
      simp [Input.bits]

theorem getD_take (bits : List Bool) (n i : Nat) :
    (bits.take n).getD i true = if i < n then bits.getD i true else true := by
  rw [getD_eq_getElem?_getD, getD_eq_getElem?_getD]
  split
  next h => rw [getElem?_take_of_lt h]
  next h => rw [getElem?_eq_none (by rw [length_take]; omega)]; rfl

theorem returns_setBytes {start : Nat} (h : start ≤ data.length) :
    (setBytes data start).Returns fun data' => data'.length = data.length ∧
      ∀ i < 8 * data.length, Validity.bit data' i = if i < 8 * start then Validity.bit data i else true := by
  unfold setBytes
  rw [if_pos h]
  refine returns_done ⟨by rw [length_append, length_take, length_replicate]; omega, fun i hi => ?_⟩
  have htake : (data.take start).length = start := by
    rw [length_take]
    omega
  have hones : ∀ j < 8, (0xFF : BitVec 8).getLsbD j = true := by decide
  unfold Validity.bit
  rw [getD_eq_getElem?_getD, getD_eq_getElem?_getD]
  split
  next hlow => rw [getElem?_append_left (by omega), getElem?_take_of_lt (by omega)]
  next hhigh =>
    rw [getElem?_append_right (by omega), htake, getElem?_replicate, if_pos (by omega)]
    exact hones _ (mod_lt _ (by decide))

theorem returns_setValids {stop : Nat} (hstop : stop ≤ s.maxTuples) (start : Nat) (hle : start ≤ stop) :
    (forLoop (fun i data => setValid data i) start (stop - start) s.data).Returns fun data =>
      data.length = s.data.length ∧
        ∀ i, Validity.bit data i = if start ≤ i ∧ i < stop then true else Validity.bit s.data i := by
  have hloop := returns_forLoop (fun i data => setValid data i) start (stop - start) (s := s.data)
    (I := fun j data => data.length = s.data.length ∧
      ∀ i, Validity.bit data i = if start ≤ i ∧ i < j then true else Validity.bit s.data i) ?_ ?_
  · rwa [show start + (stop - start) = stop by omega] at hloop
  · rintro j data hj hj' ⟨hlength, hbit⟩
    have hfits := @word_fits j s (by omega)
    refine (returns_setValid (hlength ▸ hfits)).mono ?_
    rintro data' ⟨hlength', hbit'⟩
    refine ⟨hlength'.trans hlength, fun i => ?_⟩
    rw [hbit', hbit]
    split_ifs <;> first | rfl | omega
  · refine ⟨rfl, fun i => ?_⟩
    rw [if_neg (by omega)]

theorem Denotes.revert (h : s.Denotes bits) (hle : newCount ≤ bits.length) :
    (s.revertAppend newCount).Returns fun s' => s'.segmentSize = s.segmentSize ∧ s'.Denotes (bits.take newCount) := by
  have hmax := h.le
  have hsize : 8 * (s.maxTuples / 8) = s.maxTuples ∧ s.maxTuples / 8 ≤ s.data.length := by
    unfold maxTuples segmentSize standardVectorSize
    rw [standardMaskSize_eq]
    omega
  -- what is to be shown of the bytes
  have hdenotes : ∀ data : List (BitVec 8), data.length = s.data.length →
      (∀ i < 8 * s.data.length, Validity.bit data i = if i < newCount then Validity.bit s.data i else true) →
      ({ s with data := data, count := newCount } : Segment).segmentSize = s.segmentSize ∧
        ({ s with data := data, count := newCount } : Segment).Denotes (bits.take newCount) := by
    intro data hlength hbit
    refine ⟨hlength, ?_, ?_, fun i hi => ?_⟩
    · rw [length_take, Nat.min_eq_left hle]
    · rw [length_take, Nat.min_eq_left hle]
      show newCount ≤ data.length / standardMaskSize * standardVectorSize
      rw [hlength]
      exact hle.trans hmax
    · have hi' : i < 8 * s.data.length := hlength ▸ hi
      rw [getD_take, ← h.bit i hi']
      exact hbit i hi'
  unfold revertAppend validityRevertAppend
  dsimp only
  split
  next hbits =>
    obtain ⟨data, hloop, hlength, hbit⟩ := @returns_setValids s ((newCount / 8 + 1) * 8)
      (by omega) newCount (by omega)
    rw [hloop, done_bind, Nat.mul_div_cancel _ (by decide)]
    obtain ⟨data', hset, hlength', hbit'⟩ := @returns_setBytes data (newCount / 8 + 1) (by omega)
    rw [hset, done_bind, done_bind]
    refine returns_done (hdenotes data' (hlength'.trans hlength) fun i hi => ?_)
    rw [hbit' i (hlength ▸ hi), hbit]
    split_ifs <;> first | rfl | omega
  next hbytes =>
    obtain ⟨data', hset, hlength', hbit'⟩ := @returns_setBytes s.data (newCount / 8) (by omega)
    rw [hset, done_bind, done_bind]
    refine returns_done (hdenotes data' hlength' fun i hi => ?_)
    rw [hbit' i hi, show 8 * (newCount / 8) = newCount by omega]

/-! ## Runs -/

/-- An append of the first rows of a vector, or a revert. -/
inductive Op where
  | append (input : Input) (vcount : Nat)
  | revert (newCount : Nat)

/-- The segment after an operation. -/
def Op.apply (s : Segment) : Op → Outcome Segment
  | .append input vcount => do
    let r ← s.validityAppend input vcount
    done r.2
  | .revert newCount => s.revertAppend newCount

/-- What an operation does to a list of bits that has some room. -/
def Op.denote (room : Nat) (bits : List Bool) : Op → List Bool
  | .append input vcount => bits ++ (input.bits vcount).take (room - bits.length)
  | .revert newCount => bits.take newCount

/-- Vectors have the rows that are appended, and reverts go back to an earlier count. -/
def Op.Allowed (bits : List Bool) : Op → Prop
  | .append input vcount => input.Holds vcount
  | .revert newCount => newCount ≤ bits.length

def denoteAll (room : Nat) (ops : List Op) (bits : List Bool) : List Bool := ops.foldl (Op.denote room) bits

def AllAllowed (room : Nat) : List Op → List Bool → Prop
  | [], _ => True
  | op :: ops, bits => op.Allowed bits ∧ AllAllowed room ops (op.denote room bits)

theorem Denotes.apply (h : s.Denotes bits) {op : Op} (hop : op.Allowed bits) :
    (op.apply s).Returns fun s' => s'.segmentSize = s.segmentSize ∧ s'.Denotes (op.denote s.maxTuples bits) := by
  cases op with
  | append input vcount => exact (h.append hop).bind fun r hr => returns_done hr.2
  | revert newCount => exact h.revert hop

theorem Denotes.run (ops : List Op) (h : s.Denotes bits) (hops : AllAllowed s.maxTuples ops bits) :
    (serveAll Op.apply s ops).Returns fun s' =>
      s'.segmentSize = s.segmentSize ∧ s'.Denotes (denoteAll s.maxTuples ops bits) := by
  induction ops generalizing s bits with
  | nil => exact returns_done ⟨rfl, h⟩
  | cons op ops ih =>
    unfold serveAll
    refine (h.apply hops.1).bind ?_
    rintro s' ⟨hsize, hdenotes⟩
    have hmax : s'.maxTuples = s.maxTuples := by rw [maxTuples, maxTuples, hsize]
    have hrest := hops.2
    rw [← hmax] at hdenotes hrest
    refine (ih hdenotes hrest).mono fun s'' h'' => ⟨h''.1.trans hsize, ?_⟩
    rw [← hmax]
    exact h''.2

end Segment

end Haybarn.Validity
