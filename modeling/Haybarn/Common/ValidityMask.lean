/-
Validity masks: the model of an initialized `ValidityMask`, a bit for each row in words of 64 bits,
and the laws of its operations row by row.
-/
import Haybarn.Lib.Blocks

namespace Haybarn.Common

open Function List BitVec

/-- `BITS_PER_VALUE` of `validity_t`. -/
def bitsPerValue : Nat := 64

/-- The data of an initialized `ValidityMask`: word `e` holds the rows `64 * e` to `64 * e + 63`. -/
structure ValidityMask where
  entry : Nat → BitVec 64

namespace ValidityMask

/-- `Initialize`: every row is valid. -/
def initialized : ValidityMask := ⟨fun _ => BitVec.allOnes 64⟩

def entryCount (count : Nat) : Nat := (count + (bitsPerValue - 1)) / bitsPerValue

/-- `AllValid` of one word. -/
def allValid (entry : BitVec 64) : Bool := entry == BitVec.allOnes 64

/-- `NoneValid` of one word. -/
def noneValid (entry : BitVec 64) : Bool := entry == 0#64

/-- `RowIsValid` of a position in one word. -/
def entryRowIsValid (entry : BitVec 64) (idxInEntry : Nat) : Bool := entry &&& (1#64 <<< idxInEntry) != 0#64

def rowIsValid (m : ValidityMask) (row : Nat) : Bool :=
  entryRowIsValid (m.entry (row / bitsPerValue)) (row % bitsPerValue)

def setInvalid (m : ValidityMask) (row : Nat) : ValidityMask :=
  ⟨Function.update m.entry (row / bitsPerValue)
    (m.entry (row / bitsPerValue) &&& ~~~(1#64 <<< (row % bitsPerValue)))⟩

def setValid (m : ValidityMask) (row : Nat) : ValidityMask :=
  ⟨Function.update m.entry (row / bitsPerValue) (m.entry (row / bitsPerValue) ||| (1#64 <<< (row % bitsPerValue)))⟩

/-- `SetAllValid`: the words before the last one are overwritten, and in the last one the rows of the range are set. -/
def setAllValid (m : ValidityMask) (count : Nat) : ValidityMask :=
  if count = 0 then m else
    ⟨fun e => if e < entryCount count - 1 then BitVec.allOnes 64
      else if e = entryCount count - 1 then
        m.entry e ||| if count % bitsPerValue = 0 then BitVec.allOnes 64 else ~~~(BitVec.allOnes 64 <<< (count % bitsPerValue))
      else m.entry e⟩

/-- What `CountValid` adds for the word `e`: the last word of a ragged range is masked first, a full
word counts as 64, and the bits of any other word are counted one by one. -/
def countEntry (m : ValidityMask) (count e : Nat) : Nat :=
  if e + 1 = entryCount count ∧ count % bitsPerValue ≠ 0 then
    Lib.clearLoop bitsPerValue (m.entry e &&& (BitVec.allOnes 64 >>> (bitsPerValue - count % bitsPerValue))).toNat
  else if allValid (m.entry e) then bitsPerValue
  else Lib.clearLoop bitsPerValue (m.entry e).toNat

def countValid (m : ValidityMask) (count : Nat) : Nat := ((List.range (entryCount count)).map (m.countEntry count)).sum

def checkAllValid (m : ValidityMask) (count : Nat) : Bool := m.countValid count == count

def checkAllInvalid (m : ValidityMask) (count : Nat) : Bool := m.countValid count == 0

/-! ## Rows -/

theorem entryRowIsValid_eq (entry : BitVec 64) {i : Nat} (hi : i < 64) : entryRowIsValid entry i = entry.getLsbD i := by
  unfold entryRowIsValid
  rcases hb : entry.getLsbD i with _ | _
  · have hz : entry &&& (1#64 <<< i) = 0#64 := by
      ext j hj
      rcases Nat.lt_trichotomy j i with h | h | h
      · simp [h]
      · subst h
        simp only [← getLsbD_eq_getElem, getLsbD_and, hb, Bool.false_and, getLsbD_zero]
      · have hne : j - i ≠ 0 := by omega
        simp [hne]
    simp [hz]
  · have hne : entry &&& (1#64 <<< i) ≠ 0#64 := by
      intro hz
      have h := congrArg (·.getLsbD i) hz
      simp only [getLsbD_and, hb, Bool.true_and] at h
      simp [hi] at h
    simp [hne]

theorem rowIsValid_eq (m : ValidityMask) (row : Nat) : m.rowIsValid row = (m.entry (row / 64)).getLsbD (row % 64) :=
  entryRowIsValid_eq _ (Nat.mod_lt _ (by decide))

@[simp] theorem rowIsValid_initialized (row : Nat) : initialized.rowIsValid row = true := by
  have hlt : row % 64 < 64 := Nat.mod_lt _ (by decide)
  rw [rowIsValid_eq]
  simp only [initialized, getLsbD_allOnes, hlt, decide_true]

@[simp] theorem rowIsValid_setInvalid (m : ValidityMask) (row i : Nat) :
    (m.setInvalid row).rowIsValid i = (m.rowIsValid i && i != row) := by
  have hi : i % 64 < 64 := Nat.mod_lt _ (by decide)
  have hr : row % 64 < 64 := Nat.mod_lt _ (by decide)
  rw [rowIsValid_eq, rowIsValid_eq]
  simp only [setInvalid, bitsPerValue]
  by_cases he : i / 64 = row / 64
  · rw [he, update_self]
    by_cases hb : i % 64 = row % 64
    · have heq : i = row := by omega
      subst heq
      simp [hi]
    · have hne : i ≠ row := fun h => hb (by rw [h])
      have hbit : (1#64 <<< (row % 64)).getLsbD (i % 64) = false := by
        by_cases hlt : i % 64 < row % 64
        · simp [hlt]
        · have hsub : i % 64 - row % 64 ≠ 0 := by omega
          simp [hsub]
      rw [getLsbD_and, getLsbD_not, hbit]
      simp [hi, hne]
  · have hne : i ≠ row := fun h => he (by rw [h])
    rw [update_of_ne he]
    simp [hne]

theorem getLsbD_one_shiftLeft {i j : Nat} (hi : i < 64) : (1#64 <<< i).getLsbD j = decide (j = i) := by
  by_cases hlt : j < i
  · have hne : j ≠ i := by omega
    simp [hlt, hne]
  · by_cases heq : j = i
    · subst heq
      simp [hi]
    · have hsub : j - i ≠ 0 := by omega
      simp [hsub, heq]

@[simp] theorem rowIsValid_setValid (m : ValidityMask) (row i : Nat) :
    (m.setValid row).rowIsValid i = (m.rowIsValid i || i == row) := by
  have hr : row % 64 < 64 := Nat.mod_lt _ (by decide)
  rw [rowIsValid_eq, rowIsValid_eq]
  simp only [setValid, bitsPerValue]
  by_cases he : i / 64 = row / 64
  · have hiff : (i % 64 = row % 64) = (i = row) := by
      apply propext
      omega
    rw [he, update_self, getLsbD_or, getLsbD_one_shiftLeft hr, decide_eq_decide.2 (iff_of_eq hiff)]
    rfl
  · have hne : i ≠ row := fun h => he (by rw [h])
    rw [update_of_ne he]
    simp [hne]

@[simp] theorem rowIsValid_setAllValid (m : ValidityMask) (count i : Nat) :
    (m.setAllValid count).rowIsValid i = (m.rowIsValid i || decide (i < count)) := by
  have hi : i % 64 < 64 := Nat.mod_lt _ (by decide)
  unfold setAllValid
  split
  next hzero => simp [hzero]
  next hzero =>
    have hlast : entryCount count - 1 = (count + 63) / 64 - 1 := rfl
    have hbits : bitsPerValue = 64 := rfl
    rw [rowIsValid_eq, rowIsValid_eq, hbits]
    dsimp only
    rcases Nat.lt_trichotomy (i / 64) (entryCount count - 1) with h | h | h
    · have hlt : i < count := by omega
      rw [if_pos h, getLsbD_allOnes]
      simp [hlt, hi]
    · rw [if_neg (by omega), if_pos h, getLsbD_or]
      congr 1
      split
      next hmod =>
        have hlt : i < count := by omega
        rw [getLsbD_allOnes]
        simp [hlt, hi]
      next hmod =>
        have hiff : i % 64 < count % 64 ↔ i < count := by omega
        rw [getLsbD_not, getLsbD_shiftLeft, getLsbD_allOnes]
        by_cases hlt : i < count
        · simp [hlt, hi, hiff.2 hlt]
        · have hge : ¬ i % 64 < count % 64 := fun hcontra => hlt (hiff.1 hcontra)
          have hsub : i % 64 - count % 64 < 64 := by omega
          simp [hlt, hi, hge, hsub]
    · have hge : ¬ i < count := by omega
      rw [if_neg (by omega), if_neg (by omega)]
      simp [hge]

/-! ## Counting -/

theorem clearLoop_entry (w : BitVec 64) : Lib.clearLoop 64 w.toNat = (range 64).countP (w.getLsbD ·) := by
  rw [Lib.clearLoop_eq w.isLt (Lib.bitCount_le ..)]
  rfl

theorem countP_block {m : ValidityMask} {count e k : Nat} {w : BitVec 64} (hk : k ≤ 64)
    (hblock : Lib.block 64 count e = range' (e * 64) k)
    (hw : ∀ i, i < 64 → w.getLsbD i = (decide (i < k) && (m.entry e).getLsbD i)) :
    (range 64).countP (w.getLsbD ·) = (Lib.block 64 count e).countP m.rowIsValid := by
  have hsplit : range 64 = range k ++ range' k (64 - k) := by
    have hlen : 64 = k + (64 - k) := by omega
    conv => lhs; rw [hlen]
    rw [range_eq_range', range_eq_range', ← range'_append_1, Nat.zero_add]
  have hlow : (range k).countP (w.getLsbD ·) = (range k).countP fun i => m.rowIsValid (e * 64 + i) := by
    refine countP_congr fun i hi => ?_
    have hik : i < k := mem_range.1 hi
    have hdiv : (e * 64 + i) / 64 = e := by omega
    have hmod : (e * 64 + i) % 64 = i := by omega
    rw [hw i (by omega), rowIsValid_eq, hdiv, hmod]
    simp [hik]
  have hhigh : (range' k (64 - k)).countP (w.getLsbD ·) = 0 := by
    refine countP_eq_zero.2 fun i hi => ?_
    have hmem := mem_range'_1.1 hi
    have hik : ¬ i < k := by omega
    rw [hw i (by omega)]
    simp [hik]
  rw [hsplit, countP_append, hlow, hhigh, hblock, range'_eq_map_range, countP_map]
  rfl

theorem countP_full_block {m : ValidityMask} {count e : Nat} (h : e * 64 + 64 ≤ count) :
    (range 64).countP ((m.entry e).getLsbD ·) = (Lib.block 64 count e).countP m.rowIsValid := by
  refine countP_block (Nat.le_refl 64) ?_ fun i hi => by simp [hi]
  rw [Lib.block, Nat.min_eq_left h, Nat.add_sub_cancel_left]

theorem countEntry_eq (m : ValidityMask) {count e : Nat} (he : e < entryCount count) :
    m.countEntry count e = (Lib.block 64 count e).countP m.rowIsValid := by
  unfold entryCount bitsPerValue at he
  unfold countEntry entryCount bitsPerValue
  split
  · next h =>
    have hend : e * 64 + count % 64 = count := by omega
    have hblock : Lib.block 64 count e = range' (e * 64) (count % 64) := by
      rw [Lib.block]
      congr 1
      omega
    rw [clearLoop_entry]
    refine countP_block (by omega) hblock fun i hi => ?_
    rw [getLsbD_and, getLsbD_ushiftRight, getLsbD_allOnes, Bool.and_comm]
    congr 1
    simp only [decide_eq_decide]
    omega
  · next h =>
    have hfull : e * 64 + 64 ≤ count := by omega
    rw [← countP_full_block hfull]
    split
    · next hall =>
      have hones : m.entry e = allOnes 64 := by simpa [allValid] using hall
      have hbit : ∀ i ∈ range 64, (allOnes 64).getLsbD i = true := fun i hi => by
        rw [getLsbD_allOnes, decide_eq_true (mem_range.1 hi)]
      rw [hones, countP_eq_length.2 hbit, length_range]
    · exact clearLoop_entry _

theorem countValid_eq (m : ValidityMask) (count : Nat) :
    m.countValid count = ((range count).filter m.rowIsValid).length := by
  have hblocks : range count = (range (entryCount count)).flatMap (Lib.block 64 count) :=
    (Lib.flatMap_block (by decide) count).symm
  rw [hblocks, ← countP_eq_length_filter, countP_flatMap]
  refine congrArg sum (map_congr_left fun e he => ?_)
  exact countEntry_eq m (mem_range.1 he)

end ValidityMask

end Haybarn.Common
