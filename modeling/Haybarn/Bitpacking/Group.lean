/-
What the values of a group decode to. Whatever mode a flush decides for, the group it writes decodes to the values that
were collected, at every row that is valid: the differences to the frame of reference fit into the width, and differences
that wrap around add up to the value again.
-/
import Haybarn.Bitpacking.State
import Mathlib.Data.List.Basic
import Mathlib.Tactic.Ring

namespace Haybarn.Bitpacking

open Function List

/-! ## Integers -/

section Integers

variable {w : Nat} {signed : Bool} {x y : BitVec w}

theorem toInt_eq (signed : Bool) (x : BitVec w) :
    toInt signed x = x.toNat ∨ toInt signed x = (x.toNat : Int) - 2 ^ w := by
  unfold toInt
  split
  · rw [BitVec.toInt_eq_toNat_cond]
    split
    · exact .inl rfl
    · exact .inr (by push_cast; rfl)
  · exact .inl rfl

theorem emod_toInt (signed : Bool) (x : BitVec w) : toInt signed x % 2 ^ w = x.toNat := by
  have hx : (x.toNat : Int) < 2 ^ w := by exact_mod_cast x.isLt
  obtain h | h := toInt_eq signed x
  · rw [h, Int.emod_eq_of_lt (by omega) hx]
  · rw [h, Int.sub_emod_right, Int.emod_eq_of_lt (by omega) hx]

theorem toInt_inj (h : toInt signed x = toInt signed y) : x = y := by
  apply BitVec.eq_of_toNat_eq
  have hmod := emod_toInt signed x
  rw [h, emod_toInt signed y] at hmod
  exact_mod_cast hmod.symm

theorem toInt_sub_lt (signed : Bool) (x y : BitVec w) : toInt signed x - toInt signed y < 2 ^ w := by
  have hx : (x.toNat : Int) < 2 ^ w := by exact_mod_cast x.isLt
  unfold toInt
  split
  · rw [BitVec.toInt_eq_toNat_cond, BitVec.toInt_eq_toNat_cond]
    split <;> split <;> push_cast <;> omega
  · omega

theorem toNat_sub_eq_emod (signed : Bool) (x y : BitVec w) :
    ((x - y).toNat : Int) = (toInt signed x - toInt signed y) % 2 ^ w := by
  rw [Int.sub_emod (toInt signed x), emod_toInt, emod_toInt, BitVec.toNat_sub]
  push_cast [Nat.cast_sub y.isLt.le]
  rw [show (2 ^ w - (y.toNat : Int) + x.toNat) = (x.toNat - y.toNat) + 2 ^ w from by ring, Int.add_emod_right]

theorem toNat_sub (h : toInt signed y ≤ toInt signed x) : ((x - y).toNat : Int) = toInt signed x - toInt signed y := by
  have hlt := toInt_sub_lt signed x y
  rw [toNat_sub_eq_emod signed, Int.emod_eq_of_lt (by omega) hlt]

theorem toInt_minValue : toInt signed (minValue signed x y) = min (toInt signed x) (toInt signed y) := by
  unfold minValue
  split <;> omega

theorem toInt_maxValue : toInt signed (maxValue signed x y) = max (toInt signed x) (toInt signed y) := by
  unfold maxValue
  split <;> omega

theorem foldl_minValue_le {α : Type} (f : α → BitVec w) {b : α} :
    ∀ {as : List α} (x : BitVec w), b ∈ as →
      toInt signed (as.foldl (fun m a => minValue signed m (f a)) x) ≤ min (toInt signed x) (toInt signed (f b))
  | a :: as, x, hb => by
    have hle : ∀ (as : List α) (x : BitVec w),
        toInt signed (as.foldl (fun m a => minValue signed m (f a)) x) ≤ toInt signed x := by
      intro as
      induction as with
      | nil => exact fun _ => le_refl _
      | cons a as ih =>
        intro x
        have h := ih (minValue signed x (f a))
        rw [toInt_minValue] at h
        exact h.trans (min_le_left _ _)
    rw [foldl_cons]
    rcases mem_cons.1 hb with rfl | hb
    · have h := hle as (minValue signed x (f b))
      rwa [toInt_minValue] at h
    · have h := foldl_minValue_le f (minValue signed x (f a)) hb
      rw [toInt_minValue] at h
      omega

theorem le_foldl_maxValue {α : Type} (f : α → BitVec w) {b : α} :
    ∀ {as : List α} (x : BitVec w), b ∈ as →
      max (toInt signed x) (toInt signed (f b)) ≤ toInt signed (as.foldl (fun m a => maxValue signed m (f a)) x)
  | a :: as, x, hb => by
    have hle : ∀ (as : List α) (x : BitVec w),
        toInt signed x ≤ toInt signed (as.foldl (fun m a => maxValue signed m (f a)) x) := by
      intro as
      induction as with
      | nil => exact fun _ => le_refl _
      | cons a as ih =>
        intro x
        have h := ih (maxValue signed x (f a))
        rw [toInt_maxValue] at h
        exact (le_max_left _ _).trans h
    rw [foldl_cons]
    rcases mem_cons.1 hb with rfl | hb
    · have h := hle as (maxValue signed x (f b))
      rwa [toInt_maxValue] at h
    · have h := le_foldl_maxValue f (maxValue signed x (f a)) hb
      rw [toInt_maxValue] at h
      omega

end Integers

/-! ## Widths -/

variable {t : IntType}

theorem minimumBitWidth_le (d : t.Value) : minimumBitWidth t false d ≤ t.bits := by
  unfold minimumBitWidth effectiveWidth
  simp only [Bool.false_eq_true, false_and, if_false]
  split
  · exact Nat.zero_le _
  · split
    · exact le_refl _
    · have hpos := t.bytes_pos
      omega

theorem lt_minimumBitWidth {v d : t.Value} (h : v.toNat ≤ d.toNat) : v.toNat < 2 ^ minimumBitWidth t false d := by
  unfold minimumBitWidth effectiveWidth
  simp only [Bool.false_eq_true, false_and, if_false, Nat.zero_add]
  split
  · rename_i hd
    subst hd
    simpa using h
  · split
    · exact v.isLt
    · exact h.trans_lt (Nat.lt_size_self _)

/-! ## Decoding -/

/-- The low bits of a value. -/
def lowBits (width : Nat) (v : t.Value) : t.Value := BitVec.ofNat t.bits (v.toNat % 2 ^ width)

theorem lowBits_of_lt {width : Nat} {v : t.Value} (h : v.toNat < 2 ^ width) : lowBits width v = v := by
  unfold lowBits
  rw [Nat.mod_eq_of_lt h, BitVec.ofNat_toNat, BitVec.setWidth_eq]

/-- The sum of the differences in front of an offset. -/
def deltaSum (values : Nat → t.Value) (width : Nat) (frameOfReference deltaOffset : t.Value) : Nat → t.Value
  | 0 => deltaOffset
  | i + 1 => lowBits width (values i) + frameOfReference + deltaSum values width frameOfReference deltaOffset i

namespace Group

def mode : Group t → BitpackingMode
  | constant .. => .constant
  | constantDelta .. => .constantDelta
  | deltaFor .. => .deltaFor
  | for_ .. => .for_

def count : Group t → Nat
  | constant _ count => count
  | constantDelta _ _ count => count
  | deltaFor _ _ _ _ count => count
  | for_ _ _ _ count => count

/-- The value at an offset of a group. -/
def value : Group t → Nat → t.Value
  | constant c _, _ => c
  | constantDelta c frameOfReference _, i => c * BitVec.ofNat t.bits i + frameOfReference
  | deltaFor values width frameOfReference deltaOffset _, i => deltaSum values width frameOfReference deltaOffset (i + 1)
  | for_ values width frameOfReference _, i => lowBits width (values i) + frameOfReference

/-- The width fits into the type. -/
def WidthOk : Group t → Prop
  | deltaFor _ width _ _ _ => width ≤ t.bits
  | for_ _ width _ _ => width ≤ t.bits
  | _ => True

end Group

/-! ## Rows -/

/-- The values of a column, each with whether it is valid. -/
abbrev Rows (t : IntType) : Type := List (t.Value × Bool)

namespace Rows

def minimum (rows : Rows t) : t.Value :=
  (rows.filter (·.2)).foldl (fun minimum row => minValue t.signed minimum row.1) (maximumLimit t.signed)

def maximum (rows : Rows t) : t.Value :=
  (rows.filter (·.2)).foldl (fun maximum row => maxValue t.signed maximum row.1) (minimumLimit t.signed)

variable {rows : Rows t} {v : t.Value}

theorem minimum_le (h : (v, true) ∈ rows) : toInt t.signed rows.minimum ≤ toInt t.signed v := by
  have hmem : (v, true) ∈ rows.filter (·.2) := mem_filter.2 ⟨h, rfl⟩
  exact (foldl_minValue_le Prod.fst (maximumLimit t.signed) hmem).trans (min_le_right _ _)

theorem le_maximum (h : (v, true) ∈ rows) : toInt t.signed v ≤ toInt t.signed rows.maximum := by
  have hmem : (v, true) ∈ rows.filter (·.2) := mem_filter.2 ⟨h, rfl⟩
  exact (le_max_right _ _).trans (le_foldl_maxValue Prod.fst (minimumLimit t.signed) hmem)

end Rows

namespace BitpackingState

variable {s s' : BitpackingState t} {rows : Rows t}

/-- The state has collected the rows. -/
structure Holds (s : BitpackingState t) (mode : BitpackingMode) (rows : Rows t) : Prop where
  mode : s.mode = mode
  idx : s.compressionBufferIdx = rows.length
  buffer : ∀ i v, rows[i]? = some (v, true) → s.compressionBuffer i = v
  minimum : s.minimum = rows.minimum
  maximum : s.maximum = rows.maximum
  allValid : s.allValid = rows.all (·.2)
  allInvalid : s.allInvalid = rows.all (!·.2)

variable {mode : BitpackingMode}

theorem holds_reset (hmode : s.mode = mode) : s.reset.Holds mode [] := by
  constructor <;> first | rfl | simp [reset, hmode]

/-- What `Update` does before it looks whether the group is full. -/
def push (s : BitpackingState t) (row : t.Value × Bool) : BitpackingState t where
  compressionBuffer := if row.2 then Function.update s.compressionBuffer s.compressionBufferIdx row.1 else s.compressionBuffer
  compressionBufferIdx := s.compressionBufferIdx + 1
  totalSize := s.totalSize
  minimum := if row.2 then minValue t.signed s.minimum row.1 else s.minimum
  maximum := if row.2 then maxValue t.signed s.maximum row.1 else s.maximum
  allValid := s.allValid && row.2
  allInvalid := s.allInvalid && !row.2
  mode := s.mode

theorem update_eq (s : BitpackingState t) (row : t.Value × Bool) :
    s.update row.1 row.2 =
      if (s.push row).compressionBufferIdx = metadataGroupSize then { (s.push row).flush with state := (s.push row).flush.state.reset }
      else ⟨true, none, s.push row⟩ := by
  obtain ⟨v, valid⟩ := row
  cases valid <;> rfl

theorem Holds.push (h : s.Holds mode rows) (row : t.Value × Bool) : (s.push row).Holds mode (rows ++ [row]) := by
  obtain ⟨v, valid⟩ := row
  constructor
  · exact h.mode
  · simp [BitpackingState.push, h.idx]
  · intro i u hu
    by_cases hi : i < rows.length
    · rw [List.getElem?_append_left hi] at hu
      cases valid
      · exact h.buffer i u hu
      · simp only [BitpackingState.push, if_true, h.idx]
        rw [update_of_ne (by omega)]
        exact h.buffer i u hu
    · have hlt := (List.getElem?_eq_some_iff.1 hu).1
      rw [List.length_append, List.length_singleton] at hlt
      obtain rfl : i = rows.length := by omega
      simp only [List.getElem?_concat_length, Option.some.injEq, Prod.mk.injEq] at hu
      obtain ⟨rfl, rfl⟩ := hu
      simp [BitpackingState.push, h.idx]
  · cases valid <;> simp [BitpackingState.push, h.minimum, Rows.minimum, List.filter_append]
  · cases valid <;> simp [BitpackingState.push, h.maximum, Rows.maximum, List.filter_append]
  · simp [BitpackingState.push, h.allValid]
  · simp [BitpackingState.push, h.allInvalid]

/-! ## Flushing -/

theorem Holds.getElem (h : s.Holds mode rows) (hvalid : rows.all (·.2)) {i : Nat} (hi : i < s.compressionBufferIdx) :
    rows[i]? = some (s.compressionBuffer i, true) := by
  rw [h.idx] at hi
  have hget := getElem?_eq_getElem hi
  have hv : rows[i].2 = true := all_eq_true.1 hvalid _ (getElem_mem hi)
  have hbuffer : s.compressionBuffer i = rows[i].1 := h.buffer i rows[i].1 (by rw [hget, ← hv])
  rw [hget, hbuffer, ← hv]

/-- What the statistics of the differences are, where there are some. -/
structure DeltaOf (s : BitpackingState t) (d : DeltaStats t) : Prop where
  maximum_le : toInt t.signed s.maximum ≤ toInt true (maximumLimit true : t.Value)
  two_le : 2 ≤ s.compressionBufferIdx
  allValid : s.allValid = true
  checked : s.canDoAll = true ∨
    ∀ i, i < s.compressionBufferIdx → (trySubtract true (s.compressionBuffer i) (s.previous i)).isSome
  deltaBuffer : d.deltaBuffer = Function.update s.delta 0 d.minimumDelta
  minimumDelta : d.minimumDelta = s.minimumDelta
  maximumDelta : d.maximumDelta = s.maximumDelta
  minMaxDeltaDiff : trySubtract true d.maximumDelta d.minimumDelta = some d.minMaxDeltaDiff
  deltaOffset : trySubtract true (s.compressionBuffer 0) d.minimumDelta = some d.deltaOffset

theorem deltaOf_calculateDeltaStats {d : DeltaStats t} (h : s.calculateDeltaStats = some d) : s.DeltaOf d := by
  unfold calculateDeltaStats at h
  split at h
  · cases h
  split at h
  · cases h
  split at h
  · cases h
  split at h
  · cases h
  rename_i hlimit htwo hvalid hchecked
  split at h
  · rename_i hdiff hoffset
    cases h
    refine ⟨by omega, by omega, by simpa using hvalid, ?_, rfl, rfl, rfl, hdiff, hoffset⟩
    by_cases hall : s.canDoAll = true
    · exact .inl hall
    · right
      intro i hi
      simp only [Bool.not_eq_true] at hall
      simp only [hall, Bool.not_false, Bool.true_and, any_eq_true, mem_range, not_exists, not_and,
        Bool.not_eq_true, Option.isNone_eq_false_iff] at hchecked
      exact hchecked i hi
  · cases h

theorem trySubtract_eq {w : Nat} {signed : Bool} {x y d : BitVec w} (h : trySubtract signed x y = some d) : d = x - y := by
  unfold trySubtract at h
  simp only at h
  split at h
  · exact (Option.some.inj h).symm
  · cases h

section Delta

variable {d : DeltaStats t}

theorem DeltaOf.minimumDelta_le (h : s.DeltaOf d) {i : Nat} (h0 : 0 < i) (hi : i < s.compressionBufferIdx) :
    toInt true d.minimumDelta ≤ toInt true (s.delta i) := by
  have hmem : i ∈ range' 1 (s.compressionBufferIdx - 1) := mem_range'_1.2 ⟨h0, by omega⟩
  rw [h.minimumDelta]
  exact (foldl_minValue_le s.delta (maximumLimit true) hmem).trans (min_le_right _ _)

theorem DeltaOf.le_maximumDelta (h : s.DeltaOf d) {i : Nat} (h0 : 0 < i) (hi : i < s.compressionBufferIdx) :
    toInt true (s.delta i) ≤ toInt true d.maximumDelta := by
  have hmem : i ∈ range' 1 (s.compressionBufferIdx - 1) := mem_range'_1.2 ⟨h0, by omega⟩
  rw [h.maximumDelta]
  exact (le_max_right _ _).trans (le_foldl_maxValue s.delta (minimumLimit true) hmem)

theorem DeltaOf.lowBits_sub (h : s.DeltaOf d) {i : Nat} (hi : i < s.compressionBufferIdx) :
    lowBits (minimumBitWidth t false d.minMaxDeltaDiff) (d.deltaBuffer i - d.minimumDelta) + d.minimumDelta
      = d.deltaBuffer i := by
  have hle : toInt true d.minimumDelta ≤ toInt true (d.deltaBuffer i) ∧
      toInt true (d.deltaBuffer i) ≤ toInt true d.maximumDelta := by
    rw [h.deltaBuffer]
    cases i with
    | zero =>
      rw [update_self]
      have hone : 1 < s.compressionBufferIdx := by have := h.two_le; omega
      exact ⟨le_refl _, (h.minimumDelta_le Nat.one_pos hone).trans (h.le_maximumDelta Nat.one_pos hone)⟩
    | succ i =>
      rw [update_of_ne (Nat.succ_ne_zero i)]
      exact ⟨h.minimumDelta_le i.succ_pos hi, h.le_maximumDelta i.succ_pos hi⟩
  have hdiff : (d.deltaBuffer i - d.minimumDelta).toNat ≤ d.minMaxDeltaDiff.toNat := by
    have hv := toNat_sub hle.1
    have hd := toNat_sub (hle.1.trans hle.2)
    rw [trySubtract_eq h.minMaxDeltaDiff]
    omega
  rw [lowBits_of_lt (lt_minimumBitWidth hdiff), BitVec.sub_add_cancel]

theorem DeltaOf.deltaSum_eq (h : s.DeltaOf d) : ∀ {i : Nat}, i < s.compressionBufferIdx →
    deltaSum (subtractFrameOfReference s.compressionBufferIdx d.deltaBuffer d.minimumDelta)
      (minimumBitWidth t false d.minMaxDeltaDiff) d.minimumDelta d.deltaOffset (i + 1) = s.compressionBuffer i
  | 0, hi => by
    rw [deltaSum, subtractFrameOfReference, if_pos hi, h.lowBits_sub hi, deltaSum, h.deltaBuffer, update_self,
      trySubtract_eq h.deltaOffset, BitVec.add_comm, BitVec.sub_add_cancel]
  | i + 1, hi => by
    have hprevious := h.deltaSum_eq (i := i) (by omega)
    rw [deltaSum, hprevious, subtractFrameOfReference, if_pos hi, h.lowBits_sub hi, h.deltaBuffer,
      update_of_ne (Nat.succ_ne_zero i), delta, previous, BitVec.sub_add_cancel]

theorem DeltaOf.constantDelta_eq (h : s.DeltaOf d) (hconstant : d.maximumDelta = d.minimumDelta) :
    ∀ {i : Nat}, i < s.compressionBufferIdx →
      d.maximumDelta * BitVec.ofNat t.bits i + s.compressionBuffer 0 = s.compressionBuffer i
  | 0, _ => by simp
  | i + 1, hi => by
    have hprevious := h.constantDelta_eq hconstant (i := i) (by omega)
    have hdelta : s.delta (i + 1) = d.maximumDelta := by
      have hmin := h.minimumDelta_le i.succ_pos hi
      have hmax := h.le_maximumDelta i.succ_pos hi
      rw [← hconstant] at hmin
      exact toInt_inj (le_antisymm hmax hmin)
    have hstep : s.compressionBuffer (i + 1) = d.maximumDelta + s.compressionBuffer i := by
      rw [← hdelta, delta, previous, BitVec.sub_add_cancel]
    rw [hstep, ← hprevious, BitVec.ofNat_add, BitVec.mul_add, BitVec.mul_one]
    ac_rfl

end Delta

/-- A group decodes to the rows that are valid. -/
structure Decodes (g : Group t) (rows : Rows t) : Prop where
  count : g.count = rows.length
  width : g.WidthOk
  value : ∀ i v, rows[i]? = some (v, true) → g.value i = v

variable {g : Group t}

theorem Holds.flushFor_decodes (h : s.Holds mode rows) (hg : s.flushFor.group = some g) : Decodes g rows := by
  unfold flushFor at hg
  split at hg
  · rename_i minMaxDiff hdiff
    cases hg
    refine ⟨h.idx, minimumBitWidth_le _, ?_⟩
    intro i v hv
    have hi : i < s.compressionBufferIdx := by
      rw [h.idx]
      exact (List.getElem?_eq_some_iff.1 hv).1
    have hmem : (v, true) ∈ rows := List.mem_of_getElem? hv
    have hmin : toInt t.signed s.minimum ≤ toInt t.signed v := h.minimum ▸ Rows.minimum_le hmem
    have hmax : toInt t.signed v ≤ toInt t.signed s.maximum := h.maximum ▸ Rows.le_maximum hmem
    have hle : (v - s.minimum).toNat ≤ minMaxDiff.toNat := by
      have hsub := toNat_sub hmin
      have hall := toNat_sub (hmin.trans hmax)
      rw [trySubtract_eq hdiff]
      omega
    rw [Group.value, subtractFrameOfReference, if_pos hi, h.buffer i v hv, lowBits_of_lt (lt_minimumBitWidth hle),
      BitVec.sub_add_cancel]
  · cases hg

theorem Holds.flush_decodes (h : s.Holds mode rows) (hg : s.flush.group = some g) : Decodes g rows := by
  unfold flush at hg
  split at hg
  · cases hg
  split at hg
  · -- a constant
    rename_i hconstant
    cases hg
    refine ⟨h.idx, trivial, ?_⟩
    intro i v hv
    have hmem : (v, true) ∈ rows := List.mem_of_getElem? hv
    have heq : s.maximum = s.minimum := by
      rcases hconstant.1 with hinvalid | heq
      · rw [h.allInvalid, List.all_eq_true] at hinvalid
        exact absurd (hinvalid _ hmem) (by simp)
      · exact heq
    have hmin := Rows.minimum_le hmem
    have hmax := Rows.le_maximum hmem
    rw [← h.minimum, ← heq] at hmin
    rw [← h.maximum] at hmax
    exact toInt_inj (le_antisymm hmin hmax)
  split at hg
  · exact h.flushFor_decodes hg
  rename_i d hd
  have hdelta := deltaOf_calculateDeltaStats hd
  have hbuffer : ∀ {i : Nat} {v : t.Value}, rows[i]? = some (v, true) →
      i < s.compressionBufferIdx ∧ s.compressionBuffer i = v := by
    intro i v hv
    rw [h.idx]
    exact ⟨(List.getElem?_eq_some_iff.1 hv).1, h.buffer i v hv⟩
  split at hg
  · -- a constant difference
    rename_i hconstant
    cases hg
    refine ⟨h.idx, trivial, ?_⟩
    intro i v hv
    obtain ⟨hi, hv⟩ := hbuffer hv
    rw [Group.value, hdelta.constantDelta_eq hconstant.1 hi, hv]
  · split at hg
    · -- differences
      cases hg
      refine ⟨h.idx, minimumBitWidth_le _, ?_⟩
      intro i v hv
      obtain ⟨hi, hv⟩ := hbuffer hv
      rw [Group.value, hdelta.deltaSum_eq hi, hv]
    · exact h.flushFor_decodes hg

/-! ## Success -/

theorem flushFor_success (s : BitpackingState t) : s.flushFor.success = s.calculateForStats.isSome := by
  unfold flushFor
  split <;> simp_all

theorem flushFor_group (s : BitpackingState t) : s.flushFor.group.isSome = s.calculateForStats.isSome := by
  unfold flushFor
  split <;> simp_all

theorem flush_success (s : BitpackingState t) : s.flush.success = true ↔
    s.compressionBufferIdx = 0 ∨ (s.allInvalid ∨ s.maximum = s.minimum) ∧ (s.mode = .auto ∨ s.mode = .constant) ∨
      s.calculateForStats.isSome = true ∨ s.calculateDeltaStats.isSome = true ∧ s.mode ≠ .for_ := by
  unfold flush
  split
  · simp_all
  split
  · simp_all
  split
  · rw [flushFor_success]
    simp_all
  · split
    · simp_all
    · rename_i hidx hconstant d hd hmode
      split
      · rename_i hprefer
        simp [hd, hprefer.2]
      · rename_i hprefer
        rw [flushFor_success]
        cases hfor : s.calculateForStats with
        | none =>
          rw [preferFor, hfor] at hprefer
          simp_all
        | some diff => simp

theorem flush_group (s : BitpackingState t) (hidx : s.compressionBufferIdx ≠ 0) (h : s.flush.success = true) :
    ∃ g, s.flush.group = some g := by
  unfold flush at h ⊢
  rw [if_neg hidx] at h ⊢
  split
  · exact ⟨_, rfl⟩
  rename_i hconstant
  rw [if_neg hconstant] at h
  split at h
  · rw [flushFor_success, ← flushFor_group] at h
    exact Option.isSome_iff_exists.1 h
  · split
    · exact ⟨_, rfl⟩
    · rename_i hmode
      rw [if_neg hmode] at h
      split
      · exact ⟨_, rfl⟩
      · rename_i hprefer
        rw [if_neg hprefer, flushFor_success, ← flushFor_group] at h
        exact Option.isSome_iff_exists.1 h

section Garbage

variable (h : s.Holds mode rows) (h' : s'.Holds mode rows)

include h h'

theorem Holds.buffer_eq (hvalid : rows.all (·.2)) {i : Nat} (hi : i < s.compressionBufferIdx) :
    s.compressionBuffer i = s'.compressionBuffer i :=
  (h'.buffer i _ (h.getElem hvalid hi)).symm

theorem Holds.delta_eq (hvalid : rows.all (·.2)) {i : Nat} (hi : i < s.compressionBufferIdx) :
    s.delta i = s'.delta i ∧ s.previous i = s'.previous i := by
  cases i with
  | zero => exact ⟨by rw [delta, delta, previous, previous, h.buffer_eq h' hvalid hi], rfl⟩
  | succ i =>
    have hprevious := h.buffer_eq h' hvalid (i := i) (by omega)
    exact ⟨by rw [delta, delta, previous, previous, h.buffer_eq h' hvalid hi, hprevious], hprevious⟩

theorem Holds.calculateDeltaStats_isSome (hs : s.calculateDeltaStats.isSome) : s'.calculateDeltaStats.isSome := by
  obtain ⟨d, hd⟩ := Option.isSome_iff_exists.1 hs
  have hdelta := deltaOf_calculateDeltaStats hd
  have hvalid : rows.all (·.2) := h.allValid ▸ hdelta.allValid
  have hidx : s'.compressionBufferIdx = s.compressionBufferIdx := h'.idx.trans h.idx.symm
  have hrange : ∀ {i : Nat}, i ∈ range' 1 (s.compressionBufferIdx - 1) → s.delta i = s'.delta i := by
    intro i hi
    rw [mem_range'_1] at hi
    exact (h.delta_eq h' hvalid (by omega)).1
  have hmax : s.maximumDelta = s'.maximumDelta := by
    unfold maximumDelta
    rw [hidx]
    exact foldl_ext _ _ _ fun m i hi => by rw [hrange hi]
  have hmin : s.minimumDelta = s'.minimumDelta := by
    unfold minimumDelta
    rw [hidx]
    exact foldl_ext _ _ _ fun m i hi => by rw [hrange hi]
  have hany : ((range s.compressionBufferIdx).any fun i =>
        (trySubtract true (s.compressionBuffer i) (s.previous i)).isNone)
      = (range s'.compressionBufferIdx).any fun i =>
        (trySubtract true (s'.compressionBuffer i) (s'.previous i)).isNone := by
    rw [hidx, Bool.eq_iff_iff, any_eq_true, any_eq_true]
    apply exists_congr
    intro i
    apply and_congr_right
    intro hi
    have hi := mem_range.1 hi
    rw [h.buffer_eq h' hvalid hi, (h.delta_eq h' hvalid hi).2]
  have hall : s.canDoAll = s'.canDoAll := by
    rw [canDoAll, canDoAll, h.minimum, h.maximum, h'.minimum, h'.maximum]
  have hfirst := h.buffer_eq h' hvalid (i := 0) (by have := hdelta.two_le; omega)
  unfold calculateDeltaStats at hd ⊢
  rw [h'.maximum, ← h.maximum, h'.allValid, ← h.allValid, ← hall, ← hany, ← hmax, ← hmin, ← hfirst, hidx]
  split at hd
  · cases hd
  rename_i hlimit
  rw [if_neg hlimit]
  split at hd
  · cases hd
  rename_i htwo
  rw [if_neg htwo]
  split at hd
  · cases hd
  rename_i hall
  rw [if_neg hall]
  split at hd
  · cases hd
  rename_i hchecked
  rw [if_neg hchecked]
  split at hd
  · rfl
  · cases hd

end Garbage

theorem Holds.flush_success_iff (h : s.Holds mode rows) (h' : s'.Holds mode rows) :
    s.flush.success = true ↔ s'.flush.success = true := by
  have hdelta : s.calculateDeltaStats.isSome ↔ s'.calculateDeltaStats.isSome :=
    ⟨h.calculateDeltaStats_isSome h', h'.calculateDeltaStats_isSome h⟩
  rw [flush_success, flush_success, hdelta, calculateForStats, calculateForStats, h.idx, h.allInvalid, h.maximum, h.minimum,
    h.mode, h'.idx, h'.allInvalid, h'.maximum, h'.minimum, h'.mode]

end BitpackingState

end Haybarn.Bitpacking
