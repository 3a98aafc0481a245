/-
What the compressor stores. A segment that is being written holds the values and the counts of its runs, and when it is
flushed both are still there, closer together. The runs of all segments expand to a value for each row: at a valid row it is
the value of the row, or one in front of it that the operator `==` takes for the same.

The values that the compressor keeps for the rows. It follows the rows with the last value it has seen, and writes a run when
a value differs from it or when the counter is full. What is kept for a valid row is its value or, where `==` takes the two
for the same, the value in front of it.
-/
import Haybarn.Lib.RunLength
import Haybarn.Rle.Compress
import Mathlib.Data.List.Chain
import Mathlib.Data.List.Forall2

namespace Haybarn.Rle

open Lib Lib.RunLength Wal List Nat
open Metadata (BlockSize)

variable {T : Type} {type : FixedWidth T} {size : BlockSize} {uninitialized : Nat → Cells UInt8} {c : CompressState}
  {es : List (T × Nat)}

/-! ## Sizes -/

theorem length_values (es : List (T × Nat)) : (es.flatMap fun e => type.bytes e.1).length = es.length * type.size := by
  rw [length_flatMap]
  simp [type.length_bytes]

theorem length_counts (es : List (T × Nat)) : (es.flatMap fun e => writeWord sizeofRleCount e.2).length
    = es.length * sizeofRleCount := by
  rw [length_flatMap]
  simp [writeWord_length]

/-- The room for all runs of a segment. -/
theorem maxRleCount_spec (type : FixedWidth T) (size : BlockSize) : 0 < maxRleCount type size
    ∧ (rleHeaderSize + maxRleCount type size * type.size) % 8 = 0
    ∧ rleHeaderSize + maxRleCount type size * type.size + maxRleCount type size * sizeofRleCount ≤ blockSize size := by
  have hmin := size.min_le_allocSize
  have hheader := size.headerSize_le_max
  have hpos := type.size_pos
  have hle := type.size_le
  have hblock : 16000 ≤ blockSize size := by
    unfold blockSize
    omega
  have hentries : 8 ≤ (blockSize size - rleHeaderSize) / (type.size + sizeofRleCount) := by
    rw [Nat.le_div_iff_mul_le (by unfold sizeofRleCount; omega)]
    unfold rleHeaderSize sizeofRleCount
    omega
  have hfit := Nat.div_mul_le_self (blockSize size - rleHeaderSize) (type.size + sizeofRleCount)
  have hfloor : maxRleCount type size ≤ (blockSize size - rleHeaderSize) / (type.size + sizeofRleCount) := by
    unfold maxRleCount alignValueFloor
    omega
  have haligned : maxRleCount type size % 8 = 0 := by
    unfold maxRleCount alignValueFloor
    omega
  refine ⟨?_, ?_, ?_⟩
  · unfold maxRleCount alignValueFloor
    omega
  · have hmul : maxRleCount type size * type.size % 8 = 0 := by rw [Nat.mul_mod, haligned, Nat.zero_mul, Nat.zero_mod]
    unfold rleHeaderSize
    omega
  · have hroom := (Nat.mul_le_mul_right (type.size + sizeofRleCount) hfloor).trans hfit
    rw [Nat.mul_add] at hroom
    unfold rleHeaderSize at *
    omega

/-- Where the counts of a segment are moved to. -/
def rleOffset (type : FixedWidth T) (n : Nat) : Nat := alignValue (rleHeaderSize + type.size * n)

theorem rleOffset_spec (size : BlockSize) {n : Nat} (hn : n ≤ maxRleCount type size) :
    rleHeaderSize + n * type.size ≤ rleOffset type n ∧ rleOffset type n ≤ rleHeaderSize + maxRleCount type size * type.size
      ∧ rleOffset type n + n * sizeofRleCount ≤ blockSize size := by
  obtain ⟨-, haligned, hfit⟩ := maxRleCount_spec type size
  have hmul := mul_le_mul_right type.size hn
  have hmul' := mul_le_mul_right sizeofRleCount hn
  have hoffset : rleHeaderSize + n * type.size ≤ rleOffset type n
      ∧ rleOffset type n ≤ rleHeaderSize + maxRleCount type size * type.size := by
    unfold rleOffset alignValue
    rw [mul_comm type.size]
    omega
  exact ⟨hoffset.1, hoffset.2, by omega⟩

/-! ## Segments -/

/-- The runs of a segment that is being written. -/
structure Writing (type : FixedWidth T) (size : BlockSize) (c : CompressState) (es : List (T × Nat)) : Prop where
  entryCount : c.entryCount = es.length
  count : c.count = (expand es).length
  values : c.handle.Has rleHeaderSize (es.flatMap fun e => type.bytes e.1)
  counts : c.handle.Has (rleHeaderSize + maxRleCount type size * type.size) (es.flatMap fun e => writeWord sizeofRleCount e.2)
  length_le : es.length ≤ maxRleCount type size
  small : ∀ e ∈ es, e.2 < 2 ^ 16
  filled : Filled es

/-- The runs of a segment that was flushed. -/
structure SegmentOf (type : FixedWidth T) (size : BlockSize) (segment : Segment) (runs : List (T × Nat)) : Prop where
  count : segment.count = (expand runs).length
  size_eq : segment.size = rleOffset type runs.length + runs.length * sizeofRleCount
  header : segment.bytes.Has 0 (writeWord 8 (rleOffset type runs.length))
  values : segment.bytes.Has rleHeaderSize (runs.flatMap fun e => type.bytes e.1)
  counts : segment.bytes.Has (rleOffset type runs.length) (runs.flatMap fun e => writeWord sizeofRleCount e.2)
  length_le : runs.length ≤ maxRleCount type size
  small : ∀ run ∈ runs, run.2 < 2 ^ 16
  filled : Filled runs

theorem Writing.compact (h : Writing type size c es) :
    SegmentOf type size ⟨c.compact type size, rleOffset type es.length + sizeofRleCount * es.length, c.count⟩ es := by
  obtain ⟨hlow, hhigh, hfit⟩ := rleOffset_spec size h.length_le
  have hoffset : alignValue (rleHeaderSize + type.size * es.length) = rleOffset type es.length := rfl
  have hminimal : rleHeaderSize + type.size * es.length = rleHeaderSize + es.length * type.size := by rw [mul_comm]
  have hheader : rleHeaderSize = 8 := rfl
  -- the padding lies between the values and the counts
  have hpadded : ∃ handle : Cells UInt8, (if rleHeaderSize + type.size * es.length < rleOffset type es.length then
      c.handle.fill (rleHeaderSize + type.size * es.length) (rleOffset type es.length) 0 else c.handle) = handle
        ∧ handle.Has rleHeaderSize (es.flatMap fun e => type.bytes e.1)
        ∧ handle.Has (rleHeaderSize + maxRleCount type size * type.size) (es.flatMap fun e => writeWord sizeofRleCount e.2) := by
    refine ⟨_, rfl, ?_⟩
    split
    · refine ⟨h.values.fill (.inr ?_), h.counts.fill (.inl hhigh)⟩
      rw [length_values]
      omega
    · exact ⟨h.values, h.counts⟩
  obtain ⟨handle, hhandle, hvalues, hcounts⟩ := hpadded
  have hread : handle.read (rleHeaderSize + maxRleCount type size * type.size) (sizeofRleCount * es.length)
      = es.flatMap fun e => writeWord sizeofRleCount e.2 :=
    hcounts.read_eq_of_length (by rw [length_counts, mul_comm])
  have hcompact : c.compact type size = (handle.write (rleOffset type es.length)
      (es.flatMap fun e => writeWord sizeofRleCount e.2)).write 0 (writeWord 8 (rleOffset type es.length)) := by
    unfold CompressState.compact
    dsimp only
    rw [h.entryCount, hoffset, hhandle, hread]
  have hword : (writeWord 8 (rleOffset type es.length)).length = 8 := writeWord_length _ _
  constructor
  case count => exact h.count
  case size_eq => exact congrArg (rleOffset type es.length + ·) (mul_comm _ _)
  case header =>
    dsimp only
    rw [hcompact]
    exact Cells.has_write _ _ _
  case values =>
    dsimp only
    rw [hcompact]
    refine (hvalues.write (.inl ?_)).write (.inr (by omega))
    rw [length_values]
    exact hlow
  case counts =>
    dsimp only
    rw [hcompact]
    exact (Cells.has_write _ _ _).write (.inr (by omega))
  case length_le => exact h.length_le
  case small => exact h.small
  case filled => exact h.filled

theorem filled_append {e : T × Nat} (hpos : ∀ e ∈ es, 0 < e.2) : Filled (es ++ [e]) := by
  intro i run hrun hi
  rw [length_append, length_singleton] at hi
  rw [getElem?_append_left (by omega)] at hrun
  exact hpos run (mem_of_getElem? hrun)

theorem Writing.append (h : Writing type size c es) (hpos : ∀ e ∈ es, 0 < e.2) (hlt : es.length < maxRleCount type size)
    (value : T) {count : Nat} (hcount : count < 2 ^ 16) :
    Writing type size (c.writeEntry type size value count) (es ++ [(value, count)]) := by
  have hmul := mul_le_mul_right type.size hlt
  rw [succ_mul] at hmul
  have hvalue := type.length_bytes value
  have htwo : sizeofRleCount * es.length = es.length * sizeofRleCount := mul_comm _ _
  constructor
  case entryCount => simp [CompressState.writeEntry, h.entryCount]
  case count => simp [CompressState.writeEntry, h.count, expand_append]
  case values =>
    unfold CompressState.writeEntry
    dsimp only
    rw [h.entryCount, flatMap_append, flatMap_singleton, Cells.has_append, length_values]
    constructor
    · refine (h.values.write (.inl ?_)).write (.inl ?_)
      · rw [length_values]
      · rw [length_values]
        omega
    · refine (Cells.has_write _ _ _).write (.inl ?_)
      omega
  case counts =>
    unfold CompressState.writeEntry
    dsimp only
    rw [h.entryCount, flatMap_append, flatMap_singleton, Cells.has_append, length_counts, htwo]
    constructor
    · refine (h.counts.write (.inr ?_)).write (.inl ?_)
      · omega
      · rw [length_counts]
    · exact Cells.has_write _ _ _
  case length_le =>
    rw [length_append, length_singleton]
    exact hlt
  case small =>
    intro e he
    rcases mem_append.1 he with he | he
    · exact h.small e he
    · rw [mem_singleton.1 he]
      exact hcount
  case filled => exact filled_append hpos

theorem writing_nil (hcount : c.count = 0) (hentry : c.entryCount = 0) : Writing type size c [] where
  entryCount := hentry
  count := hcount
  values := Cells.has_nil
  counts := Cells.has_nil
  length_le := zero_le _
  small := by simp
  filled := by
    intro e run hrun
    simp at hrun

/-! ## All segments -/

/-- The values that the runs of all segments stand for, when each run that was written has a row. -/
structure Stored (type : FixedWidth T) (size : BlockSize) (c : CompressState) (parts : List (List (T × Nat)))
    (es : List (T × Nat)) : Prop where
  segments : List.Forall₂ (SegmentOf type size) c.segments parts
  writing : Writing type size c es

theorem Stored.flushSegment {parts : List (List (T × Nat))} (h : Stored type size c parts es) : ∃ parts',
    List.Forall₂ (SegmentOf type size) (c.flushSegment type size).segments parts'
      ∧ expand parts'.flatten = expand parts.flatten ++ expand es := by
  unfold CompressState.flushSegment
  split
  next hzero =>
    have hnil : expand es = [] := by
      rw [← length_eq_zero_iff, ← h.writing.count]
      exact hzero
    exact ⟨parts, h.segments, by rw [hnil, append_nil]⟩
  next =>
    refine ⟨parts ++ [es], ?_, by rw [flatten_append, flatten_singleton, expand_append]⟩
    refine rel_append h.segments (.cons ?_ .nil)
    have hcompact := h.writing.compact
    rw [← h.writing.entryCount] at hcompact
    exact hcompact

/-- The values that were written, in runs that all have a row, with room for one more. -/
def StoredValues (type : FixedWidth T) (size : BlockSize) (c : CompressState) (values : List T) : Prop :=
  ∃ parts es, Stored type size c parts es ∧ (∀ e ∈ es, 0 < e.2) ∧ es.length < maxRleCount type size
    ∧ values = expand parts.flatten ++ expand es

variable {values : List T} {value : T} {count : Nat} {isNull : Bool}

theorem StoredValues.writeValue (h : StoredValues type size c values) (hpos : 0 < count) (hcount : count < 2 ^ 16) :
    StoredValues type size (c.writeValue type size uninitialized value count isNull)
      (values ++ replicate count value) := by
  obtain ⟨parts, es, hstored, hes, hlt, rfl⟩ := h
  have hnext := hstored.writing.append hes hlt value hcount
  have hexpand : expand (es ++ [(value, count)]) = expand es ++ replicate count value := by
    rw [expand_append, expand_cons, expand_nil, append_nil]
  have hstored' : Stored type size (c.writeEntry type size value count) parts _ := ⟨hstored.segments, hnext⟩
  unfold CompressState.writeValue
  dsimp only
  split
  next hfull =>
    obtain ⟨parts', hparts, hvalues⟩ := hstored'.flushSegment
    refine ⟨parts', [], ⟨hparts, writing_nil rfl rfl⟩, by simp, (maxRleCount_spec type size).1, ?_⟩
    rw [hvalues, hexpand, expand_nil, append_nil, append_assoc]
  next hroom =>
    have hlength := hnext.length_le
    have hentry := hnext.entryCount
    refine ⟨parts, _, hstored', ?_, by omega, by rw [hexpand, append_assoc]⟩
    intro e he
    rcases mem_append.1 he with he | he
    · exact hes e he
    · rw [mem_singleton.1 he]
      exact hpos

theorem StoredValues.finalize (h : StoredValues type size c values) (uninitialized : Nat → Cells UInt8) (value : T) (isNull : Bool)
    (hcount : count < 2 ^ 16) : ∃ parts,
    List.Forall₂ (SegmentOf type size)
      ((c.writeValue type size uninitialized value count isNull).flushSegment type size).segments parts
    ∧ (parts.map expand).flatten = values ++ replicate count value := by
  obtain ⟨parts, es, hstored, hes, hlt, rfl⟩ := h
  have hnext := hstored.writing.append hes hlt value hcount
  have hstored' : Stored type size (c.writeEntry type size value count) parts _ := ⟨hstored.segments, hnext⟩
  have hexpand : expand (es ++ [(value, count)]) = expand es ++ replicate count value := by
    rw [expand_append, expand_cons, expand_nil, append_nil]
  have hflatten : ∀ parts : List (List (T × Nat)), (parts.map expand).flatten = expand parts.flatten := by
    intro parts
    induction parts with
    | nil => rfl
    | cons part parts ih => rw [map_cons, flatten_cons, ih, flatten_cons, expand_append]
  obtain ⟨parts', hparts, hvalues⟩ := hstored'.flushSegment
  unfold CompressState.writeValue
  dsimp only
  split
  next hfull =>
    -- the segment is full: an empty one is made, and dropped
    have hempty : Stored type size (((c.writeEntry type size value count).flushSegment type size).createEmptySegment uninitialized)
        parts' [] := ⟨hparts, writing_nil rfl rfl⟩
    obtain ⟨parts'', hparts'', hvalues''⟩ := hempty.flushSegment
    refine ⟨parts'', hparts'', ?_⟩
    rw [hflatten, hvalues'', expand_nil, append_nil, hvalues, hexpand, append_assoc]
  next =>
    refine ⟨parts', hparts, ?_⟩
    rw [hflatten, hvalues, hexpand, append_assoc]

/-! ## Kept values -/

def keptValue (type : FixedWidth T) (last : Option T) (v : T) : T :=
  match last with
  | none => v
  | some l => if type.eq l v = true then l else v

/-- What is kept of a row, after the last valid value. -/
def keptRow (type : FixedWidth T) (last : Option T) (row : T × Bool) : T × Bool :=
  if row.2 = true then (keptValue type last row.1, true) else row

def nextLast (type : FixedWidth T) (last : Option T) (row : T × Bool) : Option T :=
  if row.2 = true then some (keptValue type last row.1) else last

def kept (type : FixedWidth T) : Option T → List (T × Bool) → List (T × Bool)
  | _, [] => []
  | last, row :: rows => keptRow type last row :: kept type (nextLast type last row) rows

/-- The values are those of the rows, where these are valid. -/
def Agrees (rows : List (T × Bool)) (values : List T) : Prop := List.Forall₂ (fun row v => row.2 = true → v = row.1) rows values

/-- The valid values. -/
def validValues (rows : List (T × Bool)) : List T := (rows.filter (·.2)).map (·.1)

/-- A value that `==` takes for the one in front of it is that value. -/
def Distinguishes (type : FixedWidth T) : List T → Prop := List.IsChain fun v w => type.eq v w = true → v = w

theorem agrees_iff_of_kept : ∀ {last : Option T} {rows : List (T × Bool)} {values : List T},
    Agrees (kept type last rows) values →
      (Agrees rows values ↔ Distinguishes type (last.toList ++ validValues rows))
  | last, [], values, h => by
    obtain rfl : values = [] := by simpa [Agrees, kept] using h
    refine ⟨fun _ => ?_, fun _ => .nil⟩
    cases last with
    | none => exact .nil
    | some l => exact .singleton _
  | last, (v, false) :: rows, values, h => by
    obtain ⟨x, xs, -, hrest, rfl⟩ := List.forall₂_cons_left_iff.1 h
    have ih := agrees_iff_of_kept hrest
    have hlast : nextLast type last (v, false) = last := rfl
    rw [hlast] at ih
    have hvalid : validValues ((v, false) :: rows) = validValues rows := rfl
    rw [hvalid, ← ih]
    exact ⟨fun h => (List.forall₂_cons.1 h).2, fun h => .cons (fun hv => by cases hv) h⟩
  | last, (v, true) :: rows, values, h => by
    obtain ⟨x, xs, hx, hrest, rfl⟩ := List.forall₂_cons_left_iff.1 h
    have hx : x = keptValue type last v := hx rfl
    have hvalid : validValues ((v, true) :: rows) = v :: validValues rows := rfl
    have ih := agrees_iff_of_kept hrest
    have hlast : nextLast type last (v, true) = some (keptValue type last v) := rfl
    rw [hlast, Option.toList_some, List.singleton_append] at ih
    have hhead : Agrees ((v, true) :: rows) (x :: xs) ↔ keptValue type last v = v ∧ Agrees rows xs := by
      unfold Agrees
      rw [List.forall₂_cons, hx]
      exact and_congr_left fun _ => ⟨fun h => h rfl, fun h _ => h⟩
    rw [hhead, hvalid]
    cases last with
    | none =>
      have hkept : keptValue type none v = v := rfl
      rw [hkept] at ih ⊢
      rw [ih]
      exact and_iff_right rfl
    | some l =>
      have hkept : keptValue type (some l) v = v ↔ (type.eq l v = true → l = v) := by
        unfold keptValue
        dsimp only
        split
        next heq => exact ⟨fun h _ => h, fun h => h heq⟩
        next hne => exact ⟨fun _ h => absurd h hne, fun _ => rfl⟩
      unfold Distinguishes at ih ⊢
      rw [Option.toList_some, List.singleton_append, List.isChain_cons_cons, ← hkept]
      constructor
      · rintro ⟨hv, hagrees⟩
        rw [hv] at ih
        exact ⟨hv, ih.1 hagrees⟩
      · rintro ⟨hv, hchain⟩
        rw [hv] at ih
        exact ⟨hv, ih.2 hchain⟩

/-! ## The compressor -/

/-- The last value that the compressor has seen. -/
def RLEState.last (s : RLEState T) : Option T := if s.allNull = true then none else some s.lastValue

/-- The compressor has followed the rows: what was written and the run it is in have a value for each of them. -/
structure Followed (type : FixedWidth T) (size : BlockSize) (rows : List (T × Bool)) (s : RLEState T) (c : CompressState) :
    Prop where
  stored : ∃ values, StoredValues type size c values
    ∧ Agrees rows (values ++ List.replicate s.lastSeenCount s.lastValue)
  allNull : s.allNull = true → ∀ row ∈ rows, row.2 = false

theorem followed_new : Followed type size [] (RLEState.new type) (CompressState.new uninitialized) where
  stored := ⟨[], ⟨[], [], ⟨.nil, writing_nil rfl rfl⟩, by simp, (maxRleCount_spec type size).1, rfl⟩, .nil⟩
  allNull := by simp

theorem increment_eq {count : Nat} (h : count < maximumRleCount) : increment count = count + 1 := by
  unfold increment
  unfold maximumRleCount at h
  omega

theorem Agrees.append {rows' : List (T × Bool)} {values' : List T} (h : Agrees rows values) (h' : Agrees rows' values') :
    Agrees (rows ++ rows') (values ++ values') := List.rel_append h h'

theorem agrees_of_allNull {values' : List T} (h : Agrees rows values) (hnull : ∀ row ∈ rows, row.2 = false)
    (hlength : values'.length = values.length) : Agrees rows values' := by
  refine List.forall₂_iff_get.2 ⟨by rw [hlength]; exact h.length_eq, fun i hi _ hvalid => ?_⟩
  rw [hnull _ (List.get_mem rows ⟨i, hi⟩)] at hvalid
  cases hvalid

theorem Followed.flush (h : Followed type size rows s c) (uninitialized : Nat → Cells UInt8) (hpos : 0 < s.lastSeenCount)
    (hcount : s.lastSeenCount ≤ maximumRleCount) :
    ∃ values, StoredValues type size (s.flush (CompressState.writeValue type size uninitialized) c) values
      ∧ Agrees rows values := by
  obtain ⟨values, hstored, hagrees⟩ := h.stored
  have hmax : maximumRleCount < 2 ^ 16 := by decide
  exact ⟨_, hstored.writeValue hpos (by omega), hagrees⟩

theorem Followed.updateRun (h : Followed type size rows s c) (hlt : s.lastSeenCount < maximumRleCount) (row : T × Bool) {s' : RLEState T}
    {c' : CompressState} (hrun : s.updateRun type (CompressState.writeValue type size uninitialized) row c = (s', c')) :
    Followed type size (rows ++ [keptRow type s.last row]) s' c' ∧ s'.last = nextLast type s.last row
      ∧ 0 < s'.lastSeenCount ∧ s'.lastSeenCount ≤ maximumRleCount := by
  obtain ⟨values, hstored, hagrees⟩ := h.stored
  have hincrement := increment_eq hlt
  have hpos : 0 < maximumRleCount := by decide
  obtain ⟨v, valid⟩ := row
  unfold RLEState.updateRun at hrun
  unfold keptRow nextLast
  dsimp only at hrun ⊢
  cases valid with
  | false =>
    rw [if_neg Bool.false_ne_true] at hrun
    cases hrun
    rw [if_neg Bool.false_ne_true, if_neg Bool.false_ne_true]
    refine ⟨⟨⟨values, hstored, ?_⟩, fun hnull row hrow => ?_⟩, rfl, ?_, ?_⟩
    · dsimp only
      rw [hincrement, List.replicate_succ', ← List.append_assoc]
      exact hagrees.append (.cons (fun hv => by cases hv) .nil)
    · rcases List.mem_append.1 hrow with hrow | hrow
      · exact h.allNull hnull row hrow
      · rw [List.mem_singleton.1 hrow]
    · dsimp only
      omega
    · dsimp only
      omega
  | true =>
    rw [if_pos rfl] at hrun
    rw [if_pos rfl, if_pos rfl]
    by_cases hnull : s.allNull = true
    · -- the first valid value is that of the NULLs in front of it
      rw [if_pos hnull] at hrun
      cases hrun
      have hlast : s.last = none := if_pos hnull
      rw [hlast]
      refine ⟨⟨⟨values, hstored, ?_⟩, fun hv => by cases hv⟩, rfl, ?_, ?_⟩
      · dsimp only
        rw [hincrement, List.replicate_succ', ← List.append_assoc]
        exact (agrees_of_allNull hagrees (h.allNull hnull) (by simp)).append (.cons (fun _ => rfl) .nil)
      · dsimp only
        omega
      · dsimp only
        omega
    · have hlast : s.last = some s.lastValue := if_neg hnull
      have hkept : keptValue type s.last v = if type.eq s.lastValue v = true then s.lastValue else v := by
        rw [hlast]
        rfl
      rw [if_neg hnull] at hrun
      by_cases heq : type.eq s.lastValue v = true
      · rw [if_pos heq] at hrun
        cases hrun
        rw [hkept, if_pos heq]
        refine ⟨⟨⟨values, hstored, ?_⟩, fun hv => absurd hv hnull⟩, hlast, ?_, ?_⟩
        · dsimp only
          rw [hincrement, List.replicate_succ', ← List.append_assoc]
          exact hagrees.append (.cons (fun _ => rfl) .nil)
        · dsimp only
          omega
        · dsimp only
          omega
      · rw [if_neg heq] at hrun
        rw [hkept, if_neg heq]
        by_cases hseen : 0 < s.lastSeenCount
        · rw [if_pos hseen] at hrun
          cases hrun
          obtain ⟨values', hstored', hagrees'⟩ := h.flush uninitialized hseen hlt.le
          refine ⟨⟨⟨values', hstored', hagrees'.append (.cons (fun _ => rfl) .nil)⟩, fun hv => absurd hv hnull⟩, ?_, Nat.one_pos, hpos⟩
          exact if_neg hnull
        · rw [if_neg hseen] at hrun
          cases hrun
          rw [show s.lastSeenCount = 0 by omega, List.replicate_zero, List.append_nil] at hagrees
          refine ⟨⟨⟨values, hstored, hagrees.append (.cons (fun _ => rfl) .nil)⟩, fun hv => absurd hv hnull⟩, ?_, Nat.one_pos, hpos⟩
          exact if_neg hnull

theorem Followed.update (h : Followed type size rows s c) (uninitialized : Nat → Cells UInt8)
    (hlt : s.lastSeenCount < maximumRleCount) (row : T × Bool) :
    ∃ s' c', s.update type (CompressState.writeValue type size uninitialized) row c = (s', c')
      ∧ Followed type size (rows ++ [keptRow type s.last row]) s' c' ∧ s'.last = nextLast type s.last row
      ∧ s'.lastSeenCount < maximumRleCount := by
  cases hrun : s.updateRun type (CompressState.writeValue type size uninitialized) row c with
  | mk s' c' =>
    obtain ⟨h', hlast, hpos, hle⟩ := h.updateRun hlt row hrun
    unfold RLEState.update
    rw [hrun]
    dsimp only
    split
    next hfull =>
      obtain ⟨values, hstored, hagrees⟩ := h'.flush uninitialized hpos hle
      refine ⟨_, _, rfl, ⟨⟨values, hstored, by simpa using hagrees⟩, h'.allNull⟩, hlast, ?_⟩
      show 0 < maximumRleCount
      decide
    next hroom => exact ⟨s', c', rfl, h', hlast, by omega⟩

theorem Followed.foldl (uninitialized : Nat → Cells UInt8) : ∀ (rest : List (T × Bool)) {rows : List (T × Bool)} {s : RLEState T} {c : CompressState},
    Followed type size rows s c → s.lastSeenCount < maximumRleCount → ∃ s' c',
      rest.foldl (fun (s, c) row => s.update type (CompressState.writeValue type size uninitialized) row c) (s, c) = (s', c')
        ∧ Followed type size (rows ++ kept type s.last rest) s' c' ∧ s'.lastSeenCount < maximumRleCount
  | [], rows, s, c, h, hlt => ⟨s, c, rfl, by rwa [kept, List.append_nil], hlt⟩
  | row :: rest, rows, s, c, h, hlt => by
    obtain ⟨s', c', heq, h', hlast, hlt'⟩ := h.update uninitialized hlt row
    obtain ⟨s'', c'', heq', h'', hlt''⟩ := Followed.foldl uninitialized rest h' hlt'
    refine ⟨s'', c'', ?_, ?_, hlt''⟩
    · rw [List.foldl_cons]
      dsimp only
      rw [heq]
      exact heq'
    · rw [hlast, List.append_assoc, List.singleton_append] at h''
      exact h''

/-- The segments hold the values that are kept of the rows. -/
theorem compress_spec (type : FixedWidth T) (size : BlockSize) (uninitialized : Nat → Cells UInt8) (rows : List (T × Bool)) :
    ∃ parts, List.Forall₂ (SegmentOf type size) (compress type size uninitialized rows) parts
      ∧ Agrees (kept type none rows) (parts.map expand).flatten := by
  have hnew : Followed type size [] (RLEState.new type) (CompressState.new uninitialized) := followed_new
  have hzero : (RLEState.new type).lastSeenCount < maximumRleCount := by
    show 0 < maximumRleCount
    decide
  obtain ⟨s, c, heq, h, hlt⟩ := Followed.foldl uninitialized rows hnew hzero
  obtain ⟨values, hstored, hagrees⟩ := h.stored
  have hmax : maximumRleCount < 2 ^ 16 := by decide
  obtain ⟨parts, hparts, hflatten⟩ := hstored.finalize uninitialized s.lastValue s.allNull
    (show s.lastSeenCount < 2 ^ 16 by omega)
  refine ⟨parts, ?_, ?_⟩
  · unfold compress
    dsimp only
    rw [heq]
    exact hparts
  · rw [hflatten]
    exact hagrees

end Haybarn.Rle
