/-
Reading RLE segments: the model of the scans of `rle.cpp`. A scan state is a place in the runs of a segment, which every
operation moves on: scans of whole vectors and of parts of them, skips, selections, and filters, which test each run once.

What the operations of a scan state do to its place: each moves on by the rows it is asked for, and reads the values of these
rows. One turn of a loop stays within a run or ends at the start of the next one.
-/
import Haybarn.Lib.Outcome
import Haybarn.Rle.Compress
import Haybarn.Lib.RunLength

namespace Haybarn.Rle

open Lib Lib.RunLength Wal Nat
open Metadata (BlockSize)

variable {T : Type} (type : FixedWidth T)

/-- A difference of unsigned words. -/
def sub64 (a b : Nat) : Nat := (a + 2 ^ 64 - b) % 2 ^ 64

def standardVectorSize : Nat := 2048

/-! ## Scan states -/

/-- `RLEScanState`. The pointers go into the pinned block. -/
structure RLEScanState (T : Type) where
  entryPos : Nat
  positionInEntry : Nat
  rleCountOffset : Nat
  dataPointer : Nat → T
  indexPointer : Nat → Nat
  maxEntryPos : Nat
  matchingRuns : Option (Nat → Bool)
  matchingRunCount : Nat

/-- A vector of values: the data, and whether the first of them stands for all. -/
structure ResultVector (T : Type) where
  data : Nat → T
  constant : Bool

def ResultVector.value (v : ResultVector T) (i : Nat) : T := if v.constant = true then v.data 0 else v.data i

namespace RLEScanState

/-- The constructor, for a segment at an offset of a block. -/
def new (size : BlockSize) (block : Cells UInt8) (blockOffset : Nat) : Outcome (RLEScanState T) :=
  let rleCountOffset := wordValue (block.read blockOffset 8) % 2 ^ 32
  let maxEntryPos := sub64 (blockSize size) (blockOffset + rleCountOffset) / sizeofRleCount
  if rleCountOffset < rleHeaderSize then
    .error "Corrupted RLE segment: rle_count_offset is smaller than the header size. The index_pointer would point into the region reserved for the header data"
  else if blockSize size < blockOffset + rleCountOffset then
    .error "Corrupted RLE segment: rle_count_offset exceeds the block size. The index_pointer would start outside of the segment"
  else if alignValue (rleHeaderSize + maxEntryPos * type.size) < rleCountOffset then
    .error "Corrupted RLE segment: rle_count_offset has more values than fit in the segment. index_pointer[entry_pos] would reach outside of the segment"
  else
    .done
      { entryPos := 0
        positionInEntry := 0
        rleCountOffset
        dataPointer := fun e => type.ofBytes (block.read (blockOffset + rleHeaderSize + e * type.size) type.size)
        indexPointer := fun e => wordValue (block.read (blockOffset + rleCountOffset + e * sizeofRleCount) sizeofRleCount)
        maxEntryPos
        matchingRuns := none
        matchingRunCount := 0 }

def exhaustedRun (s : RLEScanState T) : Bool := s.indexPointer s.entryPos ≤ s.positionInEntry

def forwardToNextRun (s : RLEScanState T) : Outcome (RLEScanState T) :=
  if s.maxEntryPos < s.entryPos + 1 then
    .error "Corrupted RLE segment: index_pointer[entry_pos] would reach outside of the blocks memory"
  else .done { s with entryPos := s.entryPos + 1, positionInEntry := 0 }

/-- The end of a move within a run. -/
def forwardIfExhausted (s : RLEScanState T) : Outcome (RLEScanState T) :=
  if s.exhaustedRun = true then s.forwardToNextRun else .done s

/-- How many rows of the current run are left. -/
def runCount (s : RLEScanState T) : Nat := sub64 (s.indexPointer s.entryPos) s.positionInEntry

/-- The element of the current run. -/
def element (s : RLEScanState T) : T := s.dataPointer s.entryPos

/-- One turn of `SkipInternal`. -/
def skipTurn : RLEScanState T × Nat → Outcome (RLEScanState T × Nat)
  | (s, skipCount) =>
    let skipAmount := min skipCount s.runCount
    let s := { s with positionInEntry := s.positionInEntry + skipAmount }
    s.forwardIfExhausted >>= fun s => .done (s, skipCount - skipAmount)

/-- `SkipInternal`. Every turn skips a row or goes on to the next run. -/
def skipInternal (s : RLEScanState T) (skipCount : Nat) : Outcome (RLEScanState T) :=
  Outcome.loop (fun (_, skipCount) => decide (0 < skipCount)) skipTurn (skipCount + s.maxEntryPos + 2) (s, skipCount)
    >>= fun (s, _) => .done s

end RLEScanState

/-! ## Scans -/

/-- `CanEmitConstantVector`, for a vector that is scanned as a whole. -/
def canEmitConstantVector (s : RLEScanState T) (scanCount : Nat) : Bool :=
  scanCount = standardVectorSize ∧ scanCount ≤ s.runCount

def rleScanConstant (s : RLEScanState T) (scanCount : Nat) (result : ResultVector T) :
    Outcome (RLEScanState T × ResultVector T) :=
  { s with positionInEntry := s.positionInEntry + scanCount }.forwardIfExhausted >>= fun s' =>
    .done (s', ⟨Function.update result.data 0 s.element, true⟩)

/-- Values that are written from an offset on. -/
def fillData (data : Nat → T) (offset count : Nat) (v : T) : Nat → T := Cells.fill data offset (offset + count) v

/-- One turn of `RLEScanPartialInternal`: the state, the data and the offset. -/
def scanTurn (resultEnd : Nat) : RLEScanState T × (Nat → T) × Nat → Outcome (RLEScanState T × (Nat → T) × Nat)
  | (s, data, resultOffset) =>
    let remainingScanCount := resultEnd - resultOffset
    if remainingScanCount < s.runCount then
      -- the run goes on behind the rows that are scanned, and the loop is left
      .done ({ s with positionInEntry := s.positionInEntry + remainingScanCount },
        fillData data resultOffset remainingScanCount s.element, resultEnd)
    else
      s.forwardToNextRun >>= fun s' =>
        .done (s', fillData data resultOffset s.runCount s.element, resultOffset + s.runCount)

def rleScanPartialInternal (entireVector : Bool) (s : RLEScanState T) (scanCount : Nat) (result : ResultVector T)
    (resultOffset : Nat) : Outcome (RLEScanState T × ResultVector T) :=
  if entireVector = true ∧ canEmitConstantVector s scanCount = true then rleScanConstant s scanCount result
  else
    let resultEnd := resultOffset + scanCount
    Outcome.loop (fun (_, _, resultOffset) => decide (resultOffset < resultEnd)) (scanTurn resultEnd)
        (scanCount + s.maxEntryPos + 2) (s, result.data, resultOffset)
      >>= fun (s, data, _) => .done (s, ⟨data, false⟩)

def rleScanPartial (s : RLEScanState T) (scanCount : Nat) (result : ResultVector T) (resultOffset : Nat) :
    Outcome (RLEScanState T × ResultVector T) :=
  rleScanPartialInternal false s scanCount result resultOffset

def rleScan (s : RLEScanState T) (scanCount : Nat) (result : ResultVector T) : Outcome (RLEScanState T × ResultVector T) :=
  rleScanPartialInternal true s scanCount result 0

/-! ## Selections -/

/-- The loop of `RLESelect`, for the rows that are selected from `i` on. -/
def selectLoop : List Nat → Nat → Nat → RLEScanState T → (Nat → T) → Outcome (RLEScanState T × (Nat → T) × Nat)
  | [], _, prevIdx, s, data => .done (s, data, prevIdx)
  | nextIdx :: sel, i, prevIdx, s, data =>
    if nextIdx < prevIdx then .error "Error in RLESelect - selection vector indices are not ordered"
    else
      s.skipInternal (nextIdx - prevIdx) >>= fun s => selectLoop sel (i + 1) nextIdx s (Function.update data i s.element)

def rleSelect (s : RLEScanState T) (vectorCount : Nat) (result : ResultVector T) (sel : List Nat) :
    Outcome (RLEScanState T × ResultVector T) :=
  if canEmitConstantVector s vectorCount = true then rleScanConstant s vectorCount result
  else
    selectLoop sel 0 0 s result.data >>= fun (s, data, prevIdx) =>
      s.skipInternal (vectorCount - prevIdx) >>= fun s => .done (s, ⟨data, false⟩)

/-! ## Filters -/

/-- A selection vector, where it is set, and how many rows of it count. -/
structure Selection where
  sel : Option (List Nat)
  selCount : Nat
deriving DecidableEq, Repr

/-- The rows that are selected. -/
def Selection.rows (selection : Selection) : List Nat :=
  match selection.sel with
  | none => List.range selection.selCount
  | some sel => sel.take selection.selCount

/-- The first part of `RLEFilter`: the filter is executed over all runs at once, the first time. -/
def executeFilter (filter : T → Bool) (s : RLEScanState T) : RLEScanState T :=
  match s.matchingRuns with
  | some _ => s
  | none =>
    let totalRunCount := (s.rleCountOffset - rleHeaderSize) / type.size
    { s with
      matchingRuns := some fun e => decide (e < totalRunCount) && filter (s.dataPointer e)
      matchingRunCount := (List.range totalRunCount).countP fun e => filter (s.dataPointer e) }

/-- One turn of `RLEFilter` without a selection: the state, the data, the offset and the rows that match. -/
def filterTurn (matches' : Nat → Bool) (resultEnd : Nat) : RLEScanState T × (Nat → T) × Nat × List Nat →
    Outcome (RLEScanState T × (Nat → T) × Nat × List Nat)
  | (s, data, resultOffset, matching) =>
    let remainingScanCount := resultEnd - resultOffset
    let emit (count : Nat) : (Nat → T) × List Nat :=
      if matches' s.entryPos = true then
        (fillData data resultOffset count s.element, matching ++ List.range' resultOffset count)
      else (data, matching)
    if remainingScanCount < s.runCount then
      let (data, matching) := emit remainingScanCount
      .done ({ s with positionInEntry := s.positionInEntry + remainingScanCount }, data, resultEnd, matching)
    else
      let (data, matching) := emit s.runCount
      s.forwardToNextRun >>= fun s' => .done (s', data, resultOffset + s.runCount, matching)

/-- The loop of `RLEFilter` over a selection. -/
def filterLoop (matches' : Nat → Bool) : List Nat → Nat → RLEScanState T → (Nat → T) → List Nat →
    Outcome (RLEScanState T × (Nat → T) × Nat × List Nat)
  | [], prevIdx, s, data, matching => .done (s, data, prevIdx, matching)
  | readIdx :: sel, prevIdx, s, data, matching =>
    if readIdx < prevIdx then .error "Error in RLEFilter - selection vector indices are not ordered"
    else
      s.skipInternal (readIdx - prevIdx) >>= fun s =>
        if matches' s.entryPos = true then
          filterLoop matches' sel readIdx s (Function.update data readIdx s.element) (matching ++ [readIdx])
        else filterLoop matches' sel readIdx s data matching

/-- The end of `RLEFilter`: the selection is replaced where it got smaller. -/
def Selection.restrict (selection : Selection) (matching : List Nat) : Selection :=
  if matching.length ≠ selection.selCount then ⟨some matching, matching.length⟩ else selection

def rleFilter (filter : T → Bool) (s : RLEScanState T) (vectorCount : Nat) (result : ResultVector T) (selection : Selection) :
    Outcome (RLEScanState T × ResultVector T × Selection) :=
  let s := executeFilter type filter s
  let matches' := s.matchingRuns.getD fun _ => false
  -- early-out: the filter can never pass, and the state stays where it is
  if s.matchingRunCount = 0 then .done (s, result, { selection with selCount := 0 })
  else
    match selection.sel with
    | none =>
      let resultEnd := selection.selCount
      Outcome.loop (fun (_, _, resultOffset, _) => decide (resultOffset < resultEnd)) (filterTurn matches' resultEnd)
          (resultEnd + s.maxEntryPos + 2) (s, result.data, 0, [])
        >>= fun (s, data, _, matching) => .done (s, ⟨data, false⟩, selection.restrict matching)
    | some sel =>
      filterLoop matches' (sel.take selection.selCount) 0 s result.data [] >>= fun (s, data, prevIdx, matching) =>
        s.skipInternal (vectorCount - prevIdx) >>= fun s => .done (s, ⟨data, false⟩, selection.restrict matching)

/-! ## Fetching -/

def rleFetchRow (size : BlockSize) (block : Cells UInt8) (blockOffset rowId : Nat) (result : ResultVector T) (resultIdx : Nat) :
    Outcome (ResultVector T) :=
  RLEScanState.new type size block blockOffset >>= fun s =>
    s.skipInternal rowId >>= fun s =>
      .done { result with data := Function.update result.data resultIdx s.element }

variable {type} {runs : List (T × Nat)} {base s s' : RLEScanState T} {r k : Nat}

theorem sub64_eq {a b : Nat} (h : b ≤ a) (ha : a < 2 ^ 64) : sub64 a b = a - b := by
  unfold sub64
  omega

/-! ## Places -/

/-- The pointers of a scan state lead to the runs of its segment. -/
structure Pointers (type : FixedWidth T) (runs : List (T × Nat)) (s : RLEScanState T) : Prop where
  data : ∀ e run, runs[e]? = some run → s.dataPointer e = run.1
  index : ∀ e run, runs[e]? = some run → s.indexPointer e = run.2
  count_lt : ∀ run ∈ runs, run.2 < 2 ^ 16
  filled : Filled runs
  length_le : runs.length ≤ s.maxEntryPos
  tested : runs.length ≤ (s.rleCountOffset - rleHeaderSize) / type.size

/-- A scan state that has moved to a row, and is as it was in all else. -/
structure Reading (runs : List (T × Nat)) (base s : RLEScanState T) (r : Nat) : Prop where
  same : s = { base with entryPos := s.entryPos, positionInEntry := s.positionInEntry }
  place : At runs s.entryPos s.positionInEntry r

theorem Reading.start (hp : Pointers type runs s) (he : s.entryPos = 0) (hpos : s.positionInEntry = 0) :
    Reading runs s s 0 where
  same := rfl
  place := by
    rw [he, hpos, ← before_zero runs]
    exact hp.filled.at (Nat.zero_le _)

theorem Reading.run (hp : Pointers type runs base) (h : Reading runs base s r) (hr : r < (expand runs).length) : ∃ run,
    runs[s.entryPos]? = some run ∧ s.positionInEntry < run.2 ∧ run.2 < 2 ^ 16 ∧ s.indexPointer s.entryPos = run.2
      ∧ s.element = run.1 ∧ s.runCount = run.2 - s.positionInEntry
      ∧ r + s.runCount ≤ (expand runs).length ∧ s.entryPos < s.maxEntryPos := by
  obtain ⟨run, hrun, hlt⟩ := h.place.inRun hr
  have hsmall := hp.count_lt run (List.mem_of_getElem? hrun)
  have hindex : s.indexPointer s.entryPos = run.2 := by
    rw [h.same]
    exact hp.index _ _ hrun
  have hdata : s.dataPointer s.entryPos = run.1 := by
    rw [h.same]
    exact hp.data _ _ hrun
  have hcount : s.runCount = run.2 - s.positionInEntry := by
    unfold RLEScanState.runCount
    rw [hindex, sub64_eq hlt.le (by omega)]
  have hentry : s.entryPos < s.maxEntryPos := by
    have hmax : s.maxEntryPos = base.maxEntryPos := by rw [h.same]
    have hlength := hp.length_le
    have hlt := (List.getElem?_eq_some_iff.1 hrun).1
    omega
  refine ⟨run, hrun, hlt, hsmall, hindex, hdata, hcount, ?_, hentry⟩
  rw [hcount]
  exact h.place.le_length hrun hlt.le

theorem Reading.element (hp : Pointers type runs base) (h : Reading runs base s r) (hr : r < (expand runs).length) :
    (expand runs)[r]? = some s.element := by
  obtain ⟨run, hrun, hlt, -, -, helement, -⟩ := h.run hp hr
  rw [helement]
  exact h.place.value (k := 0) hrun hlt

theorem Reading.elements (hp : Pointers type runs base) (h : Reading runs base s r) (hr : r < (expand runs).length) {i : Nat}
    (hi : i < s.runCount) : (expand runs)[r + i]? = some s.element := by
  obtain ⟨run, hrun, hlt, -, -, helement, hcount, -⟩ := h.run hp hr
  rw [helement]
  exact h.place.value hrun (by omega)

theorem Reading.advance (hp : Pointers type runs base) (h : Reading runs base s r) (hr : r < (expand runs).length)
    (hk : k < s.runCount) : Reading runs base { s with positionInEntry := s.positionInEntry + k } (r + k) where
  same := by rw [h.same]
  place := by
    obtain ⟨run, hrun, hlt, -, -, -, hcount, -⟩ := h.run hp hr
    exact h.place.advance hrun (by omega)

theorem Reading.forward (hp : Pointers type runs base) (h : Reading runs base s r) (hr : r < (expand runs).length)
    (position : Nat) : ({ s with positionInEntry := position } : RLEScanState T).forwardToNextRun.Returns fun s' =>
      Reading runs base s' (r + s.runCount) := by
  obtain ⟨run, hrun, hlt, -, -, -, hcount, -, hentry⟩ := h.run hp hr
  unfold RLEScanState.forwardToNextRun
  rw [if_neg (by dsimp only; omega)]
  refine Outcome.returns_done ⟨?_, ?_⟩
  · rw [h.same]
  · exact h.place.next hp.filled hrun (by omega)

theorem Reading.forwardIfExhausted (hp : Pointers type runs base) (h : Reading runs base s r) (hr : r < (expand runs).length)
    (hk : k ≤ s.runCount) :
    ({ s with positionInEntry := s.positionInEntry + k } : RLEScanState T).forwardIfExhausted.Returns fun s' =>
      Reading runs base s' (r + k) := by
  obtain ⟨run, hrun, hlt, -, hindex, -, hcount, -⟩ := h.run hp hr
  unfold RLEScanState.forwardIfExhausted RLEScanState.exhaustedRun
  dsimp only
  rw [hindex]
  split
  next hend =>
    have hend : run.2 ≤ s.positionInEntry + k := by simpa using hend
    rw [show k = s.runCount by omega]
    exact h.forward hp hr _
  next hend =>
    have hend : s.positionInEntry + k < run.2 := by simpa using hend
    exact Outcome.returns_done (h.advance hp hr (by omega))

/-! ## Skips -/

theorem skipInternal_spec (hp : Pointers type runs base) (h : Reading runs base s r) (hk : r + k ≤ (expand runs).length) :
    (s.skipInternal k).Returns fun s' => Reading runs base s' (r + k) := by
  unfold RLEScanState.skipInternal
  refine (Outcome.returns_loop (I := fun p => p.2 ≤ k ∧ Reading runs base p.1 (r + (k - p.2))) (μ := fun p => p.2) ?_
    ⟨le_refl k, by simpa using h⟩ (by dsimp only; omega)).bind ?_
  · rintro ⟨s', k'⟩ ⟨hle, h'⟩ hcond
    have hpos : 0 < k' := by simpa using hcond
    dsimp only at hle h'
    have hr : r + (k - k') < (expand runs).length := by omega
    obtain ⟨run, hrun, hlt, -, hindex, -, hcount, -⟩ := h'.run hp hr
    unfold RLEScanState.skipTurn
    dsimp only
    refine (h'.forwardIfExhausted hp hr (min_le_right k' s'.runCount)).bind fun s'' h'' => Outcome.returns_done ?_
    dsimp only
    have hmin : 0 < min k' s'.runCount := by omega
    have hmin' := min_le_left k' s'.runCount
    rw [show r + (k - k') + min k' s'.runCount = r + (k - (k' - min k' s'.runCount)) by omega] at h''
    exact ⟨⟨by omega, h''⟩, by omega⟩
  · rintro ⟨s', k'⟩ ⟨⟨hle, h'⟩, hend⟩
    have hend : k' = 0 := by simpa using hend
    subst hend
    exact Outcome.returns_done h'

/-! ## Runs of a scan -/

/-- What a scan leaves: the values of its rows from an offset on, and the rest of the data as it was. -/
structure Scanned (values : List T) (r n offset : Nat) (old data : Nat → T) : Prop where
  values : ∀ i < n, values[r + i]? = some (data (offset + i))
  frame : ∀ j, j < offset ∨ offset + n ≤ j → data j = old j

theorem fillData_apply (data : Nat → T) (offset count : Nat) (v : T) (j : Nat) :
    fillData data offset count v j = if offset ≤ j ∧ j < offset + count then v else data j := rfl

variable {n : Nat}

theorem Scanned.fill {values : List T} {m offset : Nat} {old data : Nat → T} {v : T} (h : Scanned values r n offset old data)
    (hv : ∀ i < m, values[r + n + i]? = some v) : Scanned values r (n + m) offset old (fillData data (offset + n) m v) where
  values := by
    intro i hi
    rw [fillData_apply]
    split
    · have hvalue := hv (i - n) (by omega)
      rwa [show r + n + (i - n) = r + i by omega] at hvalue
    · exact h.values i (by omega)
  frame := by
    intro j hj
    rw [fillData_apply, if_neg (by omega)]
    exact h.frame j (by omega)

/-- One turn of a scan. -/
theorem scanTurn_spec (hp : Pointers type runs base) {m offset : Nat} {old data : Nat → T} (hm : m < n)
    (hr : r + n ≤ (expand runs).length) (h : Reading runs base s (r + m))
    (hscanned : Scanned (expand runs) r m offset old data) :
    (scanTurn (offset + n) (s, data, offset + m)).Returns fun p => ∃ m', m < m' ∧ m' ≤ n ∧ p.2.2 = offset + m'
      ∧ Reading runs base p.1 (r + m') ∧ Scanned (expand runs) r m' offset old p.2.1 := by
  have hlt : r + m < (expand runs).length := by omega
  obtain ⟨run, -, hpos, -, -, -, hcount, hfits, -⟩ := h.run hp hlt
  have hfill : ∀ k ≤ s.runCount, Scanned (expand runs) r (m + k) offset old (fillData data (offset + m) k s.element) :=
    fun k hk => hscanned.fill fun i hi => h.elements hp hlt (by omega)
  unfold scanTurn
  dsimp only
  rw [show offset + n - (offset + m) = n - m by omega]
  split
  next hend =>
    refine Outcome.returns_done ⟨n, hm, le_refl n, rfl, ?_, ?_⟩
    · have hmoved := h.advance hp hlt hend
      rwa [show r + m + (n - m) = r + n by omega] at hmoved
    · have hdata := hfill (n - m) (by omega)
      rwa [show m + (n - m) = n by omega] at hdata
  next hend =>
    refine (h.forward hp hlt s.positionInEntry).bind fun s' h' => Outcome.returns_done ?_
    refine ⟨m + s.runCount, by omega, by omega, by dsimp only; omega, ?_, hfill _ (le_refl _)⟩
    rwa [← add_assoc]

/-- A whole vector of one run. -/
theorem rleScanConstant_spec (hp : Pointers type runs base) (h : Reading runs base s r) (hn : 0 < n)
    (hr : r + n ≤ (expand runs).length) (hcount : n ≤ s.runCount) (result : ResultVector T) :
    (rleScanConstant s n result).Returns fun p => Reading runs base p.1 (r + n)
      ∧ ∀ i < n, ∀ j, (expand runs)[r + i]? = some (p.2.value j) := by
  have hlt : r < (expand runs).length := by omega
  unfold rleScanConstant
  refine (h.forwardIfExhausted hp hlt hcount).bind fun s' h' => Outcome.returns_done ⟨h', fun i hi j => ?_⟩
  unfold ResultVector.value
  dsimp only
  rw [if_pos rfl, Function.update_self]
  exact h.elements hp hlt (by omega)

/-- A scan that goes through the runs. -/
theorem scanLoop_spec (hp : Pointers type runs base) (h : Reading runs base s r) (hr : r + n ≤ (expand runs).length)
    (data : Nat → T) (offset : Nat) :
    (Outcome.loop (fun (p : RLEScanState T × (Nat → T) × Nat) => decide (p.2.2 < offset + n)) (scanTurn (offset + n))
      (n + s.maxEntryPos + 2) (s, data, offset)).Returns fun p => Reading runs base p.1 (r + n)
        ∧ Scanned (expand runs) r n offset data p.2.1 := by
  refine (Outcome.returns_loop (I := fun p => ∃ m ≤ n, p.2.2 = offset + m ∧ Reading runs base p.1 (r + m)
    ∧ Scanned (expand runs) r m offset data p.2.1) (μ := fun p => offset + n - p.2.2) ?_ ?_ (by dsimp only; omega)).mono ?_
  · rintro ⟨s', data', o⟩ ⟨m, hm, ho, h', hscanned⟩ hcond
    dsimp only at ho h' hscanned
    subst ho
    have hlt : m < n := by simpa using hcond
    refine (scanTurn_spec hp hlt hr h' hscanned).mono ?_
    rintro ⟨s'', data'', o⟩ ⟨m', hlt', hle', ho, h'', hscanned'⟩
    dsimp only at ho
    subst ho
    exact ⟨⟨m', hle', rfl, h'', hscanned'⟩, by dsimp only; omega⟩
  · exact ⟨0, Nat.zero_le n, rfl, h, ⟨fun i hi => absurd hi (Nat.not_lt_zero i), fun _ _ => rfl⟩⟩
  · rintro ⟨s', data', o⟩ ⟨⟨m, hm, ho, h', hscanned⟩, hend⟩
    dsimp only at ho h' hscanned
    subst ho
    have hge : n ≤ m := by simpa using hend
    obtain rfl : m = n := by omega
    exact ⟨h', hscanned⟩

/-- `RLEScan` reads the rows from the start of a vector on. -/
theorem rleScan_spec (hp : Pointers type runs base) (h : Reading runs base s r) (hr : r + n ≤ (expand runs).length)
    (result : ResultVector T) : (rleScan s n result).Returns fun p => Reading runs base p.1 (r + n)
      ∧ ∀ i < n, (expand runs)[r + i]? = some (p.2.value i) := by
  unfold rleScan rleScanPartialInternal
  split
  next hconst =>
    obtain ⟨hn, hcount⟩ : n = standardVectorSize ∧ n ≤ s.runCount := by simpa [canEmitConstantVector] using hconst.2
    exact (rleScanConstant_spec hp h (by unfold standardVectorSize at hn; omega) hr hcount result).mono
      fun p hp' => ⟨hp'.1, fun i hi => hp'.2 i hi i⟩
  · refine (scanLoop_spec hp h hr result.data 0).bind fun p hp' => Outcome.returns_done ⟨hp'.1, fun i hi => ?_⟩
    have hvalue := hp'.2.values i hi
    rwa [zero_add] at hvalue

/-- `RLEScanPartial` reads the rows from an offset on. -/
theorem rleScanPartial_spec (hp : Pointers type runs base) (h : Reading runs base s r)
    (hr : r + n ≤ (expand runs).length) (result : ResultVector T) (offset : Nat) :
    (rleScanPartial s n result offset).Returns fun p => Reading runs base p.1 (r + n) ∧ p.2.constant = false
      ∧ Scanned (expand runs) r n offset result.data p.2.data := by
  unfold rleScanPartial rleScanPartialInternal
  rw [if_neg (by simp)]
  exact (scanLoop_spec hp h hr result.data offset).bind fun p hp' => Outcome.returns_done ⟨hp'.1, rfl, hp'.2⟩

/-! ## Selected rows -/

/-- The rows of a selection are in order, and in the vector. -/
structure Ordered (sel : List Nat) (n : Nat) : Prop where
  sorted : sel.Pairwise (· ≤ ·)
  lt : ∀ idx ∈ sel, idx < n

theorem selectLoop_spec (hp : Pointers type runs base) {n : Nat} (hr : r + n ≤ (expand runs).length) :
    ∀ (sel : List Nat) (i prev : Nat) {s : RLEScanState T} {data : Nat → T}, Ordered sel n → prev ≤ n → (∀ idx ∈ sel, prev ≤ idx) →
      Reading runs base s (r + prev) → (selectLoop sel i prev s data).Returns fun p => p.2.2 ≤ n
        ∧ Reading runs base p.1 (r + p.2.2) ∧ (∀ j < i, p.2.1 j = data j)
        ∧ ∀ j idx, sel[j]? = some idx → (expand runs)[r + idx]? = some (p.2.1 (i + j))
  | [], i, prev, s, data, _, hprev, _, h => Outcome.returns_done ⟨hprev, h, fun _ _ => rfl, by simp⟩
  | next :: sel, i, prev, s, data, hsel, hprev, hle, h => by
    have hprevNext := hle next List.mem_cons_self
    have hnext := hsel.lt next List.mem_cons_self
    obtain ⟨hfirst, hsorted⟩ := List.pairwise_cons.1 hsel.sorted
    unfold selectLoop
    rw [if_neg (Nat.not_lt.2 hprevNext)]
    refine (skipInternal_spec hp h (show r + prev + (next - prev) ≤ _ by omega)).bind fun s' h' => ?_
    rw [show r + prev + (next - prev) = r + next by omega] at h'
    refine (selectLoop_spec hp hr sel (i + 1) next ⟨hsorted, fun idx hidx => hsel.lt idx (List.mem_cons_of_mem _ hidx)⟩ hnext.le
      hfirst h').mono ?_
    rintro ⟨s'', data', prev'⟩ ⟨hprev', h'', hframe, hvalues⟩
    dsimp only at hprev' h'' hframe hvalues ⊢
    refine ⟨hprev', h'', fun j hj => ?_, fun j idx hidx => ?_⟩
    · rw [hframe j (by omega), Function.update_of_ne (by omega)]
    · cases j with
      | zero =>
        obtain rfl : next = idx := by simpa using hidx
        rw [Nat.add_zero, hframe i (Nat.lt_succ_self i), Function.update_self]
        exact h'.element hp (by omega)
      | succ j =>
        rw [show i + (j + 1) = i + 1 + j by omega]
        exact hvalues j idx (by simpa using hidx)

/-- `RLESelect` reads the selected rows, one behind the other. -/
theorem rleSelect_spec (hp : Pointers type runs base) (h : Reading runs base s r) (hr : r + n ≤ (expand runs).length)
    (result : ResultVector T) {sel : List Nat} (hsel : Ordered sel n) :
    (rleSelect s n result sel).Returns fun p => Reading runs base p.1 (r + n)
      ∧ ∀ i idx, sel[i]? = some idx → (expand runs)[r + idx]? = some (p.2.value i) := by
  unfold rleSelect
  split
  next hconst =>
    obtain ⟨hn, hcount⟩ : n = standardVectorSize ∧ n ≤ s.runCount := by simpa [canEmitConstantVector] using hconst
    refine (rleScanConstant_spec hp h (by unfold standardVectorSize at hn; omega) hr hcount result).mono ?_
    exact fun p hp' => ⟨hp'.1, fun i idx hidx => hp'.2 idx (hsel.lt idx (List.mem_of_getElem? hidx)) i⟩
  · refine (selectLoop_spec hp hr sel 0 0 hsel (Nat.zero_le n) (fun _ _ => Nat.zero_le _) h).bind ?_
    rintro ⟨s', data, prev⟩ ⟨hprev, h', -, hvalues⟩
    dsimp only at hprev h' hvalues ⊢
    refine (skipInternal_spec hp h' (show r + prev + (n - prev) ≤ _ by omega)).bind fun s'' h'' => Outcome.returns_done ?_
    rw [show r + prev + (n - prev) = r + n by omega] at h''
    refine ⟨h'', fun i idx hidx => ?_⟩
    have hvalue := hvalues i idx hidx
    rwa [Nat.zero_add] at hvalue

end Haybarn.Rle
