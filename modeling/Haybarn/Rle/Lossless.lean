/-
RLE is lossless but for one thing: `==` takes the two zeroes of a floating point type for the same, and a run keeps the first.
A segment reads its values back, wherever in a block it lies, by scans, skips and selections in any order and by fetches, and
filters leave the rows that a scan and a test of each row would leave.
-/
import Haybarn.Rle.Filter
import Haybarn.Rle.Stored

namespace Haybarn.Rle

open Lib Lib.RunLength Wal Outcome Nat List
open Metadata (BlockSize)

variable {T : Type} {type : FixedWidth T} {size : BlockSize} {uninitialized : Nat → Cells UInt8} {segment : Segment}
  {runs : List (T × Nat)} {values : List T} {rows : List (T × Bool)}

/-! ## Requests -/

/-- What a scan of a column without a filter asks of a segment. -/
inductive ScanRequest where
  | scan (count : Nat)
  | scanPartial (count offset : Nat)
  | skip (count : Nat)
  | select (count : Nat) (sel : List Nat)

namespace ScanRequest

def count : ScanRequest → Nat
  | scan count | scanPartial count _ | skip count | select count _ => count

/-- The vector is that which the result is written to. -/
def serve (s : RLEScanState T) : ScanRequest × ResultVector T → Outcome (RLEScanState T × ResultVector T)
  | (scan count, result) => rleScan s count result
  | (scanPartial count offset, result) => rleScanPartial s count result offset
  | (skip count, result) => s.skipInternal count >>= fun s => .done (s, result)
  | (select count sel, result) => rleSelect s count result sel

/-- A selection has rows of the vector, in order. -/
def Allowed : ScanRequest → Prop
  | select count sel => Ordered sel count
  | _ => True

/-- The values that are asked for, and nothing else of the vector that a part is scanned to. -/
def Answered (values : List T) (r : Nat) : ScanRequest × ResultVector T → ResultVector T → Prop
  | (scan count, _), v => ∀ i < count, values[r + i]? = some (v.value i)
  | (scanPartial count offset, result), v => v.constant = false ∧ Scanned values r count offset result.data v.data
  | (skip _, result), v => v = result
  | (select _ sel, _), v => ∀ i idx, sel[i]? = some idx → values[r + idx]? = some (v.value i)

end ScanRequest

/-- What a scan of a column with a filter asks of a segment. Vectors that are scanned are tested afterwards. -/
inductive FilterRequest where
  | filter (count : Nat) (selection : Selection)
  | scan (count : Nat)
  | scanPartial (count offset : Nat)
  | skip (count : Nat)

/-- A value that is read for a row, when the filter is tested with it, says whether the row passes, and it is the value of
the row if so. -/
structure TestsAs (filter : T → Bool) (values : List T) (row : Nat) (v : T) : Prop where
  passes : filter v = Passes filter values row
  value : filter v = true → values[row]? = some v

namespace FilterRequest

def count : FilterRequest → Nat
  | filter count _ | scan count | scanPartial count _ | skip count => count

def serve (type : FixedWidth T) (test : T → Bool) (s : RLEScanState T) : FilterRequest × ResultVector T →
    Outcome (RLEScanState T × ResultVector T × Option Selection)
  | (filter count selection, result) =>
    rleFilter type test s count result selection >>= fun (s, v, selection) => .done (s, v, some selection)
  | (scan count, result) => rleScan s count result >>= fun (s, v) => .done (s, v, none)
  | (scanPartial count offset, result) => rleScanPartial s count result offset >>= fun (s, v) => .done (s, v, none)
  | (skip count, result) => s.skipInternal count >>= fun s => .done (s, result, none)

def Allowed : FilterRequest → Prop
  | filter count selection => selection.Ok count
  | _ => True

/-- A filter leaves the rows of the selection that pass, and their values. -/
def Answered (test : T → Bool) (values : List T) (r : Nat) : FilterRequest × ResultVector T →
    ResultVector T × Option Selection → Prop
  | (filter _ selection, _), (v, left) => ∃ selection', left = some selection'
      ∧ selection'.rows = selection.rows.filter (fun i => Passes test values (r + i))
      ∧ ∀ i ∈ selection'.rows, values[r + i]? = some (v.value i)
  | (scan count, _), (v, _) => ∀ i < count, TestsAs test values (r + i) (v.value i)
  | (scanPartial count offset, _), (v, _) => v.constant = false ∧ ∀ i < count, TestsAs test values (r + i) (v.data (offset + i))
  | (skip _, result), (v, _) => v = result

end FilterRequest

/-! ## Segments that read back -/

/-- The segment lies in a block, from an offset on. -/
structure Segment.Placed (segment : Segment) (size : BlockSize) (block : Cells UInt8) (blockOffset : Nat) : Prop where
  fits : blockOffset + segment.size ≤ blockSize size
  bytes : ∀ i < segment.size, block (blockOffset + i) = segment.bytes i

/-- A segment reads back its values. -/
structure Serves (type : FixedWidth T) (size : BlockSize) (segment : Segment) (values : List T) : Prop where
  count : segment.count = values.length
  fits : segment.size ≤ blockSize size
  scans : ∀ block blockOffset, segment.Placed size block blockOffset → ∃ s, RLEScanState.new type size block blockOffset = .done s
    ∧ ∀ requests, Outcome.Session ScanRequest.serve values.length (fun request => request.1.count)
      (fun request => request.1.Allowed) (ScanRequest.Answered values) 0 s requests
  filters : ∀ block blockOffset, segment.Placed size block blockOffset → ∀ test : T → Bool,
    ∃ s, RLEScanState.new type size block blockOffset = .done s
      ∧ ∀ requests, Outcome.Session (FilterRequest.serve type test) values.length (fun request => request.1.count)
        (fun request => request.1.Allowed) (FilterRequest.Answered test values) 0 s requests
  fetches : ∀ block blockOffset, segment.Placed size block blockOffset → ∀ row < values.length, ∀ result resultIdx,
    ∃ v, rleFetchRow type size block blockOffset row result resultIdx = .done v ∧ values[row]? = some (v.data resultIdx)
      ∧ ∀ j, j ≠ resultIdx → v.data j = result.data j

/-- The segments of a column read back a value for each row, and at the valid rows it is that of the row. -/
def Lossless (type : FixedWidth T) (size : BlockSize) (uninitialized : Nat → Cells UInt8) (rows : List (T × Bool)) : Prop :=
  ∃ parts, List.Forall₂ (Serves type size) (compress type size uninitialized rows) parts ∧ Agrees rows parts.flatten

/-! ## Scan states of segments -/

theorem blockSize_lt (size : BlockSize) : blockSize size < 2 ^ 32 := by
  have hmax := size.allocSize_le_max
  unfold blockSize
  omega

/-- The scan state of a segment that lies in a block is at its first run. -/
theorem new_spec (h : SegmentOf type size segment runs) {block : Cells UInt8} {blockOffset : Nat}
    (hplaced : segment.Placed size block blockOffset) : ∃ s, RLEScanState.new type size block blockOffset = .done s
      ∧ Pointers type runs s ∧ Reading runs s s 0 ∧ s.matchingRuns = none := by
  obtain ⟨hlow, hhigh, -⟩ := rleOffset_spec size h.length_le
  have hfits := hplaced.fits
  have hsize := h.size_eq
  have hblock := blockSize_lt size
  have hheaderSize : rleHeaderSize = 8 := rfl
  have hin : ∀ {p : Nat} {xs : List UInt8}, segment.bytes.Has p xs → p + xs.length ≤ segment.size →
      block.Has (blockOffset + p) xs := fun {p xs} hhas hle =>
    hhas.congr fun i hi => by rw [add_assoc, hplaced.bytes _ (by omega)]
  have hheader := hin h.header (by rw [writeWord_length]; omega)
  have hvalues := hin h.values (by rw [length_values]; omega)
  have hcounts := hin h.counts (by rw [length_counts, hsize])
  have hoffset : wordValue (block.read blockOffset 8) % 2 ^ 32 = rleOffset type runs.length := by
    rw [add_zero] at hheader
    rw [hheader.read_eq_of_length (writeWord_length _ _), wordValue_writeWord (by omega)]
    omega
  have hmax : sub64 (blockSize size) (blockOffset + rleOffset type runs.length) / sizeofRleCount
      = (blockSize size - (blockOffset + rleOffset type runs.length)) / 2 := by
    rw [sub64_eq (by omega) (by omega)]
    rfl
  have hroom : runs.length ≤ (blockSize size - (blockOffset + rleOffset type runs.length)) / 2 := by
    unfold sizeofRleCount at hsize
    omega
  have haligned : rleOffset type runs.length
      ≤ alignValue (rleHeaderSize + (blockSize size - (blockOffset + rleOffset type runs.length)) / 2 * type.size) := by
    have hmul := mul_le_mul_right type.size hroom
    rw [mul_comm _ type.size] at hmul
    unfold rleOffset alignValue at *
    omega
  have hpointers : Pointers type runs
      { entryPos := 0
        positionInEntry := 0
        rleCountOffset := rleOffset type runs.length
        dataPointer := fun e => type.ofBytes (block.read (blockOffset + rleHeaderSize + e * type.size) type.size)
        indexPointer := fun e => wordValue (block.read (blockOffset + rleOffset type runs.length + e * sizeofRleCount) sizeofRleCount)
        maxEntryPos := (blockSize size - (blockOffset + rleOffset type runs.length)) / 2
        matchingRuns := none
        matchingRunCount := 0 } := by
    constructor
    case data =>
      intro e run hrun
      have hhas := hvalues.flatMap (fun e => type.length_bytes e.1) hrun
      dsimp only
      rw [hhas.read_eq_of_length (type.length_bytes _), type.ofBytes_bytes]
    case index =>
      intro e run hrun
      have hhas := hcounts.flatMap (fun e => writeWord_length sizeofRleCount e.2) hrun
      have hsmall := h.small run (mem_of_getElem? hrun)
      dsimp only
      rw [hhas.read_eq_of_length (writeWord_length _ _), wordValue_writeWord]
      unfold sizeofRleCount
      omega
    case count_lt => exact h.small
    case filled => exact h.filled
    case length_le => exact hroom
    case tested =>
      rw [le_div_iff_mul_le type.size_pos]
      dsimp only
      omega
  refine ⟨_, ?_, hpointers, Reading.start hpointers rfl rfl, rfl⟩
  unfold RLEScanState.new
  dsimp only
  rw [hoffset, hmax, if_neg (by omega), if_neg (by omega), if_neg (by omega)]

/-! ## Reading back -/

theorem scanRequest_spec {base s : RLEScanState T} {r : Nat} (hp : Pointers type runs base) (h : Reading runs base s r)
    (request : ScanRequest × ResultVector T) (hallowed : request.1.Allowed) (hr : r + request.1.count ≤ (expand runs).length) :
    (ScanRequest.serve s request).Returns fun p => Reading runs base p.1 (r + request.1.count)
      ∧ ScanRequest.Answered (expand runs) r request p.2 := by
  obtain ⟨request, result⟩ := request
  cases request with
  | scan count => exact rleScan_spec hp h hr result
  | scanPartial count offset => exact rleScanPartial_spec hp h hr result offset
  | skip count => exact (skipInternal_spec hp h hr).bind fun s' h' => returns_done ⟨h', rfl⟩
  | select count sel => exact rleSelect_spec hp h hr result hallowed

/-- A scan with a filter is at its row, or behind in a segment of which no row passes. -/
def Filtering (type : FixedWidth T) (test : T → Bool) (runs : List (T × Nat)) (r : Nat) (s : RLEScanState T) : Prop :=
  ∃ base r', Pointers type runs base ∧ (base.matchingRuns = none ∨ Executed test runs base) ∧ Reading runs base s r' ∧ r' ≤ r
    ∧ (r' = r ∨ ∀ v ∈ expand runs, test v = false)

theorem testsAs_of_getElem? {test : T → Bool} {r r' : Nat} {v : T} (hv : values[r']? = some v)
    (h : r' = r ∨ ∀ v ∈ values, test v = false) : TestsAs test values r v := by
  rcases h with rfl | hnone
  · exact ⟨(passes_of_getElem? hv).symm, fun _ => hv⟩
  · have hfalse := hnone v (mem_of_getElem? hv)
    refine ⟨by rw [passes_eq_false hnone, hfalse], fun htrue => ?_⟩
    rw [hfalse] at htrue
    cases htrue

theorem filterRequest_spec {test : T → Bool} {s : RLEScanState T} {r : Nat} (h : Filtering type test runs r s)
    (request : FilterRequest × ResultVector T) (hallowed : request.1.Allowed) (hr : r + request.1.count ≤ (expand runs).length) :
    (FilterRequest.serve type test s request).Returns fun p => Filtering type test runs (r + request.1.count) p.1
      ∧ FilterRequest.Answered test (expand runs) r request p.2 := by
  obtain ⟨base, r', hp, hbase, hreading, hle, hbehind⟩ := h
  obtain ⟨request, result⟩ := request
  have hbehind' : ∀ i, r' + i = r + i ∨ ∀ v ∈ expand runs, test v = false := fun i =>
    hbehind.imp_left (congrArg (· + i))
  cases request with
  | filter count selection =>
    have hcount : r + count ≤ (expand runs).length := hr
    refine (rleFilter_spec hp hbase hreading (n := count) (by omega) result hallowed).bind ?_
    rintro ⟨s', v, selection'⟩ ⟨⟨base', hp', hexecuted, hmoved⟩, hrows, hvalues⟩
    dsimp only at hmoved hrows hvalues
    refine returns_done ⟨?_, selection', rfl, ?_, ?_⟩
    · rcases hmoved with hmoved | ⟨hmoved, hnone⟩
      · exact ⟨base', r' + count, hp', .inr hexecuted, hmoved, Nat.add_le_add_right hle _, hbehind' count⟩
      · exact ⟨base', r', hp', .inr hexecuted, hmoved, hle.trans (Nat.le_add_right _ _), .inr hnone⟩
    · rcases hbehind with rfl | hnone
      · exact hrows
      · rw [hrows]
        refine filter_congr fun i _ => ?_
        rw [passes_eq_false hnone, passes_eq_false hnone]
    · rcases hbehind with rfl | hnone
      · exact hvalues
      · intro i hi
        rw [hrows, mem_filter, passes_eq_false hnone] at hi
        cases hi.2
  | scan count =>
    have hcount : r + count ≤ (expand runs).length := hr
    refine (rleScan_spec hp hreading (n := count) (by omega) result).bind ?_
    rintro ⟨s', v⟩ ⟨hmoved, hvalues⟩
    exact returns_done ⟨⟨base, r' + count, hp, hbase, hmoved, Nat.add_le_add_right hle _, hbehind' count⟩,
      fun i hi => testsAs_of_getElem? (hvalues i hi) (hbehind' i)⟩
  | scanPartial count offset =>
    have hcount : r + count ≤ (expand runs).length := hr
    refine (rleScanPartial_spec hp hreading (n := count) (by omega) result offset).bind ?_
    rintro ⟨s', v⟩ ⟨hmoved, hflat, hscanned⟩
    exact returns_done ⟨⟨base, r' + count, hp, hbase, hmoved, Nat.add_le_add_right hle _, hbehind' count⟩, hflat,
      fun i hi => testsAs_of_getElem? (hscanned.values i hi) (hbehind' i)⟩
  | skip count =>
    have hcount : r + count ≤ (expand runs).length := hr
    refine (skipInternal_spec hp hreading (k := count) (by omega)).bind fun s' hmoved => returns_done ⟨?_, rfl⟩
    exact ⟨base, r' + count, hp, hbase, hmoved, Nat.add_le_add_right hle _, hbehind' count⟩

theorem SegmentOf.serves (h : SegmentOf type size segment runs) : Serves type size segment (expand runs) where
  count := h.count
  fits := by
    obtain ⟨-, -, hfit⟩ := rleOffset_spec size h.length_le
    rw [h.size_eq]
    exact hfit
  scans block blockOffset hplaced := by
    obtain ⟨s, hs, hp, hreading, -⟩ := new_spec h hplaced
    refine ⟨s, hs, fun requests => ?_⟩
    exact session_of_inv (I := fun r s' => Reading runs s s' r) (fun r s' request h' hallowed hr =>
      scanRequest_spec hp h' request hallowed hr) requests hreading
  filters block blockOffset hplaced test := by
    obtain ⟨s, hs, hp, hreading, hnone⟩ := new_spec h hplaced
    refine ⟨s, hs, fun requests => ?_⟩
    exact session_of_inv (I := Filtering type test runs) (fun r s' request h' hallowed hr =>
      filterRequest_spec h' request hallowed hr) requests ⟨s, 0, hp, .inl hnone, hreading, le_refl 0, .inl rfl⟩
  fetches block blockOffset hplaced row hrow result resultIdx := by
    obtain ⟨s, hs, hp, hreading, -⟩ := new_spec h hplaced
    obtain ⟨s', hs', hreading'⟩ := skipInternal_spec hp hreading (k := row) (by omega)
    rw [zero_add] at hreading'
    refine ⟨{ result with data := Function.update result.data resultIdx s'.element }, ?_, ?_,
      fun j hj => Function.update_of_ne hj _ _⟩
    · unfold rleFetchRow
      rw [hs, done_bind, hs', done_bind]
    · dsimp only
      rw [Function.update_self]
      exact hreading'.element hp hrow

theorem Serves.unique {values' : List T} (h : Serves type size segment values) (h' : Serves type size segment values') :
    values = values' := by
  have hplaced : segment.Placed size segment.bytes 0 := ⟨by rw [zero_add]; exact h.fits, fun i _ => by rw [zero_add]⟩
  have hlength : values.length = values'.length := h.count.symm.trans h'.count
  refine ext_getElem? fun row => ?_
  by_cases hrow : row < values.length
  · have result : ResultVector T := ⟨fun _ => type.nullValue, false⟩
    obtain ⟨v, hv, hvalue, -⟩ := h.fetches _ _ hplaced row hrow result 0
    obtain ⟨v', hv', hvalue', -⟩ := h'.fetches _ _ hplaced row (by omega) result 0
    rw [hv] at hv'
    cases hv'
    rw [hvalue, hvalue']
  · rw [getElem?_eq_none (by omega), getElem?_eq_none (by omega)]

/-! ## Losslessness -/

theorem lossless_iff_agrees (type : FixedWidth T) (size : BlockSize) (uninitialized : Nat → Cells UInt8)
    (rows : List (T × Bool)) : ∃ values, Agrees (kept type none rows) values
    ∧ (Lossless type size uninitialized rows ↔ Agrees rows values) := by
  obtain ⟨parts, hparts, hagrees⟩ := compress_spec type size uninitialized rows
  have hserves : List.Forall₂ (Serves type size) (compress type size uninitialized rows) (parts.map expand) := by
    rw [forall₂_map_right_iff]
    exact hparts.imp fun _ _ h => h.serves
  refine ⟨_, hagrees, fun h => ?_, fun h => ⟨_, hserves, h⟩⟩
  obtain ⟨parts', hserves', hagrees'⟩ := h
  have hunique : ∀ {segments : List Segment} {parts parts' : List (List T)}, List.Forall₂ (Serves type size) segments parts →
      List.Forall₂ (Serves type size) segments parts' → parts = parts' := by
    intro segments parts parts' h h'
    induction h generalizing parts' with
    | nil => exact (forall₂_nil_left_iff.1 h').symm
    | cons hhead _ ih =>
      obtain ⟨part', rest', hhead', hrest', rfl⟩ := forall₂_cons_left_iff.1 h'
      rw [hhead.unique hhead', ih hrest']
  rwa [hunique hserves hserves']

theorem distinguishes_of_lossless (h : Lossless type size uninitialized rows) : Distinguishes type (validValues rows) := by
  obtain ⟨values, hkept, hiff⟩ := lossless_iff_agrees type size uninitialized rows
  exact (agrees_iff_of_kept hkept).1 (hiff.1 h)

/-- RLE is lossless exactly when no valid value is taken by `==` for another value in front of it. -/
theorem lossless_iff_distinguishes (type : FixedWidth T) (size : BlockSize) (uninitialized : Nat → Cells UInt8)
    (rows : List (T × Bool)) : Lossless type size uninitialized rows ↔ Distinguishes type (validValues rows) := by
  refine ⟨distinguishes_of_lossless, fun h => ?_⟩
  obtain ⟨values, hkept, hiff⟩ := lossless_iff_agrees type size uninitialized rows
  exact hiff.2 ((agrees_iff_of_kept hkept).2 h)

/-! ## Doubles -/

/-- The bits of a double are not a number: the exponent is full, and the mantissa is not zero. -/
def isNaN (bits : UInt64) : Bool := 0x7FF0000000000000 < bits &&& 0x7FFFFFFFFFFFFFFF

/-- `==` of doubles. The two zeroes differ in the sign. -/
def doubleEq (a b : UInt64) : Bool :=
  !isNaN a && !isNaN b && (a = b || a &&& 0x7FFFFFFFFFFFFFFF = 0 && b &&& 0x7FFFFFFFFFFFFFFF = 0)

/-- `double`, by its bits. -/
def double : FixedWidth UInt64 where
  size := 8
  bytes v := writeWord 8 v.toNat
  ofBytes bytes := UInt64.ofNat (wordValue bytes)
  eq := doubleEq
  nullValue := 0x7FF8000000000000
  length_bytes v := writeWord_length 8 v.toNat
  ofBytes_bytes v := by
    rw [wordValue_writeWord (lt_of_lt_of_le v.toNat_lt (by decide))]
    exact UInt64.ofNat_toNat
  size_pos := by decide
  size_le := by decide

/-- The default size of a block. -/
def defaultSize : BlockSize := Metadata.defaultBlockSize

/-- The sign of a zero behind the other zero is lost. -/
theorem not_lossless_zeroes : ¬ Lossless double defaultSize (fun _ _ => 0) [(0, true), (0x8000000000000000, true)] := by
  intro h
  have hdistinguishes := distinguishes_of_lossless h
  unfold Distinguishes at hdistinguishes
  have hvalid : validValues [((0 : UInt64), true), (0x8000000000000000, true)] = [0, 0x8000000000000000] := rfl
  rw [hvalid, List.isChain_cons_cons] at hdistinguishes
  have hne := hdistinguishes.1 (by decide +kernel)
  cases hne

end Haybarn.Rle
