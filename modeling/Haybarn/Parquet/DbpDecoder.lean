/-
The decoder of delta-binary-packed values: blocks of miniblocks, the bit widths of which stand at the head of a block,
unpacked 32 values at a time. Reads and skips are safe for any page. What is left of the last miniblock is thrown away
into an array of the size of a miniblock, which is safe as long as no more of a miniblock is behind than it has.
-/
import Haybarn.Parquet.DecodeUtils

namespace Haybarn.Parquet

open Lib Outcome ByteBuffer

/-! ## Definitions -/

/-- `ZigzagToInt`, on the bits of the integers. -/
def zigzagToInt (x : Nat) : Nat := x >>> 1 ^^^ (if x % 2 = 0 then 0 else 2 ^ 64 - 1)

/-- An integer type, by the bytes it has and whether it is signed. -/
structure Target where
  size : Nat
  signed : Bool

/-- `static_cast<int64_t>(static_cast<T>(value))`, on the bits of the integers. -/
def Target.cast (t : Target) (value : Nat) : Nat :=
  let low := value % 2 ^ (t.size * 8)
  if t.signed ∧ 2 ^ (t.size * 8) ≤ 2 * low then (low + 2 ^ 64 - 2 ^ (t.size * 8)) % 2 ^ 64 else low

structure DbpDecoder where
  buffer : ByteBuffer
  blockSizeInValues : Nat
  numberOfMiniblocksPerBlock : Nat
  numberOfValuesInAMiniblock : Nat
  totalValueCount : Nat
  previousValue : Nat
  isFirstValue : Bool
  readValues : Nat
  minDelta : Nat
  miniblockIndex : Nat
  /-- The place of the bit widths in the page, once there are any. -/
  listOfBitwidthsOfMiniblocks : Option Nat
  miniblockOffset : Nat
  unpackedData : List Nat
  unpackedDataOffset : Nat

def decodeNumberOfMiniblocksPerBlock (page : Page) (buffer : ByteBuffer) : Outcome (Nat × ByteBuffer) := do
  let (res, buffer) ← varintDecode page 64 true buffer
  if res = 0 then
    error "Parquet file has invalid number of miniblocks per block for DELTA_BINARY_PACKED"
  else done (res, buffer)

/-- The constructor of `DbpDecoder`. -/
def dbpDecoder (page : Page) (ptr : Nat) (bufferLen : UInt32) : Outcome DbpDecoder := do
  let (blockSize, buffer) ← varintDecode page 64 true ⟨ptr, bufferLen.toNat⟩
  let (miniblocks, buffer) ← decodeNumberOfMiniblocksPerBlock page buffer
  let valuesInAMiniblock := blockSize / miniblocks
  let (total, buffer) ← varintDecode page 64 true buffer
  let (first, buffer) ← varintDecode page 64 true buffer
  if blockSize % miniblocks = 0 ∧ valuesInAMiniblock % groupSize = 0 then
    done {
      buffer := buffer
      blockSizeInValues := blockSize
      numberOfMiniblocksPerBlock := miniblocks
      numberOfValuesInAMiniblock := valuesInAMiniblock
      totalValueCount := total
      previousValue := zigzagToInt first
      isFirstValue := true
      readValues := 0
      minDelta := 2 ^ 63 - 1
      miniblockIndex := miniblocks - 1
      listOfBitwidthsOfMiniblocks := none
      miniblockOffset := valuesInAMiniblock
      unpackedData := List.replicate groupSize 0
      unpackedDataOffset := groupSize }
  else error "Parquet file has invalid block sizes for DELTA_BINARY_PACKED"

namespace DbpDecoder

/-- What `GetBatchInternal` works on: the decoder, the target and the number of values that are in it. -/
structure Batch where
  decoder : DbpDecoder
  offset : Nat
  values : List Nat

/-- `target_values[i] = value`, unless values are skipped. -/
def storeTarget (skipRead : Bool) (values : List Nat) (i value : Nat) : Outcome (List Nat) :=
  if skipRead then done values else store values i value

/-- The value `i` of those that are copied from the unpacked ones, on the previous value and the target. -/
def copyValue (t : Target) (skipRead : Bool) (d : DbpDecoder) (offset i : Nat) (s : Nat × List Nat) :
    Outcome (Nat × List Nat) := do
  let unpacked ← loadRange d.unpackedData (d.unpackedDataOffset + i) 1
  let currentValue := t.cast ((s.1 + d.minDelta + unpacked.headD 0) % 2 ^ 64)
  let values ← storeTarget skipRead s.2 (offset + i) (currentValue % 2 ^ (t.size * 8))
  done (currentValue, values)

/-- The step to the next miniblock, and to the next block from its last one. -/
def nextMiniblock (page : Page) (d : DbpDecoder) : Outcome DbpDecoder :=
  if d.miniblockOffset = d.numberOfValuesInAMiniblock then
    let miniblockIndex := (d.miniblockIndex + 1) % 2 ^ 64
    if miniblockIndex = d.numberOfMiniblocksPerBlock then do
      let (minDelta, buffer) ← varintDecode page 64 true d.buffer
      buffer.available d.numberOfMiniblocksPerBlock
      done { d with
        miniblockOffset := 0
        minDelta := zigzagToInt minDelta
        listOfBitwidthsOfMiniblocks := some buffer.ptr
        buffer := buffer.unsafeInc d.numberOfMiniblocksPerBlock
        miniblockIndex := 0 }
    else done { d with miniblockOffset := 0, miniblockIndex := miniblockIndex }
  else done d

/-- `list_of_bitwidths_of_miniblocks[miniblock_index]`. -/
def bitwidth (page : Page) (d : DbpDecoder) : Outcome UInt8 :=
  match d.listOfBitwidthsOfMiniblocks with
  | some list => (⟨list + d.miniblockIndex, 0⟩ : ByteBuffer).unsafeGet page
  | none => fault

/-- Unpacking from the current miniblock. -/
def unpackMiniblock (page : Page) (d : DbpDecoder) : Outcome DbpDecoder := do
  let width ← d.bitwidth page
  let (buffer, unpackedData) ← bitUnpackAligned page 8 d.buffer d.unpackedData 0 groupSize width.toNat
  done { d with
    buffer := buffer
    unpackedData := unpackedData
    unpackedDataOffset := 0
    miniblockOffset := (d.miniblockOffset + groupSize) % 2 ^ 64 }

/-- One turn of the loop of `GetBatchInternal<T, SKIP_READ>`. -/
def getBatchTurn (page : Page) (t : Target) (skipRead : Bool) (batchSize : Nat) (s : Batch) : Outcome Batch := do
  let d := s.decoder
  let next := min (batchSize - s.offset) (groupSize - d.unpackedDataOffset)
  if next ≠ 0 then
    let (previousValue, values) ← forLoop (copyValue t skipRead d s.offset) 0 next (d.previousValue, s.values)
    done ⟨{ d with previousValue := previousValue, unpackedDataOffset := d.unpackedDataOffset + next },
      s.offset + next, values⟩
  else
    let d ← d.nextMiniblock page
    let d ← d.unpackMiniblock page
    done { s with decoder := d }

/-- The first value, which stands in the header of the page. -/
def takeFirstValue (t : Target) (skipRead : Bool) (d : DbpDecoder) (values : List Nat) : Outcome Batch :=
  if d.isFirstValue then do
    let values ← storeTarget skipRead values 0 (d.previousValue % 2 ^ (t.size * 8))
    done ⟨{ d with isFirstValue := false }, 1, values⟩
  else done ⟨d, 0, values⟩

/-- `GetBatchInternal<T, SKIP_READ>`. Each two turns take a value. -/
def getBatchInternal (page : Page) (t : Target) (skipRead : Bool) (d : DbpDecoder) (values : List Nat)
    (batchSize : Nat) : Outcome Batch :=
  if batchSize = 0 then done ⟨d, 0, values⟩
  else do
    let s ← d.takeFirstValue t skipRead values
    loop (fun s => decide (s.offset < batchSize)) (getBatchTurn page t skipRead batchSize) (2 * batchSize + 2) s

def getBatch (page : Page) (t : Target) (d : DbpDecoder) (values : List Nat) (batchSize : Nat) : Outcome Batch :=
  let readValues := (d.readValues + batchSize) % 2 ^ 64
  if readValues > d.totalValueCount then error "DBP decode did not find enough values"
  else getBatchInternal page t false { d with readValues := readValues } values batchSize

def skip (page : Page) (t : Target) (d : DbpDecoder) (skipCount : Nat) : Outcome Batch :=
  let readValues := (d.readValues + skipCount) % 2 ^ 64
  if readValues > d.totalValueCount then error "DBP decode did not find enough values"
  else getBatchInternal page t true { d with readValues := readValues } [] skipCount

/-- The values that are left of the miniblock are read into an array of the size of a miniblock. -/
def finalize (page : Page) (d : DbpDecoder) : Outcome DbpDecoder :=
  if d.miniblockOffset = d.numberOfValuesInAMiniblock then done d
  else do
    let data := List.replicate d.numberOfValuesInAMiniblock 0
    let s ← getBatchInternal page ⟨8, true⟩ false d data (sub64 d.numberOfValuesInAMiniblock d.miniblockOffset)
    done s.decoder

/-- A request to a decoder. Values are read into cells of their own, one for each value that is asked for. -/
inductive Request where
  | getBatch (t : Target) (batchSize : UInt64)
  | skip (t : Target) (skipCount : UInt64)
  | finalize

def serve (page : Page) (d : DbpDecoder) : Request → Outcome DbpDecoder
  | .getBatch t batchSize => do
    let s ← d.getBatch page t (List.replicate batchSize.toNat 0) batchSize.toNat
    done s.decoder
  | .skip t skipCount => do
    let s ← d.skip page t skipCount.toNat
    done s.decoder
  | .finalize => d.finalize page

/-! ## Miniblocks -/

/-- The decoder stands inside the page, with so many values in a miniblock, and the bit widths of the block are bytes of
the page, or it stands before the first block. -/
structure Inside (page : Page) (perMiniblock : Nat) (d : DbpDecoder) : Prop where
  buffer : d.buffer.Inside page
  index_lt : d.miniblockIndex < d.numberOfMiniblocksPerBlock
  miniblocks_lt : d.numberOfMiniblocksPerBlock < 2 ^ 64
  values : d.numberOfValuesInAMiniblock = perMiniblock
  values_lt : perMiniblock < 2 ^ 64
  values_groups : perMiniblock % groupSize = 0
  offset_groups : d.miniblockOffset % groupSize = 0
  offset_le_values : perMiniblock ≠ 0 → d.miniblockOffset ≤ perMiniblock
  data : d.unpackedData.length = groupSize
  offset_le : d.unpackedDataOffset ≤ groupSize
  list : ∀ list, d.listOfBitwidthsOfMiniblocks = some list →
    list + d.numberOfMiniblocksPerBlock ≤ page.bytes.length
  first : d.listOfBitwidthsOfMiniblocks = none → d.miniblockOffset = d.numberOfValuesInAMiniblock ∧
    d.miniblockIndex + 1 = d.numberOfMiniblocksPerBlock

variable {page : Page} {perMiniblock : Nat} {t : Target} {skipRead : Bool} {d : DbpDecoder} {values : List Nat}
  {batchSize room : Nat}

/-- Values that are skipped have no target, the others have so many cells. -/
def Room (skipRead : Bool) (values : List Nat) (room : Nat) : Prop := skipRead = false → values.length = room

theorem ensures_storeTarget {i value : Nat} (hroom : Room skipRead values room) (hi : i < room) :
    (storeTarget skipRead values i value).Ensures fun values' => Room skipRead values' room := by
  unfold storeTarget
  cases skipRead with
  | true => exact hroom
  | false => exact (ensures_store ((hroom rfl).symm ▸ hi)).mono fun values' h _ => h.trans (hroom rfl)

theorem ensures_copyValues {offset count : Nat} (hd : d.Inside page perMiniblock)
    (hcount : d.unpackedDataOffset + count ≤ groupSize) (hroom : Room skipRead values room)
    (hoffset : offset + count ≤ room) :
    (forLoop (copyValue t skipRead d offset) 0 count (d.previousValue, values)).Ensures fun s =>
      Room skipRead s.2 room := by
  refine ensures_forLoop _ 0 count (I := fun _ (s : Nat × List Nat) => Room skipRead s.2 room)
    (fun i s _ hi hs => ?_) hroom
  have hdata := hd.data
  unfold copyValue
  refine (ensures_loadRange (by omega)).bind fun unpacked _ => ?_
  exact (ensures_storeTarget hs (by omega)).bind fun values' h => h

theorem ensures_nextMiniblock (hd : d.Inside page perMiniblock) :
    (d.nextMiniblock page).Ensures fun d' => d'.Inside page perMiniblock ∧ d'.listOfBitwidthsOfMiniblocks ≠ none ∧
      (perMiniblock ≠ 0 → d'.miniblockOffset < perMiniblock) := by
  have hindex := hd.index_lt
  have hcount := hd.miniblocks_lt
  unfold nextMiniblock
  dsimp only
  rw [Nat.mod_eq_of_lt (show d.miniblockIndex + 1 < 2 ^ 64 by omega), hd.values]
  split
  · split
    · refine (ensures_varintDecode (by decide) (by decide) hd.buffer).bind ?_
      rintro ⟨minDelta, buffer⟩ ⟨-, n, -, (hm : Moved page n d.buffer buffer)⟩
      refine (ensures_available buffer _).bind fun _ havailable => ?_
      have hfits := hm.inside.fits
      refine ⟨⟨hm.inside.unsafeInc havailable, ?_, hcount, rfl, hd.values_lt, hd.values_groups, rfl,
        fun _ => Nat.zero_le _, hd.data, hd.offset_le, ?_, ?_⟩, ?_, Nat.pos_of_ne_zero⟩
      · dsimp only
        omega
      · rintro list h
        cases h
        dsimp only
        omega
      · intro h
        cases h
      · intro h
        cases h
    · rename_i hne
      refine ⟨⟨hd.buffer, ?_, hcount, rfl, hd.values_lt, hd.values_groups, rfl, fun _ => Nat.zero_le _, hd.data,
        hd.offset_le, hd.list, ?_⟩, ?_, Nat.pos_of_ne_zero⟩
      · dsimp only
        omega
      · intro h
        exact absurd (hd.first h).2 hne
      · intro h
        exact absurd (hd.first h).2 hne
  · rename_i hne
    refine ⟨hd, fun h => hne ((hd.first h).1.trans hd.values), fun h => ?_⟩
    exact lt_of_le_of_ne (hd.offset_le_values h) hne

theorem ensures_bitwidth (hd : d.Inside page perMiniblock) (h : d.listOfBitwidthsOfMiniblocks ≠ none) :
    (d.bitwidth page).Safe := by
  have hindex := hd.index_lt
  unfold bitwidth
  cases hlist : d.listOfBitwidthsOfMiniblocks with
  | none => exact absurd hlist h
  | some list =>
    have := hd.list list hlist
    have hlt : list + d.miniblockIndex < page.bytes.length := by omega
    dsimp only [unsafeGet]
    rw [List.getElem?_eq_getElem hlt]
    trivial

theorem ensures_unpackMiniblock (hd : d.Inside page perMiniblock) (h : d.listOfBitwidthsOfMiniblocks ≠ none)
    (hoffset : perMiniblock ≠ 0 → d.miniblockOffset < perMiniblock) :
    (d.unpackMiniblock page).Ensures fun d' => d'.Inside page perMiniblock ∧ d'.unpackedDataOffset = 0 := by
  unfold unpackMiniblock bitUnpackAligned
  refine (ensures_bitwidth hd h).bind fun width _ => Ensures.bind (P := fun s =>
    s.1.Inside page ∧ s.2.length = d.unpackedData.length) ?_ ?_
  · refine (ensures_checkWidth _).bind fun _ hwidth => ?_
    rw [if_neg (by decide)]
    refine (ensures_available d.buffer _).bind fun _ hlen => ?_
    have hbytes : groupSize * width.toNat % 2 ^ 64 / bitpackDlen = 1 * (4 * width.toNat) := by
      unfold bitpackMasksSize at hwidth
      unfold groupSize bitpackDlen
      omega
    rw [hbytes] at hlen
    refine (ensures_bitUnpackAlignedInternal hd.buffer 1 hlen ?_).mono fun s hs => ⟨hs.1.inside, hs.2⟩
    rw [hd.data]
    decide
  · rintro ⟨buffer, data⟩ ⟨hb, hl⟩
    have hgroups := hd.offset_groups
    have hvalues := hd.values_groups
    have hlt := hd.values_lt
    unfold groupSize at hgroups hvalues
    refine ⟨⟨hb, hd.index_lt, hd.miniblocks_lt, hd.values, hlt, hd.values_groups, ?_, fun h0 => ?_, hl.trans hd.data,
      Nat.zero_le _, hd.list, fun hnone => absurd hnone h⟩, rfl⟩
    · dsimp only [groupSize]
      omega
    · have := hoffset h0
      dsimp only [groupSize]
      omega

/-! ## Batches -/

/-- What a turn lowers: two for each value that is left, and one for unpacked values that are used up. -/
def left (batchSize : Nat) (s : Batch) : Nat :=
  2 * (batchSize - s.offset) + if s.decoder.unpackedDataOffset = groupSize then 1 else 0

theorem ensures_getBatchTurn {s : Batch} (hd : s.decoder.Inside page perMiniblock)
    (hroom : Room skipRead s.values room) (hle : batchSize ≤ room) (hlt : s.offset < batchSize) :
    (getBatchTurn page t skipRead batchSize s).Ensures fun s' =>
      (s'.decoder.Inside page perMiniblock ∧ Room skipRead s'.values room) ∧ left batchSize s' < left batchSize s := by
  have hoffset := hd.offset_le
  unfold getBatchTurn left
  dsimp only
  split
  · rename_i hnext
    refine (ensures_copyValues hd (by omega) hroom (by omega)).bind ?_
    rintro ⟨previousValue, values⟩ hroom'
    refine ⟨⟨{ hd with offset_le := ?_ }, hroom'⟩, ?_⟩
    · dsimp only
      omega
    · dsimp only
      split <;> omega
  · refine (ensures_nextMiniblock hd).bind ?_
    rintro d' ⟨hd', hlist, hbefore⟩
    refine (ensures_unpackMiniblock hd' hlist hbefore).bind ?_
    rintro d'' ⟨hd'', h0⟩
    refine ⟨⟨hd'', hroom⟩, ?_⟩
    dsimp only
    rw [h0, if_neg (by decide), if_pos (by omega)]
    omega

theorem ensures_takeFirstValue (hd : d.Inside page perMiniblock) (hroom : Room skipRead values room) (hpos : 0 < room) :
    (d.takeFirstValue t skipRead values).Ensures fun s => s.decoder.Inside page perMiniblock ∧ Room skipRead s.values room := by
  unfold takeFirstValue
  split
  · exact (ensures_storeTarget hroom hpos).bind fun values' h => ⟨{ hd with }, h⟩
  · exact ⟨hd, hroom⟩

theorem ensures_getBatchInternal (hd : d.Inside page perMiniblock) (hroom : Room skipRead values room)
    (hle : batchSize ≤ room) :
    (getBatchInternal page t skipRead d values batchSize).Ensures fun s =>
      s.decoder.Inside page perMiniblock ∧ Room skipRead s.values room := by
  unfold getBatchInternal
  split
  · exact ⟨hd, hroom⟩
  · rename_i hne
    refine (ensures_takeFirstValue hd hroom (by omega)).bind fun s hs => ?_
    refine (ensures_loop (C := fun _ => True)
      (I := fun s => s.decoder.Inside page perMiniblock ∧ Room skipRead s.values room) (μ := left batchSize)
      (fun s h hc _ => ensures_getBatchTurn h.1 h.2 hle (of_decide_eq_true hc)) hs ?_
      (turns_of_forall (fun _ => trivial) _ _)).mono fun s' h => h.1
    unfold left
    split <;> omega

theorem Inside.withReadValues (hd : d.Inside page perMiniblock) (readValues : Nat) :
    ({ d with readValues := readValues } : DbpDecoder).Inside page perMiniblock := { hd with }

theorem ensures_getBatch (hd : d.Inside page perMiniblock) (hle : batchSize ≤ values.length) :
    (d.getBatch page t values batchSize).Ensures fun s =>
      s.decoder.Inside page perMiniblock ∧ s.values.length = values.length := by
  unfold getBatch
  dsimp only
  split
  · trivial
  · have hroom : Room false values values.length := fun _ => rfl
    exact (ensures_getBatchInternal (hd.withReadValues _) hroom hle).mono fun s h => ⟨h.1, h.2 rfl⟩

theorem ensures_skip (hd : d.Inside page perMiniblock) (skipCount : Nat) :
    (d.skip page t skipCount).Ensures fun s => s.decoder.Inside page perMiniblock := by
  unfold DbpDecoder.skip
  dsimp only
  split
  · trivial
  · have hroom : Room true [] skipCount := by rintro ⟨⟩
    exact (ensures_getBatchInternal (hd.withReadValues _) hroom (Nat.le_refl _)).mono fun s h => h.1

/-- Blocks have values, or no miniblock has been stepped to. -/
def FinalizeFits (d : DbpDecoder) : Prop := d.numberOfValuesInAMiniblock ≠ 0 ∨ d.miniblockOffset = 0

instance (d : DbpDecoder) : Decidable d.FinalizeFits := inferInstanceAs (Decidable (_ ∨ _))

theorem ensures_finalize (hd : d.Inside page perMiniblock) (hfits : d.FinalizeFits) :
    (d.finalize page).Ensures (Inside page perMiniblock) := by
  have hvalues := hd.values
  have hle : d.miniblockOffset ≤ perMiniblock := by
    rcases hfits with h | h
    · exact hd.offset_le_values (hvalues ▸ h)
    · omega
  unfold finalize
  rw [hvalues]
  split
  · exact hd
  · refine (ensures_getBatchInternal hd (fun _ => List.length_replicate) ?_).bind fun s hs => hs.1
    rw [sub64_of_le hd.values_lt hle]
    omega

/-- Reads and skips need nothing. -/
def RequestFits (d : DbpDecoder) : Request → Prop
  | .finalize => d.FinalizeFits
  | _ => True

instance (d : DbpDecoder) : ∀ request, Decidable (RequestFits d request)
  | .finalize => inferInstanceAs (Decidable d.FinalizeFits)
  | .getBatch _ _ => .isTrue trivial
  | .skip _ _ => .isTrue trivial

theorem ensures_serve (hd : d.Inside page perMiniblock) (request : Request) (hfits : RequestFits d request) :
    (d.serve page request).Ensures (Inside page perMiniblock) := by
  cases request with
  | getBatch t batchSize =>
    exact (ensures_getBatch hd (by rw [List.length_replicate])).bind fun s hs => hs.1
  | skip t skipCount => exact (ensures_skip hd _).bind fun s hs => hs
  | finalize => exact ensures_finalize hd hfits

/-! ## Construction -/

theorem ensures_decodeNumberOfMiniblocksPerBlock {b : ByteBuffer} (hb : b.Inside page) :
    (decodeNumberOfMiniblocksPerBlock page b).Ensures fun r => 0 < r.1 ∧ r.1 < 2 ^ 64 ∧ r.2.Inside page := by
  unfold decodeNumberOfMiniblocksPerBlock
  refine (ensures_varintDecode (by decide) (by decide) hb).bind ?_
  rintro ⟨res, b'⟩ ⟨hres, n, -, hm⟩
  dsimp only
  split
  · trivial
  · exact ⟨by dsimp only; omega, hres, hm.inside⟩

theorem ensures_dbpDecoder {ptr : Nat} {bufferLen : UInt32} (h : ptr + bufferLen.toNat ≤ page.bytes.length) :
    (dbpDecoder page ptr bufferLen).Ensures fun d => d.Inside page d.numberOfValuesInAMiniblock := by
  have hlt := bufferLen.toNat_lt
  have hb : (⟨ptr, bufferLen.toNat⟩ : ByteBuffer).Inside page := ⟨h, by dsimp only; omega⟩
  unfold dbpDecoder
  refine (ensures_varintDecode (by decide) (by decide) hb).bind ?_
  rintro ⟨blockSize, b₁⟩ ⟨hblock, _, -, hb₁⟩
  refine (ensures_decodeNumberOfMiniblocksPerBlock hb₁.inside).bind ?_
  rintro ⟨miniblocks, b₂⟩ ⟨hpos, hminiblocks, hb₂⟩
  refine (ensures_varintDecode (by decide) (by decide) hb₂).bind ?_
  rintro ⟨total, b₃⟩ ⟨-, _, -, hb₃⟩
  refine (ensures_varintDecode (by decide) (by decide) hb₃.inside).bind ?_
  rintro ⟨first, b₄⟩ ⟨-, _, -, hb₄⟩
  dsimp only at hpos hblock hminiblocks ⊢
  split
  · rename_i hvalid
    exact {
      buffer := hb₄.inside
      index_lt := Nat.sub_lt hpos Nat.one_pos
      miniblocks_lt := hminiblocks
      values := rfl
      values_lt := lt_of_le_of_lt (Nat.div_le_self _ _) hblock
      values_groups := hvalid.2
      offset_groups := hvalid.2
      offset_le_values := fun _ => Nat.le_refl _
      data := List.length_replicate
      offset_le := Nat.le_refl _
      list := by simp
      first := fun _ => ⟨rfl, Nat.sub_add_cancel hpos⟩ }
  · trivial

/-! ## Runs -/

/-- A decoder on the block, for the requests in their order. -/
def run (page : Page) (block : ByteBuffer) (requests : List Request) : Outcome DbpDecoder := do
  let d ← dbpDecoder page block.ptr (UInt32.ofNat block.len)
  serveAll (serve page) d requests

/-- Whenever the decoder is finalized, its blocks have values or no miniblock has been stepped to. -/
def RunFits (page : Page) (block : ByteBuffer) (requests : List Request) : Prop :=
  ∀ d, dbpDecoder page block.ptr (UInt32.ofNat block.len) = done d → Served (serve page) RequestFits d requests

instance (page : Page) (block : ByteBuffer) (requests : List Request) : Decidable (RunFits page block requests) :=
  inferInstanceAs (Decidable (∀ d, _ = done d → _))

/-- The decoder neither reads outside the page nor writes outside the values that are asked for, and every run of it
ends. -/
theorem dbpDecoder_inside (page : Page) (block : ByteBuffer) (hb : block.Inside page) (requests : List Request)
    (hfits : RunFits page block requests) : (run page block requests).Safe := by
  have hlen : (UInt32.ofNat block.len).toNat ≤ block.len := by
    rw [UInt32.toNat_ofNat']
    exact Nat.mod_le _ _
  have hblock := hb.fits
  refine (ensures_dbpDecoder (show block.ptr + (UInt32.ofNat block.len).toNat ≤ page.bytes.length by omega)).of_done.bind ?_
  rintro d ⟨hd, hdone⟩
  exact (ensures_serveAll (fun d request h hr => ensures_serve h request hr) requests hd (hfits d hdone)).safe

/-- A list of 40 values, in a block of 32 values of one bit and a block of values without bits. -/
def twoBlocks : Page := ⟨0, [32, 1, 40, 6, 1, 1, 0xa5, 0, 0xff, 0x80, 2, 0]⟩

/-- Requests that go from the first block to the second and to the end of it, and one for more values than there are. -/
def pastTheEnd : List Request :=
  [.getBatch ⟨4, true⟩ 10, .skip ⟨4, true⟩ 25, .getBatch ⟨8, true⟩ 5, .finalize, .getBatch ⟨4, true⟩ 1]

set_option maxRecDepth 4000 in
theorem dbpDecoder_inside_twoBlocks : (run twoBlocks ⟨0, 12⟩ pastTheEnd).Safe :=
  dbpDecoder_inside twoBlocks ⟨0, 12⟩ ⟨by decide, by decide⟩ pastTheEnd (by decide +kernel)

end DbpDecoder

end Haybarn.Parquet
