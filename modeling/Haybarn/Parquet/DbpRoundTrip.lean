/-
Delta-binary-packed values are decoded to what was encoded. The decoder stands between two blocks or in a group of 32
differences of one, and what is left of its buffer are the further groups of the block and the further blocks. A turn
copies values of the group, or steps to the next group; the differences that are left belong to the values that are left.
-/
import Haybarn.Parquet.DbpEncoder

namespace Haybarn.Parquet

open Lib Outcome ByteBuffer List

/-! ## Groups of a block -/

theorem flatMap_range_mul {α : Type} {inner : Nat} (hinner : 0 < inner) (f : Nat → Nat → List α) : ∀ outer : Nat,
    ((range outer).flatMap fun i => (range inner).flatMap (f i)) =
      (range (outer * inner)).flatMap fun k => f (k / inner) (k % inner)
  | 0 => by simp
  | outer + 1 => by
    have hrow : ((range inner).map (outer * inner + ·)).flatMap (fun k => f (k / inner) (k % inner)) =
        (range inner).flatMap (f outer) := by
      rw [flatMap_map]
      refine flatMap_congr fun i hi => ?_
      have hi := mem_range.1 hi
      rw [Nat.mul_comm outer, Nat.mul_add_div hinner, Nat.div_eq_of_lt hi, Nat.add_zero, Nat.mul_add_mod,
        Nat.mod_eq_of_lt hi]
    rw [range_succ, flatMap_append, flatMap_singleton, flatMap_range_mul hinner f outer, Nat.succ_mul,
      range_add, flatMap_append, hrow]

/-- The groups that a block is written in. -/
def groupCount (data : List Nat) : Nat := DbpEncoder.numberOfMiniblocks data.length * 8

/-- A group of a block. -/
def group (data : List Nat) (k : Nat) : List Nat :=
  ((DbpEncoder.relative (smallest data) data).drop (k * groupSize)).take groupSize

def groupWidth (data : List Nat) (k : Nat) : Nat := DbpEncoder.bitwidth (smallest data) data (k / 8)

def groupBytes (data : List Nat) (k : Nat) : List UInt8 := packGroup (group data k) (groupWidth data k)

/-- What is left of a block behind some of its groups. -/
def bytesFrom (data : List Nat) (k : Nat) : List UInt8 :=
  (List.range' k (groupCount data - k)).flatMap (groupBytes data)

variable {data : List Nat} {k : Nat}

theorem bytesFrom_step (h : k < groupCount data) : bytesFrom data k = groupBytes data k ++ bytesFrom data (k + 1) := by
  unfold bytesFrom
  rw [show groupCount data - k = groupCount data - (k + 1) + 1 by omega, range'_succ, flatMap_cons]

theorem bytesFrom_end (h : groupCount data ≤ k) : bytesFrom data k = [] := by
  unfold bytesFrom
  rw [Nat.sub_eq_zero_of_le h]
  rfl

theorem numberOfValuesInAMiniblock_eq : numberOfValuesInAMiniblock = 256 := rfl

theorem group_eq (data : List Nat) (i : Nat) {g : Nat} (hg : g < 8) :
    ((DbpEncoder.miniblock (DbpEncoder.relative (smallest data) data) i).drop (g * groupSize)).take groupSize =
      group data (i * 8 + g) := by
  have hmin : min groupSize (numberOfValuesInAMiniblock - g * groupSize) = groupSize := by
    rw [numberOfValuesInAMiniblock_eq]
    unfold groupSize
    omega
  have hdrop : i * numberOfValuesInAMiniblock + g * groupSize = (i * 8 + g) * groupSize := by
    rw [numberOfValuesInAMiniblock_eq]
    unfold groupSize
    omega
  unfold group DbpEncoder.miniblock
  rw [drop_take, take_take, drop_drop, hmin, hdrop]

theorem bytesOf_eq (data : List Nat) : bytesOf data =
    varintEncode (intToZigzag (smallest data)) ++
      (DbpEncoder.listOfBitwidths (smallest data) data ++ bytesFrom data 0) := by
  have hpack : ∀ i width, bitPackAligned (DbpEncoder.miniblock (DbpEncoder.relative (smallest data) data) i)
      numberOfValuesInAMiniblock width =
      (range 8).flatMap fun g => packGroup (group data (i * 8 + g)) width := by
    intro i width
    refine flatMap_congr fun g hg => ?_
    rw [group_eq data i (mem_range.1 hg)]
  unfold bytesOf DbpEncoder.blockBytes bytesFrom
  rw [append_assoc, ← range_eq_range']
  congr 2
  simp only [hpack]
  rw [flatMap_range_mul (by decide)]
  refine flatMap_congr fun k _ => ?_
  rw [Nat.div_add_mod' k 8]
  rfl

theorem length_relative (data : List Nat) :
    (DbpEncoder.relative (smallest data) data).length = groupCount data * groupSize := by
  unfold DbpEncoder.relative groupCount DbpEncoder.numberOfMiniblocks
  simp only [length_append, length_map, length_replicate, numberOfValuesInAMiniblock, blockSizeInValues,
    numberOfMiniblocksInABlock, groupSize]
  omega

theorem lt_of_mem_relative {v : Nat} (h : v ∈ DbpEncoder.relative (smallest data) data) : v < 2 ^ 64 := by
  rcases mem_append.1 h with h | h
  · obtain ⟨delta, -, rfl⟩ := mem_map.1 h
    exact sub64_lt _ _
  · rw [eq_of_mem_replicate h]
    decide

theorem length_group (h : k < groupCount data) : (group data k).length = groupSize := by
  have hlength := length_relative data
  have hle := Nat.mul_le_mul_right groupSize (Nat.succ_le_of_lt h)
  rw [Nat.succ_mul] at hle
  unfold group
  rw [length_take, length_drop]
  omega

theorem lt_of_mem_group {v : Nat} (h : k < groupCount data) (hv : v ∈ group data k) : v < 2 ^ groupWidth data k := by
  have hmini : k / 8 < DbpEncoder.numberOfMiniblocks data.length := by
    unfold groupCount at h
    omega
  unfold groupWidth DbpEncoder.bitwidth
  rw [if_pos hmini]
  refine lt_minimumBitWidth (fun u hu => lt_of_mem_relative (mem_of_mem_drop (mem_of_mem_take hu))) ?_
  rw [← Nat.div_add_mod' k 8, ← group_eq data _ (Nat.mod_lt k (by decide))] at hv
  exact mem_of_mem_drop (mem_of_mem_take hv)

theorem groupWidth_le (data : List Nat) (k : Nat) : groupWidth data k ≤ 64 := by
  unfold groupWidth DbpEncoder.bitwidth
  split
  · exact minimumBitWidth_le _
  · exact Nat.zero_le _

theorem take_group {u n : Nat} (hu : u + n ≤ groupSize) (hn : k * groupSize + u + n ≤ data.length) :
    ((group data k).drop u).take n = ((data.drop (k * groupSize + u)).take n).map (sub64 · (smallest data)) := by
  unfold group DbpEncoder.relative
  rw [drop_take, take_take, drop_drop, Nat.min_eq_left (by omega),
    drop_append_of_le_length (by rw [length_map]; omega),
    take_append_of_le_length (by rw [length_drop, length_map]; omega), ← map_drop, ← map_take]

/-! ## Differences -/

theorem lt_of_mem_deltas {v : Nat} : ∀ {previous : Nat} {values : List Nat}, v ∈ deltas previous values → v < 2 ^ 64
  | _, [], h => by simp at h
  | previous, value :: values, h => by
    rw [deltas_cons, mem_cons] at h
    rcases h with rfl | h
    · exact sub64_lt _ _
    · exact lt_of_mem_deltas h

theorem length_deltas : ∀ (previous : Nat) (values : List Nat), (deltas previous values).length = values.length
  | _, [] => rfl
  | previous, value :: values => by rw [deltas_cons, length_cons, length_cons, length_deltas value values]

theorem take_deltas : ∀ (previous : Nat) (values : List Nat) (n : Nat),
    (deltas previous values).take n = deltas previous (values.take n)
  | _, _, 0 => by simp
  | _, [], _ + 1 => by simp
  | previous, value :: values, n + 1 => by
    rw [deltas_cons, take_succ_cons, take_succ_cons, deltas_cons, take_deltas value values n]

theorem drop_deltas : ∀ (previous : Nat) (values : List Nat) (n : Nat),
    (deltas previous values).drop n = deltas ((values.take n).getLastD previous) (values.drop n)
  | _, _, 0 => by simp
  | _, [], _ + 1 => by simp
  | previous, value :: values, n + 1 => by
    rw [deltas_cons, drop_succ_cons, drop_succ_cons, take_succ_cons, getLastD_cons,
      drop_deltas value values n]

theorem foldl_minValue_lt : ∀ {data : List Nat} {m : Nat}, m < 2 ^ 64 → (∀ v ∈ data, v < 2 ^ 64) →
    data.foldl minValue m < 2 ^ 64
  | [], _, hm, _ => hm
  | v :: data, m, hm, h => by
    refine @foldl_minValue_lt data (minValue m v) ?_ fun u hu => h u (mem_cons_of_mem v hu)
    unfold minValue
    split
    · exact hm
    · exact h v mem_cons_self

theorem smallest_lt (h : ∀ v ∈ data, v < 2 ^ 64) : smallest data < 2 ^ 64 := foldl_minValue_lt (by decide) h

/-! ## Integers -/

namespace Target

variable {t : Target}

theorem cast_lt (ht : t.IsInteger) (v : Nat) : t.cast v < 2 ^ 64 := by
  obtain ⟨size, signed⟩ := t
  unfold cast
  rcases ht with h | h <;>
  · dsimp only at h
    subst h
    dsimp only
    split <;> omega

theorem cast_cast (ht : t.IsInteger) (v : Nat) : t.cast (t.cast v) = t.cast v := by
  obtain ⟨size, signed⟩ := t
  unfold cast
  rcases ht with h | h <;>
  · dsimp only at h
    subst h
    cases signed <;> simp <;> split_ifs <;> omega

theorem cast_mod (ht : t.IsInteger) (v : Nat) : t.cast v % 2 ^ (t.size * 8) = v % 2 ^ (t.size * 8) := by
  obtain ⟨size, signed⟩ := t
  unfold cast
  rcases ht with h | h <;>
  · dsimp only at h
    subst h
    cases signed <;> simp <;> split <;> omega

end Target

theorem add_sub64 {value previous min : Nat} (h : value < 2 ^ 64) :
    (previous + min + sub64 (sub64 value previous) min) % 2 ^ 64 = value := by
  unfold sub64
  omega

/-! ## Copying values of a group -/

namespace DbpDecoder

variable {page : Page} {t : Target} {skipRead : Bool} {d : DbpDecoder} {offset : Nat}

variable {values : List Nat} {s : Batch} {batchSize : Nat}

theorem returns_storeTarget {i value : Nat} (h : skipRead = false → i < values.length) :
    (storeTarget skipRead values i value).Returns fun values' => values'.length = values.length ∧
      (skipRead = false → values' = values.set i value) := by
  unfold storeTarget
  cases skipRead with
  | true => exact returns_done ⟨rfl, by simp⟩
  | false =>
    unfold store
    rw [if_neg (by decide), if_pos (h rfl)]
    exact returns_done ⟨length_set, fun _ => rfl⟩

theorem returns_copyValue {i : Nat} {s : Nat × List Nat} {unpacked : Nat}
    (hget : d.unpackedData[d.unpackedDataOffset + i]? = some unpacked)
    (hroom : skipRead = false → offset + i < s.2.length) :
    (copyValue t skipRead d offset i s).Returns fun s' =>
      s'.1 = t.cast ((s.1 + d.minDelta + unpacked) % 2 ^ 64) ∧ s'.2.length = s.2.length ∧
        (skipRead = false → s'.2 = s.2.set (offset + i) (s'.1 % 2 ^ (t.size * 8))) := by
  obtain ⟨hlt, hunpacked⟩ := List.getElem?_eq_some_iff.1 hget
  have hload : loadRange d.unpackedData (d.unpackedDataOffset + i) 1 = done [unpacked] := by
    unfold loadRange
    rw [if_pos (.inr (by omega)), List.drop_eq_getElem_cons hlt, hunpacked]
    rfl
  unfold copyValue
  rw [hload, done_bind]
  refine (returns_storeTarget hroom).bind fun values h => ?_
  exact returns_done ⟨rfl, h⟩

theorem returns_copyValues {n : Nat} (hdata : d.unpackedDataOffset + n ≤ d.unpackedData.length)
    (hroom : skipRead = false → offset + n ≤ values.length) :
    (forLoop (copyValue t skipRead d offset) 0 n (d.previousValue, values)).Returns fun s =>
      s.2.length = values.length := by
  refine returns_forLoop _ 0 n (I := fun _ (s : Nat × List Nat) => s.2.length = values.length) (fun i s _ hi hs => ?_) rfl
  have hlt : d.unpackedDataOffset + i < d.unpackedData.length := by omega
  refine (returns_copyValue (getElem?_eq_getElem hlt) fun h => ?_).mono fun s' h => h.2.1.trans hs
  have := hroom h
  omega

theorem returns_copyValues_eq (ht : t.IsInteger) : ∀ {vs : List (BitVec (t.size * 8))} {i previous : Nat}
    {values : List Nat},
    (d.unpackedData.drop (d.unpackedDataOffset + i)).take vs.length =
      (deltas previous (casts t vs)).map (sub64 · d.minDelta) →
    (skipRead = false → offset + i + vs.length ≤ values.length) →
    (forLoop (copyValue t skipRead d offset) i vs.length (previous, values)).Returns fun s =>
      s.1 = (casts t vs).getLastD previous ∧ s.2.length = values.length ∧ (skipRead = false →
        s.2.take (offset + i + vs.length) = values.take (offset + i) ++ vs.map BitVec.toNat)
  | [], i, previous, values, _, _ => returns_done ⟨rfl, rfl, fun _ => by simp⟩
  | v :: vs, i, previous, values, hdata, hroom => by
    rw [casts_cons, deltas_cons, map_cons, length_cons] at hdata
    rw [length_cons] at hroom
    have hlt : d.unpackedDataOffset + i < d.unpackedData.length := by
      by_contra h
      rw [drop_eq_nil_of_le (by omega)] at hdata
      simp at hdata
    rw [drop_eq_getElem_cons hlt, take_succ_cons] at hdata
    obtain ⟨hhead, hrest⟩ := cons.inj hdata
    have hvalue := @add_sub64 _ previous d.minDelta (Target.cast_lt ht v.toNat)
    rw [← hhead] at hvalue
    unfold forLoop
    refine (returns_copyValue (getElem?_eq_getElem hlt) fun h => ?_).bind ?_
    · have := hroom h
      dsimp only
      omega
    · rintro ⟨current, values'⟩ ⟨hcurrent, hlength, hset⟩
      dsimp only at hcurrent hlength hset
      rw [hvalue, Target.cast_cast ht] at hcurrent
      subst hcurrent
      have ih := @returns_copyValues_eq ht vs (i + 1) (t.cast v.toNat) values' hrest fun h => by
        have := hroom h
        omega
      refine ih.mono ?_
      rintro s ⟨hlast, hlength', htake⟩
      refine ⟨?_, hlength'.trans hlength, fun h => ?_⟩
      · rw [hlast, casts_cons, getLastD_cons]
      · have := hroom h
        rw [length_cons, show offset + i + (vs.length + 1) = offset + (i + 1) + vs.length by omega, htake h, hset h,
          ← Nat.add_assoc, take_add_one, getElem?_set_self (by omega), take_set_of_le (Nat.le_refl _),
          Target.cast_mod ht, Nat.mod_eq_of_lt v.isLt]
        simp

/-! ## The place of a decoder -/

/-- The decoder is in a block, at one of its groups. -/
structure InBlock (page : Page) (d : DbpDecoder) (data : List Nat) (g : Nat) : Prop where
  miniblocks : d.numberOfMiniblocksPerBlock = 8
  values : d.numberOfValuesInAMiniblock = 256
  length : d.unpackedData.length = groupSize
  le : data.length ≤ Parquet.blockSizeInValues
  lt : g < groupCount data
  index : d.miniblockIndex = g / 8
  min : d.minDelta = smallest data
  list : ∃ list, d.listOfBitwidthsOfMiniblocks = some list ∧
    DbpEncoder.listOfBitwidths (smallest data) data <+: page.bytes.drop list

/-- The group is the next one to be unpacked. -/
structure BeforeGroup (page : Page) (stop limit : Nat) (d : DbpDecoder) (data : List Nat) (g : Nat)
    (blocks : List (List Nat)) : Prop extends InBlock page d data g where
  offset : d.miniblockOffset = g % 8 * groupSize
  remains : Remains page stop limit d.buffer (bytesFrom data g ++ blocks.flatMap bytesOf)

/-- The group is unpacked. -/
structure InGroup (page : Page) (stop limit : Nat) (d : DbpDecoder) (data : List Nat) (g : Nat)
    (blocks : List (List Nat)) : Prop extends InBlock page d data g where
  offset : d.miniblockOffset = (g % 8 + 1) * groupSize
  unpackedData : d.unpackedData = group data g
  unpackedDataOffset : d.unpackedDataOffset ≤ groupSize
  remains : Remains page stop limit d.buffer (bytesFrom data (g + 1) ++ blocks.flatMap bytesOf)

/-- A block, if there was one, is behind. -/
structure BetweenBlocks (page : Page) (stop limit : Nat) (d : DbpDecoder) (blocks : List (List Nat)) : Prop where
  miniblocks : d.numberOfMiniblocksPerBlock = 8
  values : d.numberOfValuesInAMiniblock = 256
  length : d.unpackedData.length = groupSize
  index : d.miniblockIndex = 7
  offset : d.miniblockOffset = 256
  unpackedDataOffset : d.unpackedDataOffset = groupSize
  remains : Remains page stop limit d.buffer (blocks.flatMap bytesOf)

/-- A step of the decoder leaves its count of values as it is. -/
structure Kept (d d' : DbpDecoder) : Prop where
  first : d'.isFirstValue = d.isFirstValue
  read : d'.readValues = d.readValues
  total : d'.totalValueCount = d.totalValueCount

theorem Kept.trans {d' d'' : DbpDecoder} (h : Kept d d') (h' : Kept d' d'') : Kept d d'' :=
  ⟨h'.first.trans h.first, h'.read.trans h.read, h'.total.trans h.total⟩

variable {stop limit g : Nat} {blocks : List (List Nat)}

theorem groupCount_le (h : data.length ≤ Parquet.blockSizeInValues) : groupCount data ≤ 64 := by
  unfold Parquet.blockSizeInValues at h
  unfold groupCount DbpEncoder.numberOfMiniblocks
  rw [numberOfValuesInAMiniblock_eq]
  omega

theorem nextMiniblock_inGroup (h : InGroup page stop limit d data g blocks) (hg : g + 1 < groupCount data) :
    (d.nextMiniblock page).Returns fun d' => BeforeGroup page stop limit d' data (g + 1) blocks ∧
      d'.previousValue = d.previousValue ∧ Kept d d' := by
  have hcount := groupCount_le h.le
  have hindex := h.index
  have hoffset := h.offset
  unfold groupSize at hoffset
  unfold nextMiniblock
  rw [h.values, h.miniblocks]
  dsimp only
  split
  · rw [if_neg (by omega)]
    refine returns_done ⟨⟨⟨rfl, rfl, h.length, h.le, hg, ?_, h.min, h.list⟩, ?_, h.remains⟩, rfl,
      ⟨rfl, rfl, rfl⟩⟩
    · dsimp only
      omega
    · dsimp only [groupSize]
      omega
  · refine returns_done ⟨⟨⟨h.miniblocks, h.values, h.length, h.le, hg, ?_, h.min, h.list⟩, ?_, h.remains⟩, rfl,
      ⟨rfl, rfl, rfl⟩⟩
    · omega
    · dsimp only [groupSize]
      omega

theorem nextMiniblock_betweenBlocks (h : BetweenBlocks page stop limit d (data :: blocks))
    (hpos : 0 < data.length) (hle : data.length ≤ Parquet.blockSizeInValues) (hlt : ∀ v ∈ data, v < 2 ^ 64) :
    (d.nextMiniblock page).Returns fun d' => BeforeGroup page stop limit d' data 0 blocks ∧
      d'.previousValue = d.previousValue ∧ Kept d d' := by
  have hcount : 0 < groupCount data := by
    unfold groupCount DbpEncoder.numberOfMiniblocks
    rw [numberOfValuesInAMiniblock_eq]
    omega
  have hwidths : (DbpEncoder.listOfBitwidths (smallest data) data).length = 8 := by
    unfold DbpEncoder.listOfBitwidths
    rw [length_map, length_range]
    rfl
  have hremains := h.remains
  rw [flatMap_cons, bytesOf_eq, append_assoc, append_assoc] at hremains
  obtain ⟨b, hdecode, hb⟩ := varintDecode_varintEncode (intToZigzag_lt _) hremains
  have havailable := hb.available
  rw [hwidths] at havailable
  unfold nextMiniblock
  rw [h.offset, h.values, if_pos rfl, h.index, h.miniblocks]
  dsimp only
  rw [if_pos (by decide), hdecode, done_bind]
  dsimp only
  rw [havailable, done_bind]
  refine returns_done ⟨⟨⟨rfl, rfl, h.length, hle, hcount, rfl, ?_, b.ptr, rfl, ?_⟩, rfl, ?_⟩, rfl,
    ⟨rfl, rfl, rfl⟩⟩
  · exact zigzagToInt_intToZigzag (smallest_lt hlt)
  · exact (prefix_append _ _).trans hb.begins
  · exact hb.unsafeInc hwidths

theorem returns_unpackMiniblock (h : BeforeGroup page stop limit d data g blocks) :
    (d.unpackMiniblock page).Returns fun d' => InGroup page stop limit d' data g blocks ∧ d'.unpackedDataOffset = 0 ∧
      d'.previousValue = d.previousValue ∧ Kept d d' := by
  have hcount := groupCount_le h.le
  obtain ⟨list, hlist, hprefix⟩ := h.list
  have hlt := h.lt
  have hbyte : page.bytes[list + d.miniblockIndex]? = some (UInt8.ofNat (groupWidth data g)) := by
    obtain ⟨rest, hrest⟩ := hprefix
    rw [← getElem?_drop, ← hrest, h.index, getElem?_append_left, DbpEncoder.listOfBitwidths, getElem?_map,
      getElem?_range]
    · rfl
    · unfold numberOfMiniblocksInABlock
      omega
    · unfold DbpEncoder.listOfBitwidths numberOfMiniblocksInABlock
      rw [length_map, length_range]
      omega
  have hwidth : d.bitwidth page = done (UInt8.ofNat (groupWidth data g)) := by
    unfold bitwidth
    rw [hlist]
    dsimp only [unsafeGet]
    rw [hbyte]
  have hle := groupWidth_le data g
  have hnat : (UInt8.ofNat (groupWidth data g)).toNat = groupWidth data g := by
    rw [UInt8.toNat_ofNat']
    omega
  have hremains := h.remains
  rw [bytesFrom_step hlt, append_assoc] at hremains
  unfold unpackMiniblock
  rw [hwidth, done_bind, hnat]
  refine (bitUnpackAligned_packGroup (length_group hlt) (fun v hv => lt_of_mem_group hlt hv) hle h.length hremains).bind ?_
  rintro ⟨b, values⟩ ⟨hb, hvalues⟩
  refine returns_done ⟨⟨⟨h.miniblocks, h.values, ?_, h.le, hlt, h.index, h.min, h.list⟩, ?_, hvalues,
    Nat.zero_le _, hb⟩, rfl, rfl, ⟨rfl, rfl, rfl⟩⟩
  · exact (congrArg length hvalues).trans (length_group hlt)
  · dsimp only
    rw [h.offset]
    unfold groupSize
    omega

/-! ## Reading values -/

/-- The differences that are left are those of the values that are left. -/
inductive Ready (page : Page) (stop limit : Nat) (t : Target) (d : DbpDecoder) (vs : List (BitVec (t.size * 8))) : Prop where
  | between (blocks : List (List Nat)) (place : BetweenBlocks page stop limit d blocks)
    (chunked : Chunked Parquet.blockSizeInValues blocks)
    (differences : blocks.flatten = deltas d.previousValue (casts t vs))
  | inside (data : List Nat) (g : Nat) (blocks : List (List Nat)) (place : InGroup page stop limit d data g blocks)
    (chunked : Chunked Parquet.blockSizeInValues (data :: blocks)) (lt : g * groupSize < data.length)
    (differences : data.drop (g * groupSize + d.unpackedDataOffset) ++ blocks.flatten =
      deltas d.previousValue (casts t vs))

variable {vs : List (BitVec (t.size * 8))}

theorem groupCount_full (h : data.length = Parquet.blockSizeInValues) : groupCount data = 64 := by
  unfold groupCount DbpEncoder.numberOfMiniblocks
  rw [numberOfValuesInAMiniblock_eq, h]
  decide

theorem InGroup.between (h : InGroup page stop limit d data g blocks) (hfull : data.length = Parquet.blockSizeInValues)
    (hg : g = 63) (hoffset : d.unpackedDataOffset = groupSize) : BetweenBlocks page stop limit d blocks := by
  subst hg
  refine ⟨h.miniblocks, h.values, h.length, h.index, h.offset, hoffset, ?_⟩
  have hremains := h.remains
  rwa [bytesFrom_end (by rw [groupCount_full hfull]), nil_append] at hremains

theorem returns_advance (h : Ready page stop limit t d vs) (hne : vs ≠ []) (hoffset : d.unpackedDataOffset = groupSize) :
    (d.nextMiniblock page).Returns fun d' => (d'.unpackMiniblock page).Returns fun d'' =>
      Ready page stop limit t d'' vs ∧ d''.unpackedDataOffset = 0 ∧ Kept d d'' := by
  -- behind the last block, or between two of them
  have hbetween : ∀ blocks, BetweenBlocks page stop limit d blocks → Chunked Parquet.blockSizeInValues blocks →
      blocks.flatten = deltas d.previousValue (casts t vs) →
      (d.nextMiniblock page).Returns fun d' => (d'.unpackMiniblock page).Returns fun d'' =>
        Ready page stop limit t d'' vs ∧ d''.unpackedDataOffset = 0 ∧ Kept d d'' := by
    intro blocks hplace hchunked hdifferences
    cases blocks with
    | nil =>
      have hlength := congrArg length hdifferences
      rw [length_deltas, casts, length_map] at hlength
      exact absurd (length_eq_zero_iff.1 hlength.symm) hne
    | cons data blocks =>
      have hpos := hchunked.pos data mem_cons_self
      have hlt : ∀ v ∈ data, v < 2 ^ 64 := fun v hv =>
        lt_of_mem_deltas (hdifferences ▸ mem_flatten.2 ⟨data, mem_cons_self, hv⟩)
      refine (nextMiniblock_betweenBlocks hplace hpos (hchunked.le data mem_cons_self) hlt).mono ?_
      rintro d' ⟨hbefore, hprevious, hkept⟩
      refine (returns_unpackMiniblock hbefore).mono ?_
      rintro d'' ⟨hin, hzero, hprevious', hkept'⟩
      refine ⟨.inside data 0 blocks hin hchunked (by omega) ?_, hzero, hkept.trans hkept'⟩
      rw [hzero, hprevious', hprevious, ← hdifferences]
      simp
  cases h with
  | between blocks hplace hchunked hdifferences => exact hbetween blocks hplace hchunked hdifferences
  | inside data g blocks hplace hchunked hlt hdifferences =>
    rw [hoffset] at hdifferences
    by_cases hmore : g * groupSize + groupSize < data.length
    · have hcount : g + 1 < groupCount data := by
        unfold groupCount DbpEncoder.numberOfMiniblocks
        rw [numberOfValuesInAMiniblock_eq]
        unfold groupSize at hmore
        omega
      refine (nextMiniblock_inGroup hplace hcount).mono ?_
      rintro d' ⟨hbefore, hprevious, hkept⟩
      refine (returns_unpackMiniblock hbefore).mono ?_
      rintro d'' ⟨hin, hzero, hprevious', hkept'⟩
      refine ⟨.inside data (g + 1) blocks hin hchunked (by rwa [Nat.succ_mul]) ?_, hzero, hkept.trans hkept'⟩
      rw [hzero, hprevious', hprevious, ← hdifferences, Nat.succ_mul, Nat.add_zero]
    · -- the group ends the block, so there is a block behind it, and this one is full
      rw [drop_eq_nil_of_le (by omega), nil_append] at hdifferences
      have hblocks : blocks ≠ [] := by
        rintro rfl
        have hlength := congrArg length hdifferences
        rw [length_deltas, casts, length_map] at hlength
        exact hne (length_eq_zero_iff.1 hlength.symm)
      have hfull := hchunked.full_head hblocks
      have hg : g = 63 := by
        have hcount := groupCount_full hfull ▸ hplace.lt
        rw [hfull] at hmore
        unfold groupSize Parquet.blockSizeInValues at hmore
        omega
      exact hbetween blocks (hplace.between hfull hg hoffset) hchunked.tail hdifferences

theorem casts_take (vs : List (BitVec (t.size * 8))) (n : Nat) : (casts t vs).take n = casts t (vs.take n) :=
  map_take.symm

theorem casts_drop (vs : List (BitVec (t.size * 8))) (n : Nat) : (casts t vs).drop n = casts t (vs.drop n) :=
  map_drop.symm

theorem fits_group {n : Nat} (hplace : InGroup page stop limit d data g blocks)
    (hchunked : Chunked Parquet.blockSizeInValues (data :: blocks))
    (hdifferences : data.drop (g * groupSize + d.unpackedDataOffset) ++ blocks.flatten =
      deltas d.previousValue (casts t vs)) (hpos : n ≠ 0) (hn : n ≤ vs.length)
    (hu : d.unpackedDataOffset + n ≤ groupSize) : g * groupSize + d.unpackedDataOffset + n ≤ data.length := by
  by_cases hblocks : blocks = []
  · subst hblocks
    have hlength := congrArg length hdifferences
    rw [length_append, length_drop, length_deltas, casts, length_map, flatten_nil,
      length_nil] at hlength
    omega
  · have hfull := hchunked.full_head hblocks
    have hg := groupCount_full hfull ▸ hplace.lt
    rw [hfull]
    unfold groupSize at hu ⊢
    unfold Parquet.blockSizeInValues
    omega

/-- What a read does to the decoder and to its target, up to some number of the values. -/
structure ReadTo (page : Page) (stop limit : Nat) (skipRead : Bool) (vs : List (BitVec (t.size * 8))) (s s' : Batch)
    (n : Nat) : Prop where
  ready : Ready page stop limit t s'.decoder (vs.drop n)
  offset : s'.offset = s.offset + n
  kept : Kept s.decoder s'.decoder
  length : s'.values.length = s.values.length
  values : skipRead = false → s'.values.take s'.offset = s.values.take s.offset ++ (vs.take n).map BitVec.toNat

theorem ReadTo.trans {s' s'' : Batch} {n m : Nat} (h : ReadTo page stop limit skipRead vs s s' n)
    (h' : ReadTo page stop limit skipRead (vs.drop n) s' s'' m) : ReadTo page stop limit skipRead vs s s'' (n + m) where
  ready := drop_drop ▸ h'.ready
  offset := by
    rw [h'.offset, h.offset, Nat.add_assoc]
  kept := h.kept.trans h'.kept
  length := h'.length.trans h.length
  values hskip := by
    rw [h'.values hskip, h.values hskip, append_assoc, ← map_append, ← take_add]

theorem returns_getBatchTurn (ht : t.IsInteger)
    (h : Ready page stop limit t s.decoder vs) (hlt : s.offset < batchSize) (hle : batchSize - s.offset ≤ vs.length)
    (hroom : skipRead = false → s.values.length = batchSize) :
    (getBatchTurn page t skipRead batchSize s).Returns fun s' => ∃ n, n ≤ batchSize - s.offset ∧
      ReadTo page stop limit skipRead vs s s' n ∧ left batchSize s' < left batchSize s := by
  unfold getBatchTurn
  dsimp only
  split
  · rename_i hnext
    cases h with
    | between blocks hplace _ _ =>
      rw [hplace.unpackedDataOffset, Nat.sub_self, Nat.min_zero] at hnext
      exact absurd rfl hnext
    | inside data g blocks hplace hchunked hgroup hdifferences =>
      generalize hn : min (batchSize - s.offset) (groupSize - s.decoder.unpackedDataOffset) = n at hnext ⊢
      have hplaceOffset := hplace.unpackedDataOffset
      have hu : s.decoder.unpackedDataOffset + n ≤ groupSize := by omega
      have hfits := fits_group hplace hchunked hdifferences hnext (by omega) hu
      have hlength : (vs.take n).length = n := by
        rw [length_take]
        omega
      -- the values that are copied, and those that are left behind them
      have htake := congrArg (take n) hdifferences
      have hdrop := congrArg (drop n) hdifferences
      rw [take_deltas, casts_take, take_append_of_le_length (by rw [length_drop]; omega)] at htake
      rw [drop_deltas, casts_take, casts_drop, drop_append_of_le_length (by rw [length_drop]; omega),
        drop_drop] at hdrop
      have hdata : (s.decoder.unpackedData.drop (s.decoder.unpackedDataOffset + 0)).take (vs.take n).length =
          (deltas s.decoder.previousValue (casts t (vs.take n))).map (sub64 · s.decoder.minDelta) := by
        rw [Nat.add_zero, hlength, hplace.unpackedData, take_group hu hfits, htake, hplace.min]
      have hcopy := @returns_copyValues_eq t skipRead s.decoder s.offset ht _ 0 _ s.values hdata fun hskip => by
        rw [hroom hskip]
        omega
      rw [hlength] at hcopy
      refine hcopy.bind ?_
      rintro ⟨previousValue, values⟩ ⟨hprevious, hvalues, htarget⟩
      refine returns_done ⟨n, by omega, ⟨.inside data g blocks ?_ hchunked hgroup ?_, rfl, ⟨rfl, rfl, rfl⟩, hvalues,
        htarget⟩, ?_⟩
      · exact ⟨{ hplace.toInBlock with }, hplace.offset, hplace.unpackedData, hu, hplace.remains⟩
      · dsimp only at hprevious ⊢
        rw [hprevious, ← Nat.add_assoc]
        exact hdrop
      · unfold left
        dsimp only
        split <;> omega
  · rename_i hnext
    have hoffset : s.decoder.unpackedDataOffset = groupSize := by
      have hle : s.decoder.unpackedDataOffset ≤ groupSize := by
        cases h with
        | between blocks hplace _ _ => exact hplace.unpackedDataOffset.le
        | inside data g blocks hplace _ _ _ => exact hplace.unpackedDataOffset
      omega
    have hne : vs ≠ [] := by
      rintro rfl
      rw [length_nil] at hle
      omega
    refine (returns_advance h hne hoffset).bind fun d' hunpack => hunpack.bind ?_
    rintro d'' ⟨hready, hzero, hkept⟩
    refine returns_done ⟨0, Nat.zero_le _, ⟨hready, rfl, hkept, rfl, ?_⟩, ?_⟩
    · intro _
      simp
    · unfold left
      dsimp only
      rw [hzero, hoffset, if_neg (by decide), if_pos rfl]
      omega

theorem ReadTo.refl (h : Ready page stop limit t s.decoder vs) : ReadTo page stop limit skipRead vs s s 0 :=
  ⟨h, rfl, ⟨rfl, rfl, rfl⟩, rfl, fun _ => by simp⟩

theorem returns_getBatchLoop (ht : t.IsInteger)
    (h : Ready page stop limit t s.decoder vs) (hlt : s.offset ≤ batchSize) (hle : batchSize - s.offset ≤ vs.length)
    (hroom : skipRead = false → s.values.length = batchSize) :
    (loop (fun s => decide (s.offset < batchSize)) (getBatchTurn page t skipRead batchSize) (2 * batchSize + 2) s).Returns
      fun s' => ReadTo page stop limit skipRead vs s s' (batchSize - s.offset) := by
  refine (returns_loop (I := fun s' => ∃ n, n ≤ batchSize - s.offset ∧ ReadTo page stop limit skipRead vs s s' n)
    (μ := left batchSize) ?_ ⟨0, Nat.zero_le _, ReadTo.refl h⟩ ?_).mono ?_
  · rintro s' ⟨n, hn, hread⟩ hcond
    have hlt' := of_decide_eq_true hcond
    have hoffset := hread.offset
    refine (returns_getBatchTurn ht hread.ready hlt' ?_ fun hskip => hread.length.trans (hroom hskip)).mono ?_
    · rw [length_drop]
      omega
    · rintro s'' ⟨m, hm, hread', hleft⟩
      exact ⟨⟨n + m, by omega, hread.trans hread'⟩, hleft⟩
  · unfold left
    split <;> omega
  · rintro s' ⟨⟨n, hn, hread⟩, hcond⟩
    have hge := of_decide_eq_false hcond
    have hoffset := hread.offset
    rwa [show batchSize - s.offset = n by omega]

/-- The values that are left, the first of which stands in the header. -/
inductive Unread (page : Page) (stop limit : Nat) (t : Target) (d : DbpDecoder) : List (BitVec (t.size * 8)) → Prop where
  | first (v : BitVec (t.size * 8)) (vs : List (BitVec (t.size * 8))) (first : d.isFirstValue = true)
    (previous : d.previousValue = t.cast v.toNat) (ready : Ready page stop limit t d vs) :
    Unread page stop limit t d (v :: vs)
  | rest (vs : List (BitVec (t.size * 8))) (first : d.isFirstValue = false) (ready : Ready page stop limit t d vs) :
    Unread page stop limit t d vs

theorem Ready.congr {d' : DbpDecoder} (h : Ready page stop limit t d vs)
    (hd : d' = { d with isFirstValue := d'.isFirstValue, readValues := d'.readValues }) : Ready page stop limit t d' vs := by
  rw [hd]
  cases h with
  | between blocks hplace hchunked hdifferences => exact .between blocks { hplace with } hchunked hdifferences
  | inside data g blocks hplace hchunked hlt hdifferences =>
    refine .inside data g blocks ?_ hchunked hlt hdifferences
    exact ⟨{ hplace.toInBlock with }, hplace.offset, hplace.unpackedData, hplace.unpackedDataOffset, hplace.remains⟩

theorem returns_getBatchInternal (ht : t.IsInteger) (h : Unread page stop limit t d vs)
    (hle : batchSize ≤ vs.length) (hroom : skipRead = false → values.length = batchSize) :
    (getBatchInternal page t skipRead d values batchSize).Returns fun s =>
      Unread page stop limit t s.decoder (vs.drop batchSize) ∧ s.decoder.readValues = d.readValues ∧ s.decoder.totalValueCount = d.totalValueCount ∧
        (skipRead = false → s.values = (vs.take batchSize).map BitVec.toNat) := by
  unfold getBatchInternal
  split
  · rename_i hzero
    subst hzero
    refine returns_done ⟨h, rfl, rfl, fun hskip => ?_⟩
    exact length_eq_zero_iff.1 (hroom hskip)
  · rename_i hne
    unfold takeFirstValue
    cases h with
    | first v vs hfirst hprevious hready =>
      rw [length_cons] at hle
      rw [if_pos hfirst]
      refine Returns.bind (P := fun s : Batch => s.decoder = { d with isFirstValue := false } ∧ s.offset = 1 ∧
        (skipRead = false → s.values.length = batchSize ∧ s.values.take 1 = [v.toNat])) ?_ ?_
      · refine (returns_storeTarget fun hskip => ?_).bind fun values' hvalues' => ?_
        · rw [hroom hskip]
          omega
        · refine returns_done ⟨rfl, rfl, fun hskip => ⟨hvalues'.1.trans (hroom hskip), ?_⟩⟩
          have hlength := hroom hskip
          dsimp only
          rw [hvalues'.2 hskip, hprevious, Target.cast_mod ht, Nat.mod_eq_of_lt v.isLt]
          cases values with
          | nil =>
            rw [length_nil] at hlength
            omega
          | cons a values => rfl
      · rintro s ⟨hdecoder, hoffset, hvalues⟩
        have hready' : Ready page stop limit t s.decoder vs := hready.congr (by rw [hdecoder])
        refine (returns_getBatchLoop ht hready' (by omega) (by omega) fun hskip => (hvalues hskip).1).mono fun s' hread => ?_
        have hkept := hread.kept
        rw [hdecoder] at hkept
        have hoffset' := hread.offset
        refine ⟨?_, hkept.read, hkept.total, fun hskip => ?_⟩
        · rw [show batchSize = batchSize - s.offset + 1 by omega, drop_succ_cons]
          exact .rest _ hkept.first hread.ready
        · have htake := hread.values hskip
          rw [hoffset, (hvalues hskip).2, take_of_length_le (by rw [hread.length, (hvalues hskip).1]; omega)] at htake
          rw [htake, show batchSize = batchSize - 1 + 1 by omega, take_succ_cons]
          rfl
    | rest _ hfirst hready =>
      rw [if_neg (by rw [hfirst]; decide), done_bind]
      refine (returns_getBatchLoop ht hready (Nat.zero_le _) hle hroom).mono fun s' hread => ?_
      have hoffset' := hread.offset
      refine ⟨.rest _ (hread.kept.first.trans hfirst) hread.ready, hread.kept.read, hread.kept.total, fun hskip => ?_⟩
      have htake := hread.values hskip
      dsimp only at hoffset' htake
      rw [take_of_length_le (by rw [hread.length, hroom hskip]; omega), take_zero, nil_append] at htake
      exact htake

/-! ## What is left of the last miniblock -/

theorem Remains.nil {b : ByteBuffer} (h : Remains page stop limit b []) : b = ⟨stop, limit - stop⟩ := by
  have hstop := h.stop_eq
  have hlimit := h.limit_eq
  rw [length_nil, Nat.add_zero] at hstop
  subst hstop
  rw [← hlimit, Nat.add_sub_cancel_left]

theorem returns_getBatchTurn_padding (h : InGroup page stop limit s.decoder data g [])
    (hlt : s.offset < batchSize) (hroom : batchSize ≤ s.values.length)
    (hnext : s.decoder.unpackedDataOffset = groupSize → g + 1 < groupCount data) :
    (getBatchTurn page t false batchSize s).Returns fun s' => (∃ g', InGroup page stop limit s'.decoder data g' [] ∧
      g' * groupSize + s'.decoder.unpackedDataOffset + s.offset =
        g * groupSize + s.decoder.unpackedDataOffset + s'.offset) ∧ s'.offset ≤ batchSize ∧
          s'.values.length = s.values.length ∧ left batchSize s' < left batchSize s := by
  have hoffset := h.unpackedDataOffset
  have hlength := h.length
  unfold getBatchTurn
  dsimp only
  split
  · rename_i hcopy
    refine (returns_copyValues (by omega) fun _ => by omega).bind ?_
    rintro ⟨previousValue, values⟩ hvalues
    refine returns_done ⟨⟨g, ?_, ?_⟩, ?_, hvalues, ?_⟩
    · refine ⟨{ h.toInBlock with }, h.offset, h.unpackedData, ?_, h.remains⟩
      dsimp only
      omega
    · dsimp only
      omega
    · dsimp only
      omega
    · unfold left
      dsimp only
      split <;> omega
  · rename_i hstep
    have hfull : s.decoder.unpackedDataOffset = groupSize := by omega
    refine (nextMiniblock_inGroup h (hnext hfull)).bind ?_
    rintro d' ⟨hbefore, -, -⟩
    refine (returns_unpackMiniblock hbefore).bind ?_
    rintro d'' ⟨hin, hzero, -, -⟩
    refine returns_done ⟨⟨g + 1, hin, ?_⟩, hlt.le, rfl, ?_⟩
    · dsimp only
      rw [hzero, hfull, Nat.succ_mul]
      omega
    · unfold left
      dsimp only
      rw [hzero, hfull, if_neg (by decide), if_pos rfl]
      omega

theorem returns_finalize (h : Unread page stop limit t d []) :
    (d.finalize page).Returns fun d' => d'.buffer = ⟨stop, limit - stop⟩ := by
  cases h with
  | rest _ hfirst hready =>
    unfold finalize
    cases hready with
    | between blocks hplace hchunked hdifferences =>
      rw [if_pos (hplace.offset.trans hplace.values.symm)]
      rw [casts_nil, deltas_nil] at hdifferences
      obtain rfl := hchunked.eq_nil hdifferences
      exact returns_done (Remains.nil hplace.remains)
    | inside data g blocks hplace hchunked hlt hdifferences =>
      rw [casts_nil, deltas_nil, append_eq_nil_iff, drop_eq_nil_iff] at hdifferences
      obtain ⟨hend, hflatten⟩ := hdifferences
      obtain rfl := hchunked.tail.eq_nil hflatten
      have hunpacked := hplace.unpackedDataOffset
      have hoffset := hplace.offset
      -- the group is in the last miniblock
      have hcount : groupCount data = (g / 8 + 1) * 8 := by
        unfold groupCount DbpEncoder.numberOfMiniblocks
        rw [numberOfValuesInAMiniblock_eq]
        unfold groupSize at hlt hend hunpacked
        omega
      have hstop : ∀ {d' : DbpDecoder} {g' : Nat}, InGroup page stop limit d' data g' [] → groupCount data ≤ g' + 1 →
          d'.buffer = ⟨stop, limit - stop⟩ := by
        intro d' g' hin hg
        have hremains := hin.remains
        rw [bytesFrom_end hg] at hremains
        exact Remains.nil hremains
      unfold groupSize at hlt hend hunpacked hoffset
      rw [hplace.values]
      split
      · exact returns_done (hstop hplace (by omega))
      · have hsub : sub64 256 d.miniblockOffset = 256 - d.miniblockOffset := sub64_of_le (by decide) (by omega)
        rw [hsub]
        dsimp only
        unfold getBatchInternal takeFirstValue
        rw [if_neg (by omega), if_neg (by rw [hfirst]; decide), done_bind]
        refine (returns_loop (I := fun s => (∃ g', InGroup page stop limit s.decoder data g' [] ∧
          g' * groupSize + s.decoder.unpackedDataOffset = g * groupSize + d.unpackedDataOffset + s.offset) ∧
            s.offset ≤ 256 - d.miniblockOffset ∧ s.values.length = 256) (μ := left (256 - d.miniblockOffset)) ?_
          ⟨⟨g, hplace, rfl⟩, Nat.zero_le _, length_replicate⟩ ?_).bind ?_
        · rintro s ⟨⟨g', hin, hg'⟩, hle, hvalues⟩ hcond
          have hlt' := of_decide_eq_true hcond
          refine (returns_getBatchTurn_padding hin hlt' (by omega) fun hfull => ?_).mono ?_
          · unfold groupSize at hg' hfull
            omega
          · rintro s' ⟨⟨g'', hin', hg''⟩, hle', hvalues', hleft⟩
            exact ⟨⟨⟨g'', hin', by omega⟩, hle', hvalues'.trans hvalues⟩, hleft⟩
        · unfold left
          split <;> omega
        · rintro s ⟨⟨⟨g', hin, hg'⟩, hle, hvalues⟩, hcond⟩
          have hge := of_decide_eq_false hcond
          have hunpacked' := hin.unpackedDataOffset
          refine returns_done (hstop hin ?_)
          unfold groupSize at hg' hunpacked'
          omega

/-! ## The theorem -/

/-- A read of a batch into the cells of a target, one for each value, or of values that are thrown away. -/
inductive Read where
  | getBatch (target : List Nat)
  | skip (skipCount : Nat)

/-- How many values are read. -/
def Read.size : Read → Nat
  | .getBatch target => target.length
  | .skip skipCount => skipCount

/-- The reads are made one after the other. Each has its target as it is left. -/
def readAll (page : Page) (t : Target) : DbpDecoder → List Read → Outcome (DbpDecoder × List (List Nat))
  | d, [] => done (d, [])
  | d, .getBatch target :: reads => do
    let s ← d.getBatch page t target target.length
    let (d, targets) ← readAll page t s.decoder reads
    done (d, s.values :: targets)
  | d, .skip skipCount :: reads => do
    let s ← d.skip page t skipCount
    let (d, targets) ← readAll page t s.decoder reads
    done (d, [] :: targets)

/-- The values, cut at the reads. What is skipped goes nowhere. -/
def Read.cut : List Read → List Nat → List (List Nat)
  | [], _ => []
  | .getBatch target :: reads, values => values.take target.length :: cut reads (values.drop target.length)
  | .skip skipCount :: reads, values => [] :: cut reads (values.drop skipCount)

theorem returns_readAll (ht : t.IsInteger) : ∀ {reads : List Read} {d : DbpDecoder} {vs : List (BitVec (t.size * 8))},
    Unread page stop limit t d vs → d.readValues + vs.length = d.totalValueCount → d.totalValueCount < 2 ^ 64 →
    (reads.map Read.size).sum = vs.length →
    (readAll page t d reads).Returns fun r => Unread page stop limit t r.1 [] ∧
      r.2 = Read.cut reads (vs.map BitVec.toNat)
  | [], d, vs, h, _, _, hsum => by
    obtain rfl : vs = [] := length_eq_zero_iff.1 hsum.symm
    exact returns_done ⟨h, rfl⟩
  | request :: reads, d, vs, h, hread, hlt, hsum => by
    rw [map_cons, sum_cons] at hsum
    have hle : request.size ≤ vs.length := by omega
    have hmod : (d.readValues + request.size) % 2 ^ 64 = d.readValues + request.size := Nat.mod_eq_of_lt (by omega)
    -- the request, for a target or none
    have hinternal : ∀ (skipRead : Bool) (values : List Nat), (skipRead = false → values.length = request.size) →
        (getBatchInternal page t skipRead { d with readValues := d.readValues + request.size } values request.size).Returns
          fun s => Unread page stop limit t s.decoder (vs.drop request.size) ∧
            s.decoder.readValues + (vs.drop request.size).length = s.decoder.totalValueCount ∧
              s.decoder.totalValueCount < 2 ^ 64 ∧
                (skipRead = false → s.values = (vs.take request.size).map BitVec.toNat) := by
      intro skipRead values hroom
      have hunread : Unread page stop limit t { d with readValues := d.readValues + request.size } vs := by
        cases h with
        | first v vs hfirst hprevious hready => exact .first v vs hfirst hprevious (hready.congr rfl)
        | rest vs hfirst hready => exact .rest vs hfirst (hready.congr rfl)
      refine (returns_getBatchInternal ht hunread hle hroom).mono ?_
      rintro s ⟨hrest, hreadValues, htotal, hvalues⟩
      refine ⟨hrest, ?_, htotal ▸ hlt, hvalues⟩
      rw [hreadValues, htotal, length_drop]
      dsimp only
      omega
    have hrest : ∀ d', Unread page stop limit t d' (vs.drop request.size) →
        d'.readValues + (vs.drop request.size).length = d'.totalValueCount → d'.totalValueCount < 2 ^ 64 →
        (readAll page t d' reads).Returns fun r => Unread page stop limit t r.1 [] ∧
          r.2 = Read.cut reads ((vs.map BitVec.toNat).drop request.size) := by
      intro d' hunread' hcount' hlt'
      rw [← map_drop]
      exact returns_readAll ht hunread' hcount' hlt' (by rw [length_drop]; omega)
    cases request with
    | getBatch target =>
      dsimp only [Read.size] at hmod hinternal hrest hle
      unfold readAll getBatch
      rw [hmod]
      dsimp only
      rw [if_neg (by omega)]
      refine (hinternal false target fun _ => rfl).bind ?_
      rintro s ⟨hunread', hcount', hlt', hvalues⟩
      refine (hrest s.decoder hunread' hcount' hlt').bind ?_
      rintro ⟨d', targets⟩ ⟨hend, htargets⟩
      refine returns_done ⟨hend, ?_⟩
      rw [hvalues rfl, map_take, Read.cut]
      exact congrArg _ htargets
    | skip skipCount =>
      dsimp only [Read.size] at hmod hinternal hrest hle
      unfold readAll DbpDecoder.skip
      rw [hmod]
      dsimp only
      rw [if_neg (by omega)]
      refine (hinternal true [] (by simp)).bind ?_
      rintro s ⟨hunread', hcount', hlt', -⟩
      refine (hrest s.decoder hunread' hcount' hlt').bind ?_
      rintro ⟨d', targets⟩ ⟨hend, htargets⟩
      exact returns_done ⟨hend, congrArg _ htargets⟩

theorem returns_dbpDecoder {ptr firstValue : Nat} {totalValueCount : UInt64} {bufferLen : UInt32}
    (hfirst : firstValue < 2 ^ 64)
    (h : Remains page stop limit ⟨ptr, bufferLen.toNat⟩
      (headerBytes totalValueCount.toNat firstValue ++ blocks.flatMap bytesOf)) :
    (dbpDecoder page ptr bufferLen).Returns fun d => BetweenBlocks page stop limit d blocks ∧
      d.previousValue = firstValue ∧ d.isFirstValue = true ∧ d.readValues = 0 ∧
        d.totalValueCount = totalValueCount.toNat := by
  unfold headerBytes at h
  simp only [append_assoc] at h
  obtain ⟨b₁, hblock, h⟩ := varintDecode_varintEncode (by decide) h
  obtain ⟨b₂, hminiblocks, h⟩ := varintDecode_varintEncode (by decide) h
  obtain ⟨b₃, htotal, h⟩ := varintDecode_varintEncode totalValueCount.toNat_lt h
  obtain ⟨b₄, hvalue, h⟩ := varintDecode_varintEncode (intToZigzag_lt _) h
  unfold dbpDecoder decodeNumberOfMiniblocksPerBlock
  rw [hblock, done_bind]
  dsimp only
  rw [hminiblocks, done_bind]
  dsimp only
  rw [if_neg (by decide), done_bind]
  dsimp only
  rw [htotal, done_bind]
  dsimp only
  rw [hvalue, done_bind]
  dsimp only
  rw [if_pos (by decide), zigzagToInt_intToZigzag hfirst]
  exact returns_done ⟨⟨rfl, rfl, length_replicate, rfl, rfl, rfl, h⟩, rfl, rfl, rfl, rfl⟩

end DbpDecoder

/-- What a decoder of the page reads, and where its buffer stands after it is finalized. -/
def dbpDecode (page : Page) (t : Target) (ptr : Nat) (bufferLen : UInt32) (reads : List DbpDecoder.Read) :
    Outcome (List (List Nat) × ByteBuffer) := do
  let d ← dbpDecoder page ptr bufferLen
  let (d, targets) ← d.readAll page t reads
  let d ← d.finalize page
  done (targets, d.buffer)

/-- What an encoder writes for values is decoded to them, cut at any reads, and the decoder ends right behind it. -/
theorem dbpDecode_dbpEncode (t : Target) (ht : t.IsInteger) (totalValueCount : UInt64)
    (firstValue : BitVec (t.size * 8)) (values : List (BitVec (t.size * 8)))
    (hcount : values.length + 1 = totalValueCount.toNat) :
    ∃ bytes, dbpEncode t totalValueCount firstValue values = done bytes ∧
      ∀ (page : Page) (ptr : Nat) (bufferLen : UInt32) (rest : List UInt8), page.bytes.drop ptr = bytes ++ rest →
        bytes.length ≤ bufferLen.toNat → ptr + bufferLen.toNat ≤ page.bytes.length →
        ∀ reads : List DbpDecoder.Read, (reads.map DbpDecoder.Read.size).sum = values.length + 1 →
          dbpDecode page t ptr bufferLen reads =
            done (DbpDecoder.Read.cut reads ((firstValue :: values).map BitVec.toNat),
              ⟨ptr + bytes.length, bufferLen.toNat - bytes.length⟩) := by
  obtain ⟨blocks, hchunked, hflatten, hencode⟩ := dbpEncode_eq ht hcount
  refine ⟨_, hencode, fun page ptr bufferLen rest hpage hlen hfits reads hsum => ?_⟩
  generalize hbytes : headerBytes totalValueCount.toNat (t.cast firstValue.toNat) ++ blocks.flatMap bytesOf = bytes
    at hpage hlen ⊢
  have hlt := bufferLen.toNat_lt
  have hremains : Remains page (ptr + bytes.length) (ptr + bufferLen.toNat) ⟨ptr, bufferLen.toNat⟩ bytes :=
    ⟨⟨hfits, by dsimp only; omega⟩, ⟨rest, hpage.symm⟩, rfl, rfl, by omega⟩
  rw [← hbytes] at hremains
  obtain ⟨d, hnew, hplace, hprevious, hfirst, hread, htotal⟩ :=
    DbpDecoder.returns_dbpDecoder (Target.cast_lt ht firstValue.toNat) hremains
  have hready : DbpDecoder.Ready page _ _ t d values := .between blocks hplace hchunked (hprevious ▸ hflatten)
  obtain ⟨⟨d', targets⟩, hreads, hunread, htargets⟩ :=
    DbpDecoder.returns_readAll ht (.first firstValue values hfirst hprevious hready)
      (by rw [hread, htotal, List.length_cons]; omega) (htotal ▸ totalValueCount.toNat_lt) hsum
  obtain ⟨d'', hfinalize, hbuffer⟩ := DbpDecoder.returns_finalize hunread
  unfold dbpDecode
  rw [hnew, done_bind, hreads, done_bind]
  dsimp only at hfinalize htargets ⊢
  rw [hfinalize, done_bind, hbuffer, htargets, hbytes, Nat.add_sub_add_left]

/-- Three values, of which the first is skipped, with a byte behind them. -/
theorem dbpDecode_dbpEncode_three : ∃ bytes, dbpEncode ⟨4, true⟩ 3 7#32 [5#32, 6#32] = done bytes ∧
    dbpDecode ⟨1, bytes ++ [255]⟩ ⟨4, true⟩ 0 79 [.skip 1, .getBatch [0, 0]] = done ([[], [5, 6]], ⟨78, 1⟩) := by
  obtain ⟨bytes, hencode, hdecode⟩ := dbpDecode_dbpEncode ⟨4, true⟩ (by decide) 3 7#32 [5#32, 6#32] (by decide)
  have hbytes : dbpEncode ⟨4, true⟩ 3 7#32 [5#32, 6#32] =
      done ([128, 16, 8, 3, 14, 3, 2, 0, 0, 0, 0, 0, 0, 0, 12] ++ List.replicate 63 0) := by decide +kernel
  obtain rfl := Outcome.done.inj (hencode.symm.trans hbytes)
  exact ⟨_, hencode, hdecode ⟨1, _⟩ 0 79 [255] rfl (by decide) (by decide) [.skip 1, .getBatch [0, 0]] rfl⟩

end Haybarn.Parquet
