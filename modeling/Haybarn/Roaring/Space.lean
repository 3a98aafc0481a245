/-
The space of a segment. What `CanStore` counts is enough for the container at the place it is aligned to, and a container that
starts a segment always goes into it: so a flush finds room for the metadata behind the data, whatever containers the segment
has.
-/
import Haybarn.Roaring.Compress
import Mathlib.Tactic.Ring

namespace Haybarn.Roaring

open Bitpacking (getRequiredSize roundUpToAlgorithmGroupSize algorithmGroupSize)
open ContainerMetadataCollection (getMetadataSize)

/-- What the compression is promised: the blocks are at aligned addresses and not smaller than the smallest block less the
largest header, and the containers are chosen by the analysis, one for each full or last part of the values. -/
structure Config.Analyzed (cfg : Config) : Prop where
  ptr : ∀ k, cfg.ptr k % 8 = 0
  blockSize : 16384 - 128 ≤ cfg.blockSize
  created : ∀ m ∈ cfg.containerMetadata, ∃ count arrayNull arrayNonNull runs, arrayNull ≤ roaringContainerSize ∧
    arrayNonNull ≤ roaringContainerSize ∧ runs ≤ roaringContainerSize ∧
      m = ContainerMetadata.createMetadata count arrayNull arrayNonNull runs
  enough : cfg.totalCount ≤ roaringContainerSize * cfg.containerMetadata.length

theorem Config.Analyzed.sizeofIdx_le {cfg : Config} (h : cfg.Analyzed) : sizeofIdx ≤ cfg.blockSize := by
  have hsize := h.blockSize
  unfold sizeofIdx
  omega

theorem constants : maxArrayIdx = 248 ∧ maxRunIdx = 124 ∧ uncompressedSize = 256 ∧ compressedSegmentCount = 8 ∧
    compressedArrayThreshold = 8 ∧ compressedRunThreshold = 4 ∧ roaringContainerSize = 2048 ∧ bitsPerValue = 64 ∧
      sizeofIdx = 8 := by
  decide

/-! ## Containers -/

section Containers

variable {m : ContainerMetadata}

/-- A container that the analysis creates: its size is below the one at which it would be written as a bitset. -/
structure ContainerMetadata.Small (m : ContainerMetadata) : Prop where
  run : m.isRun = true → m.count < maxRunIdx
  array : m.isRun = false → m.isUncompressed = false → m.count < maxArrayIdx

theorem small_createMetadata {count arrayNull arrayNonNull runs : Nat} (hnull : arrayNull ≤ roaringContainerSize)
    (hnonNull : arrayNonNull ≤ roaringContainerSize) (hruns : runs ≤ roaringContainerSize) :
    (ContainerMetadata.createMetadata count arrayNull arrayNonNull runs).Small := by
  have hbitset : (ContainerMetadata.bitsetContainer count).Small := ⟨by rintro ⟨⟩, by rintro - ⟨⟩⟩
  have harray : ∀ amount nulls, amount < maxArrayIdx → (ContainerMetadata.arrayContainer amount nulls).Small :=
    fun amount nulls h => ⟨by rintro ⟨⟩, fun _ _ => h⟩
  have hrun : ∀ amount, amount < maxRunIdx → (ContainerMetadata.runContainer amount).Small :=
    fun amount h => ⟨fun _ => h, by rintro ⟨⟩⟩
  have hconst := constants
  have hcost : ∀ n ≤ roaringContainerSize, maxArrayIdx ≤ n → 256 ≤ ContainerMetadata.arrayCost n := by
    intro n hn hge
    unfold ContainerMetadata.arrayCost uint16
    split_ifs <;> omega
  have hcost' : ∀ n < maxArrayIdx, ContainerMetadata.arrayCost n ≤ 255 := by
    intro n hn
    unfold ContainerMetadata.arrayCost uint16
    split_ifs <;> omega
  have hcostRun : runs < maxRunIdx → ContainerMetadata.runCost runs ≤ 254 := by
    intro hlt
    unfold ContainerMetadata.runCost uint16
    split_ifs <;> omega
  have hcostRun' : maxRunIdx ≤ runs → 256 ≤ ContainerMetadata.runCost runs := by
    intro hge
    unfold ContainerMetadata.runCost uint16
    split_ifs <;> omega
  unfold ContainerMetadata.createMetadata
  dsimp only
  split
  · exact hbitset
  · rename_i hcan
    split
    · exact hbitset
    · -- the kind with the lower cost is one that can be used
      split
      · rename_i hle
        have hlow : arrayNull < maxArrayIdx ∨ arrayNonNull < maxArrayIdx := by
          by_contra hnone
          have h1 := hcost arrayNull hnull (by omega)
          have h2 := hcost arrayNonNull hnonNull (by omega)
          have h3 := hcostRun (by omega)
          omega
        split
        · exact harray _ _ (by omega)
        · exact harray _ _ (by omega)
      · rename_i hlt
        apply hrun
        by_contra hge
        have h1 := hcostRun' (by omega)
        have h2 : arrayNull < maxArrayIdx ∨ arrayNonNull < maxArrayIdx := by omega
        rcases h2 with h2 | h2
        · have h3 := hcost' _ h2
          omega
        · have h3 := hcost' _ h2
          omega

theorem getDataSizeInBytes_le (h : m.Small) {containerSize : Nat} (hsize : containerSize ≤ roaringContainerSize) :
    m.getDataSizeInBytes containerSize ≤ uncompressedSize := by
  have hconst := constants
  have hrun := h.run
  have harray := h.array
  unfold ContainerMetadata.getDataSizeInBytes
  split_ifs with h1 h2 h3 h4
  · rw [hconst.2.2.2.2.2.2.2.1]
    omega
  · have hlt := hrun h2
    omega
  · omega
  · have hlt := harray (by simpa using h2) (by simpa using h1)
    omega
  · omega

end Containers

/-! ## Metadata -/

section Metadata

variable {c c' : ContainerMetadataCollection} {m : ContainerMetadata}

/-- The numbers that are counted for a segment. -/
structure ContainerMetadataCollection.Counted (c : ContainerMetadataCollection) : Prop where
  count : c.countInSegment = c.runsInSegment + c.arraysInSegment
  runs : c.runsInSegment ≤ c.numberOfRuns.length
  arrays : c.arraysInSegment ≤ c.cardinality.length

theorem addMetadata_spec (h : c.Counted) (ha : c.addMetadata m = .ok c') :
    c'.Counted ∧ c'.runsInSegment = (if m.isRun then c.runsInSegment + 1 else c.runsInSegment) ∧
      c'.arraysInSegment = if m.isRun then c.arraysInSegment else c.arraysInSegment + 1 := by
  obtain ⟨hcount, hruns, harrays⟩ := h
  unfold ContainerMetadataCollection.addMetadata at ha
  split at ha
  · rename_i hrun
    unfold ContainerMetadataCollection.addRunContainer ContainerMetadataCollection.numericCastUint8 at ha
    split at ha
    · cases ha
      refine ⟨⟨?_, ?_, ?_⟩, by simp [hrun, ContainerMetadataCollection.addContainerType],
        by simp [hrun, ContainerMetadataCollection.addContainerType]⟩
      all_goals simp [ContainerMetadataCollection.addContainerType]; omega
    · cases ha
  · rename_i hrun
    split at ha
    · cases ha
      refine ⟨⟨?_, ?_, ?_⟩, by simp [hrun, ContainerMetadataCollection.addBitsetContainer,
        ContainerMetadataCollection.addContainerType], by simp [hrun, ContainerMetadataCollection.addBitsetContainer,
        ContainerMetadataCollection.addContainerType]⟩
      all_goals
        simp [ContainerMetadataCollection.addBitsetContainer, ContainerMetadataCollection.addContainerType]
        omega
    · unfold ContainerMetadataCollection.addArrayContainer ContainerMetadataCollection.numericCastUint8 at ha
      split at ha
      · cases ha
        refine ⟨⟨?_, ?_, ?_⟩, by simp [hrun, ContainerMetadataCollection.addContainerType],
          by simp [hrun, ContainerMetadataCollection.addContainerType]⟩
        all_goals simp [ContainerMetadataCollection.addContainerType]; omega
      · cases ha

theorem addMetadata_ok (h : m.Small) : ∃ c', c.addMetadata m = .ok c' := by
  have hconst := constants
  have hrun := h.run
  have harray := h.array
  unfold ContainerMetadataCollection.addMetadata
  split_ifs with h1 h2
  · have hlt := hrun h1
    have hcast : ContainerMetadataCollection.numericCastUint8 m.count = .ok m.count := if_pos (by omega)
    exact ⟨_, by rw [ContainerMetadataCollection.addRunContainer, hcast]; rfl⟩
  · exact ⟨_, rfl⟩
  · have hlt := harray (by simpa using h1) (by simpa using h2)
    have hcast : ContainerMetadataCollection.numericCastUint8 m.count = .ok m.count := if_pos (by omega)
    exact ⟨_, by rw [ContainerMetadataCollection.addArrayContainer, hcast]; rfl⟩

theorem packBuffer_between {dest count width : Nat} {r : Range}
    (hr : r ∈ ContainerMetadataCollection.packBuffer dest count width) :
    r.Between dest (dest + getRequiredSize count width) := by
  obtain ⟨group, hgroup, rfl⟩ := List.mem_map.1 hr
  have hlt := List.mem_range.1 hgroup
  have hround : roundUpToAlgorithmGroupSize count =
      algorithmGroupSize * (roundUpToAlgorithmGroupSize count / algorithmGroupSize) := by
    unfold roundUpToAlgorithmGroupSize algorithmGroupSize
    split <;> omega
  have hgroups : ∀ n, algorithmGroupSize * n * width / 8 = n * (4 * width) := by
    intro n
    have h8 : algorithmGroupSize * n * width = 8 * (n * (4 * width)) := by
      unfold algorithmGroupSize
      ring
    rw [h8, Nat.mul_div_cancel_left _ (by decide)]
  have hone : algorithmGroupSize * width / 8 = 4 * width := by
    have h1 := hgroups 1
    rwa [Nat.mul_one, Nat.one_mul] at h1
  have hle : (group + 1) * (4 * width) ≤ roundUpToAlgorithmGroupSize count / algorithmGroupSize * (4 * width) :=
    Nat.mul_le_mul_right _ hlt
  rw [getRequiredSize, hround, hgroups, Range.Between, hgroups, hone]
  rw [Nat.add_mul] at hle
  dsimp only
  omega

/-- The metadata is written to as many bytes as are counted for it. -/
theorem serialize_spec (h : c.Counted) (dest : Nat) :
    (c.serialize dest).2 = c.getMetadataSizeForSegment ∧
      ∀ r ∈ (c.serialize dest).1, r.Between dest (dest + c.getMetadataSizeForSegment) := by
  have hsize : c.getMetadataSizeForSegment = getRequiredSize c.countInSegment containerTypeBitwidth +
      getRequiredSize c.runsInSegment runContainerSizeBitwidth + c.arraysInSegment := by
    rw [ContainerMetadataCollection.getMetadataSizeForSegment, getMetadataSize, h.count]
  rw [hsize]
  refine ⟨rfl, fun r hr => ?_⟩
  simp only [ContainerMetadataCollection.serialize, List.mem_append] at hr
  rcases hr with (hr | hr) | hr
  · have hb := packBuffer_between hr
    unfold Range.Between at hb ⊢
    omega
  · split at hr
    · have hb := packBuffer_between hr
      unfold Range.Between at hb ⊢
      omega
    · cases hr
  · split at hr
    · obtain rfl := List.mem_singleton.1 hr
      unfold Range.Between
      dsimp only
      split <;> omega
    · cases hr

end Metadata

/-! ## Segments -/

section Segments

open CompressState

variable {cfg : Config} {s s' : CompressState} {m : ContainerMetadata} {containerSize : Nat} {stage : Stage}

/-- The segment fits: its data and the metadata that is counted for it are in the block, and the containers are apart. -/
structure Fits (cfg : Config) (s : CompressState) : Prop where
  aligned : s.handle % 8 = 0
  block : s.metadataPtr = s.handle + cfg.blockSize
  front : s.handle + sizeofIdx ≤ s.dataPtr
  counted : s.collection.Counted
  room : alignValue 8 s.getUsedDataSpace + s.collection.getMetadataSizeForSegment ≤ s.getAvailableSpace
  kept : ∀ r ∈ s.kept, r.Between (s.handle + sizeofIdx) s.dataPtr
  apart : s.kept.Pairwise Range.Apart

theorem le_containerStart (destination : Nat) : destination ≤ containerStart destination m := by
  unfold containerStart overrideUncompressed overrideRun overrideArray alignValue
  split_ifs <;> omega

theorem alignValue_containerStart {base used : Nat} (hbase : base % 8 = 0) :
    alignValue 8 (containerStart (base + used) m + m.getDataSizeInBytes containerSize - base) =
      alignValue 8 (used + ((if m.isUncompressed then alignValue 8 (base + used) - (base + used) else 0) +
        m.getDataSizeInBytes containerSize)) := by
  unfold containerStart ContainerMetadata.getDataSizeInBytes overrideUncompressed overrideRun overrideArray alignValue
  split_ifs <;> omega

variable {c : ContainerMetadataCollection}

theorem placeContainer_ok (hc : s.collection.addMetadata m = .ok c) :
    s.placeContainer containerSize m = .ok { s with
      dataPtr := containerStart s.dataPtr m + m.getDataSizeInBytes containerSize, collection := c,
      kept := s.kept ++ [⟨containerStart s.dataPtr m, m.getDataSizeInBytes containerSize⟩] } := by
  rw [CompressState.placeContainer, hc]
  rfl

theorem Fits.placeContainer (h : Fits cfg s) (hp : s.placeContainer containerSize m = .ok s')
    (hroom : ∀ c, s.collection.addMetadata m = .ok c →
      alignValue 8 (containerStart s.dataPtr m + m.getDataSizeInBytes containerSize - (s.handle + sizeofIdx)) +
        c.getMetadataSizeForSegment ≤ s.getAvailableSpace) : Fits cfg s' := by
  cases hc : s.collection.addMetadata m with
  | error e =>
    rw [CompressState.placeContainer, hc] at hp
    cases hp
  | ok c =>
    rw [placeContainer_ok hc] at hp
    cases hp
    have hstart := @le_containerStart m s.dataPtr
    have hfront := h.front
    constructor
    · exact h.aligned
    · exact h.block
    · dsimp only
      omega
    · exact (addMetadata_spec h.counted hc).1
    · exact hroom c hc
    · intro r hr
      rcases List.mem_append.1 hr with hr | hr
      · have hb := h.kept r hr
        unfold Range.Between at hb ⊢
        dsimp only
        omega
      · obtain rfl := List.mem_singleton.1 hr
        unfold Range.Between
        dsimp only
        omega
    · refine List.pairwise_append.2 ⟨h.apart, List.pairwise_singleton _ _, fun a ha b hb => ?_⟩
      obtain rfl := List.mem_singleton.1 hb
      have hbetween := (h.kept a ha).2
      exact .inl (by dsimp only; omega)

theorem Fits.room_of_canStore (h : Fits cfg s) (hcan : s.canStore containerSize m = true)
    (hc : s.collection.addMetadata m = .ok c) :
    alignValue 8 (containerStart s.dataPtr m + m.getDataSizeInBytes containerSize - (s.handle + sizeofIdx)) +
      c.getMetadataSizeForSegment ≤ s.getAvailableSpace := by
  obtain ⟨used, hused⟩ := Nat.exists_eq_add_of_le h.front
  have hbase : (s.handle + sizeofIdx) % 8 = 0 := by
    have := h.aligned
    unfold sizeofIdx
    omega
  obtain ⟨-, hruns, harrays⟩ := addMetadata_spec h.counted hc
  rw [hused, alignValue_containerStart hbase, ContainerMetadataCollection.getMetadataSizeForSegment, hruns, harrays]
  have hspace : s.getUsedDataSpace = used := by
    rw [getUsedDataSpace, hused]
    omega
  simp only [canStore, hspace, hused, decide_eq_true_eq] at hcan
  omega

theorem Config.Analyzed.room_first (h : cfg.Analyzed) (hm : m.Small) (hsize : containerSize ≤ roaringContainerSize)
    {base : Nat} (hbase : base % 8 = 0)
    (hruns : c.runsInSegment = if m.isRun then 1 else 0) (harrays : c.arraysInSegment = if m.isRun then 0 else 1) :
    alignValue 8 (containerStart base m + m.getDataSizeInBytes containerSize - base) + c.getMetadataSizeForSegment ≤
      cfg.blockSize - sizeofIdx := by
  have hstart : containerStart base m = base := by
    unfold containerStart overrideUncompressed overrideRun overrideArray alignValue
    split_ifs <;> omega
  have hdata := getDataSizeInBytes_le hm hsize
  have hmax : uncompressedSize = 256 := rfl
  have hmetadata : c.getMetadataSizeForSegment ≤ 36 := by
    rw [ContainerMetadataCollection.getMetadataSizeForSegment, hruns, harrays]
    split <;> decide
  have hblock := h.blockSize
  rw [hstart, Nat.add_sub_cancel_left]
  unfold alignValue sizeofIdx
  omega

theorem Config.Analyzed.fits_createEmptySegment (h : cfg.Analyzed) (hcounted : s.collection.Counted)
    (hruns : s.collection.runsInSegment = 0) (harrays : s.collection.arraysInSegment = 0) :
    Fits cfg (s.createEmptySegment cfg) := by
  have hblock := h.blockSize
  constructor
  · exact h.ptr _
  · rfl
  · exact le_rfl
  · exact hcounted
  · have hmetadata : (s.createEmptySegment cfg).collection.getMetadataSizeForSegment = 0 := by
      show s.collection.getMetadataSizeForSegment = 0
      rw [ContainerMetadataCollection.getMetadataSizeForSegment, hruns, harrays]
      rfl
    rw [hmetadata]
    unfold getUsedDataSpace getAvailableSpace createEmptySegment alignValue sizeofIdx
    dsimp only
    omega
  · simp [createEmptySegment]
  · simp [createEmptySegment]

/-- What holds wherever the compression is. -/
structure Inv (cfg : Config) (stage : Stage) (s : CompressState) : Prop extends Fits cfg s where
  idle : stage = .next → s.appendedCount = 0 ∧ s.length = 0
  fresh : stage = .next → s.count = 0 → s.collection.runsInSegment = 0 ∧ s.collection.arraysInSegment = 0
  within : s.totalCount + s.waiting ≤ cfg.totalCount

theorem Fits.flushSegment (h : Fits cfg s) (hsize : sizeofIdx ≤ cfg.blockSize) : ∃ flushed s', s.flushSegment cfg = .ok (flushed, s') ∧
    s'.collection = (if s.count = 0 then s.collection else s.collection.flushSegment) ∧ s'.totalCount = s.totalCount ∧
    s'.appendedCount = s.appendedCount ∧ s'.length = s.length ∧
    ∀ f ∈ flushed, sizeofIdx + f.metadataStart ≤ f.totalSegmentSize ∧ f.totalSegmentSize ≤ cfg.blockSize ∧
      ∀ r ∈ f.metadata, r.Between (s.handle + sizeofIdx + f.metadataStart) (s.handle + f.totalSegmentSize) ∧
        ∀ d ∈ s.kept, d.start + d.size ≤ r.start := by
  have hroom := h.room
  have hfront := h.front
  have hblock := h.block
  unfold getUsedDataSpace getAvailableSpace at hroom
  unfold CompressState.flushSegment
  dsimp only
  by_cases hcount : s.count = 0
  · rw [if_pos hcount]
    exact ⟨none, _, rfl, by simp [hcount], rfl, rfl, rfl, by rintro f ⟨⟩⟩
  · generalize hused : s.dataPtr - (s.handle + sizeofIdx) = used at hroom
    have halign : used ≤ alignValue 8 used := by
      unfold alignValue
      omega
    obtain ⟨hserialized, hranges⟩ := serialize_spec h.counted (s.dataPtr + (alignValue 8 used - used))
    have hstart : s.dataPtr + (alignValue 8 used - used) - (s.handle + sizeofIdx) = alignValue 8 used := by omega
    rw [if_neg hcount, if_neg (by rw [hserialized]; simp), hstart, if_neg (by omega)]
    refine ⟨_, _, rfl, by simp [hcount], rfl, rfl, rfl, ?_⟩
    intro f hf
    obtain rfl := Option.mem_some_iff.1 hf
    refine ⟨by dsimp only; omega, by dsimp only; omega, fun r hr => ?_⟩
    have hb := hranges r hr
    unfold Range.Between at hb ⊢
    refine ⟨by dsimp only; omega, fun d hd => ?_⟩
    have hd' := (h.kept d hd).2
    omega

theorem flushContainer_cases (s : CompressState) : s.waiting = 0 ∧ s.flushContainer = s ∨ s.waiting ≠ 0 ∧
    s.flushContainer = { s with
      totalCount := s.totalCount + s.waiting, count := s.count + s.waiting, length := 0, appendedCount := 0 } := by
  unfold CompressState.flushContainer CompressState.append waiting
  by_cases hl : s.length = 0
  · by_cases ha : s.appendedCount = 0
    · exact .inl ⟨by omega, by simp [hl, ha]⟩
    · exact .inr ⟨by omega, by simp [hl, ha]⟩
  · exact .inr ⟨by omega, by simp [hl]⟩

theorem handleValues_eq (s : CompressState) (bitSet : Bool) (amount : Nat) : ∃ appended length,
    appended + length = s.waiting + amount ∧
      s.handleValues bitSet amount = { s with appendedCount := appended, length, lastBitSet := bitSet } := by
  unfold CompressState.handleValues CompressState.append waiting
  by_cases hl : s.length ≠ 0 ∧ s.lastBitSet ≠ bitSet
  · exact ⟨s.appendedCount + s.length, amount, rfl, by simp [hl]⟩
  · exact ⟨s.appendedCount, s.length + amount, by omega, by simp [hl]⟩

theorem Fits.flushContainer (h : Fits cfg s) : Fits cfg s.flushContainer := by
  rcases flushContainer_cases s with ⟨-, he⟩ | ⟨-, he⟩
  · rw [he]
    exact h
  · rw [he]
    exact ⟨h.aligned, h.block, h.front, h.counted, h.room, h.kept, h.apart⟩

theorem Config.Analyzed.inv_construct (h : cfg.Analyzed) : Inv cfg .next (construct cfg) := by
  constructor
  · exact h.fits_createEmptySegment ⟨rfl, le_rfl, le_rfl⟩ rfl rfl
  · exact fun _ => ⟨rfl, rfl⟩
  · exact fun _ _ => ⟨rfl, rfl⟩
  · exact Nat.zero_le _

theorem Inv.handleValues (h : Inv cfg .filling s) (bitSet : Bool) {amount : Nat}
    (hw : s.totalCount + s.waiting + amount ≤ cfg.totalCount) : Inv cfg .filling (s.handleValues bitSet amount) := by
  obtain ⟨appended, length, hsum, he⟩ := handleValues_eq s bitSet amount
  rw [he]
  constructor
  · exact ⟨h.aligned, h.block, h.front, h.counted, h.room, h.kept, h.apart⟩
  · rintro ⟨⟩
  · rintro ⟨⟩
  · show s.totalCount + (appended + length) ≤ cfg.totalCount
    omega

theorem Inv.flushContainer (h : Inv cfg .filling s) (hfull : s.waiting = roaringContainerSize) :
    Inv cfg .next s.flushContainer := by
  have hpos : s.waiting ≠ 0 := by
    rw [hfull]
    decide
  have he := (flushContainer_cases s).resolve_left fun h0 => hpos h0.1
  have hfits := h.toFits.flushContainer
  rw [he.2] at hfits ⊢
  constructor
  · exact hfits
  · exact fun _ => ⟨rfl, rfl⟩
  · -- a segment that has values is not a fresh one
    intro _ hcount
    have hsum : s.count + s.waiting = 0 := hcount
    omega
  · exact h.within

theorem Inv.initializeContainer (hcfg : cfg.Analyzed) (h : Inv cfg .next s) :
    ∃ s', s.initializeContainer cfg = .ok s' ∧ Inv cfg .filling s' := by
  obtain ⟨happended, hlength⟩ := h.idle rfl
  have hwithin := h.within
  rw [waiting, happended, hlength] at hwithin
  have hinv : ∀ t : CompressState, Fits cfg t → t.totalCount = s.totalCount → t.appendedCount = s.appendedCount →
      t.length = s.length → Inv cfg .filling t := by
    intro t ht htotal ha hl
    refine ⟨ht, by rintro ⟨⟩, by rintro ⟨⟩, ?_⟩
    rw [waiting, htotal, ha, hl, happended, hlength]
    exact hwithin
  unfold CompressState.initializeContainer
  split
  · exact ⟨s, rfl, hinv s h.toFits rfl rfl rfl⟩
  · rename_i hmore
    have hindex : s.getContainerIndex < cfg.containerMetadata.length := by
      have henough := hcfg.enough
      exact Nat.div_lt_of_lt_mul (by omega)
    rw [List.getElem?_eq_getElem hindex]
    dsimp only
    generalize hm : cfg.containerMetadata[s.getContainerIndex] = m
    have hsmall : m.Small := by
      obtain ⟨_, _, _, _, hnull, hnonNull, hruns, rfl⟩ :=
        hcfg.created m (hm ▸ List.getElem_mem hindex)
      exact small_createMetadata hnull hnonNull hruns
    have hplace : ∀ t : CompressState, ∀ size, ∃ t', t.placeContainer size m = .ok t' ∧ t'.totalCount = t.totalCount ∧
        t'.appendedCount = t.appendedCount ∧ t'.length = t.length := by
      intro t size
      obtain ⟨c, hc⟩ := @addMetadata_ok t.collection m hsmall
      exact ⟨_, placeContainer_ok hc, rfl, rfl, rfl⟩
    split
    · rename_i hcan
      obtain ⟨t, ht, htotal, ha, hl⟩ := hplace s (s.nextContainerSize cfg)
      exact ⟨t, ht, hinv t (h.toFits.placeContainer ht fun c hc => h.toFits.room_of_canStore hcan hc) htotal ha hl⟩
    · obtain ⟨flushed, t, hflush, hcollection, htotal, ha, hl, -⟩ := h.toFits.flushSegment hcfg.sizeofIdx_le
      rw [hflush]
      dsimp only
      have hzero : t.collection.Counted ∧ t.collection.runsInSegment = 0 ∧ t.collection.arraysInSegment = 0 := by
        rw [hcollection]
        split
        · rename_i hcount
          exact ⟨h.counted, h.fresh rfl hcount⟩
        · exact ⟨⟨rfl, Nat.zero_le _, Nat.zero_le _⟩, rfl, rfl⟩
      obtain ⟨hcounted, hruns, harrays⟩ := hzero
      have hempty := hcfg.fits_createEmptySegment hcounted hruns harrays
      obtain ⟨t', ht', htotal', ha', hl'⟩ := hplace (t.createEmptySegment cfg) (s.nextContainerSize cfg)
      refine ⟨t', ht', hinv t' (hempty.placeContainer ht' fun c hc => ?_) (htotal'.trans htotal) (ha'.trans ha)
        (hl'.trans hl)⟩
      obtain ⟨-, hruns', harrays'⟩ := addMetadata_spec hempty.counted hc
      have hsize : s.nextContainerSize cfg ≤ roaringContainerSize := by
        unfold nextContainerSize alignValue bitsPerValue roaringContainerSize
        omega
      have hbase : (cfg.ptr t.segments + sizeofIdx) % 8 = 0 := by
        have := hcfg.ptr t.segments
        unfold sizeofIdx
        omega
      have hone : c.runsInSegment = if m.isRun then 1 else 0 := by
        rw [hruns']
        simp [createEmptySegment, hruns]
      have hother : c.arraysInSegment = if m.isRun then 0 else 1 := by
        rw [harrays']
        simp [createEmptySegment, harrays]
      have hroom := hcfg.room_first hsmall hsize hbase hone hother
      have hspace : (t.createEmptySegment cfg).getAvailableSpace = cfg.blockSize - sizeofIdx := by
        unfold getAvailableSpace createEmptySegment
        dsimp only
        omega
      rw [hspace]
      exact hroom

theorem Config.Analyzed.inv_of_reached (h : cfg.Analyzed) (hr : Reached cfg stage s) : Inv cfg stage s := by
  induction hr with
  | construct => exact h.inv_construct
  | initializeContainer _ hs ih =>
    obtain ⟨s', hs', hinv⟩ := ih.initializeContainer h
    rw [hs'] at hs
    cases hs
    exact hinv
  | handleValues bitSet amount _ _ hw ih => exact ih.handleValues bitSet hw
  | flushContainer _ hfull ih => exact ih.flushContainer hfull

/-- Wherever the compression is, what `CanStore` allows leaves the aligned data and the metadata of the segment in the space
of the block; the next container is initialised; and a flush, of the segment as it is or at the end of the values, writes the
metadata behind all containers, which are apart, and inside the block. -/
theorem flush_inside (h : cfg.Analyzed) (hr : Reached cfg stage s) :
    (∀ containerSize m s', s.canStore containerSize m = true → s.placeContainer containerSize m = .ok s' →
      alignValue 8 s'.getUsedDataSpace + s'.collection.getMetadataSizeForSegment ≤ s'.getAvailableSpace) ∧
    (stage = .next → ∃ s', s.initializeContainer cfg = .ok s') ∧
    s.kept.Pairwise Range.Apart ∧
    ∀ t, t = s ∨ t = s.flushContainer → ∃ flushed t', t.flushSegment cfg = .ok (flushed, t') ∧
      ∀ f ∈ flushed, ∀ r ∈ f.metadata, r.Between (t.handle + sizeofIdx) (t.handle + cfg.blockSize) ∧
        ∀ d ∈ t.kept, t.handle + sizeofIdx ≤ d.start ∧ d.start + d.size ≤ r.start := by
  have hinv := h.inv_of_reached hr
  refine ⟨?_, ?_, hinv.apart, ?_⟩
  · intro containerSize m s' hcan hp
    exact (hinv.toFits.placeContainer hp fun c hc => hinv.toFits.room_of_canStore hcan hc).room
  · rintro rfl
    obtain ⟨s', hs', -⟩ := hinv.initializeContainer h
    exact ⟨s', hs'⟩
  · intro t ht
    have hfits : Fits cfg t := by
      rcases ht with rfl | rfl
      · exact hinv.toFits
      · exact hinv.toFits.flushContainer
    obtain ⟨flushed, t', hflush, -, -, -, -, hmetadata⟩ := hfits.flushSegment h.sizeofIdx_le
    refine ⟨flushed, t', hflush, fun f hf r hr => ?_⟩
    obtain ⟨hlo, hhi, hranges⟩ := hmetadata f hf
    obtain ⟨hbetween, hbehind⟩ := hranges r hr
    unfold Range.Between at hbetween ⊢
    exact ⟨by omega, fun d hd => ⟨(hfits.kept d hd).1, hbehind d hd⟩⟩

/-- A container that is full with few nulls, and one of a hundred values that alternate. -/
def twoContainers : Config where
  blockSize := 262144 - 8
  ptr k := 262144 * k + 8
  totalCount := 2148
  containerMetadata := [ContainerMetadata.createMetadata 2048 3 2045 2, ContainerMetadata.createMetadata 100 50 50 50]

theorem analyzed_twoContainers : twoContainers.Analyzed := by
  constructor
  · intro k
    show (262144 * k + 8) % 8 = 0
    omega
  · decide
  · intro m hm
    simp only [twoContainers, List.mem_cons, List.not_mem_nil, or_false] at hm
    rcases hm with rfl | rfl
    · exact ⟨2048, 3, 2045, 2, by decide, by decide, by decide, rfl⟩
    · exact ⟨100, 50, 50, 50, by decide, by decide, by decide, rfl⟩
  · decide

/-- The first container has been flushed, and the second one is placed. -/
theorem flush_inside_twoContainers : ∃ s, Reached twoContainers .next s ∧ s.totalCount = 2048 ∧
    s.canStore 100 (ContainerMetadata.createMetadata 100 50 50 50) = true ∧
    ∀ s', s.placeContainer 100 (ContainerMetadata.createMetadata 100 50 50 50) = .ok s' →
      alignValue 8 s'.getUsedDataSpace + s'.collection.getMetadataSizeForSegment ≤ s'.getAvailableSpace := by
  have hfirst : Reached twoContainers .filling _ := .initializeContainer .construct rfl
  have hfilled := (hfirst.handleValues true 3 (by decide) (by decide)).handleValues false 2045 (by decide) (by decide)
  have hreached := hfilled.flushContainer (by decide)
  exact ⟨_, hreached, rfl, rfl, fun s' hp => (flush_inside analyzed_twoContainers hreached).1 100 _ s' rfl hp⟩

end Segments

end Haybarn.Roaring
