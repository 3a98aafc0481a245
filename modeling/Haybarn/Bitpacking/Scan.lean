/-
Reading a segment. The state of a scan is at a row of the segment: it has loaded the group of the row, and behind a group of
differences it has their sum. Every round of a scan, every skip and every load of a group goes from row to row, and what is
scanned on the way are the values of the groups.
-/
import Haybarn.Bitpacking.Layout

namespace Haybarn.Bitpacking

open Lib Wal Nat
open List hiding count

variable {t : IntType}

/-! ## Words -/

variable {block : Block} {ptr offset : Nat} {mode : BitpackingMode}

theorem load_of_has {bytes value : Nat} (h : block.Has ptr (writeWord bytes value))
    (hvalue : value < 256 ^ bytes) : load block ptr bytes = value := by
  rw [load, h.read_eq_of_length (writeWord_length _ _), wordValue_writeWord hvalue]

theorem pow_bytes (t : IntType) : 256 ^ t.bytes = 2 ^ t.bits := by
  rw [IntType.bits, show 256 = 2 ^ 8 from rfl, ← pow_mul]

theorem loadValue_of_has {v : t.Value} (h : block.Has ptr (writeWord t.bytes v.toNat)) :
    ScanState.loadValue block ptr = v := by
  rw [ScanState.loadValue, load_of_has h (by rw [pow_bytes]; exact v.isLt), BitVec.ofNat_toNat, BitVec.setWidth_eq]

theorem loadWidth_of_has {width : Nat} (h : block.Has ptr (writeWord t.bytes width))
    (hwidth : width ≤ t.bits) : load block ptr t.bytes % 256 = width := by
  have hbits : t.bits ≤ 128 := by
    have := t.bytes_le
    unfold IntType.bits
    omega
  have hpow : t.bits < 256 ^ t.bytes := by
    rw [pow_bytes]
    exact Nat.lt_two_pow_self
  rw [load_of_has h (by omega), Nat.mod_eq_of_lt (by omega)]

theorem BitpackingMode.ofCode_code (mode : BitpackingMode) : BitpackingMode.ofCode mode.code = mode := by
  cases mode <;> rfl

theorem encodeMeta_eq (h : offset < 2 ^ 24) :
    encodeMeta mode offset = 2 ^ 24 * mode.code + offset := by
  unfold encodeMeta
  rw [Nat.or_comm, ← Nat.shiftLeft_add_eq_or_of_lt h, Nat.shiftLeft_eq, Nat.mul_comm]

theorem BitpackingMode.code_le (mode : BitpackingMode) : mode.code ≤ 5 := by
  cases mode <;> decide

theorem encodeMeta_lt (h : offset < 2 ^ 24) : encodeMeta mode offset < 256 ^ 4 := by
  have hcode := mode.code_le
  rw [encodeMeta_eq h]
  omega

theorem decodeMeta_encodeMeta (h : offset < 2 ^ 24) :
    decodeMeta (encodeMeta mode offset) = (mode, offset) := by
  have hcode := mode.code_le
  unfold decodeMeta
  rw [encodeMeta_eq h, shiftRight_eq_div_pow, mul_add_div (by decide), div_eq_of_lt h, add_zero,
    show 0xFF = 2 ^ 8 - 1 from rfl, show 0x00FFFFFF = 2 ^ 24 - 1 from rfl, and_two_pow_sub_one_eq_mod,
    and_two_pow_sub_one_eq_mod, mod_eq_of_lt (by omega), BitpackingMode.ofCode_code, mul_add_mod,
    mod_eq_of_lt h]

/-! ## A group that is loaded -/

variable (packing : Packing t.bits) (block : Block)

namespace ScanState

/-- A group is loaded, and the state is at its current offset. -/
structure Loaded (s : ScanState t) (g : Group t) : Prop where
  mode : s.mode = g.mode
  group : match g with
    | .constant c _ => s.currentConstant = c
    | .constantDelta c frameOfReference _ => s.currentConstant = c ∧ s.currentFrameOfReference = frameOfReference
    | .deltaFor values width frameOfReference deltaOffset count =>
      s.currentWidth = width ∧ s.currentFrameOfReference = frameOfReference ∧
        s.currentDeltaOffset = deltaSum values width frameOfReference deltaOffset s.currentGroupOffset ∧
        block.Has s.currentGroupPtr (packed packing values count width)
    | .for_ values width frameOfReference count =>
      s.currentWidth = width ∧ s.currentFrameOfReference = frameOfReference ∧
        block.Has s.currentGroupPtr (packed packing values count width)

variable {packing block} {s : ScanState t} {g : Group t}

theorem loadNextGroup_ok {blockOffset offset : Nat} (hoffset : offset < 2 ^ 24) (hwidth : g.WidthOk)
    (hmeta : block.Has s.bitpackingMetadataPtr (writeWord 4 (encodeMeta g.mode offset)))
    (hbytes : block.Has (blockOffset + offset) (g.bytes packing)) :
    ∃ s', loadNextGroup block blockOffset s = .ok s' ∧ s'.Loaded packing block g ∧ s'.currentGroupOffset = 0 ∧
      s'.bitpackingMetadataPtr = s.bitpackingMetadataPtr - metadataSize := by
  unfold loadNextGroup
  rw [metadataSize, load_of_has hmeta (encodeMeta_lt hoffset), decodeMeta_encodeMeta hoffset]
  cases g with
  | constant c count =>
    exact ⟨_, rfl, ⟨rfl, loadValue_of_has hbytes⟩, rfl, rfl⟩
  | constantDelta c frameOfReference count =>
    rw [Group.bytes, Cells.has_append, writeWord_length] at hbytes
    exact ⟨_, rfl, ⟨rfl, loadValue_of_has hbytes.2, loadValue_of_has hbytes.1⟩, rfl, rfl⟩
  | deltaFor values width frameOfReference deltaOffset count =>
    simp only [Group.bytes, Cells.has_append, writeWord_length] at hbytes
    obtain ⟨hframe, hwidth', hdelta, hpacked⟩ := hbytes
    exact ⟨_, rfl, ⟨rfl, loadWidth_of_has hwidth' hwidth, loadValue_of_has hframe, loadValue_of_has hdelta, hpacked⟩, rfl, rfl⟩
  | for_ values width frameOfReference count =>
    simp only [Group.bytes, Cells.has_append, writeWord_length] at hbytes
    obtain ⟨hframe, hwidth', hpacked⟩ := hbytes
    exact ⟨_, rfl, ⟨rfl, loadWidth_of_has hwidth' hwidth, loadValue_of_has hframe, hpacked⟩, rfl, rfl⟩

/-! ## Unpacking -/

theorem decompressionGroupStartPointer_eq (s : ScanState t) : s.decompressionGroupStartPointer
    = s.currentGroupPtr + s.currentGroupOffset / algorithmGroupSize * (4 * s.currentWidth) := by
  unfold decompressionGroupStartPointer
  have hsplit : s.currentGroupOffset * s.currentWidth
      = 8 * (s.currentGroupOffset / algorithmGroupSize * (4 * s.currentWidth))
        + s.currentGroupOffset % algorithmGroupSize * s.currentWidth := by
    conv_lhs => rw [← Nat.div_add_mod s.currentGroupOffset algorithmGroupSize, Nat.add_mul]
    unfold algorithmGroupSize
    ring
  simp only [hsplit]
  rw [Nat.mul_add_div (by decide), ← Nat.add_assoc, Nat.add_sub_cancel]

theorem unPackBlock_eq {values : Nat → t.Value} {width count q r : Nat} (hwidth : s.currentWidth = width) (hle : width ≤ t.bits)
    (hpacked : block.Has s.currentGroupPtr (packed packing values count width)) (hr : r < algorithmGroupSize)
    (hcount : algorithmGroupSize * q + r < count) :
    s.unPackBlock packing block (s.currentGroupPtr + q * (4 * width)) r = lowBits width (values (algorithmGroupSize * q + r)) := by
  have hq : q < roundUpToAlgorithmGroupSize count / algorithmGroupSize := by
    unfold roundUpToAlgorithmGroupSize algorithmGroupSize at *
    split <;> omega
  have hgroup := Cells.Has.flatMap (fun _ => packing.length_pack _ _) hpacked (getElem?_range hq)
  have hread : block.read (s.currentGroupPtr + q * (4 * width)) (4 * width)
      = packing.pack width (CompressionState.algorithmGroup values count q) :=
    hgroup.read_eq_of_length (packing.length_pack _ _)
  unfold unPackBlock
  rw [hwidth, hread]
  apply BitVec.eq_of_toNat_eq
  rw [packing.unpack_pack width _ r hle hr, CompressionState.algorithmGroup, if_pos hcount, lowBits, BitVec.toNat_ofNat,
    mod_eq_of_lt (a := _ % _)]
  exact (mod_le _ _).trans_lt (BitVec.isLt _)

theorem applyFrameOfReference_eq (frameOfReference : t.Value) (values : List t.Value) :
    applyFrameOfReference frameOfReference values = values.map (· + frameOfReference) := by
  unfold applyFrameOfReference
  split
  · rename_i hzero
    simp [hzero]
  · rfl

theorem deltaDecode_eq (values : Nat → t.Value) (width : Nat) (frameOfReference deltaOffset : t.Value) : ∀ (n o : Nat),
    deltaDecode (deltaSum values width frameOfReference deltaOffset o)
      ((range' o n).map fun i => lowBits width (values i) + frameOfReference)
      = (range' o n).map fun i => deltaSum values width frameOfReference deltaOffset (i + 1)
  | 0, _ => rfl
  | n + 1, o => by
    have hrest := deltaDecode_eq values width frameOfReference deltaOffset n (o + 1)
    rw [range'_succ, map_cons, map_cons, deltaDecode]
    exact congrArg (_ :: ·) hrest

/-- The state behind rows of the group. -/
def advance (s : ScanState t) (g : Group t) (n : Nat) : ScanState t :=
  { s with
    currentGroupOffset := s.currentGroupOffset + n
    currentDeltaOffset := match g with
      | .deltaFor values width frameOfReference deltaOffset _ =>
        deltaSum values width frameOfReference deltaOffset (s.currentGroupOffset + n)
      | _ => s.currentDeltaOffset }

theorem Loaded.advance (h : s.Loaded packing block g) (n : Nat) : (s.advance g n).Loaded packing block g := by
  obtain ⟨hmode, hgroup⟩ := h
  cases g with
  | constant => exact ⟨hmode, hgroup⟩
  | constantDelta => exact ⟨hmode, hgroup⟩
  | deltaFor => exact ⟨hmode, hgroup.1, hgroup.2.1, rfl, hgroup.2.2.2⟩
  | for_ => exact ⟨hmode, hgroup⟩

theorem decodeAlgorithmGroup_eq (h : s.Loaded packing block g) (hwidth : g.WidthOk) {n : Nat} (hpos : 0 < n)
    (hmode : g.mode = .deltaFor ∨ g.mode = .for_) (hn : s.currentGroupOffset % algorithmGroupSize + n ≤ algorithmGroupSize)
    (hcount : s.currentGroupOffset + n ≤ g.count) :
    s.decodeAlgorithmGroup packing block n = ((range' s.currentGroupOffset n).map g.value, s.advance g n) := by
  have hpointer := s.decompressionGroupStartPointer_eq
  have hdivmod := div_add_mod s.currentGroupOffset algorithmGroupSize
  -- what is unpacked, of both modes
  have hunpacked : ∀ {values : Nat → t.Value} {width : Nat}, s.currentWidth = width → width ≤ t.bits →
      block.Has s.currentGroupPtr (packed packing values g.count width) →
      applyFrameOfReference s.currentFrameOfReference ((range n).map fun i =>
        s.unPackBlock packing block s.decompressionGroupStartPointer (s.currentGroupOffset % algorithmGroupSize + i))
        = (range' s.currentGroupOffset n).map fun i => lowBits width (values i) + s.currentFrameOfReference := by
    intro values width hw hle hpacked
    rw [applyFrameOfReference_eq, range'_eq_map_range, map_map, map_map]
    apply map_congr_left
    intro i hi
    rw [mem_range] at hi
    simp only [Function.comp_apply]
    rw [hpointer, hw, unPackBlock_eq hw hle hpacked (by omega) (by omega), ← add_assoc, hdivmod]
  have hgroup := h.group
  have hloaded := h.mode
  unfold decodeAlgorithmGroup
  rw [hloaded]
  cases g with
  | constant => simp [Group.mode] at hmode
  | constantDelta => simp [Group.mode] at hmode
  | deltaFor values width frameOfReference deltaOffset count =>
    obtain ⟨hw, hframe, hdelta, hpacked⟩ := hgroup
    have hlast : ((range' s.currentGroupOffset n).map fun i =>
        deltaSum values width frameOfReference deltaOffset (i + 1)).getLastD 0
        = deltaSum values width frameOfReference deltaOffset (s.currentGroupOffset + n) := by
      obtain ⟨m, rfl⟩ : ∃ m, n = m + 1 := ⟨n - 1, by omega⟩
      rw [range'_concat, map_append, map_singleton, getLastD_concat, one_mul, add_assoc]
    simp only [Group.mode, if_true]
    rw [hunpacked hw hwidth hpacked, hframe, hdelta, deltaDecode_eq, hlast]
    simp only [advance, hframe, hloaded]
    rfl
  | for_ values width frameOfReference count =>
    obtain ⟨hw, hframe, hpacked⟩ := hgroup
    have hne : (Group.for_ values width frameOfReference count).mode ≠ .deltaFor := by simp [Group.mode]
    simp only [hne, if_false]
    rw [hunpacked hw hwidth hpacked, hframe]
    simp only [advance, hframe, hloaded]
    rfl

theorem skipLoop_eq (hwidth : g.WidthOk) (hmode : g.mode = .deltaFor) : ∀ {fuel n : Nat} {s : ScanState t},
    s.Loaded packing block g → n < fuel → s.currentGroupOffset + n ≤ g.count →
    skipLoop packing block fuel s n = s.advance g n
  | fuel + 1, n, s, h, hfuel, hcount => by
    unfold skipLoop
    by_cases hn : n = 0
    · subst hn
      rw [if_pos rfl]
      have hgroup := h.group
      cases g with
      | constant => rfl
      | constantDelta => rfl
      | for_ => rfl
      | deltaFor values width frameOfReference deltaOffset count =>
        unfold advance
        simp only [add_zero]
        rw [← hgroup.2.2.1]
    · simp only [if_neg hn]
      have hmod := mod_lt s.currentGroupOffset (show 0 < algorithmGroupSize by decide)
      have hmin : 0 < min n (algorithmGroupSize - s.currentGroupOffset % algorithmGroupSize) := by omega
      rw [decodeAlgorithmGroup_eq h hwidth hmin (.inl hmode) (by omega) (by omega),
        skipLoop_eq hwidth hmode (h.advance _) (by omega) (by show _ + _ + _ ≤ _; omega)]
      cases g with
      | constant => simp [Group.mode] at hmode
      | constantDelta => simp [Group.mode] at hmode
      | for_ => simp [Group.mode] at hmode
      | deltaFor =>
        unfold advance
        simp only
        rw [show s.currentGroupOffset + min n (algorithmGroupSize - s.currentGroupOffset % algorithmGroupSize)
          + (n - min n (algorithmGroupSize - s.currentGroupOffset % algorithmGroupSize)) = s.currentGroupOffset + n from by omega]

theorem scanRound_eq (h : s.Loaded packing block g) (hwidth : g.WidthOk) {remaining : Nat} (hpos : 0 < remaining)
    (hoffset : s.currentGroupOffset < metadataGroupSize)
    (hcount : s.currentGroupOffset + min remaining (metadataGroupSize - s.currentGroupOffset) ≤ g.count) :
    ∃ n, 0 < n ∧ n ≤ remaining ∧ s.currentGroupOffset + n ≤ metadataGroupSize ∧
      s.scanRound packing block remaining = ((range' s.currentGroupOffset n).map g.value, s.advance g n) := by
  have hmod := mod_lt s.currentGroupOffset (show 0 < algorithmGroupSize by decide)
  have hgroups : s.currentGroupOffset + (algorithmGroupSize - s.currentGroupOffset % algorithmGroupSize) ≤ metadataGroupSize := by
    unfold algorithmGroupSize metadataGroupSize at *
    omega
  have hmode := h.mode
  unfold scanRound
  rw [hmode]
  cases g with
  | constant c count =>
    refine ⟨min remaining (metadataGroupSize - s.currentGroupOffset), by omega, by omega, by omega, ?_⟩
    have hvalues : (range' s.currentGroupOffset (min remaining (metadataGroupSize - s.currentGroupOffset))).map
        (Group.constant c count).value
        = replicate (min remaining (metadataGroupSize - s.currentGroupOffset)) c := by
      unfold Group.value
      rw [map_const', length_range']
    rw [hvalues]
    simp only [Group.mode, advance, hmode]
    rw [show s.currentConstant = c from h.group]
  | constantDelta c frameOfReference count =>
    refine ⟨min remaining (metadataGroupSize - s.currentGroupOffset), by omega, by omega, by omega, ?_⟩
    obtain ⟨hconstant, hframe⟩ := h.group
    simp only [Group.mode, advance, hmode]
    rw [hconstant, hframe, range'_eq_map_range, map_map]
    rfl
  | deltaFor values width frameOfReference deltaOffset count =>
    refine ⟨min remaining (algorithmGroupSize - s.currentGroupOffset % algorithmGroupSize), by omega, by omega, by omega, ?_⟩
    exact decodeAlgorithmGroup_eq h hwidth (by omega) (.inl rfl) (by omega) (by omega)
  | for_ values width frameOfReference count =>
    refine ⟨min remaining (algorithmGroupSize - s.currentGroupOffset % algorithmGroupSize), by omega, by omega, by omega, ?_⟩
    exact decodeAlgorithmGroup_eq h hwidth (by omega) (.inr rfl) (by omega) (by omega)

end ScanState

/-! ## A segment that is read -/

/-- The groups of a segment can be read: every row is in its group. -/
structure Readable (base size : Nat) (gs : List (Group t)) (count : Nat) : Prop where
  stored : Stored packing block base size gs
  size_lt : size < 2 ^ 24
  width : ∀ g ∈ gs, g.WidthOk
  reach : ∀ row, row < count → ∃ g, gs[row / metadataGroupSize]? = some g ∧ row % metadataGroupSize < g.count

/-- The value at a row of a segment. -/
def segmentValue (gs : List (Group t)) (row : Nat) : t.Value :=
  match gs[row / metadataGroupSize]? with
  | some g => g.value (row % metadataGroupSize)
  | none => 0

theorem segmentValue_eq {gs : List (Group t)} {k i : Nat} {g : Group t} (hg : gs[k]? = some g) (hi : i < metadataGroupSize) :
    segmentValue gs (metadataGroupSize * k + i) = g.value i := by
  have hdiv : (metadataGroupSize * k + i) / metadataGroupSize = k := by
    rw [mul_add_div (by decide), div_eq_of_lt hi, add_zero]
  have hmod : (metadataGroupSize * k + i) % metadataGroupSize = i := by
    rw [mul_add_mod, mod_eq_of_lt hi]
  unfold segmentValue
  rw [hdiv, hg, hmod]

namespace ScanState

/-- The state is at a row: it has loaded the group of the row, or it is behind the last row of a group that is full. -/
structure At (base size : Nat) (gs : List (Group t)) (s : ScanState t) (row : Nat) : Prop where
  group : ∃ k g, gs[k]? = some g ∧ s.Loaded packing block g ∧ s.currentGroupOffset ≤ metadataGroupSize ∧
    row = metadataGroupSize * k + s.currentGroupOffset ∧
    s.bitpackingMetadataPtr + metadataSize = base + (size - metadataSize * (k + 1))

variable {packing block} {s : ScanState t} {base size count row n : Nat} {gs : List (Group t)}

variable {g : Group t}

theorem loadNextGroup_at (h : Readable packing block base size gs count) {k : Nat} (hg : gs[k]? = some g)
    (hptr : s.bitpackingMetadataPtr = base + (size - metadataSize * (k + 1))) :
    ∃ s', loadNextGroup block base s = .ok s' ∧ s'.Loaded packing block g ∧ s'.currentGroupOffset = 0 ∧
      s'.bitpackingMetadataPtr + metadataSize = base + (size - metadataSize * (k + 1)) := by
  obtain ⟨offset, hoffset, hle, hbytes, hmeta⟩ := h.stored.groups k g hg
  have hsize := h.size_lt
  have hstored := h.stored.le_size
  have hk : k < gs.length := (List.getElem?_eq_some_iff.1 hg).1
  obtain ⟨s', hok, hloaded, hzero, hptr'⟩ := loadNextGroup_ok (s := s) (by omega) (h.width g (List.mem_of_getElem? hg))
    (hptr ▸ hmeta) hbytes
  refine ⟨s', hok, hloaded, hzero, ?_⟩
  rw [hptr', hptr]
  unfold headerSize metadataSize at *
  omega

theorem new_at (h : Readable packing block base size gs count) (hcount : 0 < count) {blockSize : Nat}
    (hsize : base + size ≤ blockSize) :
    ∃ s : ScanState t, new block base blockSize = .ok s ∧ s.At packing block base size gs 0 := by
  obtain ⟨g, hg, -⟩ := h.reach 0 hcount
  rw [Nat.zero_div] at hg
  have hstored := h.stored.le_size
  have hlt := h.size_lt
  have hload : load block base 8 = size := load_of_has h.stored.header (by omega)
  unfold headerSize at hstored
  obtain ⟨s', hok, hloaded, hzero, hptr⟩ := loadNextGroup_at (s := ⟨.invalid, 0, 0, 0, 0, 0, 0, base + size - metadataSize⟩) h hg
    (by show base + size - metadataSize = _; unfold metadataSize; omega)
  refine ⟨s', ?_, 0, g, hg, hloaded, ?_, ?_, hptr⟩
  · unfold new
    simp only [hload]
    rw [if_neg (by unfold metadataSize; omega)]
    exact hok
  · omega
  · omega

theorem At.advance {k : Nat} (hg : gs[k]? = some g) (hloaded : s.Loaded packing block g)
    (hptr : s.bitpackingMetadataPtr + metadataSize = base + (size - metadataSize * (k + 1)))
    (hn : s.currentGroupOffset + n ≤ metadataGroupSize) :
    (s.advance g n).At packing block base size gs (metadataGroupSize * k + s.currentGroupOffset + n) :=
  ⟨k, g, hg, hloaded.advance n, hn, add_assoc _ _ _, hptr⟩

theorem At.load (h : Readable packing block base size gs count) (hat : s.At packing block base size gs row) (hrow : row < count) :
    ∃ s' k g, s.loadExhausted block base = .ok s' ∧
      gs[k]? = some g ∧ s'.Loaded packing block g ∧ s'.currentGroupOffset < metadataGroupSize ∧
      row = metadataGroupSize * k + s'.currentGroupOffset ∧
      s'.bitpackingMetadataPtr + metadataSize = base + (size - metadataSize * (k + 1)) := by
  obtain ⟨k, g, hg, hloaded, hoffset, rfl, hptr⟩ := hat
  by_cases hfull : s.currentGroupOffset = metadataGroupSize
  · obtain ⟨g', hg', -⟩ := h.reach _ hrow
    have hdiv : (metadataGroupSize * k + s.currentGroupOffset) / metadataGroupSize = k + 1 := by
      rw [hfull, Nat.mul_add_div (by decide), Nat.div_self (by decide)]
    rw [hdiv] at hg'
    have hk : k + 1 < gs.length := (List.getElem?_eq_some_iff.1 hg').1
    have hstored := h.stored.le_size
    obtain ⟨s', hok, hloaded', hzero, hptr'⟩ := loadNextGroup_at h hg' (s := s) (by
      unfold headerSize metadataSize at *
      omega)
    refine ⟨s', k + 1, g', ?_, hg', hloaded', ?_, ?_, hptr'⟩
    · rw [loadExhausted, if_pos hfull]
      exact hok
    · rw [hzero]
      decide
    · rw [hzero, hfull]
      rfl
  · exact ⟨s, k, g, if_neg hfull, hg, hloaded, by omega, rfl, hptr⟩

theorem le_count (h : Readable packing block base size gs count) {k : Nat} (hg : gs[k]? = some g) {o m : Nat}
    (hm : o + m ≤ metadataGroupSize) (hpos : 0 < m) (hcount : metadataGroupSize * k + o + m ≤ count) : o + m ≤ g.count := by
  obtain ⟨g', hg', hlt⟩ := h.reach (metadataGroupSize * k + (o + m - 1)) (by omega)
  rw [mul_add_div (by decide), div_eq_of_lt (by omega), add_zero, hg] at hg'
  obtain rfl := Option.some.inj hg'
  rw [mul_add_mod, mod_eq_of_lt (by omega)] at hlt
  omega

theorem scanLoop_ok (h : Readable packing block base size gs count) : ∀ {fuel n row : Nat} {s : ScanState t},
    s.At packing block base size gs row → row + n ≤ count → n < fuel →
    ∃ s', scanLoop packing block base fuel s n = .ok ((range' row n).map (segmentValue gs), s') ∧
      s'.At packing block base size gs (row + n)
  | fuel + 1, n, row, s, hat, hcount, hfuel => by
    unfold scanLoop
    by_cases hn : n = 0
    · subst hn
      exact ⟨s, rfl, hat⟩
    · rw [if_neg hn]
      obtain ⟨s₁, k, g, hload, hg, hloaded, hoffset, rfl, hptr⟩ := hat.load h (by omega)
      have hle := le_count h hg (o := s₁.currentGroupOffset) (m := min n (metadataGroupSize - s₁.currentGroupOffset))
        (by omega) (by omega) (by omega)
      obtain ⟨m, hpos, hmn, hmo, hround⟩ := scanRound_eq hloaded (h.width g (mem_of_getElem? hg)) (Nat.pos_of_ne_zero hn)
        hoffset hle
      have hvalues : (range' s₁.currentGroupOffset m).map g.value
          = (range' (metadataGroupSize * k + s₁.currentGroupOffset) m).map (segmentValue gs) := by
        rw [range'_eq_map_range, range'_eq_map_range, map_map, map_map]
        apply map_congr_left
        intro i hi
        rw [mem_range] at hi
        simp only [Function.comp_apply]
        rw [Nat.add_assoc, segmentValue_eq hg (by omega)]
      obtain ⟨s₂, hrest, hat₂⟩ := scanLoop_ok h (At.advance hg hloaded hptr hmo) (show _ + (n - m) ≤ _ by omega)
        (show n - m < fuel by omega)
      refine ⟨s₂, ?_, ?_⟩
      · simp only [bind, Except.bind, hload, hround, length_map, length_range', hrest]
        show Except.ok (_, _) = Except.ok (_, _)
        rw [hvalues, ← map_append, range'_append_1, Nat.add_sub_cancel' hmn]
      · rwa [show metadataGroupSize * k + s₁.currentGroupOffset + m + (n - m)
          = metadataGroupSize * k + s₁.currentGroupOffset + n from by omega] at hat₂

theorem skipRows_eq (hloaded : s.Loaded packing block g) (hwidth : g.WidthOk)
    (hn : s.currentGroupOffset + n ≤ g.count) : s.skipRows packing block n = s.advance g n := by
  have hmode := hloaded.mode
  unfold skipRows
  cases g with
  | constant =>
    rw [if_neg (by simp [hmode, Group.mode])]
    rfl
  | constantDelta =>
    rw [if_neg (by simp [hmode, Group.mode])]
    rfl
  | for_ =>
    rw [if_neg (by simp [hmode, Group.mode])]
    rfl
  | deltaFor =>
    rw [if_pos (by rw [hmode]; rfl)]
    exact skipLoop_eq hwidth rfl hloaded n.lt_succ_self hn

theorem skip_ok (h : Readable packing block base size gs count) (hat : s.At packing block base size gs row)
    (hn : row + n < count) :
    ∃ s' k g, s.skip packing block base n = .ok s' ∧ gs[k]? = some g ∧ s'.Loaded packing block g ∧
      s'.currentGroupOffset < metadataGroupSize ∧ row + n = metadataGroupSize * k + s'.currentGroupOffset ∧
      s'.bitpackingMetadataPtr + metadataSize = base + (size - metadataSize * (k + 1)) := by
  obtain ⟨k, g, hg, hloaded, hoffset, rfl, hptr⟩ := hat
  unfold skip skipGroups
  have hdivmod := Nat.div_add_mod (n + s.currentGroupOffset) metadataGroupSize
  have hmod := Nat.mod_lt (n + s.currentGroupOffset) (show 0 < metadataGroupSize by decide)
  by_cases hm : (n + s.currentGroupOffset) / metadataGroupSize = 0
  · -- in the group
    rw [hm, Nat.mul_zero, Nat.zero_add] at hdivmod
    have hle : s.currentGroupOffset + n + 1 ≤ g.count := le_count h hg (m := n + 1) (by omega) n.succ_pos (by omega)
    simp only [hm, ne_eq, not_true_eq_false, if_false]
    show ∃ s' k g, Except.ok (s.skipRows packing block n) = .ok s' ∧ _
    rw [skipRows_eq hloaded (h.width g (List.mem_of_getElem? hg)) (by omega)]
    refine ⟨_, k, g, rfl, hg, hloaded.advance n, ?_, Nat.add_assoc _ _ _, hptr⟩
    show s.currentGroupOffset + n < metadataGroupSize
    omega
  · -- in a later group
    obtain ⟨m, hmeta⟩ : ∃ m, (n + s.currentGroupOffset) / metadataGroupSize = m + 1 := ⟨_, (Nat.succ_pred hm).symm⟩
    rw [hmeta, Nat.mul_succ] at hdivmod
    obtain ⟨g', hg', hlt⟩ := h.reach _ hn
    have hrow : metadataGroupSize * k + s.currentGroupOffset + n
        = metadataGroupSize * (k + m + 1) + (n + s.currentGroupOffset) % metadataGroupSize := by
      rw [Nat.mul_succ, Nat.mul_add]
      omega
    rw [hrow, Nat.mul_add_div (by decide), Nat.div_eq_of_lt hmod, Nat.add_zero] at hg'
    rw [hrow, Nat.mul_add_mod, Nat.mod_eq_of_lt hmod] at hlt
    have hk : k + m + 1 < gs.length := (List.getElem?_eq_some_iff.1 hg').1
    have hstored := h.stored.le_size
    obtain ⟨s', hok, hloaded', hzero, hptr'⟩ := loadNextGroup_at h hg'
      (s := { s with bitpackingMetadataPtr := s.bitpackingMetadataPtr - (m + 1 - 1) * metadataSize }) (by
        show s.bitpackingMetadataPtr - (m + 1 - 1) * metadataSize = _
        unfold headerSize metadataSize at *
        omega)
    simp only [hmeta, ne_eq, Nat.succ_ne_zero, not_false_eq_true, if_true]
    rw [hok]
    have hskipped : n - (metadataGroupSize - s.currentGroupOffset + (m + 1 - 1) * metadataGroupSize)
        = (n + s.currentGroupOffset) % metadataGroupSize := by
      rw [Nat.add_sub_cancel, Nat.mul_comm m]
      omega
    show ∃ s'' k g, Except.ok (s'.skipRows packing block
      (n - (metadataGroupSize - s.currentGroupOffset + (m + 1 - 1) * metadataGroupSize))) = .ok s'' ∧ _
    rw [hskipped, skipRows_eq hloaded' (h.width g' (List.mem_of_getElem? hg')) (by omega)]
    refine ⟨_, k + m + 1, g', rfl, hg', hloaded'.advance _, ?_, ?_, hptr'⟩
    · show s'.currentGroupOffset + _ < metadataGroupSize
      omega
    · show _ = metadataGroupSize * (k + m + 1) + (s'.currentGroupOffset + _)
      omega

end ScanState

/-! ## Runs of scans and skips -/

/-- What is done with a scan state. -/
inductive ScanOp where
  | scan (count : Nat)
  | skip (count : Nat)
deriving DecidableEq, Repr

namespace ScanOp

/-- The rows that are scanned. -/
def rows : Nat → List ScanOp → List Nat
  | _, [] => []
  | row, scan n :: ops => List.range' row n ++ rows (row + n) ops
  | row, skip n :: ops => rows (row + n) ops

/-- What the callers do: scans stay in the segment, and a skip goes to a row of it. -/
def Allowed (count : Nat) : Nat → List ScanOp → Prop
  | _, [] => True
  | row, scan n :: ops => row + n ≤ count ∧ Allowed count (row + n) ops
  | row, skip n :: ops => row + n < count ∧ Allowed count (row + n) ops

theorem lt_of_mem_rows {count : Nat} : ∀ {row : Nat} {ops : List ScanOp}, Allowed count row ops →
    ∀ {i : Nat}, i ∈ rows row ops → i < count
  | _, [], _, _, hi => by cases hi
  | row, scan n :: ops, hops, i, hi => by
    rcases mem_append.1 hi with hi | hi
    · have hlt := (mem_range'_1.1 hi).2
      have hle := hops.1
      omega
    · exact lt_of_mem_rows hops.2 hi
  | row, skip n :: ops, hops, i, hi => lt_of_mem_rows hops.2 (show i ∈ rows (row + n) ops from hi)

end ScanOp

/-- The values that are scanned. -/
def ScanState.run (packing : Packing t.bits) (block : Block) (blockOffset : Nat) :
    ScanState t → List ScanOp → Except ScanError (List t.Value)
  | _, [] => .ok []
  | s, .scan n :: ops => do
    let (values, s) ← s.scanPartial packing block blockOffset n
    let rest ← run packing block blockOffset s ops
    pure (values ++ rest)
  | s, .skip n :: ops => do
    let s ← s.skip packing block blockOffset n
    run packing block blockOffset s ops

section Segments

variable {packing block} {base size count row : Nat} {gs : List (Group t)}

theorem ScanState.run_ok (h : Readable packing block base size gs count) : ∀ {ops : List ScanOp} {row : Nat} {s : ScanState t},
    s.At packing block base size gs row → ScanOp.Allowed count row ops →
    s.run packing block base ops = .ok ((ScanOp.rows row ops).map (segmentValue gs))
  | [], row, s, _, _ => rfl
  | .scan n :: ops, row, s, hat, hops => by
    obtain ⟨s', hscan, hat'⟩ := scanLoop_ok h hat hops.1 n.lt_succ_self
    rw [run, scanPartial, hscan]
    show (do
      let rest ← s'.run packing block base ops
      pure ((range' row n).map (segmentValue gs) ++ rest)) = _
    rw [run_ok h hat' hops.2, ScanOp.rows, map_append]
    rfl
  | .skip n :: ops, row, s, hat, hops => by
    obtain ⟨s', k, g, hskip, hg, hloaded, hoffset, hrow, hptr⟩ := skip_ok h hat hops.1
    rw [run, hskip]
    show s'.run packing block base ops = _
    rw [run_ok h ⟨k, g, hg, hloaded, hoffset.le, hrow, hptr⟩ hops.2, ScanOp.rows]

/-- What a fetch makes of the value at an offset of a group. -/
def Group.fetched (uninitialized : t.Value) : Group t → Nat → t.Value
  | constantDelta c frameOfReference _, i => castMultiplier t i uninitialized * c + frameOfReference
  | g, i => g.value i

theorem ScanState.fetch_eq {s : ScanState t} {g : Group t} (hloaded : s.Loaded packing block g) (hwidth : g.WidthOk)
    (hcount : s.currentGroupOffset < g.count) (uninitialized : t.Value) :
    s.fetch packing block uninitialized = g.fetched uninitialized s.currentGroupOffset := by
  have hmode := hloaded.mode
  have hgroup := hloaded.group
  have hdivmod := div_add_mod s.currentGroupOffset algorithmGroupSize
  have hmod := mod_lt s.currentGroupOffset (show 0 < algorithmGroupSize by decide)
  -- the start of the algorithm group
  have hpointer : (s.currentGroupOffset - s.currentGroupOffset % algorithmGroupSize) * s.currentWidth / 8
      = s.currentGroupOffset / algorithmGroupSize * (4 * s.currentWidth) := by
    rw [← algorithmGroup_ptr, show s.currentGroupOffset - s.currentGroupOffset % algorithmGroupSize
      = algorithmGroupSize * (s.currentGroupOffset / algorithmGroupSize) from by omega]
  unfold fetch
  rw [hmode]
  cases g with
  | constant => exact hgroup
  | constantDelta =>
    simp only [Group.mode]
    rw [hgroup.1, hgroup.2]
    rfl
  | deltaFor values width frameOfReference deltaOffset count =>
    obtain ⟨hw, hframe, hdelta, hpacked⟩ := hgroup
    have hcount : algorithmGroupSize * (s.currentGroupOffset / algorithmGroupSize) + s.currentGroupOffset % algorithmGroupSize
        < count := hdivmod.symm ▸ hcount
    simp only [Group.mode, if_true]
    rw [hpointer, hw, unPackBlock_eq hw hwidth hpacked hmod hcount, hdivmod, hframe, hdelta]
    rfl
  | for_ values width frameOfReference count =>
    obtain ⟨hw, hframe, hpacked⟩ := hgroup
    have hcount : algorithmGroupSize * (s.currentGroupOffset / algorithmGroupSize) + s.currentGroupOffset % algorithmGroupSize
        < count := hdivmod.symm ▸ hcount
    show s.unPackBlock packing block _ _ + s.currentFrameOfReference = _
    rw [hpointer, hw, unPackBlock_eq hw hwidth hpacked hmod hcount, hdivmod, hframe]
    rfl

theorem fetchRow_eq (h : Readable packing block base size gs count) (hrow : row < count) {blockSize : Nat}
    (hsize : base + size ≤ blockSize) (uninitialized : t.Value) :
    ∃ g, gs[row / metadataGroupSize]? = some g ∧ fetchRow packing block base blockSize row uninitialized
      = .ok (g.fetched uninitialized (row % metadataGroupSize)) := by
  obtain ⟨s₀, hnew, hat⟩ := ScanState.new_at h (by omega) hsize
  obtain ⟨s, k, g, hskip, hg, hloaded, hoffset, hkrow, -⟩ := ScanState.skip_ok (n := row) h hat (by omega)
  rw [zero_add] at hkrow
  have hcount := ScanState.le_count h hg (o := s.currentGroupOffset) (m := 1) (by omega) one_pos (by omega)
  have hdiv : row / metadataGroupSize = k := by
    rw [hkrow, mul_add_div (by decide), div_eq_of_lt hoffset, add_zero]
  have hmod : row % metadataGroupSize = s.currentGroupOffset := by
    rw [hkrow, mul_add_mod, mod_eq_of_lt hoffset]
  rw [hdiv, hmod]
  refine ⟨g, hg, ?_⟩
  rw [fetchRow, hnew]
  show (do
    let s ← s₀.skip packing block base row
    pure (s.fetch packing block uninitialized)) = _
  rw [hskip]
  exact congrArg Except.ok (ScanState.fetch_eq hloaded (h.width g (mem_of_getElem? hg)) hcount uninitialized)

end Segments

end Haybarn.Bitpacking
