/-
Bitpacking is lossless, but for one thing: what a column is compressed to scans back to its values, over whatever segments
and in whatever order of scans and skips, and a fetch of one row agrees with a scan exactly where no group of eight bits with
a sign has a constant difference over more than 128 rows.
-/
import Haybarn.Bitpacking.Fetch
import Haybarn.Lib.Bits
import Haybarn.Metadata.Stream

namespace Haybarn.Bitpacking

open Lib Metadata List Nat

variable {t : IntType}

/-! ## The whole of it -/

/-- `GetBlockSize`. -/
def blockSize (size : BlockSize) : Nat := size.allocSize - size.headerSize

/-- The size that the analysis of a column estimates, where it succeeds. -/
def analysis (size : BlockSize) (mode : BitpackingMode) (uninitialized : Nat → t.Value) (rows : Rows t) : Option Nat :=
  ((BitpackingState.new t mode uninitialized).analyze (blockSize size) rows).bind BitpackingState.finalAnalyze

/-- The segments of a column. -/
def compress (packing : Packing t.bits) (size : BlockSize) (mode : BitpackingMode) (uninitialized : Nat → t.Value)
    (blocks : Nat → Block) (rows : Rows t) : Except CompressionError (List Segment) := do
  let c := CompressionState.new (blockSize size) blocks (BitpackingState.new t mode uninitialized)
  let c ← c.append packing (blockSize size) blocks rows
  c.finalize packing (blockSize size) blocks

/-- A segment is somewhere in a block. -/
def Segment.Placed (segment : Segment) (size : BlockSize) (block : Block) (blockOffset : Nat) : Prop :=
  blockOffset + segment.size ≤ blockSize size ∧ ∀ i, i < segment.size → block (blockOffset + i) = segment.bytes i

/-- A value that is read is the original value, where that is valid. -/
def Original (rows : Rows t) (row : Nat) (v : t.Value) : Prop := ∀ original, rows[row]? = some (original, true) → v = original

/-- The readers of a segment return its rows: a scan with any skips, and a fetch of any row. -/
structure ReadsBack (packing : Packing t.bits) (size : BlockSize) (segment : Segment) (rows : Rows t) : Prop where
  scan : ∀ block blockOffset, segment.Placed size block blockOffset → ∀ ops, ScanOp.Allowed segment.count 0 ops →
    ∃ s values, ScanState.new block blockOffset (blockSize size) = .ok s ∧ s.run packing block blockOffset ops = .ok values ∧
      List.Forall₂ (Original rows) (ScanOp.rows 0 ops) values
  fetch : ∀ block blockOffset, segment.Placed size block blockOffset → ∀ row, row < segment.count → ∀ uninitialized,
    ∃ v, fetchRow packing block blockOffset (blockSize size) row uninitialized = .ok v ∧ Original rows row v

/-- A column is compressed to segments that have all of its rows, one behind the other, and read them back. -/
def Lossless (packing : Packing t.bits) (size : BlockSize) (mode : BitpackingMode) (uninitialized : Nat → t.Value)
    (blocks : Nat → Block) (rows : Rows t) : Prop :=
  ∃ segments, compress packing size mode uninitialized blocks rows = .ok segments ∧
    (segments.map Segment.count).sum = rows.length ∧
    ∀ front segment back, segments = front ++ segment :: back → 0 < segment.count →
      ReadsBack packing size segment (rows.drop (front.map Segment.count).sum)

/-! ## Segments and their rows -/

variable {packing : Packing t.bits} {size : BlockSize} {mode : BitpackingMode} {rows : Rows t}

theorem blockSize_lt (size : BlockSize) : blockSize size < 2 ^ 24 := by
  have h := size.allocSize_le_max
  unfold blockSize
  omega

theorem le_blockSize (size : BlockSize) : 2 * headerSize ≤ blockSize size := by
  have h := size.min_le_allocSize
  have h' := size.headerSize_le_max
  unfold blockSize headerSize
  omega

/-- A segment with the rows of its groups. -/
structure SegmentRows (packing : Packing t.bits) (size : BlockSize) (mode : BitpackingMode) (segment : Segment)
    (groups : List (Rows t)) : Prop where
  chunked : Chunked metadataGroupSize groups
  groups : ∃ gs, SegmentOf packing (blockSize size) segment gs ∧ List.Forall₂ (Emits mode) gs groups

variable {gs : List (Group t)} {groups : List (Rows t)} {segment : Segment} {block : Block} {blockOffset row : Nat}

theorem sum_count (h : List.Forall₂ (Emits mode) gs groups) :
    (gs.map Group.count).sum = groups.flatten.length := by
  induction h with
  | nil => rfl
  | cons hg _ ih => rw [map_cons, sum_cons, flatten_cons, length_append, ih, hg.decodes.count]

theorem SegmentRows.count (h : SegmentRows packing size mode segment groups) :
    segment.count = groups.flatten.length := by
  obtain ⟨gs, hsegment, hemits⟩ := h.groups
  rw [hsegment.count, sum_count hemits]

theorem exists_emits (h : List.Forall₂ (Emits mode) gs groups) {k : Nat}
    {group : Rows t} (hk : groups[k]? = some group) : ∃ g, gs[k]? = some g ∧ Emits mode g group := by
  obtain ⟨hlt, hget⟩ := List.getElem?_eq_some_iff.1 hk
  have hlt' : k < gs.length := h.length_eq ▸ hlt
  refine ⟨gs[k], List.getElem?_eq_getElem hlt', ?_⟩
  rw [← hget]
  exact List.forall₂_iff_get.1 h |>.2 k hlt' hlt

theorem SegmentRows.readable (h : SegmentRows packing size mode segment groups)
    (hplaced : segment.Placed size block blockOffset) : ∃ gs,
    Readable packing block blockOffset segment.size gs segment.count ∧ List.Forall₂ (Emits mode) gs groups := by
  have hcount := h.count
  obtain ⟨gs, hsegment, hemits⟩ := h.groups
  refine ⟨gs, ⟨?_, ?_, ?_, ?_⟩, hemits⟩
  · apply hsegment.stored.move
    intro i hi
    rw [zero_add]
    exact hplaced.2 i hi
  · exact hsegment.size_le.trans_lt (blockSize_lt size)
  · intro g hg
    obtain ⟨k, hk⟩ := List.mem_iff_getElem?.1 hg
    obtain ⟨hlt, hget⟩ := List.getElem?_eq_some_iff.1 hk
    have hlt' : k < groups.length := hemits.length_eq ▸ hlt
    have hemit := (List.forall₂_iff_get.1 hemits).2 k hlt hlt'
    exact hget ▸ hemit.decodes.width
  · intro row hrow
    obtain ⟨group, hgroup, hmod⟩ := h.chunked.exists_chunk (by decide) (hcount ▸ hrow)
    obtain ⟨g, hg, hemit⟩ := exists_emits hemits hgroup
    exact ⟨g, hg, hemit.decodes.count ▸ hmod⟩

theorem forall₂_split {α β : Type} {R : α → β → Prop} : ∀ {front : List α} {a : α} {back : List α} {bs : List β},
    List.Forall₂ R (front ++ a :: back) bs → ∃ front' b back', bs = front' ++ b :: back' ∧ List.Forall₂ R front front' ∧ R a b
  | [], _, _, b :: bs, .cons hab _ => ⟨[], b, bs, rfl, .nil, hab⟩
  | _ :: front, a, back, b :: bs, .cons hab h => by
    obtain ⟨front', b', back', rfl, hfront, hb'⟩ := forall₂_split h
    exact ⟨b :: front', b', back', rfl, .cons hab hfront, hb'⟩

theorem exists_segmentRows : ∀ {segments : List Segment} {gss : List (List (Group t))} {groups : List (Rows t)},
    List.Forall₂ (SegmentOf packing (blockSize size)) segments gss → List.Forall₂ (Emits mode) gss.flatten groups →
    Chunked metadataGroupSize groups →
    ∃ groupss, groupss.flatten = groups ∧ List.Forall₂ (SegmentRows packing size mode) segments groupss
  | [], [], groups, .nil, hemits, _ => by
    cases hemits
    exact ⟨[], rfl, .nil⟩
  | _ :: _, gs :: gss, groups, .cons hsegment hsegments, hemits, hchunked => by
    rw [flatten_cons] at hemits
    have hfront := forall₂_take gs.length hemits
    have hback := forall₂_drop gs.length hemits
    rw [take_left] at hfront
    rw [drop_left] at hback
    have hsplit := take_append_drop gs.length groups
    rw [← hsplit] at hchunked
    obtain ⟨groupss, hflatten, hrows⟩ := exists_segmentRows hsegments hback hchunked.right
    refine ⟨groups.take gs.length :: groupss, ?_, .cons ⟨hchunked.left, gs, hsegment, hfront⟩ hrows⟩
    rw [flatten_cons, hflatten, hsplit]

theorem sum_segment_count {segments : List Segment} {groupss : List (List (Rows t))}
    (h : List.Forall₂ (SegmentRows packing size mode) segments groupss) :
    (segments.map Segment.count).sum = groupss.flatten.flatten.length := by
  induction h with
  | nil => rfl
  | cons hsegment _ ih =>
    rw [map_cons, sum_cons, flatten_cons, flatten_append, length_append, ih, hsegment.count]

theorem original_iff {rest : Rows t} (hrow : row < groups.flatten.length) {v : t.Value} :
    Original (groups.flatten ++ rest) row v ↔ Original groups.flatten row v := by
  unfold Original
  rw [getElem?_append_left hrow]

theorem original_segmentValue (h : List.Forall₂ (Emits mode) gs groups)
    (hchunked : Chunked metadataGroupSize groups) (hrow : row < groups.flatten.length) :
    Original groups.flatten row (segmentValue gs row) := by
  obtain ⟨group, hgroup, hmod⟩ := hchunked.exists_chunk (by decide) hrow
  obtain ⟨g, hg, hemit⟩ := exists_emits h hgroup
  have hdivmod := div_add_mod' row metadataGroupSize
  have hget := hchunked.getElem?_flatten hgroup hmod
  rw [hdivmod] at hget
  intro original horiginal
  rw [hget] at horiginal
  unfold segmentValue
  rw [hg]
  exact hemit.decodes.value _ _ horiginal

theorem SegmentRows.scan (h : SegmentRows packing size mode segment groups)
    (rest : Rows t) (hcount : 0 < segment.count)
    (hplaced : segment.Placed size block blockOffset) {ops : List ScanOp} (hops : ScanOp.Allowed segment.count 0 ops) :
    ∃ s values, ScanState.new block blockOffset (blockSize size) = .ok s ∧ s.run packing block blockOffset ops = .ok values ∧
      List.Forall₂ (Original (groups.flatten ++ rest)) (ScanOp.rows 0 ops) values := by
  obtain ⟨gs, hreadable, hemits⟩ := h.readable hplaced
  obtain ⟨s, hnew, hat⟩ := ScanState.new_at hreadable hcount hplaced.1
  refine ⟨s, _, hnew, ScanState.run_ok hreadable hat hops, ?_⟩
  rw [forall₂_map_right_iff, forall₂_same]
  intro row hrow
  have hlt := h.count ▸ ScanOp.lt_of_mem_rows hops hrow
  exact (original_iff hlt).2 (original_segmentValue hemits h.chunked hlt)

theorem SegmentRows.fetch (h : SegmentRows packing size mode segment groups)
    (hok : ∀ group ∈ groups, ¬FetchOverflows mode group)
    (hplaced : segment.Placed size block blockOffset) (hrow : row < segment.count) (uninitialized : t.Value) :
    ∃ v, fetchRow packing block blockOffset (blockSize size) row uninitialized = .ok v ∧ Original groups.flatten row v := by
  obtain ⟨gs, hreadable, hemits⟩ := h.readable hplaced
  obtain ⟨g, hg, hfetch⟩ := fetchRow_eq hreadable hrow hplaced.1 uninitialized
  refine ⟨_, hfetch, ?_⟩
  rw [h.count] at hrow
  obtain ⟨group, hgroup, hmod⟩ := h.chunked.exists_chunk (by decide) hrow
  obtain ⟨g', hg', hemit⟩ := exists_emits hemits hgroup
  rw [hg] at hg'
  obtain rfl := Option.some.inj hg'
  have hmem := mem_of_getElem? hgroup
  rw [fetched_eq hemit (h.chunked.le group hmem) (hok group hmem) hmod]
  have hvalue := original_segmentValue hemits h.chunked hrow
  unfold segmentValue at hvalue
  rwa [hg] at hvalue

theorem SegmentRows.not_fetch (h : SegmentRows packing size mode segment groups)
    {group : Rows t} (hmem : group ∈ groups) (hoverflow : FetchOverflows mode group) :
    ∃ row v, row < segment.count ∧ fetchRow packing segment.bytes 0 (blockSize size) row 0 = .ok v ∧
      ¬Original groups.flatten row v := by
  obtain ⟨k, hk⟩ := mem_iff_getElem?.1 hmem
  have hplaced : segment.Placed size segment.bytes 0 := by
    obtain ⟨gs, hsegment, -⟩ := h.groups
    exact ⟨by rw [zero_add]; exact hsegment.size_le, fun i _ => by rw [zero_add]⟩
  obtain ⟨gs, hreadable, hemits⟩ := h.readable hplaced
  have hget := h.chunked.getElem?_flatten hk hoverflow.long
  have hrow : k * metadataGroupSize + 128 < segment.count := by
    rw [h.count]
    by_contra hle
    rw [getElem?_eq_none (by omega), getElem?_eq_getElem hoverflow.long] at hget
    cases hget
  obtain ⟨g, hg, hfetch⟩ := fetchRow_eq hreadable hrow hplaced.1 0
  have hdiv : (k * metadataGroupSize + 128) / metadataGroupSize = k := by
    unfold metadataGroupSize
    omega
  have hmod : (k * metadataGroupSize + 128) % metadataGroupSize = 128 := by
    unfold metadataGroupSize
    omega
  rw [hdiv] at hg
  rw [hmod] at hfetch
  obtain ⟨g', hg', hemit⟩ := exists_emits hemits hk
  rw [hg] at hg'
  obtain rfl := Option.some.inj hg'
  obtain ⟨row, hrow128⟩ : ∃ row, group[128]? = some row := ⟨_, getElem?_eq_getElem hoverflow.long⟩
  have hvalid : row = (row.1, true) := by
    obtain ⟨-, -, -, -, first, c, -, -, -, hrows⟩ := hoverflow
    exact Prod.ext rfl (hrows 128 row hrow128).1
  refine ⟨_, _, hrow, hfetch, fun horiginal => ?_⟩
  exact fetched_ne hemit hoverflow hrow128 (horiginal row.1 (by rw [hget, hrow128, ← hvalid]))

theorem exists_segments (packing : Packing t.bits) {uninitialized : Nat → t.Value} (uninitialized' : Nat → t.Value)
    (blocks : Nat → Block) (h : (analysis size mode uninitialized rows).isSome) :
    ∃ segments groupss, compress packing size mode uninitialized' blocks rows = .ok segments ∧
      groupss.flatten = Rows.groups [] rows ∧ List.Forall₂ (SegmentRows packing size mode) segments groupss := by
  unfold analysis at h
  rw [Option.isSome_bind, Option.any_eq_true] at h
  obtain ⟨s, hanalyze, hfinal⟩ := h
  have hsuccess : s.flush.success = true := by
    unfold BitpackingState.finalAnalyze at hfinal
    by_contra hne
    rw [if_neg hne] at hfinal
    cases hfinal
  have hflushes := BitpackingState.flushes_of_analyze
    (show (BitpackingState.new t mode uninitialized).Holds mode [] from BitpackingState.holds_reset rfl) hanalyze hsuccess
  have hempty : ([] : Rows t).length < metadataGroupSize := by
    unfold metadataGroupSize
    exact zero_lt_succ _
  have hnew : (CompressionState.new (blockSize size) blocks (BitpackingState.new t mode uninitialized')).Compressed packing
      (blockSize size) [] [] :=
    ⟨.nil, CompressionState.written_new blocks (le_blockSize size) _⟩
  obtain ⟨c, segments, gss, happend, hfinalize, hsegments, hemits⟩ :=
    hnew.append blocks (fun hne => BitpackingState.analyze_blockSize hne hanalyze) (BitpackingState.holds_reset rfl) hempty
      hflushes .nil
  obtain ⟨groupss, hflatten, hrows⟩ := exists_segmentRows hsegments hemits (Rows.chunked_groups rows hempty)
  refine ⟨segments, groupss, ?_, hflatten, hrows⟩
  unfold compress
  show (do
    let c ← CompressionState.append packing (blockSize size) blocks
      (CompressionState.new (blockSize size) blocks (BitpackingState.new t mode uninitialized')) rows
    c.finalize packing (blockSize size) blocks) = _
  rw [happend]
  exact hfinalize

theorem forall_groups_iff {P : Rows t → Prop} (hP : P []) :
    (∀ group ∈ Rows.groups [] rows, P group) ↔ ∀ k, P ((rows.drop (k * metadataGroupSize)).take metadataGroupSize) := by
  have hchunked := Rows.chunked_groups rows (show ([] : Rows t).length < metadataGroupSize by
    unfold metadataGroupSize
    exact Nat.zero_lt_succ _)
  have hflatten : (Rows.groups [] rows).flatten = rows := Rows.flatten_groups [] rows
  constructor
  · intro h k
    by_cases hk : k * metadataGroupSize < rows.length
    · rw [← hflatten] at hk
      obtain ⟨group, hgroup, -⟩ := hchunked.exists_chunk (by decide) hk
      rw [Nat.mul_div_cancel _ (by decide)] at hgroup
      have hrange := hchunked.eq_take_drop hgroup
      rw [hflatten] at hrange
      exact hrange ▸ h group (mem_of_getElem? hgroup)
    · rw [drop_eq_nil_of_le (by omega), take_nil]
      exact hP
  · intro h group hmem
    obtain ⟨k, hk⟩ := mem_iff_getElem?.1 hmem
    have hrange := hchunked.eq_take_drop hk
    rw [hflatten] at hrange
    exact hrange ▸ h k

theorem drop_rows {front : List Segment} {front' back' : List (List (Rows t))}
    (h : List.Forall₂ (SegmentRows packing size mode) front front')
    (hflatten : (front' ++ groups :: back').flatten.flatten = rows) :
    rows.drop (front.map Segment.count).sum = groups.flatten ++ back'.flatten.flatten := by
  rw [← hflatten, sum_segment_count h, flatten_append, flatten_append, flatten_cons, flatten_append,
    drop_left]

/-! ## The theorem -/

section Theorem

variable {segments : List Segment} {groupss : List (List (Rows t))} {uninitialized : Nat → t.Value} {blocks : Nat → Block}

theorem not_lossless (hcompress : compress packing size mode uninitialized blocks rows = .ok segments)
    (hflatten : groupss.flatten.flatten = rows) (hrows : List.Forall₂ (SegmentRows packing size mode) segments groupss)
    {group : Rows t} (hmem : group ∈ groupss.flatten) (hoverflow : FetchOverflows mode group) :
    ¬Lossless packing size mode uninitialized blocks rows := by
  rintro ⟨segments', hcompress', -, hreads⟩
  rw [hcompress] at hcompress'
  obtain rfl := Except.ok.inj hcompress'
  obtain ⟨groups, hgroups', hgroup⟩ := mem_flatten.1 hmem
  obtain ⟨front', back', rfl⟩ := append_of_mem hgroups'
  obtain ⟨front, segment, back, rfl, hfront, hsegment⟩ := forall₂_split hrows.flip
  obtain ⟨row, v, hrow, hfetch, hne⟩ := SegmentRows.not_fetch hsegment hgroup hoverflow
  have hplaced : segment.Placed size segment.bytes 0 := by
    obtain ⟨gs, hgs, -⟩ := hsegment.groups
    exact ⟨by rw [zero_add]; exact hgs.size_le, fun i _ => by rw [zero_add]⟩
  obtain ⟨v', hfetch', horiginal⟩ := (hreads front segment back rfl (by omega)).fetch _ _ hplaced row hrow 0
  rw [hfetch] at hfetch'
  obtain rfl := Except.ok.inj hfetch'
  rw [drop_rows hfront.flip hflatten, original_iff (hsegment.count ▸ hrow)] at horiginal
  exact hne horiginal

theorem lossless_of_segments (hcompress : compress packing size mode uninitialized blocks rows = .ok segments)
    (hflatten : groupss.flatten.flatten = rows) (hrows : List.Forall₂ (SegmentRows packing size mode) segments groupss)
    (hok : ∀ group ∈ groupss.flatten, ¬FetchOverflows mode group) :
    Lossless packing size mode uninitialized blocks rows := by
  refine ⟨segments, hcompress, ?_, ?_⟩
  · rw [sum_segment_count hrows, hflatten]
  · rintro front segment back rfl hcount
    obtain ⟨front', groups, back', rfl, hfront, hsegment⟩ := forall₂_split hrows
    have hgroupsOk : ∀ group ∈ groups, ¬FetchOverflows mode group := fun group hmem =>
      hok group (mem_flatten.2 ⟨groups, by simp, hmem⟩)
    rw [drop_rows hfront hflatten]
    constructor
    · intro block blockOffset hplaced ops hops
      exact hsegment.scan _ hcount hplaced hops
    · intro block blockOffset hplaced row hrow u
      obtain ⟨v, hfetch, horiginal⟩ := hsegment.fetch hgroupsOk hplaced hrow u
      exact ⟨v, hfetch, (original_iff (hsegment.count ▸ hrow)).2 horiginal⟩

end Theorem

/-- A column that analysis lets through is lossless exactly where no offset of a fetch overflows. -/
theorem lossless_iff (packing : Packing t.bits) (size : BlockSize) (mode : BitpackingMode)
    (uninitialized uninitialized' : Nat → t.Value) (blocks : Nat → Block) (rows : Rows t)
    (h : (analysis size mode uninitialized rows).isSome) :
    Lossless packing size mode uninitialized' blocks rows ↔
      ∀ k, ¬FetchOverflows mode ((rows.drop (k * metadataGroupSize)).take metadataGroupSize) := by
  obtain ⟨segments, groupss, hcompress, hgroups, hrows⟩ := exists_segments packing uninitialized' blocks h
  have hflatten : groupss.flatten.flatten = rows := hgroups ▸ Rows.flatten_groups [] rows
  have hnone : ¬FetchOverflows mode ([] : Rows t) := fun hnil => absurd hnil.long (by simp)
  rw [← forall_groups_iff (P := fun group => ¬FetchOverflows mode group) hnone]
  constructor
  · intro hlossless group hmem hoverflow
    exact not_lossless hcompress hflatten hrows (hgroups ▸ hmem) hoverflow hlossless
  · intro hok
    exact lossless_of_segments hcompress hflatten hrows (hgroups ▸ hok)

/-! ## Packing in the order of the bits -/

/-- A packing of 32 values in the order of their bits. -/
def bitPacking (w : Nat) : Packing w where
  pack width values := Wal.writeWord (4 * width) (packBits width ((List.range algorithmGroupSize).map fun i => (values i).toNat))
  unpack width bytes i := BitVec.ofNat w (Wal.wordValue bytes / 2 ^ (width * i) % 2 ^ width)
  length_pack width values := Wal.writeWord_length _ _
  unpack_pack width values i hwidth hi := by
    have hlt := packBits_lt width ((List.range algorithmGroupSize).map fun i => (values i).toNat)
    rw [List.length_map, List.length_range, show width * algorithmGroupSize = 8 * (4 * width) from by unfold algorithmGroupSize; omega,
      Nat.pow_mul, show 2 ^ 8 = 256 from rfl] at hlt
    have hget : ((List.range algorithmGroupSize).map fun i => (values i).toNat)[i]? = some (values i).toNat := by
      rw [List.getElem?_map, List.getElem?_range hi]
      rfl
    have hvalue : (values i).toNat % 2 ^ width < 2 ^ w :=
      (Nat.mod_lt _ (Nat.two_pow_pos width)).trans_le (Nat.pow_le_pow_right (by decide) hwidth)
    rw [Wal.wordValue_writeWord hlt, packBits_get width _ i _ hget, BitVec.toNat_ofNat, Nat.mod_eq_of_lt hvalue]

/-! ## Eight bits with a sign -/

/-- `int8_t`. -/
def int8 : IntType := ⟨1, true, by decide⟩

/-- The default size of a block. -/
def defaultSize : BlockSize := Metadata.defaultBlockSize

/-- Values from -127 on, each one more than the one before. -/
def steps (count : Nat) : Rows int8 := (List.range count).map fun i : Nat => (BitVec.ofInt int8.bits ((i : Int) - 127), true)

theorem lossless_iff_steps : Lossless (bitPacking int8.bits) defaultSize .auto (fun _ => 0) (fun _ _ => 0) (steps 10) ↔
    ∀ k, ¬FetchOverflows .auto (((steps 10).drop (k * metadataGroupSize)).take metadataGroupSize) :=
  lossless_iff (bitPacking int8.bits) defaultSize .auto (fun _ => 0) (fun _ => 0) (fun _ _ => 0) (steps 10) (by decide +kernel)

/-- The last of 129 rows has the offset 128, which is not a value of the type. -/
theorem not_lossless_steps : (analysis defaultSize .auto (fun _ => 0) (steps 129)).isSome = true ∧
    ¬Lossless (bitPacking int8.bits) defaultSize .auto (fun _ => 0) (fun _ _ => 0) (steps 129) := by
  have hanalysis : (analysis defaultSize .auto (fun _ => 0) (steps 129)).isSome = true := by decide +kernel
  refine ⟨hanalysis, ?_⟩
  obtain ⟨segments, groupss, hcompress, hgroups, hrows⟩ :=
    exists_segments (bitPacking int8.bits) (fun _ => 0) (fun _ _ => 0) hanalysis
  have hflatten : groupss.flatten.flatten = steps 129 := hgroups ▸ Rows.flatten_groups [] (steps 129)
  have hmem : steps 129 ∈ groupss.flatten := by
    rw [hgroups]
    decide +kernel
  apply not_lossless hcompress hflatten hrows hmem
  refine ⟨rfl, rfl, by decide, by decide +kernel, -127, 1, .inl rfl, by decide, by decide, ?_⟩
  intro i row hrow
  have hi : i < 129 := by
    have h := (List.getElem?_eq_some_iff.1 hrow).1
    simpa [steps] using h
  have hget : (steps 129)[i]? = some (BitVec.ofInt int8.bits (i - 127), true) := by
    rw [steps, List.getElem?_map, List.getElem?_range hi]
    rfl
  rw [hget] at hrow
  obtain rfl := Option.some.inj hrow
  have hpow : (2 : Int) ^ (int8.bits - 1) = 128 := by decide
  refine ⟨rfl, ?_⟩
  show (BitVec.ofInt int8.bits (i - 127)).toInt = _
  rw [BitVec.toInt_ofInt_eq_self (by decide) (by rw [hpow]; omega) (by rw [hpow]; omega)]
  omega

end Haybarn.Bitpacking
