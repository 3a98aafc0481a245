/-
A fetch of one row casts the offset of the row to the type. Where an offset that is behind the largest value of the type can
be fetched from a group of a constant difference: eight bits with a sign, more than 128 rows, and a difference of one.
-/
import Haybarn.Bitpacking.Compress
import Haybarn.Bitpacking.Scan
import Mathlib.Algebra.Order.Group.Unbundled.Int
import Mathlib.Tactic.Linarith

namespace Haybarn.Bitpacking

open BitpackingState List

/-! ## Limits -/

section Limits

variable {w : Nat} {signed : Bool} {x y : BitVec w}

theorem toInt_maximumLimit : toInt true (maximumLimit true : BitVec w) = 2 ^ (w - 1) - 1 := by
  simp [toInt, maximumLimit]

theorem toInt_minimumLimit (hw : 0 < w) : toInt true (minimumLimit true : BitVec w) = -2 ^ (w - 1) := by
  simp [toInt, minimumLimit, BitVec.toInt_intMin_of_pos hw]

theorem toInt_true_bounds (hw : 0 < w) (x : BitVec w) : -2 ^ (w - 1) ≤ toInt true x ∧ toInt true x ≤ 2 ^ (w - 1) - 1 := by
  have h := BitVec.two_mul_toInt_lt (x := x)
  have h' := BitVec.le_two_mul_toInt (x := x)
  have hpow : (2 : Int) ^ w = 2 * 2 ^ (w - 1) := by
    rw [← Int.pow_succ', Nat.sub_add_cancel hw]
  simp only [toInt, if_true]
  omega

theorem toInt_sub (hw : 0 < w) (hlow : -2 ^ (w - 1) ≤ toInt signed x - toInt signed y)
    (hhigh : toInt signed x - toInt signed y ≤ 2 ^ (w - 1) - 1) : toInt true (x - y) = toInt signed x - toInt signed y := by
  have hbounds := toInt_true_bounds hw (x - y)
  have hpow : (2 : Int) ^ w = 2 * 2 ^ (w - 1) := by
    rw [← Int.pow_succ', Nat.sub_add_cancel hw]
  have hmod : toInt true (x - y) % 2 ^ w = (toInt signed x - toInt signed y) % 2 ^ w := by
    rw [emod_toInt, toNat_sub_eq_emod signed]
  have hdvd := Int.dvd_of_emod_eq_zero (Int.emod_eq_emod_iff_emod_sub_eq_zero.1 hmod)
  have hzero := Int.eq_zero_of_abs_lt_dvd hdvd (by
    rw [abs_lt]
    omega)
  omega

theorem trySubtract_isSome (hw : 0 < w) : (trySubtract true x y).isSome ↔
    -2 ^ (w - 1) ≤ toInt true x - toInt true y ∧ toInt true x - toInt true y ≤ 2 ^ (w - 1) - 1 := by
  unfold trySubtract
  rw [toInt_maximumLimit, toInt_minimumLimit hw]
  simp only
  split <;> simp_all

theorem foldl_maxValue_const {α : Type} {f : α → BitVec w} {c : BitVec w} : ∀ {as : List α} {x : BitVec w}, as ≠ [] →
    (∀ a ∈ as, f a = c) → toInt signed x ≤ toInt signed c → as.foldl (fun m a => maxValue signed m (f a)) x = c
  | [], _, hne, _, _ => absurd rfl hne
  | a :: as, x, _, hf, hx => by
    have hstep : maxValue signed x (f a) = c := by
      apply toInt_inj
      rw [toInt_maxValue, hf a mem_cons_self]
      exact max_eq_right hx
    rw [foldl_cons, hstep]
    by_cases hne : as = []
    · rw [hne, foldl_nil]
    · exact foldl_maxValue_const hne (fun a ha => hf a (mem_cons_of_mem _ ha)) (le_refl _)

theorem foldl_minValue_const {α : Type} {f : α → BitVec w} {c : BitVec w} : ∀ {as : List α} {x : BitVec w}, as ≠ [] →
    (∀ a ∈ as, f a = c) → toInt signed c ≤ toInt signed x → as.foldl (fun m a => minValue signed m (f a)) x = c
  | [], _, hne, _, _ => absurd rfl hne
  | a :: as, x, _, hf, hx => by
    have hstep : minValue signed x (f a) = c := by
      apply toInt_inj
      rw [toInt_minValue, hf a mem_cons_self]
      exact min_eq_right hx
    rw [foldl_cons, hstep]
    by_cases hne : as = []
    · rw [hne, foldl_nil]
    · exact foldl_minValue_const hne (fun a ha => hf a (mem_cons_of_mem _ ha)) (le_refl _)

end Limits

variable {t : IntType} {s : BitpackingState t} {d : DeltaStats t} {mode : BitpackingMode} {g : Group t} {rows : Rows t}

theorem IntType.bits_pos (t : IntType) : 0 < t.bits := by
  have := t.bytes_pos
  unfold bits
  omega

/-! ## Groups of a constant difference -/

namespace BitpackingState

theorem constantDelta_of_flush {c frameOfReference : t.Value} {count : Nat}
    (hg : s.flush.group = some (.constantDelta c frameOfReference count)) :
    ∃ d : DeltaStats t, s.DeltaOf d ∧ d.maximumDelta = d.minimumDelta ∧ s.mode ≠ .for_ ∧ s.mode ≠ .deltaFor ∧
      c = d.maximumDelta ∧ frameOfReference = s.compressionBuffer 0 ∧ count = s.compressionBufferIdx := by
  have hfor : s.flushFor.group ≠ some (.constantDelta c frameOfReference count) := by
    unfold flushFor
    split <;> simp
  unfold flush at hg
  split at hg
  · cases hg
  split at hg
  · cases hg
  split at hg
  · exact absurd hg hfor
  rename_i d hd
  split at hg
  · rename_i hconstant
    simp only [Option.some.injEq, Group.constantDelta.injEq] at hg
    exact ⟨d, deltaOf_calculateDeltaStats hd, hconstant.1, hconstant.2.1, hconstant.2.2, hg.1.symm, hg.2.1.symm, hg.2.2.symm⟩
  split at hg
  · simp at hg
  · exact absurd hg hfor

theorem DeltaOf.toInt_delta (h : s.DeltaOf d) (hs : s.Holds mode rows) {i : Nat} (hi : i + 1 < s.compressionBufferIdx) :
    toInt true (s.delta (i + 1)) = toInt t.signed (s.compressionBuffer (i + 1)) - toInt t.signed (s.compressionBuffer i) := by
  have hvalid : rows.all (·.2) := hs.allValid ▸ h.allValid
  have hmem := mem_of_getElem? (hs.getElem hvalid hi)
  have hmem' := mem_of_getElem? (hs.getElem hvalid (i := i) (by omega))
  have hmax := Rows.le_maximum hmem
  have hmax' := Rows.le_maximum hmem'
  have hmin := Rows.minimum_le hmem
  have hmin' := Rows.minimum_le hmem'
  rw [← hs.maximum] at hmax hmax'
  rw [← hs.minimum] at hmin hmin'
  rw [delta, previous]
  cases hsigned : t.signed with
  | false =>
    have hlimit := h.maximum_le
    rw [hsigned] at hlimit hmax hmax'
    rw [toInt_maximumLimit] at hlimit
    have hnonneg : ∀ v : t.Value, 0 ≤ toInt false v := by
      intro v
      unfold toInt
      simp
    have hv := hnonneg (s.compressionBuffer (i + 1))
    have hv' := hnonneg (s.compressionBuffer i)
    exact toInt_sub t.bits_pos (by omega) (by omega)
  | true =>
    rw [hsigned] at hmax hmax' hmin hmin'
    have hrange : (trySubtract true (s.compressionBuffer (i + 1)) (s.compressionBuffer i)).isSome := by
      rw [trySubtract_isSome t.bits_pos]
      rcases h.checked with hall | hall
      · unfold canDoAll at hall
        simp only [hsigned, Bool.not_true, Bool.false_or, Bool.and_eq_true, trySubtract_isSome t.bits_pos] at hall
        omega
      · exact (trySubtract_isSome t.bits_pos).1 (hall _ hi)
    obtain ⟨hlow, hhigh⟩ := (trySubtract_isSome t.bits_pos).1 hrange
    exact toInt_sub t.bits_pos hlow hhigh

theorem DeltaOf.toInt_step (h : s.DeltaOf d) (hs : s.Holds mode rows) (hconstant : d.maximumDelta = d.minimumDelta) :
    ∀ {i : Nat}, i < s.compressionBufferIdx →
      toInt t.signed (s.compressionBuffer i) = toInt t.signed (s.compressionBuffer 0) + i * toInt true d.maximumDelta
  | 0, _ => by simp
  | i + 1, hi => by
    have hprevious := h.toInt_step hs hconstant (i := i) (by omega)
    have hdelta := h.toInt_delta hs hi
    have hmin := h.minimumDelta_le i.succ_pos hi
    have hmax := h.le_maximumDelta i.succ_pos hi
    rw [← hconstant] at hmin
    have heq := le_antisymm hmax hmin
    push_cast
    rw [Int.add_mul, Int.one_mul]
    linarith

theorem Holds.flush_constantDelta (hs : s.Holds mode rows) (hsigned : t.signed = true) (hvalid : rows.all (·.2))
    (hfor : mode ≠ .for_) (hdeltaFor : mode ≠ .deltaFor) (htwo : 2 ≤ rows.length) {c : t.Value} (hc : c ≠ 0)
    (hstep : ∀ i, i + 1 < rows.length → toInt true (s.compressionBuffer (i + 1)) = toInt true (s.compressionBuffer i) + toInt true c)
    (hfirst : (trySubtract true (s.compressionBuffer 0) c).isSome) :
    s.flush.group = some (.constantDelta c (s.compressionBuffer 0) s.compressionBufferIdx) := by
  have hc0 : toInt true c ≠ 0 := by
    intro h
    exact hc (toInt_inj (h.trans (by simp [toInt])))
  have hcbounds := toInt_true_bounds t.bits_pos c
  have hidx := hs.idx
  have hsub : ∀ i, i + 1 < rows.length → toInt true (s.compressionBuffer (i + 1)) - toInt true (s.compressionBuffer i) = toInt true c := by
    intro i hi
    rw [hstep i hi]
    omega
  have hdelta : ∀ i ∈ range' 1 (s.compressionBufferIdx - 1), s.delta i = c := by
    intro i hi
    rw [mem_range'_1] at hi
    obtain ⟨j, rfl⟩ : ∃ j, i = j + 1 := ⟨i - 1, by omega⟩
    have hj := hsub j (by omega)
    apply toInt_inj
    rw [delta, previous, toInt_sub t.bits_pos (by rw [hj]; exact hcbounds.1) (by rw [hj]; exact hcbounds.2), hj]
  have hne : range' 1 (s.compressionBufferIdx - 1) ≠ [] := by
    rw [ne_eq, range'_eq_nil_iff]
    omega
  have hmax : s.maximumDelta = c := foldl_maxValue_const hne hdelta (by rw [toInt_minimumLimit t.bits_pos]; exact hcbounds.1)
  have hmin : s.minimumDelta = c := foldl_minValue_const hne hdelta (by rw [toInt_maximumLimit]; exact hcbounds.2)
  -- no constant, as the first two values differ
  have hmem : ∀ i, i < rows.length → (s.compressionBuffer i, true) ∈ rows := fun i hi =>
    mem_of_getElem? (hs.getElem hvalid (hidx ▸ hi))
  have hconstant : ¬((s.allInvalid = true ∨ s.maximum = s.minimum) ∧ (s.mode = .auto ∨ s.mode = .constant)) := by
    rintro ⟨hinvalid | heq, -⟩
    · rw [hs.allInvalid, all_eq_true] at hinvalid
      exact absurd (hinvalid _ (hmem 0 (by omega))) (by simp)
    · have h0 := Rows.minimum_le (hmem 0 (by omega))
      have h0' := Rows.le_maximum (hmem 0 (by omega))
      have h1 := Rows.minimum_le (hmem 1 (by omega))
      have h1' := Rows.le_maximum (hmem 1 (by omega))
      rw [← hs.minimum, hsigned] at h0 h1
      rw [← hs.maximum, heq, hsigned] at h0' h1'
      have := hstep 0 (by omega)
      rw [Nat.zero_add] at this
      omega
  have hchecked : ¬(!s.canDoAll && (range s.compressionBufferIdx).any fun i =>
      (trySubtract true (s.compressionBuffer i) (s.previous i)).isNone) = true := by
    simp only [Bool.and_eq_true, any_eq_true, mem_range, not_and, not_exists, Bool.not_eq_true,
      Option.isNone_eq_false_iff]
    intro _ i hi
    rw [trySubtract_isSome t.bits_pos]
    cases i with
    | zero =>
      have h0 := toInt_true_bounds t.bits_pos (s.compressionBuffer 0)
      have hzero : toInt true (0 : t.Value) = 0 := by simp [toInt]
      rw [previous, hzero]
      omega
    | succ i =>
      rw [previous, hsub i (by omega)]
      exact hcbounds
  obtain ⟨deltaOffset, hoffset⟩ := Option.isSome_iff_exists.1 hfirst
  have hdiff : trySubtract true c c = some (c - c) := by
    have hsome : (trySubtract true c c).isSome := by
      rw [trySubtract_isSome t.bits_pos, Int.sub_self]
      have hpos : (0 : Int) < 2 ^ (t.bits - 1) := by positivity
      omega
    obtain ⟨e, he⟩ := Option.isSome_iff_exists.1 hsome
    rw [he, trySubtract_eq he]
  have hstats : s.calculateDeltaStats
      = some ⟨Function.update s.delta 0 c, c, c, c - c, deltaOffset⟩ := by
    unfold calculateDeltaStats
    rw [if_neg (by rw [hsigned, toInt_maximumLimit]; have := (toInt_true_bounds t.bits_pos s.maximum).2; omega),
      if_neg (by omega), if_neg (by rw [hs.allValid, hvalid]; decide), if_neg hchecked, hmax, hmin, hdiff, hoffset]
  unfold flush
  rw [if_neg (by omega), if_neg hconstant, hstats]
  simp only
  rw [if_pos ⟨trivial, hs.mode ▸ hfor, hs.mode ▸ hdeltaFor⟩]

end BitpackingState

/-! ## Offsets that do not fit -/

/-- The offset of a row of the group does not fit into the type, and the row is a multiple of it. -/
structure FetchOverflows (mode : BitpackingMode) (group : Rows t) : Prop where
  bytes : t.bytes = 1
  signed : t.signed = true
  mode_ne : mode ≠ .for_ ∧ mode ≠ .deltaFor
  long : 128 < group.length
  step : ∃ first c : Int, (c = 1 ∨ c = -1) ∧ -128 ≤ first - c ∧ first - c ≤ 127 ∧
    ∀ (i : Nat) row, group[i]? = some row → row.2 = true ∧ toInt t.signed row.1 = first + i * c

theorem castMultiplier_eq {offset : Nat} (h : (offset : Int) ≤ toInt t.signed (maximumLimit t.signed : t.Value))
    (uninitialized : t.Value) : castMultiplier t offset uninitialized = BitVec.ofNat t.bits offset := by
  rw [castMultiplier, if_pos h]

theorem toInt_maximumLimit_false {w : Nat} : toInt false (maximumLimit false : BitVec w) = 2 ^ w - 1 := by
  simp [toInt, maximumLimit, Nat.cast_sub Nat.one_le_two_pow]

theorem offset_le_maximumLimit {offset : Nat} (hoffset : offset < metadataGroupSize) (hbytes : t.bytes ≠ 1) :
    (offset : Int) ≤ toInt t.signed (maximumLimit t.signed : t.Value) := by
  have hbits : 16 ≤ t.bits := by
    have hpos := t.bytes_pos
    unfold IntType.bits
    omega
  have hpow : (2 : Int) ^ 15 ≤ 2 ^ (t.bits - 1) := by
    exact_mod_cast Nat.pow_le_pow_right (by decide) (by omega : 15 ≤ t.bits - 1)
  have hpow' : (2 : Int) ^ 15 ≤ 2 ^ t.bits := by
    exact_mod_cast Nat.pow_le_pow_right (by decide) (by omega : 15 ≤ t.bits)
  unfold metadataGroupSize at hoffset
  cases hsigned : t.signed with
  | false =>
    rw [toInt_maximumLimit_false]
    omega
  | true =>
    rw [toInt_maximumLimit]
    omega

theorem fetched_eq (h : Emits mode g rows) (hlength : rows.length ≤ metadataGroupSize) (hok : ¬FetchOverflows mode rows)
    {i : Nat} (hi : i < rows.length) (uninitialized : t.Value) : g.fetched uninitialized i = g.value i := by
  obtain ⟨s, hs, hg⟩ := h
  cases g with
  | constant => rfl
  | deltaFor => rfl
  | for_ => rfl
  | constantDelta c frameOfReference count =>
    obtain ⟨d, hd, hconstant, hfor, hdeltaFor, rfl, rfl, rfl⟩ := constantDelta_of_flush hg
    have hidx := hs.idx
    have hvalid : rows.all (·.2) := hs.allValid ▸ hd.allValid
    have hfits : (i : Int) ≤ toInt t.signed (maximumLimit t.signed : t.Value) ∨ toInt true d.maximumDelta = 0 := by
      by_cases hbytes : t.bytes = 1
      · have hbits : t.bits = 8 := by rw [IntType.bits, hbytes]
        have hpow : (2 : Int) ^ (t.bits - 1) = 128 := by
          rw [hbits]
          rfl
        have hpow' : (2 : Int) ^ t.bits = 256 := by
          rw [hbits]
          rfl
        by_cases h128 : i < 128
        · left
          cases hsigned : t.signed with
          | false =>
            rw [toInt_maximumLimit_false, hpow']
            omega
          | true =>
            rw [toInt_maximumLimit, hpow]
            omega
        · have hstep := hd.toInt_step hs hconstant (i := 128) (by omega)
          have hlimit := hd.maximum_le
          rw [toInt_maximumLimit, hpow, hs.maximum] at hlimit
          have hmem : ∀ j, j < rows.length → toInt t.signed (s.compressionBuffer j) ≤ 127 := fun j hj =>
            (Rows.le_maximum (List.mem_of_getElem? (hs.getElem hvalid (hidx ▸ hj)))).trans hlimit
          have h0 := hmem 0 (by omega)
          have h128' := hmem 128 (by omega)
          cases hsigned : t.signed with
          | false =>
            rw [hsigned] at hstep h0 h128'
            have hnonneg : ∀ v : t.Value, 0 ≤ toInt false v := by
              intro v
              simp [toInt]
            have hv := hnonneg (s.compressionBuffer 0)
            have hv' := hnonneg (s.compressionBuffer 128)
            right
            push_cast at hstep
            omega
          | true =>
            have hb := (toInt_true_bounds t.bits_pos (s.compressionBuffer 0)).1
            have hb' := (toInt_true_bounds t.bits_pos (s.compressionBuffer 128)).1
            have hoffset := (trySubtract_isSome t.bits_pos).1 (Option.isSome_iff_exists.2 ⟨_, hd.deltaOffset⟩)
            rw [← hconstant] at hoffset
            rw [hpow] at hb hb' hoffset
            by_contra hne
            rw [not_or] at hne
            apply hok
            refine ⟨hbytes, hsigned, ⟨hs.mode ▸ hfor, hs.mode ▸ hdeltaFor⟩, by omega,
              toInt true (s.compressionBuffer 0), toInt true d.maximumDelta, ?_, by omega, by omega, ?_⟩
            · rw [hsigned] at hstep h0 h128'
              push_cast at hstep
              omega
            · intro j row hrow
              have hj : j < s.compressionBufferIdx := hidx ▸ (List.getElem?_eq_some_iff.1 hrow).1
              have hget := hs.getElem hvalid hj
              rw [hrow] at hget
              obtain rfl := Option.some.inj hget
              have hj' := hd.toInt_step hs hconstant hj
              rw [hsigned] at hj'
              exact ⟨rfl, hsigned ▸ hj'⟩
      · exact .inl (offset_le_maximumLimit (by omega) hbytes)
    show castMultiplier t i uninitialized * d.maximumDelta + s.compressionBuffer 0
      = d.maximumDelta * BitVec.ofNat t.bits i + s.compressionBuffer 0
    rcases hfits with hfits | hzero
    · rw [castMultiplier_eq hfits, BitVec.mul_comm]
    · have hc : d.maximumDelta = 0 := toInt_inj (hzero.trans (by simp [toInt]))
      rw [hc, show castMultiplier t i uninitialized * (0 : t.Value) = 0 from BitVec.mul_zero,
        show (0 : t.Value) * BitVec.ofNat t.bits i = 0 from BitVec.zero_mul]

theorem fetched_ne (h : Emits mode g rows) (hoverflow : FetchOverflows mode rows) {row : t.Value × Bool}
    (hrow : rows[128]? = some row) : g.fetched 0 128 ≠ row.1 := by
  obtain ⟨s, hs, hg⟩ := h
  obtain ⟨hbytes, hsigned, ⟨hfor, hdeltaFor⟩, hlong, first, c, hc, hlow, hhigh, hrows⟩ := hoverflow
  have hvalid : rows.all (·.2) = true := by
    rw [all_eq_true]
    intro row hmem
    obtain ⟨i, hi⟩ := mem_iff_getElem?.1 hmem
    exact (hrows i row hi).1
  have hbits : t.bits = 8 := by rw [IntType.bits, hbytes]
  have hpow : (2 : Int) ^ (t.bits - 1) = 128 := by
    rw [hbits]
    rfl
  have hbuffer : ∀ i, i < rows.length → toInt true (s.compressionBuffer i) = first + i * c := by
    intro i hi
    have h := (hrows i _ (hs.getElem hvalid (hs.idx ▸ hi))).2
    rwa [hsigned] at h
  have hcInt : toInt true (BitVec.ofInt t.bits c) = c := by
    simp only [toInt, if_true]
    rw [BitVec.toInt_ofInt_eq_self t.bits_pos]
    · rw [hpow]; omega
    · rw [hpow]; omega
  have hconstant := hs.flush_constantDelta hsigned hvalid hfor hdeltaFor (by omega) (c := BitVec.ofInt t.bits c) ?_ ?_ ?_
  · rw [hg] at hconstant
    obtain rfl := Option.some.inj hconstant
    have h128 := hs.buffer 128 row.1 (by rw [hrow, ← (hrows 128 row hrow).1])
    have hcast : castMultiplier t 128 0 = 0 := by
      unfold castMultiplier
      rw [hsigned, toInt_maximumLimit, hpow, if_neg (by decide)]
    intro heq
    change castMultiplier t 128 0 * BitVec.ofInt t.bits c + s.compressionBuffer 0 = row.1 at heq
    rw [hcast, ← h128] at heq
    rw [show (0 : t.Value) * BitVec.ofInt t.bits c = 0 from BitVec.zero_mul, show 0 + s.compressionBuffer 0 = s.compressionBuffer 0 from BitVec.zero_add _] at heq
    have h0 := hbuffer 0 (by omega)
    rw [heq, hbuffer 128 hlong] at h0
    push_cast at h0
    omega
  · intro hzero
    rw [hzero] at hcInt
    simp [toInt] at hcInt
    omega
  · intro i hi
    rw [hcInt, hbuffer i (by omega), hbuffer (i + 1) hi]
    push_cast
    ring
  · rw [trySubtract_isSome t.bits_pos, hcInt, hbuffer 0 (by omega), hpow]
    push_cast
    omega

end Haybarn.Bitpacking
