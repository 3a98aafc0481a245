/-
How the constructor of `FixedSizeAllocator` lays out a buffer: words of the bitmask and segments are added in turns until the
block is used up. The bytes that are left are not compared with the size of a word before one is added, and where fewer of
them are left, the difference wraps around and segments are counted that do not fit.
-/
import Haybarn.Common.ValidityMask
import Haybarn.Lib.Outcome
import Haybarn.Metadata.Stream
import Mathlib.Tactic.Ring

namespace Haybarn.FixedSize

open Common Lib Outcome
open Metadata (BlockSize)

/-- `GetBlockSize`. -/
def blockSize (size : BlockSize) : Nat := size.allocSize - size.headerSize

/-- `sizeof(validity_t)`. -/
def sizeofValidity : Nat := 8

/-- The size of the blocks, and the fields that the constructor computes from it. -/
structure Layout where
  blockSize : Nat
  segmentSize : Nat
  /-- The words of the bitmask. -/
  bitmaskCount : Nat
  /-- Where the segments start. -/
  bitmaskOffset : Nat
  availableSegmentsPerBuffer : Nat
deriving DecidableEq

/-- The variables of the loop of the constructor. -/
structure Filling where
  bitmaskCount : Nat
  availableSegmentsPerBuffer : Nat
  byteCount : Nat
  /-- The loop was left by `break`. -/
  stopped : Bool

/-- Another word, where the words so far are used up. -/
def Filling.addWord (f : Filling) : Filling :=
  if f.bitmaskCount = 0 ∨ f.bitmaskCount * bitsPerValue % f.availableSegmentsPerBuffer = 0 then
    { f with bitmaskCount := f.bitmaskCount + 1, byteCount := f.byteCount + sizeofValidity }
  else f

/-- The segments that a turn adds. The difference is one of 64 bits. -/
def Filling.remainingSegments (blockSize segmentSize : Nat) (f : Filling) : Nat :=
  min ((blockSize + 2 ^ 64 - f.byteCount) % 2 ^ 64 / segmentSize) bitsPerValue

def Filling.turn (blockSize segmentSize : Nat) (f : Filling) : Outcome Filling :=
  let f := f.addWord
  -- a division by zero ends the process
  if segmentSize = 0 then .fault
  else
    let remainingSegments := f.remainingSegments blockSize segmentSize
    if remainingSegments = 0 then .done { f with stopped := true }
    else
      .done { f with
        availableSegmentsPerBuffer := f.availableSegmentsPerBuffer + remainingSegments
        byteCount := f.byteCount + remainingSegments * segmentSize }

def Filling.goesOn (blockSize : Nat) (f : Filling) : Bool := !f.stopped && f.byteCount < blockSize

/-- The constructor. -/
def Layout.construct (blockSize segmentSize : Nat) : Outcome Layout :=
  if blockSize - sizeofValidity < segmentSize then
    .error ("The maximum segment size of fixed-size allocators is " ++ toString (blockSize - sizeofValidity))
  else do
    let f ← Outcome.loop (Filling.goesOn blockSize) (Filling.turn blockSize segmentSize) (blockSize + 2) ⟨0, 0, 0, false⟩
    .done ⟨blockSize, segmentSize, f.bitmaskCount, f.bitmaskCount * sizeofValidity, f.availableSegmentsPerBuffer⟩

/-! ## What fits -/

/-- No word is added where fewer than eight bytes are left: neither behind the last 64 segments that fit, nor behind the
only segments of a block, where their number divides 64. -/
def WordsFit (blockSize segmentSize : Nat) : Prop :=
  if 8 + 64 * segmentSize ≤ blockSize then
    blockSize % (8 + 64 * segmentSize) = 0 ∨ 8 ≤ blockSize % (8 + 64 * segmentSize)
  else
    64 % ((blockSize - 8) / segmentSize) = 0 → (blockSize - 8) % segmentSize = 0 ∨ 8 ≤ (blockSize - 8) % segmentSize

instance (blockSize segmentSize : Nat) : Decidable (WordsFit blockSize segmentSize) :=
  inferInstanceAs (Decidable (ite _ _ _))

/-- The words and the segments lie behind each other in the block, with a bit for each segment. -/
structure Layout.Ok (l : Layout) : Prop where
  offset : l.bitmaskOffset = 8 * l.bitmaskCount
  fits : l.bitmaskOffset + l.availableSegmentsPerBuffer * l.segmentSize ≤ l.blockSize
  words : l.availableSegmentsPerBuffer ≤ 64 * l.bitmaskCount
  pos : 0 < l.availableSegmentsPerBuffer
  size_pos : 0 < l.segmentSize
  /-- An offset fits in the 24 bits of a pointer. -/
  small : l.availableSegmentsPerBuffer < 2 ^ 24

/-! ## The loop -/

variable {B s : Nat} {f : Filling}

/-- Before a turn every word is used up, or the rest of the block is too small for a segment. -/
structure Filling.Inv (B s : Nat) (f : Filling) : Prop where
  bytes : f.byteCount = 8 * f.bitmaskCount + f.availableSegmentsPerBuffer * s
  le : f.byteCount ≤ B
  words : f.availableSegmentsPerBuffer ≤ 64 * f.bitmaskCount
  two : 8 + 2 * s ≤ B → f.bitmaskCount ≠ 0 → 2 ≤ f.availableSegmentsPerBuffer
  phase : f.availableSegmentsPerBuffer = 64 * f.bitmaskCount ∧ f.stopped = false
    ∨ 0 < f.availableSegmentsPerBuffer ∧ B < f.byteCount + s
      ∧ (f.stopped = true ∨ f.availableSegmentsPerBuffer < 64 * f.bitmaskCount
        ∧ 64 * f.bitmaskCount < f.availableSegmentsPerBuffer + 64)

def Filling.measure (B : Nat) (f : Filling) : Nat := if f.stopped then 0 else B + 1 - f.byteCount

theorem Filling.remainingSegments_of_le (hB : B < 2 ^ 64) (h : f.byteCount ≤ B) :
    f.remainingSegments B s = min ((B - f.byteCount) / s) 64 := by
  have hsub : (B + 2 ^ 64 - f.byteCount) % 2 ^ 64 = B - f.byteCount := by omega
  rw [remainingSegments, hsub]
  rfl

theorem mod_of_rest {n k : Nat} (hle : k * n ≤ B) (hrest : B - k * n < n) : B % n = B - k * n := by
  have hsplit : B = B - k * n + n * k := by
    rw [Nat.mul_comm n]
    omega
  conv => lhs; rw [hsplit]
  rw [Nat.add_mul_mod_self_left, Nat.mod_eq_of_lt hrest]

theorem Filling.Inv.room (h : f.Inv B s) (hfit : WordsFit B s) (hB : 8 ≤ B)
    (hfull : f.availableSegmentsPerBuffer = 64 * f.bitmaskCount) (hlt : f.byteCount < B) : f.byteCount + 8 ≤ B := by
  have hbytes : f.byteCount = f.bitmaskCount * (8 + 64 * s) := by
    rw [h.bytes, hfull]
    ring
  by_cases hrest : 8 + 64 * s ≤ B - f.byteCount
  · omega
  · by_cases hzero : f.bitmaskCount = 0
    · rw [hzero, Nat.zero_mul] at hbytes
      omega
    · have hone : 8 + 64 * s ≤ f.byteCount := by
        rw [hbytes]
        exact Nat.le_mul_of_pos_left _ (Nat.pos_of_ne_zero hzero)
      have hmod : B % (8 + 64 * s) = B - f.byteCount := by
        rw [hbytes] at hlt hrest ⊢
        exact mod_of_rest hlt.le (by omega)
      rw [WordsFit, if_pos (by omega), hmod] at hfit
      omega

theorem Filling.Inv.bitmaskCount_eq_one (hlt : f.availableSegmentsPerBuffer < 64 * f.bitmaskCount)
    (hgt : 64 * f.bitmaskCount < f.availableSegmentsPerBuffer + 64)
    (hmod : f.bitmaskCount * 64 % f.availableSegmentsPerBuffer = 0) : f.bitmaskCount = 1 := by
  obtain ⟨m, hm⟩ := Nat.dvd_of_mod_eq_zero hmod
  have htwo : 2 ≤ m := by
    by_contra hlt2
    have hle : f.availableSegmentsPerBuffer * m ≤ f.availableSegmentsPerBuffer * 1 := Nat.mul_le_mul_left _ (by omega)
    omega
  have hle := Nat.mul_le_mul_left f.availableSegmentsPerBuffer htwo
  omega

theorem Filling.Inv.room_short (h : f.Inv B s) (hfit : WordsFit B s) (hs : 0 < s) (hlt : f.byteCount < B)
    (hrest : B < f.byteCount + s) (hshort : f.availableSegmentsPerBuffer < 64 * f.bitmaskCount)
    (hlong : 64 * f.bitmaskCount < f.availableSegmentsPerBuffer + 64)
    (hmod : f.bitmaskCount * 64 % f.availableSegmentsPerBuffer = 0) : f.byteCount + 8 ≤ B := by
  have hone := Inv.bitmaskCount_eq_one hshort hlong hmod
  -- the word is the first one, and the rest is the one that the condition is about
  have hbytes : f.byteCount = 8 + f.availableSegmentsPerBuffer * s := by
    rw [h.bytes, hone]
  have hquotient : (B - 8) / s = f.availableSegmentsPerBuffer := by
    apply Nat.div_eq_of_lt_le
    · omega
    · rw [Nat.add_mul]
      omega
  have hremainder : (B - 8) % s = B - f.byteCount := by
    have hdiv := Nat.div_add_mod (B - 8) s
    rw [hquotient, Nat.mul_comm] at hdiv
    omega
  have hsmall : ¬ 8 + 64 * s ≤ B := by
    have hle : (f.availableSegmentsPerBuffer + 1) * s ≤ 64 * s := Nat.mul_le_mul_right _ (by omega)
    rw [Nat.add_mul] at hle
    omega
  rw [WordsFit, if_neg hsmall, hquotient, hremainder] at hfit
  rw [hone] at hmod
  have hroom := hfit hmod
  omega

theorem Filling.Inv.addWord_le (h : f.Inv B s) (hfit : WordsFit B s) (hs : 0 < s) (hB : 8 ≤ B)
    (hgo : f.goesOn B = true) : f.addWord.byteCount ≤ B := by
  simp only [goesOn, Bool.and_eq_true, Bool.not_eq_true', decide_eq_true_eq] at hgo
  obtain ⟨hrun, hlt⟩ := hgo
  unfold addWord
  split
  next hadd =>
    rcases h.phase with ⟨hfull, -⟩ | ⟨hpos, hrest, hstopped | ⟨hshort, hlong⟩⟩
    · exact h.room hfit hB hfull hlt
    · rw [hrun] at hstopped
      cases hstopped
    · have hmod : f.bitmaskCount * 64 % f.availableSegmentsPerBuffer = 0 := hadd.resolve_left (by omega)
      exact h.room_short hfit hs hlt hrest hshort hlong hmod
  · exact h.le

theorem Filling.turn_stops {g : Filling} (hg : f.addWord = g) (hs : 0 < s) (hB : B < 2 ^ 64) (hle : g.byteCount ≤ B)
    (hlt : B < g.byteCount + s) : f.turn B s = .done { g with stopped := true } := by
  have hzero : g.remainingSegments B s = 0 := by
    rw [remainingSegments_of_le hB hle, Nat.div_eq_of_lt (by omega)]
    rfl
  unfold turn
  rw [hg, if_neg (by omega), if_pos hzero]

theorem Filling.Inv.turn_full (h : f.Inv B s) (hs : 0 < s) (hsB : s ≤ B - 8) (hB : B < 2 ^ 64)
    (hrun : f.stopped = false) (hfull : f.availableSegmentsPerBuffer = 64 * f.bitmaskCount) (hroom : f.byteCount + 8 ≤ B) :
    (f.turn B s).Returns fun g => g.Inv B s ∧ (g.stopped = true ∨ f.byteCount < g.byteCount) := by
  have hadd : f.addWord = ⟨f.bitmaskCount + 1, f.availableSegmentsPerBuffer, f.byteCount + 8, f.stopped⟩ := by
    rw [addWord, if_pos]
    · rfl
    · rw [hfull]
      right
      rw [Nat.mul_comm]
      exact Nat.mod_self _
  have hbytes := h.bytes
  have htwo := h.two
  by_cases hlast : B < f.byteCount + 8 + s
  · have hcount : f.bitmaskCount ≠ 0 := by
      intro hzero
      rw [hzero, Nat.mul_zero] at hfull
      rw [hfull, hzero] at hbytes
      omega
    rw [turn_stops hadd hs hB hroom hlast]
    refine returns_done ⟨⟨?_, hroom, ?_, fun h2 _ => htwo h2 hcount, .inr ⟨?_, hlast, .inl rfl⟩⟩, .inl rfl⟩
    all_goals dsimp only; omega
  · have hremaining : Filling.remainingSegments B s f.addWord = min ((B - (f.byteCount + 8)) / s) 64 := by
      rw [hadd]
      exact remainingSegments_of_le hB hroom
    generalize hr : (B - (f.byteCount + 8)) / s = r at hremaining
    have hrpos : 0 < r := hr ▸ Nat.div_pos (by omega) hs
    have hdiv := Nat.div_add_mod (B - (f.byteCount + 8)) s
    have hmod := Nat.mod_lt (B - (f.byteCount + 8)) hs
    rw [hr] at hdiv
    unfold turn
    rw [if_neg (by omega), hremaining, if_neg (by omega)]
    rw [hadd]
    have hmul : min r 64 * s ≤ s * r := by
      rw [Nat.mul_comm]
      exact Nat.mul_le_mul_left _ (Nat.min_le_left _ _)
    have hpos : 0 < min r 64 * s := Nat.mul_pos (by omega) hs
    refine returns_done ⟨⟨?_, ?_, ?_, fun h2 _ => ?_, ?_⟩, .inr (by dsimp only; omega)⟩
    · dsimp only
      rw [hbytes, Nat.add_mul]
      omega
    · dsimp only
      omega
    · dsimp only
      omega
    · dsimp only
      by_cases hzero : f.bitmaskCount = 0
      · rw [hzero] at hbytes hfull
        have hr2 : 2 ≤ r := by
          rw [← hr]
          apply (Nat.le_div_iff_mul_le hs).2
          rw [hfull] at hbytes
          omega
        omega
      · have := htwo h2 hzero
        omega
    · dsimp only
      by_cases hr64 : 64 ≤ r
      · rw [Nat.min_eq_right hr64]
        exact .inl ⟨by omega, hrun⟩
      · rw [Nat.min_eq_left (by omega)] at *
        refine .inr ⟨by omega, ?_, .inr ⟨by omega, by omega⟩⟩
        rw [Nat.mul_comm r s]
        omega

theorem Filling.Inv.turn (h : f.Inv B s) (hfit : WordsFit B s) (hs : 0 < s) (hsB : s ≤ B - 8) (hB : B < 2 ^ 64)
    (hgo : f.goesOn B = true) : (f.turn B s).Returns fun g => g.Inv B s ∧ g.measure B < f.measure B := by
  simp only [goesOn, Bool.and_eq_true, Bool.not_eq_true', decide_eq_true_eq] at hgo
  obtain ⟨hrun, hlt⟩ := hgo
  have hmeasure : f.measure B = B + 1 - f.byteCount := by simp [measure, hrun]
  rcases h.phase with ⟨hfull, -⟩ | ⟨hpos, hrest, hstopped | ⟨hshort, hlong⟩⟩
  · refine (h.turn_full hs hsB hB hrun hfull (h.room hfit (by omega) hfull hlt)).mono ?_
    rintro g ⟨hg, hstop | hgrow⟩
    · exact ⟨hg, by rw [hmeasure, measure, if_pos hstop]; omega⟩
    · refine ⟨hg, ?_⟩
      rw [hmeasure, measure]
      split <;> omega
  · rw [hrun] at hstopped
    cases hstopped
  · have hstep : ∀ words bytes, f.addWord = ⟨words, f.availableSegmentsPerBuffer, bytes, f.stopped⟩ →
        bytes = 8 * words + f.availableSegmentsPerBuffer * s → bytes ≤ B → f.byteCount ≤ bytes → f.bitmaskCount ≤ words →
          (f.turn B s).Returns fun g => g.Inv B s ∧ g.measure B < f.measure B := by
      intro words bytes hadd hbytes hle hge hwords
      rw [turn_stops hadd hs hB hle (show B < bytes + s by omega)]
      refine returns_done ⟨⟨hbytes, hle, by dsimp only; omega, fun h2 _ => h.two h2 (by omega),
        .inr ⟨hpos, by dsimp only; omega, .inl rfl⟩⟩, ?_⟩
      rw [hmeasure]
      dsimp only [measure]
      rw [if_pos rfl]
      omega
    by_cases hadd : f.bitmaskCount = 0 ∨ f.bitmaskCount * bitsPerValue % f.availableSegmentsPerBuffer = 0
    · have hmod : f.bitmaskCount * 64 % f.availableSegmentsPerBuffer = 0 := hadd.resolve_left (by omega)
      have hroom := h.room_short hfit hs hlt hrest hshort hlong hmod
      refine hstep (f.bitmaskCount + 1) (f.byteCount + 8) (if_pos hadd) ?_ (by omega) (by omega) (by omega)
      rw [h.bytes]
      ring
    · exact hstep _ _ (if_neg hadd) h.bytes h.le (Nat.le_refl _) (Nat.le_refl _)

theorem Filling.inv_start (B s : Nat) : Inv B s ⟨0, 0, 0, false⟩ where
  bytes := by simp
  le := Nat.zero_le _
  words := Nat.le_refl _
  two _ h := absurd rfl h
  phase := .inl ⟨rfl, rfl⟩

/-! ## The layout -/

/-- Where no word is cut off, the constructor lays out the buffers in the block, with two segments where two fit. -/
theorem Layout.construct_spec (hfit : WordsFit B s) (hs : 0 < s) (hsB : s ≤ B - 8) (hB8 : 8 ≤ B) (hB : B < 2 ^ 24) :
    (construct B s).Returns fun l => l.Ok ∧ l.blockSize = B ∧ l.segmentSize = s
      ∧ (8 + 2 * s ≤ B → 2 ≤ l.availableSegmentsPerBuffer) := by
  unfold construct
  rw [if_neg (by unfold sizeofValidity; omega)]
  have hmeasure : Filling.measure B ⟨0, 0, 0, false⟩ < B + 2 := by simp [Filling.measure]
  refine (returns_loop (I := Filling.Inv B s) (μ := Filling.measure B)
    (fun f hf hgo => hf.turn hfit hs hsB (by omega) hgo) (Filling.inv_start B s) hmeasure).bind ?_
  rintro f ⟨hf, hend⟩
  have hbytes := hf.bytes
  have hle := hf.le
  have hcount := hf.words
  have hpos : 0 < f.availableSegmentsPerBuffer := by
    rcases hf.phase with ⟨hfull, hrun⟩ | ⟨hpos, -⟩
    · by_contra hzero
      have hnone : f.availableSegmentsPerBuffer = 0 := by omega
      rw [hnone, Nat.zero_mul] at hbytes
      simp only [Filling.goesOn, hrun, Bool.not_false, Bool.true_and, decide_eq_false_iff_not] at hend
      omega
    · exact hpos
  have hmul : f.availableSegmentsPerBuffer * 1 ≤ f.availableSegmentsPerBuffer * s := Nat.mul_le_mul_left _ hs
  refine returns_done ⟨⟨Nat.mul_comm _ _, ?_, hcount, hpos, hs, ?_⟩, rfl, rfl, fun h2 => hf.two h2 (by omega)⟩
  all_goals
    dsimp only [sizeofValidity]
    omega

/-! ## A word that is cut off -/

/-- Before a turn every word is used up, or the only segments that fit are counted, or more is counted than fits. -/
def Filling.CutOff (B s : Nat) (f : Filling) : Prop :=
  f.byteCount = 8 * f.bitmaskCount + f.availableSegmentsPerBuffer * s ∧ f.stopped = false
    ∧ (f.availableSegmentsPerBuffer = 64 * f.bitmaskCount ∧ f.byteCount ≤ B
      ∨ f.bitmaskCount = 1 ∧ f.availableSegmentsPerBuffer = (B - 8) / s ∧ B < 8 + 64 * s ∧ f.byteCount ≤ B
      ∨ B < f.byteCount)

theorem Filling.remainingSegments_of_lt (hs : 0 < s) (hsB : s ≤ B) (hB : B < 2 ^ 24) (hlt : B < f.byteCount)
    (hle : f.byteCount ≤ B + 8) : f.remainingSegments B s = 64 := by
  have hwrap : (B + 2 ^ 64 - f.byteCount) % 2 ^ 64 = B + 2 ^ 64 - f.byteCount := Nat.mod_eq_of_lt (by omega)
  have hmany : 64 ≤ (B + 2 ^ 64 - f.byteCount) / s := by
    apply (Nat.le_div_iff_mul_le hs).2
    omega
  rw [remainingSegments, hwrap]
  exact Nat.min_eq_right hmany

theorem Filling.turn_addWord (hs : 0 < s)
    (hword : f.bitmaskCount = 0 ∨ f.bitmaskCount * bitsPerValue % f.availableSegmentsPerBuffer = 0) {r : Nat}
    (hr : f.addWord.remainingSegments B s = r) (hpos : 0 < r) :
    f.turn B s = .done ⟨f.bitmaskCount + 1, f.availableSegmentsPerBuffer + r, f.byteCount + 8 + r * s, f.stopped⟩ := by
  unfold turn
  rw [if_neg (by omega), hr, if_neg (by omega), addWord, if_pos hword]
  rfl

theorem Filling.CutOff.turn (h : f.CutOff B s) (hfit : ¬ WordsFit B s) (hs : 0 < s) (hsB : s ≤ B - 8) (hB : B < 2 ^ 24)
    (hgo : f.goesOn B = true) : (f.turn B s).Returns fun g => g.CutOff B s ∧ g.measure B < f.measure B := by
  simp only [goesOn, Bool.and_eq_true, Bool.not_eq_true', decide_eq_true_eq] at hgo
  obtain ⟨hbytes, hrun, hphase⟩ := h
  have hlt := hgo.2
  -- what a turn that adds a word and segments leaves, up to its phase
  have hstep : ∀ r, (f.bitmaskCount = 0 ∨ f.bitmaskCount * bitsPerValue % f.availableSegmentsPerBuffer = 0) →
      f.addWord.remainingSegments B s = r → 0 < r →
      (f.availableSegmentsPerBuffer + r = 64 * (f.bitmaskCount + 1) ∧ f.byteCount + 8 + r * s ≤ B
        ∨ f.bitmaskCount + 1 = 1 ∧ f.availableSegmentsPerBuffer + r = (B - 8) / s ∧ B < 8 + 64 * s
          ∧ f.byteCount + 8 + r * s ≤ B
        ∨ B < f.byteCount + 8 + r * s) →
      (f.turn B s).Returns fun g => g.CutOff B s ∧ g.measure B < f.measure B := by
    intro r hword hr hpos hnext
    rw [turn_addWord hs hword hr hpos]
    refine returns_done ⟨⟨?_, hrun, hnext⟩, ?_⟩
    · dsimp only
      rw [hbytes]
      ring
    · have hgrow : 0 < r * s := Nat.mul_pos hpos hs
      simp only [measure, hrun]
      simp only [Bool.false_eq_true, if_false]
      omega
  have hadded : ∀ hword : f.bitmaskCount = 0 ∨ f.bitmaskCount * bitsPerValue % f.availableSegmentsPerBuffer = 0,
      f.addWord.byteCount = f.byteCount + 8 := fun hword => by
    rw [addWord, if_pos hword]
    rfl
  rcases hphase with ⟨hfull, -⟩ | ⟨hone, hshort, hsmall, hle⟩ | hover
  · have hword : f.bitmaskCount = 0 ∨ f.bitmaskCount * bitsPerValue % f.availableSegmentsPerBuffer = 0 := by
      rw [hfull, Nat.mul_comm]
      exact .inr (Nat.mod_self _)
    have hturns : f.byteCount = f.bitmaskCount * (8 + 64 * s) := by
      rw [hbytes, hfull]
      ring
    by_cases hmore : f.byteCount + (8 + 64 * s) ≤ B
    · refine hstep 64 hword ?_ (by decide) (.inl ⟨by omega, by omega⟩)
      rw [remainingSegments_of_le (by omega) (by rw [hadded hword]; omega), hadded hword, Nat.min_eq_right]
      apply (Nat.le_div_iff_mul_le hs).2
      omega
    · by_cases hzero : f.bitmaskCount = 0
      · rw [hzero, Nat.zero_mul] at hturns
        have hmul := Nat.div_mul_le_self (B - 8) s
        have hfew : (B - 8) / s < 64 := (Nat.div_lt_iff_lt_mul hs).2 (by omega)
        refine hstep ((B - 8) / s) hword ?_ (Nat.div_pos hsB hs) (.inr (.inl ⟨by omega, by omega, by omega, by omega⟩))
        rw [remainingSegments_of_le (by omega) (by rw [hadded hword]; omega), hadded hword, hturns, Nat.min_eq_left]
        exact hfew.le
      · have hblock : 8 + 64 * s ≤ f.byteCount := by
          rw [hturns]
          exact Nat.le_mul_of_pos_left _ (Nat.pos_of_ne_zero hzero)
        have hmod : B % (8 + 64 * s) = B - f.byteCount := by
          rw [hturns] at hlt hmore ⊢
          exact mod_of_rest hlt.le (by omega)
        rw [WordsFit, if_pos (by omega), hmod] at hfit
        refine hstep 64 hword (remainingSegments_of_lt hs (by omega) hB ?_ ?_) (by decide) (.inr (.inr (by omega)))
        all_goals rw [hadded hword]; omega
  · have hdiv := Nat.div_add_mod (B - 8) s
    rw [WordsFit, if_neg (by omega), Classical.not_imp] at hfit
    rw [hone, hshort, Nat.mul_comm _ s] at hbytes
    have hword : f.bitmaskCount = 0 ∨ f.bitmaskCount * bitsPerValue % f.availableSegmentsPerBuffer = 0 := by
      rw [hone, hshort]
      exact .inr hfit.1
    refine hstep 64 hword (remainingSegments_of_lt hs (by omega) hB ?_ ?_) (by decide) (.inr (.inr (by omega)))
    all_goals rw [hadded hword]; omega
  · omega

theorem Layout.construct_overruns (hfit : ¬ WordsFit B s) (hs : 0 < s) (hsB : s ≤ B - 8) (hB : B < 2 ^ 24) :
    (construct B s).Returns fun l => l.blockSize = B ∧ B < l.bitmaskOffset + l.availableSegmentsPerBuffer * l.segmentSize := by
  unfold construct
  rw [if_neg (by unfold sizeofValidity; omega)]
  have hmeasure : Filling.measure B ⟨0, 0, 0, false⟩ < B + 2 := by simp [Filling.measure]
  have hstart : Filling.CutOff B s ⟨0, 0, 0, false⟩ := ⟨by simp, rfl, .inl ⟨rfl, Nat.zero_le _⟩⟩
  refine (returns_loop (I := Filling.CutOff B s) (μ := Filling.measure B)
    (fun f hf hgo => hf.turn hfit hs hsB hB hgo) hstart hmeasure).bind ?_
  rintro f ⟨⟨hbytes, hrun, hphase⟩, hend⟩
  simp only [Filling.goesOn, hrun, Bool.not_false, Bool.true_and, decide_eq_false_iff_not] at hend
  have hover : B < f.byteCount := by
    by_contra hnot
    have hB' : f.byteCount = B := by omega
    apply hfit
    rcases hphase with ⟨hfull, -⟩ | ⟨hone, hshort, hsmall, -⟩ | hover
    · have hturns : B = f.bitmaskCount * (8 + 64 * s) := by
        rw [← hB', hbytes, hfull]
        ring
      have hblock : 8 + 64 * s ≤ B := by
        rw [hturns]
        refine Nat.le_mul_of_pos_left _ (Nat.pos_of_ne_zero fun hzero => ?_)
        rw [hzero, Nat.zero_mul] at hturns
        omega
      rw [WordsFit, if_pos hblock, hturns]
      exact .inl (Nat.mul_mod_left _ _)
    · rw [WordsFit, if_neg (by omega)]
      have hdiv := Nat.div_add_mod (B - 8) s
      rw [hone, hshort, Nat.mul_comm _ s] at hbytes
      exact fun _ => .inl (by omega)
    · exact absurd hover hnot
  refine returns_done ⟨rfl, ?_⟩
  dsimp only [sizeofValidity]
  omega

/-! ## The layout of a block -/

/-- The states in which the loop of the constructor is. -/
inductive Filling.Reached (B s : Nat) : Filling → Prop
  | start : Reached B s ⟨0, 0, 0, false⟩
  | turn {f g : Filling} : Reached B s f → f.goesOn B = true → f.turn B s = .done g → Reached B s g

/-- The constructor ends, no difference wraps around on the way, and the words and the segments fit in the block. -/
def Layout.FitsBlock (blockSize segmentSize : Nat) : Prop :=
  (∀ f, Filling.Reached blockSize segmentSize f → f.goesOn blockSize = true → f.addWord.byteCount ≤ blockSize) ∧
  (construct blockSize segmentSize).Returns fun l =>
    l.bitmaskCount * sizeofValidity + l.availableSegmentsPerBuffer * segmentSize ≤ blockSize ∧
      1 ≤ l.availableSegmentsPerBuffer ∧ l.availableSegmentsPerBuffer ≤ l.bitmaskCount * 64

theorem Filling.Reached.inv (h : f.Reached B s) (hfit : WordsFit B s) (hs : 0 < s) (hsB : s ≤ B - 8) (hB : B < 2 ^ 64) :
    f.Inv B s := by
  induction h with
  | start => exact inv_start B s
  | @turn f g _ hgo hturn ih =>
    obtain ⟨g', hg', hinv, -⟩ := ih.turn hfit hs hsB hB hgo
    rw [hturn] at hg'
    cases hg'
    exact hinv

theorem Layout.construct_fields {l : Layout} (h : construct B s = .done l) :
    l.bitmaskOffset = l.bitmaskCount * sizeofValidity ∧ l.segmentSize = s := by
  unfold construct at h
  split at h
  · cases h
  · cases hloop : loop (Filling.goesOn B) (Filling.turn B s) (B + 2) ⟨0, 0, 0, false⟩ with
    | done f =>
      rw [hloop] at h
      cases h
      exact ⟨rfl, rfl⟩
    | _ =>
      rw [hloop] at h
      cases h

theorem blockSize_lt (size : BlockSize) : blockSize size < 2 ^ 24 := by
  have hmax := size.allocSize_le_max
  unfold blockSize
  omega

theorem eight_le_blockSize (size : BlockSize) : 8 ≤ blockSize size := by
  have hmin := size.min_le_allocSize
  have hheader := size.headerSize_le_max
  unfold blockSize
  omega

section Block

variable {size : BlockSize} {segmentSize : Nat}

theorem fitsBlock_of_wordsFit (hfit : WordsFit (blockSize size) segmentSize) (hpos : 0 < segmentSize)
    (hle : segmentSize ≤ blockSize size - sizeofValidity) : Layout.FitsBlock (blockSize size) segmentSize := by
  have hsize := eight_le_blockSize size
  have hlt := blockSize_lt size
  constructor
  · intro f hf hgo
    exact (hf.inv hfit hpos hle (by omega)).addWord_le hfit hpos hsize hgo
  · obtain ⟨l, hl, hok, hblock, hsegment, -⟩ := Layout.construct_spec hfit hpos hle hsize hlt
    obtain ⟨hoffset, -⟩ := Layout.construct_fields hl
    have hfits := hok.fits
    have hwords := hok.words
    rw [hoffset, hblock, hsegment] at hfits
    exact ⟨l, hl, hfits, hok.pos, by omega⟩

theorem not_fitsBlock (hfit : ¬ WordsFit (blockSize size) segmentSize) (hpos : 0 < segmentSize)
    (hle : segmentSize ≤ blockSize size - sizeofValidity) : ¬ Layout.FitsBlock (blockSize size) segmentSize := by
  rintro ⟨-, l, hl, hfits, -⟩
  obtain ⟨l', hl', -, hover⟩ := Layout.construct_overruns hfit hpos hle (blockSize_lt size)
  rw [hl] at hl'
  cases hl'
  obtain ⟨hoffset, hsegment⟩ := Layout.construct_fields hl
  rw [hoffset, hsegment] at hover
  omega

/-- The constructor lays out every segment size that it accepts in the block, without a difference that wraps around, where
no word is cut off, and only there. -/
theorem fitsBlock_iff (hpos : 0 < segmentSize) (hle : segmentSize ≤ blockSize size - sizeofValidity) :
    Layout.FitsBlock (blockSize size) segmentSize ↔ WordsFit (blockSize size) segmentSize := by
  by_cases hfit : WordsFit (blockSize size) segmentSize
  · exact iff_of_true (fitsBlock_of_wordsFit hfit hpos hle) hfit
  · exact iff_of_false (not_fitsBlock hfit hpos hle) hfit

end Block

/-- Blocks of the default size, with the default header. -/
def defaultSize : BlockSize := Metadata.defaultBlockSize

theorem fitsBlock_iff_default : Layout.FitsBlock (blockSize defaultSize) 24 ↔ WordsFit (blockSize defaultSize) 24 :=
  fitsBlock_iff (by decide) (by decide)

theorem default_overruns : ¬ ∀ (size : BlockSize) (segmentSize : Nat), 0 < segmentSize →
    segmentSize ≤ blockSize size - sizeofValidity → Layout.FitsBlock (blockSize size) segmentSize := fun h =>
  @not_fitsBlock defaultSize 262127 (by decide) (by decide) (by decide)
    (h defaultSize 262127 (by decide) (by decide))

/-! ## One segment -/

theorem Layout.Ok.eq_one {l : Layout} (h : l.Ok) (hone : l.blockSize < 8 + 2 * l.segmentSize) :
    l.availableSegmentsPerBuffer = 1 := by
  have hfits := h.fits
  have hoffset := h.offset
  have hwords := h.words
  have hpos := h.pos
  by_contra hne
  have htwo : 2 * l.segmentSize ≤ l.availableSegmentsPerBuffer * l.segmentSize := Nat.mul_le_mul_right _ (by omega)
  omega

end Haybarn.FixedSize
