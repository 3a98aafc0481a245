/-
Window aggregates over a segment tree are folds over frames: the state of a row is the fold, in row order, over the
rows of its frame that pass the filter and are not excluded.
-/
import Haybarn.Window.Evaluate
import Mathlib.Algebra.FreeMonoid.Basic

namespace Haybarn.Window

open Lib

variable {M : Type} {input : Partition M} {bounds : WindowBounds} {rid : Nat}

/-! ## The rows of a frame -/

/-- The rows that an exclude mode leaves out for row `rid` of the batch. -/
def WindowBounds.isExcluded (bounds : WindowBounds) (excludeMode : WindowExcludeMode) (rid row : Nat) : Bool :=
  match excludeMode with
  | .noOther => false
  | .currentRow => row = bounds.rowIdx + rid
  | .group => bounds.peerBegin rid ≤ row ∧ row < bounds.peerEnd rid
  | .ties => bounds.peerBegin rid ≤ row ∧ row < bounds.peerEnd rid ∧ row ≠ bounds.rowIdx + rid

/-- The rows of the frame that pass the filter and are not excluded, in row order. -/
def frameRows (input : Partition M) (bounds : WindowBounds) (rid : Nat) : List Nat :=
  (List.range input.rowCount).filter fun row => bounds.windowBegin rid ≤ row && row < bounds.windowEnd rid
    && input.rowIsValid row && !bounds.isExcluded input.excludeMode rid row

/-- Bounds that an evaluation can get: the frames are in the partition, and every row is one of its peers. -/
structure WindowBounds.Valid (bounds : WindowBounds) (rowCount : Nat) : Prop where
  frame : ∀ rid < bounds.count, bounds.windowBegin rid ≤ bounds.windowEnd rid ∧ bounds.windowEnd rid ≤ rowCount
  peers : ∀ rid < bounds.count, bounds.peerBegin rid ≤ bounds.rowIdx + rid ∧ bounds.rowIdx + rid < bounds.peerEnd rid

variable [Monoid M]

/-- What a row adds to the frame of row `rid`. -/
def frameFactor (input : Partition M) (bounds : WindowBounds) (rid row : Nat) : M :=
  if bounds.windowBegin rid ≤ row ∧ row < bounds.windowEnd rid ∧ bounds.isExcluded input.excludeMode rid row = false then
    input.factor row
  else 1

theorem foldl_frameRows (input : Partition M) (bounds : WindowBounds) (rid : Nat) :
    (frameRows input bounds rid).foldl (fun state row => state * input.value row) 1
      = rangeProd (frameFactor input bounds rid) 0 input.rowCount := by
  have hfactor : frameFactor input bounds rid = fun row => if (bounds.windowBegin rid ≤ row && row < bounds.windowEnd rid
      && input.rowIsValid row && !bounds.isExcluded input.excludeMode rid row) = true then input.value row else 1 := by
    funext row
    unfold frameFactor Partition.factor
    rw [← ite_and]
    refine if_congr ?_ rfl rfl
    simp only [Bool.and_eq_true, decide_eq_true_eq, Bool.not_eq_true']
    tauto
  unfold rangeProd frameRows
  rw [hfactor, prod_map_ite, Nat.sub_zero, ← List.range_eq_range', List.prod_eq_foldl, List.foldl_map]

/-! ## The parts of a frame -/

theorem rangeProd_frame_noOther (hmode : input.excludeMode = .noOther) (hend : bounds.windowEnd rid ≤ input.rowCount) :
    rangeProd (frameFactor input bounds rid) 0 input.rowCount
      = rangeProd input.factor (bounds.windowBegin rid) (bounds.windowEnd rid) := by
  refine rangeProd_between (Nat.zero_le _) hend fun row _ _ => ?_
  unfold frameFactor
  rw [hmode]
  exact if_congr (by simp [WindowBounds.isExcluded]) rfl rfl

/-- Where the left part of a frame ends and the right part begins. -/
def WindowBounds.leftEnd (bounds : WindowBounds) (excludeMode : WindowExcludeMode) (rid : Nat) : Nat :=
  if excludeMode = .currentRow then bounds.rowIdx + rid else bounds.peerBegin rid

def WindowBounds.rightBegin (bounds : WindowBounds) (excludeMode : WindowExcludeMode) (rid : Nat) : Nat :=
  if excludeMode = .currentRow then bounds.rowIdx + rid + 1 else bounds.peerEnd rid

theorem isExcluded_iff {excludeMode : WindowExcludeMode} (hmode : excludeMode ≠ .noOther) (row : Nat) :
    bounds.isExcluded excludeMode rid row = true ↔ bounds.leftEnd excludeMode rid ≤ row
      ∧ row < bounds.rightBegin excludeMode rid ∧ (excludeMode = .ties → row ≠ bounds.rowIdx + rid) := by
  unfold WindowBounds.isExcluded WindowBounds.leftEnd WindowBounds.rightBegin
  cases excludeMode with
  | noOther => exact absurd rfl hmode
  | currentRow =>
    simp only [decide_eq_true_eq, if_true, reduceCtorEq, false_implies, and_true]
    omega
  | group => simp
  | ties => simp

theorem rangeProd_frame_exclude (hmode : input.excludeMode ≠ .noOther) (hend : bounds.windowEnd rid ≤ input.rowCount)
    (hleft : bounds.leftEnd input.excludeMode rid ≤ bounds.rowIdx + rid)
    (hright : bounds.rowIdx + rid < bounds.rightBegin input.excludeMode rid) :
    rangeProd (frameFactor input bounds rid) 0 input.rowCount
      = rangeProd input.factor (bounds.windowBegin rid)
          (min (bounds.leftEnd input.excludeMode rid) (bounds.windowEnd rid))
        * ((if input.excludeMode = .ties ∧ bounds.windowBegin rid ≤ bounds.rowIdx + rid
              ∧ bounds.rowIdx + rid < bounds.windowEnd rid then input.factor (bounds.rowIdx + rid) else 1)
          * rangeProd input.factor (max (bounds.rightBegin input.excludeMode rid) (bounds.windowBegin rid))
              (bounds.windowEnd rid)) := by
  have hkeep : ∀ row, bounds.isExcluded input.excludeMode rid row = false ↔ (row < bounds.leftEnd input.excludeMode rid
      ∨ bounds.rightBegin input.excludeMode rid ≤ row ∨ input.excludeMode = .ties ∧ row = bounds.rowIdx + rid) := by
    intro row
    rw [← Bool.not_eq_true, isExcluded_iff hmode]
    by_cases hties : input.excludeMode = .ties
    · simp only [hties, true_implies, true_and]
      omega
    · simp only [hties, false_implies, and_true, false_and, or_false]
      omega
  unfold frameFactor
  simp only [hkeep]
  generalize bounds.leftEnd input.excludeMode rid = leftEnd at *
  generalize bounds.rightBegin input.excludeMode rid = rightBegin at *
  generalize bounds.rowIdx + rid = curRow at *
  -- the frame is cut before and behind the current row
  have hcut : min curRow input.rowCount ≤ min (curRow + 1) input.rowCount := by omega
  rw [← rangeProd_mul (Nat.zero_le _) (Nat.min_le_right curRow input.rowCount), ← rangeProd_mul hcut (Nat.min_le_right _ _)]
  congr 1
  · refine rangeProd_between (Nat.zero_le _) (by omega) fun row _ hrow => if_congr ?_ rfl rfl
    constructor
    · rintro ⟨hbegin, hend, hbefore | hbehind | ⟨-, rfl⟩⟩ <;> omega
    · exact fun h => ⟨h.1, by omega, .inl (by omega)⟩
  congr 1
  · by_cases hcurRow : curRow < input.rowCount
    · rw [min_eq_left hcurRow.le, min_eq_left (by omega), rangeProd_succ_self]
      refine if_congr ?_ rfl rfl
      constructor
      · rintro ⟨hbegin, hend, hbefore | hbehind | ⟨hties, -⟩⟩
        · omega
        · omega
        · exact ⟨hties, hbegin, hend⟩
      · exact fun h => ⟨h.2.1, h.2.2, .inr (.inr ⟨h.1, rfl⟩)⟩
    · rw [rangeProd_of_le (by omega), if_neg fun h => hcurRow (by omega)]
  · refine rangeProd_between (by omega) hend fun row hrow _ => if_congr ?_ rfl rfl
    constructor
    · rintro ⟨hbegin, hend, hbefore | hbehind | ⟨-, rfl⟩⟩ <;> omega
    · exact fun h => ⟨by omega, h.2, .inr (.inl (by omega))⟩

/-! ## The states of a batch -/

theorem partRow_left (input : Partition M) (bounds : WindowBounds) (rid : Nat) :
    partRow input ⟨bounds.count, bounds.rowIdx, bounds.windowBegin,
        if input.excludeMode = .currentRow then bounds.peerEnd else bounds.peerBegin, bounds.windowEnd⟩ .left rid
      = rangeProd input.factor (bounds.windowBegin rid)
          (min (bounds.leftEnd input.excludeMode rid) (bounds.windowEnd rid)) := by
  unfold partRow currRow Batch.clampedBegin Batch.clampedEnd Batch.frameBegin Batch.frameEnd WindowBounds.leftEnd
  by_cases hcurrent : input.excludeMode = .currentRow
  · simp [hcurrent]
  · simp [hcurrent]

theorem partRow_right (input : Partition M) (bounds : WindowBounds) (rid : Nat) :
    partRow input ⟨bounds.count, bounds.rowIdx,
        if input.excludeMode = .currentRow then bounds.peerBegin else bounds.peerEnd, bounds.windowEnd, bounds.windowBegin⟩
        .right rid
      = (if input.excludeMode = .ties ∧ bounds.windowBegin rid ≤ bounds.rowIdx + rid
            ∧ bounds.rowIdx + rid < bounds.windowEnd rid then input.factor (bounds.rowIdx + rid) else 1)
        * rangeProd input.factor (max (bounds.rightBegin input.excludeMode rid) (bounds.windowBegin rid))
            (bounds.windowEnd rid) := by
  unfold partRow currRow Batch.clampedBegin Batch.clampedEnd Batch.frameBegin Batch.frameEnd WindowBounds.rightBegin
  by_cases hcurrent : input.excludeMode = .currentRow
  · simp [hcurrent]
  · simp [hcurrent]

theorem evaluate_statePtr (hcomm : input.orderInsensitive = true → ∀ x y : M, x * y = y * x) {b : Batch}
    (framePart : FramePart) {p : TreePart M} (hflushed : p.buffer = [])
    (htree : Tree input (levelsFlatStart input.rowCount 0) p.memory)
    (hends : ∀ rid < b.count, b.frameEnd framePart rid ≤ input.rowCount) (hrid : rid < b.count) :
    (p.evaluate input b framePart).memory (framePart.statePtr rid) = partRow input b framePart rid := by
  rw [TreePart.evaluate_memory hcomm hflushed htree hends, addRows_of_lt hrid,
    (initialize_spec framePart p.memory b.count _).2 rid hrid rfl, one_mul]

theorem evaluate_other (hcomm : input.orderInsensitive = true → ∀ x y : M, x * y = y * x) {b : Batch}
    (framePart : FramePart) {p : TreePart M} (hflushed : p.buffer = [])
    (htree : Tree input (levelsFlatStart input.rowCount 0) p.memory)
    (hends : ∀ rid < b.count, b.frameEnd framePart rid ≤ input.rowCount) {ptr : StatePtr}
    (hptr : ∀ rid, framePart.statePtr rid ≠ ptr) : (p.evaluate input b framePart).memory ptr = p.memory ptr := by
  rw [TreePart.evaluate_memory hcomm hflushed htree hends]
  exact (scatterRows_of_not_mem fun rid _ => hptr rid).trans
    ((initialize_spec framePart p.memory b.count ptr).1 fun rid _ => (hptr rid).symm)

theorem evaluate_parts (hcomm : input.orderInsensitive = true → ∀ x y : M, x * y = y * x) (bl br : Batch)
    {memory : StatePtr → M} (htree : Tree input (levelsFlatStart input.rowCount 0) memory) (cursor rightCursor : Nat × Nat)
    (hleft : ∀ rid < bl.count, bl.frameEnd .left rid ≤ input.rowCount)
    (hright : ∀ rid < br.count, br.frameEnd .right rid ≤ input.rowCount) (hrid : rid < bl.count) (hrid' : rid < br.count) :
    let part := (⟨memory, cursor, []⟩ : TreePart M).evaluate input bl .left
    let rightPart := (⟨part.memory, rightCursor, []⟩ : TreePart M).evaluate input br .right
    rightPart.memory (.left rid) * rightPart.memory (.right rid) = partRow input bl .left rid * partRow input br .right rid := by
  intro part rightPart
  have hpart : part.memory (.left rid) = partRow input bl .left rid := evaluate_statePtr hcomm .left rfl htree hleft hrid
  have htree' : Tree input (levelsFlatStart input.rowCount 0) part.memory :=
    htree.of_nodes fun i => evaluate_other hcomm .left rfl htree hleft fun rid => FramePart.isRow_statePtr .left rid i
  have hother : ∀ rid', FramePart.right.statePtr rid' ≠ .left rid := fun _ => nofun
  have hkept : rightPart.memory (.left rid) = part.memory (.left rid) :=
    evaluate_other hcomm .right (p := ⟨part.memory, rightCursor, []⟩) rfl htree' hright hother
  have hrightPart : rightPart.memory (.right rid) = partRow input br .right rid :=
    evaluate_statePtr hcomm .right rfl htree' hright hrid'
  rw [hkept, hpart, hrightPart]

/-- A window aggregate over the segment tree is the fold, in row order, over the rows of the frame that pass the filter
and are not excluded. -/
theorem evaluate_eq_foldl (input : Partition M) (hcomm : input.orderInsensitive = true → ∀ x y : M, x * y = y * x)
    (bounds : WindowBounds) (hbounds : bounds.Valid input.rowCount) (memory : StatePtr → M)
    (hmemory : ∀ i, memory (.node i) = buildTree input (.node i)) (cursor rightCursor : Nat × Nat) (rid : Nat)
    (hrid : rid < bounds.count) :
    evaluate input bounds memory cursor rightCursor rid
      = (frameRows input bounds rid).foldl (fun state row => state * input.value row) 1 := by
  have htree : Tree input (levelsFlatStart input.rowCount 0) memory :=
    Tree.of_nodes ⟨layout_levelsFlatStart _ _, buildTree_built input⟩ hmemory
  obtain ⟨-, hend⟩ := hbounds.frame rid hrid
  obtain ⟨hpeerBegin, hpeerEnd⟩ := hbounds.peers rid hrid
  have hends : ∀ rid < bounds.count, bounds.windowEnd rid ≤ input.rowCount := fun rid hrid => (hbounds.frame rid hrid).2
  rw [foldl_frameRows]
  unfold evaluate
  dsimp only
  split
  next hmode =>
    have hleft : bounds.leftEnd input.excludeMode rid ≤ bounds.rowIdx + rid := by
      unfold WindowBounds.leftEnd
      split
      · exact Nat.le_refl _
      · exact hpeerBegin
    have hright : bounds.rowIdx + rid < bounds.rightBegin input.excludeMode rid := by
      unfold WindowBounds.rightBegin
      split
      · exact Nat.lt_succ_self _
      · exact hpeerEnd
    rw [rangeProd_frame_exclude hmode hend hleft hright, ← partRow_left, ← partRow_right]
    exact evaluate_parts hcomm _ _ htree cursor rightCursor hends hends hrid hrid
  next hmode =>
    have hmode : input.excludeMode = .noOther := not_not.1 hmode
    rw [rangeProd_frame_noOther hmode hend]
    refine (evaluate_statePtr hcomm .full rfl htree hends hrid).trans ?_
    simp [partRow, currRow, Batch.clampedBegin, Batch.clampedEnd, Batch.frameBegin, Batch.frameEnd]

/-- Forty rows, of which one is filtered, that are listed in order. -/
def listPartition : Partition (FreeMonoid Nat) where
  rowCount := 40
  value := FreeMonoid.of
  filterMask := some (· ≠ 7)
  chunk row := (row / 16 * 16, row / 16 * 16 + 16)
  chunk_contains row := by
    dsimp only
    omega
  orderInsensitive := false
  excludeMode := .ties

/-- Three rows of the partition, that are peers. -/
def peerBounds : WindowBounds where
  count := 3
  rowIdx := 20
  windowBegin _ := 2
  windowEnd rid := 35 + rid
  peerBegin _ := 18
  peerEnd _ := 24

theorem evaluate_eq_foldl_listPartition :
    evaluate listPartition peerBounds (buildTree listPartition) (0, 0) (0, 0) 1
      = FreeMonoid.ofList [2, 3, 4, 5, 6, 8, 9, 10, 11, 12, 13, 14, 15, 16, 17, 21, 24, 25, 26, 27, 28, 29, 30, 31, 32, 33, 34,
          35] := by
  have hbounds : peerBounds.Valid listPartition.rowCount := by
    refine ⟨fun rid hrid => ?_, fun rid hrid => ?_⟩
    · have hcount : rid < 3 := hrid
      exact ⟨(by omega : 2 ≤ 35 + rid), (by omega : 35 + rid ≤ 40)⟩
    · have hcount : rid < 3 := hrid
      exact ⟨(by omega : 18 ≤ 20 + rid), (by omega : 20 + rid < 24)⟩
  exact evaluate_eq_foldl listPartition nofun peerBounds hbounds (buildTree listPartition) (fun _ => rfl) (0, 0) (0, 0) 1
    (by decide)

end Haybarn.Window
