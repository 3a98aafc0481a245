/-
The segment tree of window aggregates: the model of `window_segment_tree.cpp`. States are combined through a
buffer, which is flushed when it is full, when the rows of another chunk are needed, and at the end of a pass.
-/
import Mathlib.Algebra.Group.Defs
import Mathlib.Logic.Function.Basic

namespace Haybarn.Window

/-! ## Inputs -/

inductive WindowExcludeMode where
  | noOther
  | currentRow
  | group
  | ties
deriving DecidableEq, Repr

/-- A partition and an aggregate over it. States are elements of a monoid: a row takes the state `s` to
`s * value row`, states are combined by multiplication, and the initial state is `1`. `chunk` tells which rows are
scanned together with a row. -/
structure Partition (M : Type) where
  rowCount : Nat
  value : Nat → M
  filterMask : Option (Nat → Bool)
  chunk : Nat → Nat × Nat
  chunk_contains : ∀ row, (chunk row).1 ≤ row ∧ row < (chunk row).2
  orderInsensitive : Bool
  excludeMode : WindowExcludeMode

/-- `RowIsValid` of the filter. -/
def Partition.rowIsValid {M : Type} (input : Partition M) (row : Nat) : Bool := input.filterMask.all (· row)

def treeFanout : Nat := 16

def standardVectorSize : Nat := 2048

/-! ## States -/

/-- Where a state is: in the tree, or in the state vector of the left or right part. -/
inductive StatePtr where
  | node (offset : Nat)
  | left (rid : Nat)
  | right (rid : Nat)
deriving DecidableEq, Repr

/-- What is to be added to a state: a row of the chunk, or another state. -/
inductive Source where
  | row (offset : Nat)
  | state (ptr : StatePtr)
deriving DecidableEq, Repr

/-- `WindowSegmentTreePart` and the states it points to. The cursor is at the rows from `cursor.1` to `cursor.2`. -/
structure TreePart (M : Type) where
  memory : StatePtr → M
  cursor : Nat × Nat
  buffer : List (Source × StatePtr) := []

section Part

variable {M : Type} [Monoid M] (input : Partition M)

def TreePart.rowIsVisible (p : TreePart M) (row : Nat) : Bool := row < p.cursor.2 && p.cursor.1 ≤ row

def TreePart.rowOffset (p : TreePart M) (row : Nat) : Nat := row - p.cursor.1

/-- What an entry of the buffer adds. -/
def Source.addend (cursor : Nat × Nat) (memory : StatePtr → M) : Source → M
  | .row offset => input.value (cursor.1 + offset)
  | .state ptr => memory ptr

/-- An entry of the buffer: the state update or combine callback. -/
def applySource (cursor : Nat × Nat) (memory : StatePtr → M) (entry : Source × StatePtr) : StatePtr → M :=
  Function.update memory entry.2 (memory entry.2 * entry.1.addend input cursor memory)

def TreePart.flushStates (p : TreePart M) : TreePart M :=
  { p with
    memory := p.buffer.foldl (applySource input p.cursor) p.memory
    buffer := [] }

/-- One more entry in the buffer, which is flushed when it is full. -/
def TreePart.push (p : TreePart M) (entry : Source × StatePtr) : TreePart M :=
  let p := { p with buffer := p.buffer ++ [entry] }
  if p.buffer.length ≥ standardVectorSize then p.flushStates input else p

def TreePart.extractFrame (p : TreePart M) (first last : Nat) (ptr : StatePtr) : TreePart M :=
  match input.filterMask with
  | none =>
    let offset := p.rowOffset first
    (List.range (last - first)).foldl (fun p i => p.push input (.row (offset + i), ptr)) p
  | some filterMask =>
    (List.range' first (last - first)).foldl
      (fun p i => if filterMask i then p.push input (.row (p.rowOffset i), ptr) else p) p

/-- The loop of `WindowSegmentValue` over the chunks of the leaves. Every round takes at least one row. -/
def TreePart.leafLoop : Nat → TreePart M → Nat → Nat → StatePtr → TreePart M
  | 0, p, _, _, _ => p
  | fuel + 1, p, first, last, ptr =>
    if first < last then
      let p := if p.rowIsVisible first then p else { p.flushStates input with cursor := input.chunk first }
      let next := min last p.cursor.2
      TreePart.leafLoop fuel (p.extractFrame input first next ptr) next last ptr
    else p

def TreePart.windowSegmentValue (levelsFlatStart : List Nat) (p : TreePart M) (level first last : Nat) (ptr : StatePtr) :
    TreePart M :=
  if first = last then p
  else if level = 0 then TreePart.leafLoop input (last - first) p first last ptr
  else
    let start := first + levelsFlatStart.getD (level - 1) 0
    (List.range (last - first)).foldl (fun p i => p.push input (.state (.node (start + i)), ptr)) p

/-! ## Building the tree -/

/-- The loop of `WindowSegmentTreeGlobalState`: where each level starts in the array of states. -/
def levelsFlatStart (levelSize offset : Nat) : List Nat :=
  if levelSize > 1 then
    let buildCount := (levelSize + treeFanout - 1) / treeFanout
    offset :: levelsFlatStart buildCount (offset + buildCount)
  else [offset]
termination_by levelSize
decreasing_by
  unfold treeFanout
  omega

/-- One level of the tree, from the level below. -/
def TreePart.buildLevel (starts : List Nat) (level levelSize : Nat) (p : TreePart M) : TreePart M :=
  (List.range ((levelSize + treeFanout - 1) / treeFanout)).foldl (fun p buildIdx =>
    let pos := buildIdx * treeFanout
    let ptr := .node (starts.getD level 0 + buildIdx)
    (p.windowSegmentValue input starts level pos (min levelSize (pos + treeFanout)) ptr).flushStates input) p

/-- The loop of `Finalize` over the levels. -/
def TreePart.buildLevels (starts : List Nat) : Nat → Nat → TreePart M → TreePart M
  | 0, _, p => p
  | fuel + 1, level, p =>
    if level ≥ starts.length then p
    else
      let levelSize := if level = 0 then input.rowCount else starts.getD level 0 - starts.getD (level - 1) 0
      if levelSize ≤ 1 then p else TreePart.buildLevels starts fuel (level + 1) (p.buildLevel input starts level levelSize)

/-- The states of the tree. -/
def buildTree : StatePtr → M :=
  let starts := levelsFlatStart input.rowCount 0
  (TreePart.buildLevels input starts starts.length 0 { memory := fun _ => 1, cursor := (0, 0) }).memory

/-! ## Evaluation -/

inductive FramePart where
  | full
  | left
  | right
deriving DecidableEq, Repr

/-- The state of a row in the state vector of the part. -/
def FramePart.statePtr : FramePart → Nat → StatePtr
  | .full, rid | .left, rid => .left rid
  | .right, rid => .right rid

/-- The frames of the rows of a batch that starts at `rowIdx`. -/
structure Batch where
  count : Nat
  rowIdx : Nat
  begins : Nat → Nat
  ends : Nat → Nat
  bounds : Nat → Nat

variable (b : Batch) (framePart : FramePart)

/-- `frame_begins` and `frame_ends`. -/
def Batch.frameBegin (rid : Nat) : Nat := if framePart = .right then b.bounds rid else b.begins rid

def Batch.frameEnd (rid : Nat) : Nat := if framePart = .left then b.bounds rid else b.ends rid

/-- The rows of a part of a frame, which is clamped to the frame. -/
def Batch.clampedBegin (rid : Nat) : Nat :=
  let beginOnCurrRow := framePart = .right ∧ input.excludeMode = .currentRow
  max (if beginOnCurrRow then b.rowIdx + rid + 1 else b.begins rid) (b.frameBegin framePart rid)

def Batch.clampedEnd (rid : Nat) : Nat :=
  let endOnCurrRow := framePart = .left ∧ input.excludeMode = .currentRow
  min (if endOnCurrRow then b.rowIdx + rid else b.ends rid) (b.frameEnd framePart rid)

/-- The variables of `EvaluateUpperLevels`. -/
structure UpperState (M : Type) where
  part : TreePart M
  prev : Option (StatePtr × Nat × Nat) := none
  rightStack : Nat → Nat × Nat := fun _ => (0, 0)

/-- The loop over the levels of one row. The result has the topmost level of the right stack. -/
def UpperState.levelLoop (starts : List Nat) (ptr : StatePtr) :
    Nat → UpperState M → Nat → Nat → Nat → Nat → UpperState M × Nat
  | 0, s, _, _, _, rightMax => (s, rightMax)
  | fuel + 1, s, level, first, last, rightMax =>
    let parentBegin := first / treeFanout
    let parentEnd := last / treeFanout
    match s.prev.filter fun prev => level = 1 ∧ first = prev.2.1 ∧ last = prev.2.2 with
    | some prev => ({ s with part := s.part.push input (.state prev.1, ptr) }, rightMax)
    | none =>
      let s := if input.orderInsensitive ∧ level = 1 then { s with prev := some (ptr, first, last) } else s
      if parentBegin = parentEnd then
        (if level ≠ 0 then { s with part := s.part.windowSegmentValue input starts level first last ptr } else s, rightMax)
      else
        let groupBegin := parentBegin * treeFanout
        let s := if first ≠ groupBegin ∧ level ≠ 0 then
          { s with part := s.part.windowSegmentValue input starts level first (groupBegin + treeFanout) ptr } else s
        let parentBegin := if first ≠ groupBegin then parentBegin + 1 else parentBegin
        let groupEnd := parentEnd * treeFanout
        if last ≠ groupEnd ∧ level ≠ 0 then
          if input.orderInsensitive then
            let s := { s with part := s.part.windowSegmentValue input starts level groupEnd last ptr }
            levelLoop starts ptr fuel s (level + 1) parentBegin parentEnd rightMax
          else
            let s := { s with rightStack := Function.update s.rightStack level (groupEnd, last) }
            levelLoop starts ptr fuel s (level + 1) parentBegin parentEnd level
        else levelLoop starts ptr fuel s (level + 1) parentBegin parentEnd rightMax

/-- The right side values of one row, from the topmost level down. -/
def UpperState.flushRight (starts : List Nat) (ptr : StatePtr) : Nat → UpperState M → UpperState M
  | 0, s => s
  | level + 1, s =>
    let entry := s.rightStack (level + 1)
    let s := if entry.2 ≠ 0 then
      { s with
        part := s.part.windowSegmentValue input starts (level + 1) entry.1 entry.2 ptr
        rightStack := Function.update s.rightStack (level + 1) (0, 0) }
      else s
    flushRight starts ptr level s

/-- One row of `EvaluateUpperLevels`. -/
def UpperState.evaluateRow (starts : List Nat) (s : UpperState M) (rid : Nat) : UpperState M :=
  let maxLevel := starts.length + 1
  let ptr := framePart.statePtr rid
  let first := b.clampedBegin input framePart rid
  let last := b.clampedEnd input framePart rid
  if first ≥ last then s
  else
    let (s, rightMax) := UpperState.levelLoop input starts ptr maxLevel s 0 first last 0
    UpperState.flushRight input starts ptr rightMax s

def TreePart.evaluateUpperLevels (starts : List Nat) (p : TreePart M) : TreePart M :=
  let s := (List.range b.count).foldl (UpperState.evaluateRow input b framePart starts) { part := p }
  s.part.flushStates input

/-- One row of `EvaluateLeaves`. -/
def TreePart.evaluateLeavesRow (starts : List Nat) (leafPart : FramePart) (p : TreePart M) (rid : Nat) : TreePart M :=
  let computeLeft := leafPart ≠ .right
  let computeRight := leafPart ≠ .left
  let addCurrRow := computeLeft ∧ framePart = .right ∧ input.excludeMode = .ties
  let ptr := framePart.statePtr rid
  let curRow := b.rowIdx + rid
  let first := b.clampedBegin input framePart rid
  let last := b.clampedEnd input framePart rid
  let p := if addCurrRow ∧ b.frameBegin framePart rid ≤ curRow ∧ curRow < b.frameEnd framePart rid then
    p.windowSegmentValue input starts 0 curRow (curRow + 1) ptr else p
  if first ≥ last then p
  else
    let parentBegin := first / treeFanout
    let parentEnd := last / treeFanout
    if parentBegin = parentEnd then
      if computeLeft then p.windowSegmentValue input starts 0 first last ptr else p
    else
      let groupBegin := parentBegin * treeFanout
      let p := if first ≠ groupBegin ∧ computeLeft then
        p.windowSegmentValue input starts 0 first (groupBegin + treeFanout) ptr else p
      let groupEnd := parentEnd * treeFanout
      if last ≠ groupEnd ∧ computeRight then p.windowSegmentValue input starts 0 groupEnd last ptr else p

def TreePart.evaluateLeaves (starts : List Nat) (leafPart : FramePart) (p : TreePart M) : TreePart M :=
  ((List.range b.count).foldl (TreePart.evaluateLeavesRow input b framePart starts leafPart) p).flushStates input

/-- `WindowSegmentTreePart::Evaluate`, with `Initialize`. -/
def TreePart.evaluate (p : TreePart M) : TreePart M :=
  let starts := levelsFlatStart input.rowCount 0
  let p := { p with
    memory := (List.range b.count).foldl (fun memory rid => Function.update memory (framePart.statePtr rid) 1) p.memory }
  if input.orderInsensitive then
    (p.evaluateUpperLevels input b framePart starts).evaluateLeaves input b framePart starts .full
  else
    let p := p.evaluateLeaves input b framePart starts .left
    (p.evaluateUpperLevels input b framePart starts).evaluateLeaves input b framePart starts .right

end Part

/-- The bounds of a batch of rows that starts at `rowIdx`. -/
structure WindowBounds where
  count : Nat
  rowIdx : Nat
  windowBegin : Nat → Nat
  windowEnd : Nat → Nat
  peerBegin : Nat → Nat
  peerEnd : Nat → Nat

/-- `WindowSegmentTreeLocalState::Evaluate`: the states of the rows of the batch. The state vectors have the states of
an earlier batch, or none, and the cursors of the two parts are where that batch left them. -/
def evaluate {M : Type} [Monoid M] (input : Partition M) (bounds : WindowBounds) (memory : StatePtr → M)
    (cursor rightCursor : Nat × Nat) (rid : Nat) : M :=
  let part : TreePart M := { memory, cursor }
  if input.excludeMode ≠ .noOther then
    let excludeCurrent := input.excludeMode = .currentRow
    let middle := if excludeCurrent then bounds.peerEnd else bounds.peerBegin
    let part := part.evaluate input ⟨bounds.count, bounds.rowIdx, bounds.windowBegin, middle, bounds.windowEnd⟩ .left
    let middle := if excludeCurrent then bounds.peerBegin else bounds.peerEnd
    let rightPart : TreePart M := { memory := part.memory, cursor := rightCursor }
    let rightPart := rightPart.evaluate input
      ⟨bounds.count, bounds.rowIdx, middle, bounds.windowEnd, bounds.windowBegin⟩ .right
    -- `Combine`
    rightPart.memory (.left rid) * rightPart.memory (.right rid)
  else
    let part := part.evaluate input
      ⟨bounds.count, bounds.rowIdx, bounds.windowBegin, bounds.windowEnd, fun _ => 0⟩ .full
    part.memory (.left rid)

end Haybarn.Window
