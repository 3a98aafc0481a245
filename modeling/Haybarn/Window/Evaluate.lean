/-
Evaluation of a batch: every row of the batch ends with the product over the rows of its frame that pass the filter
and are not excluded. The passes over the leaves and the upper levels each add one factor to the state of every row,
and these factors are adjacent pieces of the frame.
-/
import Haybarn.Window.Upper

namespace Haybarn.Window

open Lib Function Nat List

variable {M : Type} [Monoid M] {input : Partition M} {starts : List Nat} {b : Batch} {framePart : FramePart}

/-! ## The passes -/

theorem FramePart.statePtr_injective (framePart : FramePart) : Function.Injective framePart.statePtr := by
  intro rid rid' h
  cases framePart with
  | full => exact StatePtr.left.inj h
  | left => exact StatePtr.left.inj h
  | right => exact StatePtr.right.inj h

theorem FramePart.nodup_statePtr (framePart : FramePart) (count : Nat) :
    ((range count).map framePart.statePtr).Nodup := nodup_range.map framePart.statePtr_injective

/-- One factor is added to the state of each of the first `count` rows. -/
def addRows (framePart : FramePart) (f : Nat → M) (count : Nat) (memory : StatePtr → M) : StatePtr → M :=
  scatterRows (· * ·) framePart.statePtr f (List.range count) memory

theorem addRows_of_isNode (f : Nat → M) (count : Nat) (memory : StatePtr → M) (i : Nat) :
    addRows framePart f count memory (.node i) = memory (.node i) :=
  scatterRows_of_not_mem fun rid _ => framePart.isRow_statePtr rid i

variable {f : Nat → M} {count rid first last : Nat} {p : TreePart M} {ptr : StatePtr}

theorem addRows_of_lt (h : rid < count) (memory : StatePtr → M) :
    addRows framePart f count memory (framePart.statePtr rid) = memory (framePart.statePtr rid) * f rid :=
  scatterRows_of_mem (framePart.nodup_statePtr count) (mem_range.2 h)

theorem addRows_of_ge (h : count ≤ rid) (memory : StatePtr → M) :
    addRows framePart f count memory (framePart.statePtr rid) = memory (framePart.statePtr rid) := by
  refine scatterRows_of_not_mem fun rid' hrid' he => ?_
  have hlt := mem_range.1 hrid'
  have heq := framePart.statePtr_injective he
  omega

theorem addRows_succ (f : Nat → M) (count : Nat) (memory : StatePtr → M) :
    addRows framePart f (count + 1) memory
      = scatter (· * ·) (addRows framePart f count memory) (framePart.statePtr count) (f count) := by
  unfold addRows scatterRows
  rw [range_succ, foldl_concat]

theorem addRows_congr {g : Nat → M} (h : ∀ rid < count, f rid = g rid) (memory : StatePtr → M) :
    addRows framePart f count memory = addRows framePart g count memory :=
  scatterRows_congr (fun rid hrid => h rid (mem_range.1 hrid)) memory

theorem addRows_addRows (f g : Nat → M) (count : Nat) (memory : StatePtr → M) :
    addRows framePart g count (addRows framePart f count memory) = addRows framePart (fun rid => f rid * g rid) count memory :=
  scatterRows_scatterRows (framePart.nodup_statePtr count) memory

theorem Tree.addRows {memory : StatePtr → M} (h : Tree input starts memory) (f : Nat → M) (count : Nat) :
    Tree input starts (Window.addRows framePart f count memory) := h.of_nodes (addRows_of_isNode f count memory)

/-! ## The upper levels -/

variable (input b framePart) in
/-- What the upper levels add for row `rid` of the batch. -/
def upperRow (rid : Nat) : M := input.upper (b.clampedBegin input framePart rid) (b.clampedEnd input framePart rid)

/-- The states after the first rows of `EvaluateUpperLevels`. A state that is kept for the next row is the one of an
earlier row, and has only nodes. -/
structure UpperRows (input : Partition M) (b : Batch) (framePart : FramePart) (memory : StatePtr → M) (count : Nat)
    (s : UpperState M) : Prop where
  result : s.part.result input = addRows framePart (upperRow input b framePart) count memory
  stack : s.rightStack = fun _ => (0, 0)
  prev : ∀ q first last, s.prev = some (q, first, last) → s.part.result input q = input.span 1 first last
  earlier : ∀ q first last, s.prev = some (q, first, last) → ∃ rid < count, q = framePart.statePtr rid

theorem UpperRows.adds {memory : StatePtr → M} {s s' : UpperState M}
    (h : UpperRows input b framePart memory count s)
    (hadds : Adds input s.part s'.part (framePart.statePtr count) (upperRow input b framePart count)) :
    s'.part.result input = addRows framePart (upperRow input b framePart) (count + 1) memory := by
  rw [addRows_succ, ← h.result]
  exact hadds

theorem UpperRows.step (hcomm : input.orderInsensitive = true → ∀ x y : M, x * y = y * x) {memory : StatePtr → M}
    {s : UpperState M} (htree : Tree input starts memory) (hpos : 0 < starts.length)
    (hend : b.clampedEnd input framePart count ≤ input.rowCount)
    (hinit : input.orderInsensitive = true → memory (framePart.statePtr count) = 1)
    (h : UpperRows input b framePart memory count s) :
    UpperRows input b framePart memory (count + 1)
      (UpperState.evaluateRow input b framePart starts s count) := by
  have hrow := framePart.isRow_statePtr count
  unfold UpperState.evaluateRow
  dsimp only
  split
  next hge =>
    have hone : upperRow input b framePart count = 1 := upper_of_le (Nat.div_le_div_right hge)
    refine ⟨h.adds ?_, h.stack, h.prev, fun q first last hq => ?_⟩
    · rw [hone]
      exact Adds.refl _ _
    · obtain ⟨rid, hrid, rfl⟩ := h.earlier q first last hq
      exact ⟨rid, Nat.lt_succ_of_lt hrid, rfl⟩
  next hlt =>
    have htree' : Tree input starts (s.part.result input) := by
      rw [h.result]
      exact htree.addRows _ _
    obtain ⟨⟨s', rightMax⟩, hloop⟩ : ∃ r, UpperState.levelLoop input starts (framePart.statePtr count) (starts.length + 1) s 0
      (b.clampedBegin input framePart count) (b.clampedEnd input framePart count) 0 = r := ⟨_, rfl⟩
    rw [hloop]
    dsimp only
    obtain ⟨hadds, hstack, hprev⟩ := upperRow_adds hcomm hrow hpos (Nat.lt_of_not_ge hlt) hend htree' h.stack h.prev hloop
    refine ⟨h.adds hadds, hstack, fun q first last hq => ?_, fun q first last hq => ?_⟩
    · rcases hprev with hsame | ⟨hinsensitive, first', last', hnew, hupper⟩
      · rw [hsame] at hq
        obtain ⟨rid, hrid, rfl⟩ := h.earlier q first last hq
        have hne : framePart.statePtr rid ≠ framePart.statePtr count := fun he =>
          Nat.ne_of_lt hrid (framePart.statePtr_injective he)
        exact (hadds.of_ne hne).trans (h.prev _ first last hq)
      · rw [hnew] at hq
        cases hq
        have hstart : s.part.result input (framePart.statePtr count) = 1 := by
          rw [h.result, addRows_of_ge (Nat.le_refl count)]
          exact hinit hinsensitive
        rw [hadds.self, hstart, one_mul]
        exact hupper
    · rcases hprev with hsame | ⟨-, first', last', hnew, -⟩
      · rw [hsame] at hq
        obtain ⟨rid, hrid, rfl⟩ := h.earlier q first last hq
        exact ⟨rid, Nat.lt_succ_of_lt hrid, rfl⟩
      · rw [hnew] at hq
        cases hq
        exact ⟨count, Nat.lt_succ_self count, rfl⟩

theorem evaluateUpperLevels_memory (hcomm : input.orderInsensitive = true → ∀ x y : M, x * y = y * x)
    (htree : Tree input starts (p.result input)) (hpos : 0 < starts.length)
    (hends : ∀ rid < b.count, b.clampedEnd input framePart rid ≤ input.rowCount)
    (hinit : input.orderInsensitive = true → ∀ rid < b.count, p.result input (framePart.statePtr rid) = 1) :
    (p.evaluateUpperLevels input b framePart starts).memory
      = addRows framePart (upperRow input b framePart) b.count (p.result input) := by
  have hrows : ∀ count ≤ b.count, UpperRows input b framePart (p.result input) count
      ((range count).foldl (UpperState.evaluateRow input b framePart starts) { part := p }) := by
    intro count
    induction count with
    | zero => exact fun _ => ⟨rfl, rfl, nofun, nofun⟩
    | succ count ih =>
      intro hcount
      rw [range_succ, foldl_concat]
      exact (ih (by omega)).step hcomm htree hpos (hends count hcount) fun h => hinit h count hcount
  exact (hrows b.count (le_refl _)).result

/-! ## The leaves -/

/-- The leaves on the left of a row's range, or all of it when it has no parent of its own. -/
def Partition.leavesLeft (input : Partition M) (first last : Nat) : M :=
  if first ≥ last then 1
  else if first / treeFanout = last / treeFanout then rangeProd input.factor first last
  else rangeProd input.factor first (innerBegin first * treeFanout)

/-- The leaves on the right. -/
def Partition.leavesRight (input : Partition M) (first last : Nat) : M :=
  if first ≥ last then 1
  else if first / treeFanout = last / treeFanout then 1
  else rangeProd input.factor (last / treeFanout * treeFanout) last

theorem leaves_upper_leaves (hlast : last ≤ input.rowCount) :
    input.leavesLeft first last * input.upper first last * input.leavesRight first last
      = rangeProd input.factor first last := by
  unfold Partition.leavesLeft Partition.leavesRight
  split
  next hge => rw [upper_of_le (Nat.div_le_div_right hge), rangeProd_of_le hge, one_mul, one_mul]
  next hlt =>
    split
    next hparents => rw [upper_of_le hparents.ge, mul_one, mul_one]
    next hparents =>
      have hparents : first / treeFanout < last / treeFanout :=
        Nat.lt_of_le_of_ne (Nat.div_le_div_right (by omega)) hparents
      have hgroupEnd : last / treeFanout * treeFanout ≤ last := Nat.div_mul_le_self ..
      have hinner : innerBegin first * treeFanout ≤ last / treeFanout * treeFanout :=
        Nat.mul_le_mul_right _ (innerBegin_le hparents)
      have hsplit := span_split input 0 hparents
      rw [span_zero (by omega) (by omega), span_zero (by omega) hlast, span_zero (by omega) hlast] at hsplit
      exact hsplit

variable (input b framePart) in
/-- With `EXCLUDE TIES` the current row is added in front of the right part. -/
def currRow (rid : Nat) : M :=
  if framePart = .right ∧ input.excludeMode = .ties ∧ b.frameBegin framePart rid ≤ b.rowIdx + rid
      ∧ b.rowIdx + rid < b.frameEnd framePart rid then input.factor (b.rowIdx + rid)
  else 1

variable (input b framePart) in
/-- What `EvaluateLeaves` adds for row `rid` of the batch. -/
def leafRow (leafPart : FramePart) (rid : Nat) : M :=
  let first := b.clampedBegin input framePart rid
  let last := b.clampedEnd input framePart rid
  (if leafPart ≠ .right then currRow input b framePart rid * input.leavesLeft first last else 1)
    * (if leafPart ≠ .left then input.leavesRight first last else 1)

theorem leaves_adds (hle : first ≤ last)
    (hlast : last ≤ input.rowCount) :
    Adds input p (p.windowSegmentValue input starts 0 first last ptr) ptr (rangeProd input.factor first last) := by
  rw [← span_zero (hle.trans hlast) hlast]
  exact windowSegmentValue_adds hle hlast (fun h => absurd h (lt_irrefl 0)) fun h => absurd h (lt_irrefl 0)

theorem Adds.ite {p' : TreePart M} {x : M} {c : Prop} [Decidable c] (h : c → Adds input p p' ptr x) :
    Adds input p (if c then p' else p) ptr (if c then x else 1) := by
  split
  next hc => exact h hc
  next => exact Adds.refl p ptr

theorem leafSides_adds {computeLeft computeRight : Prop}
    [Decidable computeLeft] [Decidable computeRight] (hparents : first / treeFanout < last / treeFanout)
    (hlast : last ≤ input.rowCount) :
    Adds input p
      (let p := if first ≠ first / treeFanout * treeFanout ∧ computeLeft then
          p.windowSegmentValue input starts 0 first (first / treeFanout * treeFanout + treeFanout) ptr else p
        if last ≠ last / treeFanout * treeFanout ∧ computeRight then
          p.windowSegmentValue input starts 0 (last / treeFanout * treeFanout) last ptr else p) ptr
      ((if computeLeft then rangeProd input.factor first (innerBegin first * treeFanout) else 1)
        * (if computeRight then rangeProd input.factor (last / treeFanout * treeFanout) last else 1)) := by
  have hgroupEnd : last / treeFanout * treeFanout ≤ last := div_mul_le_self ..
  have hinner : innerBegin first * treeFanout ≤ last / treeFanout * treeFanout :=
    mul_le_mul_right _ (innerBegin_le hparents)
  have hfirst := le_innerBegin first
  have hleft : (if computeLeft then rangeProd input.factor first (innerBegin first * treeFanout) else 1)
      = if first ≠ first / treeFanout * treeFanout ∧ computeLeft then
          rangeProd input.factor first (first / treeFanout * treeFanout + treeFanout) else 1 := by
    by_cases h : first = first / treeFanout * treeFanout
    · have hinner : innerBegin first * treeFanout = first := by
        rw [innerBegin, if_neg (not_not.2 h)]
        exact h.symm
      rw [hinner, rangeProd_self, ite_self, if_neg fun hc => hc.1 h]
    · have hinner : innerBegin first * treeFanout = first / treeFanout * treeFanout + treeFanout := by
        rw [innerBegin, if_pos h, succ_mul]
      simp only [hinner, ne_eq, h, not_false_eq_true, true_and]
  have hright : (if computeRight then rangeProd input.factor (last / treeFanout * treeFanout) last else 1)
      = if last ≠ last / treeFanout * treeFanout ∧ computeRight then
          rangeProd input.factor (last / treeFanout * treeFanout) last else 1 := by
    by_cases h : last = last / treeFanout * treeFanout
    · rw [rangeProd_of_le h.le, ite_self, ite_self]
    · simp only [ne_eq, h, not_false_eq_true, true_and]
  rw [hleft, hright]
  refine (Adds.ite fun h => ?_).trans (Adds.ite fun _ => leaves_adds hgroupEnd hlast)
  have hend : innerBegin first * treeFanout = first / treeFanout * treeFanout + treeFanout := by
    rw [innerBegin, if_pos h.1, succ_mul]
  exact leaves_adds (by omega) (by omega)

theorem evaluateLeavesRow_adds {leafPart : FramePart}
    (hend : b.frameEnd framePart rid ≤ input.rowCount) :
    Adds input p (p.evaluateLeavesRow input b framePart starts leafPart rid) (framePart.statePtr rid)
      (leafRow input b framePart leafPart rid) := by
  have hlast : b.clampedEnd input framePart rid ≤ input.rowCount := (Nat.min_le_right _ _).trans hend
  unfold TreePart.evaluateLeavesRow leafRow
  dsimp only
  have hcurr : Adds input p (if (leafPart ≠ .right ∧ framePart = .right ∧ input.excludeMode = .ties)
          ∧ b.frameBegin framePart rid ≤ b.rowIdx + rid ∧ b.rowIdx + rid < b.frameEnd framePart rid then
        p.windowSegmentValue input starts 0 (b.rowIdx + rid) (b.rowIdx + rid + 1) (framePart.statePtr rid)
      else p) (framePart.statePtr rid) (if leafPart ≠ .right then currRow input b framePart rid else 1) := by
    have hfactor : (if leafPart ≠ .right then currRow input b framePart rid else 1)
        = if (leafPart ≠ .right ∧ framePart = .right ∧ input.excludeMode = .ties)
            ∧ b.frameBegin framePart rid ≤ b.rowIdx + rid ∧ b.rowIdx + rid < b.frameEnd framePart rid then
          rangeProd input.factor (b.rowIdx + rid) (b.rowIdx + rid + 1) else 1 := by
      unfold currRow
      rw [rangeProd_succ_self, ← ite_and]
      simp only [and_assoc]
    rw [hfactor]
    exact Adds.ite fun h => leaves_adds (Nat.le_succ _) (by omega)
  have hmul : ∀ x y z : M, (if leafPart ≠ .right then x * y else 1) * z
      = (if leafPart ≠ .right then x else 1) * ((if leafPart ≠ .right then y else 1) * z) := by
    intro x y z
    split
    · exact mul_assoc x y z
    · rw [one_mul, one_mul]
  rw [hmul]
  refine hcurr.trans ?_
  generalize (if (leafPart ≠ .right ∧ framePart = .right ∧ input.excludeMode = .ties)
      ∧ b.frameBegin framePart rid ≤ b.rowIdx + rid ∧ b.rowIdx + rid < b.frameEnd framePart rid then
    p.windowSegmentValue input starts 0 (b.rowIdx + rid) (b.rowIdx + rid + 1) (framePart.statePtr rid) else p) = p'
  unfold Partition.leavesLeft Partition.leavesRight
  split
  next =>
    rw [ite_self, ite_self, one_mul]
    exact Adds.refl _ _
  next hlt =>
    split
    next =>
      rw [ite_self, mul_one]
      exact Adds.ite fun _ => leaves_adds (by omega) hlast
    next hparents =>
      exact leafSides_adds (Nat.lt_of_le_of_ne (Nat.div_le_div_right (by omega)) hparents) hlast

theorem evaluateLeaves_memory {leafPart : FramePart}
    (hends : ∀ rid < b.count, b.frameEnd framePart rid ≤ input.rowCount) :
    (p.evaluateLeaves input b framePart starts leafPart).memory
      = addRows framePart (leafRow input b framePart leafPart) b.count (p.result input) := by
  have hrows : ∀ count ≤ b.count, ((range count).foldl (TreePart.evaluateLeavesRow input b framePart starts leafPart)
      p).result input = addRows framePart (leafRow input b framePart leafPart) count (p.result input) := by
    intro count
    induction count with
    | zero => exact fun _ => rfl
    | succ count ih =>
      intro hcount
      rw [range_succ, foldl_concat, addRows_succ, ← ih (by omega)]
      exact evaluateLeavesRow_adds (hends count hcount)
  exact hrows b.count (le_refl _)

/-! ## One part -/

/-- `Initialize`. -/
theorem initialize_spec (framePart : FramePart) (memory : StatePtr → M) (count : Nat) (ptr : StatePtr) :
    ((∀ rid < count, ptr ≠ framePart.statePtr rid) →
      (range count).foldl (fun memory rid => update memory (framePart.statePtr rid) 1) memory ptr = memory ptr)
    ∧ ∀ rid < count, ptr = framePart.statePtr rid →
      (range count).foldl (fun memory rid => update memory (framePart.statePtr rid) 1) memory ptr = 1 := by
  induction count with
  | zero => exact ⟨fun _ => rfl, nofun⟩
  | succ count ih =>
    rw [range_succ, foldl_concat]
    refine ⟨fun h => ?_, fun rid hrid hptr => ?_⟩
    · rw [update_of_ne (h count (lt_succ_self count))]
      exact ih.1 fun rid hrid => h rid (lt_succ_of_lt hrid)
    · by_cases hlast : ptr = framePart.statePtr count
      · rw [hlast, update_self]
      · rw [update_of_ne hlast]
        refine ih.2 rid (lt_of_le_of_ne (le_of_lt_succ hrid) fun he => hlast ?_) hptr
        rw [hptr, he]

/-- The range that a part evaluates for a row, and the current row in front of it. -/
def partRow (input : Partition M) (b : Batch) (framePart : FramePart) (rid : Nat) : M :=
  currRow input b framePart rid
    * rangeProd input.factor (b.clampedBegin input framePart rid) (b.clampedEnd input framePart rid)

omit [Monoid M] in
theorem clampedEnd_le (hend : b.frameEnd framePart rid ≤ input.rowCount) :
    b.clampedEnd input framePart rid ≤ input.rowCount := (min_le_right _ _).trans hend

theorem leafRow_upperRow_leafRow (hend : b.frameEnd framePart rid ≤ input.rowCount) :
    leafRow input b framePart .left rid * (upperRow input b framePart rid * leafRow input b framePart .right rid)
      = partRow input b framePart rid := by
  have hleft : leafRow input b framePart .left rid = currRow input b framePart rid
      * input.leavesLeft (b.clampedBegin input framePart rid) (b.clampedEnd input framePart rid) := by simp [leafRow]
  have hright : leafRow input b framePart .right rid
      = input.leavesRight (b.clampedBegin input framePart rid) (b.clampedEnd input framePart rid) := by simp [leafRow]
  rw [hleft, hright, partRow, upperRow, ← leaves_upper_leaves (clampedEnd_le hend)]
  simp only [mul_assoc]

theorem upperRow_leafRow (hcomm : ∀ x y : M, x * y = y * x) (hend : b.frameEnd framePart rid ≤ input.rowCount) :
    upperRow input b framePart rid * leafRow input b framePart .full rid = partRow input b framePart rid := by
  have hfull : leafRow input b framePart .full rid = currRow input b framePart rid
      * input.leavesLeft (b.clampedBegin input framePart rid) (b.clampedEnd input framePart rid)
      * input.leavesRight (b.clampedBegin input framePart rid) (b.clampedEnd input framePart rid) := by simp [leafRow]
  rw [hfull, partRow, upperRow, ← leaves_upper_leaves (clampedEnd_le hend), ← mul_assoc, hcomm (input.upper _ _)]
  simp only [mul_assoc]

theorem TreePart.evaluate_memory (hcomm : input.orderInsensitive = true → ∀ x y : M, x * y = y * x)
    (hflushed : p.buffer = []) (htree : Tree input (levelsFlatStart input.rowCount 0) p.memory)
    (hends : ∀ rid < b.count, b.frameEnd framePart rid ≤ input.rowCount) :
    (p.evaluate input b framePart).memory = addRows framePart (partRow input b framePart) b.count
      ((range b.count).foldl (fun memory rid => update memory (framePart.statePtr rid) 1) p.memory) := by
  have hpos : 0 < (levelsFlatStart input.rowCount 0).length := length_pos_iff.2 (levelsFlatStart_ne_nil _ _)
  have hclamped : ∀ rid < b.count, b.clampedEnd input framePart rid ≤ input.rowCount :=
    fun rid hrid => clampedEnd_le (hends rid hrid)
  unfold TreePart.evaluate
  dsimp only
  obtain ⟨memory, hmemory⟩ : ∃ memory, (range b.count).foldl
    (fun memory rid => update memory (framePart.statePtr rid) 1) p.memory = memory := ⟨_, rfl⟩
  have hinit : ∀ rid < b.count, memory (framePart.statePtr rid) = 1 := fun rid hrid => by
    rw [← hmemory]
    exact (initialize_spec framePart p.memory b.count _).2 rid hrid rfl
  have htree : Tree input (levelsFlatStart input.rowCount 0) memory := htree.of_nodes fun i => by
    rw [← hmemory]
    exact (initialize_spec framePart p.memory b.count _).1 fun rid _ => (framePart.isRow_statePtr rid i).symm
  rw [hmemory]
  obtain ⟨p', hp'⟩ : ∃ p' : TreePart M, p' = { p with memory } := ⟨_, rfl⟩
  have hresult : p'.result input = memory := by
    rw [hp']
    exact result_of_flushed hflushed
  rw [← hp']
  split
  next hinsensitive =>
    have hupper := evaluateUpperLevels_memory hcomm (hresult ▸ htree) hpos hclamped fun _ => hresult ▸ hinit
    rw [evaluateLeaves_memory hends]
    refine (congrArg _ (hupper.trans (by rw [hresult]))).trans ?_
    rw [addRows_addRows]
    exact addRows_congr (fun rid hrid => upperRow_leafRow (hcomm hinsensitive) (hends rid hrid)) memory
  next hsensitive =>
    have hleft : (p'.evaluateLeaves input b framePart (levelsFlatStart input.rowCount 0) .left).result input
        = addRows framePart (leafRow input b framePart .left) b.count memory := by
      rw [← hresult]
      exact evaluateLeaves_memory hends
    have hupper := evaluateUpperLevels_memory hcomm (hleft ▸ htree.addRows _ _) hpos hclamped
      fun h => absurd h hsensitive
    rw [evaluateLeaves_memory hends]
    refine (congrArg _ (hupper.trans (by rw [hleft]))).trans ?_
    rw [addRows_addRows, addRows_addRows]
    exact addRows_congr (fun rid hrid => leafRow_upperRow_leafRow (hends rid hrid)) memory

end Haybarn.Window
