/-
What the operations of a part add to the states. The buffer is looked through: `result` has the states as they are
once it is flushed, so that when it is flushed makes no difference. Every operation then adds one factor at one
state, and the factor of a range of rows or nodes is the product over the rows it covers.

Building the tree. The levels are built from the bottom up, and each level lies behind the ones below it, so that
what a level is built from is never written again: when all levels are built, every node has what it covers.
-/
import Haybarn.Lib.RangeProd
import Haybarn.Lib.Scatter
import Haybarn.Window.SegmentTree

namespace Haybarn.Window

open Lib Nat

variable {M : Type} [Monoid M] {input : Partition M} {p : TreePart M} {ptr : StatePtr}

/-! ## The buffer -/

variable (input) in
/-- The states once the buffer is flushed. -/
def TreePart.result (p : TreePart M) : StatePtr → M := (p.flushStates input).memory

variable (input) in
/-- One factor is added to the state at `ptr`. -/
def Adds (p p' : TreePart M) (ptr : StatePtr) (x : M) : Prop :=
  p'.result input = scatter (· * ·) (p.result input) ptr x

theorem result_of_flushed (h : p.buffer = []) : p.result input = p.memory := by
  unfold TreePart.result TreePart.flushStates
  rw [h]
  rfl

theorem Adds.refl (p : TreePart M) (ptr : StatePtr) : Adds input p p ptr 1 := by
  unfold Adds scatter
  dsimp only
  rw [mul_one, Function.update_eq_self]

variable {p' : TreePart M} {first last level : Nat}

theorem Adds.trans {p p'' : TreePart M} {x y : M} (h : Adds input p p' ptr x) (h' : Adds input p' p'' ptr y) :
    Adds input p p'' ptr (x * y) := by
  unfold Adds at *
  rw [h', h, scatter_scatter]

theorem Adds.self {x : M} (h : Adds input p p' ptr x) :
    p'.result input ptr = p.result input ptr * x := by
  rw [h, scatter_same]

theorem Adds.of_ne {x : M} {q : StatePtr} (h : Adds input p p' ptr x) (hq : q ≠ ptr) :
    p'.result input q = p.result input q := by
  rw [h, scatter_of_ne hq]

theorem push_cursor (entry : Source × StatePtr) : (p.push input entry).cursor = p.cursor := by
  unfold TreePart.push
  dsimp only
  split
  · rfl
  · rfl

variable (input) in
theorem push_adds (p : TreePart M) (source : Source) (ptr : StatePtr) :
    Adds input p (p.push input (source, ptr)) ptr (source.addend input p.cursor (p.result input)) := by
  have happend : (p.buffer ++ [(source, ptr)]).foldl (applySource input p.cursor) p.memory
      = applySource input p.cursor (p.result input) (source, ptr) := List.foldl_concat ..
  unfold Adds
  unfold TreePart.push
  dsimp only
  split
  · exact happend
  · exact happend

/-! ## Ranges of rows and nodes -/

/-- What a row adds: nothing when the filter drops it. -/
def Partition.factor (input : Partition M) (row : Nat) : M := if input.rowIsValid row then input.value row else 1

variable (input ptr) in
theorem foldl_push_adds {α : Type} (source : Nat × Nat → α → Source) :
    ∀ (as : List α) (p : TreePart M), (∀ cursor, ∀ a ∈ as, source cursor a ≠ .state ptr) →
      Adds input p (as.foldl (fun p a => p.push input (source p.cursor a, ptr)) p) ptr
        (as.map fun a => (source p.cursor a).addend input p.cursor (p.result input)).prod
  | [], p, _ => Adds.refl p ptr
  | a :: as, p, hne => by
    have hpush := push_adds input p (source p.cursor a) ptr
    have hrest := foldl_push_adds source as (p.push input (source p.cursor a, ptr))
      fun cursor a' ha' => hne cursor a' (List.mem_cons_of_mem a ha')
    have hsame : as.map (fun a' => (source p.cursor a').addend input p.cursor
          ((p.push input (source p.cursor a, ptr)).result input))
        = as.map fun a' => (source p.cursor a').addend input p.cursor (p.result input) := by
      refine List.map_congr_left fun a' ha' => ?_
      have hne' := hne p.cursor a' (List.mem_cons_of_mem a ha')
      cases h : source p.cursor a' with
      | row offset => rfl
      | state q => exact hpush.of_ne fun he => hne' (by rw [h, he])
    simp only [push_cursor] at hrest
    rw [hsame] at hrest
    rw [List.map_cons, List.prod_cons]
    exact hpush.trans hrest

omit [Monoid M] in
theorem addend_row {cursor : Nat × Nat} (memory : StatePtr → M) {row offset : Nat} (h : cursor.1 + offset = row) :
    Source.addend input cursor memory (.row offset) = input.value row := congrArg input.value h

theorem extractFrame_adds (hvisible : p.cursor.1 ≤ first) :
    Adds input p (p.extractFrame input first last ptr) ptr (rangeProd input.factor first last) := by
  unfold TreePart.extractFrame TreePart.rowOffset
  split
  next hmask =>
    have hadds := foldl_push_adds input ptr (fun _ i => .row (first - p.cursor.1 + i)) (List.range (last - first)) p
      fun _ _ _ => nofun
    have hrows : (List.range (last - first)).map (fun i =>
        (Source.row (first - p.cursor.1 + i)).addend input p.cursor (p.result input))
        = (List.range' first (last - first)).map input.factor := by
      rw [List.range'_eq_map_range, List.map_map]
      refine List.map_congr_left fun i _ => ?_
      have hvalid : input.factor (first + i) = input.value (first + i) := by
        unfold Partition.factor Partition.rowIsValid
        rw [hmask]
        rfl
      exact (addend_row _ (by omega)).trans hvalid.symm
    rw [hrows] at hadds
    exact hadds
  next filterMask hmask =>
    have hadds := foldl_push_adds input ptr (fun cursor i => .row (i - cursor.1))
      ((List.range' first (last - first)).filter filterMask) p fun _ _ _ => nofun
    have hrows : (((List.range' first (last - first)).filter filterMask).map fun i =>
        (Source.row (i - p.cursor.1)).addend input p.cursor (p.result input)).prod
        = rangeProd input.factor first last := by
      unfold rangeProd
      have hfactor : input.factor = fun r => if filterMask r then input.value r else 1 := by
        unfold Partition.factor Partition.rowIsValid
        rw [hmask]
        rfl
      rw [hfactor, prod_map_ite]
      refine congrArg List.prod (List.map_congr_left fun i hi => ?_)
      have hfirst : first ≤ i := (List.mem_range'_1.1 (List.mem_of_mem_filter hi)).1
      exact addend_row _ (by omega)
    rw [hrows, List.foldl_filter] at hadds
    exact hadds

theorem leafLoop_adds : ∀ (fuel : Nat) (p : TreePart M) (first last : Nat), last - first ≤ fuel → first ≤ last →
    Adds input p (TreePart.leafLoop input fuel p first last ptr) ptr (rangeProd input.factor first last)
  | 0, p, first, last, hfuel, hle => by
    rw [rangeProd_of_le (by omega)]
    exact Adds.refl p ptr
  | fuel + 1, p, first, last, hfuel, hle => by
    unfold TreePart.leafLoop
    split
    next hlt =>
      -- where the cursor is after the seek
      obtain ⟨p', hp', hresult, hlow, hhigh⟩ : ∃ p' : TreePart M,
          (if p.rowIsVisible first then p else { p.flushStates input with cursor := input.chunk first }) = p'
          ∧ p'.result input = p.result input ∧ p'.cursor.1 ≤ first ∧ first < p'.cursor.2 := by
        refine ⟨_, rfl, ?_⟩
        split
        next hvisible =>
          unfold TreePart.rowIsVisible at hvisible
          simp only [Bool.and_eq_true, decide_eq_true_eq] at hvisible
          exact ⟨rfl, hvisible.2, hvisible.1⟩
        next => exact ⟨rfl, input.chunk_contains first⟩
      dsimp only
      rw [hp']
      have hextract : Adds input p (p'.extractFrame input first (min last p'.cursor.2) ptr) ptr
          (rangeProd input.factor first (min last p'.cursor.2)) := by
        unfold Adds
        rw [← hresult]
        exact extractFrame_adds hlow
      have hrest := leafLoop_adds fuel (p'.extractFrame input first (min last p'.cursor.2) ptr)
        (min last p'.cursor.2) last (by omega) (by omega)
      have hall := hextract.trans hrest
      rwa [rangeProd_mul (by omega) (by omega)] at hall
    next hge =>
      rw [rangeProd_of_le (by omega)]
      exact Adds.refl p ptr

/-! ## Levels -/

/-- How many nodes a level has, from the number of rows. -/
def levelSize (rowCount : Nat) : Nat → Nat
  | 0 => rowCount
  | level + 1 => (levelSize rowCount level + treeFanout - 1) / treeFanout

/-- What a range of nodes of a level covers: the last node of a level may be cut off. -/
def Partition.span (input : Partition M) (level first last : Nat) : M :=
  rangeProd input.factor (min input.rowCount (first * treeFanout ^ level))
    (min input.rowCount (last * treeFanout ^ level))

theorem levelSize_build (levelSize' level : Nat) :
    levelSize ((levelSize' + treeFanout - 1) / treeFanout) level = levelSize levelSize' (level + 1) := by
  induction level with
  | zero => rfl
  | succ level ih =>
    unfold levelSize
    rw [ih]

theorem div_fanout_le_levelSize {rowCount : Nat} (h : last ≤ levelSize rowCount level) :
    last / treeFanout ≤ levelSize rowCount (level + 1) := by
  unfold treeFanout at *
  rw [levelSize]
  unfold treeFanout
  omega

omit [Monoid M] in
theorem monotone_start (input : Partition M) (level : Nat) :
    Monotone fun i => min input.rowCount (i * treeFanout ^ level) := by
  intro i j h
  have hmul : i * treeFanout ^ level ≤ j * treeFanout ^ level := mul_le_mul_right _ h
  dsimp only
  omega

@[simp]
theorem span_self (level first : Nat) : input.span level first first = 1 := rangeProd_self ..

theorem span_mul {middle : Nat} (h : first ≤ middle) (h' : middle ≤ last) :
    input.span level first middle * input.span level middle last = input.span level first last :=
  rangeProd_mul (monotone_start input level h) (monotone_start input level h')

theorem rowCount_le_levelSize (rowCount level : Nat) : rowCount ≤ levelSize rowCount level * treeFanout ^ level := by
  induction level with
  | zero => exact (mul_one rowCount).ge
  | succ level ih =>
    have hup : levelSize rowCount level ≤ levelSize rowCount (level + 1) * treeFanout := by
      rw [levelSize]
      unfold treeFanout
      omega
    calc rowCount ≤ levelSize rowCount level * treeFanout ^ level := ih
      _ ≤ levelSize rowCount (level + 1) * treeFanout * treeFanout ^ level := mul_le_mul_right _ hup
      _ = levelSize rowCount (level + 1) * treeFanout ^ (level + 1) := by rw [pow_succ', mul_assoc]

theorem span_min (level first last : Nat) :
    input.span level first (min (levelSize input.rowCount level) last) = input.span level first last := by
  have hall := rowCount_le_levelSize input.rowCount level
  unfold Partition.span
  congr 1
  rcases le_total last (levelSize input.rowCount level) with h | h
  · rw [min_eq_right h]
  · have hmul := mul_le_mul_right (treeFanout ^ level) h
    rw [min_eq_left h]
    omega

theorem span_succ (level first last : Nat) :
    input.span (level + 1) first last = input.span level (first * treeFanout) (last * treeFanout) := by
  unfold Partition.span
  rw [pow_succ', ← mul_assoc, ← mul_assoc]

theorem span_zero (hfirst : first ≤ input.rowCount) (hlast : last ≤ input.rowCount) :
    input.span 0 first last = rangeProd input.factor first last := by
  unfold Partition.span
  rw [pow_zero, mul_one, mul_one, min_eq_right hfirst, min_eq_right hlast]

/-- Where node `i` of a level is, from level 1 on. -/
def levelPtr (starts : List Nat) (level i : Nat) : StatePtr := .node (i + starts.getD (level - 1) 0)

/-- The nodes of a level have what they cover. -/
def BuiltLevel (input : Partition M) (starts : List Nat) (memory : StatePtr → M) (level : Nat) : Prop :=
  0 < level → ∀ i < levelSize input.rowCount level, memory (levelPtr starts level i) = input.span level i (i + 1)

theorem windowSegmentValue_adds {starts : List Nat} (hle : first ≤ last)
    (hlast : last ≤ levelSize input.rowCount level) (hbuilt : BuiltLevel input starts (p.result input) level)
    (hptr : 0 < level → ∀ i < levelSize input.rowCount level, ptr ≠ levelPtr starts level i) :
    Adds input p (p.windowSegmentValue input starts level first last ptr) ptr (input.span level first last) := by
  unfold TreePart.windowSegmentValue
  split
  next heq =>
    rw [heq, span_self]
    exact Adds.refl p ptr
  next =>
    split
    next hzero =>
      subst hzero
      rw [span_zero (hle.trans hlast) hlast]
      exact leafLoop_adds _ p first last (Nat.le_refl _) hle
    next hlevel =>
      have hlevel : 0 < level := Nat.pos_of_ne_zero hlevel
      have hnode : ∀ i, StatePtr.node (first + starts.getD (level - 1) 0 + i) = levelPtr starts level (first + i) :=
        fun i => congrArg StatePtr.node (by omega)
      have hadds := foldl_push_adds input ptr (fun _ i => .state (levelPtr starts level (first + i)))
        (List.range (last - first)) p fun _ i hi he => by
          have hi : i < last - first := List.mem_range.1 hi
          exact hptr hlevel (first + i) (by omega) (Source.state.inj he).symm
      have hspan : ((List.range (last - first)).map fun i => p.result input (levelPtr starts level (first + i))).prod
          = input.span level first last := by
        have hblocks : rangeProd (fun i => p.result input (levelPtr starts level i)) first last
            = input.span level first last :=
          rangeProd_blocks (monotone_start input level) hle fun i _ hi => hbuilt hlevel i (by omega)
        rw [← hblocks, rangeProd, List.range'_eq_map_range, List.map_map]
        rfl
      simp only [hnode]
      unfold Source.addend at hadds
      rw [hspan] at hadds
      exact hadds

/-! ## Where the levels are -/

theorem levelsFlatStart_ne_nil (rowCount offset : Nat) : levelsFlatStart rowCount offset ≠ [] := by
  unfold levelsFlatStart
  split
  · exact List.cons_ne_nil _ _
  · exact List.cons_ne_nil _ _

theorem levelsFlatStart_getD_zero (rowCount offset : Nat) : (levelsFlatStart rowCount offset).getD 0 0 = offset := by
  unfold levelsFlatStart
  split
  · rfl
  · rfl

/-- The layout of the levels: where each one starts, and that they go up to a level of one node. -/
structure Layout (rowCount : Nat) (starts : List Nat) : Prop where
  next : ∀ level, level + 1 < starts.length →
    starts.getD (level + 1) 0 = starts.getD level 0 + levelSize rowCount (level + 1)
  top : levelSize rowCount (starts.length - 1) ≤ 1
  below : ∀ level, level + 1 < starts.length → 1 < levelSize rowCount level

theorem layout_levelsFlatStart (rowCount offset : Nat) : Layout rowCount (levelsFlatStart rowCount offset) := by
  fun_induction levelsFlatStart rowCount offset with
  | case1 size offset hsize buildCount ih =>
    have hne : levelsFlatStart buildCount (offset + buildCount) ≠ [] := levelsFlatStart_ne_nil _ _
    have hzero : (levelsFlatStart buildCount (offset + buildCount)).getD 0 0 = offset + buildCount :=
      levelsFlatStart_getD_zero _ _
    have hsizes : ∀ level, levelSize buildCount level = levelSize size (level + 1) := levelSize_build size
    obtain ⟨hnext, htop, hbelow⟩ := ih
    generalize levelsFlatStart buildCount (offset + buildCount) = rest at *
    have hpos : 0 < rest.length := List.length_pos_iff.2 hne
    refine ⟨fun level hlevel => ?_, ?_, fun level hlevel => ?_⟩
    · rw [List.length_cons] at hlevel
      cases level with
      | zero => exact hzero
      | succ level =>
        rw [List.getD_cons_succ, List.getD_cons_succ, hnext level (by omega), hsizes]
    · have hlast : rest.length = rest.length - 1 + 1 := by omega
      rw [List.length_cons, Nat.add_sub_cancel, hlast, ← hsizes]
      exact htop
    · rw [List.length_cons] at hlevel
      cases level with
      | zero => exact hsize
      | succ level =>
        rw [← hsizes]
        exact hbelow level (by omega)
  | case2 size offset hsize =>
    refine ⟨fun level hlevel => ?_, Nat.le_of_not_gt hsize, fun level hlevel => ?_⟩
    · exact absurd hlevel (by simp)
    · exact absurd hlevel (by simp)

variable {starts : List Nat}

variable {level : Nat}

theorem Layout.levelPtr_lt {rowCount : Nat} (h : Layout rowCount starts) {above i : Nat} (hpos : 0 < level)
    (hle : level ≤ above) (habove : above < starts.length) (hi : i < levelSize rowCount level) :
    i + starts.getD (level - 1) 0 < starts.getD above 0 := by
  induction above, hle using Nat.le_induction with
  | base =>
    have hnext := h.next (level - 1) (by omega)
    rw [Nat.sub_add_cancel hpos] at hnext
    omega
  | succ above _ ih =>
    have hnext := h.next above habove
    have hbefore := ih (by omega)
    omega

/-! ## Building one level -/

/-- The levels up to `level` are built, and of the level above the first `count` nodes. -/
structure Building (input : Partition M) (starts : List Nat) (level count : Nat) (p : TreePart M) : Prop where
  flushed : p.buffer = []
  built : ∀ l ≤ level, BuiltLevel input starts p.memory l
  done : ∀ i < count, p.memory (levelPtr starts (level + 1) i) = input.span (level + 1) i (i + 1)
  fresh : ∀ i ≥ starts.getD level 0 + count, p.memory (.node i) = 1

theorem Building.step {count : Nat} {p : TreePart M} (hlayout : Layout input.rowCount starts)
    (hlevel : level + 1 < starts.length) (h : Building input starts level count p)
    (hcount : count < levelSize input.rowCount (level + 1)) :
    Building input starts level (count + 1)
      ((p.windowSegmentValue input starts level (count * treeFanout)
        (min (levelSize input.rowCount level) (count * treeFanout + treeFanout))
        (.node (starts.getD level 0 + count))).flushStates input) := by
  have hresult : p.result input = p.memory := result_of_flushed h.flushed
  have hsize : count * treeFanout < levelSize input.rowCount level := by
    rw [levelSize] at hcount
    unfold treeFanout at *
    omega
  have hbefore : ∀ l ≤ level, 0 < l → ∀ i < levelSize input.rowCount l,
      StatePtr.node (starts.getD level 0 + count) ≠ levelPtr starts l i := by
    intro l hl hpos i hi he
    have hlt := hlayout.levelPtr_lt hpos hl (by omega) hi
    have haddr := StatePtr.node.inj he
    omega
  have hbuilt : BuiltLevel input starts (p.result input) level := by
    rw [hresult]
    exact h.built level (Nat.le_refl level)
  obtain ⟨last, hlast⟩ : ∃ last, last = min (levelSize input.rowCount level) (count * treeFanout + treeFanout) := ⟨_, rfl⟩
  rw [← hlast]
  have hadds := windowSegmentValue_adds (by omega : count * treeFanout ≤ last) (by omega) hbuilt
    (hbefore level (Nat.le_refl level))
  generalize p.windowSegmentValue input starts level (count * treeFanout) last
    (.node (starts.getD level 0 + count)) = p' at *
  have hself := hadds.self
  have hother : ∀ q, q ≠ StatePtr.node (starts.getD level 0 + count) → p'.result input q = p.memory q := by
    intro q hq
    rw [hadds.of_ne hq, hresult]
  rw [hresult, h.fresh _ (Nat.le_refl _), one_mul, hlast, span_min, ← Nat.succ_mul, ← span_succ] at hself
  refine ⟨rfl, fun l hl hpos i hi => ?_, fun i hi => ?_, fun i hi => ?_⟩
  · exact (hother _ (hbefore l hl hpos i hi).symm).trans (h.built l hl hpos i hi)
  · rcases Nat.lt_succ_iff_lt_or_eq.1 hi with hi | rfl
    · refine (hother _ fun he => ?_).trans (h.done i hi)
      have haddr : i + starts.getD level 0 = starts.getD level 0 + count := StatePtr.node.inj he
      omega
    · have haddr : levelPtr starts (level + 1) i = .node (starts.getD level 0 + i) :=
        congrArg StatePtr.node (Nat.add_comm ..)
      rw [haddr]
      exact hself
  · refine (hother _ fun he => ?_).trans (h.fresh i (by omega))
    have haddr : i = starts.getD level 0 + count := StatePtr.node.inj he
    omega

theorem buildLevel_building {p : TreePart M} (hlayout : Layout input.rowCount starts)
    (hlevel : level + 1 < starts.length) (h : Building input starts level 0 p) :
    Building input starts (level + 1) 0 (p.buildLevel input starts level (levelSize input.rowCount level)) := by
  have hnodes : ∀ count ≤ levelSize input.rowCount (level + 1), Building input starts level count
      ((List.range count).foldl (fun p buildIdx =>
        let pos := buildIdx * treeFanout
        let ptr := .node (starts.getD level 0 + buildIdx)
        (p.windowSegmentValue input starts level pos (min (levelSize input.rowCount level) (pos + treeFanout)) ptr).flushStates
          input) p) := by
    intro count
    induction count with
    | zero => exact fun _ => h
    | succ count ih =>
      intro hcount
      rw [List.range_succ, List.foldl_concat]
      exact (ih (by omega)).step hlayout hlevel hcount
  have hall := hnodes _ (Nat.le_refl _)
  refine ⟨hall.flushed, fun l hl => ?_, nofun, fun i hi => ?_⟩
  · rcases Nat.le_succ_iff.1 hl with hl | rfl
    · exact hall.built l hl
    · exact fun _ => hall.done
  · rw [hlayout.next level hlevel] at hi
    exact hall.fresh i hi

/-! ## Building all levels -/

theorem buildLevels_built (hlayout : Layout input.rowCount starts) : ∀ (fuel level : Nat) (p : TreePart M),
    level < starts.length → starts.length ≤ fuel + level → Building input starts level 0 p →
    ∀ l < starts.length, BuiltLevel input starts (TreePart.buildLevels input starts fuel level p).memory l
  | 0, level, p, hlevel, hfuel, _ => absurd hlevel (by omega)
  | fuel + 1, level, p, hlevel, hfuel, h => by
    have hsize : (if level = 0 then input.rowCount else starts.getD level 0 - starts.getD (level - 1) 0)
        = levelSize input.rowCount level := by
      cases level with
      | zero => rfl
      | succ level =>
        have hnext := hlayout.next level hlevel
        rw [if_neg (Nat.succ_ne_zero level), Nat.add_sub_cancel]
        omega
    unfold TreePart.buildLevels
    rw [if_neg (by omega)]
    dsimp only
    rw [hsize]
    split
    next hone =>
      -- the level of one node is the last one
      have hlast : starts.length = level + 1 := by
        by_contra hne
        have hbelow := hlayout.below level (by omega)
        omega
      exact fun l hl => h.built l (by omega)
    next hmore =>
      have hnext : level + 1 < starts.length := by
        by_contra hge
        have htop := hlayout.top
        have hlast : starts.length - 1 = level := by omega
        rw [hlast] at htop
        exact hmore htop
      exact buildLevels_built hlayout fuel (level + 1) _ hnext (by omega) (buildLevel_building hlayout hnext h)

theorem buildTree_built (input : Partition M) : ∀ level < (levelsFlatStart input.rowCount 0).length,
    BuiltLevel input (levelsFlatStart input.rowCount 0) (buildTree input) level := by
  have hpos : 0 < (levelsFlatStart input.rowCount 0).length := List.length_pos_iff.2 (levelsFlatStart_ne_nil _ _)
  refine buildLevels_built (layout_levelsFlatStart _ _) _ 0 _ hpos (le_refl _) ⟨rfl, ?_, nofun, fun _ _ => rfl⟩
  intro l hl hlpos
  exact absurd hlpos (by omega)

end Haybarn.Window
