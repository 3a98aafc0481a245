/-
The upper levels of one row. On the way up each level adds the nodes that are left over on the left, and the ones
on the right either at once or, when the order matters, from a stack on the way down. A row with the nodes of the
row before takes over its state.
-/
import Haybarn.Window.Build

namespace Haybarn.Window

open Lib Function Nat

variable {M : Type} [Monoid M] {input : Partition M} {starts : List Nat} {p : TreePart M} {ptr : StatePtr}

/-! ## A tree that is built -/

/-- The states have the tree. -/
structure Tree (input : Partition M) (starts : List Nat) (memory : StatePtr → M) : Prop where
  layout : Layout input.rowCount starts
  built : ∀ level < starts.length, BuiltLevel input starts memory level

/-- A state of the state vectors. -/
def StatePtr.IsRow (ptr : StatePtr) : Prop := ∀ i, ptr ≠ .node i

theorem FramePart.isRow_statePtr (framePart : FramePart) (rid : Nat) : (framePart.statePtr rid).IsRow := by
  intro i
  cases framePart with
  | full => exact nofun
  | left => exact nofun
  | right => exact nofun

theorem Tree.of_nodes {memory memory' : StatePtr → M} (h : Tree input starts memory)
    (hnodes : ∀ i, memory' (.node i) = memory (.node i)) : Tree input starts memory' :=
  ⟨h.layout, fun level hlevel hpos i hi => (hnodes _).trans (h.built level hlevel hpos i hi)⟩

theorem Tree.adds {p' : TreePart M} {x : M} (h : Tree input starts (p.result input)) (hrow : ptr.IsRow)
    (hadds : Adds input p p' ptr x) : Tree input starts (p'.result input) :=
  h.of_nodes fun i => hadds.of_ne (hrow i).symm

variable {level first last rightMax : Nat} {stack : Nat → Nat × Nat} {s : UpperState M}

theorem Tree.windowSegmentValue (h : Tree input starts (p.result input)) (hrow : ptr.IsRow)
    (hlevel : level < starts.length) (hle : first ≤ last) (hlast : last ≤ levelSize input.rowCount level) :
    Adds input p (p.windowSegmentValue input starts level first last ptr) ptr (input.span level first last) :=
  windowSegmentValue_adds hle hlast (h.built level hlevel) fun _ _ _ => hrow _

/-! ## The right stack -/

/-- What the right stack has, from a level down. -/
def Partition.stackSpan (input : Partition M) (stack : Nat → Nat × Nat) : Nat → M
  | 0 => 1
  | level + 1 => input.span (level + 1) (stack (level + 1)).1 (stack (level + 1)).2 * input.stackSpan stack level

/-- A right stack with nothing above the level `rightMax`. -/
structure StackOk (input : Partition M) (starts : List Nat) (stack : Nat → Nat × Nat) (rightMax : Nat) : Prop where
  le : ∀ level, (stack level).1 ≤ (stack level).2
  inLevel : ∀ level, (stack level).2 ≤ levelSize input.rowCount level
  bottom : stack 0 = (0, 0)
  above : ∀ level > rightMax, stack level = (0, 0)
  inTree : rightMax < starts.length

theorem stackSpan_congr {stack stack' : Nat → Nat × Nat} : ∀ {level : Nat},
    (∀ l ≤ level, 0 < l → stack l = stack' l) → input.stackSpan stack level = input.stackSpan stack' level
  | 0, _ => rfl
  | level + 1, h => by
    have hbelow : input.stackSpan stack level = input.stackSpan stack' level :=
      stackSpan_congr fun l hl => h l (le_succ_of_le hl)
    unfold Partition.stackSpan
    rw [hbelow, h (level + 1) (le_refl _) (succ_pos level)]

theorem StackOk.stackSpan_above
    (h : StackOk input starts stack rightMax) (hle : rightMax ≤ level) :
    input.stackSpan stack level = input.stackSpan stack rightMax := by
  induction level, hle using le_induction with
  | base => rfl
  | succ level hle ih =>
    rw [Partition.stackSpan, ih, h.above (level + 1) (lt_succ_of_le hle), span_self, one_mul]

omit [Monoid M] in
theorem StackOk.update {rightMax' : Nat}
    (h : StackOk input starts stack rightMax) (hpos : 0 < level) (hle : first ≤ last)
    (hlast : last ≤ levelSize input.rowCount level) (hinTree : rightMax' < starts.length)
    (habove : ∀ l > rightMax', update stack level (first, last) l = (0, 0)) :
    StackOk input starts (update stack level (first, last)) rightMax' := by
  refine ⟨fun l => ?_, fun l => ?_, ?_, habove, hinTree⟩
  · rcases eq_or_ne l level with rfl | hl
    · rwa [update_self]
    · rw [update_of_ne hl]
      exact h.le l
  · rcases eq_or_ne l level with rfl | hl
    · rwa [update_self]
    · rw [update_of_ne hl]
      exact h.inLevel l
  · rw [update_of_ne (by omega)]
    exact h.bottom

omit [Monoid M] in
theorem StackOk.push
    (h : StackOk input starts stack rightMax) (hmax : rightMax < level) (hlevel : level < starts.length)
    (hle : first ≤ last) (hlast : last ≤ levelSize input.rowCount level) :
    StackOk input starts (Function.update stack level (first, last)) level := by
  refine h.update (by omega) hle hlast hlevel fun l hl => ?_
  rw [Function.update_of_ne (by omega)]
  exact h.above l (by omega)

omit [Monoid M] in
theorem StackOk.pop (h : StackOk input starts stack (level + 1)) :
    StackOk input starts (Function.update stack (level + 1) (0, 0)) level := by
  refine h.update (succ_pos level) (le_refl 0) (zero_le _) (lt_of_succ_lt h.inTree) fun l hl => ?_
  rcases eq_or_ne l (level + 1) with rfl | hne
  · rw [Function.update_self]
  · rw [Function.update_of_ne hne]
    exact h.above l (by omega)

theorem StackOk.stackSpan_update
    (h : StackOk input starts stack rightMax) (hmax : rightMax < level) :
    input.stackSpan (Function.update stack level (first, last)) level
      = input.span level first last * input.stackSpan stack rightMax := by
  cases level with
  | zero => exact absurd hmax (not_lt_zero _)
  | succ level =>
    have hbelow : input.stackSpan (Function.update stack (level + 1) (first, last)) level = input.stackSpan stack level :=
      stackSpan_congr fun l hl _ => Function.update_of_ne (by omega) ..
    rw [Partition.stackSpan, Function.update_self, hbelow, h.stackSpan_above (le_of_lt_succ hmax)]

/-- The way down: the stack is added and left empty. -/
theorem flushRight_spec (hrow : ptr.IsRow) : ∀ (rightMax : Nat) (s : UpperState M),
    Tree input starts (s.part.result input) → StackOk input starts s.rightStack rightMax →
    Adds input s.part (UpperState.flushRight input starts ptr rightMax s).part ptr (input.stackSpan s.rightStack rightMax)
      ∧ (UpperState.flushRight input starts ptr rightMax s).prev = s.prev
      ∧ (UpperState.flushRight input starts ptr rightMax s).rightStack = fun _ => (0, 0)
  | 0, s, _, hstack => by
    refine ⟨Adds.refl _ _, rfl, funext fun l => ?_⟩
    cases l with
    | zero => exact hstack.bottom
    | succ l => exact hstack.above (l + 1) (succ_pos l)
  | level + 1, s, htree, hstack => by
    have hle := hstack.le (level + 1)
    have hbelow : input.stackSpan (Function.update s.rightStack (level + 1) (0, 0)) level
        = input.stackSpan s.rightStack level := stackSpan_congr fun l hl _ => Function.update_of_ne (by omega) ..
    unfold UpperState.flushRight
    dsimp only
    rw [Partition.stackSpan, ← hbelow]
    split
    next hend =>
      have hvalue := htree.windowSegmentValue hrow hstack.inTree hle (hstack.inLevel (level + 1))
      obtain ⟨hadds, hprev, hempty⟩ := flushRight_spec hrow level
        { s with
          part := s.part.windowSegmentValue input starts (level + 1) (s.rightStack (level + 1)).1
            (s.rightStack (level + 1)).2 ptr
          rightStack := Function.update s.rightStack (level + 1) (0, 0) } (htree.adds hrow hvalue) hstack.pop
      exact ⟨hvalue.trans hadds, hprev, hempty⟩
    next hend =>
      have hentry : s.rightStack (level + 1) = (0, 0) := Prod.ext (by omega) (by omega)
      have hsame : Function.update s.rightStack (level + 1) (0, 0) = s.rightStack := by
        rw [← hentry, Function.update_eq_self]
      have hstack' := hstack.pop
      rw [hsame] at hstack' ⊢
      rw [hentry, span_self, one_mul]
      exact flushRight_spec hrow level s htree hstack'

/-! ## The way up -/

/-- The first parent of the nodes from `first` on. -/
def innerBegin (first : Nat) : Nat := if first ≠ first / treeFanout * treeFanout then first / treeFanout + 1 else first / treeFanout

theorem le_innerBegin (first : Nat) : first ≤ innerBegin first * treeFanout := by
  unfold innerBegin treeFanout
  split <;> omega

theorem innerBegin_le (h : first / treeFanout < last / treeFanout) :
    innerBegin first ≤ last / treeFanout := by
  unfold innerBegin
  split <;> omega

variable (input) in
theorem span_split (level : Nat) (h : first / treeFanout < last / treeFanout) :
    input.span level first (innerBegin first * treeFanout) * input.span (level + 1) (innerBegin first) (last / treeFanout)
      * input.span level (last / treeFanout * treeFanout) last = input.span level first last := by
  have hlast : last / treeFanout * treeFanout ≤ last := div_mul_le_self ..
  have hinner : innerBegin first * treeFanout ≤ last / treeFanout * treeFanout :=
    mul_le_mul_right _ (innerBegin_le h)
  have hfirst := le_innerBegin first
  rw [span_succ, span_mul hfirst hinner, span_mul (hfirst.trans hinner) hlast]

theorem Layout.next_of_parents {rowCount : Nat} (h : Layout rowCount starts) (hlevel : level < starts.length)
    (hlast : last ≤ levelSize rowCount level) (hparent : 0 < last / treeFanout) : level + 1 < starts.length := by
  by_contra hge
  have htop := h.top
  have hlevel : starts.length - 1 = level := by omega
  rw [hlevel] at htop
  unfold treeFanout at hparent
  omega

/-- The level loop has come from `s` to `r`: what it has added, with what is left on the right stack, is `total`. -/
structure Climb (input : Partition M) (starts : List Nat) (ptr : StatePtr) (s : UpperState M) (rightMax : Nat) (total : M)
    (r : UpperState M × Nat) : Prop where
  adds : ∃ x, Adds input s.part r.1.part ptr x ∧ x * input.stackSpan r.1.rightStack r.2 = total
  stack : StackOk input starts r.1.rightStack r.2
  keep : input.orderInsensitive = true → r.2 = rightMax

theorem Climb.after {s' : UpperState M} {rightMax' : Nat} {x total : M} {r : UpperState M × Nat}
    (hadds : Adds input s.part s'.part ptr x) (hkeep : input.orderInsensitive = true → rightMax' = rightMax)
    (h : Climb input starts ptr s' rightMax' total r) : Climb input starts ptr s rightMax (x * total) r := by
  obtain ⟨⟨y, hy, htotal⟩, hstack, hkeep'⟩ := h
  refine ⟨⟨x * y, hadds.trans hy, ?_⟩, hstack, fun h => (hkeep' h).trans (hkeep h)⟩
  rw [mul_assoc, htotal]

theorem leftNodes_adds (htree : Tree input starts (s.part.result input))
    (hrow : ptr.IsRow) (hpos : 0 < level) (hlevel : level < starts.length)
    (hinner : innerBegin first * treeFanout ≤ levelSize input.rowCount level) :
    ∃ part, (if first ≠ first / treeFanout * treeFanout ∧ level ≠ 0 then
        { s with part := s.part.windowSegmentValue input starts level first
                  (first / treeFanout * treeFanout + treeFanout) ptr }
      else s) = { s with part }
      ∧ Adds input s.part part ptr (input.span level first (innerBegin first * treeFanout)) := by
  split
  next h =>
    have hend : first / treeFanout * treeFanout + treeFanout = innerBegin first * treeFanout := by
      rw [innerBegin, if_pos h.1, succ_mul]
    rw [hend]
    exact ⟨_, rfl, htree.windowSegmentValue hrow hlevel (le_innerBegin first) hinner⟩
  next h =>
    have hfirst : first = first / treeFanout * treeFanout := by
      by_contra hne
      exact h ⟨hne, by omega⟩
    have hend : innerBegin first * treeFanout = first := by
      rw [innerBegin, if_neg (not_not.2 hfirst)]
      exact hfirst.symm
    rw [hend, span_self]
    exact ⟨_, rfl, Adds.refl _ _⟩

theorem levelLoop_climb (hcomm : input.orderInsensitive = true → ∀ x y : M, x * y = y * x) (hrow : ptr.IsRow) :
    ∀ (fuel : Nat) (s : UpperState M) (level first last rightMax : Nat), starts.length ≤ fuel + level → 0 < level →
    level < starts.length → first ≤ last → last ≤ levelSize input.rowCount level →
    Tree input starts (s.part.result input) → StackOk input starts s.rightStack rightMax → rightMax < level →
    (level = 1 → ∀ q, s.prev = some (q, first, last) → s.part.result input q = input.span 1 first last) →
    Climb input starts ptr s rightMax (input.span level first last * input.stackSpan s.rightStack rightMax)
        (UpperState.levelLoop input starts ptr fuel s level first last rightMax)
      ∧ ((UpperState.levelLoop input starts ptr fuel s level first last rightMax).1.prev = s.prev
        ∨ input.orderInsensitive = true ∧ level = 1
          ∧ (UpperState.levelLoop input starts ptr fuel s level first last rightMax).1.prev = some (ptr, first, last))
  | 0, s, level, first, last, rightMax, hfuel, _, hlevel, _, _, _, _, _, _ => absurd hlevel (by omega)
  | fuel + 1, s, level, first, last, rightMax, hfuel, hpos, hlevel, hle, hlast, htree, hstack, hmax, hprev => by
    unfold UpperState.levelLoop
    dsimp only
    split
    next prev hfilter =>
      -- the nodes of an earlier row
      obtain ⟨hsome, hsame⟩ := Option.filter_eq_some_iff.1 hfilter
      obtain ⟨q, first', last'⟩ := prev
      simp only [decide_eq_true_eq] at hsame
      obtain ⟨rfl, rfl, rfl⟩ := hsame
      have hadds : Adds input s.part (s.part.push input (.state q, ptr)) ptr (input.span 1 first last) := by
        rw [← hprev rfl q hsome]
        exact push_adds input s.part (.state q) ptr
      exact ⟨⟨⟨_, hadds, rfl⟩, hstack, fun _ => rfl⟩, .inl rfl⟩
    next =>
      obtain ⟨prev₁, hs₁, hprev₁⟩ : ∃ prev₁,
          (if input.orderInsensitive ∧ level = 1 then { s with prev := some (ptr, first, last) } else s)
            = { s with prev := prev₁ }
          ∧ (prev₁ = s.prev ∨ input.orderInsensitive = true ∧ level = 1 ∧ prev₁ = some (ptr, first, last)) := by
        split
        next h => exact ⟨_, rfl, .inr ⟨h.1, h.2, rfl⟩⟩
        next => exact ⟨_, rfl, .inl rfl⟩
      rw [hs₁]
      split
      next =>
        rw [if_pos (by omega)]
        have hadds := htree.windowSegmentValue hrow hlevel hle hlast
        exact ⟨⟨⟨_, hadds, rfl⟩, hstack, fun _ => rfl⟩, hprev₁⟩
      next hparents =>
        have hparents : first / treeFanout < last / treeFanout :=
          Nat.lt_of_le_of_ne (Nat.div_le_div_right hle) hparents
        have hgroupEnd : last / treeFanout * treeFanout ≤ last := Nat.div_mul_le_self ..
        have hinner : innerBegin first * treeFanout ≤ last / treeFanout * treeFanout :=
          Nat.mul_le_mul_right _ (innerBegin_le hparents)
        have hnext : level + 1 < starts.length := htree.layout.next_of_parents hlevel hlast (Nat.zero_lt_of_lt hparents)
        obtain ⟨part, hs₂, hleft⟩ := leftNodes_adds (s := { s with prev := prev₁ }) htree hrow hpos hlevel
          (hinner.trans (hgroupEnd.trans hlast))
        have hparent : (if first ≠ first / treeFanout * treeFanout then first / treeFanout + 1 else first / treeFanout)
            = innerBegin first := rfl
        rw [hs₂, hparent]
        dsimp only at hleft ⊢
        have htree' := htree.adds hrow hleft
        -- the levels above leave the previous state alone
        have hup : ∀ (s' : UpperState M) (rightMax' : Nat), s'.prev = prev₁ → Tree input starts (s'.part.result input) →
            StackOk input starts s'.rightStack rightMax' → rightMax' < level + 1 →
            Climb input starts ptr s' rightMax' (input.span (level + 1) (innerBegin first) (last / treeFanout)
                * input.stackSpan s'.rightStack rightMax')
              (UpperState.levelLoop input starts ptr fuel s' (level + 1) (innerBegin first) (last / treeFanout) rightMax')
            ∧ (UpperState.levelLoop input starts ptr fuel s' (level + 1) (innerBegin first) (last / treeFanout)
                rightMax').1.prev = prev₁ := by
          intro s' rightMax' hs' htree hstack hmax
          obtain ⟨hclimb, hprev' | ⟨-, hone, -⟩⟩ := levelLoop_climb hcomm hrow fuel s' (level + 1) (innerBegin first)
            (last / treeFanout) rightMax' (by omega) (Nat.succ_pos level) hnext (innerBegin_le hparents)
            (div_fanout_le_levelSize hlast) htree hstack hmax fun h => absurd h (by omega)
          · exact ⟨hclimb, hprev'.trans hs'⟩
          · exact absurd hone (by omega)
        rw [← span_split input level hparents]
        split
        next =>
          split
          next hinsensitive =>
            have hright := htree'.windowSegmentValue hrow hlevel hgroupEnd hlast
            obtain ⟨hclimb, hprev'⟩ := hup
              { s with
                part := part.windowSegmentValue input starts level (last / treeFanout * treeFanout) last ptr
                prev := prev₁ } rightMax rfl (htree'.adds hrow hright) hstack (by omega)
            rw [mul_assoc _ _ (input.span level (last / treeFanout * treeFanout) last),
              hcomm hinsensitive (input.span (level + 1) _ _), ← mul_assoc, mul_assoc]
            refine ⟨Climb.after (hleft.trans hright) (fun _ => rfl) hclimb, ?_⟩
            rw [hprev']
            exact hprev₁
          next hsensitive =>
            obtain ⟨hclimb, hprev'⟩ := hup
              { part, prev := prev₁,
                rightStack := Function.update s.rightStack level (last / treeFanout * treeFanout, last) } level rfl htree'
              (hstack.push hmax hlevel hgroupEnd hlast) (Nat.lt_succ_self level)
            rw [hstack.stackSpan_update hmax] at hclimb
            rw [mul_assoc, mul_assoc]
            refine ⟨Climb.after hleft (fun h => absurd h hsensitive) hclimb, ?_⟩
            rw [hprev']
            exact hprev₁
        next hend =>
          have hend : last / treeFanout * treeFanout = last := by
            by_contra hne
            exact hend ⟨Ne.symm hne, by omega⟩
          obtain ⟨hclimb, hprev'⟩ := hup { s with part, prev := prev₁ } rightMax rfl htree' hstack (by omega)
          rw [hend, span_self, mul_one, mul_assoc]
          refine ⟨Climb.after hleft (fun _ => rfl) hclimb, ?_⟩
          rw [hprev']
          exact hprev₁

/-! ## One row -/

/-- What the upper levels add for a row. -/
def Partition.upper (input : Partition M) (first last : Nat) : M := input.span 1 (innerBegin first) (last / treeFanout)

theorem upper_of_le (h : last / treeFanout ≤ first / treeFanout) : input.upper first last = 1 := by
  have hinner : first / treeFanout ≤ innerBegin first := by
    unfold innerBegin
    split <;> omega
  exact rangeProd_of_le (monotone_start input 1 (h.trans hinner))

theorem levelLoop_zero (fuel : Nat) (s : UpperState M) (first last : Nat) :
    UpperState.levelLoop input starts ptr (fuel + 1) s 0 first last 0
      = if first / treeFanout = last / treeFanout then (s, 0)
        else UpperState.levelLoop input starts ptr fuel s 1 (innerBegin first) (last / treeFanout) 0 := by
  have hfilter : s.prev.filter (fun prev => 0 = 1 ∧ first = prev.2.1 ∧ last = prev.2.2) = none :=
    Option.filter_eq_none_iff.2 fun _ _ h => absurd (of_decide_eq_true h).1 nofun
  rw [UpperState.levelLoop]
  dsimp only
  rw [hfilter]
  simp only [Nat.zero_ne_one, and_false, if_false, ne_eq, not_true_eq_false]
  rfl

omit [Monoid M] in
theorem stackOk_empty (hpos : 0 < starts.length) : StackOk input starts (fun _ => (0, 0)) 0 :=
  ⟨fun _ => le_refl 0, fun _ => zero_le _, rfl, fun _ _ => rfl, hpos⟩

theorem upperRow_adds (hcomm : input.orderInsensitive = true → ∀ x y : M, x * y = y * x) (hrow : ptr.IsRow)
    (hpos : 0 < starts.length) (hlt : first < last) (hlast : last ≤ input.rowCount)
    (htree : Tree input starts (s.part.result input)) (hstack : s.rightStack = fun _ => (0, 0))
    (hprev : ∀ q first last, s.prev = some (q, first, last) → s.part.result input q = input.span 1 first last)
    {s' : UpperState M}
    (hloop : UpperState.levelLoop input starts ptr (starts.length + 1) s 0 first last 0 = (s', rightMax)) :
    Adds input s.part (UpperState.flushRight input starts ptr rightMax s').part ptr (input.upper first last)
      ∧ (UpperState.flushRight input starts ptr rightMax s').rightStack = (fun _ => (0, 0))
      ∧ ((UpperState.flushRight input starts ptr rightMax s').prev = s.prev
        ∨ input.orderInsensitive = true ∧ ∃ first' last',
          (UpperState.flushRight input starts ptr rightMax s').prev = some (ptr, first', last')
          ∧ input.upper first last = input.span 1 first' last') := by
  rw [levelLoop_zero] at hloop
  split at hloop
  next hparents =>
    cases hloop
    rw [upper_of_le hparents.ge]
    exact ⟨Adds.refl _ _, hstack, .inl rfl⟩
  next hparents =>
    have hparents : first / treeFanout < last / treeFanout :=
      Nat.lt_of_le_of_ne (Nat.div_le_div_right hlt.le) hparents
    have hlevel : 1 < starts.length := htree.layout.next_of_parents hpos hlast (Nat.zero_lt_of_lt hparents)
    have hempty : StackOk input starts s.rightStack 0 := by
      rw [hstack]
      exact stackOk_empty hpos
    obtain ⟨⟨⟨x, hadds, htotal⟩, hok, hkeep⟩, hprev'⟩ := levelLoop_climb hcomm hrow starts.length s 1 (innerBegin first)
      (last / treeFanout) 0 (Nat.le_succ _) Nat.one_pos hlevel (innerBegin_le hparents) (div_fanout_le_levelSize hlast)
      htree hempty Nat.one_pos fun _ q => hprev q _ _
    rw [hloop] at hadds htotal hok hkeep hprev'
    obtain ⟨hdown, hdownPrev, hdownStack⟩ := flushRight_spec hrow rightMax s' (htree.adds hrow hadds) hok
    have hall := hadds.trans hdown
    rw [htotal, Partition.stackSpan, mul_one] at hall
    rw [hdownPrev]
    refine ⟨hall, hdownStack, ?_⟩
    rcases hprev' with hsame | ⟨hinsensitive, -, hnew⟩
    · exact .inl hsame
    · exact .inr ⟨hinsensitive, _, _, hnew, rfl⟩

end Haybarn.Window
