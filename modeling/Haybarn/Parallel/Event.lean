/-
The events of a query, which run its pipelines: an event is scheduled when all that it depends on have finished, by
whichever thread finishes the last of them, and new events may be put between an event and those that wait for it. The
calls of all threads go on in any order, one step on the counters at a time, and the query may be cancelled at any time.
-/
import Haybarn.Lib.Run
import Mathlib.Algebra.BigOperators.Group.Finset.Basic
import Mathlib.Algebra.BigOperators.Group.Finset.Piecewise
import Mathlib.Algebra.GroupWithZero.Nat
import Mathlib.Algebra.Order.BigOperators.Group.Finset
import Mathlib.Logic.Relation

namespace Haybarn.Parallel

open List

/-! ## Events -/

/-- `alive` says that the event can be locked: the executor holds it, until it lets all of them go. `tasks` are the tasks
that are under way. `schedules` and `finishes` count the calls of `Schedule` and `Finish`, for the record. -/
structure Event where
  finishedTasks : Nat := 0
  totalTasks : Nat := 0
  finishedDependencies : Nat := 0
  totalDependencies : Nat := 0
  parents : List Nat := []
  finished : Bool := false
  alive : Bool := true
  tasks : Nat := 0
  schedules : Nat := 0
  finishes : Nat := 0

/-- A call that has not returned: `CompleteDependency` before `Schedule`, `Finish` before it sets `finished`, and the loop of
`Finish` over the parents that are left. -/
inductive Frame where
  | schedule (event : Nat)
  | finish (event : Nat)
  | notify (parents : List Nat)
  deriving DecidableEq

/-- The events by their numbers, and the calls on the stacks of all threads. Any call may go on, not only the topmost of
its stack. -/
structure Executor where
  size : Nat := 0
  cancelled : Bool := false
  events : Nat → Event := fun _ => {}
  work : List Frame := []

namespace Executor

def set (s : Executor) (event : Nat) (e : Event) : Executor := { s with events := Function.update s.events event e }

/-- `Event::AddDependency`. -/
def addDependency (s : Executor) (event on : Nat) : Executor :=
  let s' := s.set event { s.events event with totalDependencies := (s.events event).totalDependencies + 1 }
  s'.set on { s'.events on with parents := (s'.events on).parents ++ [event] }

/-- `Schedule`, which makes a number of tasks. -/
def schedule (s : Executor) (event tasks : Nat) : Executor :=
  s.set event { s.events event with totalTasks := tasks, tasks := tasks, schedules := (s.events event).schedules + 1 }

/-- `Event::FinishTask`, which is the last that a task does. -/
def finishTask (s : Executor) (event : Nat) : Executor :=
  let e := s.events event
  let s' := s.set event { e with finishedTasks := e.finishedTasks + 1, tasks := e.tasks - 1 }
  if e.finishedTasks + 1 = e.totalTasks then { s' with work := .finish event :: s.work } else s'

/-- `Event::InsertEvent`. `Executor::AddEvent` drops the event when the query is cancelled. -/
def insertEvent (s : Executor) (event : Nat) : Executor :=
  let s' := s.set s.size { parents := (s.events event).parents, totalDependencies := 1, alive := !s.cancelled }
  { s'.set event { s.events event with parents := [s.size] } with size := s.size + 1 }

/-- The beginning of `Executor::CancelTasks`. -/
def cancel (s : Executor) : Executor := { s with cancelled := true }

/-- The end of `Executor::CancelTasks`. -/
def clear (s : Executor) : Executor := { s with events := fun e => { s.events e with alive := false } }

/-- The next step of a call. A call of `Schedule` makes `tasks` tasks. -/
def resume (s : Executor) (tasks : Nat) : Frame → Executor
  | .schedule event =>
    let work := s.work.erase (.schedule event)
    { s.schedule event tasks with work := if tasks = 0 then .finish event :: work else work }
  | .finish event =>
    let e := s.events event
    { s.set event { e with finished := true, finishes := e.finishes + 1 } with
      work := .notify e.parents :: s.work.erase (.finish event) }
  | .notify [] => { s with work := s.work.erase (.notify []) }
  | .notify (parent :: parents) =>
    let e := s.events parent
    let work := .notify parents :: s.work.erase (.notify (parent :: parents))
    if !e.alive then { s with work }
    else { s.set parent { e with finishedDependencies := e.finishedDependencies + 1 } with
      work := if e.finishedDependencies + 1 = e.totalDependencies then .schedule parent :: work else work }

inductive Op where
  | addDependency (event on : Nat)
  | schedule (event tasks : Nat)
  | finishTask (event : Nat)
  | insertEvent (event : Nat)
  | cancel
  | clear
  | resume (frame : Frame) (tasks : Nat)

def step (s : Executor) : Op → Executor
  | .addDependency event on => s.addDependency event on
  | .schedule event tasks => s.schedule event tasks
  | .finishTask event => s.finishTask event
  | .insertEvent event => s.insertEvent event
  | .cancel => s.cancel
  | .clear => s.clear
  | .resume frame tasks => s.resume tasks frame

/-- The dependencies have no cycle, which `VerifyScheduledEvents` checks. -/
def Acyclic (s : Executor) : Prop := ∃ rank : Nat → Nat, ∀ e < s.size, ∀ p ∈ (s.events e).parents, rank e < rank p

/-- Nothing was scheduled yet. -/
def Fresh (s : Executor) : Prop := s.work = [] ∧ ∀ e < s.size, (s.events e).schedules = 0

/-- What the callers guarantee: the graph is made first, and has no cycle; `ScheduleEventsInternal` goes once through the
events without dependencies, which have a task to initialize a pipeline; only a task that is under way finishes; and
events are inserted before the event finishes, by its tasks or its `FinishEvent` or when it was inserted itself. -/
def Allowed (s : Executor) : Op → Prop
  | .addDependency event on => s.Fresh ∧ event < s.size ∧ on < s.size ∧ (s.addDependency event on).Acyclic
  | .schedule event tasks =>
    event < s.size ∧ (s.events event).totalDependencies = 0 ∧ (s.events event).schedules = 0 ∧ 0 < tasks
  | .finishTask event => event < s.size ∧ 0 < (s.events event).tasks
  | .insertEvent event => event < s.size ∧ (s.events event).finished = false
  | .cancel => True
  | .clear => s.cancelled = true
  | .resume frame _ => frame ∈ s.work

/-! ## The invariant -/

end Executor

/-- How often the event has yet to notify the parent. -/
def Event.due (parent : Nat) (e : Event) : Nat := if e.finished then 0 else e.parents.count parent

def Frame.due (parent : Nat) : Frame → Nat
  | notify parents => parents.count parent
  | _ => 0

/-- The events that a call is about. -/
def Frame.events : Frame → List Nat
  | schedule event | finish event => [event]
  | notify parents => parents

/-- Where an event stands, with the calls of its `Schedule` and of its `Finish` that are under way. -/
structure Event.Valid (e : Event) (scheduling finishing : Nat) : Prop where
  root : e.totalDependencies = 0 → scheduling = 0 ∧ e.schedules ≤ 1
  waiting : 0 < e.totalDependencies →
    e.schedules + scheduling = if e.finishedDependencies = e.totalDependencies then 1 else 0
  idle : e.schedules = 0 → e.totalTasks = 0 ∧ e.finishes + finishing = 0
  tasks : e.finishedTasks + e.tasks = e.totalTasks
  running : e.schedules = 1 →
    e.finishes + finishing = if e.finishedTasks = e.totalTasks then 1 else 0
  finished : e.finished = true ↔ e.finishes = 1

namespace Executor

def due (s : Executor) (parent : Nat) : Nat :=
  ∑ e ∈ Finset.range s.size, (s.events e).due parent + (s.work.map (Frame.due parent)).sum

structure Inv (s : Executor) : Prop where
  acyclic : s.Acyclic
  valid : ∀ e < s.size, (s.events e).Valid (s.work.count (.schedule e)) (s.work.count (.finish e))
  due_le : ∀ p < s.size, (s.events p).finishedDependencies + s.due p ≤ (s.events p).totalDependencies
  due_eq : s.cancelled = false → ∀ p < s.size,
    (s.events p).alive = true ∧ (s.events p).finishedDependencies + s.due p = (s.events p).totalDependencies
  parents : ∀ e < s.size, ∀ p ∈ (s.events e).parents, p < s.size
  frames : ∀ f ∈ s.work, ∀ e ∈ f.events, e < s.size

variable {s : Executor} {event : Nat}

theorem sum_update {n : Nat} (h : event < n) (events : Nat → Event) (e : Event) (f : Event → Nat) :
    ∑ i ∈ Finset.range n, f (Function.update events event e i) + f (events event) =
      ∑ i ∈ Finset.range n, f (events i) + f e := by
  have hmem := Finset.mem_range.2 h
  rw [← Finset.add_sum_erase _ _ hmem, ← Finset.add_sum_erase _ (fun i => f (events i)) hmem, Function.update_self]
  have hrest : ∑ i ∈ (Finset.range n).erase event, f (Function.update events event e i) =
      ∑ i ∈ (Finset.range n).erase event, f (events i) :=
    Finset.sum_congr rfl fun i hi => by rw [Function.update_of_ne (Finset.ne_of_mem_erase hi)]
  omega

/-- One event goes on, and some calls with it. Its parents stay, and what is counted for each event is what is not due any
more. -/
theorem Inv.set (h : s.Inv) (he : event < s.size) {e : Event} {work : List Frame}
    (hparents : e.parents = (s.events event).parents) (htotal : e.totalDependencies = (s.events event).totalDependencies)
    (halive : e.alive = (s.events event).alive) (hvalid : e.Valid (work.count (.schedule event)) (work.count (.finish event)))
    (hothers : ∀ x ≠ event, work.count (.schedule x) = s.work.count (.schedule x) ∧
      work.count (.finish x) = s.work.count (.finish x))
    (hdue : ∀ p, (if p = event then e.finishedDependencies else 0) + e.due p + (work.map (Frame.due p)).sum =
      (if p = event then (s.events event).finishedDependencies else 0) + (s.events event).due p +
        (s.work.map (Frame.due p)).sum)
    (hframes : ∀ f ∈ work, ∀ x ∈ f.events, x < s.size) : ({ s.set event e with work } : Executor).Inv := by
  have hsame : ∀ x, (Function.update s.events event e x).parents = (s.events x).parents ∧
      (Function.update s.events event e x).totalDependencies = (s.events x).totalDependencies ∧
      (Function.update s.events event e x).alive = (s.events x).alive := by
    intro x
    by_cases hx : x = event
    · rw [hx, Function.update_self]
      exact ⟨hparents, htotal, halive⟩
    · rw [Function.update_of_ne hx]
      exact ⟨rfl, rfl, rfl⟩
  have hcounted : ∀ p < s.size, ((({ s.set event e with work } : Executor).events p).finishedDependencies +
      ({ s.set event e with work } : Executor).due p) = (s.events p).finishedDependencies + s.due p := by
    intro p hp
    show (Function.update s.events event e p).finishedDependencies + (∑ i ∈ Finset.range s.size,
      (Function.update s.events event e i).due p + (work.map (Frame.due p)).sum) = _
    have hsum := sum_update he s.events e (Event.due p)
    have hnew := hdue p
    rw [Executor.due]
    by_cases hpe : p = event
    · rw [if_pos hpe, if_pos hpe] at hnew
      rw [hpe, Function.update_self]
      rw [hpe] at hnew hsum
      omega
    · rw [if_neg hpe, if_neg hpe] at hnew
      rw [Function.update_of_ne hpe]
      omega
  refine ⟨?_, fun x hx => ?_, fun p hp => ?_, fun hs p hp => ?_, fun x hx p hp => ?_, hframes⟩
  · obtain ⟨rank, hrank⟩ := h.acyclic
    exact ⟨rank, fun x hx p hp => hrank x hx p ((hsame x).1 ▸ hp)⟩
  · show (Function.update s.events event e x).Valid _ _
    by_cases hxe : x = event
    · rw [hxe, Function.update_self]
      exact hvalid
    · rw [Function.update_of_ne hxe, (hothers x hxe).1, (hothers x hxe).2]
      exact h.valid x hx
  · exact (hcounted p hp).trans_le ((h.due_le p hp).trans_eq (hsame p).2.1.symm)
  · obtain ⟨hp', heq⟩ := h.due_eq hs p hp
    exact ⟨(hsame p).2.2.trans hp', (hcounted p hp).trans (heq.trans (hsame p).2.1.symm)⟩
  · exact h.parents x hx p ((hsame x).1 ▸ hp)

theorem Inv.init (size : Nat) : Inv { size } := by
  refine ⟨⟨id, ?_⟩, fun e _ => ?_, ?_, ?_, ?_, ?_⟩
  · simp
  · constructor <;> simp
  · simp [Executor.due, Event.due]
  · simp [Executor.due, Event.due]
  · simp
  · simp

theorem Inv.scheduleRoot (h : s.Inv) {tasks : Nat} (ha : s.Allowed (.schedule event tasks)) : (s.schedule event tasks).Inv := by
  obtain ⟨he, hroot, hzero, hpos⟩ := ha
  obtain ⟨hr, hw, hi, ht, hrun, hf⟩ := h.valid event he
  exact h.set he rfl rfl rfl (by constructor <;> grind) (fun _ _ => ⟨rfl, rfl⟩) (fun _ => rfl) h.frames

theorem Inv.finishTask (h : s.Inv) (ha : s.Allowed (.finishTask event)) : (s.finishTask event).Inv := by
  obtain ⟨he, hlt⟩ := ha
  obtain ⟨hr, hw, hi, ht, hrun, hf⟩ := h.valid event he
  simp only [Executor.finishTask]
  split
  · refine h.set he rfl rfl rfl (by constructor <;> grind) (fun x hx => ?_) (fun p => ?_)
      (forall_mem_cons.2 ⟨?_, h.frames⟩)
    · simp [hx.symm]
    · simp [Event.due, Frame.due]
    · exact fun x hx => mem_singleton.1 hx ▸ he
  · exact h.set he rfl rfl rfl (by constructor <;> grind) (fun _ _ => ⟨rfl, rfl⟩) (fun _ => rfl) h.frames

/-- What is left of the calls when one of them goes on. -/
structure Erased (s : Executor) (frame : Frame) : Prop where
  sum : ∀ p, frame.due p + ((s.work.erase frame).map (Frame.due p)).sum = (s.work.map (Frame.due p)).sum
  self : (s.work.erase frame).count frame + 1 = s.work.count frame
  keep : ∀ f, f ≠ frame → (s.work.erase frame).count f = s.work.count f
  rest : ∀ f ∈ s.work.erase frame, ∀ x ∈ f.events, x < s.size

theorem Inv.erased (h : s.Inv) {frame : Frame} (hf : frame ∈ s.work) : s.Erased frame where
  sum p := sum_map_erase (Frame.due p) hf
  self := by rw [(perm_cons_erase hf).count_eq, count_cons_self]
  keep _ hne := count_erase_of_ne hne
  rest f hin := h.frames f (mem_of_mem_erase hin)

theorem Inv.resume_schedule (h : s.Inv) (hf : .schedule event ∈ s.work) (tasks : Nat) :
    (s.resume tasks (.schedule event)).Inv := by
  have hframes := h.frames _ hf
  obtain ⟨hsum, hself, hkeep, hrest⟩ := h.erased hf
  have he := hframes event (mem_singleton.2 rfl)
  obtain ⟨hr, hw, hi, ht, hrun, hf⟩ := h.valid event he
  have hc := hkeep (.finish event) (by simp)
  simp only [Executor.resume, Executor.schedule]
  split
  · refine h.set he rfl rfl rfl (by constructor <;> grind) (fun x hx => ?_) (fun p => ?_)
      (forall_mem_cons.2 ⟨hframes, hrest⟩)
    · simp [hkeep, hx, hx.symm]
    · simp [← hsum, Event.due, Frame.due]
  · refine h.set he rfl rfl rfl (by constructor <;> grind) (fun x hx => ?_) (fun p => ?_) hrest
    · simp [hkeep, hx]
    · simp [← hsum, Event.due, Frame.due]

theorem Inv.resume_finish (h : s.Inv) (hf : .finish event ∈ s.work) (tasks : Nat) :
    (s.resume tasks (.finish event)).Inv := by
  have hframes := h.frames _ hf
  obtain ⟨hsum, hself, hkeep, hrest⟩ := h.erased hf
  have he := hframes event (mem_singleton.2 rfl)
  obtain ⟨hr, hw, hi, ht, hrun, hf⟩ := h.valid event he
  have hc := hkeep (.schedule event) (by simp)
  have hnot : (s.events event).finished = false := by grind
  refine h.set he rfl rfl rfl (by constructor <;> grind) (fun x hx => ?_) (fun p => ?_)
    (forall_mem_cons.2 ⟨h.parents event he, hrest⟩)
  · simp [hkeep, hx]
  · simp [← hsum, Event.due, Frame.due, hnot, Nat.add_assoc]

theorem Inv.resume_returns (h : s.Inv) (hf : .notify [] ∈ s.work) (tasks : Nat) : (s.resume tasks (.notify [])).Inv := by
  obtain ⟨hsum, hself, hkeep, hrest⟩ := h.erased hf
  refine ⟨h.acyclic, fun e he => ?_, fun p hp => ?_, fun hs p hp => ?_, h.parents, hrest⟩
  · simpa [Executor.resume, hkeep] using h.valid e he
  · simpa [Executor.resume, Executor.due, ← hsum, Frame.due] using h.due_le p hp
  · simpa [Executor.resume, Executor.due, ← hsum, Frame.due] using h.due_eq hs p hp

theorem Inv.resume_notify (h : s.Inv) {parent : Nat} {parents : List Nat} (hf : .notify (parent :: parents) ∈ s.work)
    (tasks : Nat) : (s.resume tasks (.notify (parent :: parents))).Inv := by
  have hframes := h.frames _ hf
  obtain ⟨hsum, hself, hkeep, hrest⟩ := h.erased hf
  have he := hframes parent mem_cons_self
  obtain ⟨hr, hw, hi, ht, hrun, hf⟩ := h.valid parent he
  have hdue := h.due_le parent he
  have hpos : 0 < s.due parent := by
    have := hsum parent
    simp only [Executor.due, Frame.due, count_cons_self] at this ⊢
    omega
  have hc := hkeep (.schedule parent) (by simp)
  have hc' := hkeep (.finish parent) (by simp)
  have hnotified : ∀ p, (if p = parent then 1 else 0) + (parents.count p + ((s.work.erase (.notify (parent :: parents))).map
      (Frame.due p)).sum) = (s.work.map (Frame.due p)).sum := by
    intro p
    have hsplit := hsum p
    rw [Frame.due, count_cons, Nat.add_comm (parents.count p), Nat.add_assoc] at hsplit
    simpa [@eq_comm _ p] using hsplit
  simp only [Executor.resume]
  split
  · -- the parent is gone, and its dependency is never completed
    rename_i hgone
    have hless : ∀ p, ({ s with work := .notify parents :: s.work.erase (.notify (parent :: parents)) } : Executor).due p ≤
        s.due p := by
      intro p
      have := hnotified p
      simp only [Executor.due, map_cons, sum_cons, Frame.due]
      omega
    refine ⟨h.acyclic, fun e he => ?_, fun p hp => (Nat.add_le_add_left (hless p) _).trans (h.due_le p hp),
      fun hs => ?_, h.parents, forall_mem_cons.2 ⟨fun x hx => hframes x (mem_cons_of_mem _ hx), hrest⟩⟩
    · simpa [hkeep] using h.valid e he
    · rw [(h.due_eq hs parent he).1] at hgone
      cases hgone
  split
  · refine h.set he rfl rfl rfl (by constructor <;> grind) (fun x hx => ?_) (fun p => ?_)
      (forall_mem_cons.2 ⟨fun x hx => mem_singleton.1 hx ▸ he, forall_mem_cons.2 ⟨?_, hrest⟩⟩)
    · simp [hkeep, hx.symm]
    · simp only [map_cons, sum_cons, ← hnotified p]
      grind [Event.due, Frame.due]
    · exact fun x hx => hframes x (mem_cons_of_mem _ hx)
  · refine h.set he rfl rfl rfl (by constructor <;> grind) (fun x hx => ?_) (fun p => ?_)
      (forall_mem_cons.2 ⟨?_, hrest⟩)
    · simp [hkeep]
    · simp only [map_cons, sum_cons, ← hnotified p]
      grind [Event.due, Frame.due]
    · exact fun x hx => hframes x (mem_cons_of_mem _ hx)

theorem Inv.resume (h : s.Inv) {frame : Frame} (hf : frame ∈ s.work) (tasks : Nat) : (s.resume tasks frame).Inv := by
  cases frame with
  | schedule event => exact h.resume_schedule hf tasks
  | finish event => exact h.resume_finish hf tasks
  | notify parents =>
    cases parents with
    | nil => exact h.resume_returns hf tasks
    | cons parent parents => exact h.resume_notify hf tasks

/-- No event and no call is about a number that is not given yet. -/
theorem Inv.due_eq_zero (h : s.Inv) {p : Nat} (hp : s.size ≤ p) :
    (∀ e < s.size, (s.events e).due p = 0) ∧ (s.work.map (Frame.due p)).sum = 0 := by
  have hnone : ∀ {l : List Nat}, (∀ x ∈ l, x < s.size) → l.count p = 0 := fun hl =>
    count_eq_zero.2 fun hin => Nat.not_lt.2 hp (hl p hin)
  refine ⟨fun e he => ?_, sum_eq_zero fun n hn => ?_⟩
  · rw [Event.due, hnone (h.parents e he), ite_self]
  · obtain ⟨f, hf, rfl⟩ := mem_map.1 hn
    cases f with
    | schedule | finish => rfl
    | notify parents => exact hnone (h.frames _ hf)

theorem Inv.addDependency (h : s.Inv) {on : Nat} (ha : s.Allowed (.addDependency event on)) :
    (s.addDependency event on).Inv := by
  obtain ⟨⟨hwork, hfresh⟩, he, hon, hacyclic⟩ := ha
  have hne : event ≠ on := by
    rintro rfl
    obtain ⟨rank, hrank⟩ := hacyclic
    refine Nat.lt_irrefl _ (hrank event hon event ?_)
    simp [Executor.addDependency, Executor.set]
  have hevents : ∀ x, (s.addDependency event on).events x = { s.events x with
      totalDependencies := (s.events x).totalDependencies + if x = event then 1 else 0
      parents := if x = on then (s.events x).parents ++ [event] else (s.events x).parents } := by
    intro x
    simp only [Executor.addDependency, Executor.set]
    by_cases hx : x = on
    · simp [hx, hne.symm]
    · by_cases hx' : x = event <;> simp [Function.update_of_ne, hx, hx', hne]
  have hvalid := fun x hx => h.valid x hx
  have hdue : ∀ x < s.size, ∀ p, ((s.addDependency event on).events x).due p =
      (s.events x).due p + if x = on then (if p = event then 1 else 0) else 0 := by
    intro x hx p
    have hnot : (s.events x).finished = false := by grind [h.valid x hx, hfresh x hx, Event.Valid]
    rw [hevents]
    by_cases hxo : x = on
    · subst hxo
      simp [Event.due, hnot, count_singleton, @eq_comm _ p]
    · simp [Event.due, hxo]
  have htotal : ∀ p, (s.addDependency event on).due p = s.due p + if p = event then 1 else 0 := by
    intro p
    have hsum : ∑ x ∈ Finset.range s.size, ((s.addDependency event on).events x).due p =
        ∑ x ∈ Finset.range s.size, (s.events x).due p + if p = event then 1 else 0 := by
      rw [Finset.sum_congr rfl fun x hx => hdue x (Finset.mem_range.1 hx) p, Finset.sum_add_distrib, Finset.sum_ite_eq',
        if_pos (Finset.mem_range.2 hon)]
    show ∑ x ∈ Finset.range s.size, ((s.addDependency event on).events x).due p + (s.work.map _).sum = _
    rw [hsum, Executor.due]
    omega
  refine ⟨hacyclic, fun x hx => ?_, fun p hp => ?_, fun hs p hp => ?_, fun x hx p hp => ?_, h.frames⟩
  · obtain ⟨hr, hw, hi, ht, hrun, hf⟩ := h.valid x hx
    have hd := h.due_le x hx
    have hz := hfresh x hx
    rw [hevents]
    show Event.Valid _ (s.work.count _) (s.work.count _)
    rw [hwork] at *
    constructor <;> grind
  · have hd := h.due_le p hp
    rw [htotal, hevents]
    dsimp only
    omega
  · obtain ⟨hp', heq⟩ := h.due_eq hs p hp
    rw [htotal, hevents]
    dsimp only
    exact ⟨hp', by omega⟩
  · rw [hevents] at hp
    dsimp only at hp
    split at hp
    · rcases mem_append.1 hp with hp | hp
      · exact h.parents x hx p hp
      · exact mem_singleton.1 hp ▸ he
    · exact h.parents x hx p hp

theorem insertEvent_new (he : event < s.size) : (s.insertEvent event).events s.size =
    { parents := (s.events event).parents, totalDependencies := 1, alive := !s.cancelled } := by
  simp [Executor.insertEvent, Executor.set, Function.update_of_ne (Nat.ne_of_gt he)]

theorem insertEvent_old {x : Nat} (hx : x < s.size) : (s.insertEvent event).events x =
    Function.update s.events event { s.events event with parents := [s.size] } x := by
  by_cases hxe : x = event
  · simp [Executor.insertEvent, Executor.set, hxe]
  · simp [Executor.insertEvent, Executor.set, Function.update_of_ne, hxe, Nat.ne_of_lt hx]

theorem insertEvent_counters (event : Nat) {p : Nat} (hp : p < s.size) :
    ((s.insertEvent event).events p).finishedDependencies = (s.events p).finishedDependencies ∧
      ((s.insertEvent event).events p).totalDependencies = (s.events p).totalDependencies ∧
      ((s.insertEvent event).events p).alive = (s.events p).alive := by
  rw [insertEvent_old hp]
  by_cases hpe : p = event
  · rw [hpe, Function.update_self]
    exact ⟨rfl, rfl, rfl⟩
  · rw [Function.update_of_ne hpe]
    exact ⟨rfl, rfl, rfl⟩

theorem Inv.insertEvent_parents (h : s.Inv) {x p : Nat} (hx : x < s.size)
    (hp : p ∈ ((s.insertEvent event).events x).parents) :
    x = event ∧ p = s.size ∨ p < s.size ∧ p ∈ (s.events x).parents := by
  rw [insertEvent_old hx] at hp
  by_cases hxe : x = event
  · rw [hxe, Function.update_self] at hp
    exact .inl ⟨hxe, mem_singleton.1 hp⟩
  · rw [Function.update_of_ne hxe] at hp
    exact .inr ⟨h.parents x hx p hp, hp⟩

/-- The notifications that were due to the parents of the event are those of the new event now, and the event owes one to the
new one. -/
theorem insertEvent_due (he : event < s.size) (hnot : (s.events event).finished = false) (p : Nat) :
    (s.insertEvent event).due p = s.due p + if p = s.size then 1 else 0 := by
  have hsum := sum_update he s.events { s.events event with parents := [s.size] } (Event.due p)
  have hsame : ∑ x ∈ Finset.range s.size, ((s.insertEvent event).events x).due p = ∑ x ∈ Finset.range s.size,
      (Function.update s.events event { s.events event with parents := [s.size] } x).due p :=
    Finset.sum_congr rfl fun x hx => by rw [insertEvent_old (Finset.mem_range.1 hx)]
  show ∑ x ∈ Finset.range (s.size + 1), ((s.insertEvent event).events x).due p + (s.work.map _).sum =
    ∑ x ∈ Finset.range s.size, (s.events x).due p + (s.work.map _).sum + _
  rw [Finset.sum_range_succ, hsame, insertEvent_new he]
  simp only [Event.due, hnot, Bool.false_eq_true, if_false, count_singleton, beq_iff_eq, @eq_comm _ _ p] at hsum ⊢
  omega

/-- The new event has its place between the event and its parents. -/
theorem Inv.insertEvent_acyclic (h : s.Inv) (he : event < s.size) : (s.insertEvent event).Acyclic := by
  obtain ⟨rank, hrank⟩ := h.acyclic
  refine ⟨fun x => if x = s.size then 2 * rank event + 1 else 2 * rank x, fun x hx p hp => ?_⟩
  rcases Nat.lt_succ_iff_lt_or_eq.1 hx with hx | rfl
  · rcases h.insertEvent_parents hx hp with ⟨rfl, rfl⟩ | ⟨hps, hp⟩
    · grind
    · grind [hrank x hx p hp]
  · rw [insertEvent_new he] at hp
    grind [hrank event he p hp, h.parents event he p hp]

theorem Inv.insertEvent (h : s.Inv) (ha : s.Allowed (.insertEvent event)) : (s.insertEvent event).Inv := by
  obtain ⟨he, hnot⟩ := ha
  have hnew := insertEvent_new he
  have hdue := insertEvent_due he hnot
  have hlast : (s.insertEvent event).due s.size = 1 := by
    have hzero := h.due_eq_zero (Nat.le_refl s.size)
    rw [hdue, if_pos rfl, Executor.due, hzero.2, Finset.sum_eq_zero fun x hx => hzero.1 x (Finset.mem_range.1 hx)]
  refine ⟨h.insertEvent_acyclic he, fun x hx => ?_, fun p hp => ?_, fun hs p hp => ?_, fun x hx p hp => ?_,
    fun f hf x hx => Nat.lt_succ_of_lt (h.frames f hf x hx)⟩
  · rcases Nat.lt_succ_iff_lt_or_eq.1 hx with hx | rfl
    · rw [insertEvent_old hx]
      by_cases hxe : x = event
      · rw [hxe, Function.update_self]
        obtain ⟨hr, hw, hi, ht, hrun, hf⟩ := h.valid event he
        exact ⟨hr, hw, hi, ht, hrun, hf⟩
      · rw [Function.update_of_ne hxe]
        exact h.valid x hx
    · have hnone : ∀ f, s.size ∈ Frame.events f → s.work.count f = 0 := fun f hin =>
        count_eq_zero.2 fun hf => Nat.lt_irrefl _ (h.frames f hf _ hin)
      rw [hnew]
      show Event.Valid _ (s.work.count _) (s.work.count _)
      rw [hnone _ (mem_singleton.2 rfl), hnone _ (mem_singleton.2 rfl)]
      constructor <;> simp
  · rcases Nat.lt_succ_iff_lt_or_eq.1 hp with hp | rfl
    · obtain ⟨hfinished, htotal, -⟩ := insertEvent_counters event hp
      rw [hdue, hfinished, htotal, if_neg (Nat.ne_of_lt hp)]
      exact h.due_le p hp
    · rw [hlast, hnew]
  · rcases Nat.lt_succ_iff_lt_or_eq.1 hp with hp | rfl
    · obtain ⟨hfinished, htotal, halive⟩ := insertEvent_counters event hp
      rw [hdue, hfinished, htotal, halive, if_neg (Nat.ne_of_lt hp)]
      exact h.due_eq hs p hp
    · have hs : s.cancelled = false := hs
      rw [hlast, hnew, hs]
      exact ⟨rfl, rfl⟩
  · rcases Nat.lt_succ_iff_lt_or_eq.1 hx with hx | rfl
    · rcases h.insertEvent_parents hx hp with ⟨-, rfl⟩ | ⟨hps, -⟩
      · exact Nat.lt_succ_self _
      · exact Nat.lt_succ_of_lt hps
    · rw [hnew] at hp
      exact Nat.lt_succ_of_lt (h.parents event he p hp)

theorem Inv.clear (h : s.Inv) (ha : s.Allowed .clear) : s.clear.Inv := by
  refine ⟨h.acyclic, fun e he => ?_, h.due_le, fun hs => ?_, h.parents, h.frames⟩
  · obtain ⟨hr, hw, hi, ht, hrun, hf⟩ := h.valid e he
    exact ⟨hr, hw, hi, ht, hrun, hf⟩
  · cases hs.symm.trans ha

theorem Inv.step (h : s.Inv) {op : Op} (ha : s.Allowed op) : (s.step op).Inv := by
  cases op with
  | addDependency event on => exact h.addDependency ha
  | schedule event tasks => exact h.scheduleRoot ha
  | finishTask event => exact h.finishTask ha
  | insertEvent event => exact h.insertEvent ha
  | cancel => exact ⟨h.acyclic, h.valid, h.due_le, nofun, h.parents, h.frames⟩
  | clear => exact h.clear ha
  | resume frame tasks => exact h.resume ha tasks

/-! ## Every run -/

/-- The events after a run of such calls as the callers guarantee, where `size` events are made at first. -/
def Reachable (s : Executor) : Prop := ∃ size ops, Lib.Steps step Allowed { size } ops ∧ Lib.run step { size } ops = s

theorem Reachable.inv (h : s.Reachable) : s.Inv := by
  obtain ⟨size, ops, hsteps, rfl⟩ := h
  exact Lib.run_inv_of_steps (P := Inv) (fun _ _ hs ha => hs.step ha) ops (.init size) hsteps

/-- The event `p` waits for the event `e`. -/
def Precedes (s : Executor) (e p : Nat) : Prop := e < s.size ∧ p ∈ (s.events e).parents

/-- An event is scheduled only when all before it have finished. -/
theorem Inv.finished_of_precedes (h : s.Inv) {e p : Nat} (hbefore : Relation.TransGen s.Precedes e p)
    (hp : p < s.size) (hs : (s.events p).schedules ≠ 0) : (s.events e).finished = true := by
  have hone : ∀ {e p}, s.Precedes e p → p < s.size → (s.events p).schedules ≠ 0 → (s.events e).finished = true := by
    rintro e p ⟨he, hep⟩ hp hs
    by_contra hnot
    have hpos : 0 < (s.events e).due p := by
      rw [Event.due, if_neg hnot]
      exact count_pos_iff.2 hep
    have hsum := Finset.add_sum_erase _ (fun x => (s.events x).due p) (Finset.mem_range.2 he)
    have hdue := h.due_le p hp
    rw [Executor.due] at hdue
    grind [h.valid p hp, Event.Valid]
  induction hbefore with
  | single hstep => exact hone hstep hp hs
  | tail hbefore hstep ih =>
    have hfinished := hone hstep hp hs
    refine ih hstep.1 fun hzero => ?_
    grind [h.valid _ hstep.1, Event.Valid]

/-- In every interleaving of the calls of all threads, with events inserted and the query cancelled at any time, an event is
scheduled at most once, finishes at most once and only after it was scheduled, and is scheduled only when all that come
before it have finished. The assertions of the class hold: no counter exceeds its total, an event has no tasks before it
is scheduled, a task that finishes is one of those that are left, and `Finish` is not called again. -/
theorem events_in_order (h : s.Reachable) :
    (∀ e < s.size, (s.events e).schedules ≤ 1 ∧ (s.events e).finishes ≤ (s.events e).schedules ∧
      (s.events e).finishedTasks ≤ (s.events e).totalTasks ∧
      (0 < (s.events e).tasks → (s.events e).finishedTasks < (s.events e).totalTasks) ∧
      (s.events e).finishedDependencies ≤ (s.events e).totalDependencies) ∧
    (∀ e p, Relation.TransGen s.Precedes e p → (s.events p).schedules ≠ 0 → (s.events e).finished = true) ∧
    (∀ e, .schedule e ∈ s.work → (s.events e).totalTasks = 0) ∧
    ∀ e, .finish e ∈ s.work → (s.events e).finished = false := by
  have hinv := h.inv
  have hpos : ∀ f ∈ s.work, 0 < s.work.count f := fun f => count_pos_iff.2
  refine ⟨fun e he => ?_, fun e p hbefore hs => ?_, fun e hw => ?_, fun e hw => ?_⟩
  · have hdue := hinv.due_le e he
    grind [hinv.valid e he, Event.Valid]
  · have hp : p < s.size := by
      cases hbefore with
      | single hstep => exact hinv.parents _ hstep.1 p hstep.2
      | tail _ hstep => exact hinv.parents _ hstep.1 p hstep.2
    exact hinv.finished_of_precedes hbefore hp hs
  · grind [hinv.valid e (hinv.frames _ hw e (mem_singleton.2 rfl)), Event.Valid]
  · grind [hinv.valid e (hinv.frames _ hw e (mem_singleton.2 rfl)), Event.Valid]

/-- No event is forgotten: in every run in which the query is not cancelled, when no call is under way, the events without
dependencies were scheduled and all tasks have finished, then all events have finished, those that were inserted
included. -/
theorem events_all_finish (h : s.Reachable) (hcancelled : s.cancelled = false) (hidle : s.work = [])
    (hroots : ∀ e < s.size, (s.events e).totalDependencies = 0 → (s.events e).schedules ≠ 0)
    (htasks : ∀ e < s.size, (s.events e).finishedTasks = (s.events e).totalTasks) :
    ∀ e < s.size, (s.events e).finished = true := by
  have hinv := h.inv
  obtain ⟨rank, hrank⟩ := hinv.acyclic
  intro e
  induction hn : rank e using Nat.strong_induction_on generalizing e with
  | h n ih =>
    intro he
    -- whatever it waits for has finished and notified it
    have hzero : s.due e = 0 := by
      rw [due, hidle, map_nil, sum_nil, Nat.add_zero]
      refine Finset.sum_eq_zero fun x hx => ?_
      have hx := Finset.mem_range.1 hx
      by_cases hin : e ∈ (s.events x).parents
      · rw [Event.due, if_pos (ih (rank x) (hn ▸ hrank x hx e hin) x rfl hx)]
      · rw [Event.due, count_eq_zero.2 hin, ite_self]
    have hdue := (hinv.due_eq hcancelled e he).2
    have hvalid := hinv.valid e he
    rw [hidle] at hvalid
    grind [hroots e he, htasks e he, Event.Valid]

/-- The second event waits for the first, whose task puts a third between them. -/
def oneInserted : Executor := Lib.run step { size := 2 }
  [.addDependency 1 0, .schedule 0 1, .insertEvent 0, .finishTask 0, .resume (.finish 0) 0, .resume (.notify [2]) 0,
    .resume (.notify []) 0, .resume (.schedule 2) 0, .resume (.finish 2) 0, .resume (.notify [1]) 0, .resume (.notify []) 0,
    .resume (.schedule 1) 1, .finishTask 1, .resume (.finish 1) 0, .resume (.notify []) 0]

theorem oneInserted_reachable : oneInserted.Reachable := by
  refine ⟨2, _, ?_, rfl⟩
  refine ⟨⟨⟨rfl, fun _ _ => rfl⟩, by decide, by decide, id, fun e he p hp => ?_⟩, ?_⟩
  · revert p e
    decide
  · simp only [Lib.Steps, Allowed]
    decide

theorem events_in_order_oneInserted :
    (oneInserted.events 1).schedules ≤ 1 ∧ (oneInserted.events 1).finishes ≤ 1 ∧
      (oneInserted.events 0).finished = true ∧ (oneInserted.events 2).finished = true := by
  obtain ⟨hcounters, horder, -, -⟩ := events_in_order oneInserted_reachable
  have h2 : oneInserted.Precedes 2 1 := ⟨by decide, by decide⟩
  have h0 : oneInserted.Precedes 0 2 := ⟨by decide, by decide⟩
  obtain ⟨hschedules, hfinishes, -⟩ := hcounters 1 (by decide)
  exact ⟨hschedules, hfinishes.trans hschedules, horder 0 1 (.tail (.single h0) h2) (by decide),
    horder 2 1 (.single h2) (by decide)⟩

theorem events_all_finish_oneInserted : (oneInserted.events 2).finished = true :=
  events_all_finish oneInserted_reachable (by decide) (by decide) (by decide) (by decide) 2 (by decide)

end Executor

end Haybarn.Parallel
