/-
Computations that touch memory: they end with a value, raise an error, touch a byte outside the memory they may touch, or
run out of the turns they were given. What such a computation ensures is read off its parts, for sequences, for loops
that count and for loops that test a condition. Nothing here names a particular program.
-/
import Mathlib.Data.List.Basic

namespace Haybarn.Lib

/-- How a computation ends. -/
inductive Outcome (α : Type) where
  | done (a : α)
  | error (message : String)
  /-- A byte outside the memory is read or written, or an operation has no defined result. -/
  | fault
  /-- The turns are used up. -/
  | hang
  deriving DecidableEq

namespace Outcome

variable {α β σ : Type}

protected def bind : Outcome α → (α → Outcome β) → Outcome β
  | done a, f => f a
  | error message, _ => error message
  | fault, _ => fault
  | hang, _ => hang

instance : Monad Outcome where
  pure := done
  bind := Outcome.bind

/-- The computation ends, with no fault, and the value meets `P` if there is one. -/
def Ensures : Outcome α → (α → Prop) → Prop
  | done a, P => P a
  | error _, _ => True
  | fault, _ => False
  | hang, _ => False

/-- The computation ends with no fault. -/
def Safe (o : Outcome α) : Prop := o.Ensures fun _ => True

@[simp] theorem done_bind (a : α) (f : α → Outcome β) : done a >>= f = f a := rfl

@[simp] theorem pure_bind (a : α) (f : α → Outcome β) : (pure a : Outcome α) >>= f = f a := rfl

@[simp] theorem error_bind (message : String) (f : α → Outcome β) : error message >>= f = error message := rfl

@[simp] theorem fault_bind (f : α → Outcome β) : fault >>= f = fault := rfl

variable {P : α → Prop}

@[simp] theorem ensures_done {a : α} : (done a).Ensures P ↔ P a := Iff.rfl

@[simp] theorem ensures_pure {a : α} : (pure a : Outcome α).Ensures P ↔ P a := Iff.rfl

@[simp] theorem ensures_error {message : String} : (error message).Ensures P := trivial

@[simp] theorem not_ensures_fault : ¬ (fault : Outcome α).Ensures P := id

/-- What holds of the value of a computation can be computed with it. -/
instance decidableDone (o : Outcome α) (P : α → Prop) [∀ a, Decidable (P a)] : Decidable (∀ a, o = done a → P a) :=
  match o with
  | done a => decidable_of_iff (P a) ⟨fun h _ ha => by cases ha; exact h, fun h => h a rfl⟩
  | error _ => .isTrue (by simp)
  | fault => .isTrue (by simp)
  | hang => .isTrue (by simp)

instance (o : Outcome α) : Decidable o.Safe :=
  match o with
  | done _ => .isTrue trivial
  | error _ => .isTrue trivial
  | fault => .isFalse id
  | hang => .isFalse id

variable {P Q : α → Prop} {o : Outcome α}

theorem Ensures.mono (h : o.Ensures P) (hpq : ∀ a, P a → Q a) : o.Ensures Q := by
  cases o with
  | done a => exact hpq a h
  | error message => trivial
  | fault => exact h
  | hang => exact h

theorem Ensures.safe (h : o.Ensures P) : o.Safe := h.mono fun _ _ => trivial

theorem Ensures.bind {f : α → Outcome β} {R : β → Prop} (h : o.Ensures P) (hf : ∀ a, P a → (f a).Ensures R) :
    (o >>= f).Ensures R := by
  cases o with
  | done a => exact hf a h
  | error message => trivial
  | fault => exact h
  | hang => exact h

/-- What is known of the value because the computation gave it can be used. -/
theorem Ensures.of_done (h : o.Ensures P) : o.Ensures fun a => P a ∧ o = done a := by
  cases o with
  | done a => exact ⟨h, rfl⟩
  | error message => trivial
  | fault => exact h
  | hang => exact h

theorem Ensures.and (h : o.Ensures P) (h' : o.Ensures Q) : o.Ensures fun a => P a ∧ Q a := by
  cases o with
  | done a => exact ⟨h, h'⟩
  | error message => trivial
  | fault => exact h
  | hang => exact h

/-- The computation ends with a value that meets `P`, and with no error. -/
def Returns (o : Outcome α) (P : α → Prop) : Prop := ∃ a, o = done a ∧ P a

theorem returns_done {a : α} (h : P a) : (done a).Returns P := ⟨a, rfl, h⟩

theorem Returns.mono (h : o.Returns P) (hpq : ∀ a, P a → Q a) : o.Returns Q :=
  h.imp fun a h => ⟨h.1, hpq a h.2⟩

theorem Returns.bind {f : α → Outcome β} {R : β → Prop} (h : o.Returns P) (hf : ∀ a, P a → (f a).Returns R) :
    (o >>= f).Returns R := by
  obtain ⟨a, rfl, ha⟩ := h
  exact hf a ha

/-! ## Loops that count -/

/-- `for (i = start; i < start + count; i++) body`. -/
def forLoop (body : Nat → σ → Outcome σ) : Nat → Nat → σ → Outcome σ
  | _, 0, s => done s
  | start, count + 1, s => body start s >>= forLoop body (start + 1) count

theorem ensures_forLoop (body : Nat → σ → Outcome σ) {I : Nat → σ → Prop} :
    ∀ (start count : Nat) {s : σ},
      (∀ i s, start ≤ i → i < start + count → I i s → (body i s).Ensures (I (i + 1))) → I start s →
        (forLoop body start count s).Ensures (I (start + count))
  | start, 0, s, _, h => by simpa [forLoop] using h
  | start, count + 1, s, hbody, h => by
    unfold forLoop
    refine (hbody start s (Nat.le_refl _) (by omega) h).bind fun s' h' => ?_
    have hrest := ensures_forLoop body (start + 1) count (fun i s hi hi' => hbody i s (by omega) (by omega)) h'
    rwa [show start + 1 + count = start + (count + 1) by omega] at hrest

theorem returns_forLoop (body : Nat → σ → Outcome σ) {I : Nat → σ → Prop} :
    ∀ (start count : Nat) {s : σ},
      (∀ i s, start ≤ i → i < start + count → I i s → (body i s).Returns (I (i + 1))) → I start s →
        (forLoop body start count s).Returns (I (start + count))
  | start, 0, s, _, h => returns_done h
  | start, count + 1, s, hbody, h => by
    unfold forLoop
    refine (hbody start s (Nat.le_refl _) (by omega) h).bind fun s' h' => ?_
    have hrest := returns_forLoop body (start + 1) count (fun i s hi hi' => hbody i s (by omega) (by omega)) h'
    rwa [show start + 1 + count = start + (count + 1) by omega] at hrest

/-! ## Loops that test -/

/-- `while (cond) body`, with the turns it may take. -/
def loop (cond : σ → Bool) (body : σ → Outcome σ) : Nat → σ → Outcome σ
  | 0, s => if cond s then hang else done s
  | turns + 1, s => if cond s then body s >>= loop cond body turns else done s

/-- Every turn of the loop starts in a state that meets `C`. -/
def Turns (cond : σ → Bool) (body : σ → Outcome σ) (C : σ → Prop) : Nat → σ → Prop
  | 0, _ => True
  | turns + 1, s => cond s = true → C s ∧ ∀ s', body s = done s' → Turns cond body C turns s'

variable {cond : σ → Bool} {body : σ → Outcome σ} {C : σ → Prop}

instance Turns.decidable [∀ s, Decidable (C s)] : ∀ turns s, Decidable (Turns cond body C turns s)
  | 0, _ => .isTrue trivial
  | turns + 1, s =>
    have := Turns.decidable turns
    inferInstanceAs (Decidable (cond s = true → C s ∧ ∀ s', body s = done s' → Turns cond body C turns s'))

theorem turns_of_forall (h : ∀ s, C s) : ∀ (turns : Nat) (s : σ), Turns cond body C turns s
  | 0, _ => trivial
  | turns + 1, _ => fun _ => ⟨h _, fun s' _ => turns_of_forall h turns s'⟩

/-- A loop whose turns keep an invariant and lower a measure ends, where all of its turns meet `C`. -/
theorem ensures_loop {I : σ → Prop} {μ : σ → Nat}
    (hbody : ∀ s, I s → cond s = true → C s → (body s).Ensures fun s' => I s' ∧ μ s' < μ s) :
    ∀ {turns : Nat} {s : σ}, I s → μ s < turns → Turns cond body C turns s →
      (loop cond body turns s).Ensures fun s' => I s' ∧ cond s' = false
  | 0, _, _, hμ, _ => absurd hμ (Nat.not_lt_zero _)
  | turns + 1, s, hI, hμ, ht => by
    unfold loop
    split
    · rename_i hc
      obtain ⟨hC, ht⟩ := ht hc
      refine (hbody s hI hc hC).of_done.bind ?_
      rintro s' ⟨⟨hI', hμ'⟩, hs'⟩
      exact ensures_loop hbody hI' (by omega) (ht s' hs')
    · simp_all

/-- A loop whose turns end, keep an invariant and lower a measure ends with a value. -/
theorem returns_loop {I : σ → Prop} {μ : σ → Nat}
    (hbody : ∀ s, I s → cond s = true → (body s).Returns fun s' => I s' ∧ μ s' < μ s) :
    ∀ {turns : Nat} {s : σ}, I s → μ s < turns → (loop cond body turns s).Returns fun s' => I s' ∧ cond s' = false
  | 0, _, _, hμ => absurd hμ (Nat.not_lt_zero _)
  | turns + 1, s, hI, hμ => by
    unfold loop
    split
    next hc =>
      refine (hbody s hI hc).bind ?_
      rintro s' ⟨hI', hμ'⟩
      exact returns_loop hbody hI' (by omega)
    next hc => exact returns_done ⟨hI, by simpa using hc⟩

/-! ## Runs of requests -/

section Requests

variable {ι : Type} (serve : σ → ι → Outcome σ)

/-- The requests are served from left to right, until one of them does not end with a state. -/
def serveAll : σ → List ι → Outcome σ
  | s, [] => done s
  | s, i :: is => serve s i >>= fun s' => serveAll s' is

/-- Every request of the run is served in a state that meets `C`. -/
def Served (C : σ → ι → Prop) : σ → List ι → Prop
  | _, [] => True
  | s, i :: is => C s i ∧ ∀ s', serve s i = done s' → Served C s' is

instance Served.decidable (C : σ → ι → Prop) [∀ s i, Decidable (C s i)] : ∀ s is, Decidable (Served serve C s is)
  | _, [] => .isTrue trivial
  | s, i :: is =>
    have := fun s => Served.decidable C s is
    inferInstanceAs (Decidable (C s i ∧ ∀ s', serve s i = done s' → Served serve C s' is))

variable {serve}

theorem ensures_serveAll {I : σ → Prop} {C : σ → ι → Prop}
    (hserve : ∀ s i, I s → C s i → (serve s i).Ensures I) :
    ∀ {s : σ} (is : List ι), I s → Served serve C s is → (serveAll serve s is).Ensures I
  | _, [], h, _ => h
  | s, i :: is, h, hs => (hserve s i h hs.1).of_done.bind fun s' h' =>
      ensures_serveAll hserve is h'.1 (hs.2 s' h'.2)

/-- Where every request that meets `C` is served, so is a run of them. The invariant knows the requests that are left. -/
theorem returns_serveAll {I : List ι → σ → Prop} {C : σ → ι → Prop}
    (hserve : ∀ s i is, I (i :: is) s → C s i → (serve s i).Returns (I is)) :
    ∀ {s : σ} (is : List ι), I is s → Served serve C s is → (serveAll serve s is).Returns (I [])
  | _, [], h, _ => returns_done h
  | s, i :: is, h, hs => by
    obtain ⟨s', hs', h'⟩ := hserve s i is h hs.1
    unfold serveAll
    rw [hs', done_bind]
    exact returns_serveAll hserve is h' (hs.2 s' hs')

theorem served_of_forall {C : σ → ι → Prop} (h : ∀ s i, C s i) : ∀ (s : σ) (is : List ι), Served serve C s is
  | _, [] => trivial
  | s, i :: is => ⟨h s i, fun s' _ => served_of_forall h s' is⟩

end Requests

/-! ## Sessions -/

section Session

variable {ι : Type} (serve : σ → ι → Outcome (σ × β)) (total : Nat) (count : ι → Nat) (Allowed : ι → Prop)
  (Answered : Nat → ι → β → Prop)

/-- From the row `r` on, every request that is allowed and has the rows it needs is answered, and moves on behind them. -/
def Session : Nat → σ → List ι → Prop
  | _, _, [] => True
  | r, s, i :: is => Allowed i → r + count i ≤ total →
      ∃ s' b, serve s i = done (s', b) ∧ Answered r i b ∧ Session (r + count i) s' is

variable {serve total count Allowed Answered}

theorem session_of_inv {I : Nat → σ → Prop} (hserve : ∀ r s i, I r s → Allowed i → r + count i ≤ total →
    (serve s i).Returns fun p => I (r + count i) p.1 ∧ Answered r i p.2) :
    ∀ {r : Nat} {s : σ} (is : List ι), I r s → Session serve total count Allowed Answered r s is
  | _, _, [], _ => trivial
  | r, s, i :: is, h => by
    intro hallowed hr
    obtain ⟨⟨s', b⟩, heq, h', hanswered⟩ := hserve r s i h hallowed hr
    exact ⟨s', b, heq, hanswered, session_of_inv hserve is h'⟩

end Session

end Outcome

end Haybarn.Lib
