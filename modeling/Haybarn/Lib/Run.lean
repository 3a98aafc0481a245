/-
Runs of a deterministic transition function: the state a list of inputs leads to, properties that
hold in every state along a run, conditions that every step of a run meets, and the rules that
carry a one-step fact to whole runs. Nothing here names a particular system.
-/
import Mathlib.Data.List.Basic

namespace Haybarn.Lib

section Run

variable {σ ι : Type} (step : σ → ι → σ)

/-- The state after the inputs `is`, taken from left to right. -/
def run (s : σ) (is : List ι) : σ := is.foldl step s

@[simp] theorem run_nil (s : σ) : run step s [] = s := rfl

@[simp] theorem run_cons (s : σ) (i : ι) (is : List ι) : run step s (i :: is) = run step (step s i) is := rfl

theorem run_append (s : σ) (is js : List ι) : run step s (is ++ js) = run step (run step s is) js :=
  List.foldl_append ..

/-- `P` holds in every state of the run, the first and the last included. -/
def Along (P : σ → Prop) : σ → List ι → Prop
  | s, [] => P s
  | s, i :: is => P s ∧ Along P (step s i) is

/-- Every step of the run is taken from a state that meets `C`. -/
def Steps (C : σ → ι → Prop) : σ → List ι → Prop
  | _, [] => True
  | s, i :: is => C s i ∧ Steps C (step s i) is

instance Steps.decidable (C : σ → ι → Prop) [∀ s i, Decidable (C s i)] : ∀ s is, Decidable (Steps step C s is)
  | _, [] => .isTrue trivial
  | s, i :: is =>
    have := Steps.decidable C (step s i) is
    inferInstanceAs (Decidable (C s i ∧ Steps step C (step s i) is))

variable {step}

/-- An invariant that every step keeps holds at the end of every run. -/
theorem run_inv {P : σ → Prop} (hstep : ∀ s i, P s → P (step s i)) :
    ∀ {s : σ} (is : List ι), P s → P (run step s is)
  | _, [], h => h
  | s, i :: is, h => run_inv hstep is (hstep s i h)

/-- The same, for steps that keep the invariant only where they meet `C`. -/
theorem run_inv_of_steps {P : σ → Prop} {C : σ → ι → Prop} (hstep : ∀ s i, P s → C s i → P (step s i)) :
    ∀ {s : σ} (is : List ι), P s → Steps step C s is → P (run step s is)
  | _, [], h, _ => h
  | s, i :: is, h, hc => run_inv_of_steps hstep is (hstep s i h hc.1) hc.2

/-- Where a step keeps `P` exactly when it meets `C`, a run keeps `P` throughout exactly when all
of its steps meet `C`. The auxiliary invariant `I` is kept by every step. -/
theorem along_iff_steps {I P : σ → Prop} {C : σ → ι → Prop} (hI : ∀ s i, I s → I (step s i))
    (hP : ∀ s i, I s → P s → (P (step s i) ↔ C s i)) :
    ∀ {s : σ} (is : List ι), I s → P s → (Along step P s is ↔ Steps step C s is)
  | _, [], _, hp => ⟨fun _ => trivial, fun _ => hp⟩
  | s, i :: is, hi, hp => by
    constructor
    · rintro ⟨-, h⟩
      have hp' : P (step s i) := by cases is with
        | nil => exact h
        | cons j is => exact h.1
      exact ⟨(hP s i hi hp).1 hp', (along_iff_steps hI hP is (hI s i hi) hp').1 h⟩
    · rintro ⟨hc, h⟩
      have hp' := (hP s i hi hp).2 hc
      exact ⟨hp, (along_iff_steps hI hP is (hI s i hi) hp').2 h⟩

end Run

end Haybarn.Lib
