/-
Programs on a machine that may crash. A program changes the disk one durable operation at a time, and has a
memory that a crash clears. The rules say what a program leaves behind in either case: a property of
the disk if the machine crashes at any point, and a postcondition if the program ends. Nothing here names
a particular program.
-/
import Mathlib.Logic.Basic
import Haybarn.Lib.Stream

namespace Haybarn.Lib

/-- Why a program ended early. -/
inductive Stop (ε : Type) where
  | crash
  | exception (e : ε)
deriving DecidableEq, Repr

/-- The disk, the memory, and how many durable operations there are before a crash, if there is one. -/
structure Machine (δ μ : Type) where
  disk : δ
  memory : μ
  untilCrash : Option Nat

abbrev Crashable (ε δ μ α : Type) := EStateM (Stop ε) (Machine δ μ) α

section Programs

variable {ε δ μ α γ : Type}

def getDisk : Crashable ε δ μ δ := fun r => .ok r.disk r

def getMemory : Crashable ε δ μ μ := fun r => .ok r.memory r

def modifyMemory (f : μ → μ) : Crashable ε δ μ Unit := fun r => .ok () { r with memory := f r.memory }

/-- One durable change of the disk. -/
def durable (change : δ → δ) : Crashable ε δ μ Unit := fun r =>
  match r.untilCrash with
  | some 0 => .error .crash r
  | some (n + 1) => .ok () { r with disk := change r.disk, untilCrash := some n }
  | none => .ok () { r with disk := change r.disk }

/-- The program raises no exception. If it ends, the result and the machine meet `Q`; if the machine crashes,
which it does only if that was to happen, its disk meets `I`. -/
def Ends (p : Crashable ε δ μ α) (r : Machine δ μ) (I : δ → Prop) (Q : α → Machine δ μ → Prop) : Prop :=
  match p r with
  | .ok a r' => Q a r' ∧ (r'.untilCrash.isSome → r.untilCrash.isSome)
  | .error .crash r' => I r'.disk ∧ r.untilCrash.isSome
  | .error (.exception _) _ => False

variable {p : Crashable ε δ μ α} {q : α → Crashable ε δ μ γ} {r : Machine δ μ} {I : δ → Prop}
  {Q : α → Machine δ μ → Prop} {R : γ → Machine δ μ → Prop}

theorem Ends.of_ok {a : α} {r' : Machine δ μ} (h : p r = .ok a r') (hr : r'.untilCrash = r.untilCrash) (hq : Q a r') :
    Ends p r I Q := by
  unfold Ends
  rw [h]
  exact ⟨hq, fun hs => hr ▸ hs⟩

theorem Ends.bind (hp : Ends p r I Q) (hq : ∀ a r', Q a r' → Ends (q a) r' I R) : Ends (p >>= q) r I R := by
  unfold Ends at hp
  cases h : p r with
  | ok a r' =>
    rw [h] at hp
    have hr := hq a r' hp.1
    unfold Ends at hr ⊢
    rw [bind_ok h]
    cases h' : q a r' with
    | ok c r'' =>
      rw [h'] at hr
      exact ⟨hr.1, fun hs => hp.2 (hr.2 hs)⟩
    | error e r'' =>
      rw [h'] at hr
      cases e with
      | crash => exact ⟨hr.1, hp.2 hr.2⟩
      | exception e => exact hr
  | error e r' =>
    rw [h] at hp
    unfold Ends
    rw [bind_error h]
    cases e with
    | crash => exact hp
    | exception e => exact hp

/-- The disk must meet `I` before a durable change, since the machine may crash then. -/
theorem Ends.durable {change : δ → δ} {q : Unit → Crashable ε δ μ γ} (hI : I r.disk)
    (hq : ∀ untilCrash, Ends (q ()) { r with disk := change r.disk, untilCrash } I R) :
    Ends (durable change >>= q) r I R := by
  refine Ends.bind (Q := fun _ r' => ∃ u, r' = { r with disk := change r.disk, untilCrash := u }) ?_ ?_
  · unfold Ends Lib.durable
    rcases hu : r.untilCrash with _ | _ | n
    · exact ⟨⟨none, rfl⟩, nofun⟩
    · exact ⟨hI, rfl⟩
    · exact ⟨⟨some n, rfl⟩, fun _ => rfl⟩
  · rintro _ _ ⟨u, rfl⟩
    exact hq u

theorem Ends.congr {p' : Crashable ε δ μ α} (heq : p r = p' r) (h : Ends p' r I Q) : Ends p r I Q := by
  unfold Ends at h ⊢
  rwa [heq]

/-- Without a crash the program ends. -/
theorem Ends.ok (h : Ends p r I Q) (hr : r.untilCrash = none) : ∃ a r', p r = .ok a r' ∧ Q a r' := by
  unfold Ends at h
  split at h
  · next a r' h' => exact ⟨a, r', h', h.1⟩
  · rw [hr] at h
    cases h.2
  · exact h.elim

end Programs

end Haybarn.Lib
