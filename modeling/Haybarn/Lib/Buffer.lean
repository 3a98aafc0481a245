/-
Writing to memory of a fixed size, from its start on: what is written behind the end is a fault.

Reading a buffer by position, and computations that decide a proposition: they end with a truth value, with no fault and
no error, and the value is true exactly when the proposition holds. Nothing here names a particular program.
-/
import Haybarn.Lib.Outcome

namespace Haybarn.Lib

open List

/-! ## Writing -/

section Writing

variable {α : Type} {size : Nat} {out : List α}

/-- `output[idx++] = a`, where `out` is what has been written. -/
def put (size : Nat) (out : List α) (a : α) : Outcome (List α) :=
  if out.length < size then .done (out ++ [a]) else .fault

/-- Several values, one after the other. -/
def putAll (size : Nat) : List α → List α → Outcome (List α)
  | out, [] => .done out
  | out, a :: as => do
    let out ← put size out a
    putAll size out as

/-- A string of the memory, which must have been written to the end. -/
def written (size : Nat) (out : List α) : Outcome (List α) := if out.length = size then .done out else .fault

/-- A string of memory that was filled before it was written to. -/
def filled (a : α) (size : Nat) (out : List α) : List α := out ++ List.replicate (size - out.length) a

theorem put_eq {a : α} (h : out.length < size) : put size out a = .done (out ++ [a]) := if_pos h

theorem putAll_eq : ∀ {out as : List α}, out.length + as.length ≤ size → putAll size out as = .done (out ++ as)
  | out, [], _ => by rw [putAll, append_nil]
  | out, a :: as, h => by
    rw [length_cons] at h
    rw [putAll, put_eq (by omega), Outcome.done_bind, putAll_eq (by rw [length_append, length_singleton]; omega),
      append_assoc, singleton_append]

theorem written_eq (h : out.length = size) : written size out = .done out := if_pos h

theorem filled_eq {a : α} (h : out.length = size) : filled a size out = out := by
  rw [filled, h, Nat.sub_self, replicate_zero, append_nil]

end Writing

/-! ## Reading -/

/-- `buffer[i]`, a fault behind the end. -/
def read {α : Type} (buffer : List α) (i : Nat) : Outcome α :=
  match buffer[i]? with
  | some a => .done a
  | none => .fault

variable {α : Type} {buffer rest : List α} {a : α} {i : Nat}

theorem getElem?_of_drop (h : buffer.drop i = a :: rest) : buffer[i]? = some a := by
  have := congrArg (·[0]?) h
  simpa using this

theorem read_of_drop (h : buffer.drop i = a :: rest) : read buffer i = .done a := by
  simp [read, getElem?_of_drop h]

theorem read_cons_zero : read (a :: rest) 0 = .done a := rfl

theorem read_cons_succ : read (a :: rest) (i + 1) = read rest i := by
  simp [read]

theorem drop_succ_of_drop (h : buffer.drop i = a :: rest) : buffer.drop (i + 1) = rest := by
  rw [← drop_drop, h]
  rfl

theorem exists_drop (h : i < buffer.length) : ∃ a rest, buffer.drop i = a :: rest :=
  ⟨buffer[i], buffer.drop (i + 1), drop_eq_getElem_cons h⟩

theorem lt_of_drop (h : buffer.drop i = a :: rest) : i < buffer.length := by
  have := congrArg length h
  simp only [length_drop, length_cons] at this
  omega

/-- The ends of what is left of a buffer are what is left from its later positions on. -/
theorem exists_suffix_iff_exists_drop {P : List α → Prop} (hnil : ¬ P []) :
    (∃ t, t <:+ buffer.drop i ∧ P t) ↔ ∃ j ∈ range' i (buffer.length - i), P (buffer.drop j) := by
  constructor
  · rintro ⟨t, ht, hP⟩
    have hpos : 0 < t.length := length_pos_iff.2 (by rintro rfl; exact hnil hP)
    have hle := ht.length_le
    rw [length_drop] at hle
    refine ⟨buffer.length - t.length, mem_range'_1.2 ⟨by omega, by omega⟩, ?_⟩
    rwa [← suffix_iff_eq_drop.1 (ht.trans (drop_suffix i buffer))]
  · rintro ⟨j, hj, hP⟩
    have hle := (mem_range'_1.1 hj).1
    refine ⟨buffer.drop j, ?_, hP⟩
    rw [← Nat.add_sub_cancel' hle, ← drop_drop]
    exact drop_suffix _ _

/-- `while (i < length && p(buffer[i])) i++;`, with the turns it may take. -/
def skipWhile (p : α → Bool) (buffer : List α) : Nat → Nat → Outcome Nat
  | 0, _ => .hang
  | turns + 1, i =>
    if i < buffer.length then do
      let a ← read buffer i
      if p a then skipWhile p buffer turns (i + 1) else .done i
    else .done i

open Outcome in
theorem skipWhile_spec {p : α → Bool} : ∀ {turns i : Nat}, buffer.length < turns + i → i ≤ buffer.length →
    (skipWhile p buffer turns i).Returns fun j =>
      i ≤ j ∧ j ≤ buffer.length ∧ buffer.drop j = (buffer.drop i).dropWhile p
  | 0, i, hturns, hle => absurd hturns (by omega)
  | turns + 1, i, hturns, hle => by
    unfold skipWhile
    by_cases hlt : i < buffer.length
    · rw [if_pos hlt]
      obtain ⟨a, rest, hdrop⟩ := exists_drop hlt
      rw [read_of_drop hdrop, done_bind]
      by_cases ha : p a = true
      · rw [if_pos ha]
        refine (skipWhile_spec (by omega) hlt).mono fun j h => ⟨by omega, h.2.1, ?_⟩
        rw [h.2.2, hdrop, dropWhile_cons_of_pos ha, drop_succ_of_drop hdrop]
      · rw [if_neg ha]
        exact returns_done ⟨Nat.le_refl _, hle, by rw [hdrop, dropWhile_cons_of_neg ha]⟩
    · rw [if_neg hlt]
      have hend : buffer.drop i = [] := drop_eq_nil_iff.2 (by omega)
      exact returns_done ⟨Nat.le_refl _, hle, by rw [hend, dropWhile_nil]⟩

namespace Outcome

/-- The computation ends with a truth value, which is that of the proposition. -/
def Decides (o : Outcome Bool) (P : Prop) : Prop := ∃ b, o = done b ∧ (b = true ↔ P)

variable {P : Prop}

theorem decides_done {b : Bool} (h : b = true ↔ P) : (done b).Decides P := ⟨b, rfl, h⟩

theorem Decides.congr {o : Outcome Bool} {Q : Prop} (h : o.Decides P) (hpq : P ↔ Q) : o.Decides Q :=
  h.imp fun _ h => ⟨h.1, h.2.trans hpq⟩

theorem decides_false (h : ¬ P) : (done false).Decides P := decides_done (by simpa using h)

theorem decides_true (h : P) : (done true).Decides P := decides_done (by simpa using h)

/-- A loop that returns true at the first turn that does. -/
theorem decides_anyM {ι : Type} {f : ι → Outcome Bool} {P : ι → Prop} :
    ∀ {l : List ι}, (∀ i ∈ l, (f i).Decides (P i)) → (l.anyM f).Decides (∃ i ∈ l, P i)
  | [], _ => decides_false (by simp)
  | i :: l, h => by
    obtain ⟨b, hb, hi⟩ := h i (by simp)
    have hrest : (l.anyM f).Decides (∃ i ∈ l, P i) := decides_anyM fun j hj => h j (by simp [hj])
    rw [anyM_cons, hb, done_bind]
    cases b with
    | true => exact decides_true ⟨i, by simp, hi.1 rfl⟩
    | false =>
      have hnot : ¬ P i := fun hP => absurd (hi.2 hP) (by decide)
      refine hrest.congr ⟨?_, ?_⟩
      · rintro ⟨j, hj, hP⟩
        exact ⟨j, by simp [hj], hP⟩
      · rintro ⟨j, hj, hP⟩
        rcases mem_cons.1 hj with rfl | hj
        · exact absurd hP hnot
        · exact ⟨j, hj, hP⟩

/-- The computation raises the error where `E` holds, and decides `P` elsewhere. -/
def Settles (o : Outcome Bool) (message : String) (E P : Prop) : Prop :=
  (E → o = error message) ∧ (¬ E → o.Decides P)

variable {o : Outcome Bool} {message : String} {E E' P P' : Prop}

theorem Settles.congr (h : o.Settles message E P) (hE : E ↔ E') (hP : P ↔ P') : o.Settles message E' P' :=
  ⟨fun he => h.1 (hE.2 he), fun he => (h.2 (hE.not.2 he)).congr hP⟩

theorem settles_of_not (hE : ¬ E) (h : o.Decides P) : o.Settles message E P :=
  ⟨fun he => absurd he hE, fun _ => h⟩

/-- A loop that returns true at the first turn that does, where no turn does if another one raises the error. -/
theorem settles_anyM {ι : Type} {f : ι → Outcome Bool} {E P : ι → Prop} (hnot : ∀ i j, E i → ¬ P j) :
    ∀ {l : List ι}, (∀ i ∈ l, (f i).Settles message (E i) (P i)) →
      (l.anyM f).Settles message (∃ i ∈ l, E i) (∃ i ∈ l, P i)
  | [], _ => settles_of_not (by simp) (decides_false (by simp))
  | i :: l, h => by
    have hi := h i (by simp)
    have hrest : (l.anyM f).Settles message (∃ i ∈ l, E i) (∃ i ∈ l, P i) :=
      settles_anyM hnot fun j hj => h j (by simp [hj])
    refine ⟨?_, fun hE => ?_⟩
    · rintro ⟨j, hj, hE⟩
      rw [anyM_cons]
      by_cases hEi : E i
      · rw [hi.1 hEi, error_bind]
      · obtain ⟨b, hb, hiff⟩ := hi.2 hEi
        obtain rfl : b = false := by simpa [hnot j i hE] using hiff
        rw [hb, done_bind]
        refine hrest.1 ⟨j, ?_, hE⟩
        rcases mem_cons.1 hj with rfl | hj
        · exact absurd hE hEi
        · exact hj
    · exact decides_anyM fun j hj => (h j hj).2 fun he => hE ⟨j, hj, he⟩

end Outcome

end Haybarn.Lib
