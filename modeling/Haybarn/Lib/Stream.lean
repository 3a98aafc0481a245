/-
Reading a stream of units with a state on the side. A reader takes units from the front of its input;
what it has put into the state stays there when it fails. The rules say which units a reader takes, and
that it fails where the input ends before them. Nothing here names a particular format.
-/
import Mathlib.Data.List.Basic
import Mathlib.Data.List.Infix

namespace Haybarn.Lib

open List

/-- What is left to read, and the state of the reader. -/
structure Source (β σ : Type) where
  input : List β
  state : σ

/-- A reader that may fail. The source keeps what the reader did before it failed. -/
abbrev Reader (ε β σ α : Type) := EStateM ε (Source β σ) α

section Bind

variable {ε σ α γ : Type} {p : EStateM ε σ α} {q : α → EStateM ε σ γ} {s s' : σ}

theorem bind_ok {a : α} (h : p s = .ok a s') : (p >>= q) s = q a s' := by
  show EStateM.bind p q s = _
  unfold EStateM.bind
  rw [h]

theorem bind_error {e : ε} (h : p s = .error e s') : (p >>= q) s = .error e s' := by
  show EStateM.bind p q s = _
  unfold EStateM.bind
  rw [h]

end Bind

section Readers

variable {ε β σ α γ : Type}

/-- The next `n` units, or the error if there are not so many. -/
def takeUnits (eof : ε) (n : Nat) : Reader ε β σ (List β) := fun source =>
  if source.input.length < n then .error eof source
  else .ok (source.input.take n) { source with input := source.input.drop n }

/-- What `p` reads, with the input left as it is. -/
def peek (p : Reader ε β σ α) : Reader ε β σ α := fun source =>
  match p source with
  | .ok a s => .ok a { s with input := source.input }
  | .error e s => .error e { s with input := source.input }

/-- What `p` reads from the buffer. The input stays. -/
def withInput (buffer : List β) (p : Reader ε β σ α) : Reader ε β σ α := fun source =>
  match p { source with input := buffer } with
  | .ok a s => .ok a { s with input := source.input }
  | .error e s => .error e { s with input := source.input }

def getState : Reader ε β σ σ := fun source => .ok source.state source

def modifyState (f : σ → σ) : Reader ε β σ Unit := fun source => .ok () { source with state := f source.state }

/-- A change of the state that may fail. -/
def tryModifyState (f : σ → Except ε σ) : Reader ε β σ Unit := fun source =>
  match f source.state with
  | .ok state => .ok () { source with state }
  | .error e => .error e source

/-- How many units are left. -/
def remaining : Reader ε β σ Nat := fun source => .ok source.input.length source

/-- The reader takes exactly the units `bs`, for `a`, and the state goes from `s` to `s'`. On a part of
them it fails with an error that meets `E`, and leaves a state that meets `K`. -/
structure Reads (E : ε → Prop) (K : σ → Prop) (p : Reader ε β σ α) (s : σ) (bs : List β) (a : α) (s' : σ) : Prop where
  whole : ∀ rest, p ⟨bs ++ rest, s⟩ = .ok a ⟨rest, s'⟩
  torn : ∀ cut, cut <+: bs → cut ≠ bs → ∃ e source, p ⟨cut, s⟩ = .error e source ∧ E e ∧ K source.state

variable {E : ε → Prop} {K : σ → Prop} {p : Reader ε β σ α} {s s' s'' : σ} {bs cs : List β} {a : α}

/-! ## Composition -/

/-- A part of an append is a part of the first list, or the first list and a part of the second. -/
theorem prefix_append_cases {cut bs cs : List β} (h : cut <+: bs ++ cs) (hne : cut ≠ bs ++ cs) :
    (cut <+: bs ∧ cut ≠ bs) ∨ ∃ cut', cut = bs ++ cut' ∧ cut' <+: cs ∧ cut' ≠ cs := by
  rcases prefix_or_prefix_of_prefix h (prefix_append bs cs) with hbs | ⟨cut', rfl⟩
  · by_cases heq : cut = bs
    · refine .inr ⟨[], by rw [heq, append_nil], nil_prefix, fun hcs => hne ?_⟩
      rw [heq, ← hcs, append_nil]
    · exact .inl ⟨hbs, heq⟩
  · exact .inr ⟨cut', rfl, (prefix_append_right_inj bs).1 h, fun hcs => hne (by rw [hcs])⟩

theorem Reads.empty (h : ∀ rest, p ⟨rest, s⟩ = .ok a ⟨rest, s'⟩) : Reads E K p s [] a s' :=
  ⟨h, fun _ hcut hne => absurd (prefix_nil.1 hcut) hne⟩

theorem Reads.pure (a : α) (s : σ) : Reads E K (Pure.pure a : Reader ε β σ α) s [] a s := .empty fun _ => rfl

theorem Reads.modifyState (f : σ → σ) (s : σ) : Reads E K (modifyState f : Reader ε β σ Unit) s [] () (f s) :=
  .empty fun _ => rfl

theorem Reads.tryModifyState {f : σ → Except ε σ} (h : f s = .ok s') :
    Reads E K (tryModifyState f : Reader ε β σ Unit) s [] () s' := by
  refine .empty fun rest => ?_
  unfold Lib.tryModifyState
  dsimp only
  rw [h]

theorem Reads.getState (s : σ) : Reads E K (getState : Reader ε β σ σ) s [] s s := .empty fun _ => rfl

variable {q : α → Reader ε β σ γ}

/-- One reader after the other. -/
theorem Reads.bind {c : γ} (hp : Reads E K p s bs a s') (hq : Reads E K (q a) s' cs c s'') :
    Reads E K (p >>= q) s (bs ++ cs) c s'' := by
  constructor
  · intro rest
    rw [append_assoc, bind_ok (hp.whole (cs ++ rest))]
    exact hq.whole rest
  · intro cut hcut hne
    rcases prefix_append_cases hcut hne with ⟨hbs, hne⟩ | ⟨cut', rfl, hcs, hne⟩
    · obtain ⟨e, source, herror, he, hk⟩ := hp.torn cut hbs hne
      exact ⟨e, source, bind_error herror, he, hk⟩
    · obtain ⟨e, source, herror, he, hk⟩ := hq.torn cut' hcs hne
      exact ⟨e, source, (bind_ok (hp.whole cut')).trans herror, he, hk⟩

/-- A step that reads nothing goes first. -/
theorem Reads.step {c : γ} (hp : Reads E K p s [] a s') (hq : Reads E K (q a) s' cs c s'') :
    Reads E K (p >>= q) s cs c s'' := hp.bind hq

/-- A step that reads nothing goes last. -/
theorem Reads.bind_pure {c : γ} (hp : Reads E K p s bs a s')
    (hq : Reads E K (q a) s' [] c s'') : Reads E K (p >>= q) s bs c s'' := by
  have h := hp.bind hq
  rwa [append_nil] at h

theorem Reads.takeUnits {eof : ε} {n : Nat} (hlen : bs.length = n) (he : E eof) (hk : K s) :
    Reads E K (takeUnits eof n) s bs bs s := by
  constructor
  · intro rest
    have hnot : ¬ (bs ++ rest).length < n := by
      rw [length_append]
      omega
    unfold Lib.takeUnits
    rw [if_neg hnot, ← hlen, take_left, drop_left]
  · intro cut hcut hne
    have hlt : cut.length < n := by
      have hle := hcut.length_le
      have : cut.length ≠ bs.length := fun h => hne (hcut.eq_of_length h)
      omega
    refine ⟨eof, ⟨cut, s⟩, ?_, he, hk⟩
    unfold Lib.takeUnits
    rw [if_pos hlt]

/-- A look at what the next reader takes. The units of the look are a part of those that follow. -/
theorem Reads.peek {q : α → Reader ε β σ γ} {c : γ} {ahead after : List β} (hp : Reads E K p s ahead a s)
    (hq : Reads E K (q a) s (ahead ++ after) c s') : Reads E K (peek p >>= q) s (ahead ++ after) c s' := by
  have hpeek : ∀ rest, Lib.peek p ⟨ahead ++ rest, s⟩ = .ok a ⟨ahead ++ rest, s⟩ := fun rest => by
    unfold Lib.peek
    rw [hp.whole rest]
  constructor
  · intro rest
    rw [append_assoc, bind_ok (hpeek (after ++ rest)), ← append_assoc]
    exact hq.whole rest
  · intro cut hcut hne
    by_cases hlong : ahead <+: cut
    · obtain ⟨cut', rfl⟩ := hlong
      obtain ⟨e, source, herror, he, hk⟩ := hq.torn _ hcut hne
      exact ⟨e, source, (bind_ok (hpeek cut')).trans herror, he, hk⟩
    · have hpre : cut <+: ahead :=
        ( prefix_or_prefix_of_prefix hcut (prefix_append ahead after)).resolve_right hlong
      have hne' : cut ≠ ahead := fun h => hlong (h ▸ prefix_rfl)
      obtain ⟨e, source, herror, he, hk⟩ := hp.torn cut hpre hne'
      refine ⟨e, { source with input := cut }, bind_error ?_, he, hk⟩
      unfold Lib.peek
      rw [herror]

end Readers

end Haybarn.Lib
