/-
Going through the undo buffer gives what was created, in order or in reverse. In each block the entries lie one behind the
other, and the links go through the blocks in the order they were made: a pass that stops in the middle leaves a place, and
the entries in front of that place are those that it has been through.
-/
import Haybarn.Undo.Buffer
import Mathlib.Algebra.GroupWithZero.Nat

namespace Haybarn.Undo

open Lib Wal List Nat

/-! ## Blocks -/

section Blocks

variable {m m' : Cells UInt8} {start stop c p : Nat} {e : Entry} {es : List Entry}

/-- The bytes of an entry, with its header. -/
def Entry.size (e : Entry) : Nat := (e.payload.length + 15) / 8 * 8

def sizes (es : List Entry) : Nat := (es.map Entry.size).sum

/-- The entries lie in a block one behind the other. -/
def Laid (m : Cells UInt8) : Nat → Nat → List Entry → Prop
  | start, stop, [] => start = stop
  | start, stop, e :: es => load m start = e.type.code ∧ load m (start + sizeofUndoFlags) = e.size - undoEntryHeaderSize ∧
    m.Has (start + undoEntryHeaderSize) e.payload ∧ Laid m (start + e.size) stop es

/-- What a callback is given for entries that lie in a block. -/
def visits (c : Nat) : Nat → List Entry → List Visit
  | _, [] => []
  | start, e :: es => ⟨e.type.code, ⟨c, start + undoEntryHeaderSize⟩⟩ :: visits c (start + e.size) es

theorem Entry.size_pos (e : Entry) : undoEntryHeaderSize + e.payload.length ≤ e.size := by
  unfold Entry.size undoEntryHeaderSize sizeofUndoFlags sizeofLen
  omega

@[simp] theorem sizes_nil : sizes [] = 0 := rfl

@[simp] theorem sizes_cons : sizes (e :: es) = e.size + sizes es := by
  simp [sizes]

theorem Laid.stop_eq : ∀ {start : Nat} {es : List Entry}, Laid m start stop es → stop = start + sizes es
  | _, [], h => by simpa [Laid] using h.symm
  | _, _ :: _, h => by
    have ih := Laid.stop_eq h.2.2.2
    rw [sizes_cons]
    omega

@[simp] theorem length_visits : ∀ (start : Nat) (es : List Entry), (visits c start es).length = es.length
  | _, [] => rfl
  | _, _ :: es => congrArg (· + 1) (length_visits _ es)

theorem visits_append : ∀ (start : Nat) (es fs : List Entry),
    visits c start (es ++ fs) = visits c start es ++ visits c (start + sizes es) fs
  | _, [], _ => by simp [visits]
  | start, e :: es, fs => by
    rw [cons_append, visits, visits_append, sizes_cons, ← add_assoc]
    rfl

theorem take_visits : ∀ (start q : Nat) (es : List Entry), (visits c start es).take q = visits c start (es.take q)
  | _, 0, _ => by simp [visits]
  | _, q + 1, [] => by simp [visits]
  | start, q + 1, e :: es => by
    rw [visits, take_succ_cons, take_succ_cons, visits, take_visits]

theorem Laid.append : ∀ {start mid : Nat} {es fs : List Entry}, Laid m start mid es → Laid m mid stop fs →
    Laid m start stop (es ++ fs)
  | _, _, [], _, h, h' => by
    have he : _ = _ := h
    rwa [he]
  | _, _, _ :: _, _, h, h' => ⟨h.1, h.2.1, h.2.2.1, h.2.2.2.append h'⟩

theorem Laid.take : ∀ {start q : Nat} {es : List Entry}, Laid m start stop es →
    Laid m start (start + sizes (es.take q)) (es.take q)
  | start, 0, es, _ => by simp [Laid]
  | start, q + 1, [], _ => by simp [Laid]
  | start, q + 1, e :: es, h => by
    have ih : Laid m (start + e.size) (start + e.size + sizes (es.take q)) (es.take q) := h.2.2.2.take
    rw [take_succ_cons, sizes_cons, ← add_assoc]
    exact ⟨h.1, h.2.1, h.2.2.1, ih⟩

theorem load_congr (h : ∀ i < 4, m' (p + i) = m (p + i)) : load m' p = load m p := by
  have hread : m'.read p 4 = m.read p 4 := by
    apply ext_getElem?
    intro i
    by_cases hi : i < 4
    · rw [Cells.getElem?_read hi, Cells.getElem?_read hi, h i hi]
    · rw [getElem?_eq_none (by simpa using hi), getElem?_eq_none (by simpa using hi)]
  rw [load, load, hread]

theorem Laid.congr : ∀ {start : Nat} {es : List Entry}, Laid m start stop es → (∀ i < stop, m' i = m i) →
    Laid m' start stop es
  | _, [], h, _ => h
  | start, e :: es, h, hm => by
    have hstop := h.stop_eq
    have hsize := e.size_pos
    rw [sizes_cons] at hstop
    have hheader : undoEntryHeaderSize = 8 ∧ sizeofUndoFlags = 4 := ⟨rfl, rfl⟩
    refine ⟨?_, ?_, ?_, h.2.2.2.congr hm⟩
    · rw [load_congr fun i hi => hm _ (by omega)]
      exact h.1
    · rw [load_congr fun i hi => hm _ (by omega)]
      exact h.2.1
    · exact h.2.2.1.congr fun i hi => hm _ (by omega)

end Blocks

/-! ## Callbacks -/

section Callbacks

variable {α ε : Type} (callback : α → Visit → Except ε α)

/-- How many callbacks return before one throws. -/
def passed : α → List Visit → Nat
  | _, [] => 0
  | acc, v :: vs =>
    match callback acc v with
    | .error _ => 0
    | .ok acc => passed acc vs + 1

theorem passed_le : ∀ (acc : α) (vs : List Visit), passed callback acc vs ≤ vs.length
  | _, [] => le_rfl
  | acc, v :: vs => by
    unfold passed
    cases callback acc v with
    | error e => exact zero_le _
    | ok acc => exact succ_le_succ (passed_le acc vs)

theorem passed_append_of_ok : ∀ {acc acc' : α} {vs : List Visit} (ws : List Visit), vs.foldlM callback acc = .ok acc' →
    passed callback acc (vs ++ ws) = vs.length + passed callback acc' ws
  | acc, acc', [], ws, h => by
    cases h
    simp
  | acc, acc', v :: vs, ws, h => by
    rw [foldlM_cons] at h
    rw [cons_append, passed]
    cases hv : callback acc v with
    | error e =>
      rw [hv] at h
      cases h
    | ok b =>
      rw [hv] at h
      dsimp only
      rw [passed_append_of_ok ws h, length_cons]
      omega

theorem passed_append_of_error : ∀ {acc : α} {e : ε} {vs : List Visit} (ws : List Visit),
    vs.foldlM callback acc = .error e → passed callback acc (vs ++ ws) = passed callback acc vs
  | acc, e, [], ws, h => by cases h
  | acc, e, v :: vs, ws, h => by
    rw [foldlM_cons] at h
    rw [cons_append, passed, passed]
    cases hv : callback acc v with
    | error e => rfl
    | ok b =>
      rw [hv] at h
      dsimp only
      rw [passed_append_of_error ws h]

end Callbacks

/-! ## Loops over a block -/

section Loops

variable {α ε : Type} {callback : α → Visit → Except ε α} {m : Cells UInt8} {stop c : Nat}

theorem visitEntries_eq : ∀ {start : Nat} {es : List Entry} (acc : α), Laid m start stop es →
    visitEntries callback c m stop start acc = (start + sizes (es.take (passed callback acc (visits c start es))),
      (visits c start es).foldlM callback acc)
  | start, [], acc, h => by
    have hstop : start = stop := h
    rw [visitEntries, if_neg (by omega)]
    simp [visits, passed]
    rfl
  | start, e :: es, acc, h => by
    have hstop := h.stop_eq
    have hsize := e.size_pos
    have hheader : undoEntryHeaderSize = 8 ∧ sizeofUndoFlags = 4 ∧ sizeofLen = 4 := ⟨rfl, rfl, rfl⟩
    rw [sizes_cons] at hstop
    have hpayload : start + sizeofUndoFlags + sizeofLen = start + undoEntryHeaderSize := by omega
    have hnext : start + undoEntryHeaderSize + (e.size - undoEntryHeaderSize) = start + e.size := by omega
    rw [visitEntries, if_pos (by omega)]
    dsimp only
    rw [h.1, h.2.1, hpayload, hnext, visits, foldlM_cons, passed]
    cases hv : callback acc ⟨e.type.code, ⟨c, start + undoEntryHeaderSize⟩⟩ with
    | error e' => rfl
    | ok b =>
      dsimp only
      rw [visitEntries_eq b h.2.2.2, take_succ_cons, sizes_cons, add_assoc]
      rfl

theorem gatherNodes_eq : ∀ {start : Nat} {es : List Entry} (nodes : List Visit), Laid m start stop es →
    gatherNodes c m stop start nodes = nodes ++ visits c start es
  | start, [], nodes, h => by
    have hstop : start = stop := h
    rw [gatherNodes, if_neg (by omega)]
    simp [visits]
  | start, e :: es, nodes, h => by
    have hstop := h.stop_eq
    have hsize := e.size_pos
    have hheader : undoEntryHeaderSize = 8 ∧ sizeofUndoFlags = 4 ∧ sizeofLen = 4 := ⟨rfl, rfl, rfl⟩
    rw [sizes_cons] at hstop
    have hpayload : start + sizeofUndoFlags + sizeofLen = start + undoEntryHeaderSize := by omega
    have hnext : start + undoEntryHeaderSize + (e.size - undoEntryHeaderSize) = start + e.size := by omega
    rw [gatherNodes, if_pos (by omega)]
    dsimp only
    rw [h.1, h.2.1, hpayload, hnext, gatherNodes_eq _ h.2.2.2, visits, append_assoc]
    rfl

end Loops

/-! ## The chain -/

section Chain

variable {a : UndoBufferAllocator} {parts ps : List (List Entry)} {es : List Entry} {i n k : Nat}

/-- The links go through the blocks in the order of their addresses, and each block holds its part of the entries. -/
structure Chain (a : UndoBufferAllocator) (parts : List (List Entry)) : Prop where
  length : parts.length = a.entries.length
  head : a.head = if a.entries.length = 0 then none else some (a.entries.length - 1)
  tail : a.tail = if 0 < a.entries.length then some 0 else none
  next : ∀ (i : Nat) (e : UndoBufferEntry), a.entries[i]? = some e → e.next = if i = 0 then none else some (i - 1)
  prev : ∀ (i : Nat) (e : UndoBufferEntry), a.entries[i]? = some e → e.prev = if i + 1 < a.entries.length then some (i + 1) else none
  room : ∀ (i : Nat) (e : UndoBufferEntry), a.entries[i]? = some e → e.position ≤ e.capacity
  laid : ∀ (i : Nat) (e : UndoBufferEntry) es, a.entries[i]? = some e → parts[i]? = some es → Laid e.block 0 e.position es

/-- The visits of the blocks from one on. -/
def visitsFrom : Nat → List (List Entry) → List Visit
  | _, [] => []
  | i, es :: ps => visits i 0 es ++ visitsFrom (i + 1) ps

theorem visitsFrom_append : ∀ (i : Nat) (ps qs : List (List Entry)),
    visitsFrom i (ps ++ qs) = visitsFrom i ps ++ visitsFrom (i + ps.length) qs
  | _, [], _ => by simp [visitsFrom]
  | i, es :: ps, qs => by
    have hnext : i + 1 + ps.length = i + (es :: ps).length := by
      rw [length_cons]
      omega
    rw [cons_append, visitsFrom, visitsFrom, visitsFrom_append, append_assoc, hnext]

/-- The place in front of which there are `k` visits of the blocks from one on. -/
def StopsAt (s : IteratorState) : Nat → List (List Entry) → Nat → Prop
  | _, [], k => s.current = none ∧ k = 0
  | i, es :: ps, k => (s.current = some i ∧ k ≤ es.length ∧ s.start = sizes (es.take k)) ∨
    (s.current ≠ some i ∧ ∃ k', k = es.length + k' ∧ StopsAt s (i + 1) ps k')

theorem Chain.block (h : Chain a parts) (hdrop : parts.drop i = es :: ps) :
    ∃ entry, a.entries[i]? = some entry ∧ Laid entry.block 0 entry.position es ∧ i < a.entries.length ∧
      parts[i]? = some es ∧ parts.drop (i + 1) = ps := by
  have hpart : parts[i]? = some es := by
    rw [← List.head?_drop, hdrop]
    rfl
  have hi : i < a.entries.length := by
    rw [← h.length]
    exact (List.getElem?_eq_some_iff.1 hpart).1
  have hentry : a.entries[i]? = some a.entries[i] := List.getElem?_eq_getElem hi
  refine ⟨a.entries[i], hentry, h.laid i _ es hentry hpart, hi, hpart, ?_⟩
  rw [← List.drop_drop, hdrop]
  rfl

theorem Chain.length_of_drop_nil (h : Chain a parts) (hdrop : parts.drop i = []) : a.entries.length ≤ i := by
  rw [← h.length]
  exact drop_eq_nil_iff.1 hdrop

section Passes

variable {α ε : Type} {callback : α → Visit → Except ε α}

/-- `IterateEntries` from a block on: it visits what is there in order, and the state that it leaves is the place where a
callback has thrown. -/
theorem iterateBlocks_eq (h : Chain a parts) : ∀ {ps : List (List Entry)} {i turns : Nat} {state : IteratorState} (acc : α),
    parts.drop i = ps → ps.length < turns → state.current = (if i < a.entries.length then some i else none) →
      (iterateBlocks callback a turns state acc).2 = (visitsFrom i ps).foldlM callback acc ∧
      StopsAt (iterateBlocks callback a turns state acc).1 i ps (passed callback acc (visitsFrom i ps)) ∧
      (iterateBlocks callback a turns state acc).1.started = state.started ∧
      ∀ j, (iterateBlocks callback a turns state acc).1.current = some j → i ≤ j
  | [], i, turns + 1, state, acc, hdrop, _, hcurrent => by
    have hnone : state.current = none := by
      rw [hcurrent, if_neg (not_lt.2 (h.length_of_drop_nil hdrop))]
    have heq : iterateBlocks callback a (turns + 1) state acc = (state, .ok acc) := by
      rw [iterateBlocks, hnone]
      rfl
    rw [heq]
    refine ⟨rfl, ⟨hnone, rfl⟩, rfl, fun j hj => ?_⟩
    rw [hnone] at hj
    cases hj
  | es :: ps, i, turns + 1, state, acc, hdrop, hturns, hcurrent => by
    obtain ⟨entry, hentry, hlaid, hi, -, hrest⟩ := h.block hdrop
    have hsome : state.current = some i := by rw [hcurrent, if_pos hi]
    have hprev : entry.prev = if i + 1 < a.entries.length then some (i + 1) else none := h.prev i entry hentry
    have hstart : visitEntries callback i entry.block entry.position 0 acc =
        (sizes (es.take (passed callback acc (visits i 0 es))), (visits i 0 es).foldlM callback acc) := by
      rw [visitEntries_eq acc hlaid, zero_add]
    rw [iterateBlocks, hsome]
    simp only [Option.bind_some, hentry, Option.map_some, hstart, visitsFrom]
    rw [foldlM_append]
    cases hr : (visits i 0 es).foldlM callback acc with
    | error e =>
      dsimp only
      have hle := passed_le callback acc (visits i 0 es)
      rw [length_visits] at hle
      refine ⟨rfl, .inl ⟨rfl, ?_, ?_⟩, rfl, fun j hj => (Option.some.inj hj).le⟩
      · rw [passed_append_of_error callback _ hr]
        exact hle
      · rw [passed_append_of_error callback _ hr]
    | ok b =>
      dsimp only
      obtain ⟨hresult, hstop, hstarted, hcur⟩ := @iterateBlocks_eq h ps (i + 1) turns
        ⟨entry.prev, sizes (es.take (passed callback acc (visits i 0 es))), entry.position, state.started⟩ b hrest
        (lt_of_succ_lt_succ hturns) hprev
      refine ⟨hresult, .inr ⟨fun hi' => absurd (hcur i hi') (by omega), _, ?_, hstop⟩, hstarted, fun j hj => ?_⟩
      · rw [passed_append_of_ok callback _ hr, length_visits]
      · exact (le_succ i).trans (hcur j hj)

theorem iterateBlocksUntil_eq (h : Chain a parts) {s : IteratorState} : ∀ {ps : List (List Entry)} {i turns k : Nat}
    (acc : α), parts.drop i = ps → ps.length < turns → StopsAt s i ps k →
      iterateBlocksUntil callback a s turns (if i < a.entries.length then some i else none) acc =
        ((visitsFrom i ps).take k).foldlM callback acc
  | [], i, turns + 1, k, acc, hdrop, _, _ => by
    rw [if_neg (not_lt.2 (h.length_of_drop_nil hdrop)), iterateBlocksUntil]
    simp [visitsFrom]
    rfl
  | es :: ps, i, turns + 1, k, acc, hdrop, hturns, hstop => by
    obtain ⟨entry, hentry, hlaid, hi, -, hrest⟩ := h.block hdrop
    rw [if_pos hi, iterateBlocksUntil]
    simp only [Option.bind_some, hentry, Option.map_some, visitsFrom]
    rcases hstop with ⟨hcur, hk, hstart⟩ | ⟨hcur, k', rfl, hstop⟩
    · -- the place is in this block
      rw [if_pos hcur.symm, hstart]
      have htake := hlaid.take (q := k)
      rw [zero_add] at htake
      rw [visitEntries_eq acc htake, take_append_of_le_length (by rw [length_visits]; exact hk), take_visits]
      simp only [if_pos hcur.symm]
      cases (visits i 0 (es.take k)).foldlM callback acc with
      | error e => rfl
      | ok b => rfl
    · have hne : some i ≠ s.current := fun h => hcur h.symm
      rw [if_neg hne, visitEntries_eq acc hlaid]
      simp only [if_neg hne]
      have htake : (visits i 0 es ++ visitsFrom (i + 1) ps).take (es.length + k') =
          visits i 0 es ++ (visitsFrom (i + 1) ps).take k' := by
        rw [← length_visits (c := i) 0 es, take_length_add_append]
      rw [htake, foldlM_append]
      cases (visits i 0 es).foldlM callback acc with
      | error e => rfl
      | ok b =>
        dsimp only
        rw [h.prev i entry hentry]
        exact iterateBlocksUntil_eq h b hrest (lt_of_succ_lt_succ hturns) hstop

theorem reverseIterateBlocks_eq (h : Chain a parts) : ∀ {i turns : Nat} (acc : α), i ≤ a.entries.length → i < turns →
    reverseIterateBlocks callback a turns (if i = 0 then none else some (i - 1)) acc =
      (visitsFrom 0 (parts.take i)).reverse.foldlM callback acc
  | 0, turns + 1, acc, _, _ => by
    rw [if_pos rfl, reverseIterateBlocks]
    rfl
  | i + 1, turns + 1, acc, hi, hturns => by
    have hlt : i < parts.length := by
      rw [h.length]
      exact hi
    obtain ⟨entry, hentry, hlaid, -, -, -⟩ := h.block (drop_eq_getElem_cons hlt)
    rw [if_neg (Nat.succ_ne_zero i), Nat.add_sub_cancel, reverseIterateBlocks]
    simp only [Option.bind_some, hentry, Option.map_some]
    rw [gatherNodes_eq [] hlaid, nil_append, take_succ_eq_append_getElem hlt, visitsFrom_append]
    have hlength : (parts.take i).length = i := by
      rw [length_take]
      omega
    rw [hlength, Nat.zero_add, visitsFrom, visitsFrom, append_nil, reverse_append, foldlM_append]
    cases (visits i 0 parts[i]).reverse.foldlM callback acc with
    | error e => rfl
    | ok b =>
      dsimp only
      rw [h.next i entry hentry]
      exact reverseIterateBlocks_eq h b (Nat.le_of_succ_le hi) (Nat.lt_of_succ_lt_succ hturns)

end Passes

end Chain

end Haybarn.Undo
