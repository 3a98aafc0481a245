/-
Entries that are created keep the chain: each goes behind the entries of the newest block, or into a new one. So whatever has
been created, the traversals give it back; an entry whose length does not fit the word of its header is the exception.
-/
import Haybarn.Undo.Traversal
import Mathlib.Data.List.Forall2

namespace Haybarn.Undo

open Lib Wal List Option Nat

/-! ## Allocation -/

section Allocation

variable {manager : BufferManager} {a : UndoBufferAllocator} {parts ps : List (List Entry)} {es es' : List Entry}
  {allocLen capacity : Nat}

theorem nextPowerOfTwo_spec {v : Nat} (h : v ≤ 2 ^ 63) : ∃ power, nextPowerOfTwo v = some power ∧ v ≤ power := by
  unfold nextPowerOfTwo
  by_cases hv : v < 1
  · exact ⟨2, if_pos hv, by omega⟩
  · have hlt := Nat.lt_size_self (v - 1)
    have hsize : (v - 1).size ≤ 63 := Nat.size_le.2 (by omega)
    have hpow : 2 ^ (v - 1).size ≤ 2 ^ 63 := Nat.pow_le_pow_right (by decide) hsize
    refine ⟨2 ^ (v - 1).size, ?_, by omega⟩
    rw [if_neg hv]
    exact if_pos (by omega)

theorem newCapacity_spec (h : allocLen ≤ 2 ^ 63) : ∃ capacity, a.newCapacity manager allocLen = some capacity ∧
    allocLen ≤ capacity := by
  unfold UndoBufferAllocator.newCapacity
  dsimp only
  generalize (if a.head = none ∧ allocLen ≤ 4096 then 4096 else manager.blockSize) = capacity
  split
  · exact nextPowerOfTwo_spec h
  · exact ⟨capacity, rfl, by omega⟩

theorem chain_empty : Chain .empty [] := by
  constructor <;> simp [UndoBufferAllocator.empty]

theorem Chain.push (h : Chain a parts) : Chain (a.push manager capacity) (parts ++ [[]]) := by
  have hpush : a.push manager capacity =
      { entries := a.entries.modify (a.entries.length - 1) (fun e => { e with prev := some a.entries.length }) ++
          [{ block := manager.memory a.entries.length, position := 0, capacity, next := a.head, prev := none }]
        head := some a.entries.length, tail := some 0 } := by
    have hhead := h.head
    have htail := h.tail
    unfold UndoBufferAllocator.push
    by_cases hn : a.entries.length = 0
    · rw [if_pos hn] at hhead
      have hnil : a.entries = [] := length_eq_zero_iff.1 hn
      rw [hhead]
      simp [hnil]
    · rw [if_neg hn] at hhead
      rw [if_pos (Nat.pos_of_ne_zero hn)] at htail
      rw [hhead]
      simp [htail]
  rw [hpush]
  -- the block that was the head, the other blocks, and the new one
  have hentries : ∀ (i : Nat) (e : UndoBufferEntry),
      (a.entries.modify (a.entries.length - 1) (fun e => { e with prev := some a.entries.length }) ++
        [{ block := manager.memory a.entries.length, position := 0, capacity, next := a.head, prev := none }])[i]? =
          some e →
      (∃ old, a.entries[i]? = some old ∧ i < a.entries.length ∧ e.block = old.block ∧ e.position = old.position ∧
          e.capacity = old.capacity ∧ e.next = old.next ∧ e.prev = some (i + 1)) ∨
        (i = a.entries.length ∧ e.position = 0 ∧ e.next = a.head ∧ e.prev = none) := by
    intro i e he
    rcases Nat.lt_trichotomy i a.entries.length with hi | rfl | hi
    · rw [getElem?_append_left (by simpa using hi), getElem?_modify, getElem?_eq_getElem hi] at he
      have hold : a.entries[i]? = some a.entries[i] := getElem?_eq_getElem hi
      refine .inl ⟨a.entries[i], hold, hi, ?_⟩
      have hprev := h.prev i _ hold
      by_cases hlast : a.entries.length - 1 = i
      · simp only [if_pos hlast] at he
        obtain rfl := some.inj he
        refine ⟨rfl, rfl, rfl, rfl, ?_⟩
        show some a.entries.length = some (i + 1)
        congr 1
        omega
      · simp only [if_neg hlast] at he
        obtain rfl := some.inj he
        refine ⟨rfl, rfl, rfl, rfl, ?_⟩
        rw [hprev, if_pos (by omega)]
    · rw [getElem?_append_right (by simp)] at he
      simp only [length_modify, Nat.sub_self, getElem?_cons_zero, some.injEq] at he
      subst he
      exact .inr ⟨rfl, rfl, rfl, rfl⟩
    · rw [getElem?_eq_none (by simp; omega)] at he
      cases he
  constructor
  · simp [h.length]
  · simp
  · simp
  · intro i e he
    rcases hentries i e he with ⟨old, hold, -, -, -, -, hnext, -⟩ | ⟨rfl, -, hnext, -⟩
    · rw [hnext]
      exact h.next i old hold
    · rw [hnext]
      exact h.head
  · intro i e he
    simp only [length_append, length_modify, length_singleton]
    rcases hentries i e he with ⟨old, -, hi, -, -, -, -, hprev⟩ | ⟨rfl, -, -, hprev⟩
    · rw [hprev, if_pos (by omega)]
    · rw [hprev, if_neg (by omega)]
  · intro i e he
    rcases hentries i e he with ⟨old, hold, -, -, hposition, hcapacity, -, -⟩ | ⟨rfl, hposition, -, -⟩
    · rw [hposition, hcapacity]
      exact h.room i old hold
    · rw [hposition]
      exact Nat.zero_le _
  · intro i e part he hpart
    rcases hentries i e he with ⟨old, hold, hi, hblock, hposition, -, -, -⟩ | ⟨rfl, hposition, -, -⟩
    · rw [getElem?_append_left (by rw [h.length]; exact hi)] at hpart
      rw [hblock, hposition]
      exact h.laid i old part hold hpart
    · rw [← h.length, getElem?_append_right le_rfl, Nat.sub_self, getElem?_cons_zero, some.injEq] at hpart
      subst hpart
      exact hposition.symm

theorem Chain.modify_last (h : Chain a (ps ++ [es])) {f : UndoBufferEntry → UndoBufferEntry}
    (hf : ∀ e, a.entries[ps.length]? = some e → (f e).next = e.next ∧ (f e).prev = e.prev ∧
      (f e).position ≤ (f e).capacity ∧ Laid (f e).block 0 (f e).position es') :
    Chain { a with entries := a.entries.modify ps.length f } (ps ++ [es']) := by
  have hlength := h.length
  simp only [List.length_append, List.length_singleton] at hlength
  have hentries : ∀ (i : Nat) (e : UndoBufferEntry), (a.entries.modify ps.length f)[i]? = some e →
      (i ≠ ps.length ∧ a.entries[i]? = some e) ∨ (i = ps.length ∧ ∃ old, a.entries[i]? = some old ∧ e = f old) := by
    intro i e he
    rw [List.getElem?_modify] at he
    cases hold : a.entries[i]? with
    | none =>
      rw [hold] at he
      cases he
    | some old =>
      rw [hold] at he
      by_cases hi : ps.length = i
      · simp only [if_pos hi] at he
        exact .inr ⟨hi.symm, old, rfl, (some.inj he).symm⟩
      · simp only [if_neg hi] at he
        exact .inl ⟨fun h => hi h.symm, congrArg some (some.inj he)⟩
  constructor
  · simp [hlength]
  · simpa using h.head
  · simpa using h.tail
  · intro i e he
    rcases hentries i e he with ⟨-, hold⟩ | ⟨rfl, old, hold, rfl⟩
    · exact h.next i e hold
    · rw [(hf old hold).1]
      exact h.next _ old hold
  · intro i e he
    rw [List.length_modify]
    rcases hentries i e he with ⟨-, hold⟩ | ⟨rfl, old, hold, rfl⟩
    · exact h.prev i e hold
    · rw [(hf old hold).2.1]
      exact h.prev _ old hold
  · intro i e he
    rcases hentries i e he with ⟨-, hold⟩ | ⟨rfl, old, hold, rfl⟩
    · exact h.room i e hold
    · exact (hf old hold).2.2.1
  · intro i e part he hpart
    rcases hentries i e he with ⟨hi, hold⟩ | ⟨rfl, old, hold, rfl⟩
    · have hlt : i < ps.length := by
        have := (List.getElem?_eq_some_iff.1 hpart).1
        simp only [List.length_append, List.length_singleton] at this
        omega
      rw [List.getElem?_append_left hlt] at hpart
      exact h.laid i e part hold (by rw [List.getElem?_append_left hlt]; exact hpart)
    · rw [List.getElem?_append_right le_rfl, Nat.sub_self, List.getElem?_cons_zero, some.injEq] at hpart
      subst hpart
      exact (hf old hold).2.2.2

theorem Chain.allocate (h : Chain a parts) (hlen : allocLen ≤ 2 ^ 63) : ∃ b ps es entry, Chain b (ps ++ [es]) ∧
    b.entries[ps.length]? = some entry ∧ entry.position + allocLen ≤ entry.capacity ∧
    (ps ++ [es] = parts ∨ ps ++ [es] = parts ++ [[]]) ∧
    a.allocate manager allocLen = some (⟨ps.length, entry.position⟩,
      { b with entries := b.entries.modify ps.length fun e => { e with position := e.position + allocLen } }) := by
  have hbump : ∀ {b : UndoBufferAllocator} {ps : List (List Entry)} {es : List Entry} {entry : UndoBufferEntry},
      Chain b (ps ++ [es]) → b.entries[ps.length]? = some entry → b.bump allocLen = some (⟨ps.length, entry.position⟩,
        { b with entries := b.entries.modify ps.length fun e => { e with position := e.position + allocLen } }) := by
    intro b ps es entry hb hentry
    have hlength := hb.length
    simp only [length_append, length_singleton] at hlength
    have hhead : b.head = some ps.length := by
      rw [hb.head, if_neg (by omega)]
      congr 1
      omega
    simp only [UndoBufferAllocator.bump, hhead, bind_eq_bind, bind_some, hentry]
    rfl
  have hnew : ∃ capacity, a.newCapacity manager allocLen = some capacity ∧ ∃ entry,
      (a.push manager capacity).entries[parts.length]? = some entry ∧ entry.position + allocLen ≤ entry.capacity := by
    obtain ⟨capacity, hcapacity, hle⟩ := @newCapacity_spec manager a allocLen hlen
    refine ⟨capacity, hcapacity, ?_⟩
    unfold UndoBufferAllocator.push
    split
    · rw [h.length]
      simp only [length_modify, getElem?_append_right, Nat.le_refl, Nat.sub_self, getElem?_cons_zero,
        some.injEq, exists_eq_left']
      omega
    · rw [h.length]
      simp only [getElem?_append_right, Nat.le_refl, Nat.sub_self, getElem?_cons_zero,
        some.injEq, exists_eq_left']
      omega
  obtain ⟨capacity, hcapacity, entry, hentry, hroom⟩ := hnew
  have hfresh : ∃ b ps es entry, Chain b (ps ++ [es]) ∧ b.entries[ps.length]? = some entry ∧
      entry.position + allocLen ≤ entry.capacity ∧ (ps ++ [es] = parts ∨ ps ++ [es] = parts ++ [[]]) ∧
      (do
        let capacity ← a.newCapacity manager allocLen
        (a.push manager capacity).bump allocLen) = some (⟨ps.length, entry.position⟩,
        { b with entries := b.entries.modify ps.length fun e => { e with position := e.position + allocLen } }) := by
    refine ⟨a.push manager capacity, parts, [], entry, h.push, hentry, hroom, .inr rfl, ?_⟩
    rw [hcapacity]
    exact hbump h.push hentry
  unfold UndoBufferAllocator.allocate
  cases hhead : a.headEntry with
  | none => exact hfresh
  | some entry =>
    dsimp only
    split
    · exact hfresh
    · rename_i hfits
      have hne : parts ≠ [] := by
        rintro rfl
        have hzero : a.entries.length = 0 := h.length.symm
        rw [UndoBufferAllocator.headEntry, h.head, if_pos hzero] at hhead
        cases hhead
      obtain ⟨ps, es, rfl⟩ : ∃ ps es, parts = ps ++ [es] := ⟨_, _, (dropLast_append_getLast hne).symm⟩
      have hlength := h.length
      simp only [length_append, length_singleton] at hlength
      have hentry' : a.entries[ps.length]? = some entry := by
        rw [UndoBufferAllocator.headEntry, h.head, if_neg (by omega), bind_some] at hhead
        rwa [← hlength, Nat.add_sub_cancel] at hhead
      exact ⟨a, ps, es, entry, h, hentry', by omega, .inl rfl, hbump h hentry'⟩

end Allocation

/-! ## Entries -/

section Entries

variable {a : UndoBufferAllocator} {parts : List (List Entry)} {e : Entry} {entries : List Entry}
  {created : List Visit}

theorem load_store {m : Cells UInt8} {p v : Nat} (h : v < 2 ^ 32) : load (store m p v) p = v := by
  have hread := (Cells.has_write m p (writeWord 4 v)).read_eq_of_length (writeWord_length 4 v)
  rw [load, store, hread, wordValue_writeWord h]

theorem laid_store {m : Cells UInt8} {stop : Nat} {es : List Entry} (h : Laid m 0 stop es) (hsize : e.size ≤ 2 ^ 32) :
    Laid (((store (store m stop e.type.code) (stop + sizeofUndoFlags) (e.size - undoEntryHeaderSize)).write
      (stop + undoEntryHeaderSize) e.payload)) 0 (stop + e.size) (es ++ [e]) := by
  have hheader : undoEntryHeaderSize = 8 ∧ sizeofUndoFlags = 4 := ⟨rfl, rfl⟩
  have hword : ∀ v, (writeWord 4 v).length = 4 := writeWord_length 4
  have hcode : e.type.code < 2 ^ 32 := by cases e.type <;> decide
  have hpos := e.size_pos
  apply Laid.append (h.congr fun i hi => ?_)
  · refine ⟨?_, ?_, Cells.has_write _ _ _, rfl⟩
    · rw [load_congr fun i hi => Cells.write_apply_outside (by omega)]
      unfold store
      rw [load_congr fun i hi => Cells.write_apply_outside (by rw [hword]; omega)]
      exact load_store hcode
    · rw [load_congr fun i hi => Cells.write_apply_outside (by omega)]
      exact load_store (by omega)
  · rw [Cells.write_apply_outside (by omega), store, Cells.write_apply_outside (by omega), store,
      Cells.write_apply_outside (by omega)]

theorem allocLen_eq (h : e.payload.length ≤ 2 ^ 32 - 8) :
    alignValue (idx (e.payload.length + undoEntryHeaderSize)) = e.size ∧ e.size ≤ 2 ^ 32 ∧
      idx (e.size + 2 ^ 64 - undoEntryHeaderSize) % 2 ^ 32 = e.size - undoEntryHeaderSize := by
  have hheader : undoEntryHeaderSize = 8 := rfl
  have hpos := e.size_pos
  have hle : e.size ≤ 2 ^ 32 := by
    unfold Entry.size
    omega
  refine ⟨?_, hle, ?_⟩
  · unfold alignValue idx Entry.size
    rw [hheader]
    omega
  · unfold idx
    omega

/-- What has been created is what the blocks hold, in order. -/
structure Created (a : UndoBufferAllocator) (entries : List Entry) (created : List Visit) (parts : List (List Entry)) :
    Prop where
  chain : Chain a parts
  entries : parts.flatten = entries
  created : created = visitsFrom 0 parts

theorem Created.next (manager : BufferManager) (h : Created a entries created parts) (hlen : e.payload.length ≤ 2 ^ 32 - 8) :
    ∃ created' a' parts', create manager (created, a) e = some (created', a') ∧
      Created a' (entries ++ [e]) created' parts' := by
  obtain ⟨halloc, hsize, hstored⟩ := allocLen_eq hlen
  obtain ⟨b, ps, es, entry, hb, hentry, hroom, hparts, hallocate⟩ := @Chain.allocate manager a parts e.size h.chain
    (hsize.trans (by decide))
  have hposition := (hb.laid ps.length entry es hentry (by simp)).stop_eq
  rw [zero_add] at hposition
  have hcreate : create manager (created, a) e = some (created ++ [⟨e.type.code, ⟨ps.length,
      entry.position + undoEntryHeaderSize⟩⟩], { b with entries := b.entries.modify ps.length fun old =>
        { old with
          position := old.position + e.size
          block := (store (store old.block entry.position e.type.code) (entry.position + sizeofUndoFlags)
            (e.size - undoEntryHeaderSize)).write (entry.position + undoEntryHeaderSize) e.payload } }) := by
    simp only [create, createEntry, halloc, hallocate, hstored, Option.bind_eq_bind, Option.pure_def, Option.bind_some,
      UndoBufferAllocator.update, modify_modify_eq]
    rfl
  refine ⟨_, _, ps ++ [es ++ [e]], hcreate, hb.modify_last fun old hold => ?_, ?_, ?_⟩
  · obtain rfl := Option.some.inj (hentry.symm.trans hold)
    exact ⟨rfl, rfl, hroom, laid_store (hb.laid ps.length entry es hentry (by simp)) hsize⟩
  · have hflatten : (ps ++ [es]).flatten = entries := by
      rcases hparts with hp | hp
      · rw [hp, h.entries]
      · rw [hp, flatten_append, h.entries]
        simp
    rw [← hflatten]
    simp
  · have hvisits : visitsFrom 0 (ps ++ [es]) = created := by
      rcases hparts with hp | hp
      · rw [hp, h.created]
      · rw [hp, visitsFrom_append, h.created]
        simp [visitsFrom, visits]
    rw [← hvisits, visitsFrom_append, visitsFrom_append, hposition]
    simp [visitsFrom, visits_append, visits]

theorem Created.createEntries (manager : BufferManager) : ∀ (rest : List Entry) {done : List Entry} {a : UndoBufferAllocator} {created : List Visit}
    {parts : List (List Entry)}, Created a done created parts → (∀ e ∈ rest, e.payload.length ≤ 2 ^ 32 - 8) →
      ∃ created' a' parts', rest.foldlM (create manager) (created, a) = some (created', a') ∧
        Created a' (done ++ rest) created' parts'
  | [], _, a, created, parts, h, _ => ⟨created, a, parts, rfl, by rwa [append_nil]⟩
  | e :: rest, done, a, created, parts, h, hlen => by
    obtain ⟨created', a', parts', hcreate, h'⟩ := h.next manager (hlen e mem_cons_self)
    obtain ⟨created'', a'', parts'', hrest, h''⟩ := h'.createEntries manager rest fun e he => hlen e (mem_cons_of_mem _ he)
    refine ⟨created'', a'', parts'', ?_, ?_⟩
    · rw [foldlM_cons, hcreate]
      exact hrest
    · rwa [append_assoc] at h''

/-- A visit shows an entry: its type, and its payload at the place that is given. -/
def Shows (a : UndoBufferAllocator) (e : Entry) (v : Visit) : Prop :=
  v.type = e.type.code ∧ ∃ entry, a.entries[v.payload.entry]? = some entry ∧ entry.block.Has v.payload.position e.payload

theorem shows_visits {i : Nat} {entry : UndoBufferEntry} (hentry : a.entries[i]? = some entry) :
    ∀ {start stop : Nat} {es : List Entry}, Laid entry.block start stop es → List.Forall₂ (Shows a) es (visits i start es)
  | _, _, [], _ => .nil
  | _, _, _ :: _, h => .cons ⟨rfl, entry, hentry, h.2.2.1⟩ (shows_visits hentry h.2.2.2)

theorem shows_visitsFrom (h : Chain a parts) : ∀ {ps : List (List Entry)} {i : Nat}, parts.drop i = ps →
    List.Forall₂ (Shows a) ps.flatten (visitsFrom i ps)
  | [], _, _ => .nil
  | es :: ps, i, hdrop => by
    obtain ⟨entry, hentry, hlaid, -, -, hrest⟩ := h.block hdrop
    exact rel_append (shows_visits hentry hlaid) (shows_visitsFrom h hrest)

/-- The traversals give back what has been created, where the length of each entry fits the word of its header: in order, in
reverse order, and up to where a first pass has come, be it that a callback has thrown. -/
theorem traversals_faithful (manager : BufferManager) (entries : List Entry)
    (hlen : ∀ e ∈ entries, e.payload.length ≤ 2 ^ 32 - 8) : ∃ created a,
      createEntries manager entries = some (created, a) ∧ List.Forall₂ (Shows a) entries created ∧
      ∀ (α ε : Type) (callback : α → Visit → Except ε α) (acc : α),
        (iterateEntries callback a acc).2 = created.foldlM callback acc ∧
        reverseIterateEntries callback a acc = created.reverse.foldlM callback acc ∧
        ∀ (β δ : Type) (revert : β → Visit → Except δ β) (acc' : β),
          iterateEntriesUntil revert a (iterateEntries callback a acc).1 acc' =
            (created.take (passed callback acc created)).foldlM revert acc' := by
  obtain ⟨created, a, parts, hcreate, h⟩ :=
    Created.createEntries manager entries ⟨chain_empty, rfl, rfl⟩ hlen
  obtain ⟨hchain, hentries, rfl⟩ := h
  rw [List.flatten_nil, List.nil_append] at hentries
  have hturns : parts.length < a.entries.length + 1 := by
    rw [hchain.length]
    exact Nat.lt_succ_self _
  refine ⟨_, a, hcreate, ?_, fun α ε callback acc => ?_⟩
  · rw [← hentries]
    exact shows_visitsFrom hchain rfl
  obtain ⟨hresult, hstop, hstarted, -⟩ :=
    @iterateBlocks_eq a parts α ε callback hchain parts 0 _ ⟨a.tail, 0, 0, true⟩ acc rfl hturns hchain.tail
  refine ⟨hresult, ?_, fun β δ revert acc' => ?_⟩
  · have hreverse := @reverseIterateBlocks_eq a parts α ε callback hchain _ _ acc le_rfl (Nat.lt_succ_self _)
    rw [← hchain.length, List.take_length] at hreverse
    rw [reverseIterateEntries, hchain.head, ← hchain.length]
    exact hreverse
  · have huntil := @iterateBlocksUntil_eq a parts β δ revert hchain _ parts 0 _ _ acc' rfl hturns hstop
    rw [iterateEntriesUntil, if_neg (by rw [iterateEntries, hstarted]; simp), hchain.tail]
    exact huntil

/-- The lengths of an update, a deletion and a name. -/
theorem traversals_faithful_three : (∀ e ∈ ([⟨.updateTuple, List.replicate 5000 1⟩, ⟨.deleteTuple, []⟩,
    ⟨.catalogEntry, [2, 3, 4]⟩] : List Entry), e.payload.length ≤ 2 ^ 32 - 8) ∧ ∃ created a,
      createEntries ⟨262136, fun _ _ => 0⟩ [⟨.updateTuple, List.replicate 5000 1⟩, ⟨.deleteTuple, []⟩,
        ⟨.catalogEntry, [2, 3, 4]⟩] = some (created, a) ∧
      ∀ (α ε : Type) (callback : α → Visit → Except ε α) (acc : α),
        (iterateEntries callback a acc).2 = created.foldlM callback acc := by
  have hlen : ∀ e ∈ ([⟨.updateTuple, List.replicate 5000 1⟩, ⟨.deleteTuple, []⟩, ⟨.catalogEntry, [2, 3, 4]⟩] : List Entry),
      e.payload.length ≤ 2 ^ 32 - 8 := by
    intro e he
    simp only [List.mem_cons, List.not_mem_nil, or_false] at he
    rcases he with rfl | rfl | rfl
    · show (List.replicate 5000 (1 : UInt8)).length ≤ 2 ^ 32 - 8
      rw [List.length_replicate]
      omega
    · exact Nat.zero_le _
    · show 3 ≤ 2 ^ 32 - 8
      omega
  obtain ⟨created, a, hcreate, -, hpass⟩ := traversals_faithful ⟨262136, fun _ _ => 0⟩ _ hlen
  exact ⟨hlen, created, a, hcreate, fun α ε callback acc => (hpass α ε callback acc).1⟩

end Entries

/-! ## A length that does not fit -/

section Large

/-- The callback that lists what it is given. -/
def collect (acc : List Visit) (v : Visit) : Except Unit (List Visit) := .ok (acc ++ [v])

theorem visitEntries_collect {m : Cells UInt8} {c stop : Nat} : ∀ (start : Nat) (acc : List Visit),
    ∃ found, (visitEntries collect c m stop start acc).2 = .ok found ∧ acc.length ≤ found.length := by
  intro start acc
  rw [visitEntries]
  split
  · obtain ⟨found, hfound, hle⟩ := visitEntries_collect (start + sizeofUndoFlags + sizeofLen + load m (start + sizeofUndoFlags))
      (acc ++ [⟨load m start, ⟨c, start + sizeofUndoFlags + sizeofLen⟩⟩])
    refine ⟨found, hfound, ?_⟩
    rw [length_append] at hle
    omega
  · exact ⟨acc, rfl, le_rfl⟩
termination_by start => stop - start
decreasing_by
  unfold sizeofUndoFlags sizeofLen
  omega

theorem allocate_empty {manager : BufferManager} {allocLen capacity : Nat}
    (h : UndoBufferAllocator.empty.newCapacity manager allocLen = some capacity) :
    UndoBufferAllocator.empty.allocate manager allocLen = some (⟨0, 0⟩,
      ⟨[⟨manager.memory 0, allocLen, capacity, none, none⟩], some 0, some 0⟩) := by
  have hhead : UndoBufferAllocator.empty.headEntry = none := rfl
  rw [UndoBufferAllocator.allocate, hhead]
  dsimp only
  rw [h]
  simp [UndoBufferAllocator.push, UndoBufferAllocator.bump, UndoBufferAllocator.empty]

theorem large_visited {payload : List UInt8} (h : payload.length = 2 ^ 32) : ∃ created a,
    createEntries ⟨262136, fun _ _ => 0⟩ [⟨.catalogEntry, payload⟩] = some (created, a) ∧ created.length = 1 ∧
      (iterateEntries collect a []).2 ≠ .ok created := by
  obtain ⟨capacity, hcapacity, hle⟩ := @nextPowerOfTwo_spec (2 ^ 32 + 8) (by decide)
  have halloc : alignValue (idx (payload.length + undoEntryHeaderSize)) = 2 ^ 32 + 8 := by
    rw [h]
    decide
  have hstored : idx (2 ^ 32 + 8 + 2 ^ 64 - undoEntryHeaderSize) % 2 ^ 32 = 0 := by decide
  have hnew : UndoBufferAllocator.empty.newCapacity ⟨262136, fun _ _ => 0⟩ (2 ^ 32 + 8) = some capacity := by
    rw [← hcapacity]
    rfl
  have hallocate := allocate_empty hnew
  have hcreate : createEntries ⟨262136, fun _ _ => 0⟩ [⟨.catalogEntry, payload⟩] = some ([⟨1, ⟨0, 8⟩⟩],
      ⟨[⟨(store (store (fun _ => 0) 0 1) 4 0).write 8 payload, 2 ^ 32 + 8, capacity, none, none⟩], some 0, some 0⟩) := by
    simp only [createEntries, foldlM_cons, foldlM_nil, create, createEntry, halloc, hallocate, hstored,
      Option.bind_eq_bind, Option.pure_def, Option.bind_some, UndoBufferAllocator.update]
    rfl
  refine ⟨_, _, hcreate, rfl, ?_⟩
  -- the second turn of the loop is behind the header
  have hlen : load ((store (store (fun _ => 0) 0 1) 4 0).write 8 payload) 4 = 0 := by
    rw [load_congr fun i hi => Cells.write_apply_outside (by omega)]
    exact load_store (by decide)
  generalize (store (store (fun _ => 0) 0 1) 4 0).write 8 payload = block at hlen ⊢
  have hheader : sizeofUndoFlags = 4 ∧ sizeofLen = 4 := ⟨rfl, rfl⟩
  have hvisit : ∃ found, (visitEntries collect 0 block (2 ^ 32 + 8) 0 []).2 = .ok found ∧ 2 ≤ found.length := by
    rw [visitEntries, if_pos (by omega)]
    simp only [collect, hheader, zero_add, reduceAdd, hlen, add_zero]
    rw [visitEntries, if_pos (by omega)]
    exact visitEntries_collect _ _
  obtain ⟨found, hfound, htwo⟩ := hvisit
  have hpass : (iterateEntries collect ⟨[⟨block, 2 ^ 32 + 8, capacity, none, none⟩], some 0, some 0⟩ []).2 = .ok found := by
    simp only [iterateEntries, length_singleton, iterateBlocks, Option.bind_some, getElem?_cons_zero,
      Option.map_some, hfound, Option.bind_none]
  rw [hpass]
  intro heq
  have hone : found.length = 1 := by rw [Except.ok.inj heq, length_singleton]
  omega

/-- An entry of 2^32 bytes: two are visited. -/
theorem large_entry_visited : ∃ created a,
    createEntries ⟨262136, fun _ _ => 0⟩ [⟨.catalogEntry, List.replicate (2 ^ 32) 0⟩] = some (created, a) ∧
      created.length = 1 ∧ (iterateEntries collect a []).2 ≠ .ok created :=
  large_visited List.length_replicate

end Large

end Haybarn.Undo
