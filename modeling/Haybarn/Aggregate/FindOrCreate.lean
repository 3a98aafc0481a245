/-
Finding or creating the groups of a chunk, from an index of the rows that the pointer table points to. The entries are
those of a placed table: a round passes entries of other groups, claims free entries for groups that stand nowhere, and
so leaves a placed table, in which the rows of the chunk that are left have passed one more entry each. As the table has
a free entry throughout, every row of the chunk ends at the row of its group.
-/
import Haybarn.Lib.Probe
import Haybarn.Aggregate.HashTable

namespace Haybarn.Aggregate

open Lib Outcome ProbeScheme Function List

variable {G M : Type} {hash : G → Hash} {bits : Nat}

/-! ## Paths of salts -/

theorem saltStride_odd (salt : Hash) : saltStride salt % 2 = 1 := by
  unfold saltStride
  rw [← Nat.and_one_is_mod, Nat.and_or_distrib_right, Nat.and_one_is_mod]
  rcases Nat.mod_two_eq_zero_or_one (salt.toNat >>> 59) with h | h <;> rw [h] <;> rfl

/-- The entries that a group is searched at: from its hash on, with the stride of its salt. -/
def scheme (hash : G → Hash) (bits : Nat) : ProbeScheme G :=
  strideScheme bits (fun g => (hash g).toNat) (fun g => saltStride (extractSalt (hash g))) fun _ => saltStride_odd _

@[simp] theorem scheme_capacity (hash : G → Hash) (bits : Nat) : (scheme hash bits).capacity = 2 ^ bits := rfl

theorem applyBitMask_eq (g : G) : applyBitMask (2 ^ bits) (hash g) = (scheme hash bits).path g 0 := by
  unfold applyBitMask
  rw [Nat.and_two_pow_sub_one_eq_mod]
  simp [scheme, strideScheme, strideSlot]

theorem saltIncrementAndWrap_eq (g : G) (j : Nat) :
    saltIncrementAndWrap (2 ^ bits) (extractSalt (hash g)) ((scheme hash bits).path g j) =
      (scheme hash bits).path g (j + 1) := by
  unfold saltIncrementAndWrap
  rw [Nat.and_two_pow_sub_one_eq_mod]
  exact strideSlot_succ bits _ _ j

/-! ## Entries -/

/-- The entries are taken by the groups of a table, each with the salt of its group. -/
def Salted (hash : G → Hash) (entries : Nat → Entry) (owner : Owner G) : Prop :=
  ∀ s, match owner s with
    | none => entries s = .empty
    | some g => (entries s).isOccupied = true ∧ (entries s).getSalt = extractSalt (hash g)

/-- The entry points to the row of the group, or is free where there is none. -/
def Stands (hash : G → Hash) (memory : List (Row G M)) : Entry → Option G → Prop
  | .empty, o => o = none
  | .claimed _, _ => False
  | .full salt pointer, o => ∃ row, memory[pointer]? = some row ∧ o = some row.group ∧ row.hash = hash row.group ∧
      salt = extractSalt row.hash

section Entries

variable {entries : Nat → Entry} {owner : Owner G} {s : Nat} {g : G}

theorem Salted.of_none (h : Salted hash entries owner) (hs : owner s = none) : entries s = .empty := by
  have := h s
  rwa [hs] at this

theorem Salted.of_some (h : Salted hash entries owner) (hs : owner s = some g) :
    (entries s).isOccupied = true ∧ (entries s).getSalt = extractSalt (hash g) := by
  have := h s
  rwa [hs] at this

theorem Salted.isOccupied_iff (h : Salted hash entries owner) : (entries s).isOccupied = true ↔ owner s ≠ none := by
  cases ho : owner s with
  | none => simp [h.of_none ho, Entry.isOccupied]
  | some g => simp [(h.of_some ho).1]

@[simp] theorem setEntry_self {e : Entry} : HashTable.setEntry entries s e s = e := if_pos rfl

theorem setEntry_of_ne {e : Entry} {s' : Nat} (h : s' ≠ s) : HashTable.setEntry entries s e s' = entries s' := if_neg h

theorem Salted.claim (h : Salted hash entries owner) {e : Entry} (hocc : e.isOccupied = true)
    (hsalt : e.getSalt = extractSalt (hash g)) :
    Salted hash (HashTable.setEntry entries s e) (ProbeScheme.claim owner s g) := by
  intro s'
  by_cases hs : s' = s
  · subst hs
    rw [claim_self, setEntry_self]
    exact ⟨hocc, hsalt⟩
  · rw [claim_of_ne hs, setEntry_of_ne hs]
    exact h s'

theorem salted_of_stands {memory : List (Row G M)} (h : ∀ s, Stands hash memory (entries s) (owner s)) :
    Salted hash entries owner := by
  intro s
  have hs := h s
  cases he : entries s with
  | empty =>
    rw [he] at hs
    rw [show owner s = none from hs]
  | claimed salt =>
    rw [he] at hs
    exact hs.elim
  | full salt pointer =>
    rw [he] at hs
    obtain ⟨row, -, ho, hhash, rfl⟩ := hs
    rw [ho]
    exact ⟨rfl, by rw [← hhash]; rfl⟩

theorem probe_returns (h : Salted hash entries owner) (hfree : ((scheme hash bits).taken owner).card < 2 ^ bits) :
    ∀ {steps j : Nat}, (scheme hash bits).PassedBy owner g j → 2 ^ bits ≤ j + steps →
      (HashTable.probe entries (2 ^ bits) (extractSalt (hash g)) steps ((scheme hash bits).path g j)).Returns fun r =>
        ∃ j' ≥ j, (scheme hash bits).PassedBy owner g j' ∧ r.1 = (scheme hash bits).path g j' ∧
          (r.2 = true → owner r.1 = none) ∧
          (r.2 = false → owner r.1 ≠ none ∧ (entries r.1).getSalt = extractSalt (hash g))
  | 0, j, hp, hsteps => by
    have := hp.lt hfree
    rw [scheme_capacity] at this
    omega
  | steps + 1, j, hp, hsteps => by
    unfold HashTable.probe
    cases ho : owner ((scheme hash bits).path g j) with
    | none =>
      rw [h.of_none ho]
      exact returns_done ⟨j, le_rfl, hp, rfl, fun _ => ho, by simp⟩
    | some g' =>
      obtain ⟨hocc, hsalt⟩ := h.of_some ho
      rw [hocc]
      simp only [Bool.not_true, Bool.false_eq_true, if_false]
      split
      · rename_i heq
        exact returns_done ⟨j, le_rfl, hp, rfl, by simp, fun _ => ⟨by rw [ho]; simp, heq⟩⟩
      · rename_i hne
        have hg : g' ≠ g := by
          rintro rfl
          exact hne hsalt
        rw [saltIncrementAndWrap_eq]
        refine (probe_returns h hfree (hp.succ ho hg) (by omega)).mono ?_
        rintro r ⟨j', hj', hr⟩
        exact ⟨j', by omega, hr⟩

theorem findFree_returns (h : Salted hash entries owner) (hfree : ((scheme hash bits).taken owner).card < 2 ^ bits)
    (habsent : ∀ s, owner s ≠ some g) : ∀ {steps j : Nat}, (scheme hash bits).PassedBy owner g j → 2 ^ bits ≤ j + steps →
      (HashTable.findFree entries (2 ^ bits) (extractSalt (hash g)) steps ((scheme hash bits).path g j)).Returns
        fun offset => ∃ j', (scheme hash bits).PassedBy owner g j' ∧ offset = (scheme hash bits).path g j' ∧
          owner offset = none
  | 0, j, hp, hsteps => by
    have := hp.lt hfree
    rw [scheme_capacity] at this
    omega
  | steps + 1, j, hp, hsteps => by
    unfold HashTable.findFree
    cases ho : owner ((scheme hash bits).path g j) with
    | none =>
      rw [h.of_none ho]
      exact returns_done ⟨j, hp, rfl, ho⟩
    | some g' =>
      rw [(h.of_some ho).1, if_pos rfl, saltIncrementAndWrap_eq]
      have hg : g' ≠ g := by
        rintro rfl
        exact habsent _ ho
      exact findFree_returns h hfree habsent (hp.succ ho hg) (by omega)

end Entries

/-! ## The inner loop -/

section InnerLoop

variable {chunk : Chunk G} {least : Nat} {entries₀ : Nat → Entry} {owner₀ : Owner G}

/-- Where the inner loop stands when the rows `rest` of `sel` are left, in a round in which every row has passed `least`
entries at least: the entries that were taken are as they were, and the others that are taken have been claimed. -/
structure Looped (hash : G → Hash) (bits : Nat) (chunk : Chunk G) (least : Nat) (entries₀ : Nat → Entry)
    (owner₀ : Owner G) (sel rest : List (Fin chunk.size)) (p : HashTable.Probing chunk.size) (owner : Owner G) : Prop where
  salted : Salted hash p.entries owner
  placed : (scheme hash bits).Placed owner
  card : ((scheme hash bits).taken owner).card = ((scheme hash bits).taken owner₀).card + p.emptyVector.length
  kept : ∀ s, owner₀ s ≠ none → p.entries s = entries₀ s ∧ owner s = owner₀ s
  taken : ∀ s, owner₀ s = none → owner s ≠ none → ∃ i ∈ p.emptyVector, p.offsets i = s
  ahead : ∀ i ∈ rest, ∃ j ≥ least, (scheme hash bits).PassedBy owner (chunk.group i) j ∧
    p.offsets i = (scheme hash bits).path (chunk.group i) j
  claimed : ∀ i ∈ p.emptyVector, p.entries (p.offsets i) = .claimed (extractSalt (chunk.hash i)) ∧
    owner (p.offsets i) = some (chunk.group i) ∧ owner₀ (p.offsets i) = none
  met : ∀ i ∈ p.compareVector, ∃ j ≥ least, (scheme hash bits).PassedBy owner (chunk.group i) j ∧
    p.offsets i = (scheme hash bits).path (chunk.group i) j ∧ owner (p.offsets i) ≠ none
  order : (p.emptyVector ++ p.compareVector ++ rest).Perm sel
  slots : (p.emptyVector.map p.offsets).Nodup
  least_lt : rest ≠ sel → least < ((scheme hash bits).taken owner).card

variable {sel rest : List (Fin chunk.size)} {p : HashTable.Probing chunk.size} {owner : Owner G} {i : Fin chunk.size}

theorem Looped.not_mem (h : Looped hash bits chunk least entries₀ owner₀ sel (i :: rest) p owner) (hsel : sel.Nodup) :
    i ∉ p.emptyVector ∧ i ∉ p.compareVector ∧ i ∉ rest := by
  have hnodup := h.order.nodup_iff.2 hsel
  rw [nodup_append] at hnodup
  obtain ⟨-, hrest, hdisj⟩ := hnodup
  refine ⟨fun hi => ?_, fun hi => ?_, (nodup_cons.1 hrest).1⟩
  · exact hdisj i (mem_append_left _ hi) i mem_cons_self rfl
  · exact hdisj i (mem_append_right _ hi) i mem_cons_self rfl

theorem offsets_of_mem {offsets : Fin chunk.size → Nat} {offset : Nat} {l : List (Fin chunk.size)} {i' : Fin chunk.size}
    (hi : i ∉ l) (hi' : i' ∈ l) : update offsets i offset i' = offsets i' :=
  update_of_ne (by rintro rfl; exact hi hi') _ _

theorem Looped.claim (h : Looped hash bits chunk least entries₀ owner₀ sel (i :: rest) p owner) (hsel : sel.Nodup)
    (hhash : ∀ i, chunk.hash i = hash (chunk.group i)) {j : Nat} (hj : least ≤ j) (hj' : j < 2 ^ bits)
    (hp : (scheme hash bits).PassedBy owner (chunk.group i) j)
    (hs : owner ((scheme hash bits).path (chunk.group i) j) = none) :
    Looped hash bits chunk least entries₀ owner₀ sel rest
      { p with
        entries := HashTable.setEntry p.entries ((scheme hash bits).path (chunk.group i) j)
          (.claimed (extractSalt (chunk.hash i)))
        offsets := update p.offsets i ((scheme hash bits).path (chunk.group i) j)
        emptyVector := p.emptyVector ++ [i] }
      (claim owner ((scheme hash bits).path (chunk.group i) j) (chunk.group i)) := by
  obtain ⟨hempty, hcompare, hrest⟩ := h.not_mem hsel
  have hlt : (scheme hash bits).path (chunk.group i) j < (scheme hash bits).capacity := (scheme hash bits).path_lt _ _
  generalize hslot : (scheme hash bits).path (chunk.group i) j = slot at *
  have hcard := card_taken_claim (k := chunk.group i) hs hlt
  have hfree₀ : owner₀ slot = none := by
    by_contra hne
    have := (h.kept slot hne).2
    rw [hs] at this
    exact hne this.symm
  constructor
  · exact h.salted.claim rfl (by rw [← hhash i]; rfl)
  · have := h.placed.claim hp (by rwa [scheme_capacity]) (by rwa [hslot])
    rwa [hslot] at this
  · rw [hcard, h.card]
    simp
    omega
  · intro s hs₀
    have hss : s ≠ slot := by
      rintro rfl
      exact hs₀ hfree₀
    obtain ⟨he, ho⟩ := h.kept s hs₀
    exact ⟨(setEntry_of_ne hss).trans he, (claim_of_ne hss).trans ho⟩
  · intro s hs₀ hs₁
    by_cases hss : s = slot
    · exact ⟨i, by simp, by simp [hss]⟩
    · rw [claim_of_ne hss] at hs₁
      obtain ⟨i', hi', hoff⟩ := h.taken s hs₀ hs₁
      refine ⟨i', mem_append_left _ hi', ?_⟩
      exact (offsets_of_mem hempty hi').trans hoff
  · intro i' hi'
    obtain ⟨j', hj', hp', hoff⟩ := h.ahead i' (mem_cons_of_mem _ hi')
    exact ⟨j', hj', hp'.claim hs, (offsets_of_mem hrest hi').trans hoff⟩
  · intro i' hi'
    rcases mem_append.1 hi' with hi' | hi'
    · obtain ⟨he, ho, ho₀⟩ := h.claimed i' hi'
      have hoff : update p.offsets i slot i' = p.offsets i' := offsets_of_mem hempty hi'
      have hss : p.offsets i' ≠ slot := by
        intro heq
        rw [heq, hs] at ho
        cases ho
      dsimp only
      rw [hoff, claim_of_ne hss, setEntry_of_ne hss]
      exact ⟨he, ho, ho₀⟩
    · rw [mem_singleton] at hi'
      subst hi'
      dsimp only
      rw [update_self, claim_self, setEntry_self]
      exact ⟨rfl, rfl, hfree₀⟩
  · intro i' hi'
    obtain ⟨j', hj', hp', hoff, ho⟩ := h.met i' hi'
    have hoff' : update p.offsets i slot i' = p.offsets i' := offsets_of_mem hcompare hi'
    exact ⟨j', hj', hp'.claim hs, hoff'.trans hoff, by dsimp only; rw [hoff']; exact claim_ne_none ho⟩
  · refine List.Perm.trans ?_ h.order
    simp only [append_assoc]
    have hmiddle : (p.compareVector ++ i :: rest).Perm (i :: (p.compareVector ++ rest)) := perm_middle
    exact List.Perm.append_left _ hmiddle.symm
  · rw [map_append, nodup_append]
    refine ⟨?_, by simp, ?_⟩
    · have hsame : ∀ i' ∈ p.emptyVector, update p.offsets i slot i' = p.offsets i' := fun i' hi' =>
        offsets_of_mem hempty hi'
      rw [map_congr_left hsame]
      exact h.slots
    · rintro s hs₁ s' hs₂ rfl
      obtain ⟨i', hi', rfl⟩ := mem_map.1 hs₁
      simp only [map_cons, map_nil, update_self, mem_singleton] at hs₂
      rw [offsets_of_mem hempty hi'] at hs₂
      have ho := (h.claimed i' hi').2.1
      rw [hs₂, hs] at ho
      cases ho
  · intro _
    have := hp.le_card (by rw [scheme_capacity]; omega)
    omega

theorem Looped.meet (h : Looped hash bits chunk least entries₀ owner₀ sel (i :: rest) p owner) (hsel : sel.Nodup)
    {j : Nat} (hj : least ≤ j) (hj' : j < 2 ^ bits) (hp : (scheme hash bits).PassedBy owner (chunk.group i) j)
    (hs : owner ((scheme hash bits).path (chunk.group i) j) ≠ none) :
    Looped hash bits chunk least entries₀ owner₀ sel rest
      { p with
        offsets := update p.offsets i ((scheme hash bits).path (chunk.group i) j)
        compareVector := p.compareVector ++ [i] } owner := by
  obtain ⟨hempty, hcompare, hrest⟩ := h.not_mem hsel
  constructor
  · exact h.salted
  · exact h.placed
  · exact h.card
  · exact h.kept
  · intro s hs₀ hs₁
    obtain ⟨i', hi', hoff⟩ := h.taken s hs₀ hs₁
    exact ⟨i', hi', (offsets_of_mem hempty hi').trans hoff⟩
  · intro i' hi'
    obtain ⟨j', hj', hp', hoff⟩ := h.ahead i' (mem_cons_of_mem _ hi')
    exact ⟨j', hj', hp', (offsets_of_mem hrest hi').trans hoff⟩
  · intro i' hi'
    dsimp only
    rw [offsets_of_mem hempty hi']
    exact h.claimed i' hi'
  · intro i' hi'
    rcases mem_append.1 hi' with hi' | hi'
    · dsimp only
      rw [offsets_of_mem hcompare hi']
      exact h.met i' hi'
    · rw [mem_singleton] at hi'
      subst hi'
      dsimp only
      rw [update_self]
      exact ⟨j, hj, hp, rfl, hs⟩
  · refine List.Perm.trans ?_ h.order
    simp
  · rw [map_congr_left fun i' hi' => offsets_of_mem hempty hi']
    exact h.slots
  · intro _
    have := hp.lt_card (by rwa [scheme_capacity]) hs
    omega

theorem Looped.start (hstands : Salted hash entries₀ owner₀) (hplaced : (scheme hash bits).Placed owner₀)
    {offsets : Fin chunk.size → Nat} (hahead : ∀ i ∈ sel, ∃ j ≥ least,
      (scheme hash bits).PassedBy owner₀ (chunk.group i) j ∧ offsets i = (scheme hash bits).path (chunk.group i) j) :
    Looped hash bits chunk least entries₀ owner₀ sel sel ⟨entries₀, offsets, [], []⟩ owner₀ := by
  constructor
  case salted => exact hstands
  case placed => exact hplaced
  case ahead => exact hahead
  case taken => exact fun _ h h' => absurd h h'
  all_goals simp

theorem Looped.not_mem_slots (h : Looped hash bits chunk least entries₀ owner₀ sel [] p owner) {s : Nat}
    (hs : owner₀ s ≠ none ∨ owner s = none) : s ∉ p.emptyVector.map p.offsets := by
  intro hmem
  obtain ⟨i, hi, rfl⟩ := mem_map.1 hmem
  obtain ⟨-, ho, ho₀⟩ := h.claimed i hi
  rcases hs with hs | hs
  · exact hs ho₀
  · rw [ho] at hs
    cases hs

theorem probeRow_returns (h : Looped hash bits chunk least entries₀ owner₀ sel (i :: rest) p owner) (hsel : sel.Nodup)
    (hhash : ∀ i, chunk.hash i = hash (chunk.group i))
    (hroom : ((scheme hash bits).taken owner₀).card + sel.length < 2 ^ bits) :
    (HashTable.probeRow (2 ^ bits) (fun i => extractSalt (chunk.hash i)) i p).Returns fun p' =>
      ∃ owner', Looped hash bits chunk least entries₀ owner₀ sel rest p' owner' := by
  obtain ⟨j, hj, hp, hoff⟩ := h.ahead i mem_cons_self
  have hlength := h.order.length_eq
  simp only [length_append, length_cons] at hlength
  have hfree : ((scheme hash bits).taken owner).card < 2 ^ bits := by
    rw [h.card]
    omega
  unfold HashTable.probeRow
  dsimp only
  rw [hhash i, hoff]
  refine (probe_returns h.salted hfree hp (by omega)).bind ?_
  rintro ⟨offset, isFree⟩ ⟨j', hj', hp', rfl, hfreeEntry, hmet⟩
  have hlt : j' < 2 ^ bits := hp'.lt hfree
  dsimp only at hfreeEntry hmet ⊢
  cases isFree with
  | true =>
    rw [← hhash i]
    exact returns_done ⟨_, h.claim hsel hhash (by omega) hlt hp' (hfreeEntry rfl)⟩
  | false => exact returns_done ⟨_, h.meet hsel (by omega) hlt hp' (hmet rfl).1⟩

theorem innerLoop_returns (hsel : sel.Nodup) (hhash : ∀ i, chunk.hash i = hash (chunk.group i))
    (hroom : ((scheme hash bits).taken owner₀).card + sel.length < 2 ^ bits) :
    ∀ {rest : List (Fin chunk.size)} {p : HashTable.Probing chunk.size} {owner : Owner G},
      Looped hash bits chunk least entries₀ owner₀ sel rest p owner →
        (HashTable.innerLoop (2 ^ bits) (fun i => extractSalt (chunk.hash i)) rest p).Returns fun p' =>
          ∃ owner', Looped hash bits chunk least entries₀ owner₀ sel [] p' owner'
  | [], _, _, h => returns_done ⟨_, h⟩
  | _ :: _, _, _, h => (probeRow_returns h hsel hhash hroom).bind fun _ ⟨_, h'⟩ => innerLoop_returns hsel hhash hroom h'

end InnerLoop

end Haybarn.Aggregate
