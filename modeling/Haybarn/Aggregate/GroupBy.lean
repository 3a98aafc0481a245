/-
The table computes a grouping: over every run of chunks that are added and of tables that are combined, whatever their
vectors and their hashes are, it holds one row for each group, with the combination of the inputs of the group, and every
entry is found from the hash of its row. A run in which the query is interrupted while a table is combined ends with that.
-/
import Haybarn.Aggregate.Remembered

namespace Haybarn.Aggregate

open Lib Outcome ProbeScheme HashTable List

variable {G M : Type} {hash : G → Hash} {bits : Nat} {t t' : HashTable G M} {owner : Owner G}
  {dictionaries : Dictionaries G}

/-! ## What the table shows -/

namespace HashTable

/-- The number of entries that are occupied. -/
def occupied (t : HashTable G M) : Nat := ((List.range t.capacity).filter fun s => (t.entries s).isOccupied).length

/-- The entry that a search from the hash is at after some steps. -/
def probeSlot (capacity : Nat) (hash : Hash) : Nat → Nat
  | 0 => applyBitMask capacity hash
  | j + 1 => saltIncrementAndWrap capacity (extractSalt hash) (probeSlot capacity hash j)

/-- Every entry that is occupied points to a row that the table holds, and a search from the hash of the row is at the
entry before it is at a free one. -/
def Probed (t : HashTable G M) : Prop := ∀ s < t.capacity, (t.entries s).isOccupied = true →
  ∃ p row, t.entries s = .full (extractSalt row.hash) p ∧ p ∈ t.held ∧ t.memory[p]? = some row ∧
    ∃ j < t.capacity, probeSlot t.capacity row.hash j = s ∧
      ∀ i < j, (t.entries (probeSlot t.capacity row.hash i)).isOccupied = true

end HashTable

theorem probeSlot_eq (g : G) : ∀ j, probeSlot (2 ^ bits) (hash g) j = (scheme hash bits).path g j
  | 0 => applyBitMask_eq g
  | j + 1 => by rw [probeSlot, probeSlot_eq g j, saltIncrementAndWrap_eq]

theorem Indexed.occupied_eq (h : Indexed hash bits t owner) : t.occupied = t.count := by
  rw [h.count, occupied, h.capacity, taken, Finset.card_def, Finset.filter_val, ← Multiset.countP_eq_card_filter]
  have hocc : ∀ s, (t.entries s).isOccupied = (owner s).isSome := by
    intro s
    rw [Bool.eq_iff_iff, (salted_of_stands h.stands).isOccupied_iff, Option.isSome_iff_ne_none]
  simp only [hocc, Finset.range_val, scheme_capacity, Multiset.range, Multiset.coe_countP]
  rw [countP_eq_length_filter]
  simp

theorem Indexed.probed (h : Indexed hash bits t owner) (hexact : t.Exact) : t.Probed := by
  intro s _ hocc
  have hsalted := salted_of_stands h.stands
  obtain ⟨g, hg⟩ := Option.ne_none_iff_exists'.1 (hsalted.isOccupied_iff.1 hocc)
  have hstands := h.stands s
  cases he : t.entries s with
  | empty =>
    rw [he] at hocc
    cases hocc
  | claimed salt =>
    rw [he] at hstands
    exact hstands.elim
  | full salt p =>
    rw [he] at hstands
    obtain ⟨row, hrow, ho, hhash, rfl⟩ := hstands
    rw [hg, Option.some.injEq] at ho
    subst ho
    obtain ⟨j, hj, hpath, hbefore⟩ := h.placed.reach s _ hg
    refine ⟨p, row, rfl, (hexact.live p).2 ⟨s, _, he⟩, hrow, j, ?_, ?_, ?_⟩
    · rw [h.capacity]
      exact hj
    · rw [h.capacity, hhash, probeSlot_eq, hpath]
    · intro i hi
      rw [h.capacity, hhash, probeSlot_eq, hsalted.isOccupied_iff]
      exact hbefore i hi

/-! ## Calls -/

/-- A call of the table. -/
inductive Request (G M : Type) where
  | addChunk (groups : Groups G) (payload : Fin groups.size → M)
  /-- The data of another table, in the chunks in which it is scanned, each with what the check before it sees. -/
  | combine (data : List (Bool × List (Row G M)))

namespace Request

/-- The groups of the rows, with the values that they add. -/
def inputs : Request G M → List (G × M)
  | addChunk groups payload => chunkInputs groups.group payload
  | combine data => (data.flatMap Prod.snd).map fun row => (row.group, row.state)

/-- The other table has rows, and a check sees that the query was interrupted. -/
def Interrupted : Request G M → Prop
  | addChunk _ _ => False
  | combine data => data.flatMap Prod.snd ≠ [] ∧ ∃ chunk ∈ data, chunk.1 = true

/-- Chunks fit a vector, a name of a dictionary is that of one dictionary, and the rows of another table are stored with
the hashes of their groups. -/
def Valid (hash : G → Hash) (dictionaries : Dictionaries G) : Request G M → Prop
  | addChunk groups _ => groups.size ≤ standardVectorSize ∧ groups.Names dictionaries
  | combine data => ∀ chunk ∈ data, chunk.2.length ≤ standardVectorSize ∧ ∀ row ∈ chunk.2, row.hash = hash row.group

/-- The call with flat vectors. -/
def plain : Request G M → Request G M
  | addChunk groups payload => addChunk (.flat groups.size groups.group) payload
  | combine data => combine data

theorem inputs_plain (r : Request G M) : r.plain.inputs = r.inputs := by cases r <;> rfl

theorem interrupted_plain (r : Request G M) : r.plain.Interrupted ↔ r.Interrupted := by cases r <;> rfl

theorem Valid.plain {r : Request G M} (h : r.Valid hash dictionaries) : r.plain.Valid hash dictionaries := by
  cases r with
  | addChunk groups payload => exact ⟨h.1, trivial⟩
  | combine data => exact h

end Request

theorem chunkInputs_get (rows : List (Row G M)) :
    chunkInputs (fun i => (rows.get i).group) (fun i => (rows.get i).state) =
      rows.map fun row => (row.group, row.state) := by
  unfold chunkInputs
  rw [← ofFn_eq_map]
  conv_rhs => rw [← ofFn_get rows, map_ofFn]
  rfl

section Run

variable [DecidableEq G] [CommMonoid M]

/-- A call is served, and the number of new groups noted that it returns. -/
def serve (hash : G → Hash) (s : HashTable G M × List Nat) : Request G M → Outcome (HashTable G M × List Nat)
  | .addChunk groups payload => do
    let (t, newGroupCount) ← addChunk hash s.1 groups payload
    done (t, s.2 ++ [newGroupCount])
  | .combine data => do
    let t ← s.1.combine data
    done (t, s.2)

/-- The calls of an empty table. -/
def run (hash : G → Hash) (aggregatesEmpty : Bool) (initialCapacity radixBits : Nat) (requests : List (Request G M)) :
    Outcome (HashTable G M × List Nat) := do
  let t ← create aggregatesEmpty initialCapacity radixBits
  serveAll (serve hash) (t, []) requests

/-- The numbers of new groups that the calls are to return. -/
def newCounts : List (G × M) → List (Request G M) → List Nat
  | _, [] => []
  | seen, .addChunk groups payload :: requests =>
    newKeys seen (chunkInputs groups.group payload) :: newCounts (seen ++ chunkInputs groups.group payload) requests
  | seen, .combine data :: requests =>
    newCounts (seen ++ Request.inputs (.combine data)) requests

omit [CommMonoid M] in
theorem newCounts_cons (seen : List (G × M)) (r : Request G M) (requests : List (Request G M)) :
    newCounts seen (r :: requests) = newCounts seen [r] ++ newCounts (seen ++ r.inputs) requests := by
  cases r <;> rfl

/-! ## Runs -/

/-- The table has computed the grouping of the inputs. -/
structure Computes (hash : G → Hash) (dictionaries : Dictionaries G) (t : HashTable G M) (inputs : List (G × M)) :
    Prop where
  indexed : ∃ bits owner, standardVectorSize ≤ 2 ^ bits ∧ Indexed hash bits t owner
  exact : t.Exact
  stored : Stored hash t
  cached : Cached dictionaries t
  lookups : t.skipLookups = false
  aggregates : t.aggregatesEmpty = true → Subsingleton M
  keys : ∀ g, g ∈ t.contents.map Prod.fst ↔ g ∈ inputs.map Prod.fst
  values : ∀ g, groupProd t.contents g = groupProd inputs g

variable {inputs new : List (G × M)}

theorem Computes.ready (h : Computes hash dictionaries t inputs) {size : Nat} (hsize : size ≤ standardVectorSize) :
    ∃ bits, standardVectorSize ≤ 2 ^ bits ∧ Ready hash t size (Looked hash bits t) := by
  obtain ⟨bits, owner, hbits, hi⟩ := h.indexed
  have hfinds : Finds hash t size (Looked hash bits t) :=
    finds_lookups hi h.stored (fun p => (h.exact.live p).2) (hsize.trans hbits) h.lookups fun _ _ => h.exact
  exact ⟨bits, hbits, h.stored, hfinds, h.aggregates⟩

theorem Computes.taken (h : Computes hash dictionaries t inputs) (hbits : standardVectorSize ≤ 2 ^ bits) {n : Nat}
    (ht : Taken hash dictionaries t new (Looked hash bits t) (t', n)) : Computes hash dictionaries t' (inputs ++ new) := by
  obtain ⟨bits', hle, owner', hi'⟩ := ht.post.indexed
  constructor
  · exact ⟨bits', owner', hbits.trans (Nat.pow_le_pow_right (by omega) hle), hi'⟩
  · exact ht.post.exact h.exact
  · exact ht.stored
  · exact ht.cached
  · exact ht.took.skipLookups.trans h.lookups
  · rw [ht.took.aggregatesEmpty]
    exact h.aggregates
  · intro g
    rw [ht.took.keys, h.keys, map_append, mem_append]
  · intro g
    rw [ht.took.values, h.values, groupProd_append]

theorem Computes.grouped (h : Computes hash dictionaries t inputs) : Grouped t.contents inputs := by
  obtain ⟨bits, owner, -, hi⟩ := h.indexed
  have hnodup : (t.contents.map Prod.fst).Nodup := by
    rw [contents, rowsAt, List.Nodup, pairwise_map, pairwise_filterMap]
    refine h.exact.nodup.imp_of_mem fun {p p'} hp hp' hne => ?_
    intro x hx x' hx' heq
    simp only [Option.map_eq_some_iff] at hx hx'
    obtain ⟨row, hrow, rfl⟩ := hx
    obtain ⟨row', hrow', rfl⟩ := hx'
    exact hne (hi.live_inj ((h.exact.live p).1 hp) ((h.exact.live p').1 hp') hrow hrow' heq)
  refine ⟨hnodup, h.keys, fun g m hx => ?_⟩
  rw [← h.values, groupProd_of_mem hnodup hx]

theorem Computes.length_contents (h : Computes hash dictionaries t inputs) : t.contents.length = t.count := by
  obtain ⟨bits, owner, -, hi⟩ := h.indexed
  rw [← hi.length_held h.exact, contents, rowsAt, length_filterMap_eq_countP, countP_eq_length]
  intro p hp
  obtain ⟨row, hrow, -⟩ := hi.row ((h.exact.live p).1 hp)
  rw [hrow]
  rfl

theorem Computes.newCount (h : Computes hash dictionaries t inputs) (hbits : standardVectorSize ≤ 2 ^ bits) {n : Nat}
    (ht : Taken hash dictionaries t new (Looked hash bits t) (t', n)) : n = newKeys inputs new := by
  have h' := h.taken hbits ht
  have hcount := ht.post.count
  rw [← h.length_contents, ← h'.length_contents, h.grouped.length, h'.grouped.length] at hcount
  exact newKeys_eq hcount

theorem computes_fresh (hash : G → Hash) (dictionaries : Dictionaries G) {aggregatesEmpty : Bool} (radixBits : Nat)
    (hbits : standardVectorSize ≤ 2 ^ bits) (haggregates : aggregatesEmpty = true → Subsingleton M) :
    Computes hash dictionaries (fresh aggregatesEmpty (2 ^ bits) radixBits : HashTable G M) [] := by
  constructor
  case indexed => exact ⟨bits, _, hbits, indexed_empty parted_fresh rfl (fun _ => rfl) rfl⟩
  case exact => exact exact_fresh
  case stored => exact stored_fresh
  case cached => exact fun hne => absurd rfl hne
  case lookups => rfl
  case aggregates => exact haggregates
  all_goals simp [contents_fresh]

theorem Computes.sinkCount (h : Computes hash dictionaries t inputs) (n : Nat) :
    Computes hash dictionaries { t with sinkCount := n } inputs := by
  obtain ⟨bits, owner, hbits, hi⟩ := h.indexed
  exact { h with
    indexed := ⟨bits, owner, hbits, { hi with parted := { hi.parted with } }⟩
    exact := { h.exact with }
    stored := { h.stored with parted := { h.stored.parted with } } }

theorem combineChunks_returns : ∀ {data : List (Bool × List (Row G M))} {t : HashTable G M} {inputs : List (G × M)},
    Computes hash dictionaries t inputs → (Request.combine data).Valid hash dictionaries →
      (∀ chunk ∈ data, chunk.1 = false) → (combineChunks data t).Returns fun t' =>
        Computes hash dictionaries t' (inputs ++ (Request.combine data).inputs)
  | [], t, inputs, h, _, _ => returns_done (by simpa [Request.inputs] using h)
  | (interrupted, rows) :: data, t, inputs, h, hvalid, hnone => by
    obtain ⟨hsize, hhash⟩ := hvalid _ mem_cons_self
    obtain rfl : interrupted = false := hnone _ mem_cons_self
    obtain ⟨bits, hbits, hready⟩ := h.ready hsize
    refine (combineChunk_returns hready h.cached hhash).bind ?_
    rintro t' ⟨n, ha⟩
    have h' := h.taken hbits ha
    rw [chunkInputs_get] at h'
    refine (combineChunks_returns h' (fun rows hrows => hvalid rows (mem_cons_of_mem _ hrows))
      fun chunk hchunk => hnone chunk (mem_cons_of_mem _ hchunk)).mono ?_
    rintro t'' h''
    simpa [Request.inputs] using h''

theorem combineChunks_interrupted : ∀ {data : List (Bool × List (Row G M))} {t : HashTable G M} {inputs : List (G × M)},
    Computes hash dictionaries t inputs → (Request.combine data).Valid hash dictionaries →
      (∃ chunk ∈ data, chunk.1 = true) → combineChunks data t = interrupt
  | (true, _) :: _, _, _, _, _, _ => rfl
  | (false, rows) :: data, t, inputs, h, hvalid, hseen => by
    obtain ⟨hsize, hhash⟩ := hvalid _ mem_cons_self
    obtain ⟨bits, hbits, hready⟩ := h.ready hsize
    obtain ⟨t', hdone, n, ha⟩ := combineChunk_returns hready h.cached hhash
    have hstep : combineChunks ((false, rows) :: data) t = combineChunks data t' := by
      rw [combineChunks, if_neg nofun, hdone, done_bind]
    rw [hstep]
    refine combineChunks_interrupted (h.taken hbits ha) (fun rows hrows => hvalid rows (mem_cons_of_mem _ hrows)) ?_
    simpa using hseen

theorem combine_returns {data : List (Bool × List (Row G M))} (h : Computes hash dictionaries t inputs)
    (hvalid : (Request.combine data).Valid hash dictionaries) (hnone : ¬ (Request.combine data).Interrupted) :
    (t.combine data).Returns fun t' => Computes hash dictionaries t' (inputs ++ (Request.combine data).inputs) := by
  unfold combine
  split
  · rename_i hempty
    rw [length_eq_zero_iff] at hempty
    exact returns_done (by simpa [Request.inputs, hempty] using h)
  · rename_i hrows
    refine combineChunks_returns h hvalid fun chunk hchunk => Bool.eq_false_iff.2 fun hseen => hnone ?_
    exact ⟨fun hnil => hrows (length_eq_zero_iff.2 hnil), chunk, hchunk, hseen⟩

/-- A call that is not interrupted. -/
theorem serve_returns {counts : List Nat} {r : Request G M} (h : Computes hash dictionaries t inputs)
    (hvalid : r.Valid hash dictionaries) (hnone : ¬ r.Interrupted) :
    (serve hash (t, counts) r).Returns fun (t', counts') =>
      Computes hash dictionaries t' (inputs ++ r.inputs) ∧ counts' = counts ++ newCounts inputs [r] := by
  cases r with
  | addChunk groups payload =>
    obtain ⟨hsize, hname⟩ := hvalid
    have h₀ := h.sinkCount (t.sinkCount + groups.size)
    obtain ⟨bits, hbits, hready⟩ := h₀.ready hsize
    refine (addChunk_returns rfl hready h₀.cached hname payload).bind ?_
    rintro ⟨t', n⟩ ha
    exact returns_done ⟨h₀.taken hbits ha, by rw [h₀.newCount hbits ha]; rfl⟩
  | combine data =>
    refine (combine_returns h hvalid hnone).bind ?_
    rintro t' h'
    exact returns_done ⟨h', (append_nil counts).symm⟩

theorem serveAll_returns : ∀ {requests : List (Request G M)} {t : HashTable G M} {inputs : List (G × M)} {counts : List Nat},
    Computes hash dictionaries t inputs → (∀ r ∈ requests, r.Valid hash dictionaries) →
      (∀ r ∈ requests, ¬ r.Interrupted) → (serveAll (serve hash) (t, counts) requests).Returns fun (t', counts') =>
        Computes hash dictionaries t' (inputs ++ requests.flatMap Request.inputs) ∧
          counts' = counts ++ newCounts inputs requests
  | [], t, inputs, counts, h, _, _ => returns_done ⟨by simpa using h, by simp [newCounts]⟩
  | r :: requests, t, inputs, counts, h, hvalid, hnone => by
    refine (serve_returns h (hvalid r mem_cons_self) (hnone r mem_cons_self)).bind ?_
    rintro ⟨t', counts'⟩ ⟨h', rfl⟩
    refine (serveAll_returns h' (fun r hr => hvalid r (mem_cons_of_mem _ hr))
      fun r hr => hnone r (mem_cons_of_mem _ hr)).mono ?_
    rintro ⟨t'', counts''⟩ ⟨h'', rfl⟩
    refine ⟨?_, by rw [newCounts_cons inputs r requests, append_assoc]⟩
    rwa [append_assoc] at h''

theorem serveAll_interrupted : ∀ {requests : List (Request G M)} {t : HashTable G M} {inputs : List (G × M)}
    {counts : List Nat}, Computes hash dictionaries t inputs → (∀ r ∈ requests, r.Valid hash dictionaries) →
      (∃ r ∈ requests, r.Interrupted) → serveAll (serve hash) (t, counts) requests = interrupt
  | r :: requests, t, inputs, counts, h, hvalid, hseen => by
    have hr := hvalid r mem_cons_self
    rw [serveAll]
    by_cases hfirst : r.Interrupted
    · cases r with
      | addChunk groups payload => exact hfirst.elim
      | combine data =>
        have hrows : ¬ (data.flatMap Prod.snd).length = 0 := fun hzero => hfirst.1 (length_eq_zero_iff.1 hzero)
        have hcombine : t.combine data = interrupt := by
          rw [combine, if_neg hrows]
          exact combineChunks_interrupted h hr hfirst.2
        rw [serve, hcombine]
        rfl
    · have hserve : (serve hash (t, counts) r).Returns _ := serve_returns h hr hfirst
      obtain ⟨⟨t', counts'⟩, hdone, h', -⟩ := hserve
      rw [hdone, done_bind]
      refine serveAll_interrupted h' (fun r hr => hvalid r (mem_cons_of_mem _ hr)) ?_
      obtain ⟨r', hr', hi⟩ := hseen
      rcases mem_cons.1 hr' with rfl | hr'
      · exact absurd hi hfirst
      · exact ⟨r', hr', hi⟩

theorem run_returns {aggregatesEmpty : Bool} (radixBits : Nat) {requests : List (Request G M)}
    (hbits : standardVectorSize ≤ 2 ^ bits) (haggregates : aggregatesEmpty = true → Subsingleton M)
    (hvalid : ∀ r ∈ requests, r.Valid hash dictionaries) (hnone : ∀ r ∈ requests, ¬ r.Interrupted) :
    (run hash aggregatesEmpty (2 ^ bits) radixBits requests).Returns fun (t, counts) =>
      Computes hash dictionaries t (requests.flatMap Request.inputs) ∧ counts = newCounts [] requests := by
  have h := computes_fresh hash dictionaries radixBits hbits haggregates
  unfold run
  rw [create_eq, done_bind]
  refine (serveAll_returns h hvalid hnone).mono ?_
  rintro ⟨t', counts⟩ ⟨h', rfl⟩
  exact ⟨h', rfl⟩

omit [CommMonoid M] in
theorem newCounts_plain : ∀ (seen : List (G × M)) (requests : List (Request G M)),
    newCounts seen (requests.map Request.plain) = newCounts seen requests
  | _, [] => rfl
  | _, .addChunk _ _ :: requests => congrArg₂ cons rfl (newCounts_plain _ requests)
  | _, .combine _ :: requests => newCounts_plain _ requests

/-- Over every run of calls on an empty table, for every hash function, the table computes the grouping of the inputs.
If the query is interrupted while a table is combined, the run ends with that. Otherwise no call raises an error, every
group has one row with the combination of its inputs, every entry is found from its hash before a free one, the count is
that of the occupied entries, every call returns the number of groups that are new, and the table is that of the same
calls with flat vectors. -/
theorem run_computes_groupBy (hash : G → Hash) (dictionaries : Dictionaries G) (aggregatesEmpty : Bool)
    (bits radixBits : Nat) (requests : List (Request G M)) (hbits : standardVectorSize ≤ 2 ^ bits)
    (haggregates : aggregatesEmpty = true → Subsingleton M) (hvalid : ∀ r ∈ requests, r.Valid hash dictionaries) :
    ((∃ r ∈ requests, r.Interrupted) → run hash aggregatesEmpty (2 ^ bits) radixBits requests = interrupt) ∧
    ((∀ r ∈ requests, ¬ r.Interrupted) →
      ∃ t counts, run hash aggregatesEmpty (2 ^ bits) radixBits requests = done (t, counts) ∧
        Grouped t.contents (requests.flatMap Request.inputs) ∧ t.Probed ∧ t.count = t.occupied ∧
        counts = newCounts [] requests ∧
        ∃ t₀, run hash aggregatesEmpty (2 ^ bits) radixBits (requests.map Request.plain) = done (t₀, counts) ∧
          t₀.contents.Perm t.contents) := by
  refine ⟨fun hseen => ?_, fun hnone => ?_⟩
  · have h := computes_fresh hash dictionaries radixBits hbits haggregates
    rw [run, create_eq, done_bind]
    exact serveAll_interrupted h hvalid hseen
  obtain ⟨⟨t, counts⟩, hrun, h, rfl⟩ := run_returns radixBits hbits haggregates hvalid hnone
  have hplain : ∀ r ∈ requests.map Request.plain, ∃ r' ∈ requests, r'.plain = r := fun r => List.mem_map.1
  have hvalid₀ : ∀ r ∈ requests.map Request.plain, r.Valid hash dictionaries := by
    intro r hr
    obtain ⟨r', hr', rfl⟩ := hplain r hr
    exact (hvalid r' hr').plain
  have hnone₀ : ∀ r ∈ requests.map Request.plain, ¬ r.Interrupted := by
    intro r hr
    obtain ⟨r', hr', rfl⟩ := hplain r hr
    exact r'.interrupted_plain.not.2 (hnone r' hr')
  obtain ⟨⟨t₀, counts₀⟩, hrun₀, h₀, rfl⟩ := run_returns radixBits hbits haggregates hvalid₀ hnone₀
  rw [newCounts_plain] at hrun₀
  obtain ⟨bits', owner, -, hi⟩ := h.indexed
  refine ⟨t, _, hrun, h.grouped, hi.probed h.exact, hi.occupied_eq.symm, rfl, t₀, hrun₀, ?_⟩
  have hinputs : (requests.map Request.plain).flatMap Request.inputs = requests.flatMap Request.inputs := by
    rw [List.flatMap_map]
    exact List.flatMap_congr fun r _ => r.inputs_plain
  rw [hinputs] at h₀
  exact h₀.grouped.perm h.grouped

end Run

/-- A constant chunk, a chunk over a dictionary with a name and the data of another table, where all hashes collide. -/
theorem run_computes_groupBy_collisions :
    let requests : List (Request Nat Nat) := [
      .addChunk (.constant 3 5) fun _ => 2,
      .addChunk (.dictionary 2 true "d" (fun k => k + 5) 4 fun i => ⟨i % 2, Nat.mod_lt _ (by decide)⟩) fun i => i + 1,
      .combine [(false, [⟨0, 6, 7⟩, ⟨0, 9, 2⟩])]]
    ∃ t counts, run (fun _ => 0) false (2 ^ 12) 4 requests = done (t, counts) ∧
      Grouped t.contents (requests.flatMap Request.inputs) ∧ t.Probed ∧ t.count = t.occupied ∧
      counts = newCounts [] requests ∧
      ∃ t₀, run (fun _ => 0) false (2 ^ 12) 4 (requests.map Request.plain) = done (t₀, counts) ∧
        t₀.contents.Perm t.contents := by
  intro requests
  have hvalid : ∀ r ∈ requests, r.Valid (fun _ => 0) fun _ => ⟨2, fun k => (k : Nat) + 5⟩ := by
    simp [requests, Request.Valid, Groups.size, Groups.Names, standardVectorSize]
  have hnone : ∀ r ∈ requests, ¬ r.Interrupted := by simp [requests, Request.Interrupted]
  exact (run_computes_groupBy (fun _ => 0) _ false 12 4 requests (by decide) (fun h => by cases h) hvalid).2 hnone

/-- A call raises an error when the query is interrupted. -/
theorem run_interrupted :
    ¬ ∀ requests : List (Request Unit Nat),
      (∀ r ∈ requests, r.Valid (fun _ => 0) fun _ => ⟨0, Fin.elim0⟩) →
        ∃ t counts, run (fun _ => 0) false (2 ^ 11) 0 requests = done (t, counts) := by
  intro h
  obtain ⟨t, counts, hrun⟩ := h [.combine [(true, [⟨0, (), 1⟩])]] (by simp [Request.Valid, standardVectorSize])
  have hinterrupt : run (fun _ => 0) false (2 ^ 11) 0
      ([.combine [(true, [⟨0, (), 1⟩])]] : List (Request Unit Nat)) = interrupt := rfl
  rw [hinterrupt] at hrun
  cases hrun

end Haybarn.Aggregate
