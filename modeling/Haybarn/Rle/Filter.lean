/-
Filters over runs. A filter that is tested once for each run leaves the rows that it would leave if it were tested for each
row. When no run passes, a call does not move the state; from then on the state lags behind, but none of the rows that it is
at, nor any other row of the segment, passes.
-/
import Haybarn.Rle.Scan

namespace Haybarn.Rle

open Lib Lib.RunLength Outcome List

variable {T : Type} {type : FixedWidth T} {runs : List (T × Nat)} {base s s' : RLEScanState T} {r k n : Nat}
  {filter : T → Bool}

/-! ## Rows that pass -/

/-- The row passes the filter. -/
def Passes (filter : T → Bool) (values : List T) (row : Nat) : Bool := values[row]?.any filter

variable {values : List T}

theorem passes_of_getElem? {row : Nat} {v : T} (h : values[row]? = some v) :
    Passes filter values row = filter v := by
  unfold Passes
  rw [h, Option.any_some]

theorem passes_eq_false (h : ∀ v ∈ values, filter v = false) (row : Nat) :
    Passes filter values row = false := by
  unfold Passes
  cases hrow : values[row]? with
  | none => rfl
  | some v => exact h v (mem_of_getElem? hrow)

theorem forall_expand {P : T → Prop} (h : ∀ run ∈ runs, P run.1) : ∀ v ∈ expand runs, P v := by
  intro v hv
  obtain ⟨run, hrun, hmem⟩ := mem_flatMap.1 hv
  rw [eq_of_mem_replicate hmem]
  exact h run hrun

/-! ## The test of the runs -/

/-- The filter has been executed over the runs. -/
structure Executed (filter : T → Bool) (runs : List (T × Nat)) (s : RLEScanState T) : Prop where
  some : s.matchingRuns.isSome = true
  passes : ∀ e run, runs[e]? = .some run → (s.matchingRuns.getD fun _ => false) e = filter run.1
  none : s.matchingRunCount = 0 → ∀ run ∈ runs, filter run.1 = false

/-- Whichever call executes the filter, all calls after it find it executed. -/
theorem executeFilter_spec (hp : Pointers type runs base) (hbase : base.matchingRuns = none ∨ Executed filter runs base)
    (h : Reading runs base s r) : ∃ base', Pointers type runs base' ∧ Executed filter runs base'
      ∧ Reading runs base' (executeFilter type filter s) r := by
  rcases hbase with hnone | hexecuted
  · have hsome : ∀ e run, runs[e]? = some run → e < (base.rleCountOffset - rleHeaderSize) / type.size
        ∧ filter (base.dataPointer e) = filter run.1 := by
      intro e run hrun
      have hlt := (List.getElem?_eq_some_iff.1 hrun).1
      have htested := hp.tested
      exact ⟨by omega, by rw [hp.data e run hrun]⟩
    refine ⟨executeFilter type filter base, ?_, ?_, ?_⟩
    · unfold executeFilter
      rw [hnone]
      exact ⟨hp.data, hp.index, hp.count_lt, hp.filled, hp.length_le, hp.tested⟩
    · unfold executeFilter
      rw [hnone]
      constructor
      · rfl
      · intro e run hrun
        obtain ⟨hlt, hpasses⟩ := hsome e run hrun
        simp [hlt, hpasses]
      · intro hcount run hrun
        obtain ⟨e, he⟩ := List.mem_iff_getElem?.1 hrun
        obtain ⟨hlt, hpasses⟩ := hsome e run he
        rw [← hpasses]
        simpa using List.countP_eq_zero.1 hcount e (List.mem_range.2 hlt)
    · have hs : s.matchingRuns = none := by rw [h.same, hnone]
      refine ⟨?_, ?_⟩
      · unfold executeFilter
        rw [hs, hnone, h.same]
      · unfold executeFilter
        rw [hs]
        exact h.place
  · refine ⟨base, hp, hexecuted, ?_⟩
    obtain ⟨g, hg⟩ := Option.isSome_iff_exists.1 hexecuted.some
    have hs : s.matchingRuns = some g := by rw [h.same, hg]
    unfold executeFilter
    rw [hs]
    exact h

theorem Executed.at (h : Executed filter runs base) (hp : Pointers type runs base) (hs : Reading runs base s r)
    (hr : r < (expand runs).length) : (base.matchingRuns.getD fun _ => false) s.entryPos = filter s.element := by
  obtain ⟨run, hrun, -, -, -, helement, -⟩ := hs.run hp hr
  rw [helement]
  exact h.passes _ _ hrun

/-! ## Filters without a selection -/

/-- What a filter leaves of the first `m` rows: those that pass, with their values. -/
structure Left (filter : T → Bool) (values : List T) (r m : Nat) (data : Nat → T) (matching : List Nat) : Prop where
  matching_eq : matching = (List.range m).filter fun i => Passes filter values (r + i)
  values : ∀ i ∈ matching, values[r + i]? = some (data i)

theorem Left.run {m c : Nat} {data : Nat → T} {matching : List Nat} {v : T}
    (h : Left filter values r m data matching) (hv : ∀ i < c, values[r + m + i]? = some v) :
    Left filter values r (m + c) (if filter v = true then fillData data m c v else data)
      (if filter v = true then matching ++ range' m c else matching) := by
  have hpasses : ∀ i < c, Passes filter values (r + (m + i)) = filter v := fun i hi => by
    rw [← Nat.add_assoc]
    exact passes_of_getElem? (hv i hi)
  have hrange : (range (m + c)).filter (fun i => Passes filter values (r + i)) = matching
      ++ if filter v = true then range' m c else [] := by
    rw [range_add, filter_append, ← h.matching_eq, range'_eq_map_range]
    congr 1
    split
    next hpass =>
      rw [filter_eq_self]
      intro i hi
      obtain ⟨j, hj, rfl⟩ := mem_map.1 hi
      rw [hpasses j (mem_range.1 hj), hpass]
    next hpass =>
      rw [filter_eq_nil_iff]
      intro i hi
      obtain ⟨j, hj, rfl⟩ := mem_map.1 hi
      rwa [hpasses j (mem_range.1 hj)]
  constructor
  · rw [hrange]
    split
    · rfl
    · rw [append_nil]
  · split
    · intro i hi
      rw [fillData_apply]
      split
      · have hvalue := hv (i - m) (by omega)
        rwa [show r + m + (i - m) = r + i by omega] at hvalue
      · refine h.values i ((mem_append.1 hi).resolve_right fun hmem => ?_)
        obtain ⟨hle, hlt⟩ := mem_range'_1.1 hmem
        omega
    · exact h.values

theorem filterTurn_spec (hp : Pointers type runs base) (hexecuted : Executed filter runs base) {m : Nat} {data : Nat → T}
    {matching : List Nat} (hm : m < n) (hr : r + n ≤ (expand runs).length) (h : Reading runs base s (r + m))
    (hleft : Left filter (expand runs) r m data matching) :
    (filterTurn (base.matchingRuns.getD fun _ => false) n (s, data, m, matching)).Returns fun p => ∃ m', m < m' ∧ m' ≤ n
      ∧ p.2.2.1 = m' ∧ Reading runs base p.1 (r + m') ∧ Left filter (expand runs) r m' p.2.1 p.2.2.2 := by
  have hlt : r + m < (expand runs).length := by omega
  obtain ⟨run, -, hpos, -, -, -, hcount, hfits, -⟩ := h.run hp hlt
  have hemit : ∀ c ≤ s.runCount, Left filter (expand runs) r (m + c)
      (if filter s.element = true then (fillData data m c s.element, matching ++ range' m c) else (data, matching)).1
      (if filter s.element = true then (fillData data m c s.element, matching ++ range' m c) else (data, matching)).2 := by
    intro c hc
    have hrun := hleft.run fun i (hi : i < c) => h.elements hp hlt (show i < s.runCount by omega)
    split
    next hpass => simpa [hpass] using hrun
    next hpass => simpa [hpass] using hrun
  unfold filterTurn
  dsimp only
  rw [hexecuted.at hp h hlt]
  split
  next hend =>
    refine returns_done ⟨n, hm, Nat.le_refl n, rfl, ?_, ?_⟩
    · have hmoved := h.advance hp hlt hend
      rwa [show r + m + (n - m) = r + n by omega] at hmoved
    · have hdata := hemit (n - m) (by omega)
      rwa [show m + (n - m) = n by omega] at hdata
  next hend =>
    refine (h.forward hp hlt s.positionInEntry).bind fun s' h' => returns_done ?_
    exact ⟨m + s.runCount, by omega, by omega, rfl, by rwa [← Nat.add_assoc], hemit _ (Nat.le_refl _)⟩

/-! ## Filters over a selection -/

theorem filterLoop_spec (hp : Pointers type runs base) (hexecuted : Executed filter runs base)
    (hr : r + n ≤ (expand runs).length) : ∀ (sel : List Nat) (prev : Nat) {s : RLEScanState T} {data : Nat → T}
      {matching : List Nat}, Ordered sel n → prev ≤ n → (∀ idx ∈ sel, prev ≤ idx) → Reading runs base s (r + prev) →
        (filterLoop (base.matchingRuns.getD fun _ => false) sel prev s data matching).Returns fun p => p.2.2.1 ≤ n
          ∧ Reading runs base p.1 (r + p.2.2.1)
          ∧ p.2.2.2 = matching ++ sel.filter (fun i => Passes filter (expand runs) (r + i))
          ∧ (∀ j, (expand runs)[r + j]? = some (data j) → (expand runs)[r + j]? = some (p.2.1 j))
          ∧ ∀ i ∈ sel, Passes filter (expand runs) (r + i) = true → (expand runs)[r + i]? = some (p.2.1 i)
  | [], prev, s, data, matching, _, hprev, _, h =>
    returns_done ⟨hprev, h, by simp, fun _ h => h, fun _ h => absurd h not_mem_nil⟩
  | next :: sel, prev, s, data, matching, hsel, hprev, hle, h => by
    have hprevNext := hle next mem_cons_self
    have hnext := hsel.lt next mem_cons_self
    obtain ⟨hfirst, hsorted⟩ := pairwise_cons.1 hsel.sorted
    have hrest : Ordered sel n := ⟨hsorted, fun idx hidx => hsel.lt idx (mem_cons_of_mem _ hidx)⟩
    unfold filterLoop
    rw [if_neg (Nat.not_lt.2 hprevNext)]
    refine (skipInternal_spec hp h (show r + prev + (next - prev) ≤ _ by omega)).bind fun s' h' => ?_
    rw [show r + prev + (next - prev) = r + next by omega] at h'
    have helement := h'.element hp (by omega)
    have hpasses : Passes filter (expand runs) (r + next) = filter s'.element := passes_of_getElem? helement
    rw [hexecuted.at hp h' (by omega)]
    split
    next hpass =>
      refine (filterLoop_spec hp hexecuted hr sel next hrest hnext.le hfirst h').mono ?_
      rintro ⟨s'', data', prev', matching'⟩ ⟨hprev', h'', hmatching, hkept, hvalues⟩
      dsimp only at hprev' h'' hmatching hkept hvalues ⊢
      refine ⟨hprev', h'', ?_, fun j hj => hkept j ?_, fun i hi hpi => ?_⟩
      · rw [hmatching, filter_cons_of_pos (by rw [hpasses, hpass]), append_assoc, singleton_append]
      · by_cases hj' : j = next
        · rw [hj', Function.update_self]
          exact helement
        · rwa [Function.update_of_ne hj']
      · rcases mem_cons.1 hi with rfl | hi
        · exact hkept i (by rwa [Function.update_self])
        · exact hvalues i hi hpi
    next hpass =>
      refine (filterLoop_spec hp hexecuted hr sel next hrest hnext.le hfirst h').mono ?_
      rintro ⟨s'', data', prev', matching'⟩ ⟨hprev', h'', hmatching, hkept, hvalues⟩
      dsimp only at hprev' h'' hmatching hkept hvalues ⊢
      refine ⟨hprev', h'', ?_, hkept, fun i hi hpi => ?_⟩
      · rw [hmatching, filter_cons_of_neg (by rwa [hpasses])]
      · rcases mem_cons.1 hi with rfl | hi
        · exact absurd (hpasses ▸ hpi) hpass
        · exact hvalues i hi hpi

/-! ## Filters -/

/-- A selection that is not set counts all rows of the vector, and the rows of one that is set are in order. -/
def Selection.Ok (selection : Selection) (n : Nat) : Prop :=
  match selection.sel with
  | none => selection.selCount = n
  | some sel => Ordered (sel.take selection.selCount) n

theorem Selection.rows_restrict (selection : Selection) {P : Nat → Bool} :
    (selection.restrict (selection.rows.filter P)).rows = selection.rows.filter P := by
  have hle : selection.rows.length ≤ selection.selCount := by
    unfold Selection.rows
    split
    · simp
    · rw [length_take]
      omega
  have hfilter := length_filter_le P selection.rows
  unfold Selection.restrict
  split
  · unfold Selection.rows
    dsimp only
    exact take_length
  next hsame => rw [filter_eq_self.2 (length_filter_eq_length_iff.1 (by omega))]

/-- What a filter does: it leaves the rows of the selection that pass, with their values, and moves on, or it stays where it
is because no row of the segment passes. -/
structure Filtered (type : FixedWidth T) (filter : T → Bool) (runs : List (T × Nat)) (r n : Nat) (selection : Selection)
    (p : RLEScanState T × ResultVector T × Selection) : Prop where
  moved : ∃ base, Pointers type runs base ∧ Executed filter runs base
    ∧ (Reading runs base p.1 (r + n) ∨ Reading runs base p.1 r ∧ ∀ v ∈ expand runs, filter v = false)
  rows : p.2.2.rows = selection.rows.filter fun i => Passes filter (expand runs) (r + i)
  values : ∀ i ∈ p.2.2.rows, (expand runs)[r + i]? = some (p.2.1.value i)

theorem rleFilter_spec (hp : Pointers type runs base) (hbase : base.matchingRuns = none ∨ Executed filter runs base)
    (h : Reading runs base s r) (hr : r + n ≤ (expand runs).length) (result : ResultVector T) {selection : Selection}
    (hsel : selection.Ok n) : (rleFilter type filter s n result selection).Returns (Filtered type filter runs r n selection) := by
  obtain ⟨base', hp', hexecuted, h'⟩ := executeFilter_spec hp hbase h
  have hmatches : (executeFilter type filter s).matchingRuns = base'.matchingRuns := by rw [h'.same]
  have hcount : (executeFilter type filter s).matchingRunCount = base'.matchingRunCount := by rw [h'.same]
  unfold rleFilter
  dsimp only
  rw [hmatches, hcount]
  split
  next hzero =>
    have hnone : ∀ v ∈ expand runs, filter v = false := forall_expand (hexecuted.none hzero)
    have hrows : ({ selection with selCount := 0 } : Selection).rows = [] := by
      unfold Selection.rows
      split <;> simp
    refine returns_done ⟨⟨base', hp', hexecuted, .inr ⟨h', hnone⟩⟩, ?_, ?_⟩
    · rw [hrows, filter_eq_nil_iff.2]
      intro i _
      rw [passes_eq_false hnone]
      decide
    · dsimp only
      rw [hrows]
      exact fun i hi => absurd hi not_mem_nil
  next =>
    have hmoved : ∀ {s'' : RLEScanState T}, Reading runs base' s'' (r + n) → ∃ base, Pointers type runs base
        ∧ Executed filter runs base ∧ (Reading runs base s'' (r + n) ∨ Reading runs base s'' r
          ∧ ∀ v ∈ expand runs, filter v = false) := fun h'' => ⟨base', hp', hexecuted, .inl h''⟩
    split
    next hnone =>
      -- the loop goes through the runs, as in a scan
      have hn : selection.selCount = n := by
        unfold Selection.Ok at hsel
        rwa [hnone] at hsel
      have hrows : selection.rows = range n := by
        unfold Selection.rows
        rw [hnone, hn]
      rw [hn]
      refine (returns_loop (I := fun p => ∃ m ≤ n, p.2.2.1 = m ∧ Reading runs base' p.1 (r + m)
        ∧ Left filter (expand runs) r m p.2.1 p.2.2.2) (μ := fun p => n - p.2.2.1) ?_ ?_ (by dsimp only; omega)).bind ?_
      · rintro ⟨s', data, m, matching⟩ ⟨_, hm, rfl, h', hleft⟩ hcond
        dsimp only at hm h' hleft
        have hlt : m < n := by simpa using hcond
        refine (filterTurn_spec hp' hexecuted hlt hr h' hleft).mono ?_
        rintro ⟨s'', data', m', matching'⟩ ⟨_, hlt', hle', rfl, h'', hleft'⟩
        dsimp only at hlt' hle' h'' hleft'
        exact ⟨⟨m', hle', rfl, h'', hleft'⟩, by dsimp only; omega⟩
      · exact ⟨0, Nat.zero_le n, rfl, h', ⟨rfl, fun i hi => absurd hi not_mem_nil⟩⟩
      · rintro ⟨s', data, m, matching⟩ ⟨⟨_, hm, rfl, h', hleft⟩, hend⟩
        dsimp only at hm h' hleft hend ⊢
        have hge : n ≤ m := by simpa using hend
        obtain rfl : m = n := by omega
        have hmatching := hleft.matching_eq
        rw [← hrows] at hmatching
        have hrestrict : (selection.restrict matching).rows = matching := by
          rw [hmatching]
          exact selection.rows_restrict
        exact returns_done ⟨hmoved h', hrestrict.trans hmatching, fun i hi => hleft.values i (hrestrict ▸ hi)⟩
    next sel hsome =>
      have hordered : Ordered (sel.take selection.selCount) n := by
        unfold Selection.Ok at hsel
        rwa [hsome] at hsel
      have hrows : selection.rows = sel.take selection.selCount := by
        unfold Selection.rows
        rw [hsome]
      refine (filterLoop_spec hp' hexecuted hr _ 0 hordered (Nat.zero_le n) (fun _ _ => Nat.zero_le _) h').bind ?_
      rintro ⟨s', data, prev, matching⟩ ⟨hprev, h', hmatching, -, hvalues⟩
      dsimp only at hprev h' hmatching hvalues ⊢
      refine (skipInternal_spec hp' h' (show r + prev + (n - prev) ≤ _ by omega)).bind fun s'' h'' => ?_
      rw [show r + prev + (n - prev) = r + n by omega] at h''
      rw [nil_append, ← hrows] at hmatching
      have hrestrict : (selection.restrict matching).rows = matching := by
        rw [hmatching]
        exact selection.rows_restrict
      refine returns_done ⟨hmoved h'', hrestrict.trans hmatching, fun i hi => ?_⟩
      rw [hrestrict, hmatching, hrows] at hi
      obtain ⟨hmem, hpass⟩ := mem_filter.1 hi
      exact hvalues i hmem hpass

end Haybarn.Rle
