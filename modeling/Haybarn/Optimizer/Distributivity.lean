/-
`DistributivityRule`, from `distributivity.cpp`: `(X AND A) OR (X AND B)` becomes `X AND (A OR B)`. The children of the
disjunction are changed in place while the common factors are taken out of them one by one.
-/
import Haybarn.Optimizer.Conjunction

namespace Haybarn.Optimizer

open Lib Outcome List

/-- An order in which the hash tables hand out what is stored in them. -/
structure HashOrder where
  order : ∀ {β : Type}, List β → List β
  perm : ∀ {β : Type} (stored : List β), (order stored).Perm stored

variable {α : Type}

namespace Condition

/-! ## The rule -/

/-- A conjunction of the children, or the child if it is the only one. -/
def unwrap (type : ConjunctionType) : List (Condition α) → Outcome (Condition α)
  | [] => .fault
  | [e] => .done e
  | first :: second :: rest => .done (conjunction type first second rest)

section Rule

variable [DecidableEq α]

/-- `expression_set_t::insert`. -/
def insertSet (set : List (Condition α)) (e : Condition α) : List (Condition α) :=
  if set.any (equals · e) then set else set ++ [e]

/-- `AddExpressionSet`, to an empty set. -/
def expressionSet : Condition α → List (Condition α)
  | conjunction .and first second rest => (first :: second :: rest).foldl insertSet []
  | e => [e]

/-- What is in both sets. -/
def intersect (candidateSet nextSet : List (Condition α)) : List (Condition α) :=
  candidateSet.filter fun e => nextSet.any (equals · e)

/-- `ExtractExpression`: what is taken out of a child of the disjunction, and what remains of the child. -/
def extractExpression (child : Option (Condition α)) (e : Condition α) :
    Outcome (Condition α × Option (Condition α)) :=
  match child with
  | none => .fault
  | some (conjunction .and first second rest) =>
    match (first :: second :: rest).find? (equals · e), removeFirst (equals · e) (first :: second :: rest) with
    | some result, some children => do
      let remaining ← unwrap .and children
      .done (result, some remaining)
    -- this is the last expression
    | _, _ => .done (conjunction .and first second rest, none)
  | some child => .done (child, none)

/-- What remains of the children after the first, without the expression. -/
def extractOthers (e : Condition α) : List (Option (Condition α)) → Outcome (List (Option (Condition α)))
  | [] => .done []
  | child :: others => do
    let (_, child') ← extractExpression child e
    let others' ← extractOthers e others
    .done (child' :: others')

/-- One round of the loop over the candidates: the factor, and what remains of the children. -/
def extractFactor (e : Condition α) : List (Option (Condition α)) →
    Outcome (Condition α × List (Option (Condition α)))
  | [] => .fault
  | first :: others => do
    let (result, first') ← extractExpression first e
    let others' ← extractOthers result others
    .done (result, first' :: others')

/-- The loop over the candidates, which collects the children of the new root. -/
def extractFactors : List (Condition α) → List (Condition α) → List (Option (Condition α)) →
    Outcome (List (Condition α) × List (Option (Condition α)))
  | [], newRoot, children => .done (newRoot, children)
  | e :: candidates, newRoot, children => do
    let (result, children') ← extractFactor e children
    extractFactors candidates (newRoot ++ [result]) children'

/-- `DistributivityRule::Apply`, on the expression that the rule has matched. -/
def distribute (hash : HashOrder) : Condition α → Outcome (Option (Condition α))
  | conjunction .or first second rest => do
    let candidateSet := (second :: rest).foldl (fun set child => intersect set (expressionSet child))
      (expressionSet first)
    if candidateSet.isEmpty then .done none
    else
      let (newRoot, children) ← extractFactors (hash.order candidateSet) [] ((first :: second :: rest).map some)
      if children.any (·.isNone) then
        -- a child was only made of common factors
        let root ← unwrap .and newRoot
        .done (some root)
      else
        let newOr ← unwrap .or (children.filterMap id)
        let root ← unwrap .and (newRoot ++ [newOr])
        .done (some root)
  | _ => .done none

end Rule

/-! ## What a child is made of -/

/-- The operands of the conjunction that a child of the disjunction is. -/
def conjuncts : Condition α → List (Condition α)
  | conjunction .and first second rest => first :: second :: rest
  | e => [e]

/-- What remains of a child stands for a conjunction of these operands. -/
inductive Holding : Option (Condition α) → List (Condition α) → Prop
  | consumed : Holding none []
  | single (e : Condition α) : Holding (some e) [e]
  | many (first second : Condition α) (rest : List (Condition α)) :
      Holding (some (conjunction .and first second rest)) (first :: second :: rest)

theorem holding_conjuncts (e : Condition α) : Holding (some e) e.conjuncts := by
  match e with
  | leaf l => exact .single _
  | conjunction .and first second rest => exact .many first second rest
  | conjunction .or first second rest => exact .single _

theorem unwrap_holding {es : List (Condition α)} (h : es ≠ []) :
    (unwrap .and es).Returns fun r => Holding (some r) es := by
  match es with
  | [e] => exact returns_done (.single e)
  | first :: second :: rest => exact returns_done (.many first second rest)

theorem removeFirst_of_mem {test : Condition α → Bool} {es : List (Condition α)} (h : ∃ e ∈ es, test e = true) :
    ∃ y ys, es.find? test = some y ∧ removeFirst test es = some ys ∧ test y = true ∧ es.Perm (y :: ys) := by
  induction es with
  | nil => simp at h
  | cons e es ih =>
    by_cases he : test e = true
    · exact ⟨e, es, by rw [find?_cons_of_pos he], by rw [removeFirst, if_pos he], he, .refl _⟩
    · obtain ⟨y, ys, hfind, hremove, hy, hperm⟩ := ih (by
        obtain ⟨e', hmem, he'⟩ := h
        rcases mem_cons.mp hmem with rfl | hmem
        · exact absurd he' he
        · exact ⟨e', hmem, he'⟩)
      exact ⟨y, e :: ys, by rw [find?_cons_of_neg he, hfind], by rw [removeFirst, if_neg he, hremove]; rfl, hy,
        (hperm.cons e).trans (List.Perm.swap ..)⟩

variable [DecidableEq α]

variable {e : Condition α} {children : List (Option (Condition α))} {operands : List (List (Condition α))}

theorem not_equals_child {e' child : Condition α} (h : equals e e' = true) (hchild : child ∈ e.children) :
    ¬ equals child e' = true := by
  intro h'
  have hsize : child.size = e.size := (fold_congr _ _ h').trans (fold_congr _ _ h).symm
  exact absurd (size_lt_of_mem hchild) (by omega)

/-- An expression that is among the operands of a child is taken out of it. -/
theorem extractExpression_spec {child : Option (Condition α)} {operands : List (Condition α)}
    (hchild : Holding child operands) (he : ∃ operand ∈ operands, equals operand e = true) :
    (extractExpression child e).Returns fun p => equals p.1 e = true ∧
      ∃ operands', Holding p.2 operands' ∧ operands.Perm (p.1 :: operands') := by
  cases hchild with
  | consumed => simp at he
  | single child =>
    obtain ⟨operand, hmem, he⟩ := he
    obtain rfl := mem_singleton.mp hmem
    have hall : extractExpression (some operand) e = .done (operand, none) := by
      match operand with
      | leaf l => rfl
      | conjunction .or first second rest => rfl
      | conjunction .and first second rest =>
        -- a child that was a conjunction inside a conjunction is not looked into
        have hnone : (first :: second :: rest).find? (equals · e) = none := by
          rw [find?_eq_none]
          exact fun child hchild => not_equals_child he hchild
        rw [extractExpression, hnone]
    rw [hall]
    exact returns_done ⟨he, [], .consumed, .refl _⟩
  | many first second rest =>
    obtain ⟨result, children, hfind, hremove, hresult, hperm⟩ := @removeFirst_of_mem _ (equals · e) _ he
    have hlength := hperm.length_eq
    simp only [length_cons] at hlength
    rw [extractExpression, hfind, hremove]
    refine (unwrap_holding (ne_nil_of_length_pos (by omega))).bind fun remaining hremaining => ?_
    exact returns_done ⟨hresult, children, hremaining, hperm⟩

/-- The operands of the children, before and after the factors were taken out of them. -/
def Factored (factors : List (Condition α)) (operands operands' : List (Condition α)) : Prop :=
  ∃ taken, List.Forall₂ (equals · · = true) taken factors ∧ operands.Perm (taken ++ operands')

theorem extractOthers_spec
    (hchildren : List.Forall₂ Holding children operands)
    (he : ∀ l ∈ operands, ∃ operand ∈ l, equals operand e = true) :
    (extractOthers e children).Returns fun children' => ∃ operands', List.Forall₂ Holding children' operands' ∧
      List.Forall₂ (Factored [e]) operands operands' := by
  induction hchildren with
  | nil => exact returns_done ⟨[], .nil, .nil⟩
  | @cons child l children operands hchild _ ih =>
    rw [forall_mem_cons] at he
    refine (extractExpression_spec hchild he.1).bind ?_
    rintro ⟨result, child'⟩ ⟨hresult, l', hchild', hperm⟩
    refine (ih he.2).bind fun children' hchildren' => ?_
    obtain ⟨operands', hholding, hfactored⟩ := hchildren'
    exact returns_done ⟨l' :: operands', .cons hchild' hholding,
      .cons ⟨[result], .cons hresult .nil, hperm⟩ hfactored⟩

theorem extractFactor_spec
    (hchildren : List.Forall₂ Holding children operands) (hne : children ≠ [])
    (he : ∀ l ∈ operands, ∃ operand ∈ l, equals operand e = true) :
    (extractFactor e children).Returns fun p => equals p.1 e = true ∧ ∃ operands', List.Forall₂ Holding p.2 operands' ∧
      List.Forall₂ (Factored [p.1]) operands operands' := by
  cases hchildren with
  | nil => exact absurd rfl hne
  | @cons child l children operands hchild hothers =>
    rw [forall_mem_cons] at he
    refine (extractExpression_spec hchild he.1).bind ?_
    rintro ⟨result, child'⟩ ⟨hresult, l', hchild', hperm⟩
    have hsame : ∀ l ∈ operands, ∃ operand ∈ l, equals operand result = true := by
      intro l hl
      obtain ⟨operand, hmem, hoperand⟩ := he.2 l hl
      refine ⟨operand, hmem, ?_⟩
      rw [equals_iff] at *
      exact hoperand.trans hresult.symm
    refine (extractOthers_spec hothers hsame).bind fun others' hothers' => ?_
    obtain ⟨operands', hholding, hfactored⟩ := hothers'
    exact returns_done ⟨hresult, l' :: operands', .cons hchild' hholding,
      .cons ⟨[result], .cons (equals_refl _) .nil, hperm⟩ hfactored⟩

theorem Factored.mem {e' factor : Condition α} {l l' : List (Condition α)} (h : Factored [factor] l l')
    (hfactor : equals factor e = true) (hne : ¬ equals e e' = true) (he : ∃ operand ∈ l, equals operand e' = true) :
    ∃ operand ∈ l', equals operand e' = true := by
  obtain ⟨taken, htaken, hperm⟩ := h
  obtain ⟨operand, hmem, hoperand⟩ := he
  cases htaken with
  | @cons t _ _ _ ht hnil =>
    cases hnil
    rcases mem_cons.mp (hperm.mem_iff.mp hmem) with rfl | hmem'
    · rw [equals_iff] at *
      exact absurd ((hfactor.symm.trans ht.symm).trans hoperand) hne
    · exact ⟨operand, hmem', hoperand⟩

theorem Factored.trans {factors factors' l l' l'' : List (Condition α)} (h : Factored factors l l')
    (h' : Factored factors' l' l'') : Factored (factors ++ factors') l l'' := by
  obtain ⟨taken, htaken, hperm⟩ := h
  obtain ⟨taken', htaken', hperm'⟩ := h'
  refine ⟨taken ++ taken', rel_append htaken htaken', ?_⟩
  rw [append_assoc]
  exact hperm.trans (hperm'.append_left taken)

theorem exists_of_forall₂ {β γ : Type*} {R : β → γ → Prop} {xs : List β} {ys : List γ} (h : List.Forall₂ R xs ys)
    {y : γ} (hy : y ∈ ys) : ∃ x ∈ xs, R x y := by
  induction h with
  | nil => simp at hy
  | @cons x y' xs ys hR _ ih =>
    rcases mem_cons.mp hy with rfl | hy
    · exact ⟨x, by simp, hR⟩
    · obtain ⟨x', hx', hR'⟩ := ih hy
      exact ⟨x', by simp [hx'], hR'⟩

theorem forall₂_trans {β γ δ : Type*} {R : β → γ → Prop} {S : γ → δ → Prop} {T : β → δ → Prop} {xs : List β}
    {ys : List γ} {zs : List δ} (hRST : ∀ {x y z}, R x y → S y z → T x z) (h : List.Forall₂ R xs ys)
    (h' : List.Forall₂ S ys zs) : List.Forall₂ T xs zs := by
  induction h generalizing zs with
  | nil =>
    cases h'
    exact .nil
  | cons hR _ ih =>
    cases h' with
    | cons hS htail => exact .cons (hRST hR hS) (ih htail)

/-- The loop takes each candidate out of every child. -/
theorem extractFactors_spec {candidates newRoot : List (Condition α)}
    (hchildren : List.Forall₂ Holding children operands) (hne : children ≠ [])
    (hdistinct : candidates.Pairwise fun e e' => ¬ equals e e' = true)
    (hmem : ∀ e ∈ candidates, ∀ l ∈ operands, ∃ operand ∈ l, equals operand e = true) :
    (extractFactors candidates newRoot children).Returns fun p => ∃ factors operands', p.1 = newRoot ++ factors ∧
      factors.length = candidates.length ∧ List.Forall₂ Holding p.2 operands' ∧
      List.Forall₂ (Factored factors) operands operands' := by
  induction candidates generalizing newRoot children operands with
  | nil =>
    refine returns_done ⟨[], operands, by simp, rfl, hchildren, ?_⟩
    exact forall₂_same.mpr fun l _ => ⟨[], .nil, .refl _⟩
  | cons e candidates ih =>
    rw [pairwise_cons] at hdistinct
    rw [forall_mem_cons] at hmem
    refine (extractFactor_spec hchildren hne hmem.1).bind ?_
    rintro ⟨result, children'⟩ ⟨hresult, operands', hholding, hfactored⟩
    have hne' : children' ≠ [] := by
      have hlength := hchildren.length_eq.trans (hfactored.length_eq.trans hholding.length_eq.symm)
      rintro rfl
      exact hne (length_eq_zero_iff.mp hlength)
    have hmem' : ∀ e' ∈ candidates, ∀ l ∈ operands', ∃ operand ∈ l, equals operand e' = true := by
      intro e' he' l' hl'
      obtain ⟨l, hl, hfactor⟩ := exists_of_forall₂ hfactored hl'
      exact hfactor.mem hresult (hdistinct.1 e' he') (hmem.2 e' he' l hl)
    refine (ih hholding hne' hdistinct.2 hmem').mono ?_
    rintro ⟨newRoot', children''⟩ ⟨factors, operands'', rfl, hlength, hholding'', hfactored''⟩
    exact ⟨result :: factors, operands'', by simp, by simp [hlength], hholding'',
      forall₂_trans (fun h h' => h.trans h') hfactored hfactored''⟩

/-! ## The candidates -/

theorem pairwise_insertSet {set : List (Condition α)} (h : set.Pairwise fun e e' => ¬ equals e e' = true)
    (e : Condition α) : (insertSet set e).Pairwise fun e e' => ¬ equals e e' = true := by
  unfold insertSet
  split
  next => exact h
  next hnone =>
    rw [pairwise_append]
    refine ⟨h, pairwise_singleton .., fun e' he' x hx => ?_⟩
    obtain rfl := mem_singleton.mp hx
    simp only [any_eq_true, not_exists, not_and] at hnone
    exact hnone e' he'

theorem mem_insertSet {set : List (Condition α)} {x : Condition α} (h : x ∈ insertSet set e) : x ∈ set ∨ x = e := by
  unfold insertSet at h
  split at h
  next => exact .inl h
  next => simpa using h

theorem foldl_insertSet (es set : List (Condition α)) (h : set.Pairwise fun e e' => ¬ equals e e' = true) :
    (es.foldl insertSet set).Pairwise (fun e e' => ¬ equals e e' = true) ∧
      ∀ x ∈ es.foldl insertSet set, x ∈ set ∨ x ∈ es := by
  induction es generalizing set with
  | nil => exact ⟨h, fun x hx => .inl hx⟩
  | cons e es ih =>
    obtain ⟨hpairwise, hmem⟩ := ih (insertSet set e) (pairwise_insertSet h e)
    refine ⟨hpairwise, fun x hx => ?_⟩
    rcases hmem x hx with hx | hx
    · rcases mem_insertSet hx with hx | rfl
      · exact .inl hx
      · simp
    · simp [hx]

/-- The set of a child holds operands of it, and none of them twice. -/
theorem expressionSet_spec (e : Condition α) : (expressionSet e).Pairwise (fun e e' => ¬ equals e e' = true) ∧
    ∀ x ∈ expressionSet e, x ∈ e.conjuncts := by
  match e with
  | leaf l => exact ⟨pairwise_singleton .., fun _ h => h⟩
  | conjunction .or first second rest => exact ⟨pairwise_singleton .., fun _ h => h⟩
  | conjunction .and first second rest =>
    obtain ⟨hpairwise, hmem⟩ := foldl_insertSet (first :: second :: rest) [] .nil
    exact ⟨hpairwise, fun x hx => (hmem x hx).resolve_left (by simp)⟩

/-- A candidate is, up to `Equals`, an operand of every child. -/
theorem candidates_spec (others set : List (Condition α)) :
    (others.foldl (fun set child => intersect set (expressionSet child)) set).Sublist set ∧
      ∀ e ∈ others.foldl (fun set child => intersect set (expressionSet child)) set, ∀ child ∈ others,
        ∃ operand ∈ child.conjuncts, equals operand e = true := by
  induction others generalizing set with
  | nil => exact ⟨.refl _, fun _ _ _ h => by simp at h⟩
  | cons child others ih =>
    obtain ⟨hsublist, hmem⟩ := ih (intersect set (expressionSet child))
    refine ⟨hsublist.trans filter_sublist, fun e he => forall_mem_cons.mpr ⟨?_, hmem e he⟩⟩
    have hfilter := (mem_filter.mp (hsublist.subset he)).2
    obtain ⟨operand, hoperand, heq⟩ := any_eq_true.mp hfilter
    exact ⟨operand, (expressionSet_spec child).2 operand hoperand, heq⟩

/-! ## The value of the result -/

variable {V : Type} [LinearOrder V] (ρ : Assignment α V)

theorem evalAll_forall₂ {es es' : List (Condition α)} (h : List.Forall₂ (equals · · = true) es es') :
    evalAll ρ es = evalAll ρ es' := by
  unfold evalAll
  congr 2
  induction h with
  | nil => rfl
  | cons hequals _ ih => rw [map_cons, map_cons, ih, eval_congr ρ hequals]

omit [DecidableEq α] in
theorem evalAll_conjuncts (e : Condition α) : evalAll ρ e.conjuncts = eval ρ e := by
  match e with
  | leaf l => simp [conjuncts, evalAll]
  | conjunction .or first second rest => simp [conjuncts, evalAll]
  | conjunction .and first second rest => rw [eval_and, conjuncts]

omit [DecidableEq α] in
theorem Holding.eval {child : Option (Condition α)} {operands : List (Condition α)} (h : Holding child operands) :
    ∀ e ∈ child, e.eval ρ = evalAll ρ operands := by
  cases h with
  | consumed => simp
  | single e => simp [evalAll]
  | many first second rest => simp [eval_and]

theorem Factored.evalAll {factors operands operands' : List (Condition α)} (h : Factored factors operands operands') :
    evalAll ρ operands = evalAll ρ factors ⊓ evalAll ρ operands' := by
  obtain ⟨taken, htaken, hperm⟩ := h
  rw [evalAll_perm ρ hperm, evalAll_append, evalAll_forall₂ ρ htaken]

theorem evalAny_factored {factors : List (Condition α)} {operands' : List (List (Condition α))}
    (h : List.Forall₂ (Factored factors) operands operands') :
    (operands.map (evalAll ρ) : Multiset Truth).sup
      = evalAll ρ factors ⊓ (operands'.map (evalAll ρ) : Multiset Truth).sup := by
  rw [← sup_map_inf, Multiset.map_coe, map_map]
  congr 2
  induction h with
  | nil => rfl
  | cons hfactored _ ih => rw [map_cons, map_cons, ih, hfactored.evalAll ρ, Function.comp_apply]

omit [DecidableEq α] in
theorem unwrap_and {es : List (Condition α)} (h : es ≠ []) :
    (unwrap .and es).Returns fun r => eval ρ r = evalAll ρ es :=
  (unwrap_holding h).mono fun _ hr => hr.eval ρ _ rfl

omit [DecidableEq α] in
theorem unwrap_or {es : List (Condition α)} (h : es ≠ []) :
    (unwrap .or es).Returns fun r => eval ρ r = evalAny ρ es := by
  match es with
  | [e] => exact returns_done (by simp [evalAny])
  | first :: second :: rest => exact returns_done (eval_or ρ first second rest)

omit [DecidableEq α] in
theorem evalAny_remaining
    (h : List.Forall₂ Holding children operands) (hsome : ∀ child ∈ children, child ≠ none) :
    (children.filterMap id).length = children.length ∧
      evalAny ρ (children.filterMap id) = (operands.map (evalAll ρ) : Multiset Truth).sup := by
  induction h with
  | nil => exact ⟨rfl, rfl⟩
  | @cons child l children operands hchild _ ih =>
    rw [forall_mem_cons] at hsome
    obtain ⟨hlength, hvalue⟩ := ih hsome.2
    cases child with
    | none => exact absurd rfl hsome.1
    | some e =>
      rw [filterMap_cons_some (by rfl : id (some e) = some e)]
      refine ⟨by rw [length_cons, hlength, length_cons], ?_⟩
      unfold evalAny at *
      rw [map_cons, map_cons, ← Multiset.cons_coe, ← Multiset.cons_coe, Multiset.sup_cons, Multiset.sup_cons, hvalue, hchild.eval ρ e rfl]

/-- `DistributivityRule` returns an expression with the same value, whatever the order of the hash tables. -/
theorem distribute_spec (hash : HashOrder) (e : Condition α) :
    (distribute hash e).Returns fun result => ∀ e' ∈ result, eval ρ e' = eval ρ e := by
  match e with
  | leaf l => exact returns_done (by simp)
  | conjunction .and first second rest => exact returns_done (by simp)
  | conjunction .or first second rest =>
    unfold distribute
    obtain ⟨hsublist, hothers⟩ := candidates_spec (second :: rest) (expressionSet first)
    obtain ⟨hdistinct, hfirst⟩ := expressionSet_spec first
    simp only
    generalize (second :: rest).foldl (fun set child => intersect set (expressionSet child)) (expressionSet first)
      = candidateSet at *
    split
    next => exact returns_done (by simp)
    next hne =>
      have hperm := hash.perm candidateSet
      -- every candidate is an operand of every child
      have hmem : ∀ e ∈ hash.order candidateSet, ∀ l ∈ (first :: second :: rest).map conjuncts,
          ∃ operand ∈ l, equals operand e = true := by
        intro e he
        rw [hperm.mem_iff] at he
        rw [forall_mem_map, forall_mem_cons]
        exact ⟨⟨e, hfirst e (hsublist.subset he), equals_refl e⟩, hothers e he⟩
      have hchildren : List.Forall₂ Holding ((first :: second :: rest).map some)
          ((first :: second :: rest).map conjuncts) := by
        rw [forall₂_map_left_iff, forall₂_map_right_iff, forall₂_same]
        exact fun child _ => holding_conjuncts child
      have hpairwise := (hperm.pairwise_iff (fun {e e'} h h' => h ((equals_comm e' e).mp h'))).mpr
        (hdistinct.sublist hsublist)
      refine (extractFactors_spec hchildren (by simp) hpairwise hmem).bind ?_
      rintro ⟨newRoot, children⟩ ⟨factors, operands', hroot, hlength, hholding, hfactored⟩
      obtain rfl : newRoot = factors := hroot
      have hfactors : newRoot ≠ [] := by
        rintro rfl
        rw [hperm.length_eq] at hlength
        exact hne (isEmpty_iff.mpr (length_eq_zero_iff.mp hlength.symm))
      have hvalue := evalAny_factored ρ hfactored
      rw [map_map, show evalAll ρ ∘ conjuncts = eval ρ from funext (evalAll_conjuncts ρ)] at hvalue
      rw [eval_or, evalAny, hvalue]
      simp only
      split
      next hnone =>
        obtain ⟨child, hchild, hisNone⟩ := any_eq_true.mp hnone
        obtain rfl := Option.isNone_iff_eq_none.mp hisNone
        obtain ⟨l, hl, hused⟩ := exists_of_forall₂ hholding.flip hchild
        cases hused
        have htop : (operands'.map (evalAll ρ) : Multiset Truth).sup = ⊤ :=
          sup_eq_top_of_mem (mem_map.mpr ⟨[], hl, rfl⟩)
        refine (unwrap_and ρ hfactors).bind fun root hroot => returns_done ?_
        rintro _ ⟨⟩
        rw [hroot, htop, inf_top_eq]
      next hsome =>
        have hpresent : ∀ child ∈ children, child ≠ none := by
          rintro _ hchild rfl
          exact hsome (any_eq_true.mpr ⟨none, hchild, rfl⟩)
        obtain ⟨hcount, hremaining⟩ := evalAny_remaining ρ hholding hpresent
        have hnonempty : children.filterMap id ≠ [] := by
          have hlengths := hholding.length_eq.trans hfactored.length_eq.symm
          rw [length_map] at hlengths
          refine ne_nil_of_length_pos ?_
          rw [hcount, hlengths]
          simp
        refine (unwrap_or ρ hnonempty).bind fun newOr hnewOr => ?_
        refine (unwrap_and ρ (append_ne_nil_of_left_ne_nil hfactors [newOr])).bind fun root hroot => ?_
        refine returns_done ?_
        rintro _ ⟨⟩
        rw [hroot, evalAll_append, ← hremaining, ← hnewOr]
        simp [evalAll]

end Condition

end Haybarn.Optimizer
