/-
Codes that keep an order: words whose lexicographic comparison is the comparison of what they stand for, no
matter what comes behind them. Such codes have no word that is a prefix of another one, and they can be put one
after the other, terminated and turned around. Nothing here names a particular encoding.
-/
import Mathlib.Data.List.Basic
import Mathlib.Order.Compare

namespace Haybarn.Lib

open List

/-! ## Words that differ -/

/-- The first place where the words differ is one that both have, and the units there compare as `o`. -/
inductive Diverge {υ : Type} [Ord υ] (o : Ordering) : List υ → List υ → Prop where
  | here {x y : υ} (u v : List υ) (h : compare x y = o) (hne : o ≠ .eq) : Diverge o (x :: u) (y :: v)
  | there (x : υ) {u v : List υ} (h : Diverge o u v) : Diverge o (x :: u) (x :: v)

section Diverge

variable {υ : Type} [Ord υ] {o : Ordering} {u v : List υ}

theorem Diverge.append (h : Diverge o u v) (r s : List υ) : Diverge o (u ++ r) (v ++ s) := by
  induction h with
  | here u v hxy hne => exact .here _ _ hxy hne
  | there x _ ih => exact .there x ih

theorem Diverge.prepend (h : Diverge o u v) : ∀ p : List υ, Diverge o (p ++ u) (p ++ v)
  | [] => h
  | x :: p => .there x (h.prepend p)

/-- A map of the units that turns their comparison into another one. -/
theorem Diverge.map {υ' : Type} [Ord υ'] {o' : Ordering} {f : υ → υ'} (h : Diverge o u v)
    (hf : ∀ x y, compare x y = o → compare (f x) (f y) = o') (hne : o' ≠ .eq) : Diverge o' (u.map f) (v.map f) := by
  induction h with
  | here u v hxy _ => exact .here _ _ (hf _ _ hxy) hne
  | there x _ ih => exact .there (f x) ih

variable [Std.ReflOrd υ]

theorem Diverge.compare_eq (h : Diverge o u v) : compare u v = o := by
  induction h with
  | here u v hxy hne =>
    rw [List.compare_cons_cons, hxy]
    cases o with
    | eq => exact absurd rfl hne
    | lt | gt => rfl
  | there x _ ih => rw [List.compare_cons_cons, Std.ReflOrd.compare_self, ih]; rfl

theorem Diverge.not_isPrefix (h : Diverge o u v) : ¬ u <+: v := by
  induction h with
  | here u v hxy hne =>
    intro hp
    obtain ⟨rfl, -⟩ := cons_prefix_cons.1 hp
    exact hne (hxy.symm.trans Std.ReflCmp.compare_self)
  | there x _ ih => exact fun hp => ih (cons_prefix_cons.1 hp).2

end Diverge

/-! ## Ordered codes -/

/-- A code whose words are equal or differ at a place that both have, as what they stand for compares. -/
structure OrderedCode {α υ : Type} [Ord υ] (cmp : α → α → Ordering) (encode : α → List υ) : Prop where
  same : ∀ {a b}, cmp a b = .eq → encode a = encode b
  diverge : ∀ {a b}, cmp a b ≠ .eq → Diverge (cmp a b) (encode a) (encode b)

section OrderedCode

variable {α β υ : Type} [Ord υ] {cmp cmp' : α → α → Ordering} {encode encode' : α → List υ}

theorem OrderedCode.compare_eq [Std.ReflOrd υ] (h : OrderedCode cmp encode) (a b : α) :
    compare (encode a) (encode b) = cmp a b := by
  by_cases hab : cmp a b = .eq
  · rw [h.same hab, hab]
    exact Std.ReflOrd.compare_self
  · exact (h.diverge hab).compare_eq

/-- No word is a proper prefix of another one. -/
theorem OrderedCode.eq_of_prefix [Std.ReflOrd υ] (h : OrderedCode cmp encode) {a b : α}
    (hp : encode a <+: encode b) : cmp a b = .eq := by
  by_contra hab
  exact (h.diverge hab).not_isPrefix hp

theorem OrderedCode.encode_eq_iff [Std.ReflOrd υ] (h : OrderedCode cmp encode) {a b : α} :
    encode a = encode b ↔ cmp a b = .eq :=
  ⟨fun hab => h.eq_of_prefix (hab ▸ prefix_rfl), h.same⟩

theorem OrderedCode.comp (h : OrderedCode cmp encode) (f : β → α) :
    OrderedCode (fun a b => cmp (f a) (f b)) (fun a => encode (f a)) :=
  ⟨fun hab => h.same hab, fun hab => h.diverge hab⟩

/-- One code behind the other. -/
theorem OrderedCode.append (h : OrderedCode cmp encode) (h' : OrderedCode cmp' encode') :
    OrderedCode (fun a b => (cmp a b).then (cmp' a b)) (fun a => encode a ++ encode' a) := by
  refine ⟨fun {a b} hab => ?_, fun {a b} hab => ?_⟩
  · obtain ⟨hfst, hsnd⟩ := Ordering.then_eq_eq.1 hab
    rw [h.same hfst, h'.same hsnd]
  · by_cases hfst : cmp a b = .eq
    · rw [hfst, Ordering.eq_then] at hab ⊢
      rw [h.same hfst]
      exact (h'.diverge hab).prepend _
    · have hthen : (cmp a b).then (cmp' a b) = cmp a b := by
        cases hc : cmp a b with
        | eq => exact absurd hc hfst
        | lt | gt => rfl
      rw [hthen]
      exact (h.diverge hfst).append _ _

/-- A map of the units that reverses their order reverses that of the code. -/
theorem OrderedCode.map_swap (h : OrderedCode cmp encode) {f : υ → υ}
    (hf : ∀ x y, compare (f x) (f y) = (compare x y).swap) :
    OrderedCode (fun a b => (cmp a b).swap) (fun a => (encode a).map f) := by
  refine ⟨fun hab => ?_, fun {a b} hab => ?_⟩
  · rw [h.same (Ordering.swap_eq_eq.1 hab)]
  · have hne : cmp a b ≠ .eq := fun he => hab (Ordering.swap_eq_eq.2 he)
    exact (h.diverge hne).map (fun x y hxy => by rw [hf, hxy]) hab

theorem OrderedCode.congr {cmp' : α → α → Ordering} (h : OrderedCode cmp encode) (hcmp : ∀ a b, cmp' a b = cmp a b) :
    OrderedCode cmp' encode := by
  have heq : cmp' = cmp := funext fun a => funext fun b => hcmp a b
  rw [heq]
  exact h

end OrderedCode

/-! ## Sequences -/

/-- Sequences are compared item by item. Where one of them ends first, `shorter` tells how it compares. -/
def compareSeq {α : Type} (shorter : Ordering) (cmp : α → α → Ordering) : List α → List α → Ordering
  | [], [] => .eq
  | [], _ :: _ => shorter
  | _ :: _, [] => shorter.swap
  | a :: as, b :: bs => (cmp a b).then (compareSeq shorter cmp as bs)

section Sequences

variable {α υ : Type} [Ord υ] {cmp : α → α → Ordering} {encode : α → List υ}

theorem compareSeq_lt (cmp : α → α → Ordering) : ∀ as bs : List α, compareSeq .lt cmp as bs = List.compareLex cmp as bs
  | [], [] => rfl
  | [], _ :: _ => rfl
  | _ :: _, [] => rfl
  | a :: as, b :: bs => by rw [compareSeq, compareSeq_lt cmp as bs, List.compareLex_cons_cons]

theorem compareSeq_swap (shorter : Ordering) (cmp : α → α → Ordering) :
    ∀ as bs : List α, compareSeq shorter.swap (fun a b => (cmp a b).swap) as bs = (compareSeq shorter cmp as bs).swap
  | [], [] => rfl
  | [], _ :: _ => rfl
  | _ :: _, [] => rfl
  | a :: as, b :: bs => by rw [compareSeq, compareSeq_swap shorter cmp as bs, compareSeq, Ordering.swap_then]

/-- The words of a sequence and a terminator, which no word starts with. -/
theorem OrderedCode.terminated (h : OrderedCode cmp encode) {terminator : υ} {shorter : Ordering}
    (hne : shorter ≠ .eq)
    (hhead : ∀ a, ∃ x u, encode a = x :: u ∧ compare terminator x = shorter ∧ compare x terminator = shorter.swap) :
    OrderedCode (compareSeq shorter cmp) (fun as => as.flatMap encode ++ [terminator]) := by
  have hne' : shorter.swap ≠ .eq := fun he => hne (Ordering.swap_eq_eq.1 he)
  have hboth : ∀ as bs : List α,
      (compareSeq shorter cmp as bs = .eq → as.flatMap encode ++ [terminator] = bs.flatMap encode ++ [terminator]) ∧
      (compareSeq shorter cmp as bs ≠ .eq → Diverge (compareSeq shorter cmp as bs)
        (as.flatMap encode ++ [terminator]) (bs.flatMap encode ++ [terminator])) := by
    intro as
    induction as with
    | nil =>
      intro bs
      cases bs with
      | nil => exact ⟨fun _ => rfl, fun hab => absurd rfl hab⟩
      | cons b bs =>
        obtain ⟨x, u, hb, hlt, -⟩ := hhead b
        refine ⟨fun hab => absurd hab hne, fun _ => ?_⟩
        rw [flatMap_cons, hb]
        exact .here _ _ hlt hne
    | cons a as ih =>
      intro bs
      cases bs with
      | nil =>
        obtain ⟨x, u, ha, -, hgt⟩ := hhead a
        refine ⟨fun hab => absurd hab hne', fun _ => ?_⟩
        rw [flatMap_cons, ha]
        exact .here _ _ hgt hne'
      | cons b bs =>
        rw [compareSeq, flatMap_cons, flatMap_cons, append_assoc, append_assoc]
        by_cases hfst : cmp a b = .eq
        · rw [hfst, Ordering.eq_then, h.same hfst]
          refine ⟨fun hab => ?_, fun hab => ((ih bs).2 hab).prepend _⟩
          rw [(ih bs).1 hab]
        · have hthen : (cmp a b).then (compareSeq shorter cmp as bs) = cmp a b := by
            cases hc : cmp a b with
            | eq => exact absurd hc hfst
            | lt | gt => rfl
          rw [hthen]
          exact ⟨fun hab => absurd hab hfst, fun _ => (h.diverge hfst).append _ _⟩
  exact ⟨fun {a b} hab => (hboth a b).1 hab, fun {a b} hab => (hboth a b).2 hab⟩

end Sequences

end Haybarn.Lib
