/-
When moving a constant across a comparison preserves its value. Each decision of the rule is right under a condition
on the integers alone. The condition fails for quotients that do not fit their type, for constants that are not read
and for constants that are read with the wrong sign.
-/
import Haybarn.Optimizer.MoveConstants

namespace Haybarn.Optimizer

open Lib Common Option

variable {t : IntegerType}

/-! ## Comparisons that are flipped -/

theorem ComparisonType.flip_flip (type : ComparisonType) : type.flip.flip = type := by
  cases type <;> rfl

theorem ComparisonType.flip_compare (type : ComparisonType) (l r : Int) : type.flip.compare l r = type.compare r l := by
  cases type with
  | compareEqual | compareNotDistinctFrom => exact BEq.comm
  | compareNotEqual | compareDistinctFrom => exact congrArg not BEq.comm
  | _ => rfl

theorem ComparisonType.flip_eval (type : ComparisonType) (l r : Option Int) : type.flip.eval l r = type.eval r l := by
  cases l with
  | none => cases type <;> cases r <;> rfl
  | some l =>
    cases r with
    | none => cases type <;> rfl
    | some r => exact congrArg some (type.flip_compare l r)

theorem ComparisonType.flip_eval_none (type : ComparisonType) (r : Int) :
    type.flip.eval none (some r) = type.eval none (some r) := by
  cases type <;> rfl

theorem ComparisonType.eval_none (type : ComparisonType) (k r : Int) :
    type.eval none (some r) = type.eval none (some k) := by
  cases type <;> rfl

theorem ComparisonType.eval_none_eq_none_iff (type : ComparisonType) (k : Int) :
    type.eval none (some k) = none ↔ ¬ type.IsDistinct := by
  cases type <;> simp [eval, IsDistinct]

namespace Bindings

variable {b : Bindings t}

/-- A comparison as seen with the arithmetic on its left. -/
def leftward (b : Bindings t) (type : ComparisonType) : ComparisonType := if b.outerLeft then type.flip else type

/-- The arithmetic as a function of its operand. -/
def operation (b : Bindings t) (c n : Int) : Int :=
  if b.arithmeticChildIndex = 0 then b.function.apply n c else b.function.apply c n

theorem eval_compareWith (type : ComparisonType) (value : Option t.internalType.Value) (other : Expression t)
    (x : Option Int) :
    (b.compareWith type value other).eval x =
      (other.eval x).map fun o => (b.leftward type).eval o (value.map (t.internalType.toInt ·)) := by
  unfold compareWith leftward
  cases h : other.eval x with
  | none => split_ifs <;> simp [Predicate.eval, Expression.eval, h]
  | some o => split_ifs <;> simp [Predicate.eval, Expression.eval, h, ComparisonType.flip_eval]

theorem eval_arithmetic_some {inner : t.internalType.Value} (hinner : b.innerConstant = some inner) (n : Int) :
    b.arithmetic.eval (some n) =
      if t.Holds (b.operation (t.internalType.toInt inner) n) then
        some (some (b.operation (t.internalType.toInt inner) n)) else none := by
  unfold arithmetic operation
  rw [hinner]
  split_ifs <;> simp_all [Expression.eval]

theorem eval_arithmetic_none {inner : t.internalType.Value} (hinner : b.innerConstant = some inner) :
    b.arithmetic.eval none = some none := by
  unfold arithmetic
  rw [hinner]
  split_ifs <;> simp [Expression.eval]

theorem eval_arithmetic_null (hinner : b.innerConstant = none) (x : Option Int) : b.arithmetic.eval x = some none := by
  unfold arithmetic
  rw [hinner]
  cases x <;> split_ifs <;> simp [Expression.eval]

/-- The rule leaves an expression with the value of the original one, wherever that does not overflow. -/
def Preserves (b : Bindings t) : Prop :=
  ∃ a, b.apply = .done a ∧ ∀ x : Option t.internalType.Value,
    b.original.eval (x.map (t.internalType.toInt ·)) ≠ none →
      a.result.eval (x.map (t.internalType.toInt ·)) = b.original.eval (x.map (t.internalType.toInt ·))

/-- A decision is right if it gives the truth values of the original comparison. -/
def Right (b : Bindings t) (k c : Int) : Decision → Prop
  | .unchanged => True
  | .moved flipped r => ∀ n, t.Holds n → t.Holds (b.operation c n) →
      (b.leftward (b.turned flipped)).compare n r = (b.leftward b.comparison).compare (b.operation c n) k
  | .fixed value => ¬ b.comparison.IsDistinct ∧ ∀ n, t.Holds n → t.Holds (b.operation c n) →
      (b.leftward b.comparison).compare (b.operation c n) k = value

theorem leftward_turned_eval_none (flipped : Bool) (r k : Int) :
    (b.leftward (b.turned flipped)).eval none (some r) = (b.leftward b.comparison).eval none (some k) := by
  have hleft (type : ComparisonType) : (b.leftward type).eval none (some r) = type.eval none (some r) := by
    unfold leftward
    split_ifs
    · exact type.flip_eval_none r
    · rfl
  have hturned : (b.turned flipped).eval none (some r) = b.comparison.eval none (some r) := by
    unfold turned
    split_ifs
    · exact b.comparison.flip_eval_none r
    · rfl
  rw [ComparisonType.eval_none _ r k, hleft, hleft, hturned]

theorem isDistinct_leftward : (b.leftward b.comparison).IsDistinct ↔ b.comparison.IsDistinct := by
  unfold leftward
  split_ifs
  · cases b.comparison <;> simp [ComparisonType.IsDistinct, ComparisonType.flip]
  · rfl

section Constants

variable {inner outer : t.internalType.Value} (hinner : b.innerConstant = some inner)
  (houter : b.outerConstant = some outer)

include hinner houter

theorem eval_original_none :
    b.original.eval none = some ((b.leftward b.comparison).eval none (some (t.internalType.toInt outer))) := by
  unfold original
  rw [eval_compareWith, eval_arithmetic_none hinner, houter]
  rfl

theorem eval_original_some (n : Int) :
    b.original.eval (some n) =
      if t.Holds (b.operation (t.internalType.toInt inner) n) then
        some (some ((b.leftward b.comparison).compare (b.operation (t.internalType.toInt inner) n)
          (t.internalType.toInt outer)))
      else none := by
  unfold original
  rw [eval_compareWith, eval_arithmetic_some hinner, houter]
  split_ifs <;> rfl

theorem preserves_iff {a : Applied t} (happly : b.apply = .done a) :
    b.Preserves ↔
      a.result.eval none = some ((b.leftward b.comparison).eval none (some (t.internalType.toInt outer))) ∧
        ∀ n, t.Holds n → t.Holds (b.operation (t.internalType.toInt inner) n) →
          a.result.eval (some n) = some (some ((b.leftward b.comparison).compare
            (b.operation (t.internalType.toInt inner) n) (t.internalType.toInt outer))) := by
  have hnone := eval_original_none hinner houter
  have hsome := eval_original_some hinner houter
  constructor
  · rintro ⟨a', ha', h⟩
    obtain rfl : a = a' := by
      rw [happly] at ha'
      exact Outcome.done.inj ha'
    constructor
    · have := h none (by rw [map_none, hnone]; exact some_ne_none _)
      rw [← hnone]
      exact this
    · intro n hn hop
      obtain ⟨v, rfl⟩ := t.exists_value hn
      have hv := hsome (t.internalType.toInt v)
      rw [if_pos hop] at hv
      have := h (some v) (by rw [map_some, hv]; exact some_ne_none _)
      rw [← hv]
      exact this
  · rintro ⟨hnull, hnumbers⟩
    refine ⟨a, happly, fun x hx => ?_⟩
    cases x with
    | none => exact hnull.trans hnone.symm
    | some v =>
      rw [map_some] at hx ⊢
      rw [hsome] at hx ⊢
      split_ifs at hx ⊢ with hop
      · exact hnumbers _ (t.holds_toInt v) hop
      · exact absurd rfl hx

theorem preserves_iff_right {a : Applied t} {d : Decision} (happly : b.apply = .done a) (h : b.Leaves a d) :
    b.Preserves ↔ b.Right (t.internalType.toInt outer) (t.internalType.toInt inner) d := by
  rw [preserves_iff hinner houter happly]
  cases d with
  | unchanged =>
    refine ⟨fun _ => trivial, fun _ => ?_⟩
    rw [show a = b.unchanged from h]
    refine ⟨eval_original_none hinner houter, fun n _ hop => ?_⟩
    exact (eval_original_some hinner houter n).trans (if_pos hop)
  | moved flipped r =>
    obtain ⟨v, rfl, rfl⟩ := h
    have hresult (x : Option Int) : (b.moved (b.turned flipped) v).result.eval x =
        some ((b.leftward (b.turned flipped)).eval x (some (t.internalType.toInt v))) := by
      show (b.compareWith _ _ _).eval x = _
      rw [eval_compareWith]
      rfl
    simp only [hresult]
    constructor
    · rintro ⟨-, h⟩ n hn hop
      exact some.inj (some.inj (h n hn hop))
    · intro h
      refine ⟨congrArg some (leftward_turned_eval_none flipped _ _), fun n hn hop => ?_⟩
      rw [← h n hn hop]
      rfl
  | fixed value =>
    rw [show a = b.constantOrNull value from h]
    have hnone : (b.constantOrNull value).result.eval none = some none := rfl
    have hsome (n : Int) : (b.constantOrNull value).result.eval (some n) = some (some value) := rfl
    simp only [hnone, hsome, some.injEq, Right]
    rw [eq_comm (a := none), ComparisonType.eval_none_eq_none_iff, isDistinct_leftward]
    simp only [eq_comm (a := value)]

end Constants

/-! ## Reading the constants -/

/-- `static_cast<hugeint_t>` of a `uhugeint_t` takes the highest bit for a sign. -/
def read (t : IntegerType) (n : Int) : Int := if t = .uhugeint ∧ 2 ^ 127 ≤ n then n - 2 ^ 128 else n

/-- The constants of this type that `NumericCast<int64_t>` refuses. -/
def Unreadable (t : IntegerType) (n : Int) : Prop := t = .ubigint ∧ 2 ^ 63 ≤ n

instance (t : IntegerType) (n : Int) : Decidable (Unreadable t n) := inferInstanceAs (Decidable (_ ∧ _))

theorem toInt_eq_read (v : Hugeint) : v.toInt = read .uhugeint v.toNat := by
  unfold read
  rcases v.toInt_cases with ⟨hlt, hint⟩ | ⟨hge, hint⟩
  · rw [if_neg (by omega), hint]
  · rw [if_pos ⟨rfl, by omega⟩, hint]

theorem integralValueGet_ubigint (v : BitVec 64) :
    integralValueGet .ubigint v =
      if v.toNat < 2 ^ 63 then .done (Hugeint.convertInteger v.toNat) else .error (informationLoss v.toNat) := rfl

theorem integralValueGet_error {v : t.internalType.Value} (h : Unreadable t (t.internalType.toInt v)) :
    ∃ message, integralValueGet t v = .error message := by
  obtain ⟨rfl, hge⟩ := h
  have hge' : ¬ BitVec.toNat v < 2 ^ 63 := by
    have : (2 : Int) ^ 63 ≤ (BitVec.toNat v : Int) := hge
    omega
  exact ⟨_, (integralValueGet_ubigint v).trans (if_neg hge')⟩

theorem integralValueGet_done {v : t.internalType.Value} (h : ¬ Unreadable t (t.internalType.toInt v)) :
    ∃ number, integralValueGet t v = .done number ∧ number.toInt = read t (t.internalType.toInt v) := by
  obtain ⟨hlo, hhi⟩ := t.holds_toInt v
  cases t with
  | hugeint => exact ⟨v, rfl, rfl⟩
  | uhugeint =>
    refine ⟨v, rfl, (toInt_eq_read v).trans (congrArg (read .uhugeint) ?_)⟩
    unfold Hugeint.toNat
    push_cast
    rfl
  | ubigint =>
    have hlt : BitVec.toNat v < 2 ^ 63 := by
      by_contra hge
      refine h ⟨rfl, ?_⟩
      have : (2 : Int) ^ 63 ≤ (BitVec.toNat v : Int) := by omega
      exact this
    refine ⟨_, (integralValueGet_ubigint v).trans (if_pos hlt), ?_⟩
    exact Hugeint.toInt_convertInteger (by omega)
  | tinyint | smallint | integer | bigint | utinyint | usmallint | uinteger =>
    refine ⟨_, rfl, Hugeint.toInt_convertInteger ⟨le_trans ?_ hlo, lt_of_le_of_lt hhi ?_⟩⟩ <;> decide

theorem preserves_null (h : b.innerConstant = none ∨ b.outerConstant = none) : b.Preserves := by
  have happly : b.apply =
      .done (if b.comparison.IsDistinct then b.unchanged else ⟨some (.constant none), b.original, false⟩) := by
    unfold apply
    rcases h with h | h
    · rw [h]
      cases b.outerConstant <;> exact (apply_ite Outcome.done _ _ _).symm
    · rw [h]
      cases b.innerConstant <;> exact (apply_ite Outcome.done _ _ _).symm
  refine ⟨_, happly, fun x hx => ?_⟩
  by_cases hdistinct : b.comparison.IsDistinct
  · rw [if_pos hdistinct]
    rfl
  · rw [if_neg hdistinct]
    have hnull (type : ComparisonType) (hd : ¬ type.IsDistinct) (l r : Option Int) (hlr : l = none ∨ r = none) :
        type.eval l r = none := by
      rcases hlr with rfl | rfl
      · cases r <;> cases type <;> simp_all [ComparisonType.eval, ComparisonType.IsDistinct]
      · cases l <;> cases type <;> simp_all [ComparisonType.eval, ComparisonType.IsDistinct]
    unfold original at hx ⊢
    rw [eval_compareWith] at hx ⊢
    have hd := mt isDistinct_leftward.mp hdistinct
    cases harith : b.arithmetic.eval (x.map (t.internalType.toInt ·)) with
    | none => exact absurd (by rw [harith]; rfl) hx
    | some o =>
      refine congrArg some (hnull _ hd _ _ ?_).symm
      rcases h with h | h
      · left
        rw [eval_arithmetic_null h] at harith
        exact (some.inj harith).symm
      · right
        rw [h]
        rfl

end Bindings

end Haybarn.Optimizer
