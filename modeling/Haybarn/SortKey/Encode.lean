/-
Sort keys row by row: the bytes of a value, as a function of the value alone. They are an ordered code for the
order of the rows under the modifiers.
-/
import Haybarn.SortKey.Construct

namespace Haybarn.SortKey

open Common Lib

/-! ## The bytes of a value -/

/-- A value behind its validity byte. `missing` is what there is behind that of a `NULL`. -/
def encodeNullable {α : Type} (modifiers : OrderModifiers) (missing : Bytes) (encode : α → Bytes) : Option α → Bytes
  | none => modifiers.nullByte :: missing
  | some a => modifiers.validByte :: encode a

mutual

/-- The bytes of a value behind its validity byte. -/
def encodePayload : (t : LogicalType) → OrderType → Payload t → Bytes
  | .fixed t, order, value => (encodeData t value).map order.flipByte
  | .varchar, order, value => (encodeVarchar value).map order.flipByte
  | .blob, order, value => (encodeBlob value).map order.flipByte
  | .struct ts, order, values => encodeTuple ts order values
  | .list t, order, values =>
    values.flatMap (encodeNullable order.childModifiers (encodeMissing t order) (encodePayload t order)) ++
      [order.flipByte listDelimiter]
  | .array t _, order, values =>
    values.1.flatMap (encodeNullable order.childModifiers (encodeMissing t order) (encodePayload t order)) ++
      [order.flipByte listDelimiter]

/-- The bytes behind the validity byte of a `NULL`: structs and arrays still have their children, all `NULL`. -/
def encodeMissing : (t : LogicalType) → OrderType → Bytes
  | .fixed _, _ | .varchar, _ | .blob, _ | .list _, _ => []
  | .struct ts, order => encodeTuple ts order (Tuple.nulls ts)
  | .array t n, order =>
    (List.replicate n none).flatMap (encodeNullable order.childModifiers (encodeMissing t order) (encodePayload t order)) ++
      [order.flipByte listDelimiter]

/-- The bytes of the fields of a struct. -/
def encodeTuple : (ts : List LogicalType) → OrderType → Tuple ts → Bytes
  | [], _, _ => []
  | t :: ts, order, (value, values) =>
    encodeNullable order.childModifiers (encodeMissing t order) (encodePayload t order) value ++ encodeTuple ts order values

end

/-- The bytes of a value in a column. -/
def encodeValue (t : LogicalType) (modifiers : OrderModifiers) : Value t → Bytes :=
  encodeNullable modifiers (encodeMissing t modifiers.orderType) (encodePayload t modifiers.orderType)

/-- The sort key of a row. -/
def Row.encode : {cs : List Column} → Row cs → Bytes
  | [], _ => []
  | c :: _, (value, values) => encodeValue c.type c.modifiers value ++ Row.encode values

/-! ## Directions -/

theorem apply_eq_eq (order : OrderType) {o : Ordering} : order.apply o = .eq ↔ o = .eq := by
  cases order with
  | ascending => exact Iff.rfl
  | descending => exact Ordering.swap_eq_eq

theorem apply_then (order : OrderType) (o o' : Ordering) :
    order.apply (o.then o') = (order.apply o).then (order.apply o') := by
  cases order with
  | ascending => rfl
  | descending => exact Ordering.swap_then ..

variable {α : Type} {cmp : α → α → Ordering}

theorem compareSeq_apply (order : OrderType) (shorter : Ordering) (cmp : α → α → Ordering) (as bs : List α) :
    compareSeq (order.apply shorter) (fun a b => order.apply (cmp a b)) as bs = order.apply (compareSeq shorter cmp as bs) := by
  cases order with
  | ascending => rfl
  | descending => exact compareSeq_swap shorter cmp as bs

theorem compareNullable_apply (order : OrderType) (null : Ordering) (cmp : α → α → Ordering) (a b : Option α) :
    compareNullable (order.apply null) (fun a b => order.apply (cmp a b)) a b = order.apply (compareNullable null cmp a b) := by
  cases order with
  | ascending => rfl
  | descending => cases a <;> cases b <;> rfl

theorem childModifiers_order (order : OrderType) : order.childModifiers.nullType.order = order.apply .gt := by
  cases order <;> rfl

theorem childModifiers_orderType (order : OrderType) : order.childModifiers.orderType = order := by
  cases order <;> rfl

theorem flip_ordered {encode : α → Bytes} (h : OrderedCode cmp encode) (order : OrderType) :
    OrderedCode (fun a b => order.apply (cmp a b)) (fun a => (encode a).map order.flipByte) := by
  cases order with
  | ascending =>
    have hid : ∀ bytes : Bytes, bytes.map OrderType.ascending.flipByte = bytes := List.map_id
    simp only [hid]
    exact h
  | descending => exact h.map_swap compare_complement

/-! ## Sort keys are an ordered code -/

theorem toNat_succ_byte (b : Utf8Byte) : (b.1 + 1).toNat = b.1.toNat + 1 := by
  have hlt := b.1.toNat_lt
  have hne : b.1.toNat ≠ 255 := fun h => b.2 (UInt8.toNat_inj.1 h)
  rw [UInt8.toNat_add]
  exact Nat.mod_eq_of_lt (by show b.1.toNat + 1 < 256; omega)

theorem varcharByte_ordered : OrderedCode (fun a b : Utf8Byte => compare a.1 b.1) (fun b => [b.1 + 1]) := by
  have hcompare : ∀ a b : Utf8Byte, compare (a.1 + 1) (b.1 + 1) = compare a.1 b.1 := by
    intro a b
    rw [compare_toNat, compare_toNat, toNat_succ_byte, toNat_succ_byte]
    rcases Nat.lt_trichotomy a.1.toNat b.1.toNat with h | h | h
    · rw [Nat.compare_eq_lt.2 h, Nat.compare_eq_lt.2 (by omega)]
    · rw [h, Nat.compare_eq_eq.2 rfl, Nat.compare_eq_eq.2 rfl]
    · rw [Nat.compare_eq_gt.2 h, Nat.compare_eq_gt.2 (by omega)]
  refine ⟨fun {a b} hab => ?_, fun {a b} hab => .here _ _ (hcompare a b) hab⟩
  rw [Std.LawfulEqOrd.compare_eq_iff_eq.1 hab]

theorem varcharByte_head (b : Utf8Byte) : ∃ x u, [b.1 + 1] = x :: u ∧ compare 0 x = .lt ∧ compare x 0 = .gt := by
  refine ⟨b.1 + 1, [], rfl, ?_, ?_⟩
  · rw [compare_toNat, Nat.compare_eq_lt, toNat_succ_byte]
    exact Nat.succ_pos _
  · rw [compare_toNat, Nat.compare_eq_gt, toNat_succ_byte]
    exact Nat.succ_pos _

theorem compareSeq_bytes : ∀ as bs : List Utf8Byte,
    compareSeq .lt (fun a b => compare a.1 b.1) as bs = compare (as.map (·.1)) (bs.map (·.1))
  | [], [] => rfl
  | [], _ :: _ => rfl
  | _ :: _, [] => rfl
  | a :: as, b :: bs => by
    rw [compareSeq, compareSeq_bytes as bs, List.map_cons, List.map_cons, List.compare_cons_cons]

theorem encodeVarchar_ordered :
    OrderedCode (fun a b : List Utf8Byte => compare (a.map (·.1)) (b.map (·.1))) encodeVarchar := by
  have hne : Ordering.lt ≠ .eq := nofun
  have hbytes : encodeVarchar = fun value => value.flatMap (fun b => [b.1 + 1]) ++ [0] := by
    funext value
    rw [encodeVarchar, List.map_eq_flatMap]
    rfl
  rw [hbytes]
  exact (varcharByte_ordered.terminated hne varcharByte_head).congr fun as bs => (compareSeq_bytes as bs).symm

theorem compare_nullByte (modifiers : OrderModifiers) :
    compare modifiers.nullByte modifiers.validByte = modifiers.nullType.order ∧
      compare modifiers.validByte modifiers.nullByte = modifiers.nullType.order.swap := by
  obtain ⟨orderType, nullType⟩ := modifiers
  cases nullType <;> exact ⟨rfl, rfl⟩

theorem encodeNullable_ordered {encode : α → Bytes} (h : OrderedCode cmp encode)
    (modifiers : OrderModifiers) (missing : Bytes) :
    OrderedCode (compareNullable modifiers.nullType.order cmp) (encodeNullable modifiers missing encode) := by
  obtain ⟨hnull, hvalid⟩ := compare_nullByte modifiers
  refine ⟨fun {a b} hab => ?_, fun {a b} hab => ?_⟩
  · cases a with
    | none => cases b with
      | none => rfl
      | some b =>
        cases hn : modifiers.nullType <;> simp [compareNullable, hn, OrderByNullType.order] at hab
    | some a => cases b with
      | none => cases hn : modifiers.nullType <;> simp [compareNullable, hn, OrderByNullType.order] at hab
      | some b => exact congrArg (modifiers.validByte :: ·) (h.same hab)
  · cases a with
    | none => cases b with
      | none => exact absurd rfl hab
      | some b => exact .here _ _ hnull hab
    | some a => cases b with
      | none => exact .here _ _ hvalid hab
      | some b => exact .there _ (h.diverge hab)

theorem encodeNullable_head (order : OrderType) (missing : Bytes) (encode : α → Bytes) (a : Option α) :
    ∃ x u, encodeNullable order.childModifiers missing encode a = x :: u ∧
      compare (order.flipByte listDelimiter) x = order.apply .lt ∧
      compare x (order.flipByte listDelimiter) = (order.apply .lt).swap := by
  cases a with
  | none => exact ⟨_, _, rfl, by cases order <;> rfl, by cases order <;> rfl⟩
  | some a => exact ⟨_, _, rfl, by cases order <;> rfl, by cases order <;> rfl⟩

section Nested

variable {α : Type} {cmp : α → α → Ordering} {encode : α → Bytes} {order : OrderType}

theorem child_ordered (h : OrderedCode (fun a b => order.apply (cmp a b)) encode) (missing : Bytes) :
    OrderedCode (fun a b => order.apply (compareNullable .gt cmp a b)) (encodeNullable order.childModifiers missing encode) := by
  refine (encodeNullable_ordered h order.childModifiers missing).congr fun a b => ?_
  rw [childModifiers_order, compareNullable_apply]

theorem list_ordered (h : OrderedCode (fun a b => order.apply (cmp a b)) encode) (missing : Bytes) :
    OrderedCode (fun as bs => order.apply (compareSeq .lt (compareNullable .gt cmp) as bs))
      (fun as => as.flatMap (encodeNullable order.childModifiers missing encode) ++ [order.flipByte listDelimiter]) := by
  have hne : order.apply .lt ≠ .eq := fun he => nomatch (apply_eq_eq order).1 he
  refine ((child_ordered h missing).terminated hne (encodeNullable_head order missing encode)).congr fun as bs => ?_
  rw [compareSeq_apply]

end Nested

mutual

theorem encodePayload_ordered : (t : LogicalType) → (order : OrderType) →
    OrderedCode (fun a b => order.apply (Payload.compare t a b)) (encodePayload t order)
  | .fixed t, order => flip_ordered (encodeData_ordered t) order
  | .varchar, order => flip_ordered encodeVarchar_ordered order
  | .blob, order => flip_ordered escaped_ordered order
  | .struct ts, order => encodeTuple_ordered ts order
  | .list t, order => list_ordered (encodePayload_ordered t order) (encodeMissing t order)
  | .array t _, order => (list_ordered (encodePayload_ordered t order) (encodeMissing t order)).comp Subtype.val

theorem encodeTuple_ordered : (ts : List LogicalType) → (order : OrderType) →
    OrderedCode (fun a b => order.apply (Tuple.compare ts a b)) (encodeTuple ts order)
  | [], order => ⟨fun _ => rfl, fun hab => absurd ((apply_eq_eq order).2 rfl) hab⟩
  | t :: ts, order => by
    have hchild := (child_ordered (encodePayload_ordered t order) (encodeMissing t order)).comp
      (Prod.fst : Tuple (t :: ts) → Value t)
    have hchildren := (encodeTuple_ordered ts order).comp (Prod.snd : Tuple (t :: ts) → Tuple ts)
    exact (hchild.append hchildren).congr fun a b => apply_then order ..

end

theorem encodeValue_ordered (t : LogicalType) (modifiers : OrderModifiers) :
    OrderedCode (Value.compare t modifiers) (encodeValue t modifiers) :=
  encodeNullable_ordered (encodePayload_ordered t modifiers.orderType) modifiers _

theorem encode_ordered : (cs : List Column) → OrderedCode (Row.compare : Row cs → Row cs → Ordering) Row.encode
  | [] => ⟨fun _ => rfl, fun hab => absurd rfl hab⟩
  | c :: cs => ((encodeValue_ordered c.type c.modifiers).comp Prod.fst).append ((encode_ordered cs).comp Prod.snd)

/-! ## Rows that compare equal -/

theorem compareNullable_eq_eq {null : Ordering} (hnull : null ≠ .eq)
    (h : ∀ a b, cmp a b = .eq ↔ a = b) (a b : Option α) : compareNullable null cmp a b = .eq ↔ a = b := by
  cases a with
  | none => cases b with
    | none => exact iff_of_true rfl rfl
    | some b => exact iff_of_false hnull nofun
  | some a => cases b with
    | none => exact iff_of_false (fun he => hnull (Ordering.swap_eq_eq.1 he)) nofun
    | some b => exact (h a b).trans Option.some_inj.symm

theorem compareSeq_eq_eq {α : Type} {cmp : α → α → Ordering} (h : ∀ a b, cmp a b = .eq ↔ a = b) :
    ∀ as bs : List α, compareSeq .lt cmp as bs = .eq ↔ as = bs
  | [], [] => iff_of_true rfl rfl
  | [], _ :: _ => iff_of_false nofun nofun
  | _ :: _, [] => iff_of_false nofun nofun
  | a :: as, b :: bs => by rw [compareSeq, Ordering.then_eq_eq, h, compareSeq_eq_eq h, List.cons.injEq]

theorem gt_ne_eq : Ordering.gt ≠ .eq := nofun

mutual

theorem payload_compare_eq_eq : (t : LogicalType) → (a b : Payload t) → (Payload.compare t a b = .eq ↔ a = b)
  | .fixed t, _, _ => ⟨fun h => toInt_injective t (compare_eq_iff_eq.1 h), fun h => compare_eq_iff_eq.2 (congrArg t.toInt h)⟩
  | .varchar, a, b => by
    rw [Payload.compare, Std.LawfulEqOrd.compare_eq_iff_eq]
    exact (List.map_injective_iff.2 Subtype.val_injective).eq_iff
  | .blob, _, _ => Std.LawfulEqOrd.compare_eq_iff_eq
  | .struct ts, a, b => tuple_compare_eq_eq ts a b
  | .list t, a, b => compareSeq_eq_eq (compareNullable_eq_eq gt_ne_eq (payload_compare_eq_eq t)) a b
  | .array t _, a, b =>
    (compareSeq_eq_eq (compareNullable_eq_eq gt_ne_eq (payload_compare_eq_eq t)) a.1 b.1).trans Subtype.ext_iff.symm

theorem tuple_compare_eq_eq : (ts : List LogicalType) → (a b : Tuple ts) → (Tuple.compare ts a b = .eq ↔ a = b)
  | [], _, _ => iff_of_true rfl rfl
  | t :: ts, (a, as), (b, bs) => by
    rw [Tuple.compare, Ordering.then_eq_eq, compareNullable_eq_eq gt_ne_eq (payload_compare_eq_eq t),
      tuple_compare_eq_eq ts, Prod.mk.injEq]

end

theorem row_compare_eq_eq : {cs : List Column} → (a b : Row cs) → (Row.compare a b = .eq ↔ a = b)
  | [], _, _ => iff_of_true rfl rfl
  | c :: cs, (a, as), (b, bs) => by
    have hnull : c.modifiers.nullType.order ≠ .eq := by cases c.modifiers.nullType <;> exact nofun
    rw [Row.compare, Ordering.then_eq_eq, row_compare_eq_eq, Prod.mk.injEq, Value.compare,
      compareNullable_eq_eq hnull fun a b => (apply_eq_eq _).trans (payload_compare_eq_eq c.type a b)]

end Haybarn.SortKey
