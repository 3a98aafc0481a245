/-
The construction of sort keys, column by column, gives every row the bytes of its values; and the lengths that are
computed before are the lengths of these bytes.
-/
import Mathlib.Algebra.BigOperators.Group.List.Basic
import Haybarn.SortKey.Encode

namespace Haybarn.SortKey

open Common Lib List

instance : Std.Associative (fun a b : Bytes => a ++ b) := ⟨List.append_assoc⟩

instance : Std.LawfulRightIdentity (fun a b : Bytes => a ++ b) [] := ⟨List.append_nil⟩

/-! ## Writes -/

section Writes

variable {chunk : SortKeyChunk} {keys : SortKeys} {lengths : Lengths}

/-- Every row of a chunk appends to its key. -/
def SortKeys.writeRows (keys : SortKeys) (chunk : SortKeyChunk) (f : Nat → Bytes) : SortKeys :=
  scatterRows (· ++ ·) chunk.getResultIndex f chunk.rows keys

/-- Every row of a chunk adds to its length. -/
def Lengths.addRows (lengths : Lengths) (chunk : SortKeyChunk) (f : Nat → Nat) : Lengths :=
  scatterRows (· + ·) chunk.getResultIndex f chunk.rows lengths

/-- The rows of the chunk have different results. -/
def SortKeyChunk.Separate (chunk : SortKeyChunk) : Prop := (chunk.rows.map chunk.getResultIndex).Nodup

theorem separate_top (start stop : Nat) : SortKeyChunk.Separate ⟨start, stop, none⟩ := by
  have hid : (fun r => SortKeyChunk.getResultIndex ⟨start, stop, none⟩ r) = id := rfl
  show ((SortKeyChunk.rows ⟨start, stop, none⟩).map (fun r => SortKeyChunk.getResultIndex ⟨start, stop, none⟩ r)).Nodup
  rw [hid, map_id]
  exact nodup_range' _ (by decide)

theorem rows_single (r : Nat) (resultIndex : Option Nat) : SortKeyChunk.rows ⟨r, r + 1, resultIndex⟩ = [r] := by
  unfold SortKeyChunk.rows
  rw [Nat.add_sub_cancel_left]
  rfl

theorem rows_ofEntry (entry : Nat × Nat) (i : Nat) : (SortKeyChunk.ofEntry entry i).rows = range' entry.1 entry.2 := by
  unfold SortKeyChunk.rows SortKeyChunk.ofEntry
  rw [Nat.add_sub_cancel_left]

theorem separate_single (r : Nat) (resultIndex : Option Nat) : SortKeyChunk.Separate ⟨r, r + 1, resultIndex⟩ := by
  unfold SortKeyChunk.Separate
  rw [rows_single]
  exact nodup_singleton _

theorem write_write (keys : SortKeys) (i : Nat) (a b : Bytes) : (keys.write i a).write i b = keys.write i (a ++ b) :=
  scatter_scatter ..

theorem write_nil (keys : SortKeys) (i : Nat) : keys.write i [] = keys := by
  have hnil : keys.write i [] = Function.update keys i (keys i ++ []) := rfl
  rw [hnil, append_nil, Function.update_eq_self]

theorem writeRows_writeRows (h : chunk.Separate) (keys : SortKeys) (f g : Nat → Bytes) :
    (keys.writeRows chunk f).writeRows chunk g = keys.writeRows chunk fun r => f r ++ g r :=
  scatterRows_scatterRows h keys

theorem writeRows_congr {f g : Nat → Bytes} (h : ∀ r ∈ chunk.rows, f r = g r) (keys : SortKeys) :
    keys.writeRows chunk f = keys.writeRows chunk g :=
  scatterRows_congr h keys

theorem foldr_append (f : Nat → Bytes) : ∀ rows : List Nat, (rows.map f).foldr (fun a b => a ++ b) [] = rows.flatMap f
  | [] => rfl
  | r :: rows => by rw [map_cons, foldr_cons, foldr_append f rows, flatMap_cons]

theorem writeRows_ofEntry (keys : SortKeys) (entry : Nat × Nat) (i : Nat) (f : Nat → Bytes) :
    keys.writeRows (.ofEntry entry i) f = keys.write i ((range' entry.1 entry.2).flatMap f) := by
  refine (scatterRows_const (e := []) i _ keys).trans ?_
  rw [rows_ofEntry, foldr_append]
  rfl

theorem writeRows_single (keys : SortKeys) (r i : Nat) (f : Nat → Bytes) :
    keys.writeRows ⟨r, r + 1, some i⟩ f = keys.write i (f r) := by
  refine (writeRows_ofEntry keys (r, 1) i f).trans ?_
  rw [range'_one, flatMap_singleton]

end Writes

/-! ## Keys -/

theorem templatedConstructSortKey_eq {α : Type} (encode : α → Bytes) (format : UnifiedVectorFormat α)
    (modifiers : OrderModifiers) (chunk : SortKeyChunk) (keys : SortKeys) :
    templatedConstructSortKey encode format modifiers chunk keys = keys.writeRows chunk fun r =>
      encodeNullable modifiers [] (fun a => (encode a).map modifiers.orderType.flipByte)
        (getNullable format r fun _ value => value) := by
  refine foldl_ext _ _ _ fun keys r _ => ?_
  unfold getNullable
  cases hvalid : format.validity (format.sel r) with
  | false => simp [hvalid, encodeNullable, SortKeys.write]
  | true =>
    simp only [hvalid, Bool.not_true, Bool.false_eq_true, if_false, if_true, encodeNullable]
    exact write_write ..

theorem validityByte_cons {α β : Type} (format : UnifiedVectorFormat α) (modifiers : OrderModifiers) (r : Nat)
    (get : Nat → α → β) (missing : Bytes) (encode : β → Bytes) :
    encodeNullable modifiers missing encode (getNullable format r get) =
      validityByte format modifiers r :: if format.validity (format.sel r) then
        encode (get (format.sel r) (format.data (format.sel r))) else missing := by
  unfold getNullable validityByte
  cases hvalid : format.validity (format.sel r) with
  | false => simp [hvalid, encodeNullable]
  | true => simp [hvalid, encodeNullable]

theorem map_eq_replicate {α : Type} {get : Nat → Option α} {start n : Nat} (h : ∀ i ∈ range' start n, get i = none) :
    (range' start n).map get = replicate n none := by
  rw [map_congr_left h, map_const', length_range']

theorem encodeValue_child (t : LogicalType) (order : OrderType) : encodeValue t order.childModifiers =
    encodeNullable order.childModifiers (encodeMissing t order) (encodePayload t order) := by
  rw [encodeValue, childModifiers_orderType]

theorem constructElements_eq (t : LogicalType) (child : Vector t) (order : OrderType) (entry : Nat × Nat) (i : Nat)
    (keys : SortKeys)
    (h : constructSortKeyRecursive t child order.childModifiers (.ofEntry entry i) keys =
      keys.writeRows (.ofEntry entry i) fun r => encodeValue t order.childModifiers (Vector.get t child r)) :
    (if entry.2 > 0 then constructSortKeyRecursive t child order.childModifiers (.ofEntry entry i) keys else keys) =
      keys.write i (((range' entry.1 entry.2).map (Vector.get t child)).flatMap
        (encodeNullable order.childModifiers (encodeMissing t order) (encodePayload t order))) := by
  rw [h, writeRows_ofEntry, encodeValue_child, flatMap_map]
  split
  · rfl
  · next hzero =>
    have hlength : entry.2 = 0 := Nat.eq_zero_of_not_pos hzero
    rw [hlength, range'_zero, flatMap_nil, write_nil]

theorem encode_struct {ts : List LogicalType} (format : UnifiedVectorFormat Unit) (children : Vectors ts)
    (modifiers : OrderModifiers) {r : Nat}
    (hnull : format.validity (format.sel r) = false → Vectors.get ts children r = Tuple.nulls ts) :
    encodeValue (.struct ts) modifiers (Vector.get (.struct ts) (format, children) r) =
      [validityByte format modifiers r] ++ encodeTuple ts modifiers.orderType (Vectors.get ts children r) := by
  rw [encodeValue, Vector.get, validityByte_cons]
  cases hvalid : format.validity (format.sel r) with
  | true => rfl
  | false =>
    rw [hnull hvalid]
    rfl

theorem encode_array {t : LogicalType} {n : Nat} (format : UnifiedVectorFormat Unit) (child : Vector t)
    (modifiers : OrderModifiers) {r : Nat} (hnulls : Vector.NullsBelow (.array t n) (format, child) r) :
    encodeValue (.array t n) modifiers (Vector.get (.array t n) (format, child) r) =
      validityByte format modifiers r :: (((range' (n * format.sel r) n).map (Vector.get t child)).flatMap
        (encodeNullable modifiers.orderType.childModifiers (encodeMissing t modifiers.orderType)
          (encodePayload t modifiers.orderType)) ++ [modifiers.orderType.flipByte listDelimiter]) := by
  rw [encodeValue, Vector.get, validityByte_cons]
  cases hvalid : format.validity (format.sel r) with
  | true => rfl
  | false =>
    have hnone : ∀ i ∈ range' (n * format.sel r) n, Vector.get t child i = none := fun i hi => (hnulls i hi).1 hvalid
    rw [if_neg nofun, map_eq_replicate hnone]
    rfl

mutual

theorem constructSortKeyRecursive_eq : (t : LogicalType) → (vector : Vector t) → (modifiers : OrderModifiers) →
    (chunk : SortKeyChunk) → (keys : SortKeys) → (∀ r ∈ chunk.rows, Vector.NullsBelow t vector r) →
    constructSortKeyRecursive t vector modifiers chunk keys =
      keys.writeRows chunk fun r => encodeValue t modifiers (Vector.get t vector r)
  | .fixed t, format, modifiers, chunk, keys, _ => templatedConstructSortKey_eq (encodeData t) format modifiers chunk keys
  | .varchar, format, modifiers, chunk, keys, _ => templatedConstructSortKey_eq encodeVarchar format modifiers chunk keys
  | .blob, format, modifiers, chunk, keys, _ => templatedConstructSortKey_eq encodeBlob format modifiers chunk keys
  | .struct ts, (format, children), modifiers, chunk, keys, hnulls => by
    have hvalue : ∀ r ∈ chunk.rows, encodeValue (.struct ts) modifiers (Vector.get (.struct ts) (format, children) r) =
        [validityByte format modifiers r] ++ encodeTuple ts modifiers.orderType (Vectors.get ts children r) := fun r hr =>
      encode_struct format children modifiers (hnulls r hr).1
    have hchildren : ∀ r ∈ chunk.rows, Vectors.NullsBelow ts children r := fun r hr => (hnulls r hr).2
    rw [writeRows_congr hvalue]
    obtain ⟨start, stop, resultIndex⟩ := chunk
    cases resultIndex with
    | some i =>
      refine foldl_ext _ _ _ fun keys r hr => ?_
      have hrow : ∀ r' ∈ SortKeyChunk.rows ⟨r, r + 1, some i⟩, Vectors.NullsBelow ts children r' := by
        intro r' hr'
        rw [rows_single] at hr'
        obtain rfl := mem_singleton.1 hr'
        exact hchildren r' hr
      rw [constructSortKeyChildren_eq ts children modifiers.orderType ⟨r, r + 1, some i⟩ _ (separate_single r _) hrow,
        writeRows_single, write_write]
      rfl
    | none =>
      have hfirst : (SortKeyChunk.rows ⟨start, stop, none⟩).foldl
          (fun (keys : SortKeys) r => keys.write r [validityByte format modifiers r]) keys =
          keys.writeRows ⟨start, stop, none⟩ fun r => [validityByte format modifiers r] := rfl
      show constructSortKeyChildren ts children modifiers.orderType.childModifiers ⟨start, stop, none⟩ _ = _
      rw [hfirst, constructSortKeyChildren_eq ts children modifiers.orderType ⟨start, stop, none⟩ _ (separate_top start stop)
        hchildren, writeRows_writeRows (separate_top start stop)]
  | .list t, (format, child), modifiers, chunk, keys, hnulls => by
    refine foldl_ext _ _ _ fun keys r hr => ?_
    dsimp only
    rw [encodeValue, Vector.get, validityByte_cons]
    cases hvalid : format.validity (format.sel r) with
    | false => rfl
    | true =>
      have hentry : ∀ r' ∈ (SortKeyChunk.ofEntry (format.data (format.sel r)) (chunk.getResultIndex r)).rows,
          Vector.NullsBelow t child r' := by
        intro r' hr'
        rw [rows_ofEntry] at hr'
        exact hnulls r hr hvalid r' hr'
      rw [if_neg nofun, if_pos rfl, constructElements_eq t child modifiers.orderType _ _ _
        (constructSortKeyRecursive_eq t child modifiers.orderType.childModifiers _ _ hentry), write_write, write_write]
      rfl
  | .array t n, (format, child), modifiers, chunk, keys, hnulls => by
    refine foldl_ext _ _ _ fun keys r hr => ?_
    have hentry : ∀ r' ∈ (SortKeyChunk.ofEntry (n * format.sel r, n) (chunk.getResultIndex r)).rows,
        Vector.NullsBelow t child r' := by
      intro r' hr'
      rw [rows_ofEntry] at hr'
      exact (hnulls r hr r' hr').2
    dsimp only
    rw [encode_array format child modifiers (hnulls r hr), constructElements_eq t child modifiers.orderType _ _ _
      (constructSortKeyRecursive_eq t child modifiers.orderType.childModifiers _ _ hentry), write_write, write_write]
    rfl

theorem constructSortKeyChildren_eq : (ts : List LogicalType) → (children : Vectors ts) → (order : OrderType) →
    (chunk : SortKeyChunk) → (keys : SortKeys) → chunk.Separate → (∀ r ∈ chunk.rows, Vectors.NullsBelow ts children r) →
    constructSortKeyChildren ts children order.childModifiers chunk keys =
      keys.writeRows chunk fun r => encodeTuple ts order (Vectors.get ts children r)
  | [], _, order, chunk, keys, _, _ => by
    exact (foldl_fixed' (fun r => write_nil keys (chunk.getResultIndex r)) chunk.rows).symm
  | t :: ts, (child, children), order, chunk, keys, hseparate, hnulls => by
    rw [constructSortKeyChildren, constructSortKeyRecursive_eq t child order.childModifiers chunk keys fun r hr => (hnulls r hr).1,
      constructSortKeyChildren_eq ts children order chunk _ hseparate fun r hr => (hnulls r hr).2,
      writeRows_writeRows hseparate, encodeValue_child]
    rfl

end

/-! ## Lengths -/

section Lengths

variable {chunk : SortKeyChunk} {lengths : Lengths}

theorem add_add (lengths : Lengths) (i a b : Nat) : (lengths.add i a).add i b = lengths.add i (a + b) := scatter_scatter ..

theorem add_zero_length (lengths : Lengths) (i : Nat) : lengths.add i 0 = lengths := Function.update_eq_self ..

theorem addRows_congr {f g : Nat → Nat} (h : ∀ r ∈ chunk.rows, f r = g r) (lengths : Lengths) :
    lengths.addRows chunk f = lengths.addRows chunk g :=
  scatterRows_congr h lengths

theorem addRows_some (lengths : Lengths) (start stop i : Nat) (f : Nat → Nat) :
    lengths.addRows ⟨start, stop, some i⟩ f = lengths.add i ((SortKeyChunk.rows ⟨start, stop, some i⟩).map f).sum :=
  scatterRows_const (e := 0) i _ lengths

theorem addRows_addRows (chunk : SortKeyChunk) (lengths : Lengths) (f g : Nat → Nat) :
    (lengths.addRows chunk f).addRows chunk g = lengths.addRows chunk fun r => f r + g r := by
  obtain ⟨start, stop, resultIndex⟩ := chunk
  cases resultIndex with
  | none => exact scatterRows_scatterRows (separate_top start stop) lengths
  | some i => rw [addRows_some, addRows_some, add_add, addRows_some, sum_map_add]

theorem addRows_ofEntry (lengths : Lengths) (entry : Nat × Nat) (i : Nat) (f : Nat → Nat) :
    lengths.addRows (.ofEntry entry i) f = lengths.add i ((range' entry.1 entry.2).map f).sum := by
  rw [← rows_ofEntry entry i]
  exact addRows_some lengths entry.1 (entry.1 + entry.2) i f

theorem length_encodeVarchar (value : List Utf8Byte) : (encodeVarchar value).length = value.length + 1 := by
  rw [encodeVarchar, length_append, length_map]
  rfl

theorem length_encodeBlob (value : Bytes) : (encodeBlob value).length = blobEncodeLength value := by
  have hescape : ∀ value : Bytes, (value.flatMap escapeByte).length = value.length + value.countP (· ≤ 1) := by
    intro value
    induction value with
    | nil => rfl
    | cons b value ih =>
      rw [flatMap_cons, length_append, ih, length_cons, countP_cons, escapeByte]
      by_cases hb : b ≤ 1
      · simp only [hb, if_true, decide_true, length_cons, length_nil]
        omega
      · simp only [hb, if_false, decide_false, length_cons, length_nil]
        simp
        omega
  rw [encodeBlob, length_append, hescape]
  rfl

theorem templatedGetSortKeyLength_eq {α : Type} (encodeLength : α → Nat) (encode : α → Bytes)
    (hlength : ∀ a, (encode a).length = encodeLength a) (format : UnifiedVectorFormat α) (modifiers : OrderModifiers)
    (chunk : SortKeyChunk) (lengths : Lengths) :
    templatedGetSortKeyLength encodeLength format chunk lengths = lengths.addRows chunk fun r =>
      (encodeNullable modifiers [] (fun a => (encode a).map modifiers.orderType.flipByte)
        (getNullable format r fun _ value => value)).length := by
  refine foldl_ext _ _ _ fun lengths r _ => ?_
  dsimp only
  rw [validityByte_cons]
  cases hvalid : format.validity (format.sel r) with
  | false => rfl
  | true =>
    rw [if_neg nofun, if_pos rfl, add_add, length_cons, length_map, hlength, Nat.add_comm]
    rfl

theorem elementsLength_eq (t : LogicalType) (child : Vector t) (order : OrderType) (entry : Nat × Nat) (i : Nat)
    (lengths : Lengths)
    (h : getSortKeyLengthRecursive t child (.ofEntry entry i) lengths =
      lengths.addRows (.ofEntry entry i) fun r => (encodeValue t order.childModifiers (Vector.get t child r)).length) :
    (if entry.2 > 0 then getSortKeyLengthRecursive t child (.ofEntry entry i) lengths else lengths) =
      lengths.add i (((range' entry.1 entry.2).map (Vector.get t child)).flatMap
        (encodeNullable order.childModifiers (encodeMissing t order) (encodePayload t order))).length := by
  rw [h, addRows_ofEntry, encodeValue_child, flatMap_map, length_flatMap]
  split
  · rfl
  · next hzero =>
    have hlength : entry.2 = 0 := Nat.eq_zero_of_not_pos hzero
    rw [hlength, range'_zero, map_nil, sum_nil, add_zero_length]

mutual

theorem getSortKeyLengthRecursive_eq : (t : LogicalType) → (vector : Vector t) → (modifiers : OrderModifiers) →
    (chunk : SortKeyChunk) → (lengths : Lengths) → (∀ r ∈ chunk.rows, Vector.NullsBelow t vector r) →
    getSortKeyLengthRecursive t vector chunk lengths =
      lengths.addRows chunk fun r => (encodeValue t modifiers (Vector.get t vector r)).length
  | .fixed t, format, modifiers, chunk, lengths, _ =>
    templatedGetSortKeyLength_eq _ (encodeData t) (length_encodeData t) format modifiers chunk lengths
  | .varchar, format, modifiers, chunk, lengths, _ =>
    templatedGetSortKeyLength_eq _ encodeVarchar length_encodeVarchar format modifiers chunk lengths
  | .blob, format, modifiers, chunk, lengths, _ =>
    templatedGetSortKeyLength_eq _ encodeBlob length_encodeBlob format modifiers chunk lengths
  | .struct ts, (format, children), modifiers, chunk, lengths, hnulls => by
    have hvalue : ∀ r ∈ chunk.rows, (encodeValue (.struct ts) modifiers (Vector.get (.struct ts) (format, children) r)).length =
        1 + (encodeTuple ts modifiers.orderType (Vectors.get ts children r)).length := by
      intro r hr
      rw [encode_struct format children modifiers (hnulls r hr).1, length_append]
      rfl
    rw [addRows_congr hvalue, getSortKeyLengthRecursive, ← addRows_addRows chunk lengths (fun _ => 1)]
    exact getSortKeyLengthChildren_eq ts children modifiers.orderType chunk _ fun r hr => (hnulls r hr).2
  | .list t, (format, child), modifiers, chunk, lengths, hnulls => by
    refine foldl_ext _ _ _ fun lengths r hr => ?_
    dsimp only
    rw [encodeValue, Vector.get, validityByte_cons]
    cases hvalid : format.validity (format.sel r) with
    | false => rfl
    | true =>
      have hentry : ∀ r' ∈ (SortKeyChunk.ofEntry (format.data (format.sel r)) (chunk.getResultIndex r)).rows,
          Vector.NullsBelow t child r' := by
        intro r' hr'
        rw [rows_ofEntry] at hr'
        exact hnulls r hr hvalid r' hr'
      rw [if_neg nofun, if_pos rfl, elementsLength_eq t child modifiers.orderType _ _ _
        (getSortKeyLengthRecursive_eq t child modifiers.orderType.childModifiers _ _ hentry), add_add, add_add]
      refine congrArg (lengths.add (chunk.getResultIndex r)) ?_
      rw [encodePayload, length_cons, length_append, length_singleton]
      omega
  | .array t n, (format, child), modifiers, chunk, lengths, hnulls => by
    refine foldl_ext _ _ _ fun lengths r hr => ?_
    have hentry : ∀ r' ∈ (SortKeyChunk.ofEntry (n * format.sel r, n) (chunk.getResultIndex r)).rows,
        Vector.NullsBelow t child r' := by
      intro r' hr'
      rw [rows_ofEntry] at hr'
      exact (hnulls r hr r' hr').2
    dsimp only
    rw [encode_array format child modifiers (hnulls r hr), elementsLength_eq t child modifiers.orderType _ _ _
      (getSortKeyLengthRecursive_eq t child modifiers.orderType.childModifiers _ _ hentry), add_add, add_add]
    refine congrArg (lengths.add (chunk.getResultIndex r)) ?_
    rw [length_cons, length_append, length_singleton]
    dsimp only
    omega

theorem getSortKeyLengthChildren_eq : (ts : List LogicalType) → (children : Vectors ts) → (order : OrderType) →
    (chunk : SortKeyChunk) → (lengths : Lengths) → (∀ r ∈ chunk.rows, Vectors.NullsBelow ts children r) →
    getSortKeyLengthChildren ts children chunk lengths =
      lengths.addRows chunk fun r => (encodeTuple ts order (Vectors.get ts children r)).length
  | [], _, order, chunk, lengths, _ =>
    (foldl_fixed' (fun r => add_zero_length lengths (chunk.getResultIndex r)) chunk.rows).symm
  | t :: ts, (child, children), order, chunk, lengths, hnulls => by
    rw [getSortKeyLengthChildren,
      getSortKeyLengthRecursive_eq t child order.childModifiers chunk lengths fun r hr => (hnulls r hr).1,
      getSortKeyLengthChildren_eq ts children order chunk _ fun r hr => (hnulls r hr).2, addRows_addRows, encodeValue_child]
    refine addRows_congr (fun r _ => ?_) lengths
    rw [Vectors.get, encodeTuple, length_append]

end

end Lengths

end Haybarn.SortKey
