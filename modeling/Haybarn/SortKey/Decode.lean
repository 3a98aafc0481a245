/-
Decoding sort keys: the model of `DecodeSortKey`, which reads back what was written. Together with the order of the
keys and their lengths this is what sort keys are for.
-/
import Haybarn.SortKey.Refine

namespace Haybarn.SortKey

open Common Lib List Nat

/-! ## Reading -/

theorem flipByte_flipByte (order : OrderType) (b : UInt8) : order.flipByte (order.flipByte b) = b := by
  cases order with
  | ascending => rfl
  | descending => exact UInt8.not_not

/-- What is read from a key, and what is left of it. There is nothing if the key ends too early, or an array has
another number of elements. -/
abbrev Decode (α : Type) := Bytes → Option (α × Bytes)

/-- `SortKeyConstantOperator::Decode`. -/
def decodeConstant (t : FixedType) (order : OrderType) : Decode t.Value := fun input =>
  if input.length < t.size then none
  else some (decodeData t ((input.take t.size).map order.flipByte), input.drop t.size)

/-- `SortKeyVarcharOperator::Decode`: bytes up to the delimiter. -/
def decodeVarchar (order : OrderType) : Decode (List Utf8Byte)
  | [] => none
  | b :: input =>
    if h : b = order.flipByte stringDelimiter then some ([], input)
    else
      have hne : order.flipByte b - 1 ≠ 255 := fun he => h (by
        have hzero : order.flipByte b = stringDelimiter := by
          rw [UInt8.sub_eq_iff_eq_add.1 he]
          rfl
        rw [← hzero, flipByte_flipByte])
      (decodeVarchar order input).map fun (value, rest) => (⟨order.flipByte b - 1, hne⟩ :: value, rest)

/-- `SortKeyBlobOperator::Decode`: the byte behind an escape is taken as it is. -/
def decodeBlob (order : OrderType) : Decode Bytes
  | [] => none
  | [b] => if b = order.flipByte stringDelimiter then some ([], []) else none
  | b :: c :: input =>
    if b = order.flipByte stringDelimiter then some ([], c :: input)
    else if b = order.flipByte 1 then (decodeBlob order input).map fun (value, rest) => (order.flipByte c :: value, rest)
    else (decodeBlob order (c :: input)).map fun (value, rest) => (order.flipByte b :: value, rest)

/-- The loop of `DecodeSortKeyList`: elements up to the delimiter. Each takes at least one byte, so that the fuel
does not run out. -/
def decodeUntil {α : Type} (delimiter : UInt8) (decode : Decode α) : Nat → Decode (List α)
  | 0, _ => none
  | _ + 1, [] => none
  | fuel + 1, b :: input =>
    if b = delimiter then some ([], input)
    else do
      let (a, input) ← decode (b :: input)
      let (as, input) ← decodeUntil delimiter decode fuel input
      return (a :: as, input)

/-- The loop of `DecodeSortKeyArray`: as many elements as the array has, and the delimiter. -/
def decodeExactly {α : Type} (delimiter : UInt8) (decode : Decode α) : (n : Nat) → Decode { as : List α // as.length = n }
  | _, [] => none
  | 0, b :: input => if b = delimiter then some (⟨[], rfl⟩, input) else none
  | n + 1, b :: input =>
    if b = delimiter then none
    else do
      let (a, input) ← decode (b :: input)
      let (as, input) ← decodeExactly delimiter decode n input
      return (⟨a :: as.1, congrArg (· + 1) as.2⟩, input)

/-- Structs and arrays have their children also where they are `NULL`. -/
def LogicalType.hasChildren : LogicalType → Bool
  | .struct _ | .array _ _ => true
  | _ => false

/-- A value behind its validity byte. -/
def decodeNullable {α : Type} (modifiers : OrderModifiers) (hasChildren : Bool) (decode : Decode α) : Decode (Option α)
  | [] => none
  | b :: input =>
    if b = modifiers.nullByte then
      if hasChildren then (decode input).map fun (_, rest) => (none, rest) else some (none, input)
    else (decode input).map fun (a, rest) => (some a, rest)

mutual

/-- `DecodeSortKeyRecursive`, behind the validity byte. -/
def decodePayload : (t : LogicalType) → OrderType → Decode (Payload t)
  | .fixed t, order => decodeConstant t order
  | .varchar, order => decodeVarchar order
  | .blob, order => decodeBlob order
  | .struct ts, order => decodeTuple ts order
  | .list t, order => fun input =>
    decodeUntil (order.flipByte listDelimiter) (decodeNullable order.childModifiers t.hasChildren (decodePayload t order))
      (input.length + 1) input
  | .array t n, order =>
    decodeExactly (order.flipByte listDelimiter) (decodeNullable order.childModifiers t.hasChildren (decodePayload t order)) n

/-- The children of a struct. -/
def decodeTuple : (ts : List LogicalType) → OrderType → Decode (Tuple ts)
  | [], _ => fun input => some ((), input)
  | t :: ts, order => fun input => do
    let (value, input) ← decodeNullable order.childModifiers t.hasChildren (decodePayload t order) input
    let (values, input) ← decodeTuple ts order input
    return ((value, values), input)

end

/-- The columns of a key. -/
def decodeRow : (cs : List Column) → Decode (Row cs)
  | [] => fun input => some ((), input)
  | c :: cs => fun input => do
    let (value, input) ←
      decodeNullable c.modifiers c.type.hasChildren (decodePayload c.type c.modifiers.orderType) input
    let (values, input) ← decodeRow cs input
    return ((value, values), input)

/-- `DecodeSortKey` of a `BLOB`. -/
def decodeSortKey (cs : List Column) (key : Bytes) : Option (Row cs) := (decodeRow cs key).map (·.1)

/-- `DecodeSortKey` of a `BIGINT`: the bytes are swapped back. -/
def decodeSortKeyBigint (cs : List Column) (key : BitVec 64) : Option (Row cs) :=
  decodeSortKey cs (storeBigEndian 8 key.toNat)

/-! ## Round trips -/

/-- What is written is read back, whatever comes behind it. -/
def RoundTrip {α : Type} (encode : α → Bytes) (decode : Decode α) : Prop :=
  ∀ a rest, decode (encode a ++ rest) = some (a, rest)

theorem map_flipByte_flipByte (order : OrderType) (bytes : Bytes) :
    (bytes.map order.flipByte).map order.flipByte = bytes := by
  have hid : order.flipByte ∘ order.flipByte = id := funext fun b => flipByte_flipByte order b
  rw [map_map, hid, map_id]

theorem roundTrip_constant (t : FixedType) (order : OrderType) :
    RoundTrip (fun value => (encodeData t value).map order.flipByte) (decodeConstant t order) := by
  intro value rest
  have hlength : ((encodeData t value).map order.flipByte).length = t.size := by
    rw [length_map, length_encodeData]
  have hlong : ¬ ((encodeData t value).map order.flipByte ++ rest).length < t.size := by
    rw [length_append, hlength]
    omega
  have hdecode : decodeData t (encodeData t value) = value := by
    have h := decodeData_encodeData t value []
    rwa [append_nil] at h
  rw [decodeConstant, if_neg hlong, take_left' hlength, drop_left' hlength, map_flipByte_flipByte, hdecode]

theorem flipByte_inj (order : OrderType) {a b : UInt8} (h : order.flipByte a = order.flipByte b) : a = b := by
  rw [← flipByte_flipByte order a, h, flipByte_flipByte]

theorem roundTrip_varchar (order : OrderType) :
    RoundTrip (fun value => (encodeVarchar value).map order.flipByte) (decodeVarchar order) := by
  intro value rest
  induction value with
  | nil => exact dif_pos rfl
  | cons b value ih =>
    have hne : ¬ order.flipByte (b.1 + 1) = order.flipByte stringDelimiter := by
      intro h
      have hzero := congrArg UInt8.toNat (flipByte_inj order h)
      rw [toNat_succ_byte] at hzero
      exact succ_ne_zero _ hzero
    have hback : order.flipByte (order.flipByte (b.1 + 1)) - 1 = b.1 := by
      rw [flipByte_flipByte, UInt8.add_sub_cancel]
    have hcons : (encodeVarchar (b :: value)).map order.flipByte ++ rest =
        order.flipByte (b.1 + 1) :: ((encodeVarchar value).map order.flipByte ++ rest) := rfl
    rw [hcons, decodeVarchar, dif_neg hne, ih]
    simp only [Option.map_some, hback]

theorem roundTrip_blob (order : OrderType) :
    RoundTrip (fun value => (encodeBlob value).map order.flipByte) (decodeBlob order) := by
  intro value rest
  induction value with
  | nil =>
    show decodeBlob order (order.flipByte stringDelimiter :: rest) = _
    cases rest with
    | nil => exact if_pos rfl
    | cons c rest => exact if_pos rfl
  | cons b value ih =>
    have hdelimiter : ∀ {x : UInt8}, x ≠ 0 → ¬ order.flipByte x = order.flipByte stringDelimiter := fun hx h =>
      hx (flipByte_inj order h)
    by_cases hb : b ≤ 1
    · have hcons : (encodeBlob (b :: value)).map order.flipByte ++ rest =
          order.flipByte 1 :: order.flipByte b :: ((encodeBlob value).map order.flipByte ++ rest) := by
        unfold encodeBlob
        rw [flatMap_cons, escapeByte, if_pos hb]
        rfl
      rw [hcons, decodeBlob, if_neg (hdelimiter (by decide)), if_pos rfl, ih, Option.map_some, flipByte_flipByte]
    · have hcons : (encodeBlob (b :: value)).map order.flipByte ++ rest =
          order.flipByte b :: ((encodeBlob value).map order.flipByte ++ rest) := by
        unfold encodeBlob
        rw [flatMap_cons, escapeByte, if_neg hb]
        rfl
      have hzero : b ≠ 0 := fun h => hb (h ▸ by decide)
      have hone : ¬ order.flipByte b = order.flipByte 1 := fun h => hb (by
        rw [flipByte_inj order h]
        decide)
      have htail : (encodeBlob value).map order.flipByte ++ rest ≠ [] := by
        unfold encodeBlob
        rw [map_append]
        exact append_ne_nil_of_left_ne_nil (append_ne_nil_of_right_ne_nil _ (cons_ne_nil _ _)) _
      obtain ⟨c, input, hinput⟩ := exists_cons_of_ne_nil htail
      rw [hcons]
      dsimp only at ih
      rw [hinput] at ih ⊢
      rw [decodeBlob, if_neg (hdelimiter hzero), if_neg hone, ih, Option.map_some, flipByte_flipByte]

theorem nullByte_ne_validByte (modifiers : OrderModifiers) : modifiers.validByte ≠ modifiers.nullByte := by
  obtain ⟨orderType, nullType⟩ := modifiers
  cases nullType with
  | nullsFirst => exact (by decide : nullLastByte ≠ nullFirstByte)
  | nullsLast => exact (by decide : nullFirstByte ≠ nullLastByte)

theorem roundTrip_nullable {α : Type} {encode : α → Bytes} {decode : Decode α} (h : RoundTrip encode decode)
    (modifiers : OrderModifiers) {hasChildren : Bool} {missing : Bytes}
    (hmissing : if hasChildren then ∃ a, missing = encode a else missing = []) :
    RoundTrip (encodeNullable modifiers missing encode) (decodeNullable modifiers hasChildren decode) := by
  intro a rest
  cases a with
  | some a =>
    show decodeNullable modifiers hasChildren decode (modifiers.validByte :: (encode a ++ rest)) = _
    rw [decodeNullable, if_neg (nullByte_ne_validByte modifiers), h]
    rfl
  | none =>
    show decodeNullable modifiers hasChildren decode (modifiers.nullByte :: (missing ++ rest)) = _
    rw [decodeNullable, if_pos rfl]
    cases hasChildren with
    | false =>
      obtain rfl : missing = [] := hmissing
      rfl
    | true =>
      obtain ⟨a, rfl⟩ : ∃ a, missing = encode a := hmissing
      rw [if_pos rfl, h]
      rfl

section Elements

variable {α : Type} {encode : α → Bytes} {decode : Decode α} {delimiter : UInt8}

/-- Elements are not taken for the delimiter. -/
def NotDelimiter (delimiter : UInt8) (encode : α → Bytes) : Prop := ∀ a, ∃ b u, encode a = b :: u ∧ b ≠ delimiter

theorem decodeUntil_encode (h : RoundTrip encode decode) (hhead : NotDelimiter delimiter encode) (rest : Bytes) :
    ∀ (as : List α) {fuel : Nat}, as.length < fuel →
      decodeUntil delimiter decode fuel (as.flatMap encode ++ delimiter :: rest) = some (as, rest)
  | [], fuel + 1, _ => if_pos rfl
  | a :: as, fuel + 1, hfuel => by
    obtain ⟨b, u, hcons, hne⟩ := hhead a
    have hdecode := h a (as.flatMap encode ++ delimiter :: rest)
    rw [flatMap_cons, append_assoc]
    rw [hcons, cons_append] at hdecode ⊢
    rw [decodeUntil, if_neg hne, hdecode]
    simp only [Option.bind_eq_bind, Option.bind_some, decodeUntil_encode h hhead rest as (lt_of_succ_lt_succ hfuel)]
    rfl

theorem decodeExactly_encode (h : RoundTrip encode decode) (hhead : NotDelimiter delimiter encode) (rest : Bytes) :
    ∀ (as : List α) {n : Nat} (hn : as.length = n),
      decodeExactly delimiter decode n (as.flatMap encode ++ delimiter :: rest) = some (⟨as, hn⟩, rest)
  | [], 0, _ => if_pos rfl
  | a :: as, n + 1, hn => by
    obtain ⟨b, u, hcons, hne⟩ := hhead a
    have hdecode := h a (as.flatMap encode ++ delimiter :: rest)
    rw [flatMap_cons, append_assoc]
    rw [hcons, cons_append] at hdecode ⊢
    rw [decodeExactly, if_neg hne, hdecode]
    simp only [Option.bind_eq_bind, Option.bind_some, decodeExactly_encode h hhead rest as (succ.inj hn)]
    rfl

end Elements

theorem notDelimiter_nullable {α : Type} (order : OrderType) (missing : Bytes) (encode : α → Bytes) :
    NotDelimiter (order.flipByte listDelimiter) (encodeNullable order.childModifiers missing encode) := by
  intro a
  obtain ⟨x, u, hcons, hcompare, -⟩ := encodeNullable_head order missing encode a
  refine ⟨x, u, hcons, fun he => ?_⟩
  rw [he, Std.ReflOrd.compare_self] at hcompare
  exact nomatch (apply_eq_eq order).1 hcompare.symm

theorem length_le_flatMap {α : Type} {delimiter : UInt8} {encode : α → Bytes} (h : NotDelimiter delimiter encode) :
    ∀ as : List α, as.length ≤ (as.flatMap encode).length
  | [] => le_refl 0
  | a :: as => by
    obtain ⟨b, u, hcons, -⟩ := h a
    have ih := length_le_flatMap h as
    rw [flatMap_cons, length_append, hcons, length_cons, length_cons]
    omega

theorem encodeMissing_children (t : LogicalType) (order : OrderType) :
    if t.hasChildren then ∃ a, encodeMissing t order = encodePayload t order a else encodeMissing t order = [] := by
  cases t with
  | struct ts => exact ⟨Tuple.nulls ts, by rw [encodeMissing, encodePayload]⟩
  | array t n => exact ⟨⟨replicate n none, length_replicate⟩, by rw [encodeMissing, encodePayload]⟩
  | fixed t | varchar | blob | list t => simp [LogicalType.hasChildren, encodeMissing]

mutual

theorem roundTrip_payload : (t : LogicalType) → (order : OrderType) → RoundTrip (encodePayload t order) (decodePayload t order)
  | .fixed t, order => roundTrip_constant t order
  | .varchar, order => roundTrip_varchar order
  | .blob, order => roundTrip_blob order
  | .struct ts, order => roundTrip_tuple ts order
  | .list t, order => by
    intro values rest
    have hchild := roundTrip_nullable (roundTrip_payload t order) order.childModifiers (encodeMissing_children t order)
    have hhead := notDelimiter_nullable order (encodeMissing t order) (encodePayload t order)
    have hlength := length_le_flatMap hhead values
    rw [encodePayload, decodePayload, append_assoc]
    refine decodeUntil_encode hchild hhead rest values ?_
    rw [length_append]
    omega
  | .array t n, order => by
    rintro ⟨values, hn⟩ rest
    have hchild := roundTrip_nullable (roundTrip_payload t order) order.childModifiers (encodeMissing_children t order)
    have hhead := notDelimiter_nullable order (encodeMissing t order) (encodePayload t order)
    rw [encodePayload, decodePayload, append_assoc]
    exact decodeExactly_encode hchild hhead rest values hn

theorem roundTrip_tuple : (ts : List LogicalType) → (order : OrderType) → RoundTrip (encodeTuple ts order) (decodeTuple ts order)
  | [], _ => fun _ _ => rfl
  | t :: ts, order => by
    rintro ⟨value, values⟩ rest
    have hchild := roundTrip_nullable (roundTrip_payload t order) order.childModifiers (encodeMissing_children t order)
    rw [encodeTuple, decodeTuple, append_assoc]
    dsimp only
    rw [hchild]
    simp only [Option.bind_eq_bind, Option.bind_some, roundTrip_tuple ts order values rest]
    rfl

end

theorem roundTrip_row : (cs : List Column) → RoundTrip (Row.encode : Row cs → Bytes) (decodeRow cs)
  | [] => fun _ _ => rfl
  | c :: cs => by
    rintro ⟨value, values⟩ rest
    have hvalue := roundTrip_nullable (roundTrip_payload c.type c.modifiers.orderType) c.modifiers
      (encodeMissing_children c.type c.modifiers.orderType)
    rw [Row.encode, decodeRow, append_assoc, encodeValue]
    dsimp only
    rw [hvalue]
    simp only [Option.bind_eq_bind, Option.bind_some, roundTrip_row cs values rest]
    rfl

/-! ## Keys of rows -/

section Keys

variable {cs : List Column}

variable {size : Nat}

theorem mem_rows_top {r : Nat} : r ∈ SortKeyChunk.rows ⟨0, size, none⟩ ↔ r < size := by
  have hrows : SortKeyChunk.rows ⟨0, size, none⟩ = range' 0 size := rfl
  rw [hrows, mem_range'_1]
  omega

theorem writeRows_top (keys : SortKeys) {r : Nat} (hr : r < size) (f : Nat → Bytes) :
    keys.writeRows ⟨0, size, none⟩ f r = keys r ++ f r :=
  scatterRows_of_mem (separate_top 0 size) (mem_rows_top.2 hr)

theorem addRows_top (lengths : Lengths) {r : Nat} (hr : r < size) (f : Nat → Nat) :
    lengths.addRows ⟨0, size, none⟩ f r = lengths r + f r :=
  scatterRows_of_mem (separate_top 0 size) (mem_rows_top.2 hr)

theorem constructSortKeys_apply : ∀ {cs : List Column} (vectors : Columns cs) {size r : Nat} (keys : SortKeys), r < size →
    (∀ r < size, vectors.NullsBelow r) → constructSortKeys vectors size keys r = keys r ++ (vectors.row r).encode
  | [], _, _, _, keys, _, _ => (append_nil _).symm
  | c :: cs, (vector, vectors), size, r, keys, hr, hnulls => by
    have hfirst := constructSortKeyRecursive_eq c.type vector c.modifiers ⟨0, size, none⟩ keys fun r hr =>
      (hnulls r (mem_rows_top.1 hr)).1
    rw [constructSortKeys, hfirst, constructSortKeys_apply vectors _ hr fun r hr => (hnulls r hr).2, writeRows_top keys hr,
      Columns.row, Row.encode, append_assoc]

/-- The space that a row does not use: that of the `NULL`s in columns of constant size. -/
def Row.unused : {cs : List Column} → Row cs → Nat
  | [], _ => 0
  | ⟨.fixed t, _⟩ :: _, (value, values) => (if value.isNone then t.size else 0) + Row.unused values
  | _ :: _, (_, values) => Row.unused values

theorem getSortKeyLengths_apply : ∀ {cs : List Column} (vectors : Columns cs) {size r : Nat} (info : SortKeyLengthInfo),
    r < size → (∀ r < size, vectors.NullsBelow r) →
    (getSortKeyLengths vectors size info).variableLengths r + (getSortKeyLengths vectors size info).constantLength =
      info.variableLengths r + info.constantLength + (vectors.row r).encode.length + (vectors.row r).unused
  | [], _, _, _, _, _, _ => rfl
  | c :: cs, (vector, vectors), size, r, info, hr, hnulls => by
    have hrest := getSortKeyLengths_apply vectors (getSortKeyLength c.type vector size info) hr fun r hr => (hnulls r hr).2
    have hfirst : ∀ r ∈ SortKeyChunk.rows ⟨0, size, none⟩, Vector.NullsBelow c.type vector r := fun r hr =>
      (hnulls r (mem_rows_top.1 hr)).1
    rw [getSortKeyLengths, hrest, Columns.row, Row.encode, length_append]
    obtain ⟨t, modifiers⟩ := c
    cases t with
    | fixed t =>
      have hlength : (encodeValue (.fixed t) modifiers (Vector.get (.fixed t) vector r)).length +
          (if (Vector.get (.fixed t) vector r).isNone then t.size else 0) = 1 + t.size := by
        cases Vector.get (.fixed t) vector r with
        | none => exact congrArg (· + t.size) rfl
        | some value =>
          show ((encodeData t value).map modifiers.orderType.flipByte).length + 1 + 0 = 1 + t.size
          rw [length_map, length_encodeData, add_zero, add_comm]
      simp only [getSortKeyLength, Row.unused]
      omega
    | varchar | blob | struct ts | list t | array t n =>
      simp only [getSortKeyLength, Row.unused]
      rw [getSortKeyLengthRecursive_eq _ vector modifiers _ _ hfirst, addRows_top _ hr]
      dsimp only
      omega

end Keys

/-! ## Packed keys -/

theorem storeBigEndian_loadBigEndian : ∀ bytes : Bytes, storeBigEndian bytes.length (loadBigEndian bytes) = bytes ∧
    loadBigEndian bytes < 256 ^ bytes.length
  | [] => ⟨rfl, by decide⟩
  | b :: bytes => by
    obtain ⟨ih, hlt⟩ := storeBigEndian_loadBigEndian bytes
    have hpos : 0 < 256 ^ bytes.length := Nat.pow_pos (by decide)
    have hb := b.toNat_lt
    rw [loadBigEndian, length_cons, storeBigEndian]
    have hdiv : (b.toNat * 256 ^ bytes.length + loadBigEndian bytes) / 256 ^ bytes.length = b.toNat := by
      rw [Nat.mul_comm, Nat.mul_add_div hpos, Nat.div_eq_of_lt hlt, Nat.add_zero]
    have hmod : (b.toNat * 256 ^ bytes.length + loadBigEndian bytes) % 256 ^ bytes.length = loadBigEndian bytes := by
      rw [Nat.mul_comm, Nat.mul_add_mod, Nat.mod_eq_of_lt hlt]
    refine ⟨?_, ?_⟩
    · rw [hdiv, hmod, ih, UInt8.ofNat_toNat]
    · rw [Nat.pow_succ']
      calc b.toNat * 256 ^ bytes.length + loadBigEndian bytes
          < b.toNat * 256 ^ bytes.length + 256 ^ bytes.length := Nat.add_lt_add_left hlt _
        _ = (b.toNat + 1) * 256 ^ bytes.length := (Nat.succ_mul ..).symm
        _ ≤ 256 * 256 ^ bytes.length := Nat.mul_le_mul_right _ hb

theorem compare_loadBigEndian {u v : Bytes} {o : Ordering} (hlength : u.length = v.length) (h : Diverge o u v) :
    compare (loadBigEndian u) (loadBigEndian v) = o := by
  obtain ⟨hu, hu'⟩ := storeBigEndian_loadBigEndian u
  obtain ⟨hv, hv'⟩ := storeBigEndian_loadBigEndian v
  rw [← hlength] at hv hv'
  by_cases heq : compare (loadBigEndian u) (loadBigEndian v) = .eq
  · rw [Nat.compare_eq_eq.1 heq, hv] at hu
    rw [hu] at h
    exact absurd prefix_rfl h.not_isPrefix
  · have hdiverge := diverge_storeBigEndian hu' hv' heq
    rw [hu, hv] at hdiverge
    exact hdiverge.compare_eq.symm.trans h.compare_eq

/-- The bytes of a key and zeros up to eight bytes. -/
def pad (key : Bytes) : Bytes := key ++ List.replicate (8 - key.length) 0

theorem length_pad {key : Bytes} (h : key.length ≤ 8) : (pad key).length = 8 := by
  rw [pad, length_append, length_replicate]
  omega

theorem encode_length_le : ∀ {cs : List Column} {size : Nat}, constantSize cs = some size → ∀ row : Row cs,
    row.encode.length ≤ size
  | [], _, _, _ => zero_le _
  | ⟨.fixed t, modifiers⟩ :: cs, size, hsize, (value, values) => by
    obtain ⟨size', hsize', rfl⟩ := Option.map_eq_some_iff.1 hsize
    have ih := encode_length_le hsize' values
    have hvalue : (encodeValue (.fixed t) modifiers value).length ≤ t.size + 1 := by
      cases value with
      | none => exact succ_le_succ (zero_le _)
      | some value =>
        show ((encodeData t value).map modifiers.orderType.flipByte).length + 1 ≤ t.size + 1
        rw [length_map, length_encodeData]
    rw [Row.encode, length_append]
    dsimp only
    omega

theorem validityBytes_le (modifiers : OrderModifiers) : modifiers.nullByte.toNat ≤ 2 ∧ modifiers.validByte.toNat ≤ 2 := by
  obtain ⟨orderType, nullType⟩ := modifiers
  cases nullType with
  | nullsFirst => exact (by decide : nullFirstByte.toNat ≤ 2 ∧ nullLastByte.toNat ≤ 2)
  | nullsLast => exact (by decide : nullLastByte.toNat ≤ 2 ∧ nullFirstByte.toNat ≤ 2)

variable {cs : List Column}

theorem loadBigEndian_pad_lt (row : Row cs) (h : row.encode.length ≤ 8) :
    loadBigEndian (pad row.encode) < 2 ^ 63 := by
  have hlength := length_pad h
  cases cs with
  | nil => exact (by decide : loadBigEndian (replicate 8 0) < 2 ^ 63)
  | cons c cs =>
    obtain ⟨value, values⟩ := row
    obtain ⟨hnull, hvalid⟩ := validityBytes_le c.modifiers
    obtain ⟨b, u, hcons, hb⟩ : ∃ b u, encodeValue c.type c.modifiers value = b :: u ∧ b.toNat ≤ 2 := by
      cases value with
      | none => exact ⟨_, _, rfl, hnull⟩
      | some value => exact ⟨_, _, rfl, hvalid⟩
    obtain ⟨rest, hpad⟩ : ∃ rest, pad (@Row.encode (c :: cs) (value, values)) = b :: rest := by
      rw [pad, Row.encode, hcons]
      exact ⟨_, rfl⟩
    rw [hpad] at hlength ⊢
    obtain ⟨-, hlt⟩ := storeBigEndian_loadBigEndian rest
    rw [length_cons] at hlength
    have hseven := succ.inj hlength
    rw [loadBigEndian]
    rw [hseven] at hlt ⊢
    omega

theorem toInt_packed (row : Row cs) (h : row.encode.length ≤ 8) :
    (BitVec.ofNat 64 (loadBigEndian (pad row.encode))).toInt = loadBigEndian (pad row.encode) ∧
      storeBigEndian 8 (BitVec.ofNat 64 (loadBigEndian (pad row.encode))).toNat = pad row.encode := by
  have hlt := loadBigEndian_pad_lt row h
  have hstore := (storeBigEndian_loadBigEndian (pad row.encode)).1
  rw [length_pad h] at hstore
  have htoNat : (BitVec.ofNat 64 (loadBigEndian (pad row.encode))).toNat = loadBigEndian (pad row.encode) := by
    rw [BitVec.toNat_ofNat, mod_eq_of_lt (by omega)]
  refine ⟨?_, by rw [htoNat, hstore]⟩
  rw [BitVec.toInt_eq_toNat_of_lt (by omega), htoNat]

theorem compare_packed (a b : Row cs) (ha : a.encode.length ≤ 8) (hb : b.encode.length ≤ 8) :
    compare (loadBigEndian (pad a.encode) : Int) (loadBigEndian (pad b.encode)) = Row.compare a b := by
  have hcast : compare (loadBigEndian (pad a.encode) : Int) (loadBigEndian (pad b.encode)) =
      compare (loadBigEndian (pad a.encode)) (loadBigEndian (pad b.encode)) :=
    (compare_toNat_of_nonneg (Int.natCast_nonneg _) (Int.natCast_nonneg _)).symm
  rw [hcast]
  by_cases heq : Row.compare a b = .eq
  · rw [row_compare_eq_eq a b |>.1 heq, Std.ReflOrd.compare_self, (row_compare_eq_eq b b).2 rfl]
  · exact compare_loadBigEndian (by rw [length_pad ha, length_pad hb]) (((encode_ordered cs).diverge heq).append _ _)

/-! ## Sort keys -/

section Results

variable {cs : List Column} {vectors : Columns cs} {rowCount r : Nat} {keys : SortKeys}

theorem createSortKeyBlob_eq (h : createSortKeyBlob vectors rowCount = some keys) :
    keys = constructSortKeys vectors rowCount fun _ => [] := by
  unfold createSortKeyBlob at h
  dsimp only at h
  split at h
  · exact (Option.some.inj h).symm
  · cases h

theorem constantSize_of_bigint (h : createSortKeyBind cs = .bigint) : ∃ size, constantSize cs = some size ∧ size ≤ 8 := by
  unfold createSortKeyBind at h
  split at h
  · next size hsize =>
    split at h
    · next hle => exact ⟨size, hsize, hle⟩
    · cases h
  · cases h

theorem createSortKeyBigint_eq {row : Row cs} (h : constructSortKeys vectors rowCount (fun _ => []) r = row.encode) :
    createSortKeyBigint vectors rowCount r = BitVec.ofNat 64 (loadBigEndian (pad row.encode)) := by
  unfold createSortKeyBigint
  rw [h]
  rfl

end Results

/-- Sort keys are ordered like the rows under the modifiers, they are equal only for equal rows, they have the
length that was computed for them up to the space of `NULL`s in columns of constant size, and they can be decoded. This
is so for the bytes of the keys and, where it is chosen, for their packed form. -/
theorem sortKeys_ordered_decodable {cs : List Column} (A B : Columns cs) {m n i j : Nat} (hi : i < m) (hj : j < n)
    (hA : ∀ r < m, A.NullsBelow r) (hB : ∀ r < n, B.NullsBelow r) :
    (∀ keysA keysB, createSortKeyBlob A m = some keysA → createSortKeyBlob B n = some keysB →
      (keysA i < keysB j ↔ Row.compare (A.row i) (B.row j) = .lt) ∧
      (keysA i = keysB j ↔ A.row i = B.row j) ∧
      (keysA i).length + (A.row i).unused =
        (getSortKeyLengths A m {}).variableLengths i + (getSortKeyLengths A m {}).constantLength ∧
      decodeSortKey cs (keysA i) = some (A.row i)) ∧
    (createSortKeyBind cs = .bigint →
      ((createSortKeyBigint A m i).toInt < (createSortKeyBigint B n j).toInt ↔ Row.compare (A.row i) (B.row j) = .lt) ∧
      (createSortKeyBigint A m i = createSortKeyBigint B n j ↔ A.row i = B.row j) ∧
      decodeSortKeyBigint cs (createSortKeyBigint A m i) = some (A.row i)) := by
  have hkeyA : constructSortKeys A m (fun _ => []) i = (A.row i).encode := constructSortKeys_apply A _ hi hA
  have hkeyB : constructSortKeys B n (fun _ => []) j = (B.row j).encode := constructSortKeys_apply B _ hj hB
  have hdecode : ∀ rest, decodeSortKey cs ((A.row i).encode ++ rest) = some (A.row i) := by
    intro rest
    rw [decodeSortKey, roundTrip_row cs]
    rfl
  refine ⟨fun keysA keysB ha hb => ?_, fun hbind => ?_⟩
  · rw [createSortKeyBlob_eq ha, createSortKeyBlob_eq hb, hkeyA, hkeyB]
    refine ⟨?_, ?_, ?_, ?_⟩
    · rw [← compare_bytes_eq_lt, (encode_ordered cs).compare_eq]
    · rw [(encode_ordered cs).encode_eq_iff, row_compare_eq_eq]
    · rw [getSortKeyLengths_apply A {} hi hA]
      show _ = 0 + 0 + (A.row i).encode.length + (A.row i).unused
      omega
    · have h := hdecode []
      rwa [List.append_nil] at h
  · obtain ⟨size, hsize, hle⟩ := constantSize_of_bigint hbind
    have ha := Nat.le_trans (encode_length_le hsize (A.row i)) hle
    have hb := Nat.le_trans (encode_length_le hsize (B.row j)) hle
    have hcompare := compare_packed (A.row i) (B.row j) ha hb
    rw [createSortKeyBigint_eq hkeyA, createSortKeyBigint_eq hkeyB, ← BitVec.toInt_inj, (toInt_packed _ ha).1,
      (toInt_packed _ hb).1, decodeSortKeyBigint, (toInt_packed _ ha).2]
    refine ⟨?_, ?_, hdecode _⟩
    · rw [← compare_lt_iff_lt, hcompare]
    · rw [← compare_eq_iff_eq, hcompare, row_compare_eq_eq]

/-- Two columns: a list of structs in descending order, and a number. -/
def nestedColumns : List Column :=
  [⟨.list (.struct [.fixed .uint8, .varchar]), ⟨.descending, .nullsLast⟩⟩, ⟨.fixed .int16, ⟨.ascending, .nullsFirst⟩⟩]

/-- The rows `([{7, "a"}], NULL)` and `([{7, NULL}, NULL], -1)`. -/
def nestedChunk : Columns nestedColumns :=
  ((⟨id, fun r => (r, r + 1), fun _ => true⟩,
      (⟨id, fun _ => (), fun r => r != 2⟩,
        (⟨id, fun _ => 7#8, fun r => r != 2⟩, ⟨id, fun _ => [⟨97, by decide⟩], fun r => r = 0⟩, ()))),
    ⟨id, fun _ => (-1 : BitVec 16), fun r => r = 1⟩, ())

theorem nestedChunk_nullsBelow : ∀ r < 2, nestedChunk.NullsBelow r := by
  have hnulls : ∀ r, Columns.NullsBelow nestedChunk r := by
    intro r
    refine ⟨fun _ i _ => ⟨fun hnull => ?_, trivial, trivial, trivial⟩, trivial, trivial⟩
    obtain rfl : i = 2 := by simpa [nestedChunk] using hnull
    rfl
  exact fun r _ => hnulls r

theorem sortKeys_ordered_decodable_nested :
    (∃ keys, createSortKeyBlob nestedChunk 2 = some keys ∧ keys 1 < keys 0) ∧
      Row.compare (nestedChunk.row 1) (nestedChunk.row 0) = .lt := by
  have horder : Row.compare (nestedChunk.row 1) (nestedChunk.row 0) = .lt := by decide +kernel
  obtain ⟨keys, hkeys⟩ := Option.isSome_iff_exists.1 (by decide +kernel : (createSortKeyBlob nestedChunk 2).isSome)
  have hordered := (sortKeys_ordered_decodable nestedChunk nestedChunk (by decide : 1 < 2) (by decide : 0 < 2)
    nestedChunk_nullsBelow nestedChunk_nullsBelow).1 keys keys hkeys hkeys
  exact ⟨⟨keys, hkeys, hordered.1.2 horder⟩, horder⟩

end Haybarn.SortKey
