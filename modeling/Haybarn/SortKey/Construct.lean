/-
Columns and rows for sort keys: the types, the vectors that hold the values of a column, the rows they stand for,
and the order of the rows under the modifiers of an `ORDER BY`.

The construction of sort keys: the model of `create_sort_key.cpp`. A column is taken at a time and appended to the
keys of all rows; the values of a list all go to the key of the row that the list is in.
-/
import Haybarn.Common.Radix
import Haybarn.Lib.Scatter

namespace Haybarn.SortKey

open Common Lib

/-! ## Types -/

/-- The types of columns, without the floating-point types and intervals. -/
inductive LogicalType where
  | fixed (t : FixedType)
  | varchar
  | blob
  | struct (children : List LogicalType)
  | list (child : LogicalType)
  | array (child : LogicalType) (size : Nat)

/-- A byte of a UTF-8 string, which is never `0xFF`. -/
abbrev Utf8Byte := { b : UInt8 // b ≠ 255 }

mutual

/-- The values of a type that are not `NULL`. -/
@[reducible] def Payload : LogicalType → Type
  | .fixed t => t.Value
  | .varchar => List Utf8Byte
  | .blob => Bytes
  | .struct ts => Tuple ts
  | .list t => List (Option (Payload t))
  | .array t n => { values : List (Option (Payload t)) // values.length = n }

/-- The values of the fields of a struct. -/
@[reducible] def Tuple : List LogicalType → Type
  | [] => Unit
  | t :: ts => Option (Payload t) × Tuple ts

end

/-- A value of a type, or `NULL`. -/
abbrev Value (t : LogicalType) := Option (Payload t)

/-- The fields of a struct that is `NULL`. -/
def Tuple.nulls : (ts : List LogicalType) → Tuple ts
  | [] => ()
  | _ :: ts => (none, Tuple.nulls ts)

/-! ## Modifiers -/

inductive OrderType where
  | ascending
  | descending
deriving DecidableEq, Repr

inductive OrderByNullType where
  | nullsFirst
  | nullsLast
deriving DecidableEq, Repr

structure OrderModifiers where
  orderType : OrderType
  nullType : OrderByNullType
deriving DecidableEq, Repr

/-- The modifiers within nested values: where a `NULL` goes depends on the order only. -/
def OrderType.childModifiers : OrderType → OrderModifiers
  | .ascending => ⟨.ascending, .nullsLast⟩
  | .descending => ⟨.descending, .nullsFirst⟩

/-! ## Order -/

/-- Values where `NULL` compares to all others as `null`. -/
def compareNullable {α : Type} (null : Ordering) (cmp : α → α → Ordering) : Option α → Option α → Ordering
  | none, none => .eq
  | none, some _ => null
  | some _, none => null.swap
  | some a, some b => cmp a b

/-- A comparison in ascending or descending order. -/
def OrderType.apply : OrderType → Ordering → Ordering
  | .ascending, o => o
  | .descending, o => o.swap

mutual

/-- The ascending order of values. Nested values have their `NULL`s last, and a list comes before those that it
is a prefix of. -/
def Payload.compare : (t : LogicalType) → Payload t → Payload t → Ordering
  | .fixed t, a, b => Ord.compare (t.toInt a) (t.toInt b)
  | .varchar, a, b => Ord.compare (a.map (·.1)) (b.map (·.1))
  | .blob, a, b => Ord.compare a b
  | .struct ts, a, b => Tuple.compare ts a b
  | .list t, a, b => compareSeq .lt (compareNullable .gt (Payload.compare t)) a b
  | .array t _, a, b => compareSeq .lt (compareNullable .gt (Payload.compare t)) a.1 b.1

def Tuple.compare : (ts : List LogicalType) → Tuple ts → Tuple ts → Ordering
  | [], _, _ => .eq
  | t :: ts, (a, as), (b, bs) => (compareNullable .gt (Payload.compare t) a b).then (Tuple.compare ts as bs)

end

def OrderByNullType.order : OrderByNullType → Ordering
  | .nullsFirst => .lt
  | .nullsLast => .gt

/-- The order of a column. -/
def Value.compare (t : LogicalType) (modifiers : OrderModifiers) : Value t → Value t → Ordering :=
  compareNullable modifiers.nullType.order fun a b => modifiers.orderType.apply (Payload.compare t a b)

/-- A column to order by. -/
structure Column where
  type : LogicalType
  modifiers : OrderModifiers

/-- The values of a row in the columns to order by. -/
@[reducible] def Row : List Column → Type
  | [] => Unit
  | c :: cs => Value c.type × Row cs

/-- The order of rows. -/
def Row.compare : {cs : List Column} → Row cs → Row cs → Ordering
  | [], _, _ => .eq
  | c :: _, (a, as), (b, bs) => (Value.compare c.type c.modifiers a b).then (Row.compare as bs)

/-! ## Vectors -/

mutual

/-- A vector. The children of a struct have a value for each of its rows, those of an array have `size` values for
each row, and a list tells where its values are. -/
@[reducible] def Vector : LogicalType → Type
  | .fixed t => UnifiedVectorFormat t.Value
  | .varchar => UnifiedVectorFormat (List Utf8Byte)
  | .blob => UnifiedVectorFormat Bytes
  | .struct ts => UnifiedVectorFormat Unit × Vectors ts
  | .list t => UnifiedVectorFormat (Nat × Nat) × Vector t
  | .array t _ => UnifiedVectorFormat Unit × Vector t

@[reducible] def Vectors : List LogicalType → Type
  | [] => Unit
  | t :: ts => Vector t × Vectors ts

end

/-- The value at row `r`, if it is valid. -/
def getNullable {α β : Type} (format : UnifiedVectorFormat α) (r : Nat) (get : Nat → α → β) : Option β :=
  let idx := format.sel r
  if format.validity idx then some (get idx (format.data idx)) else none

mutual

/-- The value of a vector at row `r`. -/
def Vector.get : (t : LogicalType) → Vector t → Nat → Value t
  | .fixed _, format, r => getNullable format r fun _ value => value
  | .varchar, format, r => getNullable format r fun _ value => value
  | .blob, format, r => getNullable format r fun _ value => value
  | .struct ts, (format, children), r => getNullable format r fun _ _ => Vectors.get ts children r
  | .list t, (format, child), r => getNullable format r fun _ entry =>
      (List.range' entry.1 entry.2).map (Vector.get t child)
  | .array t n, (format, child), r => getNullable format r fun idx _ =>
      ⟨(List.range' (n * idx) n).map (Vector.get t child), by rw [List.length_map, List.length_range']⟩

def Vectors.get : (ts : List LogicalType) → Vectors ts → Nat → Tuple ts
  | [], _, _ => ()
  | t :: ts, (child, children), r => (Vector.get t child r, Vectors.get ts children r)

end

mutual

/-- `NULL` structs and arrays at row `r`, and in the values of row `r`, have only `NULL` children. -/
def Vector.NullsBelow : (t : LogicalType) → Vector t → Nat → Prop
  | .fixed _, _, _ | .varchar, _, _ | .blob, _, _ => True
  | .struct ts, (format, children), r =>
    (format.validity (format.sel r) = false → Vectors.get ts children r = Tuple.nulls ts) ∧
      Vectors.NullsBelow ts children r
  | .list t, (format, child), r =>
    format.validity (format.sel r) = true →
      ∀ i ∈ List.range' (format.data (format.sel r)).1 (format.data (format.sel r)).2, Vector.NullsBelow t child i
  | .array t n, (format, child), r => ∀ i ∈ List.range' (n * format.sel r) n,
    (format.validity (format.sel r) = false → Vector.get t child i = none) ∧ Vector.NullsBelow t child i

def Vectors.NullsBelow : (ts : List LogicalType) → Vectors ts → Nat → Prop
  | [], _, _ => True
  | t :: ts, (child, children), r => Vector.NullsBelow t child r ∧ Vectors.NullsBelow ts children r

end

/-- The vectors of the columns to order by. -/
@[reducible] def Columns : List Column → Type
  | [] => Unit
  | c :: cs => Vector c.type × Columns cs

/-- A row of the columns. -/
def Columns.row : {cs : List Column} → Columns cs → Nat → Row cs
  | [], _, _ => ()
  | c :: _, (vector, vectors), r => (Vector.get c.type vector r, Columns.row vectors r)

def Columns.NullsBelow : {cs : List Column} → Columns cs → Nat → Prop
  | [], _, _ => True
  | c :: _, (vector, vectors), r => Vector.NullsBelow c.type vector r ∧ Columns.NullsBelow vectors r

/-! ## Bytes -/

def nullFirstByte : UInt8 := 1
def nullLastByte : UInt8 := 2
def stringDelimiter : UInt8 := 0
def listDelimiter : UInt8 := 0

def OrderModifiers.nullByte (modifiers : OrderModifiers) : UInt8 :=
  match modifiers.nullType with
  | .nullsFirst => nullFirstByte
  | .nullsLast => nullLastByte

def OrderModifiers.validByte (modifiers : OrderModifiers) : UInt8 :=
  match modifiers.nullType with
  | .nullsFirst => nullLastByte
  | .nullsLast => nullFirstByte

/-- `flip_bytes`: the bytes of a value are complemented in descending order. -/
def OrderType.flipByte : OrderType → UInt8 → UInt8
  | .ascending, b => b
  | .descending, b => ~~~b

/-- `SortKeyVarcharOperator::Encode`. -/
def encodeVarchar (value : List Utf8Byte) : Bytes := value.map (·.1 + 1) ++ [stringDelimiter]

/-- `SortKeyBlobOperator::Encode`. -/
def encodeBlob (value : Bytes) : Bytes := value.flatMap escapeByte ++ [stringDelimiter]

/-! ## Rows of a chunk -/

structure SortKeyChunk where
  start : Nat
  stop : Nat
  resultIndex : Option Nat

def SortKeyChunk.getResultIndex (chunk : SortKeyChunk) (r : Nat) : Nat := chunk.resultIndex.getD r

def SortKeyChunk.rows (chunk : SortKeyChunk) : List Nat := List.range' chunk.start (chunk.stop - chunk.start)

/-- `list_entry_t`, as a chunk of the child. -/
def SortKeyChunk.ofEntry (entry : Nat × Nat) (resultIndex : Nat) : SortKeyChunk :=
  ⟨entry.1, entry.1 + entry.2, some resultIndex⟩

/-- The keys that have been written so far, for each row of the result. -/
abbrev SortKeys := Nat → Bytes

/-- Bytes at the offset of a key. -/
def SortKeys.write (keys : SortKeys) (resultIndex : Nat) (bytes : Bytes) : SortKeys :=
  scatter (· ++ ·) keys resultIndex bytes

/-! ## Construction -/

/-- `TemplatedConstructSortKey`. Its variants for vectors that are all valid, or have no selection, only leave out
checks. -/
def templatedConstructSortKey {α : Type} (encode : α → Bytes) (format : UnifiedVectorFormat α) (modifiers : OrderModifiers)
    (chunk : SortKeyChunk) (keys : SortKeys) : SortKeys :=
  chunk.rows.foldl (fun keys r =>
    let idx := format.sel r
    if !format.validity idx then keys.write (chunk.getResultIndex r) [modifiers.nullByte]
    else
      let keys := keys.write (chunk.getResultIndex r) [modifiers.validByte]
      keys.write (chunk.getResultIndex r) ((encode (format.data idx)).map modifiers.orderType.flipByte)) keys

/-- The validity byte of a row of a struct, list or array. -/
def validityByte {α : Type} (format : UnifiedVectorFormat α) (modifiers : OrderModifiers) (r : Nat) : UInt8 :=
  if !format.validity (format.sel r) then modifiers.nullByte else modifiers.validByte

mutual

def constructSortKeyRecursive : (t : LogicalType) → Vector t → OrderModifiers → SortKeyChunk → SortKeys → SortKeys
  | .fixed t, format, modifiers, chunk, keys => templatedConstructSortKey (encodeData t) format modifiers chunk keys
  | .varchar, format, modifiers, chunk, keys => templatedConstructSortKey encodeVarchar format modifiers chunk keys
  | .blob, format, modifiers, chunk, keys => templatedConstructSortKey encodeBlob format modifiers chunk keys
  | .struct ts, (format, children), modifiers, chunk, keys =>
    -- `ConstructSortKeyStruct`: in a list the layout is struct by struct
    match chunk.resultIndex with
    | some resultIndex => chunk.rows.foldl (fun keys r =>
        let keys := keys.write resultIndex [validityByte format modifiers r]
        constructSortKeyChildren ts children modifiers.orderType.childModifiers ⟨r, r + 1, some resultIndex⟩ keys) keys
    | none =>
      let keys := chunk.rows.foldl (fun (keys : SortKeys) r => keys.write r [validityByte format modifiers r]) keys
      constructSortKeyChildren ts children modifiers.orderType.childModifiers chunk keys
  | .list t, (format, child), modifiers, chunk, keys =>
    -- `ConstructSortKeyList`: a list that is `NULL` has nothing behind its validity byte
    chunk.rows.foldl (fun keys r =>
      let idx := format.sel r
      let resultIndex := chunk.getResultIndex r
      let keys := keys.write resultIndex [validityByte format modifiers r]
      if !format.validity idx then keys
      else
        let entry := format.data idx
        let keys := if entry.2 > 0 then constructSortKeyRecursive t child modifiers.orderType.childModifiers
          (.ofEntry entry resultIndex) keys else keys
        keys.write resultIndex [modifiers.orderType.flipByte listDelimiter]) keys
  | .array t n, (format, child), modifiers, chunk, keys =>
    -- the same for arrays, whose elements are always written
    chunk.rows.foldl (fun keys r =>
      let resultIndex := chunk.getResultIndex r
      let keys := keys.write resultIndex [validityByte format modifiers r]
      let entry := (n * format.sel r, n)
      let keys := if entry.2 > 0 then constructSortKeyRecursive t child modifiers.orderType.childModifiers
        (.ofEntry entry resultIndex) keys else keys
      keys.write resultIndex [modifiers.orderType.flipByte listDelimiter]) keys

def constructSortKeyChildren : (ts : List LogicalType) → Vectors ts → OrderModifiers → SortKeyChunk → SortKeys → SortKeys
  | [], _, _, _, keys => keys
  | t :: ts, (child, children), modifiers, chunk, keys =>
    constructSortKeyChildren ts children modifiers chunk (constructSortKeyRecursive t child modifiers chunk keys)

end

/-! ## Lengths -/

/-- `GetEncodeLength` of a blob. -/
def blobEncodeLength (value : Bytes) : Nat := value.length + value.countP (· ≤ 1) + 1

/-- `variable_lengths`. -/
abbrev Lengths := Nat → Nat

def Lengths.add (lengths : Lengths) (resultIndex n : Nat) : Lengths := scatter (· + ·) lengths resultIndex n

def templatedGetSortKeyLength {α : Type} (encodeLength : α → Nat) (format : UnifiedVectorFormat α) (chunk : SortKeyChunk)
    (lengths : Lengths) : Lengths :=
  chunk.rows.foldl (fun lengths r =>
    let idx := format.sel r
    let lengths := lengths.add (chunk.getResultIndex r) 1
    if !format.validity idx then lengths
    else lengths.add (chunk.getResultIndex r) (encodeLength (format.data idx))) lengths

mutual

def getSortKeyLengthRecursive : (t : LogicalType) → Vector t → SortKeyChunk → Lengths → Lengths
  | .fixed t, format, chunk, lengths => templatedGetSortKeyLength (fun _ => t.size) format chunk lengths
  | .varchar, format, chunk, lengths => templatedGetSortKeyLength (fun value => value.length + 1) format chunk lengths
  | .blob, format, chunk, lengths => templatedGetSortKeyLength blobEncodeLength format chunk lengths
  | .struct ts, (_, children), chunk, lengths =>
    let lengths := chunk.rows.foldl (fun (lengths : Lengths) r => lengths.add (chunk.getResultIndex r) 1) lengths
    getSortKeyLengthChildren ts children chunk lengths
  | .list t, (format, child), chunk, lengths =>
    chunk.rows.foldl (fun lengths r =>
      let idx := format.sel r
      let resultIndex := chunk.getResultIndex r
      let lengths := lengths.add resultIndex 1
      if !format.validity idx then lengths
      else
        let entry := format.data idx
        let lengths := lengths.add resultIndex 1
        if entry.2 > 0 then getSortKeyLengthRecursive t child (.ofEntry entry resultIndex) lengths else lengths) lengths
  | .array t n, (format, child), chunk, lengths =>
    chunk.rows.foldl (fun lengths r =>
      let resultIndex := chunk.getResultIndex r
      let lengths := lengths.add resultIndex 1
      let entry := (n * format.sel r, n)
      let lengths := lengths.add resultIndex 1
      if entry.2 > 0 then getSortKeyLengthRecursive t child (.ofEntry entry resultIndex) lengths else lengths) lengths

def getSortKeyLengthChildren : (ts : List LogicalType) → Vectors ts → SortKeyChunk → Lengths → Lengths
  | [], _, _, lengths => lengths
  | t :: ts, (child, children), chunk, lengths =>
    getSortKeyLengthChildren ts children chunk (getSortKeyLengthRecursive t child chunk lengths)

end

structure SortKeyLengthInfo where
  constantLength : Nat := 0
  variableLengths : Lengths := fun _ => 0

/-- `GetSortKeyLength`: columns of constant size take the same space in all rows. -/
def getSortKeyLength (t : LogicalType) (vector : Vector t) (size : Nat) (info : SortKeyLengthInfo) : SortKeyLengthInfo :=
  match t with
  | .fixed t => { info with constantLength := info.constantLength + 1 + t.size }
  | t => { info with variableLengths := getSortKeyLengthRecursive t vector ⟨0, size, none⟩ info.variableLengths }

/-- The lengths of the keys for all columns. -/
def getSortKeyLengths : {cs : List Column} → Columns cs → Nat → SortKeyLengthInfo → SortKeyLengthInfo
  | [], _, _, info => info
  | c :: _, (vector, vectors), size, info => getSortKeyLengths vectors size (getSortKeyLength c.type vector size info)

/-- The keys for all columns. -/
def constructSortKeys : {cs : List Column} → Columns cs → Nat → SortKeys → SortKeys
  | [], _, _, keys => keys
  | c :: _, (vector, vectors), size, keys =>
    constructSortKeys vectors size (constructSortKeyRecursive c.type vector c.modifiers ⟨0, size, none⟩ keys)

/-! ## Results -/

/-- The type of the keys. -/
inductive ResultType where
  | blob
  | bigint
deriving DecidableEq, Repr

/-- The size of the columns if all are of constant size. -/
def constantSize : List Column → Option Nat
  | [] => some 0
  | ⟨.fixed t, _⟩ :: cs => (constantSize cs).map (· + (t.size + 1))
  | _ :: _ => none

/-- `CreateSortKeyBind`: keys of at most eight bytes are packed into a number. -/
def createSortKeyBind (cs : List Column) : ResultType :=
  match constantSize cs with
  | some size => if size ≤ 8 then .bigint else .blob
  | none => .blob

/-- The bytes of the keys, with the error for a key that is too long for a string: `CreateSortKeyInternal` with a
`BLOB` result. -/
def createSortKeyBlob {cs : List Column} (vectors : Columns cs) (rowCount : Nat) : Option SortKeys :=
  let info := getSortKeyLengths vectors rowCount {}
  if (List.range rowCount).all fun r => info.variableLengths r + info.constantLength ≤ 4294967295 then
    some (constructSortKeys vectors rowCount fun _ => [])
  else none

/-- The keys as numbers: `CreateSortKeyInternal` with a `BIGINT` result. The bytes are written to a zeroed number and
swapped in the end. -/
def createSortKeyBigint {cs : List Column} (vectors : Columns cs) (rowCount : Nat) : Nat → BitVec 64 :=
  let keys := constructSortKeys vectors rowCount fun _ => []
  fun r => BitVec.ofNat 64 (loadBigEndian (keys r ++ List.replicate (8 - (keys r).length) 0))

end Haybarn.SortKey
