/-
Trees of values as the serializer writes them, and the calls with which a deserializer reads one. The
properties of an object are required, optional, or left out where they have their default. A reader may
ask for properties with a default that the writer knows nothing of.
-/
import Haybarn.Serializer.Binary

namespace Haybarn.Serializer

open Wal (Bytes encodeUnsignedLEB128)

/-! ## Values -/

inductive Primitive where
  | bool (value : Bool)
  | unsigned (w : Width) (value : BitVec w.bits)
  | signed (w : Width) (value : BitVec w.bits)
  | hugeint (upper lower : BitVec Width.w64.bits)
  | uhugeint (upper lower : BitVec Width.w64.bits)
  | string (value : Bytes)
  | blob (data : Bytes)
deriving DecidableEq

mutual

/-- A value: what a call of the serializer writes. -/
inductive Tree where
  | primitive (value : Primitive)
  | object (properties : Properties)
  | list (elements : Elements)
  | null
  | present (value : Tree)
deriving DecidableEq

inductive Elements where
  | nil
  | cons (element : Tree) (elements : Elements)
deriving DecidableEq

/-- The properties of an object. An `absent` one is optional and not there; the writer makes no call for
a `readerOnly` one, which has the default for the reader. -/
inductive Properties where
  | nil
  | required (id : FieldId) (value : Tree) (properties : Properties)
  | optional (id : FieldId) (value : Tree) (properties : Properties)
  | absent (id : FieldId) (properties : Properties)
  | withDefault (id : FieldId) (default value : Tree) (properties : Properties)
  | readerOnly (id : FieldId) (default : Tree) (properties : Properties)
deriving DecidableEq

end

def Elements.length : Elements → Nat
  | .nil => 0
  | .cons _ elements => elements.length + 1

/-! ## Writing -/

/-- `SerializationOptions`, as far as they matter here. -/
structure SerializationOptions where
  serializeDefaultValues : Bool := false

def writePrimitive : Primitive → Except SerializerException Bytes
  | .bool value => .ok (writeBool value)
  | .unsigned w value => .ok (writeUnsigned w value)
  | .signed w value => .ok (writeSigned w value)
  | .hugeint upper lower => .ok (writeSigned .w64 upper ++ writeUnsigned .w64 lower)
  | .uhugeint upper lower => .ok (writeUnsigned .w64 upper ++ writeUnsigned .w64 lower)
  | .string value => writeString value
  | .blob data => .ok (writeDataPtr data)

mutual

def writeValue (options : SerializationOptions) : Tree → Except SerializerException Bytes
  | .primitive value => writePrimitive value
  | .object properties => do
    let bytes ← writeProperties options properties
    return bytes ++ writeField terminatorFieldId
  | .list elements => do
    let bytes ← writeElements options elements
    return encodeUnsignedLEB128 elements.length ++ bytes
  | .null => return writeBool false
  | .present value => do
    let bytes ← writeValue options value
    return writeBool true ++ bytes

def writeElements (options : SerializationOptions) : Elements → Except SerializerException Bytes
  | .nil => return []
  | .cons element elements => do
    let bytes ← writeValue options element
    let rest ← writeElements options elements
    return bytes ++ rest

def writeProperties (options : SerializationOptions) : Properties → Except SerializerException Bytes
  | .nil => return []
  | .required id value properties | .optional id value properties => do
    let bytes ← writeValue options value
    let rest ← writeProperties options properties
    return writeField id ++ bytes ++ rest
  | .absent _ properties => writeProperties options properties
  | .withDefault id default value properties => do
    if !options.serializeDefaultValues ∧ value = default then writeProperties options properties
    else
      let bytes ← writeValue options value
      let rest ← writeProperties options properties
      return writeField id ++ bytes ++ rest
  | .readerOnly _ _ properties => writeProperties options properties

end

/-! ## Reading -/

/-- The type of a primitive. A blob is read into a buffer of the given size. -/
inductive PrimitiveType where
  | bool
  | unsigned (w : Width)
  | signed (w : Width)
  | hugeint
  | uhugeint
  | string
  | blob (count : Nat)
deriving DecidableEq

def Primitive.type : Primitive → PrimitiveType
  | .bool _ => .bool
  | .unsigned w _ => .unsigned w
  | .signed w _ => .signed w
  | .hugeint .. => .hugeint
  | .uhugeint .. => .uhugeint
  | .string _ => .string
  | .blob data => .blob data.length

mutual

/-- The calls that read a value. Those for the elements of a list may depend on the index. -/
inductive Calls where
  | primitive (type : PrimitiveType)
  | object (properties : PropertyCalls)
  | list (element : Nat → Calls)
  | nullable (value : Calls)

inductive PropertyCalls where
  | nil
  | required (id : FieldId) (value : Calls) (properties : PropertyCalls)
  | optional (id : FieldId) (value : Calls) (properties : PropertyCalls)
  | withDefault (id : FieldId) (default : Tree) (value : Calls) (properties : PropertyCalls)

end

def readPrimitive : PrimitiveType → BinaryDeserializer Primitive
  | .bool => do return .bool (← readBool)
  | .unsigned w => do return .unsigned w (← readUnsigned w)
  | .signed w => do return .signed w (← readSigned w)
  | .hugeint => do
    let upper ← readSigned .w64
    let lower ← readUnsigned .w64
    return .hugeint upper lower
  | .uhugeint => do
    let upper ← readUnsigned .w64
    let lower ← readUnsigned .w64
    return .uhugeint upper lower
  | .string => do return .string (← readString)
  | .blob count => do return .blob (← readDataPtr count)

/-- `n` elements from index `i` on. -/
def readElements (read : Nat → BinaryDeserializer Tree) : (i n : Nat) → BinaryDeserializer Elements
  | _, 0 => return .nil
  | i, n + 1 => do
    let element ← read i
    let elements ← readElements read (i + 1) n
    return .cons element elements

mutual

def readValue : Calls → BinaryDeserializer Tree
  | .primitive type => do return .primitive (← readPrimitive type)
  | .object calls => do
    onObjectBegin
    let properties ← readProperties calls
    onObjectEnd
    return .object properties
  | .list element => do
    let size ← readUnsigned .w64
    let elements ← readElements (fun i => readValue (element i)) 0 size.toNat
    return .list elements
  | .nullable calls => do
    let isPresent ← readBool
    if isPresent then return .present (← readValue calls) else return .null

def readProperties : PropertyCalls → BinaryDeserializer Properties
  | .nil => return .nil
  | .required id calls rest => do
    onPropertyBegin id
    let value ← readValue calls
    let properties ← readProperties rest
    return .required id value properties
  | .optional id calls rest => do
    let isPresent ← onOptionalPropertyBegin id
    if isPresent then
      let value ← readValue calls
      let properties ← readProperties rest
      return .optional id value properties
    else
      let properties ← readProperties rest
      return .absent id properties
  | .withDefault id default calls rest => do
    let isPresent ← onOptionalPropertyBegin id
    if isPresent then
      let value ← readValue calls
      let properties ← readProperties rest
      return .withDefault id default value properties
    else
      let properties ← readProperties rest
      return .withDefault id default default properties

end

/-! ## Calls for a tree -/

mutual

/-- The calls are those of the writer, and one for each property that is for the reader only. -/
def Calls.Matches : Calls → Tree → Prop
  | .primitive type, .primitive value => value.type = type
  | .object calls, .object properties => calls.Matches properties
  | .list element, .list elements => elements.Match element 0
  | .nullable _, .null => True
  | .nullable calls, .present value => calls.Matches value
  | _, _ => False

def Elements.Match (element : Nat → Calls) : Nat → Elements → Prop
  | _, .nil => True
  | i, .cons value elements => (element i).Matches value ∧ elements.Match element (i + 1)

def PropertyCalls.Matches : PropertyCalls → Properties → Prop
  | .nil, .nil => True
  | .required id calls rest, .required id' value properties =>
    id = id' ∧ calls.Matches value ∧ rest.Matches properties
  | .optional id calls rest, .optional id' value properties =>
    id = id' ∧ calls.Matches value ∧ rest.Matches properties
  | .optional id _ rest, .absent id' properties => id = id' ∧ rest.Matches properties
  | .withDefault id default calls rest, .withDefault id' default' value properties =>
    id = id' ∧ default = default' ∧ calls.Matches value ∧ rest.Matches properties
  | .withDefault id default _ rest, .readerOnly id' default' properties =>
    id = id' ∧ default = default' ∧ rest.Matches properties
  | _, _ => False

end

mutual

/-- The tree that the writer has. -/
def Tree.written : Tree → Tree
  | .primitive value => .primitive value
  | .object properties => .object properties.written
  | .list elements => .list elements.written
  | .null => .null
  | .present value => .present value.written

def Elements.written : Elements → Elements
  | .nil => .nil
  | .cons value elements => .cons value.written elements.written

def Properties.written : Properties → Properties
  | .nil => .nil
  | .required id value properties => .required id value.written properties.written
  | .optional id value properties => .optional id value.written properties.written
  | .absent id properties => .absent id properties.written
  | .withDefault id default value properties => .withDefault id default value.written properties.written
  | .readerOnly _ _ properties => properties.written

end

mutual

/-- What a reader with these calls is to get: the tree, with the defaults of what only it asks for. -/
def Tree.asRead (options : SerializationOptions) : Tree → Tree
  | .primitive value => .primitive value
  | .object properties => .object (properties.asRead options)
  | .list elements => .list (elements.asRead options)
  | .null => .null
  | .present value => .present (value.asRead options)

def Elements.asRead (options : SerializationOptions) : Elements → Elements
  | .nil => .nil
  | .cons value elements => .cons (value.asRead options) (elements.asRead options)

def Properties.asRead (options : SerializationOptions) : Properties → Properties
  | .nil => .nil
  | .required id value properties => .required id (value.asRead options) (properties.asRead options)
  | .optional id value properties => .optional id (value.asRead options) (properties.asRead options)
  | .absent id properties => .absent id (properties.asRead options)
  | .withDefault id default value properties =>
    let value := if !options.serializeDefaultValues ∧ value.written = default then default else value.asRead options
    .withDefault id default value (properties.asRead options)
  | .readerOnly id default properties => .withDefault id default default (properties.asRead options)

end

/-! ## Field ids of an object -/

/-- The ids of the writer's properties. -/
def Properties.ids : Properties → List FieldId
  | .nil => []
  | .required id _ properties | .optional id _ properties | .withDefault id _ _ properties => id :: properties.ids
  | .absent id properties => id :: properties.ids
  | .readerOnly _ _ properties => properties.ids

/-- The ids that only the reader asks for. -/
def Properties.readerIds : Properties → List FieldId
  | .nil => []
  | .required _ _ properties | .optional _ _ properties | .withDefault _ _ _ properties => properties.readerIds
  | .absent _ properties => properties.readerIds
  | .readerOnly id _ properties => id :: properties.readerIds

mutual

/-- In every object the ids of the writer are distinct, those only the reader asks for are others, and
none is the terminator. Lists and blobs have a size of type `idx_t`. -/
def Tree.WellFormed : Tree → Prop
  | .primitive (.blob data) => data.length < 2 ^ 64
  | .primitive _ => True
  | .object properties => properties.ids.Nodup ∧ terminatorFieldId ∉ properties.ids ++ properties.readerIds ∧
    (∀ id ∈ properties.readerIds, id ∉ properties.ids) ∧ properties.WellFormed
  | .list elements => elements.length < 2 ^ 64 ∧ elements.WellFormed
  | .null => True
  | .present value => value.WellFormed

def Elements.WellFormed : Elements → Prop
  | .nil => True
  | .cons value elements => value.WellFormed ∧ elements.WellFormed

def Properties.WellFormed : Properties → Prop
  | .nil => True
  | .required _ value properties | .optional _ value properties | .withDefault _ _ value properties =>
    value.WellFormed ∧ properties.WellFormed
  | .absent _ properties => properties.WellFormed
  | .readerOnly _ _ properties => properties.WellFormed

end

theorem Properties.written_ne_readerOnly : ∀ (ps : Properties) (id : FieldId) (default : Tree) (rest : Properties),
    ps.written ≠ .readerOnly id default rest
  | .nil, _, _, _ | .required .., _, _, _ | .optional .., _, _, _ | .absent .., _, _, _ | .withDefault .., _, _, _ => by
    simp [Properties.written]
  | .readerOnly _ _ ps, id, default, rest => ps.written_ne_readerOnly id default rest

mutual

theorem Tree.asRead_of_written (options : SerializationOptions) : ∀ {t : Tree}, t.written = t → t.asRead options = t
  | .primitive _, _ => rfl
  | .object _, h => congrArg _ (Properties.asRead_of_written options (Tree.object.inj h))
  | .list _, h => congrArg _ (Elements.asRead_of_written options (Tree.list.inj h))
  | .null, _ => rfl
  | .present _, h => congrArg _ (Tree.asRead_of_written options (Tree.present.inj h))

theorem Elements.asRead_of_written (options : SerializationOptions) :
    ∀ {es : Elements}, es.written = es → es.asRead options = es
  | .nil, _ => rfl
  | .cons _ _, h => by
    obtain ⟨hv, hes⟩ := Elements.cons.inj h
    rw [Elements.asRead, Tree.asRead_of_written options hv, Elements.asRead_of_written options hes]

theorem Properties.asRead_of_written (options : SerializationOptions) :
    ∀ {ps : Properties}, ps.written = ps → ps.asRead options = ps
  | .nil, _ => rfl
  | .required _ _ _, h => by
    obtain ⟨-, hv, hps⟩ := Properties.required.inj h
    rw [Properties.asRead, Tree.asRead_of_written options hv, Properties.asRead_of_written options hps]
  | .optional _ _ _, h => by
    obtain ⟨-, hv, hps⟩ := Properties.optional.inj h
    rw [Properties.asRead, Tree.asRead_of_written options hv, Properties.asRead_of_written options hps]
  | .absent _ _, h => by
    obtain ⟨-, hps⟩ := Properties.absent.inj h
    rw [Properties.asRead, Properties.asRead_of_written options hps]
  | .withDefault _ _ _ _, h => by
    obtain ⟨-, -, hv, hps⟩ := Properties.withDefault.inj h
    rw [Properties.asRead, Tree.asRead_of_written options hv, Properties.asRead_of_written options hps, hv]
    split
    · rename_i hd
      rw [hd.2]
    · rfl
  | .readerOnly id default ps, h => absurd h (ps.written_ne_readerOnly id default ps)

end

end Haybarn.Serializer
