/-
`BinarySerializer` and `BinaryDeserializer`, call by call. The deserializer may look at the next field id
and keep it, so that what it still has to read is that id and the bytes behind it.
-/
import Haybarn.Serializer.Leb128

namespace Haybarn.Serializer

open Wal (Bytes encodeUnsignedLEB128 writeWord wordValue writeWord_length wordValue_writeWord)
open Lib (bind_ok)

abbrev FieldId := UInt16

/-- `MESSAGE_TERMINATOR_FIELD_ID` -/
def terminatorFieldId : FieldId := 0xFFFF

/-- The exceptions of both, with the values in their messages. -/
inductive SerializerException where
  /-- the stream has fewer bytes than are asked for -/
  | notEnoughData
  /-- "Failed to deserialize: field id mismatch, expected: %d, got: %d" -/
  | fieldIdMismatch (expected got : FieldId)
  /-- "Failed to deserialize: expected end of object, but found field id: %d" -/
  | expectedEndOfObject (got : FieldId)
  /-- "Failed to decode LEB128 integer: data may be corrupt" -/
  | corruptLEB128
  /-- "Tried to read blob of %d size, but only %d elements are available" -/
  | blobSize (count length : Nat)
  /-- a length that is no `uint32_t` -/
  | numericCast (length : Nat)
deriving DecidableEq, Repr

/-! ## Writing -/

/-- `Write<field_id_t>` -/
def writeField (id : FieldId) : Bytes := writeWord 2 id.toNat

def writeBool (value : Bool) : Bytes := [if value then 1 else 0]

def writeUnsigned (w : Width) (value : BitVec w.bits) : Bytes := encodeUnsignedLEB128 value.toNat

def writeSigned (w : Width) (value : BitVec w.bits) : Bytes := encodeSignedLEB128 value.toInt

/-- The length of a string is written as a `uint32_t`. -/
def writeString (value : Bytes) : Except SerializerException Bytes :=
  if value.length < 2 ^ 32 then .ok (encodeUnsignedLEB128 value.length ++ value) else .error (.numericCast value.length)

def writeDataPtr (data : Bytes) : Bytes := encodeUnsignedLEB128 data.length ++ data

/-! ## Reading -/

/-- The deserializer: the bytes of the stream, the field it has read ahead, and how deep it is in
objects. -/
structure ReadState where
  stream : Bytes
  bufferedField : Option FieldId := none
  nestingLevel : Nat := 0
deriving DecidableEq, Repr

abbrev BinaryDeserializer (α : Type) := EStateM SerializerException ReadState α

def readData (size : Nat) : BinaryDeserializer Bytes := fun s =>
  if s.stream.length < size then .error .notEnoughData s
  else .ok (s.stream.take size) { s with stream := s.stream.drop size }

/-- `ReadPrimitive<field_id_t>` -/
def readField : BinaryDeserializer FieldId := do
  let bytes ← readData 2
  return UInt16.ofNat (wordValue bytes)

def nextField : BinaryDeserializer FieldId := fun s =>
  match s.bufferedField with
  | some field => .ok field { s with bufferedField := none }
  | none => readField s

def peekField : BinaryDeserializer FieldId := fun s =>
  match s.bufferedField with
  | some field => .ok field s
  | none => match readField s with
    | .ok field s => .ok field { s with bufferedField := some field }
    | .error e s => .error e s

def consumeField : BinaryDeserializer Unit := fun s =>
  match s.bufferedField with
  | some _ => .ok () { s with bufferedField := none }
  | none => match readField s with
    | .ok _ s => .ok () s
    | .error e s => .error e s

def onPropertyBegin (id : FieldId) : BinaryDeserializer Unit := do
  let field ← nextField
  if field ≠ id then throw (.fieldIdMismatch id field)

def onOptionalPropertyBegin (id : FieldId) : BinaryDeserializer Bool := do
  let field ← peekField
  if field = id then
    consumeField
    return true
  else return false

def onObjectBegin : BinaryDeserializer Unit := fun s => .ok () { s with nestingLevel := s.nestingLevel + 1 }

def onObjectEnd : BinaryDeserializer Unit := fun s =>
  match nextField s with
  | .ok field s =>
    if field ≠ terminatorFieldId then .error (.expectedEndOfObject field) s
    else .ok () { s with nestingLevel := s.nestingLevel - 1 }
  | .error e s => .error e s

/-- The loop of `VarIntDecode`: bytes up to the first one without the high bit, at most `n`. -/
def readVarInt : Nat → BinaryDeserializer Bytes
  | 0 => return []
  | n + 1 => do
    let byte ← readData 1
    if byte.all (· &&& 0x80 = 0) then return byte
    else
      let rest ← readVarInt n
      return byte ++ rest

/-- `VarIntDecode` with one of the decoders. The buffer has 16 bytes. -/
def varIntDecode {α : Type} (decode : Bytes → Except DecodeError α × Nat) : BinaryDeserializer α := do
  let buffer ← readVarInt 16
  match (decode buffer).1 with
  | .ok value => return value
  | .error .corrupt => throw .corruptLEB128

def readUnsigned (w : Width) : BinaryDeserializer (BitVec w.bits) := varIntDecode (decodeUnsignedLEB128 w)

def readSigned (w : Width) : BinaryDeserializer (BitVec w.bits) := varIntDecode (decodeSignedLEB128 w)

def readBool : BinaryDeserializer Bool := do
  let bytes ← readData 1
  return bytes.any (· ≠ 0)

def readString : BinaryDeserializer Bytes := do
  let len ← readUnsigned .w32
  if len = 0 then return [] else readData len.toNat

/-- `ReadDataPtr` into `count` bytes. -/
def readDataPtr (count : Nat) : BinaryDeserializer Bytes := do
  let len ← readUnsigned .w64
  if len.toNat ≠ count then throw (.blobSize count len.toNat)
  readData count

/-! ## Field ids -/

/-- What the deserializer has still to read. -/
def ReadState.pending (s : ReadState) : Bytes := (s.bufferedField.elim [] writeField) ++ s.stream

theorem length_writeField (id : FieldId) : (writeField id).length = 2 := writeWord_length 2 id.toNat

variable {a b rest : Bytes} {s : ReadState}

theorem writeField_append_inj {f g : FieldId} (h : writeField f ++ a = writeField g ++ b) :
    f = g ∧ a = b := by
  obtain ⟨hfg, hab⟩ := List.append_inj h (by rw [length_writeField, length_writeField])
  have hword := congrArg wordValue hfg
  rw [writeField, writeField, wordValue_writeWord f.toNat_lt, wordValue_writeWord g.toNat_lt] at hword
  exact ⟨UInt16.toNat_inj.1 hword, hab⟩

theorem readData_append {size : Nat} {bytes : Bytes} (hs : s.stream = bytes ++ rest)
    (hlen : bytes.length = size) : readData size s = .ok bytes { s with stream := rest } := by
  have hle : ¬ s.stream.length < size := by
    rw [hs, List.length_append]
    omega
  rw [readData, if_neg hle, hs, ← hlen, List.take_left, List.drop_left]

theorem readField_append {f : FieldId} (hs : s.stream = writeField f ++ rest) :
    readField s = .ok f { s with stream := rest } := by
  unfold readField
  rw [bind_ok (readData_append hs (length_writeField f))]
  show EStateM.Result.ok (UInt16.ofNat (wordValue (writeWord 2 f.toNat))) _ = _
  rw [wordValue_writeWord f.toNat_lt, UInt16.ofNat_toNat]

variable {s : ReadState} {f id : FieldId} {rest : Bytes}

theorem pending_cases (h : s.pending = writeField f ++ rest) :
    s.bufferedField = some f ∧ s.stream = rest ∨ s.bufferedField = none ∧ s.stream = writeField f ++ rest := by
  unfold ReadState.pending at h
  cases hb : s.bufferedField with
  | none => exact .inr ⟨rfl, by simpa [hb] using h⟩
  | some g =>
    obtain ⟨rfl, hrest⟩ := writeField_append_inj (by simpa [hb] using h)
    exact .inl ⟨rfl, hrest⟩

theorem nextField_pending (h : s.pending = writeField f ++ rest) :
    nextField s = .ok f { s with stream := rest, bufferedField := none } := by
  rcases pending_cases h with ⟨hb, hs⟩ | ⟨hb, hs⟩ <;> unfold nextField
  · simp only [hb, ← hs]
  · simp only [hb, readField_append hs]

theorem peekField_pending (h : s.pending = writeField f ++ rest) :
    peekField s = .ok f { s with stream := rest, bufferedField := some f } := by
  rcases pending_cases h with ⟨hb, hs⟩ | ⟨hb, hs⟩ <;> unfold peekField
  · simp only [hb, ← hs]
    rw [← hb]
  · simp only [hb, readField_append hs]

theorem onPropertyBegin_pending (h : s.pending = writeField id ++ rest) :
    onPropertyBegin id s = .ok () { s with stream := rest, bufferedField := none } := by
  unfold onPropertyBegin
  rw [bind_ok (nextField_pending h), if_neg (not_not.2 rfl)]
  rfl

theorem onOptionalPropertyBegin_present (h : s.pending = writeField id ++ rest) :
    onOptionalPropertyBegin id s = .ok true { s with stream := rest, bufferedField := none } := by
  unfold onOptionalPropertyBegin
  rw [bind_ok (peekField_pending h), if_pos rfl]
  rfl

theorem onOptionalPropertyBegin_absent (h : s.pending = writeField f ++ rest) (hne : f ≠ id) :
    onOptionalPropertyBegin id s = .ok false { s with stream := rest, bufferedField := some f } := by
  unfold onOptionalPropertyBegin
  rw [bind_ok (peekField_pending h), if_neg hne]
  rfl

theorem onObjectEnd_pending (h : s.pending = writeField terminatorFieldId ++ rest) :
    onObjectEnd s =
      .ok () { stream := rest, bufferedField := none, nestingLevel := s.nestingLevel - 1 } := by
  unfold onObjectEnd
  rw [nextField_pending h]
  rfl

/-! ## Integers -/

theorem readVarInt_encodes {last : UInt8} (hlast : last.toNat < 128) : ∀ (init : Bytes) (n : Nat) (s : ReadState)
    (rest : Bytes), (∀ b ∈ init, 128 ≤ b.toNat) → init.length < n → s.stream = init ++ [last] ++ rest →
      readVarInt n s = .ok (init ++ [last]) { s with stream := rest }
  | _, 0, _, _, _, hn, _ => absurd hn (Nat.not_lt_zero _)
  | [], n + 1, s, rest, _, _, hs => by
    have hstop : [last].all (· &&& 0x80 = 0) = true := by
      simpa using (Wal.byte_bits last).1.2 hlast
    have hread : readData 1 s = .ok [last] { s with stream := rest } := readData_append hs rfl
    unfold readVarInt
    rw [bind_ok hread, if_pos hstop]
    rfl
  | b :: init, n + 1, s, rest, hinit, hn, hs => by
    have hmore : ¬ [b].all (· &&& 0x80 = 0) = true := by
      have hb := hinit b List.mem_cons_self
      simp only [List.all_cons, List.all_nil, Bool.and_true, decide_eq_true_eq, (Wal.byte_bits b).1]
      omega
    have hread : readData 1 s = .ok [b] { s with stream := init ++ [last] ++ rest } :=
      readData_append (by rw [hs]; rfl) rfl
    have ih := readVarInt_encodes hlast init n { s with stream := init ++ [last] ++ rest } rest
      (fun c hc => hinit c (List.mem_cons_of_mem _ hc)) (by simpa using hn) rfl
    unfold readVarInt
    rw [bind_ok hread, if_neg hmore, bind_ok ih]
    rfl

theorem varIntDecode_encodes {α : Type} {decode : Bytes → Except DecodeError α × Nat} {bytes init : Bytes} {last : UInt8}
    (henc : Encodes bytes init last) (hlen : init.length < 16) {value : α} (hdec : (decode bytes).1 = .ok value)
    (hs : s.stream = bytes ++ rest) :
    varIntDecode decode s = .ok value { s with stream := rest } := by
  have hread := readVarInt_encodes henc.last init 16 s rest henc.more hlen (by rw [hs, henc.eq])
  unfold varIntDecode
  rw [bind_ok hread, ← henc.eq]
  rw [hdec]
  rfl

theorem Width.bits_le (w : Width) : w.bits ≤ 64 := by cases w <;> decide

theorem readUnsigned_write (w : Width) (v : BitVec w.bits)
    (hs : s.stream = writeUnsigned w v ++ rest) : readUnsigned w s = .ok v { s with stream := rest } := by
  obtain ⟨init, last, henc, hlen⟩ := unsigned_encodes_of_width w v
  have hdec := decodeUnsigned_encode w v []
  rw [List.append_nil] at hdec
  exact varIntDecode_encodes henc (by have := w.bits_le; omega) (congrArg Prod.fst hdec) hs

theorem readSigned_write (w : Width) (v : BitVec w.bits)
    (hs : s.stream = writeSigned w v ++ rest) : readSigned w s = .ok v { s with stream := rest } := by
  obtain ⟨init, last, henc, -, -, hlen⟩ := signed_encodes_of_width w v
  have hdec := decodeSigned_encode w v []
  rw [List.append_nil] at hdec
  exact varIntDecode_encodes henc (by have := w.bits_le; omega) (congrArg Prod.fst hdec) hs

/-! ## How many bytes an integer takes from the stream -/

/-- The stream goes on behind the first `n` bytes at most. -/
def Consumed (n : Nat) (before after : Bytes) : Prop := ∃ read, before = read ++ after ∧ read.length ≤ n

/-- The stream that a call leaves behind. -/
def streamAfter {α : Type} : EStateM.Result SerializerException ReadState α → Bytes
  | .ok _ s => s.stream
  | .error _ s => s.stream

theorem readData_consumed (n : Nat) (s : ReadState) : Consumed n s.stream (streamAfter (readData n s)) := by
  unfold readData
  split
  · exact ⟨[], rfl, Nat.zero_le _⟩
  · exact ⟨s.stream.take n, (List.take_append_drop n _).symm, List.length_take_le n _⟩

theorem Consumed.trans {m n : Nat} {c : Bytes} (h : Consumed m a b) (h' : Consumed n b c) : Consumed (m + n) a c := by
  obtain ⟨x, rfl, hx⟩ := h
  obtain ⟨y, rfl, hy⟩ := h'
  exact ⟨x ++ y, (List.append_assoc ..).symm, by rw [List.length_append]; omega⟩

theorem Consumed.mono {m n : Nat} (h : Consumed m a b) (hmn : m ≤ n) : Consumed n a b :=
  let ⟨x, hx, hlen⟩ := h
  ⟨x, hx, hlen.trans hmn⟩

theorem readVarInt_consumed : ∀ (n : Nat) (s : ReadState), Consumed n s.stream (streamAfter (readVarInt n s))
  | 0, s => ⟨[], rfl, le_rfl⟩
  | n + 1, s => by
    have hdata := readData_consumed 1 s
    unfold readVarInt
    cases hread : readData 1 s with
    | error e s' =>
      rw [Lib.bind_error hread]
      rw [hread] at hdata
      exact hdata.mono (by omega)
    | ok byte s' =>
      rw [bind_ok hread]
      rw [hread] at hdata
      split
      · exact hdata.mono (by omega)
      · have ih := readVarInt_consumed n s'
        cases hrest : readVarInt n s' with
        | error e s'' =>
          rw [Lib.bind_error hrest]
          rw [hrest] at ih
          exact (hdata.trans ih).mono (by omega)
        | ok rest s'' =>
          rw [bind_ok hrest]
          rw [hrest] at ih
          exact (hdata.trans ih).mono (by omega)

theorem varIntDecode_consumed {α : Type} (decode : Bytes → Except DecodeError α × Nat) (s : ReadState) :
    Consumed 16 s.stream (streamAfter (varIntDecode decode s)) := by
  have h := readVarInt_consumed 16 s
  unfold varIntDecode
  cases hread : readVarInt 16 s with
  | error e s' =>
    rw [Lib.bind_error hread]
    rwa [hread] at h
  | ok buffer s' =>
    rw [bind_ok hread]
    rw [hread] at h
    rcases (decode buffer).1 with ⟨⟩ | value <;> exact h

end Haybarn.Serializer
