/-
What the serializer writes for a tree the deserializer reads back with the matching calls, and takes no
more from the stream. The properties of an object are read from what is pending: the field read ahead
and the stream behind it.
-/
import Haybarn.Serializer.Tree

namespace Haybarn.Serializer

open List

open Wal (Bytes encodeUnsignedLEB128)
open Lib (bind_ok)

theorem bind_eq_ok {ε α β : Type} {x : Except ε α} {f : α → Except ε β} {b : β} :
    x >>= f = .ok b ↔ ∃ a, x = .ok a ∧ f a = .ok b := by
  cases x with
  | error e =>
    constructor
    · intro h
      cases h
    · rintro ⟨_, h, -⟩
      cases h
  | ok a =>
    constructor
    · exact fun h => ⟨a, rfl, h⟩
    · rintro ⟨_, ⟨⟩, h⟩
      exact h

/-! ## Primitives -/

section Primitives

variable {s : ReadState} {rest : Bytes}

theorem readBool_write (value : Bool) (hs : s.stream = writeBool value ++ rest) :
    readBool s = .ok value { s with stream := rest } := by
  have hread : readData 1 s = .ok (writeBool value) { s with stream := rest } := readData_append hs rfl
  unfold readBool
  rw [bind_ok hread]
  cases value <;> rfl

theorem length_ofNat {w : Width} {n : Nat} (h : n < 2 ^ w.bits) : (BitVec.ofNat w.bits n).toNat = n := by
  rw [BitVec.toNat_ofNat, Nat.mod_eq_of_lt h]

theorem readUnsigned_length {w : Width} {n : Nat} (h : n < 2 ^ w.bits) (hs : s.stream = encodeUnsignedLEB128 n ++ rest) :
    readUnsigned w s = .ok (BitVec.ofNat w.bits n) { s with stream := rest } :=
  readUnsigned_write w (BitVec.ofNat w.bits n) (by rw [writeUnsigned, length_ofNat h]; exact hs)

theorem readString_write {value bytes : Bytes} (hw : writeString value = .ok bytes) (hs : s.stream = bytes ++ rest) :
    readString s = .ok value { s with stream := rest } := by
  unfold writeString at hw
  split at hw
  · rename_i hlt
    obtain rfl : encodeUnsignedLEB128 value.length ++ value = bytes := by simpa using hw
    rw [append_assoc] at hs
    unfold readString
    rw [bind_ok (readUnsigned_length (w := .w32) hlt hs)]
    have hnat : (BitVec.ofNat Width.w32.bits value.length).toNat = value.length := length_ofNat hlt
    split
    · rename_i hzero
      have hnil : value = [] := by
        rw [← length_eq_zero_iff, ← hnat, hzero]
        rfl
      rw [hnil]
      rfl
    · rw [hnat]
      exact readData_append rfl rfl
  · cases hw

theorem readDataPtr_write {data : Bytes} (hlt : data.length < 2 ^ 64) (hs : s.stream = writeDataPtr data ++ rest) :
    readDataPtr data.length s = .ok data { s with stream := rest } := by
  rw [writeDataPtr, append_assoc] at hs
  have hnat : (BitVec.ofNat Width.w64.bits data.length).toNat = data.length := length_ofNat hlt
  unfold readDataPtr
  rw [bind_ok (readUnsigned_length (w := .w64) hlt hs), if_neg (not_not.2 hnat)]
  exact readData_append rfl rfl

theorem readPrimitive_write {value : Primitive} {bytes : Bytes} (hwf : (Tree.primitive value).WellFormed)
    (hw : writePrimitive value = .ok bytes) (hs : s.stream = bytes ++ rest) :
    readPrimitive value.type s = .ok value { s with stream := rest } := by
  cases value with
  | bool v =>
    obtain rfl : writeBool v = bytes := by simpa [writePrimitive] using hw
    exact bind_ok (readBool_write v hs)
  | unsigned w v =>
    obtain rfl : writeUnsigned w v = bytes := by simpa [writePrimitive] using hw
    exact bind_ok (readUnsigned_write w v hs)
  | signed w v =>
    obtain rfl : writeSigned w v = bytes := by simpa [writePrimitive] using hw
    exact bind_ok (readSigned_write w v hs)
  | hugeint upper lower =>
    obtain rfl : writeSigned .w64 upper ++ writeUnsigned .w64 lower = bytes := by simpa [writePrimitive] using hw
    rw [append_assoc] at hs
    refine (bind_ok (readSigned_write .w64 upper hs)).trans ?_
    exact bind_ok (readUnsigned_write .w64 lower (s := { s with stream := _ }) rfl)
  | uhugeint upper lower =>
    obtain rfl : writeUnsigned .w64 upper ++ writeUnsigned .w64 lower = bytes := by simpa [writePrimitive] using hw
    rw [append_assoc] at hs
    refine (bind_ok (readUnsigned_write .w64 upper hs)).trans ?_
    exact bind_ok (readUnsigned_write .w64 lower (s := { s with stream := _ }) rfl)
  | string v => exact bind_ok (readString_write hw hs)
  | blob data =>
    obtain rfl : writeDataPtr data = bytes := by simpa [writePrimitive] using hw
    exact bind_ok (readDataPtr_write hwf hs)

end Primitives

/-! ## The field that comes next -/

/-- What the properties must be for a reader that looks ahead: one that is not written is not asked for
by the id of a later one, or of the terminator. -/
def Properties.Separated : Properties → Prop
  | .nil => True
  | .required _ _ properties | .optional _ _ properties => properties.Separated
  | .absent id properties | .withDefault id _ _ properties =>
    id ≠ terminatorFieldId ∧ id ∉ properties.ids ∧ properties.Separated
  | .readerOnly id _ properties => id ≠ terminatorFieldId ∧ id ∉ properties.ids ∧ properties.Separated

theorem Properties.separated : ∀ {ps : Properties}, ps.ids.Nodup → terminatorFieldId ∉ ps.ids ++ ps.readerIds →
    (∀ id ∈ ps.readerIds, id ∉ ps.ids) → ps.Separated
  | .nil, _, _, _ => trivial
  | .required id _ ps, hd, ht, hr | .optional id _ ps, hd, ht, hr => by
    simp only [Properties.ids, Properties.readerIds, nodup_cons, cons_append, mem_cons, not_or] at hd ht hr
    show ps.Separated
    exact Properties.separated hd.2 ht.2 fun i hi => (hr i hi).2
  | .absent id ps, hd, ht, hr => by
    simp only [Properties.ids, Properties.readerIds, nodup_cons, cons_append, mem_cons, not_or] at hd ht hr
    exact ⟨Ne.symm ht.1, hd.1, Properties.separated hd.2 ht.2 fun i hi => (hr i hi).2⟩
  | .withDefault id _ _ ps, hd, ht, hr => by
    simp only [Properties.ids, Properties.readerIds, nodup_cons, cons_append, mem_cons, not_or] at hd ht hr
    exact ⟨Ne.symm ht.1, hd.1, Properties.separated hd.2 ht.2 fun i hi => (hr i hi).2⟩
  | .readerOnly id _ ps, hd, ht, hr => by
    simp only [Properties.ids, Properties.readerIds, mem_append, mem_cons, not_or, forall_eq_or_imp] at hd ht hr
    exact ⟨Ne.symm ht.2.1, hr.1, Properties.separated hd (by simp [ht.1, ht.2.2]) hr.2⟩

theorem Properties.next_field (options : SerializationOptions) (rest : Bytes) : ∀ (ps : Properties) {bytes : Bytes},
    writeProperties options ps.written = .ok bytes → ∃ f more,
      bytes ++ (writeField terminatorFieldId ++ rest) = writeField f ++ more ∧ (f = terminatorFieldId ∨ f ∈ ps.ids)
  | .nil, bytes, h => by
    obtain rfl : [] = bytes := by simpa [Properties.written, writeProperties, pure, Except.pure] using h
    exact ⟨_, rest, rfl, .inl rfl⟩
  | .required id _ _, bytes, h | .optional id _ _, bytes, h => by
    simp only [Properties.written, writeProperties, bind_eq_ok] at h
    obtain ⟨a, -, b, -, h⟩ := h
    obtain rfl : writeField id ++ a ++ b = bytes := by simpa [pure, Except.pure] using h
    exact ⟨id, a ++ (b ++ (writeField terminatorFieldId ++ rest)), by simp only [append_assoc],
      .inr mem_cons_self⟩
  | .absent id ps, bytes, h => by
    obtain ⟨f, more, heq, hf⟩ := Properties.next_field options rest ps h
    exact ⟨f, more, heq, hf.imp_right (mem_cons_of_mem _)⟩
  | .withDefault id default value ps, bytes, h => by
    simp only [Properties.written, writeProperties] at h
    split at h
    · obtain ⟨f, more, heq, hf⟩ := Properties.next_field options rest ps h
      exact ⟨f, more, heq, hf.imp_right (mem_cons_of_mem _)⟩
    · simp only [bind_eq_ok] at h
      obtain ⟨a, -, b, -, h⟩ := h
      obtain rfl : writeField id ++ a ++ b = bytes := by simpa [pure, Except.pure] using h
      exact ⟨id, a ++ (b ++ (writeField terminatorFieldId ++ rest)), by simp only [append_assoc],
      .inr mem_cons_self⟩
  | .readerOnly _ _ ps, bytes, h => Properties.next_field options rest ps h

theorem skip_property {options : SerializationOptions} (ps : Properties) {bytes rest : Bytes}
    (h : writeProperties options ps.written = .ok bytes) {id : FieldId} (ht : id ≠ terminatorFieldId) (hid : id ∉ ps.ids)
    {s : ReadState} (hs : s.pending = bytes ++ (writeField terminatorFieldId ++ rest)) :
    ∃ s', onOptionalPropertyBegin id s = .ok false s' ∧ s'.pending = s.pending ∧ s'.nestingLevel = s.nestingLevel := by
  obtain ⟨f, more, heq, hf⟩ := Properties.next_field options rest ps h
  have hne : f ≠ id := by
    rintro rfl
    exact hf.elim ht hid
  have hpending := hs.trans heq
  exact ⟨_, onOptionalPropertyBegin_absent hpending hne, by rw [hpending]; rfl, rfl⟩

/-! ## Trees -/

theorem Elements.length_written : ∀ es : Elements, es.written.length = es.length
  | .nil => rfl
  | .cons _ es => congrArg (· + 1) es.length_written

mutual

theorem readValue_write (options : SerializationOptions) : ∀ (t : Tree) (calls : Calls) (bytes rest : Bytes) (s : ReadState),
    writeValue options t.written = .ok bytes → calls.Matches t → t.WellFormed → s.bufferedField = none →
      s.stream = bytes ++ rest → readValue calls s = .ok (t.asRead options) { s with stream := rest }
  | .primitive value, .primitive type, bytes, rest, s, hw, hm, hwf, _, hs => by
    obtain rfl : value.type = type := hm
    rw [readValue]
    exact bind_ok (readPrimitive_write hwf hw hs)
  | .object ps, .object calls, bytes, rest, s, hw, hm, hwf, hb, hs => by
    obtain ⟨hnodup, hterm, hreader, hvalues⟩ := hwf
    simp only [Tree.written, writeValue, bind_eq_ok] at hw
    obtain ⟨b, hps, hw⟩ := hw
    obtain rfl : b ++ writeField terminatorFieldId = bytes := by simpa [pure, Except.pure] using hw
    have hpending : ReadState.pending { s with nestingLevel := s.nestingLevel + 1 } =
        b ++ (writeField terminatorFieldId ++ rest) := by
      simp [ReadState.pending, hb, hs]
    obtain ⟨s', hread, hrest, hlevel⟩ := readProperties_write options ps calls b rest _ hps hm hvalues
      (Properties.separated hnodup hterm hreader) hpending
    have hbegin : onObjectBegin s = .ok () { s with nestingLevel := s.nestingLevel + 1 } := rfl
    rw [readValue, bind_ok hbegin, bind_ok hread, bind_ok (onObjectEnd_pending hrest), hlevel]
    cases s
    simp only at hb
    subst hb
    rfl
  | .list es, .list element, bytes, rest, s, hw, hm, hwf, hb, hs => by
    simp only [Tree.written, writeValue, bind_eq_ok, Elements.length_written] at hw
    obtain ⟨b, hes, hw⟩ := hw
    obtain rfl : encodeUnsignedLEB128 es.length ++ b = bytes := by simpa [pure, Except.pure] using hw
    rw [append_assoc] at hs
    have hsize : (BitVec.ofNat Width.w64.bits es.length).toNat = es.length := length_ofNat hwf.1
    rw [readValue, bind_ok (readUnsigned_length (w := .w64) hwf.1 hs), hsize]
    refine bind_ok ?_
    exact readElements_write options es element 0 b rest { s with stream := b ++ rest } hes hm hwf.2 hb rfl
  | .null, .nullable calls, bytes, rest, s, hw, _, _, _, hs => by
    obtain rfl : writeBool false = bytes := by simpa [Tree.written, writeValue, pure, Except.pure] using hw
    rw [readValue, bind_ok (readBool_write false hs)]
    rfl
  | .present value, .nullable calls, bytes, rest, s, hw, hm, hwf, hb, hs => by
    simp only [Tree.written, writeValue, bind_eq_ok] at hw
    obtain ⟨b, hv, hw⟩ := hw
    obtain rfl : writeBool true ++ b = bytes := by simpa [pure, Except.pure] using hw
    rw [append_assoc] at hs
    have ih := readValue_write options value calls b rest { s with stream := b ++ rest } hv hm hwf hb rfl
    rw [readValue, bind_ok (readBool_write true hs), if_pos rfl]
    exact bind_ok ih

theorem readElements_write (options : SerializationOptions) : ∀ (es : Elements) (element : Nat → Calls) (i : Nat)
    (bytes rest : Bytes) (s : ReadState), writeElements options es.written = .ok bytes → es.Match element i →
      es.WellFormed → s.bufferedField = none → s.stream = bytes ++ rest →
      readElements (fun i => readValue (element i)) i es.length s = .ok (es.asRead options) { s with stream := rest }
  | .nil, element, i, bytes, rest, s, hw, _, _, _, hs => by
    obtain rfl : [] = bytes := by simpa [Elements.written, writeElements, pure, Except.pure] using hw
    rw [nil_append] at hs
    rw [← hs]
    rfl
  | .cons value es, element, i, bytes, rest, s, hw, hm, hwf, hb, hs => by
    simp only [Elements.written, writeElements, bind_eq_ok] at hw
    obtain ⟨a, hv, b, hes, hw⟩ := hw
    obtain rfl : a ++ b = bytes := by simpa [pure, Except.pure] using hw
    rw [append_assoc] at hs
    have ihv := readValue_write options value (element i) a (b ++ rest) s hv hm.1 hwf.1 hb hs
    have ihes := readElements_write options es element (i + 1) b rest { s with stream := b ++ rest } hes hm.2 hwf.2 hb rfl
    rw [Elements.length, readElements, bind_ok ihv]
    exact bind_ok ihes

theorem readProperties_write (options : SerializationOptions) : ∀ (ps : Properties) (calls : PropertyCalls)
    (bytes rest : Bytes) (s : ReadState), writeProperties options ps.written = .ok bytes → calls.Matches ps →
      ps.WellFormed → ps.Separated → s.pending = bytes ++ (writeField terminatorFieldId ++ rest) →
      ∃ s', readProperties calls s = .ok (ps.asRead options) s' ∧
        s'.pending = writeField terminatorFieldId ++ rest ∧ s'.nestingLevel = s.nestingLevel
  | .nil, .nil, bytes, rest, s, hw, _, _, _, hs => by
    obtain rfl : [] = bytes := by simpa [Properties.written, writeProperties, pure, Except.pure] using hw
    exact ⟨s, rfl, hs, rfl⟩
  | .required id value ps, .required id' calls rest', bytes, rest, s, hw, hm, hwf, hsep, hs => by
    obtain ⟨rfl, hmv, hmps⟩ := hm
    simp only [Properties.written, writeProperties, bind_eq_ok] at hw
    obtain ⟨a, hv, b, hps, hw⟩ := hw
    obtain rfl : writeField id' ++ a ++ b = bytes := by simpa [pure, Except.pure] using hw
    simp only [append_assoc] at hs
    have ihv := readValue_write options value calls a (b ++ (writeField terminatorFieldId ++ rest))
      ⟨a ++ (b ++ (writeField terminatorFieldId ++ rest)), none, s.nestingLevel⟩ hv hmv hwf.1 rfl rfl
    obtain ⟨s', ihps, hpending, hlevel⟩ := readProperties_write options ps rest' b rest
      ⟨b ++ (writeField terminatorFieldId ++ rest), none, s.nestingLevel⟩ hps hmps hwf.2 hsep rfl
    refine ⟨s', ?_, hpending, hlevel⟩
    rw [readProperties, bind_ok (onPropertyBegin_pending hs)]
    exact (bind_ok ihv).trans (bind_ok ihps)
  | .optional id value ps, .optional id' calls rest', bytes, rest, s, hw, hm, hwf, hsep, hs => by
    obtain ⟨rfl, hmv, hmps⟩ := hm
    simp only [Properties.written, writeProperties, bind_eq_ok] at hw
    obtain ⟨a, hv, b, hps, hw⟩ := hw
    obtain rfl : writeField id' ++ a ++ b = bytes := by simpa [pure, Except.pure] using hw
    simp only [append_assoc] at hs
    have ihv := readValue_write options value calls a (b ++ (writeField terminatorFieldId ++ rest))
      ⟨a ++ (b ++ (writeField terminatorFieldId ++ rest)), none, s.nestingLevel⟩ hv hmv hwf.1 rfl rfl
    obtain ⟨s', ihps, hpending, hlevel⟩ := readProperties_write options ps rest' b rest
      ⟨b ++ (writeField terminatorFieldId ++ rest), none, s.nestingLevel⟩ hps hmps hwf.2 hsep rfl
    refine ⟨s', ?_, hpending, hlevel⟩
    rw [readProperties, bind_ok (onOptionalPropertyBegin_present hs), if_pos rfl]
    exact (bind_ok ihv).trans (bind_ok ihps)
  | .absent id ps, .optional id' calls rest', bytes, rest, s, hw, hm, hwf, hsep, hs => by
    obtain ⟨rfl, hmps⟩ := hm
    obtain ⟨hterm, hid, hsep⟩ := hsep
    obtain ⟨s₁, hskip, hpending₁, hlevel₁⟩ := skip_property ps hw hterm hid hs
    obtain ⟨s', ihps, hpending, hlevel⟩ := readProperties_write options ps rest' bytes rest s₁ hw hmps hwf hsep
      (hpending₁.trans hs)
    refine ⟨s', ?_, hpending, hlevel.trans hlevel₁⟩
    rw [readProperties, bind_ok hskip, if_neg Bool.false_ne_true]
    exact bind_ok ihps
  | .withDefault id default value ps, .withDefault id' default' calls rest', bytes, rest, s, hw, hm, hwf, hsep, hs => by
    obtain ⟨rfl, rfl, hmv, hmps⟩ := hm
    obtain ⟨hterm, hid, hsep⟩ := hsep
    simp only [Properties.written, writeProperties] at hw
    rw [Properties.asRead]
    split at hw
    · -- The value is the default, and is left out.
      rename_i homit
      obtain ⟨s₁, hskip, hpending₁, hlevel₁⟩ := skip_property ps hw hterm hid hs
      obtain ⟨s', ihps, hpending, hlevel⟩ := readProperties_write options ps rest' bytes rest s₁ hw hmps hwf.2 hsep
        (hpending₁.trans hs)
      refine ⟨s', ?_, hpending, hlevel.trans hlevel₁⟩
      rw [if_pos homit, readProperties, bind_ok hskip, if_neg Bool.false_ne_true]
      exact bind_ok ihps
    · rename_i homit
      simp only [bind_eq_ok] at hw
      obtain ⟨a, hv, b, hps, hw⟩ := hw
      obtain rfl : writeField id' ++ a ++ b = bytes := by simpa [pure, Except.pure] using hw
      simp only [append_assoc] at hs
      have ihv := readValue_write options value calls a (b ++ (writeField terminatorFieldId ++ rest))
        ⟨a ++ (b ++ (writeField terminatorFieldId ++ rest)), none, s.nestingLevel⟩ hv hmv hwf.1 rfl rfl
      obtain ⟨s', ihps, hpending, hlevel⟩ := readProperties_write options ps rest' b rest
        ⟨b ++ (writeField terminatorFieldId ++ rest), none, s.nestingLevel⟩ hps hmps hwf.2 hsep rfl
      refine ⟨s', ?_, hpending, hlevel⟩
      rw [if_neg homit, readProperties, bind_ok (onOptionalPropertyBegin_present hs), if_pos rfl]
      exact (bind_ok ihv).trans (bind_ok ihps)
  | .readerOnly id default ps, .withDefault id' default' calls rest', bytes, rest, s, hw, hm, hwf, hsep, hs => by
    obtain ⟨rfl, rfl, hmps⟩ := hm
    obtain ⟨hterm, hid, hsep⟩ := hsep
    obtain ⟨s₁, hskip, hpending₁, hlevel₁⟩ := skip_property ps hw hterm hid hs
    obtain ⟨s', ihps, hpending, hlevel⟩ := readProperties_write options ps rest' bytes rest s₁ hw hmps hwf hsep
      (hpending₁.trans hs)
    refine ⟨s', ?_, hpending, hlevel.trans hlevel₁⟩
    rw [readProperties, bind_ok hskip, if_neg Bool.false_ne_true]
    exact bind_ok ihps

end

/-- A tree that was written is read back as it is, with the defaults of what only the reader asks for, and
the stream stands behind its bytes. An integer takes no more than 16 bytes of any stream, the decoders
read no more of any bytes, and they find every value of every width again. -/
theorem binary_round_trip :
    (∀ (options : SerializationOptions) (t : Tree) (calls : Calls) (bytes rest : Bytes), t.WellFormed →
      calls.Matches t → writeValue options t.written = .ok bytes →
      readValue calls { stream := bytes ++ rest } = .ok (t.asRead options) { stream := rest }) ∧
    (∀ (options : SerializationOptions) (t : Tree), t.written = t → t.asRead options = t) ∧
    (∀ (w : Width) (s : ReadState), Consumed 16 s.stream (streamAfter (readUnsigned w s)) ∧
      Consumed 16 s.stream (streamAfter (readSigned w s))) ∧
    (∀ (w : Width) (source : Bytes), (decodeUnsignedLEB128 w source).2 ≤ 16 ∧ (decodeSignedLEB128 w source).2 ≤ 16) ∧
    ∀ (w : Width) (v : BitVec w.bits) (rest : Bytes),
      decodeUnsignedLEB128 w (encodeUnsignedLEB128 v.toNat ++ rest) =
        (.ok v, (encodeUnsignedLEB128 v.toNat).length) ∧
      decodeSignedLEB128 w (encodeSignedLEB128 v.toInt ++ rest) = (.ok v, (encodeSignedLEB128 v.toInt).length) := by
  refine ⟨fun options t calls bytes rest hwf hm hw => ?_, fun options t => t.asRead_of_written options, fun w s => ?_,
    decode_reads_le, fun w v rest => ⟨decodeUnsigned_encode w v rest, decodeSigned_encode w v rest⟩⟩
  · exact readValue_write options t calls bytes rest { stream := bytes ++ rest } hw hm hwf rfl rfl
  · exact ⟨varIntDecode_consumed _ s, varIntDecode_consumed _ s⟩

/-- An object with a string, a property that has its default, a nested object, and one property that only
the reader asks for. -/
theorem binary_round_trip_object :
    let t : Tree := .object (.required 100 (.primitive (.string [104, 105])) (.withDefault 101 .null .null
      (.readerOnly 102 (.primitive (.bool true)) (.required 103 (.object .nil) .nil))))
    let calls : Calls := .object (.required 100 (.primitive .string) (.withDefault 101 .null (.nullable (.primitive .bool))
      (.withDefault 102 (.primitive (.bool true)) (.primitive .bool) (.required 103 (.object .nil) .nil))))
    readValue calls { stream := [100, 0, 2, 104, 105, 103, 0, 255, 255, 255, 255] ++ [7, 8] } =
      .ok (t.asRead {}) { stream := [7, 8] } := by
  intro t calls
  refine binary_round_trip.1 {} t calls _ [7, 8] ?_ ?_ ?_
  · exact ⟨by decide, by decide, by simp [Properties.readerIds, Properties.ids], trivial, trivial,
      ⟨by decide, by decide, by simp [Properties.readerIds], trivial⟩, trivial⟩
  · exact ⟨rfl, rfl, rfl, rfl, trivial, rfl, rfl, rfl, trivial, trivial⟩
  · have hlen : encodeUnsignedLEB128 2 = [2] := Wal.encode_small (by decide)
    simp [t, Tree.written, Properties.written, writeValue, writeProperties, writePrimitive, writeString, hlen]
    decide

end Haybarn.Serializer
