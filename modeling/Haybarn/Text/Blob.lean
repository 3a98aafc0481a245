/-
The text of a BLOB, from `blob.cpp`: regular characters stand for themselves and all other bytes are written as hexadecimal
escapes. One pass computes the size and another one the bytes; both are compared with what the text stands for.
-/
import Haybarn.Lib.Buffer
import Mathlib.Algebra.Group.Int.Defs

namespace Haybarn.Text.Blob

open Lib Lib.Outcome List Nat

/-! ## The source -/

/-- `'\\'`. -/
def backslash : UInt8 := 0x5C

/-- `'x'`. -/
def letterX : UInt8 := 0x78

def hexTable : List UInt8 := [48, 49, 50, 51, 52, 53, 54, 55, 56, 57, 65, 66, 67, 68, 69, 70]

/-- `Blob::HEX_MAP`, the table. -/
def hexMapTable : List Int :=
  List.replicate 48 (-1) ++ [0, 1, 2, 3, 4, 5, 6, 7, 8, 9] ++ List.replicate 7 (-1) ++ [10, 11, 12, 13, 14, 15] ++
    List.replicate 26 (-1) ++ [10, 11, 12, 13, 14, 15] ++ List.replicate 153 (-1)

/-- `Blob::HEX_MAP`, of a byte. -/
def hexMap (c : UInt8) : Int := hexMapTable.getD c.toNat 0

def isRegularCharacter (c : UInt8) : Bool := 32 ≤ c && c ≤ 126 && c != backslash && c != 0x27 && c != 0x22

/-- The loop of `Blob::GetStringSize`. -/
def getStringSizeLoop (data : List UInt8) : Nat → Nat → Nat → Outcome Nat
  | 0, _, _ => .hang
  | turns + 1, i, strLen =>
    if i < data.length then do
      let c ← read data i
      getStringSizeLoop data turns (i + 1) (if isRegularCharacter c then strLen + 1 else strLen + 4)
    else .done strLen

def getStringSize (blob : List UInt8) : Outcome Nat := getStringSizeLoop blob (blob.length + 1) 0 0

/-- The loop of `Blob::ToString`, which writes to memory of the given size. -/
def toStringLoop (data : List UInt8) (size : Nat) : Nat → Nat → List UInt8 → Outcome (List UInt8)
  | 0, _, _ => .hang
  | turns + 1, i, out =>
    if i < data.length then do
      let c ← read data i
      let out ← (if isRegularCharacter c then put size out c
        else do
          let byteA ← read hexTable (c >>> 4).toNat
          let byteB ← read hexTable (c &&& 0x0F).toNat
          putAll size out [backslash, letterX, byteA, byteB])
      toStringLoop data size turns (i + 1) out
    else .done out

def toString (blob : List UInt8) : Outcome (List UInt8) := do
  let strLen ← getStringSize blob
  let out ← toStringLoop blob strLen (blob.length + 1) 0 []
  written strLen out

/-- What the cast reports about a text that is none of a BLOB. -/
inductive BlobError where
  | unterminated
  /-- The characters that should be an escape. -/
  | invalidEscape (escape : List UInt8)
  | invalidByte

/-- The messages, with the place of the text left open. -/
def BlobError.message : BlobError → String
  | unterminated => "Invalid hex escape code encountered in string -> blob conversion of string \"%s\": " ++
      "unterminated escape code at end of blob"
  | invalidEscape _ => "Invalid hex escape code encountered in string -> blob conversion of string \"%s\": %s"
  | invalidByte => "Invalid byte encountered in STRING -> BLOB conversion of string \"%s\". All non-ascii characters " ++
      "must be escaped with hex codes (e.g. \\xAA)"

/-- The loop of `Blob::TryGetBlobSize`. -/
def tryGetBlobSizeLoop (data : List UInt8) : Nat → Nat → Nat → Outcome (Except BlobError Nat)
  | 0, _, _ => .hang
  | turns + 1, i, strLen =>
    if i < data.length then do
      let c ← read data i
      if c = backslash then
        if data.length ≤ i + 3 then .done (.error .unterminated)
        else do
          let c1 ← read data (i + 1)
          let c2 ← read data (i + 2)
          let c3 ← read data (i + 3)
          if c1 ≠ letterX ∨ hexMap c2 < 0 ∨ hexMap c3 < 0 then .done (.error (.invalidEscape [c, c1, c2, c3]))
          else tryGetBlobSizeLoop data turns (i + 4) (strLen + 1)
      else if c ≤ 127 then tryGetBlobSizeLoop data turns (i + 1) (strLen + 1)
      else .done (.error .invalidByte)
    else .done (.ok strLen)

def tryGetBlobSize (str : List UInt8) : Outcome (Except BlobError Nat) := tryGetBlobSizeLoop str (str.length + 1) 0 0

/-- The loop of `Blob::ToBlob`. -/
def toBlobLoop (data : List UInt8) (size : Nat) : Nat → Nat → List UInt8 → Outcome (List UInt8)
  | 0, _, _ => .hang
  | turns + 1, i, out =>
    if i < data.length then do
      let c ← read data i
      if c = backslash then do
        let c2 ← read data (i + 2)
        let c3 ← read data (i + 3)
        let out ← put size out (UInt8.ofNat (hexMap c2 * 2 ^ 4 + hexMap c3).toNat)
        toBlobLoop data size turns (i + 4) out
      else if c ≤ 127 then do
        let out ← put size out c
        toBlobLoop data size turns (i + 1) out
      else .error ("Invalid byte encountered in STRING -> BLOB conversion. All non-ascii characters " ++
        "must be escaped with hex codes (e.g. \\xAA)")
    else .done out

/-- `Blob::ToBlob`, which asks for the size first. -/
def toBlob (str : List UInt8) : Outcome (List UInt8) := do
  match ← tryGetBlobSize str with
  | .error e => .error e.message
  | .ok blobLen => do
    let out ← toBlobLoop str blobLen (str.length + 1) 0 []
    written blobLen out

/-! ## What a text stands for -/

/-- The digit of a number below 16. -/
def hexDigit (n : UInt8) : UInt8 := hexTable.getD n.toNat 0

/-- The byte of two digits. -/
def byteOf (a b : UInt8) : UInt8 := UInt8.ofNat (hexMap a * 2 ^ 4 + hexMap b).toNat

/-- How a byte is written. -/
def escape (c : UInt8) : List UInt8 :=
  if isRegularCharacter c then [c] else [backslash, letterX, hexDigit (c >>> 4), hexDigit (c &&& 0x0F)]

/-- The text of a BLOB. -/
def text (blob : List UInt8) : List UInt8 := blob.flatMap escape

/-- The bytes that a text stands for, if it is one of a BLOB. -/
def bytes : List UInt8 → Option (List UInt8)
  | [] => some []
  | c :: rest =>
    if c = backslash then
      match rest with
      | x :: a :: b :: rest =>
        if x = letterX ∧ 0 ≤ hexMap a ∧ 0 ≤ hexMap b then (bytes rest).map (byteOf a b :: ·) else none
      | _ => none
    else if c ≤ 127 then (bytes rest).map (c :: ·)
    else none

theorem bytes_plain {c : UInt8} (h : c ≠ backslash) (rest : List UInt8) :
    bytes (c :: rest) = if c ≤ 127 then (bytes rest).map (c :: ·) else none := by
  conv_lhs => unfold bytes
  rw [if_neg h]

theorem bytes_escape (x a b : UInt8) (rest : List UInt8) : bytes (backslash :: x :: a :: b :: rest) =
    if x = letterX ∧ 0 ≤ hexMap a ∧ 0 ≤ hexMap b then (bytes rest).map (byteOf a b :: ·) else none := by
  rw [bytes, if_pos rfl]

theorem bytes_short : ∀ {rest : List UInt8}, rest.length < 3 → bytes (backslash :: rest) = none
  | [], _ => rfl
  | [_], _ => rfl
  | [_, _], _ => rfl
  | _ :: _ :: _ :: _, h => absurd h (by simp only [length_cons]; omega)

theorem forall_byte {P : UInt8 → Prop} (h : ∀ n < 256, P (UInt8.ofNat n)) (c : UInt8) : P c := by
  have := h c.toNat c.toNat_lt
  rwa [UInt8.ofNat_toNat] at this

theorem byteOf_digits : ∀ c : UInt8, byteOf (hexDigit (c >>> 4)) (hexDigit (c &&& 0x0F)) = c ∧
    0 ≤ hexMap (hexDigit (c >>> 4)) ∧ 0 ≤ hexMap (hexDigit (c &&& 0x0F)) :=
  forall_byte (by decide +kernel)

theorem read_hexTable (c : UInt8) : (c >>> 4).toNat < hexTable.length ∧ (c &&& 0x0F).toNat < hexTable.length := by
  have hc := c.toNat_lt
  constructor
  · rw [UInt8.toNat_shiftRight, Nat.shiftRight_eq_div_pow]
    exact Nat.div_lt_of_lt_mul hc
  · rw [UInt8.toNat_and]
    exact Nat.and_lt_two_pow _ (show (0x0F : UInt8).toNat < 2 ^ 4 by decide)

theorem regular_plain (c : UInt8) (h : isRegularCharacter c = true) : c ≠ backslash ∧ c ≤ 127 := by
  simp only [isRegularCharacter, Bool.and_eq_true, decide_eq_true_eq, bne_iff_ne] at h
  exact ⟨h.1.1.2, UInt8.le_trans h.1.1.1.2 (by decide)⟩

theorem bytes_text : ∀ blob, bytes (text blob) = some blob
  | [] => rfl
  | c :: blob => by
    rw [text, flatMap_cons, ← text, escape]
    split
    next hregular =>
      obtain ⟨hplain, hascii⟩ := regular_plain c hregular
      rw [singleton_append, bytes_plain hplain, if_pos hascii, bytes_text blob]
      rfl
    next =>
      obtain ⟨hbyte, ha, hb⟩ := byteOf_digits c
      simp only [cons_append, nil_append]
      rw [bytes_escape, if_pos ⟨rfl, ha, hb⟩, bytes_text blob, hbyte]
      rfl

/-! ## Writing a text -/

theorem length_escape (c : UInt8) : (escape c).length = if isRegularCharacter c then 1 else 4 := by
  rw [escape]
  split <;> rfl

theorem getStringSizeLoop_eq {data : List UInt8} : ∀ {rest : List UInt8} {turns i strLen : Nat}, data.drop i = rest →
    rest.length < turns → getStringSizeLoop data turns i strLen = .done (strLen + (text rest).length)
  | _, 0, _, _, _, h => absurd h (Nat.not_lt_zero _)
  | [], turns + 1, i, strLen, hdrop, _ => by
    rw [getStringSizeLoop, if_neg (by have := drop_eq_nil_iff.1 hdrop; omega)]
    rfl
  | c :: rest, turns + 1, i, strLen, hdrop, hturns => by
    rw [length_cons] at hturns
    rw [getStringSizeLoop, if_pos (lt_of_drop hdrop), read_of_drop hdrop, done_bind,
      getStringSizeLoop_eq (drop_succ_of_drop hdrop) (by omega), text, text, flatMap_cons, length_append,
      length_escape]
    split <;> rw [Nat.add_assoc]

theorem getStringSize_eq (blob : List UInt8) : getStringSize blob = .done (text blob).length := by
  rw [getStringSize, getStringSizeLoop_eq rfl (by rw [drop_zero]; omega), Nat.zero_add, drop_zero]

theorem read_hexDigit {n : UInt8} (h : n.toNat < hexTable.length) : Lib.read hexTable n.toNat = .done (hexDigit n) := by
  rw [Lib.read, getElem?_eq_getElem h, hexDigit, getD_eq_getElem?_getD, getElem?_eq_getElem h]
  rfl

theorem toStringLoop_eq {data : List UInt8} {size : Nat} : ∀ {rest : List UInt8} {turns i : Nat} {out : List UInt8},
    data.drop i = rest → rest.length < turns → out.length + (text rest).length ≤ size →
    toStringLoop data size turns i out = .done (out ++ text rest)
  | _, 0, _, _, _, h, _ => absurd h (not_lt_zero _)
  | [], turns + 1, i, out, hdrop, _, _ => by
    rw [toStringLoop, if_neg (by have := drop_eq_nil_iff.1 hdrop; omega)]
    exact congrArg Outcome.done (append_nil out).symm
  | c :: rest, turns + 1, i, out, hdrop, hturns, hsize => by
    rw [length_cons] at hturns
    have htext : text (c :: rest) = escape c ++ text rest := flatMap_cons
    rw [htext, length_append] at hsize
    have hwrite : (if isRegularCharacter c then put size out c
        else do
          let byteA ← read hexTable (c >>> 4).toNat
          let byteB ← read hexTable (c &&& 0x0F).toNat
          putAll size out [backslash, letterX, byteA, byteB]) = .done (out ++ escape c) := by
      rw [length_escape] at hsize
      rw [escape]
      split
      next h =>
        rw [if_pos h] at hsize
        exact put_eq (by omega)
      next h =>
        rw [if_neg h] at hsize
        obtain ⟨ha, hb⟩ := read_hexTable c
        rw [read_hexDigit ha, done_bind, read_hexDigit hb, done_bind]
        exact putAll_eq (by rw [length_cons]; simp only [length_cons, length_nil]; omega)
    rw [toStringLoop, if_pos (lt_of_drop hdrop), read_of_drop hdrop, done_bind, hwrite, done_bind,
      toStringLoop_eq (drop_succ_of_drop hdrop) (by omega) (by rw [length_append]; omega), htext, append_assoc]

theorem toString_eq (blob : List UInt8) : toString blob = .done (text blob) := by
  rw [toString, getStringSize_eq, done_bind, toStringLoop_eq rfl (by rw [drop_zero]; omega)
    (Nat.le_of_eq (by rw [drop_zero, length_nil, Nat.zero_add])), done_bind, drop_zero, nil_append]
  exact written_eq rfl

/-! ## Reading a text -/

/-- The size is computed if the text stands for a BLOB, and is its size. -/
theorem tryGetBlobSizeLoop_spec {data : List UInt8} : ∀ {turns i strLen : Nat} {rest : List UInt8}, data.drop i = rest →
    rest.length < turns →
    (tryGetBlobSizeLoop data turns i strLen).Returns fun result =>
      match bytes rest with
      | none => ∃ e, result = .error e
      | some blob => result = .ok (strLen + blob.length)
  | 0, _, _, _, _, h => absurd h (not_lt_zero _)
  | turns + 1, i, strLen, [], hdrop, _ => by
    rw [tryGetBlobSizeLoop, if_neg (by have := drop_eq_nil_iff.1 hdrop; omega)]
    exact returns_done rfl
  | turns + 1, i, strLen, c :: rest, hdrop, hturns => by
    rw [length_cons] at hturns
    have hlength : data.length = i + rest.length + 1 := by
      have := congrArg length hdrop
      rw [length_drop, length_cons] at this
      omega
    rw [tryGetBlobSizeLoop, if_pos (lt_of_drop hdrop), read_of_drop hdrop, done_bind]
    by_cases hc : c = backslash
    · obtain rfl := hc
      rw [if_pos rfl]
      split
      next hshort =>
        rw [bytes_short (by omega)]
        exact returns_done ⟨_, rfl⟩
      next hlong =>
        match rest, hdrop, hturns, hlong with
        | [], _, _, h | [_], _, _, h | [_, _], _, _, h => simp only [length_cons, length_nil] at hlength; omega
        | x :: a :: b :: rest, hdrop, hturns, _ =>
          have hdrop1 := drop_succ_of_drop hdrop
          have hdrop2 := drop_succ_of_drop hdrop1
          have hdrop3 := drop_succ_of_drop hdrop2
          rw [read_of_drop hdrop1, done_bind, read_of_drop hdrop2, done_bind, read_of_drop hdrop3, done_bind, bytes_escape]
          simp only [length_cons] at hturns
          have hbad : (x ≠ letterX ∨ hexMap a < 0 ∨ hexMap b < 0) ↔ ¬ (x = letterX ∧ 0 ≤ hexMap a ∧ 0 ≤ hexMap b) := by
            rw [not_and_or, not_and_or, Int.not_le, Int.not_le]
          by_cases hgood : x = letterX ∧ 0 ≤ hexMap a ∧ 0 ≤ hexMap b
          · rw [if_neg (fun h => hbad.1 h hgood), if_pos hgood]
            refine (tryGetBlobSizeLoop_spec (drop_succ_of_drop hdrop3) (by omega)).mono fun result hresult => ?_
            cases hbytes : bytes rest with
            | none => rwa [hbytes] at hresult
            | some blob =>
              rw [hbytes] at hresult
              exact hresult.trans (congrArg Except.ok (by rw [length_cons]; omega))
          · rw [if_pos (hbad.2 hgood), if_neg hgood]
            exact returns_done ⟨_, rfl⟩
    · rw [if_neg hc, bytes_plain hc]
      split
      next =>
        refine (tryGetBlobSizeLoop_spec (drop_succ_of_drop hdrop) (by omega)).mono fun result hresult => ?_
        cases hbytes : bytes rest with
        | none => rwa [hbytes] at hresult
        | some blob =>
          rw [hbytes] at hresult
          exact hresult.trans (congrArg Except.ok (by rw [length_cons]; omega))
      next => exact returns_done ⟨_, rfl⟩

theorem toBlobLoop_eq {data : List UInt8} {size : Nat} : ∀ {turns i : Nat} {rest out blob : List UInt8},
    data.drop i = rest → rest.length < turns → bytes rest = some blob → out.length + blob.length ≤ size →
    toBlobLoop data size turns i out = .done (out ++ blob)
  | 0, _, _, _, _, _, h, _, _ => absurd h (not_lt_zero _)
  | turns + 1, i, [], out, blob, hdrop, _, hblob, _ => by
    rw [toBlobLoop, if_neg (by have := drop_eq_nil_iff.1 hdrop; omega), ← Option.some.inj hblob, append_nil]
  | turns + 1, i, c :: rest, out, blob, hdrop, hturns, hblob, hsize => by
    rw [length_cons] at hturns
    rw [toBlobLoop, if_pos (lt_of_drop hdrop), read_of_drop hdrop, done_bind]
    by_cases hc : c = backslash
    · obtain rfl := hc
      rw [if_pos rfl]
      match rest, hdrop, hturns, hblob with
      | [], _, _, h | [_], _, _, h | [_, _], _, _, h => cases h
      | x :: a :: b :: rest, hdrop, hturns, hblob =>
        have hdrop2 := drop_succ_of_drop (drop_succ_of_drop hdrop)
        have hdrop3 := drop_succ_of_drop hdrop2
        rw [bytes_escape] at hblob
        split at hblob
        next hgood =>
          obtain ⟨blob, hrest, rfl⟩ := Option.map_eq_some_iff.1 hblob
          rw [length_cons] at hsize
          simp only [length_cons] at hturns
          rw [read_of_drop hdrop2, done_bind, read_of_drop hdrop3, done_bind, put_eq (by omega), done_bind,
            toBlobLoop_eq (drop_succ_of_drop hdrop3) (by omega) hrest
              (by rw [length_append, length_singleton]; omega), append_assoc]
          rfl
        next => cases hblob
    · rw [if_neg hc]
      rw [bytes_plain hc] at hblob
      split at hblob
      next hascii =>
        obtain ⟨blob, hrest, rfl⟩ := Option.map_eq_some_iff.1 hblob
        rw [length_cons] at hsize
        rw [if_pos hascii, put_eq (by omega), done_bind, toBlobLoop_eq (drop_succ_of_drop hdrop) (by omega) hrest
          (by rw [length_append, length_singleton]; omega), append_assoc]
        rfl
      next => cases hblob

/-- A text that stands for a BLOB is read as it, and every other one is rejected. -/
theorem toBlob_spec (str : List UInt8) :
    match bytes str with
    | none => (∃ e, tryGetBlobSize str = .done (.error e)) ∧ ∃ message, toBlob str = .error message
    | some blob => tryGetBlobSize str = .done (.ok blob.length) ∧ toBlob str = .done blob := by
  obtain ⟨result, hresult, hsize⟩ := @tryGetBlobSizeLoop_spec str (str.length + 1) 0 0 str rfl
    (Nat.lt_succ_self _)
  have hresult : tryGetBlobSize str = .done result := hresult
  cases hbytes : bytes str with
  | none =>
    rw [hbytes] at hsize
    obtain ⟨e, rfl⟩ := hsize
    exact ⟨⟨e, hresult⟩, _, by rw [toBlob, hresult]; rfl⟩
  | some blob =>
    rw [hbytes] at hsize
    obtain rfl := hsize
    rw [Nat.zero_add] at hresult
    refine ⟨hresult, ?_⟩
    rw [toBlob, hresult, done_bind]
    dsimp only
    rw [@toBlobLoop_eq str blob.length (str.length + 1) 0 str [] blob rfl (Nat.lt_succ_self _) hbytes
      (Nat.le_of_eq (by rw [length_nil, Nat.zero_add])), done_bind]
    exact written_eq rfl

end Haybarn.Text.Blob
