/-
Base64, from `blob.cpp`: three bytes are written as four characters, with padding at the end. The reader takes padding at each
of the last two places by itself, so that it also accepts texts with padding before the last character.
-/
import Haybarn.Text.Blob

namespace Haybarn.Text.Blob

open Lib Lib.Outcome List Nat

/-! ## Writing -/

def base64Map : List UInt8 :=
  (List.range' 65 26 ++ List.range' 97 26 ++ List.range' 48 10 ++ [43, 47]).map UInt8.ofNat

def base64Padding : UInt8 := 0x3D

def toBase64Size (blob : List UInt8) : Nat := (blob.length + 2) / 3 * 4

/-- The six highest bits of a byte. -/
def firstIndex (a : UInt8) : Nat := (a.toNat >>> 2) &&& 0x3F

/-- The two lowest bits of a byte, in front of the four highest of the next. -/
def secondIndex (a b : UInt8) : Nat := ((a.toNat &&& 0x3) <<< 4) ||| ((b.toNat &&& 0xF0) >>> 4)

/-- The four lowest bits of a byte, in front of the two highest of the next. -/
def thirdIndex (b c : UInt8) : Nat := ((b.toNat &&& 0xF) <<< 2) ||| ((c.toNat &&& 0xC0) >>> 6)

/-- The loop of `Blob::ToBase64`. -/
def toBase64Loop (data : List UInt8) (size : Nat) : Nat → Nat → List UInt8 → Outcome (Nat × List UInt8)
  | 0, _, _ => .hang
  | turns + 1, i, out =>
    if i + 2 < data.length then do
      let a ← read data i
      let b ← read data (i + 1)
      let c ← read data (i + 2)
      let c1 ← read base64Map (firstIndex a)
      let c2 ← read base64Map (secondIndex a b)
      let c3 ← read base64Map (thirdIndex b c)
      let c4 ← read base64Map (c.toNat &&& 0x3F)
      let out ← putAll size out [c1, c2, c3, c4]
      toBase64Loop data size turns (i + 3) out
    else .done (i, out)

/-- The bytes that `Blob::ToBase64` finds left over. -/
def toBase64Rest (data : List UInt8) (size i : Nat) (out : List UInt8) : Outcome (List UInt8) :=
  if i < data.length then do
    let a ← read data i
    let c1 ← read base64Map (firstIndex a)
    if i = data.length - 1 then do
      let c2 ← read base64Map ((a.toNat &&& 0x3) <<< 4)
      putAll size out [c1, c2, base64Padding, base64Padding]
    else do
      let b ← read data (i + 1)
      let c2 ← read base64Map (secondIndex a b)
      let c3 ← read base64Map ((b.toNat &&& 0xF) <<< 2)
      putAll size out [c1, c2, c3, base64Padding]
  else .done out

def toBase64 (blob : List UInt8) : Outcome (List UInt8) := do
  let (i, out) ← toBase64Loop blob (toBase64Size blob) (blob.length + 1) 0 []
  let out ← toBase64Rest blob (toBase64Size blob) i out
  .done (filled 0 (toBase64Size blob) out)

/-! ## Reading -/

/-- `BASE64_DECODING_TABLE`, the table. -/
def base64DecodingTable : List Int :=
  List.replicate 43 (-1) ++ [62] ++ List.replicate 3 (-1) ++ [63] ++ (List.range' 52 10).map Int.ofNat ++
    List.replicate 7 (-1) ++ (List.range' 0 26).map Int.ofNat ++ List.replicate 6 (-1) ++
    (List.range' 26 26).map Int.ofNat ++ List.replicate 133 (-1)

/-- `BASE64_DECODING_TABLE`, of a byte. -/
def base64Decoding (c : UInt8) : Int := base64DecodingTable.getD c.toNat (-1)

def fromBase64Size (str : List UInt8) : Outcome Nat :=
  if str.length % 4 ≠ 0 then .error "Could not decode string \"%s\" as base64: length must be a multiple of 4"
  else if str.length < 4 then .done 0
  else do
    let c ← read str (str.length - 2)
    if c = base64Padding then .done (str.length / 4 * 3 - 2)
    else do
      let d ← read str (str.length - 1)
      if d = base64Padding then .done (str.length / 4 * 3 - 1) else .done (str.length / 4 * 3)

/-- A turn of the loop of `DecodeBase64Bytes`. -/
def decodeBase64Byte (allowPadding : Bool) (data : List UInt8) (baseIdx decodeIdx : Nat) : Outcome Int := do
  let c ← read data (baseIdx + decodeIdx)
  let decoded := if allowPadding && 2 ≤ decodeIdx && c == base64Padding then 0 else base64Decoding c
  if decoded < 0 then .error "Could not decode string \"%s\" as base64: invalid byte value '%d' at position %d"
  else .done decoded

def decodeBase64Bytes (allowPadding : Bool) (data : List UInt8) (baseIdx : Nat) : Outcome Nat := do
  let d0 ← decodeBase64Byte allowPadding data baseIdx 0
  let d1 ← decodeBase64Byte allowPadding data baseIdx 1
  let d2 ← decodeBase64Byte allowPadding data baseIdx 2
  let d3 ← decodeBase64Byte allowPadding data baseIdx 3
  .done (d0 * 2 ^ 18 + d1 * 2 ^ 12 + d2 * 2 ^ 6 + d3).toNat

/-- `(combined >> shift) & 0xFF`. -/
def byteAt (combined shift : Nat) : UInt8 := UInt8.ofNat ((combined >>> shift) &&& 0xFF)

/-- The loop of `Blob::FromBase64`. -/
def fromBase64Loop (data : List UInt8) (size : Nat) : Nat → Nat → List UInt8 → Outcome (Nat × List UInt8)
  | 0, _, _ => .hang
  | turns + 1, i, out =>
    if i + 4 < data.length then do
      let combined ← decodeBase64Bytes false data i
      let out ← putAll size out [byteAt combined 16, byteAt combined 8, byteAt combined 0]
      fromBase64Loop data size turns (i + 4) out
    else .done (i, out)

/-- The last four characters in `Blob::FromBase64`. -/
def fromBase64Rest (data : List UInt8) (size i : Nat) (out : List UInt8) : Outcome (List UInt8) := do
  let combined ← decodeBase64Bytes true data i
  let out ← put size out (byteAt combined 16)
  let out ← (if out.length < size then put size out (byteAt combined 8) else .done out)
  if out.length < size then put size out (byteAt combined 0) else .done out

def fromBase64 (str : List UInt8) : Outcome (List UInt8) := do
  let decodedSize ← fromBase64Size str
  if str.length = 0 then .done (filled 0 decodedSize [])
  else do
    let (i, out) ← fromBase64Loop str decodedSize (str.length + 1) 0 []
    let out ← fromBase64Rest str decodedSize i out
    .done (filled 0 decodedSize out)

/-! ## The alphabet -/

/-- The character of a number below 64. -/
def digit (n : Nat) : UInt8 := base64Map.getD n 0

variable {n : Nat} {str body : List UInt8}

theorem read_base64Map (h : n < 64) : Lib.read base64Map n = .done (digit n) := by
  have hlt : n < base64Map.length := lt_of_lt_of_eq h (by decide)
  rw [Lib.read, getElem?_eq_getElem hlt, digit, getD_eq_getElem?_getD, getElem?_eq_getElem hlt]
  rfl

theorem digit_spec (h : n < 64) : digit n ∈ base64Map ∧ base64Decoding (digit n) = n := by
  have hdecoding : ∀ n < 64, base64Decoding (digit n) = (n : Int) := by decide
  have hlt : n < base64Map.length := lt_of_lt_of_eq h (by decide)
  refine ⟨?_, hdecoding n h⟩
  rw [digit, getD_eq_getElem?_getD, getElem?_eq_getElem hlt]
  exact getElem_mem hlt

theorem base64DecodingTable_spec : ∀ entry ∈ base64DecodingTable.zipIdx,
    entry.1 < 64 ∧ (0 ≤ entry.1 → digit entry.1.toNat = UInt8.ofNat entry.2) := by
  decide +kernel

theorem base64Decoding_spec (c : UInt8) :
    base64Decoding c < 64 ∧ (0 ≤ base64Decoding c → digit (base64Decoding c).toNat = c) := by
  have hlt : c.toNat < base64DecodingTable.length := by
    simp only [base64DecodingTable, length_append, length_replicate, length_map, length_range',
      length_singleton]
    exact c.toNat_lt
  have hget : base64DecodingTable[c.toNat]? = some (base64Decoding c) := by
    rw [base64Decoding, getD_eq_getElem?_getD, getElem?_eq_getElem hlt]
    rfl
  have hmem : (base64Decoding c, c.toNat) ∈ base64DecodingTable.zipIdx := mem_zipIdx_iff_getElem?.2 hget
  have hentry := base64DecodingTable_spec _ hmem
  rwa [UInt8.ofNat_toNat] at hentry

theorem mem_base64Map_iff (c : UInt8) : c ∈ base64Map ↔ 0 ≤ base64Decoding c := by
  obtain ⟨hlt, hdigit⟩ := base64Decoding_spec c
  constructor
  · intro h
    obtain ⟨n, hn, hc⟩ := getElem_of_mem h
    have hget : c = digit n := by
      rw [digit, getD_eq_getElem?_getD, getElem?_eq_getElem hn, hc]
      rfl
    rw [hget, (digit_spec (lt_of_lt_of_eq hn (by decide))).2]
    exact Int.natCast_nonneg n
  · intro h
    rw [← hdigit h]
    exact (digit_spec (by omega)).1

theorem padding_not_mem : base64Padding ∉ base64Map := fun h => absurd ((mem_base64Map_iff _).1 h) (by decide)

theorem indices_eq (a b c : UInt8) :
    firstIndex a = a.toNat / 4 ∧ secondIndex a b = a.toNat % 4 * 16 + b.toNat / 16 ∧
      thirdIndex b c = b.toNat % 16 * 4 + c.toNat / 64 := by
  have ha := a.toNat_lt
  have hb := b.toNat_lt
  have hc := c.toNat_lt
  have htwo (n : Nat) : n &&& 3 = n % 4 := and_two_pow_sub_one_eq_mod n 2
  have hfour (n : Nat) : n &&& 15 = n % 16 := and_two_pow_sub_one_eq_mod n 4
  have hsix (n : Nat) : n &&& 63 = n % 64 := and_two_pow_sub_one_eq_mod n 6
  have hjoin (x y w : Nat) (hy : y < 2 ^ w) : x <<< w ||| y = x * 2 ^ w + y := by
    rw [← shiftLeft_add_eq_or_of_lt hy, shiftLeft_eq]
  have hf0 (n : Nat) (hn : n < 256) : (n &&& 0xF0) >>> 4 = n / 16 := by
    rw [shiftRight_and_distrib, show 0xF0 >>> 4 = 15 from rfl, hfour, shiftRight_eq_div_pow]
    omega
  have hc0 (n : Nat) (hn : n < 256) : (n &&& 0xC0) >>> 6 = n / 64 := by
    rw [shiftRight_and_distrib, show 0xC0 >>> 6 = 3 from rfl, htwo, shiftRight_eq_div_pow]
    omega
  refine ⟨?_, ?_, ?_⟩
  · rw [firstIndex, hsix, shiftRight_eq_div_pow]
    omega
  · rw [secondIndex, htwo, hf0 _ hb]
    exact hjoin _ _ 4 (by omega)
  · rw [thirdIndex, hfour, hc0 _ hc]
    exact hjoin _ _ 2 (by omega)

/-! ## What a text stands for -/

/-- The bytes that four characters stand for. -/
def quantum (p q r t : Int) : List UInt8 :=
  let combined := (p * 2 ^ 18 + q * 2 ^ 12 + r * 2 ^ 6 + t).toNat
  [byteAt combined 16, byteAt combined 8, byteAt combined 0]

/-- The bytes of the characters before the last four. -/
def decodeBody : List UInt8 → List UInt8
  | p :: q :: r :: t :: body =>
    quantum (base64Decoding p) (base64Decoding q) (base64Decoding r) (base64Decoding t) ++ decodeBody body
  | _ => []

/-- The number of a character at one of the last two places. -/
def lastDecoding (c : UInt8) : Int := if c = base64Padding then 0 else base64Decoding c

/-- The bytes of the last four characters. -/
def decodeLast (p q r t : UInt8) : List UInt8 :=
  (quantum (base64Decoding p) (base64Decoding q) (lastDecoding r) (lastDecoding t)).take
    (if r = base64Padding then 1 else if t = base64Padding then 2 else 3)

/-- What the reader takes for the last four characters. -/
def LastFits (p q r t : UInt8) : Prop :=
  p ∈ base64Map ∧ q ∈ base64Map ∧ (r = base64Padding ∨ r ∈ base64Map) ∧ (t = base64Padding ∨ t ∈ base64Map)

theorem quantum_indices (a b c : UInt8) :
    quantum (firstIndex a : Nat) (secondIndex a b : Nat) (thirdIndex b c : Nat) (c.toNat % 64 : Nat) = [a, b, c] := by
  obtain ⟨h1, h2, h3⟩ := indices_eq a b c
  have ha := a.toNat_lt
  have hb := b.toNat_lt
  have hc := c.toNat_lt
  have hcombined : ((firstIndex a : Nat) * 2 ^ 18 + (secondIndex a b : Nat) * 2 ^ 12 + (thirdIndex b c : Nat) * 2 ^ 6 +
      (c.toNat % 64 : Nat) : Int).toNat = a.toNat * 2 ^ 16 + b.toNat * 2 ^ 8 + c.toNat := by
    rw [h1, h2, h3]
    omega
  have hbyte (n shift : Nat) (x : UInt8) (h : n / 2 ^ shift % 2 ^ 8 = x.toNat) : byteAt n shift = x := by
    rw [byteAt, shiftRight_eq_div_pow, show (0xFF : Nat) = 2 ^ 8 - 1 from rfl, and_two_pow_sub_one_eq_mod, h,
      UInt8.ofNat_toNat]
  rw [quantum, hcombined, hbyte _ 16 a (by omega), hbyte _ 8 b (by omega), hbyte _ 0 c (by omega)]

/-- The text of a BLOB. -/
def encode : List UInt8 → List UInt8
  | [] => []
  | [a] => [digit (firstIndex a), digit (secondIndex a 0), base64Padding, base64Padding]
  | [a, b] => [digit (firstIndex a), digit (secondIndex a b), digit (thirdIndex b 0), base64Padding]
  | a :: b :: c :: blob =>
    [digit (firstIndex a), digit (secondIndex a b), digit (thirdIndex b c), digit (c.toNat % 64)] ++ encode blob

theorem indices_lt (a b c : UInt8) : firstIndex a < 64 ∧ secondIndex a b < 64 ∧ thirdIndex b c < 64 := by
  obtain ⟨h1, h2, h3⟩ := indices_eq a b c
  have ha := a.toNat_lt
  have hb := b.toNat_lt
  have hc := c.toNat_lt
  omega

theorem digit_ne_padding (h : n < 64) : digit n ≠ base64Padding := by
  intro he
  exact padding_not_mem (he ▸ (digit_spec h).1)

theorem lastDecoding_digit (h : n < 64) : lastDecoding (digit n) = n := by
  rw [lastDecoding, if_neg (digit_ne_padding h), (digit_spec h).2]

theorem encode_stands : ∀ {blob : List UInt8}, blob ≠ [] → ∃ body p q r t n, encode blob = body ++ [p, q, r, t] ∧
    body.length = 4 * n ∧ (∀ x ∈ body, x ∈ base64Map) ∧ LastFits p q r t ∧ decodeBody body ++ decodeLast p q r t = blob
  | [], h => absurd rfl h
  | [a], _ => by
    obtain ⟨h1, h2, h3⟩ := indices_lt a 0 0
    refine ⟨[], _, _, _, _, 0, rfl, rfl, fun x hx => absurd hx (not_mem_nil), ⟨(digit_spec h1).1, (digit_spec h2).1,
      .inl rfl, .inl rfl⟩, ?_⟩
    have hthird : thirdIndex 0 0 = 0 := by decide
    have hquantum := quantum_indices a 0 0
    rw [hthird] at hquantum
    rw [decodeLast, (digit_spec h1).2, (digit_spec h2).2, if_pos rfl]
    exact congrArg (take 1) hquantum
  | [a, b], _ => by
    obtain ⟨h1, h2, h3⟩ := indices_lt a b 0
    refine ⟨[], _, _, _, _, 0, rfl, rfl, fun x hx => absurd hx (not_mem_nil), ⟨(digit_spec h1).1, (digit_spec h2).1,
      .inr (digit_spec h3).1, .inl rfl⟩, ?_⟩
    rw [decodeLast, (digit_spec h1).2, (digit_spec h2).2, lastDecoding_digit h3, if_neg (digit_ne_padding h3), if_pos rfl]
    exact congrArg (take 2) (quantum_indices a b 0)
  | a :: b :: c :: blob, _ => by
    obtain ⟨h1, h2, h3⟩ := indices_lt a b c
    have h4 : c.toNat % 64 < 64 := mod_lt _ (by decide)
    by_cases hblob : blob = []
    · obtain rfl := hblob
      refine ⟨[], _, _, _, _, 0, rfl, rfl, fun x hx => absurd hx (not_mem_nil), ⟨(digit_spec h1).1,
        (digit_spec h2).1, .inr (digit_spec h3).1, .inr (digit_spec h4).1⟩, ?_⟩
      rw [decodeLast, (digit_spec h1).2, (digit_spec h2).2, lastDecoding_digit h3, lastDecoding_digit h4,
        if_neg (digit_ne_padding h3), if_neg (digit_ne_padding h4)]
      exact congrArg (take 3) (quantum_indices a b c)
    · obtain ⟨body, p, q, r, t, n, hencode, hlength, hbody, hlast, hdecode⟩ := encode_stands hblob
      refine ⟨[digit (firstIndex a), digit (secondIndex a b), digit (thirdIndex b c), digit (c.toNat % 64)] ++ body,
        p, q, r, t, n + 1, ?_, ?_, ?_, hlast, ?_⟩
      · rw [encode, hencode, append_assoc]
      · rw [length_append, hlength]
        simp only [length_cons, length_nil]
        omega
      · intro x hx
        rcases mem_append.1 hx with hx | hx
        · simp only [mem_cons, not_mem_nil, or_false] at hx
          rcases hx with rfl | rfl | rfl | rfl
          · exact (digit_spec h1).1
          · exact (digit_spec h2).1
          · exact (digit_spec h3).1
          · exact (digit_spec h4).1
        · exact hbody x hx
      · simp only [cons_append, nil_append, decodeBody]
        rw [(digit_spec h1).2, (digit_spec h2).2, (digit_spec h3).2, (digit_spec h4).2, quantum_indices, append_assoc,
          hdecode]
        rfl

theorem length_encode : ∀ blob : List UInt8, (encode blob).length = toBase64Size blob
  | [] => rfl
  | [a] => by simp [encode, toBase64Size]
  | [a, b] => by simp [encode, toBase64Size]
  | a :: b :: c :: blob => by
    rw [encode, length_append, length_encode blob, toBase64Size, toBase64Size]
    simp only [length_cons, length_nil]
    omega

/-! ## The writer -/

theorem toNat_and_low (c : UInt8) : c.toNat &&& 0x3F = c.toNat % 64 := and_two_pow_sub_one_eq_mod c.toNat 6

theorem toBase64_loop_rest {data : List UInt8} {size : Nat} : ∀ {turns i : Nat} {rest out : List UInt8},
    data.drop i = rest → rest.length < turns → out.length + (encode rest).length ≤ size →
    (do
      let (i, out) ← toBase64Loop data size turns i out
      toBase64Rest data size i out) = .done (out ++ encode rest)
  | 0, _, _, _, _, h, _ => absurd h (not_lt_zero _)
  | turns + 1, i, [], out, hdrop, _, _ => by
    have hend : data.length ≤ i := drop_eq_nil_iff.1 hdrop
    rw [toBase64Loop, if_neg (by omega), done_bind]
    dsimp only
    rw [toBase64Rest, if_neg (by omega), encode, append_nil]
  | turns + 1, i, [a], out, hdrop, _, hsize => by
    have hlength := congrArg length hdrop
    simp only [length_drop, length_cons, length_nil] at hlength
    obtain ⟨h1, h2, -⟩ := indices_lt a 0 0
    have hsecond : (a.toNat &&& 0x3) <<< 4 = secondIndex a 0 := by simp [secondIndex]
    rw [toBase64Loop, if_neg (by omega), done_bind]
    dsimp only
    rw [toBase64Rest, if_pos (by omega), read_of_drop hdrop, done_bind, read_base64Map h1, done_bind, if_pos (by omega),
      hsecond, read_base64Map h2, done_bind]
    exact putAll_eq hsize
  | turns + 1, i, [a, b], out, hdrop, _, hsize => by
    have hlength := congrArg length hdrop
    simp only [length_drop, length_cons, length_nil] at hlength
    obtain ⟨h1, h2, h3⟩ := indices_lt a b 0
    have hthird : (b.toNat &&& 0xF) <<< 2 = thirdIndex b 0 := by simp [thirdIndex]
    rw [toBase64Loop, if_neg (by omega), done_bind]
    dsimp only
    rw [toBase64Rest, if_pos (by omega), read_of_drop hdrop, done_bind, read_base64Map h1, done_bind, if_neg (by omega),
      read_of_drop (drop_succ_of_drop hdrop), done_bind, read_base64Map h2, done_bind, hthird, read_base64Map h3, done_bind]
    exact putAll_eq hsize
  | turns + 1, i, a :: b :: c :: rest, out, hdrop, hturns, hsize => by
    have hlength := congrArg length hdrop
    simp only [length_drop, length_cons] at hlength
    simp only [length_cons] at hturns
    have hdrop1 := drop_succ_of_drop hdrop
    have hdrop2 := drop_succ_of_drop hdrop1
    obtain ⟨h1, h2, h3⟩ := indices_lt a b c
    have h4 : c.toNat % 64 < 64 := mod_lt _ (by decide)
    rw [encode, length_append] at hsize
    rw [toBase64Loop, if_pos (by omega), read_of_drop hdrop, done_bind, read_of_drop hdrop1, done_bind,
      read_of_drop hdrop2, done_bind, read_base64Map h1, done_bind, read_base64Map h2, done_bind, read_base64Map h3,
      done_bind, toNat_and_low, read_base64Map h4, done_bind, putAll_eq (by simp only [length_cons] at hsize ⊢; omega),
      done_bind, toBase64_loop_rest (drop_succ_of_drop hdrop2) (by omega) (by rw [length_append]; omega), encode,
      append_assoc]

theorem toBase64_eq (blob : List UInt8) : toBase64 blob = .done (encode blob) := by
  have h := @toBase64_loop_rest blob (toBase64Size blob) (blob.length + 1) 0 blob [] rfl (Nat.lt_succ_self _)
    (Nat.le_of_eq (by rw [length_nil, Nat.zero_add, length_encode]))
  rw [toBase64]
  cases hloop : toBase64Loop blob (toBase64Size blob) (blob.length + 1) 0 [] with
  | done r =>
    rw [hloop, done_bind] at h
    rw [done_bind]
    dsimp only at h ⊢
    rw [h, done_bind, nil_append, filled_eq (length_encode blob)]
  | error message =>
    rw [hloop] at h
    cases h
  | fault =>
    rw [hloop] at h
    cases h
  | hang =>
    rw [hloop] at h
    cases h

/-! ## The reader -/

theorem decodeBase64Byte_eq {allowPadding : Bool} {data : List UInt8} {baseIdx decodeIdx : Nat} {c : UInt8}
    {rest : List UInt8} (hdrop : data.drop (baseIdx + decodeIdx) = c :: rest) :
    let decoded := if allowPadding && 2 ≤ decodeIdx && c == base64Padding then 0 else base64Decoding c
    (0 ≤ decoded → decodeBase64Byte allowPadding data baseIdx decodeIdx = .done decoded) ∧
      (¬ 0 ≤ decoded → ∃ message, decodeBase64Byte allowPadding data baseIdx decodeIdx = .error message) := by
  intro decoded
  have hstep : decodeBase64Byte allowPadding data baseIdx decodeIdx =
      if decoded < 0 then .error "Could not decode string \"%s\" as base64: invalid byte value '%d' at position %d"
      else .done decoded := by
    rw [decodeBase64Byte, read_of_drop hdrop, done_bind]
  rw [hstep]
  exact ⟨fun h => if_neg (Int.not_lt.2 h), fun h => ⟨_, if_pos (Int.not_le.1 h)⟩⟩

/-- Four characters are read if each of them has a number. -/
theorem decodeBase64Bytes_spec {allowPadding : Bool} {data : List UInt8} {baseIdx : Nat} {p q r t : UInt8}
    {rest : List UInt8} (hdrop : data.drop baseIdx = p :: q :: r :: t :: rest) :
    let last := fun c => if allowPadding then lastDecoding c else base64Decoding c
    (0 ≤ base64Decoding p ∧ 0 ≤ base64Decoding q ∧ 0 ≤ last r ∧ 0 ≤ last t →
      decodeBase64Bytes allowPadding data baseIdx =
        .done (base64Decoding p * 2 ^ 18 + base64Decoding q * 2 ^ 12 + last r * 2 ^ 6 + last t).toNat) ∧
    (¬ (0 ≤ base64Decoding p ∧ 0 ≤ base64Decoding q ∧ 0 ≤ last r ∧ 0 ≤ last t) →
      ∃ message, decodeBase64Bytes allowPadding data baseIdx = .error message) := by
  intro last
  have hdrop1 := drop_succ_of_drop hdrop
  have hdrop2 := drop_succ_of_drop hdrop1
  have hdrop3 := drop_succ_of_drop hdrop2
  have hlast : ∀ decodeIdx c, 2 ≤ decodeIdx →
      (if allowPadding && 2 ≤ decodeIdx && c == base64Padding then 0 else base64Decoding c) = last c := by
    intro decodeIdx c hidx
    cases allowPadding <;> simp [last, lastDecoding, hidx]
  have hfirst : ∀ decodeIdx c, decodeIdx < 2 →
      (if allowPadding && 2 ≤ decodeIdx && c == base64Padding then 0 else base64Decoding c) = base64Decoding c := by
    intro decodeIdx c hidx
    simp [Nat.not_le.2 hidx]
  have h0 := @decodeBase64Byte_eq allowPadding data baseIdx 0 p _ hdrop
  have h1 := @decodeBase64Byte_eq allowPadding data baseIdx 1 q _ hdrop1
  have h2 := @decodeBase64Byte_eq allowPadding data baseIdx 2 r _ hdrop2
  have h3 := @decodeBase64Byte_eq allowPadding data baseIdx 3 t _ hdrop3
  rw [hfirst 0 p (by decide)] at h0
  rw [hfirst 1 q (by decide)] at h1
  rw [hlast 2 r (by decide)] at h2
  rw [hlast 3 t (by decide)] at h3
  rw [decodeBase64Bytes]
  by_cases hp : 0 ≤ base64Decoding p
  · rw [h0.1 hp, done_bind]
    by_cases hq : 0 ≤ base64Decoding q
    · rw [h1.1 hq, done_bind]
      by_cases hr : 0 ≤ last r
      · rw [h2.1 hr, done_bind]
        by_cases ht : 0 ≤ last t
        · rw [h3.1 ht, done_bind]
          exact ⟨fun _ => rfl, fun h => absurd ⟨hp, hq, hr, ht⟩ h⟩
        · obtain ⟨message, hmessage⟩ := h3.2 ht
          exact ⟨fun h => absurd h.2.2.2 ht, fun _ => ⟨message, by rw [hmessage]; rfl⟩⟩
      · obtain ⟨message, hmessage⟩ := h2.2 hr
        exact ⟨fun h => absurd h.2.2.1 hr, fun _ => ⟨message, by rw [hmessage]; rfl⟩⟩
    · obtain ⟨message, hmessage⟩ := h1.2 hq
      exact ⟨fun h => absurd h.2.1 hq, fun _ => ⟨message, by rw [hmessage]; rfl⟩⟩
  · obtain ⟨message, hmessage⟩ := h0.2 hp
    exact ⟨fun h => absurd h.1 hp, fun _ => ⟨message, by rw [hmessage]; rfl⟩⟩

theorem lastDecoding_nonneg_iff {c : UInt8} : 0 ≤ lastDecoding c ↔ c = base64Padding ∨ c ∈ base64Map := by
  rw [lastDecoding, mem_base64Map_iff]
  split
  next h => exact iff_of_true (Int.le_refl _) (.inl h)
  next h => exact (or_iff_right h).symm

/-- The loop reads all but the last four characters. -/
theorem fromBase64Loop_spec {data : List UInt8} {size : Nat} {p q r t : UInt8} : ∀ {turns n i : Nat}
    {body out : List UInt8}, data.drop i = body ++ [p, q, r, t] → body.length = 4 * n → n < turns →
    out.length + 3 * n ≤ size →
    ((∀ x ∈ body, x ∈ base64Map) →
      fromBase64Loop data size turns i out = .done (i + 4 * n, out ++ decodeBody body) ∧
        (decodeBody body).length = 3 * n) ∧
    (¬ (∀ x ∈ body, x ∈ base64Map) → ∃ message, fromBase64Loop data size turns i out = .error message)
  | 0, _, _, _, _, _, _, h, _ => absurd h (not_lt_zero _)
  | turns + 1, 0, i, body, out, hdrop, hlength, _, _ => by
    obtain rfl := length_eq_zero_iff.1 hlength
    have hend := congrArg length hdrop
    simp only [length_drop, nil_append, length_cons, length_nil] at hend
    have hnil : decodeBody [] = [] := rfl
    rw [fromBase64Loop, if_neg (by omega), hnil, append_nil]
    exact ⟨fun _ => ⟨rfl, rfl⟩, fun h => absurd (fun x hx => absurd hx not_mem_nil) h⟩
  | turns + 1, n + 1, i, body, out, hdrop, hlength, hturns, hsize => by
    match body, hdrop, hlength with
    | [], _, h | [_], _, h | [_, _], _, h | [_, _, _], _, h => simp only [length_cons, length_nil] at h; omega
    | a :: b :: c :: d :: body, hdrop, hlength =>
      have hend := congrArg length hdrop
      simp only [length_drop, length_append, length_cons, length_nil] at hend hlength
      obtain ⟨hgood, hbad⟩ := @decodeBase64Bytes_spec false _ _ _ _ _ _ _ hdrop
      simp only [Bool.false_eq_true, if_false, ← mem_base64Map_iff] at hgood hbad
      rw [fromBase64Loop, if_pos (by omega)]
      by_cases hfour : a ∈ base64Map ∧ b ∈ base64Map ∧ c ∈ base64Map ∧ d ∈ base64Map
      · obtain ⟨ha, hb, hc, hd⟩ := hfour
        have hrest : data.drop (i + 4) = body ++ [p, q, r, t] := by
          rw [← drop_drop, hdrop]
          rfl
        rw [hgood ⟨ha, hb, hc, hd⟩, done_bind, putAll_eq (by simp only [length_cons, length_nil]; omega),
          done_bind]
        obtain ⟨hok, herror⟩ := @fromBase64Loop_spec data size p q r t turns n (i + 4) body
          (out ++ quantum (base64Decoding a) (base64Decoding b) (base64Decoding c) (base64Decoding d)) hrest
          (by omega) (by omega)
          (by rw [length_append, quantum]; simp only [length_cons, length_nil]; omega)
        constructor
        · intro hall
          obtain ⟨hloop, hlen⟩ := hok fun x hx => hall x (by simp [hx])
          refine ⟨?_, ?_⟩
          · rw [decodeBody, ← append_assoc, show i + 4 * (n + 1) = i + 4 + 4 * n by omega]
            exact hloop
          · rw [decodeBody, length_append, hlen, quantum]
            simp only [length_cons, length_nil]
            omega
        · intro hnot
          refine herror fun hall => hnot fun x hx => ?_
          simp only [mem_cons] at hx
          rcases hx with rfl | rfl | rfl | rfl | hx
          · exact ha
          · exact hb
          · exact hc
          · exact hd
          · exact hall x hx
      · obtain ⟨message, hmessage⟩ := hbad hfour
        refine ⟨fun hall => absurd ⟨hall a ?_, hall b ?_, hall c ?_, hall d ?_⟩ hfour, fun _ =>
          ⟨message, by rw [hmessage]; rfl⟩⟩ <;> simp

theorem fromBase64Size_eq {p q r t : UInt8} (hstr : str = body ++ [p, q, r, t])
    (hlength : body.length = 4 * n) :
    fromBase64Size str = .done (3 * n + if r = base64Padding then 1 else if t = base64Padding then 2 else 3) := by
  have hlen : str.length = 4 * n + 4 := by rw [hstr, length_append, hlength]; rfl
  have hr : str.drop (str.length - 2) = [r, t] := by
    rw [hlen, hstr, show 4 * n + 4 - 2 = body.length + 2 by omega, ← drop_drop, drop_left]
    rfl
  have ht : str.drop (str.length - 1) = [t] := by
    rw [hlen, hstr, show 4 * n + 4 - 1 = body.length + 3 by omega, ← drop_drop, drop_left]
    rfl
  rw [fromBase64Size, if_neg (by omega), if_neg (by omega), read_of_drop hr, done_bind]
  split
  next => exact congrArg Outcome.done (by omega)
  next =>
    rw [read_of_drop ht, done_bind]
    split <;> exact congrArg Outcome.done (by omega)

/-- The last four characters are read if they fit, into as much memory as was announced. -/
theorem fromBase64Rest_spec {data out : List UInt8} {size i : Nat} {p q r t : UInt8} (hdrop : data.drop i = [p, q, r, t])
    (hsize : size = out.length + if r = base64Padding then 1 else if t = base64Padding then 2 else 3) :
    (LastFits p q r t → fromBase64Rest data size i out = .done (out ++ decodeLast p q r t)) ∧
      (¬ LastFits p q r t → ∃ message, fromBase64Rest data size i out = .error message) := by
  obtain ⟨hgood, hbad⟩ := @decodeBase64Bytes_spec true _ _ _ _ _ _ _ hdrop
  simp only [if_true, lastDecoding_nonneg_iff, ← mem_base64Map_iff] at hgood hbad
  rw [fromBase64Rest]
  constructor
  · intro hfits
    rw [hgood hfits, done_bind, decodeLast, quantum]
    generalize (base64Decoding p * 2 ^ 18 + base64Decoding q * 2 ^ 12 + lastDecoding r * 2 ^ 6 + lastDecoding t).toNat =
      combined
    have hlength (x : UInt8) : (out ++ [x]).length = out.length + 1 := length_append
    split at hsize
    next hr =>
      rw [put_eq (by omega), done_bind, if_neg (by rw [hlength]; omega), done_bind, if_neg (by rw [hlength]; omega),
        if_pos hr]
      rfl
    next hr =>
      split at hsize
      next ht =>
        rw [put_eq (by omega), done_bind, if_pos (by rw [hlength]; omega), put_eq (by rw [hlength]; omega), done_bind,
          if_neg (by rw [length_append, hlength, length_singleton]; omega), if_neg hr, if_pos ht,
          append_assoc]
        rfl
      next ht =>
        rw [put_eq (by omega), done_bind, if_pos (by rw [hlength]; omega), put_eq (by rw [hlength]; omega), done_bind,
          if_pos (by rw [length_append, hlength, length_singleton]; omega),
          put_eq (by rw [length_append, hlength, length_singleton]; omega), if_neg hr, if_neg ht,
          append_assoc, append_assoc]
        rfl
  · intro hnot
    obtain ⟨message, hmessage⟩ := hbad hnot
    exact ⟨message, by rw [hmessage]; rfl⟩

/-- A text of four characters and more is read if it fits, and rejected otherwise. -/
theorem fromBase64_spec {p q r t : UInt8} (hstr : str = body ++ [p, q, r, t])
    (hlength : body.length = 4 * n) :
    ((∀ x ∈ body, x ∈ base64Map) ∧ LastFits p q r t →
      fromBase64 str = .done (decodeBody body ++ decodeLast p q r t)) ∧
    (¬ ((∀ x ∈ body, x ∈ base64Map) ∧ LastFits p q r t) → ∃ message, fromBase64 str = .error message) := by
  have hlen : str.length = 4 * n + 4 := by rw [hstr, length_append, hlength]; rfl
  have hrest : str.drop (4 * n) = [p, q, r, t] := by rw [hstr, ← hlength, drop_left]
  obtain ⟨hok, herror⟩ := @fromBase64Loop_spec str
    (3 * n + if r = base64Padding then 1 else if t = base64Padding then 2 else 3) p q r t (str.length + 1) n 0 body []
    hstr hlength (by omega)
    (by rw [length_nil]; omega)
  rw [fromBase64, fromBase64Size_eq hstr hlength, done_bind, if_neg (by omega)]
  by_cases hall : ∀ x ∈ body, x ∈ base64Map
  · obtain ⟨hloop, hbody⟩ := hok hall
    rw [hloop, done_bind, Nat.zero_add, nil_append]
    dsimp only
    obtain ⟨hgood, hbad⟩ := @fromBase64Rest_spec str (decodeBody body) _ _ _ _ _ _ hrest (by rw [hbody])
    constructor
    · rintro ⟨-, hlast⟩
      rw [hgood hlast, done_bind, filled_eq]
      rw [length_append, hbody, decodeLast, length_take, quantum]
      simp only [length_cons, length_nil]
      split
      next => rfl
      next => split <;> rfl
    · intro hnot
      obtain ⟨message, hmessage⟩ := hbad fun hlast => hnot ⟨hall, hlast⟩
      exact ⟨message, by rw [hmessage]; rfl⟩
  · obtain ⟨message, hmessage⟩ := herror hall
    exact ⟨fun h => absurd h.1 hall, fun _ => ⟨message, by rw [hmessage]; rfl⟩⟩

/-! ## The texts that are read -/

/-- The texts of base64: characters of the alphabet and at most two paddings at the end. -/
def WellFormed (str : List UInt8) : Prop :=
  str.length % 4 = 0 ∧ ∃ body padding, str = body ++ List.replicate padding base64Padding ∧ padding ≤ 2 ∧
    ∀ x ∈ body, x ∈ base64Map

/-- A text with padding in front of its last character, and nowhere else. -/
def PaddingBeforeLast (str : List UInt8) : Prop :=
  str.length % 4 = 0 ∧ ∃ body c, str = body ++ [base64Padding, c] ∧ c ∈ base64Map ∧ ∀ x ∈ body, x ∈ base64Map

theorem exists_last_four (hlength : str.length % 4 = 0) (hne : str ≠ []) :
    ∃ body p q r t n, str = body ++ [p, q, r, t] ∧ body.length = 4 * n := by
  have hpos := length_pos_iff.2 hne
  obtain ⟨n, hn⟩ : ∃ n, str.length = 4 * n + 4 := ⟨str.length / 4 - 1, by omega⟩
  have hdrop : (str.drop (4 * n)).length = 4 := by rw [length_drop, hn]; omega
  match hlast : str.drop (4 * n), hdrop with
  | [p, q, r, t], _ =>
    exact ⟨str.take (4 * n), p, q, r, t, n, by rw [← hlast, take_append_drop], by rw [length_take]; omega⟩

theorem fits_iff {p q r t : UInt8} (hlength : body.length = 4 * n) :
    (∀ x ∈ body, x ∈ base64Map) ∧ LastFits p q r t ↔
      WellFormed (body ++ [p, q, r, t]) ∨ PaddingBeforeLast (body ++ [p, q, r, t]) := by
  have hmod : (body ++ [p, q, r, t]).length % 4 = 0 := by
    rw [length_append]
    simp only [length_cons, length_nil]
    omega
  have hthree (x y : UInt8) : body ++ [p, q, x, y] = body ++ [p, q] ++ [x, y] := by rw [append_assoc]; rfl
  have hfour (x : UInt8) : body ++ [p, q, r, x] = body ++ [p, q, r] ++ [x] := by rw [append_assoc]; rfl
  have hmem (l : List UInt8) (hbody : ∀ x ∈ body, x ∈ base64Map) (hl : ∀ x ∈ l, x ∈ base64Map) :
      ∀ x ∈ body ++ l, x ∈ base64Map := fun x hx => (mem_append.1 hx).elim (hbody x) (hl x)
  constructor
  · rintro ⟨hbody, hp, hq, hr, ht⟩
    rcases ht with rfl | ht
    · rcases hr with rfl | hr
      · exact .inl ⟨hmod, body ++ [p, q], 2, hthree _ _, Nat.le_refl _, hmem _ hbody (by simp [hp, hq])⟩
      · exact .inl ⟨hmod, body ++ [p, q, r], 1, hfour _, by decide, hmem _ hbody (by simp [hp, hq, hr])⟩
    · rcases hr with rfl | hr
      · exact .inr ⟨hmod, body ++ [p, q], t, hthree _ _, ht, hmem _ hbody (by simp [hp, hq])⟩
      · exact .inl ⟨hmod, body ++ [p, q, r, t], 0, by simp, by decide, hmem _ hbody (by simp [hp, hq, hr, ht])⟩
  · have hlast : ∀ {l : List UInt8} {x y : UInt8}, body ++ [p, q, r, t] = l ++ [x, y] →
        l = body ++ [p, q] ∧ r = x ∧ t = y := by
      intro l x y h
      rw [hthree] at h
      obtain ⟨hl, hxy⟩ := append_inj' h rfl
      simp only [cons.injEq, and_true] at hxy
      exact ⟨hl.symm, hxy⟩
    rintro (⟨-, l, padding, hl, hle, hall⟩ | ⟨-, l, c, hl, hc, hall⟩)
    · match padding, hle with
      | 0, _ =>
        rw [replicate_zero, append_nil] at hl
        obtain rfl := hl
        exact ⟨fun x hx => hall x (by simp [hx]), hall p (by simp), hall q (by simp), .inr (hall r (by simp)),
          .inr (hall t (by simp))⟩
      | 1, _ =>
        rw [hfour] at hl
        obtain ⟨rfl, ht⟩ := append_inj' hl rfl
        simp only [replicate_one, cons.injEq, and_true] at ht
        exact ⟨fun x hx => hall x (by simp [hx]), hall p (by simp), hall q (by simp), .inr (hall r (by simp)), .inl ht⟩
      | 2, _ =>
        obtain ⟨rfl, hr, ht⟩ := hlast (by simpa using hl)
        exact ⟨fun x hx => hall x (by simp [hx]), hall p (by simp), hall q (by simp), .inl hr, .inl ht⟩
    · obtain ⟨rfl, hr, ht⟩ := hlast hl
      exact ⟨fun x hx => hall x (by simp [hx]), hall p (by simp), hall q (by simp), .inl hr, .inr (ht ▸ hc)⟩

theorem not_wellFormed (h : PaddingBeforeLast str) : ¬ WellFormed str := by
  obtain ⟨-, body, c, rfl, hc, -⟩ := h
  rintro ⟨-, l, padding, hl, -, hdigits⟩
  cases padding with
  | zero =>
    rw [replicate_zero, append_nil] at hl
    exact padding_not_mem (hdigits _ (by simp [← hl]))
  | succ padding =>
    -- the last character would be padding
    rw [replicate_succ', ← append_assoc, show [base64Padding, c] = [base64Padding] ++ [c] from rfl,
      ← append_assoc] at hl
    obtain ⟨-, hlast⟩ := append_inj' hl rfl
    rw [cons.injEq] at hlast
    exact padding_not_mem (hlast.1 ▸ hc)

theorem fromBase64_accepts_iff (str : List UInt8) :
    (∃ blob, fromBase64 str = .done blob) ↔ WellFormed str ∨ PaddingBeforeLast str := by
  by_cases hlength : str.length % 4 = 0
  · by_cases hne : str = []
    · obtain rfl := hne
      exact iff_of_true ⟨[], rfl⟩ (.inl ⟨rfl, [], 0, rfl, by decide, by simp⟩)
    · obtain ⟨body, p, q, r, t, n, rfl, hbody⟩ := exists_last_four hlength hne
      rw [← fits_iff hbody]
      obtain ⟨hok, herror⟩ := fromBase64_spec rfl hbody
      constructor
      · rintro ⟨blob, hblob⟩
        by_contra hnot
        obtain ⟨message, hmessage⟩ := herror hnot
        rw [hmessage] at hblob
        cases hblob
      · exact fun h => ⟨_, hok h⟩
  · refine iff_of_false ?_ (fun h => hlength (h.elim And.left And.left))
    rintro ⟨blob, hblob⟩
    rw [fromBase64, fromBase64Size, if_pos hlength] at hblob
    cases hblob

theorem fromBase64_safe (str : List UInt8) : (fromBase64 str).Safe := by
  by_cases hlength : str.length % 4 = 0
  · by_cases hne : str = []
    · obtain rfl := hne
      exact trivial
    · obtain ⟨body, p, q, r, t, n, rfl, hbody⟩ := exists_last_four hlength hne
      obtain ⟨hok, herror⟩ := fromBase64_spec rfl hbody
      by_cases hfits : (∀ x ∈ body, x ∈ base64Map) ∧ LastFits p q r t
      · rw [hok hfits]
        trivial
      · obtain ⟨message, hmessage⟩ := herror hfits
        rw [hmessage]
        trivial
  · rw [fromBase64, fromBase64Size, if_pos hlength]
    trivial

theorem toBlob_safe (str : List UInt8) : (toBlob str).Safe := by
  have h := toBlob_spec str
  cases hbytes : bytes str with
  | none =>
    rw [hbytes] at h
    obtain ⟨-, message, hmessage⟩ := h
    rw [hmessage]
    trivial
  | some blob =>
    rw [hbytes] at h
    rw [h.2]
    trivial

theorem fromBase64_encode (blob : List UInt8) : fromBase64 (encode blob) = .done blob := by
  by_cases hne : blob = []
  · obtain rfl := hne
    rfl
  · obtain ⟨body, p, q, r, t, n, hencode, hlength, hbody, hlast, hdecode⟩ := encode_stands hne
    rw [(fromBase64_spec hencode hlength).1 ⟨hbody, hlast⟩, hdecode]

/-! ## Exactness -/

/-- The text encodings of a BLOB, and the texts that are read. -/
structure EncodingsExact (blob str : List UInt8) : Prop where
  toString : ∃ text, Blob.toString blob = .done text ∧ getStringSize blob = .done text.length ∧
    tryGetBlobSize text = .done (.ok blob.length) ∧ toBlob text = .done blob
  toBase64 : ∃ text, Blob.toBase64 blob = .done text ∧ text.length = toBase64Size blob ∧ fromBase64 text = .done blob
  safe : (toBlob str).Safe ∧ (fromBase64 str).Safe
  accepts : (∃ blob, fromBase64 str = .done blob) ↔ WellFormed str

/-- The encodings are exact but for the texts with padding before the last character, which are accepted. -/
theorem encodings_exact_iff (blob str : List UInt8) : EncodingsExact blob str ↔ ¬ PaddingBeforeLast str := by
  constructor
  · exact fun h hpadding => not_wellFormed hpadding (h.accepts.1 ((fromBase64_accepts_iff str).2 (.inr hpadding)))
  · intro hnot
    have htext := toBlob_spec (text blob)
    rw [bytes_text] at htext
    exact ⟨⟨text blob, toString_eq blob, getStringSize_eq blob, htext⟩,
      ⟨encode blob, toBase64_eq blob, length_encode blob, fromBase64_encode blob⟩, ⟨toBlob_safe str, fromBase64_safe str⟩,
      (fromBase64_accepts_iff str).trans (or_iff_left hnot)⟩

/-- Padding stands before the last character. -/
theorem fromBase64_padding_before_last :
    fromBase64 [65, 65, 61, 65] = .done [0] ∧ ¬ EncodingsExact [] [65, 65, 61, 65] := by
  refine ⟨rfl, fun h => ?_⟩
  rw [encodings_exact_iff] at h
  have hmem : 65 ∈ base64Map := by decide
  exact h ⟨rfl, [65, 65], 65, rfl, hmem, List.forall_mem_cons.2 ⟨hmem, List.forall_mem_singleton.2 hmem⟩⟩

end Haybarn.Text.Blob
