/-
The buffer of a page and what the decoders do with it: a cursor into the bytes of the page with the number of bytes that
are left, checked and unchecked reads, and variable-length integers. A buffer stands inside the page as long as the bytes
that it says are left are bytes of the page, and an operation that checks keeps it there.
-/
import Haybarn.Lib.Outcome
import Mathlib.Tactic.Basic
import Mathlib.Algebra.Group.Nat.Defs

namespace Haybarn.Parquet

open Lib Outcome

/-! ## Memory -/

/-- `a - b` on `uint64_t`. -/
def sub64 (a b : Nat) : Nat := (a + 2 ^ 64 - b % 2 ^ 64) % 2 ^ 64

theorem sub64_of_le {a b : Nat} (ha : a < 2 ^ 64) (h : b ≤ a) : sub64 a b = a - b := by
  unfold sub64
  rw [Nat.mod_eq_of_lt (show b < 2 ^ 64 by omega)]
  omega

theorem sub64_lt (a b : Nat) : sub64 a b < 2 ^ 64 := Nat.mod_lt _ (by decide)

section Cells

variable {α : Type}

/-- The `n` cells from the index `i` on. Reading no cell touches nothing. -/
def loadRange (cells : List α) (i n : Nat) : Outcome (List α) :=
  if n = 0 ∨ i + n ≤ cells.length then done ((cells.drop i).take n) else fault

/-- The cells with the values written from the index `i` on. -/
def storeRange (cells : List α) (i : Nat) (values : List α) : Outcome (List α) :=
  if values = [] then done cells
  else if i + values.length ≤ cells.length then
    done (cells.take i ++ values ++ cells.drop (i + values.length))
  else fault

/-- `cells[i] = value`. -/
def store (cells : List α) (i : Nat) (value : α) : Outcome (List α) :=
  if i < cells.length then done (cells.set i value) else fault

variable {cells values : List α} {i n : Nat}

theorem ensures_loadRange (h : i + n ≤ cells.length) : (loadRange cells i n).Ensures fun vs => vs.length = n := by
  unfold loadRange
  rw [if_pos (.inr h)]
  simp
  omega

theorem ensures_storeRange (h : i + values.length ≤ cells.length) :
    (storeRange cells i values).Ensures fun cells' => cells'.length = cells.length := by
  unfold storeRange
  by_cases hv : values = []
  · simp [hv]
  · rw [if_neg hv, if_pos h]
    simp
    omega

theorem ensures_store {value : α} (h : i < cells.length) :
    (store cells i value).Ensures fun cells' => cells'.length = cells.length := by
  unfold store
  rw [if_pos h]
  simp

/-- The values are in the cells from the index `i` on, and the other cells are as they were. -/
structure Put (cells : List α) (i : Nat) (values cells' : List α) : Prop where
  le : i + values.length ≤ cells.length
  eq : cells' = cells.take i ++ values ++ cells.drop (i + values.length)

variable {values' cells' cells'' : List α}

theorem Put.length (h : Put cells i values cells') : cells'.length = cells.length := by
  have := h.le
  rw [h.eq]
  simp
  omega

theorem Put.take (h : Put cells i values cells') : cells'.take (i + values.length) = cells.take i ++ values := by
  have := h.le
  rw [h.eq, List.take_left']
  simp
  omega

theorem Put.nil (h : i ≤ cells.length) : Put cells i [] cells := ⟨h, by simp⟩

theorem Put.trans (h : Put cells i values cells') (h' : Put cells' (i + values.length) values' cells'') :
    Put cells i (values ++ values') cells'' := by
  have hle := h.le
  have hle' := h'.le
  have hlength := h.length
  refine ⟨by rw [List.length_append]; omega, ?_⟩
  have hdrop : cells'.drop (i + values.length + values'.length) = cells.drop (i + values.length + values'.length) := by
    rw [h.eq, List.append_assoc, ← List.append_assoc, List.drop_append, List.drop_eq_nil_of_le (by simp; omega),
      List.nil_append, List.drop_drop]
    congr 1
    simp
    omega
  rw [h'.eq, h.take, hdrop, List.length_append, List.append_assoc (List.take i cells), Nat.add_assoc]

theorem returns_storeRange (h : i + values.length ≤ cells.length) :
    (storeRange cells i values).Returns (Put cells i values) := by
  unfold storeRange
  by_cases hv : values = []
  · subst hv
    exact returns_done (Put.nil h)
  · rw [if_neg hv, if_pos h]
    exact returns_done ⟨h, rfl⟩

end Cells

/-- The bytes of a page and the address they stand at. -/
structure Page where
  address : Nat
  bytes : List UInt8

/-! ## Buffers -/

/-- `ByteBuffer`: the cursor, as an offset into the page, and the number of bytes that are left. -/
structure ByteBuffer where
  ptr : Nat
  len : Nat
  deriving DecidableEq

/-- The value of bytes, the low one first. -/
def littleEndian : List UInt8 → Nat
  | [] => 0
  | byte :: bytes => byte.toNat + 256 * littleEndian bytes

namespace ByteBuffer

def unsafeInc (b : ByteBuffer) (increment : Nat) : ByteBuffer := ⟨b.ptr + increment, sub64 b.len increment⟩

def checkAvailable (b : ByteBuffer) (reqLen : Nat) : Bool := decide (reqLen ≤ b.len)

def available (b : ByteBuffer) (reqLen : Nat) : Outcome Unit :=
  if b.checkAvailable reqLen then done () else error "Out of buffer"

def unsafeGet (page : Page) (b : ByteBuffer) : Outcome UInt8 :=
  match page.bytes[b.ptr]? with
  | some byte => done byte
  | none => fault

def unsafeRead (page : Page) (b : ByteBuffer) : Outcome (UInt8 × ByteBuffer) := do
  let val ← b.unsafeGet page
  done (val, b.unsafeInc 1)

def read (page : Page) (b : ByteBuffer) : Outcome (UInt8 × ByteBuffer) := do
  b.available 1
  b.unsafeRead page

/-- The read of a decoder that checks, or of one that does not. -/
def readByte (page : Page) (checked : Bool) (b : ByteBuffer) : Outcome (UInt8 × ByteBuffer) :=
  if checked then b.read page else b.unsafeRead page

/-- The bytes that the buffer says are left are bytes of the page. -/
structure Inside (page : Page) (b : ByteBuffer) : Prop where
  fits : b.ptr + b.len ≤ page.bytes.length
  len_lt : b.len < 2 ^ 64

variable {page : Page} {b : ByteBuffer} {n : Nat}

theorem ensures_available (b : ByteBuffer) (n : Nat) : (b.available n).Ensures fun _ => n ≤ b.len := by
  unfold available checkAvailable
  by_cases h : n ≤ b.len
  · simp [h]
  · simp [h]

@[simp] theorem unsafeInc_ptr (b : ByteBuffer) (n : Nat) : (b.unsafeInc n).ptr = b.ptr + n := rfl

theorem unsafeInc_len (hb : b.Inside page) (h : n ≤ b.len) : (b.unsafeInc n).len = b.len - n :=
  sub64_of_le hb.len_lt h

theorem Inside.unsafeInc (hb : b.Inside page) (h : n ≤ b.len) : (b.unsafeInc n).Inside page := by
  have hfits := hb.fits
  have hlen := hb.len_lt
  constructor
  · rw [unsafeInc_len hb h, unsafeInc_ptr]
    omega
  · rw [unsafeInc_len hb h]
    omega

/-- What an operation that moves the cursor by `n` bytes leaves. -/
structure Moved (page : Page) (n : Nat) (b b' : ByteBuffer) : Prop where
  inside : b'.Inside page
  ptr : b'.ptr = b.ptr + n
  len : b'.len + n = b.len

theorem Inside.moved (hb : b.Inside page) (h : n ≤ b.len) : Moved page n b (b.unsafeInc n) :=
  ⟨hb.unsafeInc h, rfl, by rw [unsafeInc_len hb h]; omega⟩

theorem ensures_unsafeGet (hb : b.Inside page) (h : 0 < b.len) : (b.unsafeGet page).Safe := by
  have hfits := hb.fits
  have hlt : b.ptr < page.bytes.length := by omega
  unfold unsafeGet
  rw [List.getElem?_eq_getElem hlt]
  trivial

theorem ensures_unsafeRead (hb : b.Inside page) (h : 0 < b.len) :
    (b.unsafeRead page).Ensures fun r => Moved page 1 b r.2 :=
  (ensures_unsafeGet hb h).bind fun _ _ => hb.moved h

theorem ensures_read (hb : b.Inside page) : (b.read page).Ensures fun r => Moved page 1 b r.2 :=
  (ensures_available b 1).bind fun _ h => ensures_unsafeRead hb h

theorem ensures_readByte (hb : b.Inside page) {checked : Bool} (h : checked = false → 0 < b.len) :
    (b.readByte page checked).Ensures fun r => Moved page 1 b r.2 := by
  cases checked with
  | true => exact ensures_read hb
  | false => exact ensures_unsafeRead hb (h rfl)

theorem ensures_load (hb : b.Inside page) (h : n ≤ b.len) :
    (loadRange page.bytes b.ptr n).Ensures fun bytes => bytes.length = n := by
  have hfits := hb.fits
  exact ensures_loadRange (by omega)

end ByteBuffer

/-! ## Variable-length integers -/

open ByteBuffer

/-- The loop of `VarintDecode<T, CHECKED>`, for a `T` of that many bits, with the turns it may take. -/
def varintDecodeLoop (page : Page) (bits : Nat) (checked : Bool) :
    Nat → Nat → Nat → ByteBuffer → Outcome (Nat × ByteBuffer)
  | 0, _, _, _ => hang
  | turns + 1, result, shift, buf => do
    let (byte, buf) ← buf.readByte page checked
    let result := result ||| (byte.toNat % 128) <<< shift % 2 ^ bits
    if byte.toNat < 128 then done (result, buf)
    else
      let shift := (shift + 7) % 256
      if shift > bits then error "Varint-decoding found too large number"
      else varintDecodeLoop page bits checked turns result shift buf

def varintDecode (page : Page) (bits : Nat) (checked : Bool) (buf : ByteBuffer) : Outcome (Nat × ByteBuffer) :=
  varintDecodeLoop page bits checked bits 0 0 buf

theorem ensures_varintDecodeLoop {page : Page} {bits : Nat} (hbits : bits ≤ 64) {checked : Bool} :
    ∀ {turns result k : Nat} {b : ByteBuffer}, b.Inside page → result < 2 ^ bits → bits < 7 * (k + turns) →
      7 * k ≤ bits → (checked = false → ∀ j, 7 * (k + j) ≤ bits → j < b.len) →
      (varintDecodeLoop page bits checked turns result (7 * k) b).Ensures fun r =>
        r.1 < 2 ^ bits ∧ ∃ n, 0 < n ∧ 7 * (k + n) ≤ bits + 7 ∧ Moved page n b r.2
  | 0, _, _, _, _, _, hturns, hk, _ => absurd hturns (by omega)
  | turns + 1, result, k, b, hb, hresult, hturns, hk, hlen => by
    unfold varintDecodeLoop
    refine (ensures_readByte hb fun hc => hlen hc 0 (by omega)).bind ?_
    rintro ⟨byte, b'⟩ (hmoved : Moved page 1 b b')
    have hptr := hmoved.ptr
    have hlen' := hmoved.len
    have hresult' : result ||| (byte.toNat % 128) <<< (7 * k) % 2 ^ bits < 2 ^ bits :=
      Nat.or_lt_two_pow hresult (Nat.mod_lt _ (Nat.two_pow_pos bits))
    dsimp only
    split
    · exact ⟨hresult', 1, by omega, by omega, hmoved⟩
    rw [show (7 * k + 7) % 256 = 7 * (k + 1) by omega]
    split
    · trivial
    · refine (ensures_varintDecodeLoop hbits hmoved.inside hresult' (by omega) (by omega) fun hc j hj => ?_).mono ?_
      · have := hlen hc (j + 1) (by omega)
        omega
      · rintro ⟨v, b''⟩ ⟨hv, n, hn, hle, h⟩
        have hptr' := h.ptr
        have hlen'' := h.len
        exact ⟨hv, n + 1, by omega, by omega, h.inside, by omega, by omega⟩

theorem ensures_varintDecode {page : Page} {bits : Nat} (hbits : bits ≤ 64) (hpos : 2 ≤ bits) {b : ByteBuffer}
    (hb : b.Inside page) :
    (varintDecode page bits true b).Ensures fun r => r.1 < 2 ^ bits ∧ ∃ n, 0 < n ∧ Moved page n b r.2 := by
  refine (ensures_varintDecodeLoop hbits (k := 0) hb (Nat.two_pow_pos bits) (by omega) (by omega) (by simp)).mono ?_
  rintro r ⟨hr, n, hn, -, h⟩
  exact ⟨hr, n, hn, h⟩

end Haybarn.Parquet
