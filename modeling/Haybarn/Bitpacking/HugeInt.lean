/-
Packing 32 values of 128 bits into words of 32 bits, as many words as the width has bits. A value is spread over up to five
words: the first is shared with the value before, and what is written behind it overwrites. The words that are written and
read are noted on the way.
-/
import Mathlib.Data.BitVec
import Mathlib.Logic.Function.Basic

namespace Haybarn.Bitpacking.HugeInt

/-- `uhugeint_t`. -/
abbrev Uhugeint := BitVec 128

/-- `BITPACKING_ALGORITHM_GROUP_SIZE`. -/
def groupSize : Nat := 32

/-- `static_cast<uint32_t>`. -/
def low (value : Uhugeint) : BitVec 32 := value.setWidth 32

/-- `static_cast<uhugeint_t>`. -/
def wide (word : BitVec 32) : Uhugeint := word.setWidth 128

/-! ## Buffers -/

/-- The buffer that is written, with the position of `out` in it. -/
structure Output where
  words : Nat → BitVec 32
  out : Nat
  written : List Nat

namespace Output

/-- `out[k] = word`. -/
def store (o : Output) (k : Nat) (word : BitVec 32) : Output :=
  { o with words := Function.update o.words (o.out + k) word, written := o.written ++ [o.out + k] }

/-- `out[k] |= word`. -/
def merge (o : Output) (k : Nat) (word : BitVec 32) : Output := o.store k (o.words (o.out + k) ||| word)

/-- `out += k`. -/
def advance (o : Output) (k : Nat) : Output := { o with out := o.out + k }

end Output

/-- The buffer that is read, with the position of `in` in it. -/
structure Input where
  words : Nat → BitVec 32
  pos : Nat
  read : List Nat

namespace Input

/-- `in[k]`. -/
def get (i : Input) (k : Nat) : BitVec 32 × Input := (i.words (i.pos + k), { i with read := i.read ++ [i.pos + k] })

/-- `in += k`. -/
def advance (i : Input) (k : Nat) : Input := { i with pos := i.pos + k }

end Input

/-! ## Unpacking -/

/-- The bits of the word below the shift. -/
def lowBits (word : BitVec 32) (shr : Nat) : BitVec 32 := word % (1#32 <<< shr)

def unpackSingle (i : Input) (delta shr : Nat) : Uhugeint × Input :=
  if delta + shr < 32 then
    let (word, i) := i.get 0
    ((wide word >>> shr) % (1#128 <<< delta), i)
  else if delta + shr < 64 then
    let (word, i) := i.get 0
    let out := wide word >>> shr
    let i := i.advance 1
    if delta + shr > 32 then
      let (word, i) := i.get 0
      (out ||| wide (lowBits word (shr + delta - 32)) <<< (32 - shr), i)
    else (out, i)
  else if delta + shr < 96 then
    let (word, i) := i.get 0
    let out := wide word >>> shr
    let (word, i) := i.get 1
    let out := out ||| wide word <<< (32 - shr)
    let i := i.advance 2
    if delta + shr > 64 then
      let (word, i) := i.get 0
      (out ||| wide (lowBits word (delta + shr - 64)) <<< (64 - shr), i)
    else (out, i)
  else if delta + shr < 128 then
    let (word, i) := i.get 0
    let out := wide word >>> shr
    let (word, i) := i.get 1
    let out := out ||| wide word <<< (32 - shr)
    let (word, i) := i.get 2
    let out := out ||| wide word <<< (64 - shr)
    let i := i.advance 3
    if delta + shr > 96 then
      let (word, i) := i.get 0
      (out ||| wide (lowBits word (delta + shr - 96)) <<< (96 - shr), i)
    else (out, i)
  else
    let (word, i) := i.get 0
    let out := wide word >>> shr
    let (word, i) := i.get 1
    let out := out ||| wide word <<< (32 - shr)
    let (word, i) := i.get 2
    let out := out ||| wide word <<< (64 - shr)
    let (word, i) := i.get 3
    let out := out ||| wide word <<< (96 - shr)
    let i := i.advance 4
    if delta + shr > 128 then
      let (word, i) := i.get 0
      (out ||| wide (lowBits word (delta + shr - 128)) <<< (128 - shr), i)
    else (out, i)

/-- The word `k` of the last value, where the width reaches it. -/
def unpackLastWord (delta shift k : Nat) (r : Uhugeint × Input) : Uhugeint × Input :=
  if delta > 32 * k then
    let (word, i) := r.2.get k
    (r.1 ||| wide word <<< (32 * k - shift), i)
  else r

def unpackLast (i : Input) (delta : Nat) : Uhugeint × Input :=
  let shift := delta * 31 % 32
  let (word, i) := i.get 0
  let r := (wide (word >>> shift), i)
  let r := unpackLastWord delta shift 1 r
  let r := unpackLastWord delta shift 2 r
  unpackLastWord delta shift 3 r

/-- The loop of `Unpack`, for the first values. -/
def unpackSingles (width : Nat) : Nat → Input → List Uhugeint × Input
  | 0, i => ([], i)
  | n + 1, i =>
    let (out, i) := unpackSingles width n i
    let (value, i) := unpackSingle i width (width * n % groupSize)
    (out ++ [value], i)

/-- The words of a value that starts with a word: `count` of them. -/
def unpackWords (offset : Nat) : Nat → Input → Uhugeint × Input
  | 0, i => (0, i)
  | k + 1, i =>
    let (out, i) := unpackWords offset k i
    let (word, i) := i.get (offset + k)
    (out ||| wide word <<< (32 * k), i)

/-- The loop over the first values, each of `count` words. -/
def unpackAligned (count : Nat) : Nat → Input → List Uhugeint × Input
  | 0, i => ([], i)
  | n + 1, i =>
    let (out, i) := unpackAligned count n i
    let (value, i) := unpackWords (n * count) count i
    (out ++ [value], i)

def unpackDelta0 (i : Input) : List Uhugeint × Input := (List.replicate 32 0, i)

def unpackDelta32 : Input → List Uhugeint × Input := unpackAligned 1 32

def unpackDelta64 : Input → List Uhugeint × Input := unpackAligned 2 32

def unpackDelta96 : Input → List Uhugeint × Input := unpackAligned 3 32

def unpackDelta128 : Input → List Uhugeint × Input := unpackAligned 4 32

def unpack (words : Nat → BitVec 32) (width : Nat) : List Uhugeint × Input :=
  let i : Input := ⟨words, 0, []⟩
  match width with
  | 0 => unpackDelta0 i
  | 32 => unpackDelta32 i
  | 64 => unpackDelta64 i
  | 96 => unpackDelta96 i
  | 128 => unpackDelta128 i
  | width =>
    let (out, i) := unpackSingles width (groupSize - 1) i
    let (value, i) := unpackLast i width
    (out ++ [value], i)

/-! ## Packing -/

/-- The first word of a value: it is the first to write the word, or merges into it. -/
def packFirst (o : Output) (shl : Nat) (aligned shifted : BitVec 32) : Output :=
  if shl = 0 then o.store 0 aligned else o.merge 0 shifted

def packSingle (value : Uhugeint) (o : Output) (delta shl : Nat) (mask : Uhugeint) : Output :=
  if delta + shl < 32 then packFirst o shl (low (value &&& mask)) (low ((value &&& mask) <<< shl))
  else if delta + shl < 64 then
    let o := packFirst o shl (low (value &&& mask)) (low ((value &&& mask) <<< shl))
    let o := o.advance 1
    if delta + shl > 32 then o.store 0 (low ((value &&& mask) >>> (32 - shl))) else o
  else if delta + shl < 96 then
    let o := packFirst o shl (low (value &&& mask)) (low (value <<< shl))
    let o := o.store 1 (low ((value &&& mask) >>> (32 - shl)))
    let o := o.advance 2
    if delta + shl > 64 then o.store 0 (low ((value &&& mask) >>> (64 - shl))) else o
  else if delta + shl < 128 then
    let o := packFirst o shl (low (value &&& mask)) (low (value <<< shl))
    let o := o.store 1 (low ((value &&& mask) >>> (32 - shl)))
    let o := o.store 2 (low ((value &&& mask) >>> (64 - shl)))
    let o := o.advance 3
    if delta + shl > 96 then o.store 0 (low ((value &&& mask) >>> (96 - shl))) else o
  else
    let o := o.merge 0 (low (value <<< shl))
    let o := o.store 1 (low ((value &&& mask) >>> (32 - shl)))
    let o := o.store 2 (low ((value &&& mask) >>> (64 - shl)))
    let o := o.store 3 (low ((value &&& mask) >>> (96 - shl)))
    let o := o.advance 4
    if delta + shl > 128 then o.store 0 (low ((value &&& mask) >>> (128 - shl))) else o

/-- The word `k` of the last value, where the width reaches it. -/
def packLastWord (value : Uhugeint) (delta shift k : Nat) (o : Output) : Output :=
  if delta > 32 * k then o.store k (low (value >>> (32 * k - shift))) else o

def packLast (value : Uhugeint) (o : Output) (delta : Nat) : Output :=
  let shift := delta * 31 % 32
  let o := o.merge 0 (low (value <<< shift))
  let o := packLastWord value delta shift 1 o
  let o := packLastWord value delta shift 2 o
  packLastWord value delta shift 3 o

/-- The loop of `Pack`, for the first values. -/
def packSingles (values : Nat → Uhugeint) (width : Nat) : Nat → Output → Output
  | 0, o => o
  | n + 1, o => packSingle (values n) (packSingles values width n o) width (width * n % groupSize) (1#128 <<< width - 1)

/-- The words of a value that starts with a word: `count` of them. -/
def packWords (value : Uhugeint) (offset : Nat) : Nat → Output → Output
  | 0, o => o
  | k + 1, o => (packWords value offset k o).store (offset + k) (low (value >>> (32 * k)))

/-- The loop over the first values, each of `count` words. -/
def packAligned (values : Nat → Uhugeint) (count : Nat) : Nat → Output → Output
  | 0, o => o
  | n + 1, o => packWords (values n) (n * count) count (packAligned values count n o)

def packDelta32 (values : Nat → Uhugeint) : Output → Output := packAligned values 1 32

def packDelta64 (values : Nat → Uhugeint) : Output → Output := packAligned values 2 32

def packDelta96 (values : Nat → Uhugeint) : Output → Output := packAligned values 3 32

def packDelta128 (values : Nat → Uhugeint) : Output → Output := packAligned values 4 32

def pack (values : Nat → Uhugeint) (words : Nat → BitVec 32) (width : Nat) : Output :=
  let o : Output := ⟨words, 0, []⟩
  match width with
  | 0 => o
  | 32 => packDelta32 values o
  | 64 => packDelta64 values o
  | 96 => packDelta96 values o
  | 128 => packDelta128 values o
  | width => packLast (values (groupSize - 1)) (packSingles values width (groupSize - 1) o) width

end Haybarn.Bitpacking.HugeInt
