/-
The keys of the ART index: the model of `ARTKey` and of the key generation in `art.cpp`. Values are encoded such
that the keys compare like the rows, and no key is a prefix of another one.
-/
import Haybarn.Common.Radix

namespace Haybarn.Art

open Common Lib

/-! ## Keys -/

/-- An `ARTKey`: its bytes. -/
abbrev ARTKey := Bytes

/-- `CreateARTKey<string_t>`: `0` and `1` are escaped with `1`, and `0` ends the key. -/
def createStringKey (value : Bytes) : ARTKey := value.flatMap escapeByte ++ [0]

/-- `operator>`: the first bytes that differ decide, or else the lengths. -/
def ARTKey.greater : ARTKey → ARTKey → Bool
  | x :: xs, y :: ys => if y < x then true else if x < y then false else ARTKey.greater xs ys
  | xs, ys => ys.length < xs.length

/-- `operator>=`. -/
def ARTKey.greaterEqual : ARTKey → ARTKey → Bool
  | x :: xs, y :: ys => if y < x then true else if x < y then false else ARTKey.greaterEqual xs ys
  | xs, ys => ys.length ≤ xs.length

def ARTKey.concat (key other : ARTKey) : ARTKey := key ++ other

/-! ## Columns -/

/-- The physical types of the columns of an index, without the floating-point types. -/
inductive PhysicalType where
  | fixed (t : FixedType)
  | varchar
deriving DecidableEq, Repr

@[reducible] def PhysicalType.Value : PhysicalType → Type
  | .fixed t => t.Value
  | .varchar => Bytes

def createARTKey : (t : PhysicalType) → t.Value → ARTKey
  | .fixed t, value => encodeData t value
  | .varchar, value => createStringKey value

/-- The columns of a chunk. -/
@[reducible] def Columns : List PhysicalType → Type
  | [] => Unit
  | t :: ts => UnifiedVectorFormat t.Value × Columns ts

def templatedGenerateKeys (isNotNull : Bool) {t : PhysicalType} (input : UnifiedVectorFormat t.Value) (count : Nat) : List ARTKey :=
  (List.range count).map fun i =>
    let idx := input.sel i
    if isNotNull || input.validity idx then createARTKey t (input.data idx) else []

/-- `ConcatenateKeys`. An empty key stands for a `NULL` in an earlier column. -/
def concatenateKeys (isNotNull : Bool) {t : PhysicalType} (input : UnifiedVectorFormat t.Value) (keys : List ARTKey) : List ARTKey :=
  keys.mapIdx fun i key =>
    let idx := input.sel i
    if isNotNull then key.concat (createARTKey t (input.data idx))
    else if key.isEmpty then key
    else if !input.validity idx then []
    else key.concat (createARTKey t (input.data idx))

/-- The loop over the other columns of a compound key. -/
def concatenateColumns (isNotNull : Bool) : {ts : List PhysicalType} → Columns ts → List ARTKey → List ARTKey
  | [], _, keys => keys
  | _ :: _, (input, inputs), keys => concatenateColumns isNotNull inputs (concatenateKeys isNotNull input keys)

def generateKeysInternal (isNotNull : Bool) {t : PhysicalType} {ts : List PhysicalType} (input : Columns (t :: ts))
    (count : Nat) : List ARTKey :=
  concatenateColumns isNotNull input.2 (templatedGenerateKeys isNotNull input.1 count)

def generateKeys {t : PhysicalType} {ts : List PhysicalType} (input : Columns (t :: ts)) (count : Nat) : List ARTKey :=
  generateKeysInternal false input count

/-! ## Rows -/

/-- The values of a row. -/
@[reducible] def Tuple : List PhysicalType → Type
  | [] => Unit
  | t :: ts => t.Value × Tuple ts

/-- The values of row `i`, also where they are not valid. -/
def Columns.row : {ts : List PhysicalType} → Columns ts → Nat → Tuple ts
  | [], _, _ => ()
  | _ :: _, (input, inputs), i => (input.data (input.sel i), Columns.row inputs i)

/-- Row `i` has no `NULL`. -/
def Columns.rowIsValid : {ts : List PhysicalType} → Columns ts → Nat → Bool
  | [], _, _ => true
  | _ :: _, (input, inputs), i => input.validity (input.sel i) && Columns.rowIsValid inputs i

/-- Numbers compare by their value, strings byte by byte. -/
def PhysicalType.compare : (t : PhysicalType) → t.Value → t.Value → Ordering
  | .fixed t, a, b => Ord.compare (t.toInt a) (t.toInt b)
  | .varchar, a, b => Ord.compare a b

/-- Rows compare column by column. -/
def Tuple.compare : {ts : List PhysicalType} → Tuple ts → Tuple ts → Ordering
  | [], _, _ => .eq
  | t :: _, (a, as), (b, bs) => (t.compare a b).then (Tuple.compare as bs)

/-- The keys of the columns, one after the other. -/
def Tuple.key : {ts : List PhysicalType} → Tuple ts → ARTKey
  | [], _ => []
  | t :: _, (a, as) => createARTKey t a ++ Tuple.key as

/-! ## Comparison of keys -/

theorem greater_iff : ∀ a b : ARTKey, a.greater b = true ↔ compare b a = .lt
  | [], [] => by decide
  | [], _ :: _ => by simp [ARTKey.greater]
  | _ :: _, [] => by simp [ARTKey.greater]
  | x :: xs, y :: ys => by
    rw [ARTKey.greater, List.compare_cons_cons, compare_toNat]
    simp only [UInt8.lt_iff_toNat_lt]
    rcases Nat.lt_trichotomy y.toNat x.toNat with h | h | h
    · rw [if_pos h, Nat.compare_eq_lt.2 h]
      exact iff_of_true rfl rfl
    · rw [h, if_neg (Nat.lt_irrefl _), if_neg (Nat.lt_irrefl _), Nat.compare_eq_eq.2 rfl]
      exact greater_iff xs ys
    · rw [if_neg (Nat.lt_asymm h), if_pos h, Nat.compare_eq_gt.2 h]
      exact iff_of_false nofun nofun

theorem greaterEqual_iff : ∀ a b : ARTKey, a.greaterEqual b = true ↔ compare b a ≠ .gt
  | [], [] => by decide
  | [], _ :: _ => by simp [ARTKey.greaterEqual]
  | _ :: _, [] => by simp [ARTKey.greaterEqual]
  | x :: xs, y :: ys => by
    rw [ARTKey.greaterEqual, List.compare_cons_cons, compare_toNat]
    simp only [UInt8.lt_iff_toNat_lt]
    rcases Nat.lt_trichotomy y.toNat x.toNat with h | h | h
    · rw [if_pos h, Nat.compare_eq_lt.2 h]
      exact iff_of_true rfl nofun
    · rw [h, if_neg (Nat.lt_irrefl _), if_neg (Nat.lt_irrefl _), Nat.compare_eq_eq.2 rfl]
      exact greaterEqual_iff xs ys
    · rw [if_neg (Nat.lt_asymm h), if_pos h, Nat.compare_eq_gt.2 h]
      exact iff_of_false nofun (fun hne => hne rfl)

/-! ## Keys are an ordered code -/

theorem createStringKey_ordered : OrderedCode compare createStringKey := escaped_ordered

theorem createARTKey_ordered : (t : PhysicalType) → OrderedCode t.compare (createARTKey t)
  | .fixed t => encodeData_ordered t
  | .varchar => createStringKey_ordered

theorem key_ordered : (ts : List PhysicalType) → OrderedCode (Tuple.compare : Tuple ts → Tuple ts → Ordering) Tuple.key
  | [] => ⟨fun _ => rfl, fun hab => absurd rfl hab⟩
  | t :: ts => ((createARTKey_ordered t).comp Prod.fst).append ((key_ordered ts).comp Prod.snd)

theorem compare_eq_eq : (t : PhysicalType) → {a b : t.Value} → (t.compare a b = .eq ↔ a = b)
  | .fixed t, _, _ => ⟨fun h => toInt_injective t (compare_eq_iff_eq.1 h), fun h => compare_eq_iff_eq.2 (congrArg t.toInt h)⟩
  | .varchar, _, _ => Std.LawfulEqOrd.compare_eq_iff_eq

theorem tuple_compare_eq_eq : (ts : List PhysicalType) → {a b : Tuple ts} → (Tuple.compare a b = .eq ↔ a = b)
  | [], _, _ => iff_of_true rfl rfl
  | t :: ts, (a, as), (b, bs) => by
    rw [Tuple.compare, Ordering.then_eq_eq, compare_eq_eq, tuple_compare_eq_eq, Prod.mk.injEq]

/-! ## Generated keys -/

theorem createARTKey_ne_nil : (t : PhysicalType) → (a : t.Value) → createARTKey t a ≠ []
  | .fixed t, a => by
    intro h
    have hlength := length_encodeData t a
    rw [show encodeData t a = [] from h] at hlength
    cases t <;> cases hlength
  | .varchar, a => List.append_ne_nil_of_right_ne_nil _ (List.cons_ne_nil 0 [])

theorem concatenateColumns_get : ∀ {ts : List PhysicalType} (inputs : Columns ts) {keys : List ARTKey} {i : Nat} {key : ARTKey},
    keys[i]? = some key →
    (concatenateColumns false inputs keys)[i]? =
      some (if key ≠ [] ∧ inputs.rowIsValid i = true then key ++ (inputs.row i).key else [])
  | [], _, keys, i, key, hkey => by
    rw [concatenateColumns, hkey]
    by_cases hnil : key = []
    · rw [hnil]
      rfl
    · rw [if_pos ⟨hnil, rfl⟩, Tuple.key, List.append_nil]
  | t :: ts, (input, inputs), keys, i, key, hkey => by
    have hnext : (concatenateKeys false input keys)[i]? = some (if key.isEmpty then key
        else if !input.validity (input.sel i) then []
        else key.concat (createARTKey t (input.data (input.sel i)))) := by
      rw [concatenateKeys, List.getElem?_mapIdx, hkey]
      rfl
    rw [concatenateColumns, concatenateColumns_get inputs hnext]
    by_cases hnil : key = []
    · rw [hnil]
      rfl
    · have hempty : key.isEmpty = false := by simpa using hnil
      rw [hempty, Columns.rowIsValid]
      cases hvalid : input.validity (input.sel i) with
      | false => simp
      | true =>
        simp [hnil, Columns.row, Tuple.key, ARTKey.concat]

theorem generateKeys_get {t : PhysicalType} {ts : List PhysicalType} (input : Columns (t :: ts)) {count i : Nat}
    (hi : i < count) :
    (generateKeys input count)[i]? = some (if input.rowIsValid i then (input.row i).key else []) := by
  obtain ⟨input, inputs⟩ := input
  have hfirst : (templatedGenerateKeys false input count)[i]? = some (if input.validity (input.sel i) then
      createARTKey t (input.data (input.sel i)) else []) := by
    rw [templatedGenerateKeys, List.getElem?_map, List.getElem?_range hi]
    rfl
  rw [generateKeys, generateKeysInternal, concatenateColumns_get inputs hfirst, Columns.rowIsValid]
  cases hvalid : input.validity (input.sel i) with
  | false => simp
  | true => simp [createARTKey_ne_nil, Columns.row, Tuple.key]

/-! ## Keys and rows -/

theorem ordered_keys {α : Type} {cmp : α → α → Ordering} {key : α → ARTKey} (h : OrderedCode cmp key)
    (heq : ∀ {a b}, cmp a b = .eq ↔ a = b) (a b : α) :
    (cmp a b = .lt ↔ (key b).greater (key a) = true) ∧ (cmp a b ≠ .gt ↔ (key b).greaterEqual (key a) = true) ∧
      (key a = key b ↔ a = b) ∧ (key a <+: key b → key a = key b) := by
  rw [greater_iff, greaterEqual_iff, h.compare_eq, h.encode_eq_iff, heq]
  exact ⟨Iff.rfl, Iff.rfl, Iff.rfl, fun hp => heq.1 (h.eq_of_prefix hp)⟩

/-- Keys are ordered like what they are made of, are equal only for the same, and none is a proper prefix of
another one: keys of strings, and keys of rows without `NULL`. A row with a `NULL` has the empty key. -/
theorem keys_ordered_prefixFree {t : PhysicalType} {ts : List PhysicalType} (A B : Columns (t :: ts)) {m n i j : Nat}
    (hi : i < m) (hj : j < n) :
    (∀ a b : Bytes, (a < b ↔ (createStringKey b).greater (createStringKey a) = true) ∧
      (createStringKey a = createStringKey b ↔ a = b) ∧
      (createStringKey a <+: createStringKey b → createStringKey a = createStringKey b)) ∧
    ∃ ka kb, (generateKeys A m)[i]? = some ka ∧ (generateKeys B n)[j]? = some kb ∧
      (A.rowIsValid i = true → B.rowIsValid j = true →
        (Tuple.compare (A.row i) (B.row j) = .lt ↔ kb.greater ka = true) ∧
        (Tuple.compare (A.row i) (B.row j) ≠ .gt ↔ kb.greaterEqual ka = true) ∧
        (ka = kb ↔ A.row i = B.row j) ∧ (ka <+: kb → ka = kb)) ∧
      (A.rowIsValid i = false → ka = []) := by
  refine ⟨fun a b => ?_, _, _, generateKeys_get A hi, generateKeys_get B hj, fun ha hb => ?_, fun ha => ?_⟩
  · obtain ⟨hlt, -, heq, hprefix⟩ := ordered_keys createStringKey_ordered Std.LawfulEqOrd.compare_eq_iff_eq a b
    exact ⟨compare_bytes_eq_lt.symm.trans hlt, heq, hprefix⟩
  · rw [if_pos ha, if_pos hb]
    exact ordered_keys (key_ordered (t :: ts)) (tuple_compare_eq_eq (t :: ts)) (A.row i) (B.row j)
  · rw [ha]
    rfl

/-- A string column before a number, where the strings are prefixes of each other. -/
def twoColumns : Columns [.varchar, .fixed .int32] :=
  (⟨id, fun i => if i = 0 then [1] else [1, 0], fun _ => true⟩, ⟨id, fun _ => 7#32, fun i => i != 2⟩, ())

theorem keys_ordered_prefixFree_twoColumns :
    ∃ ka kb, (generateKeys twoColumns 3)[0]? = some ka ∧ (generateKeys twoColumns 3)[1]? = some kb ∧
      kb.greater ka = true := by
  obtain ⟨-, ka, kb, ha, hb, hkeys, -⟩ := keys_ordered_prefixFree twoColumns twoColumns (i := 0) (j := 1) (m := 3) (n := 3)
    (by decide) (by decide)
  exact ⟨ka, kb, ha, hb, (hkeys rfl rfl).1.1 (by decide)⟩

end Haybarn.Art
