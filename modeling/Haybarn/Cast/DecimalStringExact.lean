/-
Which texts a cast to DECIMAL turns into the right number. The result is wrong where decimals were dropped that counted, where
the division by a negative exponent ends early, and where zeros are appended past the width.
-/
import Haybarn.Cast.DecimalString

namespace Haybarn.Cast

open Lib Lib.Outcome Common Decimal List Nat

/-! ## Digits -/

/-- How many digits there are from the first on that is not zero. -/
def significant (ds : List Nat) : Nat := (ds.dropWhile (· = 0)).length

variable {ds : List Nat}

theorem significant_concat {d : Nat} :
    significant (ds ++ [d]) = if significant ds = 0 ∧ d = 0 then 0 else significant ds + 1 := by
  rw [significant, significant, dropWhile_append]
  by_cases hds : ds.dropWhile (· = 0) = []
  · simp [hds]
    by_cases hd : d = 0 <;> simp [hd]
  · have : (ds.dropWhile (· = 0)).length ≠ 0 := by simpa using hds
    simp [hds, this]

theorem significant_le_append {ds' : List Nat} : significant ds ≤ significant (ds ++ ds') := by
  rw [significant, significant, dropWhile_append]
  split
  next h =>
    rw [isEmpty_iff.1 h]
    exact zero_le _
  next => simp

theorem number_eq_zero_iff : number ds = 0 ↔ significant ds = 0 := by
  induction ds using reverseRecOn with
  | nil => simp [significant]
  | append_singleton ds d ih =>
    rw [number_concat, significant_concat]
    constructor
    · intro h
      rw [if_pos ⟨ih.1 (by omega), by omega⟩]
    · intro h
      split at h
      next hzero => rw [ih.2 hzero.1, hzero.2]
      next => omega

theorem number_lt_significant (h : ∀ d ∈ ds, d < 10) : number ds < 10 ^ significant ds := by
  induction ds using reverseRecOn with
  | nil => simp [significant]
  | append_singleton ds d ih =>
    have hlt := ih fun d hd => h d (by simp [hd])
    have hd := h d (by simp)
    rw [number_concat, significant_concat]
    split
    next hzero => simp [number_eq_zero_iff.2 hzero.1, hzero.2]
    next => rw [pow_succ]; omega

theorem pow_significant_le (h : significant ds ≠ 0) : 10 ^ (significant ds - 1) ≤ number ds := by
  induction ds using reverseRecOn with
  | nil => simp [significant] at h
  | append_singleton ds d ih =>
    rw [significant_concat] at h ⊢
    rw [number_concat]
    split at h
    next => exact absurd rfl h
    next hnot =>
      rw [if_neg hnot, Nat.add_sub_cancel]
      by_cases hzero : significant ds = 0
      · rw [hzero, pow_zero]
        have : d ≠ 0 := fun hd => hnot ⟨hzero, hd⟩
        omega
      · obtain ⟨k, hk⟩ := Nat.exists_eq_succ_of_ne_zero hzero
        have hle := ih hzero
        rw [hk, Nat.succ_sub_one] at hle
        rw [hk, Nat.succ_eq_add_one, pow_succ]
        omega

/-! ## The state behind the digits -/

section State

variable {t : Storage} {negative : Bool} {state : DecimalCastData} {n d : Nat}

theorem handleDigit_eq (hstate : state.result = signed negative n) (hd : n ≤ greatest t / 10 → n * 10 + d ≤ greatest t) :
    DecimalCast.handleDigit t negative state d =
      .done (if n = 0 ∧ d = 0 then some state
        else if state.digitCount = state.width - state.scale ∨ greatest t / 10 < n then none
        else some { state with digitCount := state.digitCount + 1, result := signed negative (n * 10 + d) }) := by
  have hmin : t.integerType.minimum.tdiv 10 = -(greatest t / 10 : Nat) := by cases t <;> decide
  have hmax : t.integerType.maximum.tdiv 10 = (greatest t / 10 : Nat) := by cases t <;> decide
  have hcheck : (negative ∧ signed negative n < t.integerType.minimum.tdiv 10) ∨
      (¬ negative ∧ signed negative n > t.integerType.maximum.tdiv 10) ↔ greatest t / 10 < n := by
    rw [hmin, hmax]
    cases negative <;> simp [signed] <;> omega
  rw [DecimalCast.handleDigit, hstate]
  simp only [signed_eq_zero]
  by_cases hzero : n = 0 ∧ d = 0
  · rw [if_pos hzero, if_pos hzero]
  · rw [if_neg hzero, if_neg hzero]
    by_cases hwidth : state.digitCount = state.width - state.scale
    · rw [if_pos hwidth, if_pos (.inl hwidth)]
    · rw [if_neg hwidth, ← ite_or, if_congr hcheck rfl rfl]
      by_cases hgreatest : greatest t / 10 < n
      · rw [if_pos hgreatest, if_pos (.inr hgreatest)]
      · rw [if_neg hgreatest, if_neg (by tauto), appendDigit_eq (hd (by omega)), done_bind]

theorem handleDecimal_eq (hstate : state.result = signed negative n)
    (hd : state.digitCount + state.decimalCount < maxWidth t → n * 10 + d ≤ greatest t) :
    DecimalCast.handleDecimal t negative state d =
      .done (some
        { state with
          roundSet := state.roundSet || state.decimalCount = state.scale
          shouldRound := if state.decimalCount = state.scale ∧ ¬ state.roundSet then decide (d ≥ 5) else state.shouldRound
          decimalCount :=
            if state.digitCount + state.decimalCount ≥ maxWidth t then state.decimalCount else state.decimalCount + 1
          result :=
            if state.digitCount + state.decimalCount ≥ maxWidth t then state.result else signed negative (n * 10 + d) }) := by
  rw [DecimalCast.handleDecimal]
  by_cases hround : state.decimalCount = state.scale ∧ ¬ state.roundSet
  · have hset : (state.roundSet || decide (state.decimalCount = state.scale)) = true := by simp [hround.1]
    by_cases hfull : state.digitCount + state.decimalCount ≥ maxWidth t
    · simp only [if_pos hround, if_pos hfull, hset]
    · simp only [if_pos hround, if_neg hfull, hset, hstate, appendDigit_eq (hd (by omega)), done_bind]
  · have hset : (state.roundSet || decide (state.decimalCount = state.scale)) = state.roundSet := by
      by_cases hscale : state.decimalCount = state.scale
      · have : state.roundSet = true := by tauto
        simp [this]
      · simp [hscale]
    by_cases hfull : state.digitCount + state.decimalCount ≥ maxWidth t
    · simp only [if_neg hround, if_pos hfull, hset]
    · simp only [if_neg hround, if_neg hfull, hset, hstate, appendDigit_eq (hd (by omega)), done_bind]

end State

section Fold

variable (type : DecimalType) (negative : Bool)

theorem width_le_maxWidth : type.width ≤ maxWidth type.internalType := by
  have := type.width_le
  rw [DecimalType.internalType]
  split
  next => assumption
  next =>
    split
    next => assumption
    next =>
      split
      next => assumption
      next => assumption

/-- The decimals that the storage has room for. -/
def keptDecimals (whole decimals : List Nat) : List Nat := decimals.take (maxWidth type.internalType - significant whole)

/-- The state behind digits and decimals. -/
def stateBehind (whole decimals : List Nat) : DecimalCastData where
  result := signed negative (number (whole ++ keptDecimals type whole decimals))
  width := type.width
  scale := type.scale
  digitCount := significant whole
  decimalCount := (keptDecimals type whole decimals).length
  roundSet := type.scale < decimals.length
  shouldRound := decimals[type.scale]?.any (5 ≤ ·)
  excessiveDecimals := 0
  exponentType := .none
  limit := 10 ^ type.width

variable {type negative} {whole decimals : List Nat} {d : Nat}

theorem stateBehind_nil : stateBehind type negative whole [] =
    { result := signed negative (number whole), width := type.width, scale := type.scale, digitCount := significant whole,
      decimalCount := 0, roundSet := false, shouldRound := false, excessiveDecimals := 0, exponentType := .none,
      limit := 10 ^ type.width } := by
  simp [stateBehind, keptDecimals]

theorem number_kept_lt (hwhole : ∀ d ∈ whole, d < 10) (hdecimals : ∀ d ∈ decimals, d < 10) :
    number (whole ++ keptDecimals type whole decimals) <
      10 ^ (significant whole + (keptDecimals type whole decimals).length) := by
  have hlt := number_lt_significant hwhole
  have hkept := @number_lt (keptDecimals type whole decimals) fun d hd => hdecimals d (mem_of_mem_take hd)
  rw [number_append, pow_add]
  calc number whole * 10 ^ (keptDecimals type whole decimals).length + number (keptDecimals type whole decimals)
      < number whole * 10 ^ (keptDecimals type whole decimals).length + 10 ^ (keptDecimals type whole decimals).length :=
        Nat.add_lt_add_left hkept _
    _ = (number whole + 1) * 10 ^ (keptDecimals type whole decimals).length := by ring
    _ ≤ _ := Nat.mul_le_mul_right _ hlt

theorem number_concat_le_greatest {t : Storage} {n k : Nat} (hn : n < 10 ^ k) (hd : d < 10) (hk : k < maxWidth t) :
    n * 10 + d ≤ greatest t := by
  have hpow : 10 ^ (k + 1) ≤ 10 ^ maxWidth t := Nat.pow_le_pow_right (by decide) hk
  have := @pow_maxWidth_lt t
  rw [pow_succ] at hpow
  omega

theorem handleDigit_stateBehind (hwhole : ∀ d ∈ whole, d < 10) (hd : d < 10)
    (hwidth : significant whole ≤ type.width - type.scale) :
    DecimalCast.handleDigit type.internalType negative (stateBehind type negative whole []) d =
      .done (if significant (whole ++ [d]) ≤ type.width - type.scale then some (stateBehind type negative (whole ++ [d]) [])
        else none) := by
  have hmax := width_le_maxWidth type
  have hlt := number_lt_significant hwhole
  rw [stateBehind_nil, stateBehind_nil]
  by_cases hfull : significant whole = type.width - type.scale
  · rw [DecimalCast.handleDigit, significant_concat]
    simp only [signed_eq_zero, number_eq_zero_iff]
    by_cases hzero : significant whole = 0 ∧ d = 0
    · rw [if_pos hzero, if_pos hzero, if_pos (zero_le _), number_concat, number_eq_zero_iff.2 hzero.1, hzero.1, hzero.2]
    · rw [if_neg hzero, if_neg hzero, if_pos hfull, if_neg (by omega)]
  · have hfits : significant whole < maxWidth type.internalType := by omega
    have hle := number_concat_le_greatest hlt hd hfits
    have hsmall : ¬ greatest type.internalType / 10 < number whole := by omega
    rw [handleDigit_eq rfl fun _ => hle, significant_concat]
    simp only [number_eq_zero_iff, number_concat]
    by_cases hzero : significant whole = 0 ∧ d = 0
    · rw [if_pos hzero, if_pos hzero, if_pos (zero_le _), number_eq_zero_iff.2 hzero.1, hzero.1, hzero.2]
    · rw [if_neg hzero, if_neg hzero, if_neg (by tauto), if_pos (by omega)]

theorem handleAll_handleDigit : ∀ {ds whole : List Nat}, (∀ d ∈ whole, d < 10) → (∀ d ∈ ds, d < 10) →
    significant whole ≤ type.width - type.scale →
      handleAll (DecimalCast.handleDigit type.internalType negative) ds (stateBehind type negative whole []) =
        .done (if significant (whole ++ ds) ≤ type.width - type.scale then some (stateBehind type negative (whole ++ ds) [])
          else none)
  | [], whole, _, _, hwidth => by rw [handleAll, append_nil, if_pos hwidth]
  | d :: ds, whole, hwhole, hds, hwidth => by
    have happend : whole ++ d :: ds = whole ++ [d] ++ ds := by simp
    rw [handleAll, handleDigit_stateBehind hwhole (hds d (by simp)) hwidth, happend]
    by_cases hnext : significant (whole ++ [d]) ≤ type.width - type.scale
    · have hwhole' : ∀ d' ∈ whole ++ [d], d' < 10 := by
        intro d' hd'
        rcases mem_append.1 hd' with h | h
        · exact hwhole d' h
        · exact hds d' (by simp_all)
      rw [if_pos hnext, orFail_some, handleAll_handleDigit hwhole' (fun d hd => hds d (by simp [hd])) hnext]
    · have := @significant_le_append (whole ++ [d]) ds
      rw [if_neg hnext, orFail_none, if_neg (by omega)]

theorem keptDecimals_concat : keptDecimals type whole (decimals ++ [d]) =
    if significant whole + (keptDecimals type whole decimals).length ≥ maxWidth type.internalType
      then keptDecimals type whole decimals else keptDecimals type whole decimals ++ [d] := by
  rw [keptDecimals, keptDecimals, take_append, length_take]
  by_cases hfull : maxWidth type.internalType - significant whole ≤ decimals.length
  · rw [if_pos (by omega), Nat.sub_eq_zero_of_le hfull, take_zero, append_nil]
  · have hone : ∃ room, maxWidth type.internalType - significant whole - decimals.length = room + 1 :=
      ⟨_, (Nat.succ_pred_eq_of_pos (by omega)).symm⟩
    obtain ⟨room, hroom⟩ := hone
    rw [if_neg (by omega), hroom, take_succ_cons, take_nil]

theorem handleDecimal_stateBehind (hwhole : ∀ d ∈ whole, d < 10) (hdecimals : ∀ d ∈ decimals, d < 10) (hd : d < 10)
    (hwidth : significant whole ≤ type.width - type.scale) :
    DecimalCast.handleDecimal type.internalType negative (stateBehind type negative whole decimals) d =
      .done (some (stateBehind type negative whole (decimals ++ [d]))) := by
  have hmax := width_le_maxWidth type
  have hscale := type.scale_le
  have hlength : (keptDecimals type whole decimals).length =
      min (maxWidth type.internalType - significant whole) decimals.length := length_take
  -- while no more decimals than the scale were seen, all are kept
  have hseen : (keptDecimals type whole decimals).length = type.scale ∧ ¬ type.scale < decimals.length ↔
      decimals.length = type.scale := by omega
  have hset : ((stateBehind type negative whole decimals).roundSet ||
        decide ((stateBehind type negative whole decimals).decimalCount = (stateBehind type negative whole decimals).scale)) =
      decide (type.scale < (decimals ++ [d]).length) := by
    show (decide (type.scale < decimals.length) || decide ((keptDecimals type whole decimals).length = type.scale)) = _
    rw [← Bool.decide_or, decide_eq_decide, length_append, length_singleton]
    omega
  have hround : (if (stateBehind type negative whole decimals).decimalCount = (stateBehind type negative whole decimals).scale ∧
        ¬ (stateBehind type negative whole decimals).roundSet then decide (d ≥ 5)
      else (stateBehind type negative whole decimals).shouldRound) = (decimals ++ [d])[type.scale]?.any (5 ≤ ·) := by
    simp only [stateBehind, decide_eq_true_eq, hseen]
    by_cases h : decimals.length = type.scale
    · simp [← h]
    · rw [if_neg h]
      rcases lt_or_ge type.scale decimals.length with hlt | hge
      · rw [getElem?_append_left hlt]
      · have hlong : (decimals ++ [d]).length ≤ type.scale := by
          rw [length_append, length_singleton]
          omega
        rw [getElem?_eq_none hlong, getElem?_eq_none hge]
  rw [handleDecimal_eq rfl fun hroom => number_concat_le_greatest (number_kept_lt hwhole hdecimals) hd hroom, hround, hset]
  by_cases hfull : (stateBehind type negative whole decimals).digitCount +
      (stateBehind type negative whole decimals).decimalCount ≥ maxWidth type.internalType
  · have hkept : keptDecimals type whole (decimals ++ [d]) = keptDecimals type whole decimals :=
      keptDecimals_concat.trans (if_pos hfull)
    simp only [if_pos hfull]
    simp only [stateBehind, hkept]
  · have hkept : keptDecimals type whole (decimals ++ [d]) = keptDecimals type whole decimals ++ [d] :=
      keptDecimals_concat.trans (if_neg hfull)
    simp only [if_neg hfull]
    simp only [stateBehind, hkept, ← append_assoc, number_concat, length_append, length_singleton]

theorem handleAll_handleDecimal (hwhole : ∀ d ∈ whole, d < 10) (hwidth : significant whole ≤ type.width - type.scale) :
    ∀ {ds decimals : List Nat}, (∀ d ∈ decimals, d < 10) → (∀ d ∈ ds, d < 10) →
      handleAll (DecimalCast.handleDecimal type.internalType negative) ds (stateBehind type negative whole decimals) =
        .done (some (stateBehind type negative whole (decimals ++ ds)))
  | [], decimals, _, _ => by rw [handleAll, append_nil]
  | d :: ds, decimals, hdecimals, hds => by
    have happend : decimals ++ d :: ds = decimals ++ [d] ++ ds := by simp
    have hdecimals' : ∀ d' ∈ decimals ++ [d], d' < 10 := by
      intro d' hd'
      rcases mem_append.1 hd' with h | h
      · exact hdecimals d' h
      · exact hds d' (by simp_all)
    rw [handleAll, handleDecimal_stateBehind hwhole hdecimals (hds d (by simp)) hwidth, orFail_some, happend,
      handleAll_handleDecimal hwhole hwidth hdecimals' fun d hd => hds d (by simp [hd])]

end Fold

/-! ## The end of the cast -/

section Finish

variable {t : Storage} {negative : Bool} {state : DecimalCastData} {n : Nat}

/-- How many digits `Finalize` drops. -/
def excess (state : DecimalCastData) : Nat :=
  if state.exponentType ≠ .positive ∧ state.decimalCount > state.scale then state.decimalCount - state.scale
  else state.excessiveDecimals

/-- What `Finalize` makes of the number `n`. -/
def finalized (state : DecimalCastData) (n : Nat) : Nat :=
  ((if state.exponentType = .positive then halfUp n (10 ^ excess state) else n / 10 ^ excess state) +
      (decide (state.exponentType = .none ∧ state.roundSet ∧ state.shouldRound)).toNat) *
    10 ^ (state.scale - (if excess state ≠ 0 then state.scale else state.decimalCount))

theorem truncateExcessiveDecimals_eq (hstate : state.result = signed negative n) (hn : n ≤ greatest t)
    (hexcess : state.excessiveDecimals ≠ 0) :
    DecimalCast.truncateExcessiveDecimals t negative state =
      .done { state with
        result := signed negative
          (if state.exponentType = .positive then halfUp n (10 ^ state.excessiveDecimals)
            else n / 10 ^ state.excessiveDecimals)
        decimalCount := state.scale } := by
  obtain ⟨count, hcount⟩ := Nat.exists_eq_succ_of_ne_zero hexcess
  have hsmall : n / 10 ^ (count + 1) ≤ n / 10 := by
    rw [pow_succ', ← Nat.div_div_eq_div_mul]
    exact Nat.div_le_self _ _
  have hten := @ten_le_greatest t
  have hround := div_add_round n count
  rw [DecimalCast.truncateExcessiveDecimals, hstate, hcount, Nat.succ_eq_add_one, dropDigits_eq hn, done_bind]
  dsimp only
  by_cases hpositive : state.exponentType = .positive
  · rw [if_pos hpositive]
    by_cases hup : 5 ≤ n / 10 ^ count % 10
    · rw [decide_eq_true hup, Bool.toNat_true] at hround
      rw [if_pos ⟨hpositive, decide_eq_true hup⟩, roundUpResult_eq (by omega), done_bind, hround]
    · rw [decide_eq_false hup, Bool.toNat_false, Nat.add_zero] at hround
      rw [if_neg (by simp [hup]), done_bind, hround]
  · rw [if_neg hpositive, if_neg (by simp [hpositive]), done_bind]

theorem finalize_eq {width : Nat} (hstate : state.result = signed negative n) (hn : n ≤ greatest t)
    (hlimit : state.limit = 10 ^ width) (hwidth : 10 ^ width ≤ greatest t)
    (hfinal : finalized state n ≤ greatest t) :
    DecimalCast.finalize t negative state =
      .done (if finalized state n < 10 ^ width then
          some { state with
            excessiveDecimals := excess state
            decimalCount := if excess state ≠ 0 then state.scale else state.decimalCount
            result := signed negative (finalized state n) }
        else none) := by
  have hset : (if state.exponentType ≠ .positive ∧ state.decimalCount > state.scale then
      { state with excessiveDecimals := state.decimalCount - state.scale } else state) =
        { state with excessiveDecimals := excess state } := by
    rw [excess]
    split <;> rfl
  -- the digits that are too many
  have htruncate : (if excess state ≠ 0 then
      DecimalCast.truncateExcessiveDecimals t negative { state with excessiveDecimals := excess state }
        else .done { state with excessiveDecimals := excess state }) =
      .done { state with
        excessiveDecimals := excess state
        result := signed negative
          (if state.exponentType = .positive then halfUp n (10 ^ excess state) else n / 10 ^ excess state)
        decimalCount := if excess state ≠ 0 then state.scale else state.decimalCount } := by
    by_cases hexcess : excess state ≠ 0
    · have htruncated := @truncateExcessiveDecimals_eq t negative { state with excessiveDecimals := excess state } n hstate hn
        hexcess
      rw [if_pos hexcess, if_pos hexcess, htruncated]
    · rw [if_neg hexcess, if_neg hexcess, not_not.1 hexcess, pow_zero, halfUp_one, Nat.div_one, ite_self, ← hstate]
  have hle := hfinal
  rw [finalized] at hle
  have hrounded := le_trans (Nat.le_mul_of_pos_right _ (by positivity)) hle
  have hbound : (if negative then t.neg state.limit else .done state.limit) =
      (.done (if negative then -10 ^ width else 10 ^ width) : Outcome Int) := by
    have hholds : ∀ negative, t.Holds (signed negative (10 ^ width)) := fun negative => holds_signed hwidth
    have hpos : t.Holds (10 ^ width) := by simpa [signed] using hholds false
    have hneg : t.Holds (-10 ^ width) := by simpa [signed] using hholds true
    rw [hlimit]
    cases negative with
    | true => rw [if_pos rfl, if_pos rfl, Storage.neg_done hpos (Storage.holds_promoted hneg)]
    | false => rw [if_neg (by decide), if_neg (by decide)]
  have hcheck : (if negative then signed negative (finalized state n) > (if negative then -10 ^ width else 10 ^ width)
      else signed negative (finalized state n) < (if negative then -10 ^ width else 10 ^ width)) ↔
        finalized state n < 10 ^ width := by
    have hcast : ((10 ^ width : Nat) : Int) = 10 ^ width := by push_cast; rfl
    rw [← hcast]
    cases negative <;> simp only [signed, if_true, Bool.false_eq_true, if_false] <;> omega
  rw [DecimalCast.finalize, hset]
  dsimp only
  rw [htruncate, done_bind]
  dsimp only
  generalize hdropped : (if state.exponentType = .positive then halfUp n (10 ^ excess state) else n / 10 ^ excess state) =
    dropped at hrounded hle
  have hround : (if state.exponentType = .none ∧ state.roundSet = true ∧ state.shouldRound = true then
      DecimalCast.roundUpResult t negative (signed negative dropped) else .done (signed negative dropped)) =
      .done (signed negative
        (dropped + (decide (state.exponentType = .none ∧ state.roundSet ∧ state.shouldRound)).toNat)) := by
    by_cases h : state.exponentType = .none ∧ state.roundSet = true ∧ state.shouldRound = true
    · rw [decide_eq_true h, Bool.toNat_true] at hrounded ⊢
      rw [if_pos h, roundUpResult_eq hrounded]
    · rw [if_neg h, decide_eq_false h, Bool.toNat_false, Nat.add_zero]
  rw [hround, done_bind, appendZeros_eq hle, done_bind, hbound, done_bind]
  rw [show (dropped + (decide (state.exponentType = .none ∧ state.roundSet ∧ state.shouldRound)).toNat) *
      10 ^ (state.scale - (if excess state ≠ 0 then state.scale else state.decimalCount)) = finalized state n by
    rw [finalized, hdropped]]
  by_cases hfits : finalized state n < 10 ^ width
  · rw [if_pos (hcheck.2 hfits), if_pos hfits]
  · rw [if_neg (hcheck.not.2 hfits), if_neg hfits]

theorem handleZeros_eq : ∀ {turns n : Nat} {state : DecimalCastData}, state.result = signed negative n → n ≤ greatest t →
    state.digitCount ≤ state.width - state.scale → ∃ state',
      DecimalCast.handleZeros t negative turns state =
        .done (if n = 0 ∨ state.digitCount + turns ≤ state.width - state.scale ∧ n * 10 ^ turns ≤ greatest t
          then some state' else none) ∧ state'.result = signed negative (n * 10 ^ turns)
  | 0, n, state, hstate, hn, hcount => by
    refine ⟨state, ?_, by rw [pow_zero, Nat.mul_one, hstate]⟩
    rw [DecimalCast.handleZeros, pow_zero, Nat.mul_one, if_pos (.inr ⟨hcount, hn⟩)]
  | turns + 1, n, state, hstate, hn, hcount => by
    have hnext : n * 10 ^ (turns + 1) = n * 10 * 10 ^ turns := by ring
    rw [DecimalCast.handleZeros, handleDigit_eq hstate (by omega)]
    by_cases hzero : n = 0
    · obtain ⟨state', heq, hresult⟩ := @handleZeros_eq turns n state hstate hn hcount
      refine ⟨state', ?_, ?_⟩
      · rw [if_pos ⟨hzero, rfl⟩, orFail_some, heq, if_pos (.inl hzero), if_pos (.inl hzero)]
      · rw [hresult, hzero, Nat.zero_mul, Nat.zero_mul]
    · by_cases hfull : state.digitCount = state.width - state.scale ∨ greatest t / 10 < n
      · refine ⟨{ state with result := signed negative (n * 10 ^ (turns + 1)) }, ?_, rfl⟩
        have hle : n * 10 ≤ n * 10 ^ (turns + 1) := by
          rw [hnext]
          exact Nat.le_mul_of_pos_right _ (by positivity)
        rw [if_neg (by omega), if_pos hfull, orFail_none, if_neg]
        rintro (h | ⟨hdigits, hgreatest⟩)
        · exact hzero h
        · omega
      · obtain ⟨state', heq, hresult⟩ := @handleZeros_eq turns (n * 10)
          { state with digitCount := state.digitCount + 1, result := signed negative (n * 10) } rfl (by omega) (by
            show state.digitCount + 1 ≤ state.width - state.scale
            omega)
        refine ⟨state', ?_, by rw [hresult, hnext]⟩
        rw [if_neg (by omega), if_neg hfull, orFail_some, Nat.add_zero, heq, hnext]
        have hdigits : state.digitCount + 1 + turns = state.digitCount + (turns + 1) := by ring
        simp only [hdigits, show n * 10 = 0 ↔ n = 0 by omega]

end Finish

/-! ## The numbers -/

section Numbers

variable {type : DecimalType} {whole decimals : List Nat}

/-- The number that is kept of a mantissa. -/
def keptNumber (type : DecimalType) (whole decimals : List Nat) : Nat := number (whole ++ keptDecimals type whole decimals)

theorem length_keptDecimals : (keptDecimals type whole decimals).length =
    min (maxWidth type.internalType - significant whole) decimals.length := length_take

theorem keptNumber_eq (hdecimals : ∀ d ∈ decimals, d < 10) : keptNumber type whole decimals =
    number (whole ++ decimals) / 10 ^ (decimals.length - (keptDecimals type whole decimals).length) := by
  have hkept : keptDecimals type whole decimals = decimals.take (keptDecimals type whole decimals).length := by
    rw [length_keptDecimals, ← take_eq_take_min, keptDecimals]
  rw [keptNumber, ← number_append_take hdecimals, ← hkept]

theorem getElem_eq_mod (hdecimals : ∀ d ∈ decimals, d < 10) {i d : Nat} (hd : decimals[i]? = some d) :
    d = number (whole ++ decimals) / 10 ^ (decimals.length - (i + 1)) % 10 := by
  have hlt := hdecimals d (mem_of_getElem? hd)
  rw [← number_append_take hdecimals (i + 1), take_add_one, hd, Option.toList_some, ← append_assoc, number_concat]
  omega

theorem scaled_eq (hdecimals : ∀ d ∈ decimals, d < 10) (hwidth : significant whole ≤ type.width - type.scale) :
    keptNumber type whole decimals / 10 ^ ((keptDecimals type whole decimals).length - type.scale) *
        10 ^ (type.scale - (keptDecimals type whole decimals).length) =
      number (whole ++ decimals) * 10 ^ type.scale / 10 ^ decimals.length := by
  have hmax := width_le_maxWidth type
  have hscale := type.scale_le
  have hlength := @length_keptDecimals type whole decimals
  rw [keptNumber_eq hdecimals, Nat.div_div_eq_div_mul, ← pow_add]
  rcases Nat.le_total decimals.length type.scale with h | h
  · have hall : (keptDecimals type whole decimals).length = decimals.length := by omega
    rw [hall, Nat.sub_self, Nat.sub_eq_zero_of_le h, Nat.add_zero, pow_zero, Nat.div_one,
      show 10 ^ type.scale = 10 ^ (type.scale - decimals.length) * 10 ^ decimals.length by
        rw [← pow_add, Nat.sub_add_cancel h], ← Nat.mul_assoc, Nat.mul_div_cancel _ (by positivity)]
  · have hle : type.scale ≤ (keptDecimals type whole decimals).length := by omega
    have hsum : decimals.length - (keptDecimals type whole decimals).length +
        ((keptDecimals type whole decimals).length - type.scale) = decimals.length - type.scale := by omega
    rw [hsum, Nat.sub_eq_zero_of_le hle, pow_zero, Nat.mul_one,
      show 10 ^ decimals.length = 10 ^ (decimals.length - type.scale) * 10 ^ type.scale by
        rw [← pow_add, Nat.sub_add_cancel h], Nat.mul_div_mul_right _ _ (by positivity)]

variable {negative : Bool}

theorem finalized_cut {e : ExponentType} (he : e ≠ .positive) :
    finalized { stateBehind type negative whole decimals with exponentType := e } (keptNumber type whole decimals) =
      (keptNumber type whole decimals / 10 ^ ((keptDecimals type whole decimals).length - type.scale) +
          (decide (e = .none ∧ type.scale < decimals.length ∧ decimals[type.scale]?.any (5 ≤ ·) = true)).toNat) *
        10 ^ (type.scale - (keptDecimals type whole decimals).length) := by
  have hexcess : excess { stateBehind type negative whole decimals with exponentType := e } =
      (keptDecimals type whole decimals).length - type.scale := by
    simp only [excess, stateBehind, he, ne_eq, not_false_eq_true, true_and]
    split <;> omega
  have hzeros : type.scale - (if (keptDecimals type whole decimals).length - type.scale ≠ 0 then type.scale
      else (keptDecimals type whole decimals).length) = type.scale - (keptDecimals type whole decimals).length := by
    split <;> omega
  rw [finalized, hexcess]
  simp only [stateBehind, decide_eq_true_eq, hzeros, he, if_false]

theorem finalized_none (hdecimals : ∀ d ∈ decimals, d < 10) (hwidth : significant whole ≤ type.width - type.scale) :
    finalized (stateBehind type negative whole decimals) (keptNumber type whole decimals) =
      halfUp (number (whole ++ decimals) * 10 ^ type.scale) (10 ^ decimals.length) := by
  have hmax := width_le_maxWidth type
  have hlength := @length_keptDecimals type whole decimals
  have hscaled := scaled_eq hdecimals hwidth
  have hscale := type.scale_le
  have hfinal : finalized (stateBehind type negative whole decimals) (keptNumber type whole decimals) = _ :=
    finalized_cut (show ExponentType.none ≠ .positive by decide)
  rw [hfinal]
  simp only [true_and]
  rcases Nat.lt_or_ge type.scale decimals.length with h | h
  · obtain ⟨d, hd⟩ : ∃ d, decimals[type.scale]? = some d := ⟨_, getElem?_eq_getElem h⟩
    have hpow : 10 ^ decimals.length = 10 ^ (decimals.length - (type.scale + 1) + 1) * 10 ^ type.scale := by
      rw [← pow_add]
      congr 1
      omega
    have hzero : type.scale - (keptDecimals type whole decimals).length = 0 := by omega
    rw [hzero, pow_zero, Nat.mul_one, hpow, Nat.mul_div_mul_right _ _ (by positivity)] at hscaled
    rw [hzero, pow_zero, Nat.mul_one, hscaled, hpow, halfUp_mul_right _ _ (by positivity), ← div_add_round,
      ← getElem_eq_mod hdecimals hd, hd]
    simp [h]
  · have hpow : 10 ^ type.scale = 10 ^ (type.scale - decimals.length) * 10 ^ decimals.length := by
      rw [← pow_add, Nat.sub_add_cancel h]
    have hexact : halfUp (number (whole ++ decimals) * 10 ^ type.scale) (10 ^ decimals.length) =
        number (whole ++ decimals) * 10 ^ type.scale / 10 ^ decimals.length := by
      rw [halfUp_eq_div_iff (by positivity), hpow, ← Nat.mul_assoc, Nat.mul_mod_left]
      positivity
    rw [hexact, ← hscaled, decide_eq_false (by omega), Bool.toNat_false, Nat.add_zero]

theorem finalized_negative (hdecimals : ∀ d ∈ decimals, d < 10) (hwidth : significant whole ≤ type.width - type.scale) :
    finalized { stateBehind type negative whole decimals with exponentType := .negative } (keptNumber type whole decimals) =
      number (whole ++ decimals) * 10 ^ type.scale / 10 ^ decimals.length := by
  rw [finalized_cut (by decide), ← scaled_eq hdecimals hwidth]
  simp

theorem finalized_positive {count : Nat} :
    finalized
        { stateBehind type negative whole decimals with exponentType := .positive, excessiveDecimals := count }
        (keptNumber type whole decimals) =
      halfUp (keptNumber type whole decimals) (10 ^ count) *
        10 ^ (type.scale - (if count ≠ 0 then type.scale else (keptDecimals type whole decimals).length)) := by
  have hexcess : excess
      { stateBehind type negative whole decimals with exponentType := .positive, excessiveDecimals := count } = count := by
    rw [excess, if_neg (by simp)]
  rw [finalized, hexcess]
  simp [stateBehind]

end Numbers

/-! ## Literals -/

section Cast

variable (type : DecimalType) (literal : Literal)

namespace Literal

/-- The magnitude of the literal's value at the scale of the type, rounded. -/
def rounded : Nat :=
  halfUp (literal.mantissa * 10 ^ (type.scale + literal.exponentValue.toNat))
    (10 ^ (literal.decimalDigits.length + (-literal.exponentValue).toNat))

/-- The mantissa at the scale of the type, cut. -/
def cut : Nat := literal.mantissa * 10 ^ type.scale / 10 ^ literal.decimalDigits.length

/-- How many decimals are kept. -/
def keptLength : Nat := (keptDecimals type literal.wholeDigits literal.decimalDigits).length

/-- What is kept of the mantissa. -/
def kept : Nat := keptNumber type literal.wholeDigits literal.decimalDigits

/-- The digits before the point are no more than the type has there. -/
def WholeFits : Prop := significant literal.wholeDigits ≤ type.width - type.scale

instance : Decidable (literal.WholeFits type) := inferInstanceAs (Decidable (_ ≤ _))

end Literal

variable {type literal}

theorem Literal.roundsTo_rounded :
    RoundsTo (literal.value * 10 ^ type.scale) (signed literal.sign.isMinus (literal.rounded type)) := by
  have hround := @roundsTo_halfUp (10 ^ (literal.decimalDigits.length + (-literal.exponentValue).toNat))
    (literal.mantissa * 10 ^ (type.scale + literal.exponentValue.toNat)) (by positivity)
  have hpower : (10 : ℚ) ^ (literal.exponentValue - literal.decimalDigits.length) * 10 ^ type.scale =
      10 ^ (type.scale + literal.exponentValue.toNat) /
        10 ^ (literal.decimalDigits.length + (-literal.exponentValue).toNat) := by
    rw [eq_div_iff (by positivity), ← zpow_natCast, ← zpow_natCast, ← zpow_natCast, ← zpow_add₀ (by norm_num),
      ← zpow_add₀ (by norm_num)]
    congr 1
    push_cast
    omega
  have hvalue : literal.value * 10 ^ type.scale = (signed literal.sign.isMinus literal.mantissa : ℚ) *
      (10 ^ (type.scale + literal.exponentValue.toNat) /
        10 ^ (literal.decimalDigits.length + (-literal.exponentValue).toNat)) := by
    rw [Literal.value, mul_assoc, hpower]
  push_cast at hround
  rw [mul_div_assoc] at hround
  rw [hvalue]
  cases literal.sign.isMinus with
  | true =>
    have := hround.neg
    simp only [signed, if_true]
    push_cast
    rwa [neg_mul]
  | false =>
    simp only [signed, Bool.false_eq_true, if_false]
    push_cast
    exact hround

theorem Literal.decimalDigits_lt : ∀ d ∈ literal.decimalDigits, d < 10 := values_lt

theorem Literal.wholeDigits_lt : ∀ d ∈ literal.wholeDigits, d < 10 := values_lt

theorem pow_width_lt_greatest : 10 ^ type.width < greatest type.internalType :=
  lt_of_le_of_lt (Nat.pow_le_pow_right (by decide) (width_le_maxWidth type)) pow_maxWidth_lt

theorem powerOfTen_width : type.internalType.powerOfTen type.width = .done (10 ^ type.width) := by
  refine if_pos ?_
  have := type.width_le
  rw [DecimalType.internalType]
  repeat' split
  all_goals first | omega | simp_all

theorem Literal.kept_le : literal.WholeFits type → literal.kept type ≤ greatest type.internalType := by
  intro hwidth
  have hmax := width_le_maxWidth type
  have hlength := @length_keptDecimals type literal.wholeDigits literal.decimalDigits
  have hlt := @number_kept_lt type _ _ literal.wholeDigits_lt literal.decimalDigits_lt
  have hroom : significant literal.wholeDigits ≤ type.width - type.scale := hwidth
  have hpow : 10 ^ (significant literal.wholeDigits +
      (keptDecimals type literal.wholeDigits literal.decimalDigits).length) ≤ 10 ^ maxWidth type.internalType :=
    Nat.pow_le_pow_right (by decide) (by omega)
  exact (lt_of_lt_of_le hlt (le_trans hpow pow_maxWidth_lt.le)).le

theorem Literal.cut_lt (hwidth : literal.WholeFits type) : literal.cut type < 10 ^ type.width := by
  have hscale := type.scale_le
  have hroom : significant literal.wholeDigits ≤ type.width - type.scale := hwidth
  have hwhole := number_lt_significant literal.wholeDigits_lt
  have hdecimals := number_lt literal.decimalDigits_lt
  have hpow : 10 ^ significant literal.wholeDigits * 10 ^ type.scale ≤ 10 ^ type.width := by
    rw [← pow_add]
    exact Nat.pow_le_pow_right (by decide) (by omega)
  have hmantissa : literal.mantissa < 10 ^ significant literal.wholeDigits * 10 ^ literal.decimalDigits.length := by
    rw [Literal.mantissa, number_append]
    calc number literal.wholeDigits * 10 ^ literal.decimalDigits.length + number literal.decimalDigits
        < number literal.wholeDigits * 10 ^ literal.decimalDigits.length + 10 ^ literal.decimalDigits.length :=
          Nat.add_lt_add_left hdecimals _
      _ = (number literal.wholeDigits + 1) * 10 ^ literal.decimalDigits.length := by ring
      _ ≤ _ := Nat.mul_le_mul_right _ hwhole
  rw [Literal.cut, Nat.div_lt_iff_lt_mul (by positivity)]
  calc literal.mantissa * 10 ^ type.scale
      < 10 ^ significant literal.wholeDigits * 10 ^ literal.decimalDigits.length * 10 ^ type.scale :=
        Nat.mul_lt_mul_of_pos_right hmantissa (by positivity)
    _ = 10 ^ significant literal.wholeDigits * 10 ^ type.scale * 10 ^ literal.decimalDigits.length := by ring
    _ ≤ _ := Nat.mul_le_mul_right _ hpow

theorem Literal.tryDecimalStringCast_text : tryDecimalStringCast type point literal.text =
    if literal.WholeFits type then
      orFail
        (match literal.exponent with
        | none => DecimalCast.finalize type.internalType literal.sign.isMinus
            (stateBehind type literal.sign.isMinus literal.wholeDigits literal.decimalDigits)
        | some e =>
          if IntegerType.smallint.Holds e.value then DecimalCast.handleExponent type.internalType literal.sign.isMinus
            (stateBehind type literal.sign.isMinus literal.wholeDigits literal.decimalDigits) e.value
          else .done none)
        fun state => .done (some state.result)
    else .done none := by
  have hinitial :
      { result := 0, width := type.width, scale := type.scale, digitCount := 0, decimalCount := 0, roundSet := false,
        shouldRound := false, excessiveDecimals := 0, exponentType := .none, limit := 10 ^ type.width } =
      stateBehind type literal.sign.isMinus [] [] := by
    rw [stateBehind_nil]
    cases literal.sign.isMinus <;> rfl
  have hconvert : type.internalType.convert (10 ^ type.width) = .done (10 ^ type.width) := by
    refine Storage.convert_done ?_
    simpa [signed] using @holds_signed type.internalType false _ pow_width_lt_greatest.le
  rw [tryDecimalStringCast, powerOfTen_width, done_bind, hconvert, done_bind]
  dsimp only
  rw [hinitial, literal.tryIntegerCast_text (.inr rfl), Literal.run]
  simp only [decimalCastOperation]
  rw [handleAll_handleDigit (by simp) literal.wholeDigits_lt (by simp [significant]), nil_append]
  by_cases hwidth : literal.WholeFits type
  · have hwidth' : significant literal.wholeDigits ≤ type.width - type.scale := hwidth
    rw [if_pos hwidth', if_pos hwidth, orFail_some,
      handleAll_handleDecimal literal.wholeDigits_lt hwidth' (by simp) literal.decimalDigits_lt, orFail_some,
      nil_append]
    cases literal.exponent with
    | none => rfl
    | some e => simp only [true_and]
  · have hwidth' : ¬ significant literal.wholeDigits ≤ type.width - type.scale := hwidth
    rw [if_neg hwidth', if_neg hwidth]
    rfl

theorem Literal.finalize_text (hwidth : literal.WholeFits type) (hexponent : literal.exponentValue = 0) :
    orFail (DecimalCast.finalize type.internalType literal.sign.isMinus
        (stateBehind type literal.sign.isMinus literal.wholeDigits literal.decimalDigits))
      (fun state => .done (some state.result)) =
      .done (if literal.rounded type < 10 ^ type.width then some (signed literal.sign.isMinus (literal.rounded type))
        else none) := by
  have hrounded : finalized (stateBehind type literal.sign.isMinus literal.wholeDigits literal.decimalDigits)
      (literal.kept type) = literal.rounded type := by
    rw [Literal.rounded, hexponent]
    exact finalized_none literal.decimalDigits_lt hwidth
  have hcut := literal.cut_lt hwidth
  have hle : literal.rounded type ≤ literal.cut type + 1 := by
    rw [Literal.rounded, hexponent, Literal.cut]
    exact halfUp_le _ (by positivity)
  have hgreatest := @pow_width_lt_greatest type
  have hfinal := @finalize_eq type.internalType literal.sign.isMinus
    (stateBehind type literal.sign.isMinus literal.wholeDigits literal.decimalDigits) (literal.kept type) type.width rfl
    (literal.kept_le hwidth) rfl hgreatest.le (by rw [hrounded]; omega)
  rw [hfinal, hrounded]
  by_cases hfits : literal.rounded type < 10 ^ type.width
  · rw [if_pos hfits, if_pos hfits]
    rfl
  · rw [if_neg hfits, if_neg hfits]
    rfl

theorem Literal.rounded_negative {count : Nat} (hcount : (-literal.exponentValue).toNat = count + 1) :
    literal.rounded type = halfUp (literal.cut type) (10 ^ (count + 1)) := by
  have hpow : 10 ^ (literal.decimalDigits.length + (count + 1)) =
      10 ^ literal.decimalDigits.length * (2 * (5 * 10 ^ count)) := by
    rw [pow_add, two_mul_five_pow]
  rw [rounded, cut, hcount, Int.toNat_of_nonpos (by omega), add_zero, two_mul_five_pow count,
    halfUp_div _ (by positivity), hpow]

theorem handleExponent_zero {t : Storage} {negative : Bool} {state : DecimalCastData} :
    DecimalCast.handleExponent t negative state 0 = DecimalCast.finalize t negative state := by
  rw [DecimalCast.handleExponent]
  simp only [lt_irrefl, if_false, gt_iff_lt, Int.toNat_zero, DecimalCast.handleZeros]
  cases DecimalCast.finalize t negative state with
  | done result => cases result <;> rfl
  | error message => rfl
  | fault => rfl
  | hang => rfl

theorem Literal.handleExponent_negative (hwidth : literal.WholeFits type) (hexponent : literal.exponentValue < 0) :
    orFail (DecimalCast.handleExponent type.internalType literal.sign.isMinus
        (stateBehind type literal.sign.isMinus literal.wholeDigits literal.decimalDigits) literal.exponentValue)
      (fun state => .done (some state.result)) =
      .done (some (signed literal.sign.isMinus
        (if EndsEarly (literal.cut type) (-literal.exponentValue).toNat then 1 else literal.rounded type))) := by
  obtain ⟨count, hcount⟩ : ∃ count, (-literal.exponentValue).toNat = count + 1 := ⟨_, (succ_pred (by omega)).symm⟩
  have hcut := literal.cut_lt hwidth
  have hgreatest := @pow_width_lt_greatest type
  have hfinalized : finalized { stateBehind type literal.sign.isMinus literal.wholeDigits literal.decimalDigits with
      exponentType := .negative } (literal.kept type) = literal.cut type := finalized_negative literal.decimalDigits_lt hwidth
  have hfinal := @finalize_eq type.internalType literal.sign.isMinus
    { stateBehind type literal.sign.isMinus literal.wholeDigits literal.decimalDigits with exponentType := .negative }
    (literal.kept type) type.width rfl (literal.kept_le hwidth) rfl hgreatest.le (by rw [hfinalized]; omega)
  obtain ⟨r, up, hdrop, hr, hearly, hround⟩ :=
    @dropDigits_stop type.internalType literal.sign.isMinus count (literal.cut type) false (by omega)
  have hten := @ten_le_greatest type.internalType
  rw [DecimalCast.handleExponent, if_neg (by omega), if_pos hexponent]
  dsimp only
  rw [hfinal, hfinalized, if_pos hcut, orFail_some, if_pos hexponent, hcount, rounded_negative hcount]
  dsimp only
  rw [hdrop, done_bind]
  dsimp only
  have hfinish : (if up then DecimalCast.roundUpResult type.internalType literal.sign.isMinus (signed literal.sign.isMinus r)
      else .done (signed literal.sign.isMinus r)) = .done (signed literal.sign.isMinus (r + up.toNat)) := by
    cases up with
    | true => rw [if_pos rfl, roundUpResult_eq (by omega), Bool.toNat_true]
    | false => rw [if_neg (by decide), Bool.toNat_false, add_zero]
  rw [hfinish, done_bind]
  by_cases hends : EndsEarly (literal.cut type) (count + 1)
  · rw [hearly hends, if_pos hends]
    rfl
  · rw [hround hends, if_neg hends]
    rfl

/-! ## Positive exponents -/

namespace Literal

variable (type literal)

/-- What is left of a positive exponent for zeros to be appended. -/
def zeros : Nat := literal.exponentValue.toNat - (literal.keptLength type - type.scale)

/-- The kept number with zeros appended. -/
def appended : Nat := literal.kept type * 10 ^ (type.scale - literal.keptLength type) * 10 ^ literal.zeros type

/-- The cast gets to append the zeros. -/
def Appends : Prop :=
  literal.kept type * 10 ^ (type.scale - literal.keptLength type) < 10 ^ type.width ∧
    (literal.kept type = 0 ∨
      significant literal.wholeDigits + literal.zeros type ≤ type.width - type.scale ∧
        literal.appended type ≤ greatest type.internalType)

instance : Decidable (literal.Appends type) := inferInstanceAs (Decidable (_ ∧ _))

variable {type literal}

theorem kept_scaled_le (hwidth : literal.WholeFits type) :
    literal.kept type * 10 ^ (type.scale - literal.keptLength type) ≤ greatest type.internalType := by
  rcases Nat.le_total type.scale (literal.keptLength type) with h | h
  · rw [Nat.sub_eq_zero_of_le h, pow_zero, Nat.mul_one]
    exact literal.kept_le hwidth
  · have hzero : literal.keptLength type - type.scale = 0 := Nat.sub_eq_zero_of_le h
    have hscaled : literal.kept type / 10 ^ (literal.keptLength type - type.scale) *
        10 ^ (type.scale - literal.keptLength type) = literal.cut type := scaled_eq literal.decimalDigits_lt hwidth
    rw [hzero, pow_zero, Nat.div_one] at hscaled
    rw [hscaled]
    exact (lt_trans (literal.cut_lt hwidth) pow_width_lt_greatest).le

theorem keptLength_le : literal.keptLength type ≤ literal.decimalDigits.length := by
  rw [keptLength, length_keptDecimals]
  exact min_le_right _ _

theorem decimalExcess_eq : (if (stateBehind type literal.sign.isMinus literal.wholeDigits literal.decimalDigits).decimalCount >
      (stateBehind type literal.sign.isMinus literal.wholeDigits literal.decimalDigits).scale then
        (stateBehind type literal.sign.isMinus literal.wholeDigits literal.decimalDigits).decimalCount -
          (stateBehind type literal.sign.isMinus literal.wholeDigits literal.decimalDigits).scale
      else 0) = literal.keptLength type - type.scale := by
  show (if literal.keptLength type > type.scale then literal.keptLength type - type.scale else 0) = _
  split <;> omega

theorem handleExponent_rounds (hwidth : literal.WholeFits type) (hexponent : literal.exponentValue > 0)
    (hexcess : literal.exponentValue.toNat < literal.keptLength type - type.scale) :
    orFail (DecimalCast.handleExponent type.internalType literal.sign.isMinus
        (stateBehind type literal.sign.isMinus literal.wholeDigits literal.decimalDigits) literal.exponentValue)
      (fun state => .done (some state.result)) =
      .done (if literal.rounded type < 10 ^ type.width then some (signed literal.sign.isMinus (literal.rounded type))
        else none) := by
  obtain ⟨count, hcount⟩ : ∃ count, literal.keptLength type - type.scale - literal.exponentValue.toNat = count + 1 :=
    ⟨_, (Nat.succ_pred (by omega)).symm⟩
  have hle := @keptLength_le type literal
  have hfinalized : finalized { stateBehind type literal.sign.isMinus literal.wholeDigits literal.decimalDigits with
      exponentType := .positive, excessiveDecimals := count + 1 } (literal.kept type) = literal.rounded type := by
    have hpow : 10 ^ (literal.decimalDigits.length + (-literal.exponentValue).toNat) =
        10 ^ (literal.decimalDigits.length - literal.keptLength type) * (2 * (5 * 10 ^ count)) *
          10 ^ (type.scale + literal.exponentValue.toNat) := by
      rw [← two_mul_five_pow, ← pow_add, ← pow_add]
      congr 1
      omega
    have hkept : literal.kept type = literal.mantissa / 10 ^ (literal.decimalDigits.length - literal.keptLength type) :=
      keptNumber_eq literal.decimalDigits_lt
    rw [kept, finalized_positive, if_pos (Nat.succ_ne_zero count), Nat.sub_self, pow_zero, Nat.mul_one, rounded, hpow,
      halfUp_mul_right _ _ (by positivity), ← halfUp_div _ (by positivity), ← hkept, two_mul_five_pow, kept]
  have hsmall : literal.rounded type ≤ greatest type.internalType := by
    have hten := @ten_le_greatest type.internalType
    have hkept := literal.kept_le hwidth
    have hle := halfUp_le (literal.kept type) (show 0 < 10 ^ (count + 1) by positivity)
    have hdiv : literal.kept type / 10 ^ (count + 1) ≤ literal.kept type / 10 := by
      rw [pow_succ', ← Nat.div_div_eq_div_mul]
      exact Nat.div_le_self _ _
    rw [← hfinalized, kept, finalized_positive, if_pos (Nat.succ_ne_zero count), Nat.sub_self, pow_zero, Nat.mul_one]
    rw [kept] at hkept hle hdiv
    omega
  have hfinal := @finalize_eq type.internalType literal.sign.isMinus
    { stateBehind type literal.sign.isMinus literal.wholeDigits literal.decimalDigits with
      exponentType := .positive, excessiveDecimals := count + 1 }
    (literal.kept type) type.width rfl (literal.kept_le hwidth) rfl pow_width_lt_greatest.le (by rw [hfinalized]; exact hsmall)
  have hmore : ((literal.keptLength type - type.scale : Nat) : Int) > literal.exponentValue := by omega
  have hnumber : (((literal.keptLength type - type.scale : Nat) : Int) - literal.exponentValue).toNat = count + 1 := by omega
  rw [DecimalCast.handleExponent, if_pos hexponent, decimalExcess_eq, if_pos hmore, hnumber]
  dsimp only
  rw [hfinal, hfinalized]
  by_cases hfits : literal.rounded type < 10 ^ type.width
  · rw [if_pos hfits, if_pos hfits]
    rfl
  · rw [if_neg hfits, if_neg hfits]
    rfl

theorem handleExponent_appends (hwidth : literal.WholeFits type) (hexponent : literal.exponentValue > 0)
    (hexcess : literal.keptLength type - type.scale ≤ literal.exponentValue.toNat) :
    orFail (DecimalCast.handleExponent type.internalType literal.sign.isMinus
        (stateBehind type literal.sign.isMinus literal.wholeDigits literal.decimalDigits) literal.exponentValue)
      (fun state => .done (some state.result)) =
      .done (if literal.Appends type then some (signed literal.sign.isMinus (literal.appended type)) else none) := by
  have hfinalized : finalized { stateBehind type literal.sign.isMinus literal.wholeDigits literal.decimalDigits with
      exponentType := .positive } (literal.kept type) =
        literal.kept type * 10 ^ (type.scale - literal.keptLength type) := by
    have hpositive := @finalized_positive type literal.wholeDigits literal.decimalDigits literal.sign.isMinus 0
    rw [if_neg (by simp), pow_zero, halfUp_one] at hpositive
    exact hpositive
  have hle := kept_scaled_le hwidth
  have hfinal := @finalize_eq type.internalType literal.sign.isMinus
    { stateBehind type literal.sign.isMinus literal.wholeDigits literal.decimalDigits with exponentType := .positive }
    (literal.kept type) type.width rfl (literal.kept_le hwidth) rfl pow_width_lt_greatest.le (by rw [hfinalized]; exact hle)
  have hless : ¬ ((literal.keptLength type - type.scale : Nat) : Int) > literal.exponentValue := by omega
  have hzeros : (literal.exponentValue - (literal.keptLength type - type.scale : Nat)).toNat = literal.zeros type := by
    rw [zeros]
    omega
  have hnonneg : ¬ literal.exponentValue - (literal.keptLength type - type.scale : Nat) < 0 := by omega
  rw [DecimalCast.handleExponent, if_pos hexponent, decimalExcess_eq, if_neg hless]
  dsimp only
  by_cases hfits : literal.kept type * 10 ^ (type.scale - literal.keptLength type) < 10 ^ type.width
  · obtain ⟨state, hstate, hresult, hcount, hroom⟩ : ∃ state, DecimalCast.finalize type.internalType literal.sign.isMinus
        { stateBehind type literal.sign.isMinus literal.wholeDigits literal.decimalDigits with exponentType := .positive } =
          .done (some state) ∧
        state.result = signed literal.sign.isMinus (literal.kept type * 10 ^ (type.scale - literal.keptLength type)) ∧
          state.digitCount = significant literal.wholeDigits ∧ state.width - state.scale = type.width - type.scale :=
      ⟨_, by rw [hfinal, hfinalized, if_pos hfits], rfl, rfl, rfl⟩
    obtain ⟨state', heq, hresult'⟩ := @handleZeros_eq _ _ (literal.zeros type) _ _ hresult hle (by rw [hcount, hroom]; exact hwidth)
    have hzero : literal.kept type * 10 ^ (type.scale - literal.keptLength type) = 0 ↔ literal.kept type = 0 := by simp
    have happends : literal.Appends type ↔ literal.kept type * 10 ^ (type.scale - literal.keptLength type) = 0 ∨
        significant literal.wholeDigits + literal.zeros type ≤ type.width - type.scale ∧
          literal.kept type * 10 ^ (type.scale - literal.keptLength type) * 10 ^ literal.zeros type ≤
            greatest type.internalType := by
      rw [hzero]
      exact and_iff_right hfits
    rw [hcount, hroom] at heq
    rw [hstate, orFail_some, if_neg hnonneg, hzeros, heq]
    by_cases h : literal.Appends type
    · rw [if_pos h, if_pos (happends.1 h), orFail_some, hresult', appended]
    · rw [if_neg h, if_neg (happends.not.1 h), orFail_none]
  · rw [hfinal, hfinalized, if_neg hfits, if_neg fun h => hfits h.1]
    rfl

end Literal

/-! ## Which casts are right -/

variable (type literal)

/-- `TryDecimalStringCast` does right by a literal: it ends, what it returns is the value at the scale of the type, rounded,
with no more digits than the type has, and a literal without an exponent whose rounded value fits is accepted. -/
structure CastRight : Prop where
  ends : ∃ result, tryDecimalStringCast type point literal.text = .done result
  exact : ∀ v, tryDecimalStringCast type point literal.text = .done (some v) →
    RoundsTo (literal.value * 10 ^ type.scale) v ∧ |v| < 10 ^ type.width
  accepts : literal.exponent = none → ∀ v, RoundsTo (literal.value * 10 ^ type.scale) v → |v| < 10 ^ type.width →
    tryDecimalStringCast type point literal.text = .done (some v)

/-- The exponent of a literal does no harm. -/
structure Literal.Harmless : Prop where
  /-- A loop that drops digits for a negative exponent does not end early. -/
  drops : literal.exponentValue < 0 → ¬ EndsEarly (literal.cut type) (-literal.exponentValue).toNat
  /-- If zeros are appended for a positive exponent, then not past the width, and the decimals that were not kept do not
  count. -/
  appends : 0 < literal.exponentValue → literal.keptLength type - type.scale ≤ literal.exponentValue.toNat →
    literal.Appends type → literal.appended type < 10 ^ type.width ∧
      2 * (literal.mantissa % 10 ^ (literal.decimalDigits.length - literal.keptLength type)) *
          10 ^ (type.scale + literal.exponentValue.toNat - literal.keptLength type) <
        10 ^ (literal.decimalDigits.length - literal.keptLength type)

variable {type literal}

theorem abs_signed_lt {negative : Bool} {n bound : Nat} : |signed negative n| < (bound : Int) ↔ n < bound := by
  rw [Int.abs_eq_natAbs, natAbs_signed]
  exact Int.ofNat_lt

theorem castRight_iff_of_done {p : Prop} [Decidable p] {n : Nat} (hcast : tryDecimalStringCast type point literal.text =
    .done (if p then some (signed literal.sign.isMinus n) else none)) :
    CastRight type literal ↔ (p → n = literal.rounded type ∧ n < 10 ^ type.width) ∧
      (literal.exponent = none → literal.rounded type < 10 ^ type.width → p) := by
  have hrounded := @Literal.roundsTo_rounded type literal
  have hpow : ((10 ^ type.width : Nat) : Int) = 10 ^ type.width := by push_cast; rfl
  constructor
  · rintro ⟨-, hexact, haccepts⟩
    refine ⟨fun hp => ?_, fun hnone hfits => ?_⟩
    · obtain ⟨hround, hlt⟩ := hexact _ (hcast.trans (by rw [if_pos hp]))
      have heq := hround.unique hrounded
      rw [← hpow, abs_signed_lt] at hlt
      exact ⟨by rw [← @natAbs_signed literal.sign.isMinus n, heq, natAbs_signed], hlt⟩
    · have hsome := haccepts hnone _ hrounded (by rw [← hpow, abs_signed_lt]; exact hfits)
      rw [hcast] at hsome
      by_contra hp
      rw [if_neg hp] at hsome
      cases hsome
  · rintro ⟨hexact, haccepts⟩
    refine ⟨⟨_, hcast⟩, fun v hv => ?_, fun hnone v hv hlt => ?_⟩
    · rw [hcast] at hv
      by_cases hp : p
      · rw [if_pos hp] at hv
        cases hv
        obtain ⟨heq, hlt⟩ := hexact hp
        rw [← hpow, abs_signed_lt]
        exact ⟨heq ▸ hrounded, hlt⟩
      · rw [if_neg hp] at hv
        cases hv
    · obtain rfl := hv.unique hrounded
      rw [← hpow, abs_signed_lt] at hlt
      have hp := haccepts hnone hlt
      rw [hcast, if_pos hp, (hexact hp).1]

theorem Literal.le_rounded (hwidth : ¬ literal.WholeFits type) (hexponent : literal.exponentValue = 0) :
    10 ^ type.width ≤ literal.rounded type := by
  have hroom : ¬ significant literal.wholeDigits ≤ type.width - type.scale := hwidth
  have hscale := type.scale_le
  have hwhole := pow_significant_le (show significant literal.wholeDigits ≠ 0 by omega)
  have hpow : 10 ^ (type.width - type.scale) ≤ number literal.wholeDigits :=
    le_trans (Nat.pow_le_pow_right (by decide) (by omega)) hwhole
  rw [rounded, hexponent]
  refine le_trans ?_ (div_le_halfUp _ (by positivity))
  rw [Nat.le_div_iff_mul_le (by positivity), mantissa, number_append]
  simp only [Int.toNat_zero, neg_zero, Nat.add_zero]
  calc 10 ^ type.width * 10 ^ literal.decimalDigits.length
      = 10 ^ (type.width - type.scale) * 10 ^ literal.decimalDigits.length * 10 ^ type.scale := by
        rw [← pow_add, ← pow_add, ← pow_add]
        congr 1
        omega
    _ ≤ number literal.wholeDigits * 10 ^ literal.decimalDigits.length * 10 ^ type.scale :=
        Nat.mul_le_mul_right _ (Nat.mul_le_mul_right _ hpow)
    _ ≤ _ := Nat.mul_le_mul_right _ (Nat.le_add_right _ _)

theorem Literal.appended_eq_rounded_iff (hexponent : 0 ≤ literal.exponentValue)
    (hexcess : literal.keptLength type - type.scale ≤ literal.exponentValue.toNat) :
    literal.appended type = literal.rounded type ↔
      2 * (literal.mantissa % 10 ^ (literal.decimalDigits.length - literal.keptLength type)) *
          10 ^ (type.scale + literal.exponentValue.toNat - literal.keptLength type) <
        10 ^ (literal.decimalDigits.length - literal.keptLength type) := by
  have hle := @keptLength_le type literal
  have hkept : literal.kept type = literal.mantissa / 10 ^ (literal.decimalDigits.length - literal.keptLength type) :=
    keptNumber_eq literal.decimalDigits_lt
  have happended : literal.appended type = literal.kept type *
      10 ^ (type.scale + literal.exponentValue.toNat - literal.keptLength type) := by
    rw [appended, zeros, mul_assoc, ← pow_add]
    congr 2
    omega
  have hnumerator : 10 ^ (type.scale + literal.exponentValue.toNat) =
      10 ^ (type.scale + literal.exponentValue.toNat - literal.keptLength type) * 10 ^ literal.keptLength type := by
    rw [← pow_add]
    congr 1
    omega
  have hdenominator : 10 ^ (literal.decimalDigits.length + (-literal.exponentValue).toNat) =
      10 ^ (literal.decimalDigits.length - literal.keptLength type) * 10 ^ literal.keptLength type := by
    rw [← pow_add]
    congr 1
    omega
  rw [happended, rounded, hnumerator, hdenominator, ← mul_assoc, halfUp_mul_right _ _ (by positivity), hkept]
  generalize 10 ^ (type.scale + literal.exponentValue.toNat - literal.keptLength type) = zeros
  have hpos : 0 < 10 ^ (literal.decimalDigits.length - literal.keptLength type) := by positivity
  generalize 10 ^ (literal.decimalDigits.length - literal.keptLength type) = d at hpos ⊢
  have hsplit : literal.mantissa * zeros = literal.mantissa % d * zeros + literal.mantissa / d * zeros * d := by
    calc literal.mantissa * zeros = (literal.mantissa % d + literal.mantissa / d * d) * zeros := by
          rw [mod_add_div']
      _ = _ := by ring
  rw [hsplit, halfUp_add_mul _ _ hpos, eq_comm, add_eq_right, halfUp_eq_zero_iff hpos, mul_assoc]

theorem Literal.rounded_lt_of_negative (hwidth : literal.WholeFits type) (hexponent : literal.exponentValue < 0) :
    literal.rounded type < 10 ^ type.width := by
  obtain ⟨count, hcount⟩ : ∃ count, (-literal.exponentValue).toNat = count + 1 := ⟨_, (Nat.succ_pred (by omega)).symm⟩
  have hcut := literal.cut_lt hwidth
  have hle := halfUp_le (literal.cut type) (show 0 < 10 ^ (count + 1) by positivity)
  have hdiv : literal.cut type / 10 ^ (count + 1) ≤ literal.cut type / 10 := by
    rw [pow_succ', ← Nat.div_div_eq_div_mul]
    exact Nat.div_le_self _ _
  have hten : 10 ≤ 10 ^ type.width := Nat.le_self_pow (by have := type.one_le; omega) 10
  rw [rounded_negative hcount]
  omega

theorem Literal.rounded_eq_zero_of_endsEarly (hearly : EndsEarly (literal.cut type) (-literal.exponentValue).toNat) :
    literal.rounded type = 0 := by
  obtain ⟨i, hi, -, hlt⟩ := hearly
  obtain ⟨count, hcount⟩ : ∃ count, (-literal.exponentValue).toNat = count + 1 := ⟨_, (Nat.succ_pred (by omega)).symm⟩
  have hpow : 10 ^ (i + 1) ≤ 10 ^ count := Nat.pow_le_pow_right (by decide) (by omega)
  rw [rounded_negative hcount, halfUp_eq_zero_iff (by positivity), pow_succ]
  omega

theorem castRight_iff : CastRight type literal ↔
    (literal.WholeFits type → IntegerType.smallint.Holds literal.exponentValue → literal.Harmless type) := by
  have htext := @Literal.tryDecimalStringCast_text type literal
  have hnone : literal.exponent = none → literal.exponentValue = 0 := fun h => by rw [Literal.exponentValue, h]; rfl
  by_cases hwidth : literal.WholeFits type
  swap
  · rw [if_neg hwidth] at htext
    rw [castRight_iff_of_done (p := False) (n := 0) (by rw [htext, if_neg not_false])]
    refine iff_of_true ⟨False.elim, fun hexponent hfits => ?_⟩ fun h => absurd h hwidth
    have := literal.le_rounded hwidth (hnone hexponent)
    omega
  rw [if_pos hwidth] at htext
  rw [forall_prop_of_true hwidth]
  cases hexponent : literal.exponent with
  | none =>
    have hzero := hnone hexponent
    rw [hexponent] at htext
    dsimp only at htext
    rw [literal.finalize_text hwidth hzero] at htext
    rw [castRight_iff_of_done htext]
    exact iff_of_true ⟨fun h => ⟨rfl, h⟩, fun _ h => h⟩ fun _ => ⟨fun h => absurd h (by omega), fun h => absurd h (by omega)⟩
  | some e =>
    have hvalue : e.value = literal.exponentValue := by rw [Literal.exponentValue, hexponent]; rfl
    have hsome : literal.exponent ≠ none := by rw [hexponent]; exact Option.some_ne_none e
    rw [hexponent] at htext
    dsimp only at htext
    rw [hvalue] at htext
    by_cases hholds : IntegerType.smallint.Holds literal.exponentValue
    swap
    · rw [if_neg hholds] at htext
      rw [castRight_iff_of_done (p := False) (n := 0) (by rw [htext, if_neg not_false]; rfl)]
      exact iff_of_true ⟨False.elim, fun h => absurd h hsome⟩ fun h => absurd h hholds
    rw [if_pos hholds] at htext
    rw [forall_prop_of_true hholds]
    rcases lt_trichotomy literal.exponentValue 0 with hneg | hzero | hpos
    · -- the digits are dropped one by one
      rw [literal.handleExponent_negative hwidth hneg] at htext
      rw [castRight_iff_of_done (p := True) (htext.trans (by rw [if_pos trivial]))]
      have hlt := literal.rounded_lt_of_negative hwidth hneg
      constructor
      · rintro ⟨hright, -⟩
        refine ⟨fun _ hearly => ?_, fun h => absurd h (by omega)⟩
        have := (hright trivial).1
        rw [if_pos hearly, literal.rounded_eq_zero_of_endsEarly hearly] at this
        exact absurd this (by decide)
      · rintro ⟨hdrops, -⟩
        rw [if_neg (hdrops hneg)]
        exact ⟨fun _ => ⟨rfl, hlt⟩, fun _ _ => trivial⟩
    · rw [hzero, handleExponent_zero, literal.finalize_text hwidth hzero] at htext
      rw [castRight_iff_of_done htext]
      exact iff_of_true ⟨fun h => ⟨rfl, h⟩, fun _ h => h⟩ ⟨fun h => absurd h (by omega), fun h => absurd h (by omega)⟩
    · rcases lt_or_ge literal.exponentValue.toNat (literal.keptLength type - type.scale) with hexcess | hexcess
      · rw [literal.handleExponent_rounds hwidth hpos hexcess] at htext
        rw [castRight_iff_of_done htext]
        exact iff_of_true ⟨fun h => ⟨rfl, h⟩, fun _ h => h⟩ ⟨fun h => absurd h (by omega), fun _ h => absurd h (by omega)⟩
      · rw [literal.handleExponent_appends hwidth hpos hexcess] at htext
        rw [castRight_iff_of_done htext, literal.appended_eq_rounded_iff hpos.le hexcess]
        constructor
        · rintro ⟨hright, -⟩
          exact ⟨fun h => absurd h (by omega), fun _ _ h => (hright h).symm⟩
        · rintro ⟨-, happends⟩
          exact ⟨fun h => (happends hpos hexcess h).symm, fun h => absurd h hsome⟩

end Cast

end Haybarn.Cast
