/-
The storage lock under any interleaving of its calls: a mutex and a count of readers, with the one way around their exclusion that
checkpoints need. A call takes several steps on the two, and other calls go on between them.
-/
import Haybarn.Lib.Run
import Mathlib.Data.List.Nodup
import Mathlib.Tactic.Common

namespace Haybarn.Transaction

open List

/-! ## Keys and calls -/

inductive StorageLockType where
  | shared
  | exclusive
  deriving DecidableEq

/-- A key that is out. `upgraded` is the shared key that it was made with, for the record: no call reads it. -/
structure StorageLockKey where
  id : Nat
  type : StorageLockType
  upgraded : Option Nat := none
  deriving DecidableEq

/-- Where a call stands that has not returned: `GetExclusiveLock` in its loop, `GetSharedLock` before and after `read_count++` and
behind `unlock`, the two others before they look at `read_count`, and before `unlock` if they fail. -/
inductive LockCall where
  | spinning
  | sharing
  | counted
  | returning
  | trying
  | upgrading (key : Nat)
  | failing
  deriving DecidableEq

namespace LockCall

def holdsMutex : LockCall → Bool
  | returning => false
  | _ => true

/-- The call has counted its key, which is not made yet. -/
def isCounted : LockCall → Bool
  | counted | returning => true
  | _ => false

end LockCall

/-! ## The lock -/

/-- `StorageLockInternals`, with the keys that are out and the calls of all threads. -/
structure StorageLockInternals where
  exclusiveLock : Bool := false
  readCount : Nat := 0
  keys : List StorageLockKey := []
  calls : List LockCall := []
  nextKey : Nat := 0

namespace StorageLockInternals

/-- A call is made that locks the mutex. Where it is locked, `lock` waits and `try_lock` fails. -/
def enter (s : StorageLockInternals) (call : LockCall) : StorageLockInternals :=
  if s.exclusiveLock then s else { s with exclusiveLock := true, calls := call :: s.calls }

/-- The call goes on to another point. -/
def move (s : StorageLockInternals) (call next : LockCall) : StorageLockInternals :=
  { s with calls := next :: s.calls.erase call }

/-- The call returns a key. -/
def giveKey (s : StorageLockInternals) (call : LockCall) (type : StorageLockType) (upgraded : Option Nat := none) :
    StorageLockInternals :=
  { s with calls := s.calls.erase call, keys := ⟨s.nextKey, type, upgraded⟩ :: s.keys, nextKey := s.nextKey + 1 }

/-- The next step of a call. -/
def resume (s : StorageLockInternals) : LockCall → StorageLockInternals
  | .spinning => if s.readCount ≠ 0 then s else s.giveKey .spinning .exclusive
  | .sharing => { s with readCount := s.readCount + 1 }.move .sharing .counted
  | .counted => { s with exclusiveLock := false }.move .counted .returning
  | .returning => s.giveKey .returning .shared
  | .trying => if s.readCount ≠ 0 then s.move .trying .failing else s.giveKey .trying .exclusive
  | .upgrading key =>
    if s.readCount ≠ 1 then s.move (.upgrading key) .failing else s.giveKey (.upgrading key) .exclusive (some key)
  | .failing => { s with exclusiveLock := false, calls := s.calls.erase .failing }

/-- `~StorageLockKey`. -/
def release (s : StorageLockInternals) (key : StorageLockKey) : StorageLockInternals :=
  let s' := { s with keys := s.keys.erase key }
  match key.type with
  | .exclusive => { s' with exclusiveLock := false }
  | .shared => { s' with readCount := s.readCount - 1 }

inductive Op where
  | getExclusiveLock
  | getSharedLock
  | tryGetExclusiveLock
  | tryUpgradeCheckpointLock (lock : StorageLockKey)
  | resume (call : LockCall)
  | release (key : StorageLockKey)

def step (s : StorageLockInternals) : Op → StorageLockInternals
  | .getExclusiveLock => s.enter .spinning
  | .getSharedLock => s.enter .sharing
  | .tryGetExclusiveLock => s.enter .trying
  | .tryUpgradeCheckpointLock lock => if lock.type ≠ .shared then s else s.enter (.upgrading lock.id)
  | .resume call => s.resume call
  | .release key => s.release key

/-- Calls are made with keys that are out, and a key is not given back while a call upgrades it. -/
def Allowed (s : StorageLockInternals) : Op → Prop
  | .tryUpgradeCheckpointLock lock => lock ∈ s.keys
  | .resume call => call ∈ s.calls
  | .release key => key ∈ s.keys ∧ .upgrading key.id ∉ s.calls
  | .getExclusiveLock | .getSharedLock | .tryGetExclusiveLock => True

instance : ∀ (s : StorageLockInternals) (op : Op), Decidable (s.Allowed op)
  | s, .tryUpgradeCheckpointLock lock => inferInstanceAs (Decidable (lock ∈ s.keys))
  | s, .resume call => inferInstanceAs (Decidable (call ∈ s.calls))
  | s, .release key => inferInstanceAs (Decidable (key ∈ s.keys ∧ .upgrading key.id ∉ s.calls))
  | _, .getExclusiveLock | _, .getSharedLock | _, .tryGetExclusiveLock => .isTrue trivial

/-! ## The invariant -/

def keysOf (s : StorageLockInternals) (type : StorageLockType) : Nat := s.keys.countP (·.type = type)

/-- The calls that hold the mutex. -/
def holding (s : StorageLockInternals) : Nat := s.calls.countP (·.holdsMutex)

/-- The calls that have counted a key. -/
def counting (s : StorageLockInternals) : Nat := s.calls.countP (·.isCounted)

/-- One key or one call holds the mutex if it is locked, every shared key is counted once, and an exclusive key has no other key
beside it but the one that it was made with. -/
structure Inv (s : StorageLockInternals) : Prop where
  mutex : s.keysOf .exclusive + s.holding = if s.exclusiveLock then 1 else 0
  readCount : s.readCount = s.keysOf .shared + s.counting
  ids : (s.keys.map (·.id)).Nodup
  fresh : ∀ key ∈ s.keys, key.id < s.nextKey
  upgrading : ∀ id, .upgrading id ∈ s.calls → ∃ key ∈ s.keys, key.id = id ∧ key.type = .shared
  excluded : ∀ x ∈ s.keys, x.type = .exclusive → s.counting = 0 ∧
    ∀ key ∈ s.keys, key.type = .shared → x.upgraded = some key.id

variable {s : StorageLockInternals} {call : LockCall} {key : StorageLockKey}

theorem countP_erase_add {α : Type} [DecidableEq α] {l : List α} {a : α} (h : a ∈ l) (p : α → Bool) :
    (l.erase a).countP p + (if p a then 1 else 0) = l.countP p := by
  rw [(perm_cons_erase h).countP_eq, countP_cons]

theorem keysOf_pos {type : StorageLockType} (hkey : key ∈ s.keys) (ht : key.type = type) : 0 < s.keysOf type :=
  countP_pos_iff.2 ⟨key, hkey, decide_eq_true ht⟩

theorem Inv.init : Inv {} := by
  constructor <;> simp [keysOf, holding, counting]

/-- Who holds the mutex keeps all others from it. -/
theorem Inv.holder (h : s.Inv) (hc : call ∈ s.calls) (hm : call.holdsMutex = true) :
    s.exclusiveLock = true ∧ s.keysOf .exclusive = 0 ∧ (s.calls.erase call).countP (·.holdsMutex) = 0 := by
  have hmutex := h.mutex
  have herase : _ = s.holding := countP_erase_add hc (·.holdsMutex)
  rw [if_pos hm] at herase
  split at hmutex
  · exact ⟨‹_›, by omega, by omega⟩
  · omega

theorem not_exclusive (hnone : s.keysOf .exclusive = 0) (hkey : key ∈ s.keys) : key.type ≠ .exclusive := fun ht =>
  Nat.ne_of_gt (keysOf_pos hkey ht) hnone

/-- With one reader, the shared key that is upgraded is the only one. -/
theorem Inv.only_shared (h : s.Inv) (hone : s.readCount = 1) {id : Nat} (hc : .upgrading id ∈ s.calls) :
    s.counting = 0 ∧ ∀ key ∈ s.keys, key.type = .shared → key.id = id := by
  have hcount := h.readCount
  obtain ⟨own, hown, rfl, ht⟩ := h.upgrading id hc
  have hshared : _ = s.keysOf .shared := countP_erase_add hown (·.type = .shared)
  rw [if_pos (decide_eq_true ht)] at hshared
  refine ⟨by omega, fun key hkey htype => ?_⟩
  by_contra hne
  have hrest : key ∈ s.keys.erase own := (mem_erase_of_ne fun heq => hne (congrArg _ heq)).2 hkey
  have : 0 < (s.keys.erase own).countP (·.type = .shared) := countP_pos_iff.2 ⟨key, hrest, decide_eq_true htype⟩
  omega

/-! ## Each step keeps it -/

theorem Inv.enter (h : s.Inv) (hm : call.holdsMutex = true) (hc : call.isCounted = false)
    (hkey : ∀ id, call = .upgrading id → ∃ key ∈ s.keys, key.id = id ∧ key.type = .shared) : (s.enter call).Inv := by
  unfold StorageLockInternals.enter
  split
  · exact h
  · rename_i hfree
    have hmutex := h.mutex
    rw [if_neg hfree] at hmutex
    have hnone : s.keysOf .exclusive = 0 := by omega
    have hfree : s.holding = 0 := by omega
    refine ⟨?_, ?_, h.ids, h.fresh, fun id hid => ?_, fun x hx ht => absurd ht (not_exclusive hnone hx)⟩
    · show s.keysOf .exclusive + (call :: s.calls).countP (·.holdsMutex) = 1
      rw [countP_cons, if_pos hm, hnone, ← holding, hfree]
    · refine h.readCount.trans ?_
      simp only [counting, keysOf]
      rw [countP_cons, hc]
      rfl
    · rcases mem_cons.1 hid with rfl | hid
      · exact hkey id rfl
      · exact h.upgrading id hid

/-- A call that holds the mutex goes on, and may count a reader or unlock the mutex. -/
theorem Inv.move (h : s.Inv) (hc : call ∈ s.calls) (hm : call.holdsMutex = true) (next : LockCall) (count : Nat)
    (hcount : count + (if call.isCounted then 1 else 0) = s.readCount + if next.isCounted then 1 else 0)
    (hnext : ∀ id, next ≠ .upgrading id) :
    ({ s with exclusiveLock := next.holdsMutex, readCount := count }.move call next).Inv := by
  obtain ⟨-, hnone, hothers⟩ := h.holder hc hm
  have herase : _ = s.counting := countP_erase_add hc (·.isCounted)
  have hread := h.readCount
  refine ⟨?_, ?_, h.ids, h.fresh, fun id hid => ?_, fun x hx ht => absurd ht (not_exclusive hnone hx)⟩
  · show s.keysOf .exclusive + (next :: s.calls.erase call).countP (·.holdsMutex) = _
    rw [countP_cons, hnone, hothers, Nat.zero_add, Nat.zero_add]
    rfl
  · show count = s.keysOf .shared + (next :: s.calls.erase call).countP (·.isCounted)
    rw [countP_cons]
    omega
  · rcases mem_cons.1 hid with heq | hid
    · exact absurd heq.symm (hnext id)
    · exact h.upgrading id (mem_of_mem_erase hid)

theorem Inv.giveKey (h : s.Inv) (hc : call ∈ s.calls) {type : StorageLockType} {upgraded : Option Nat}
    (htype : call.holdsMutex = decide (type = .exclusive)) (hcounted : call.isCounted = decide (type = .shared))
    (halone : type = .exclusive → s.counting = 0 ∧ ∀ key ∈ s.keys, key.type = .shared → upgraded = some key.id) :
    (s.giveKey call type upgraded).Inv := by
  have hm : _ = s.holding := countP_erase_add hc (·.holdsMutex)
  have hr : _ = s.counting := countP_erase_add hc (·.isCounted)
  have hmutex := h.mutex
  have hread := h.readCount
  have hless : (s.giveKey call type upgraded).counting ≤ s.counting := erase_sublist.countP_le
  refine ⟨?_, ?_, ?_, fun key' hkey' => ?_, fun id hid => ?_, fun x hx ht => ?_⟩
  · show (_ :: s.keys).countP (·.type = .exclusive) + (s.calls.erase call).countP (·.holdsMutex) = _
    rw [countP_cons, ← htype]
    exact (Nat.add_right_comm ..).trans ((Nat.add_assoc ..).trans ((congrArg _ hm).trans hmutex))
  · show s.readCount = (_ :: s.keys).countP (·.type = .shared) + (s.calls.erase call).countP (·.isCounted)
    rw [countP_cons, ← hcounted]
    exact hread.trans ((congrArg _ hr.symm).trans ((Nat.add_assoc ..).symm.trans (Nat.add_right_comm ..)))
  · refine nodup_cons.2 ⟨fun hin => ?_, h.ids⟩
    obtain ⟨key', hkey', heq⟩ := mem_map.1 hin
    exact Nat.lt_irrefl _ (heq ▸ h.fresh key' hkey')
  · rcases mem_cons.1 hkey' with rfl | hkey'
    · exact Nat.lt_succ_self _
    · exact Nat.lt_succ_of_lt (h.fresh key' hkey')
  · obtain ⟨key', hkey', hid', ht⟩ := h.upgrading id (mem_of_mem_erase hid)
    exact ⟨key', mem_cons_of_mem _ hkey', hid', ht⟩
  · rcases mem_cons.1 hx with rfl | hx
    · obtain ⟨hnone, hall⟩ := halone ht
      refine ⟨by omega, fun key' hkey' ht' => ?_⟩
      rcases mem_cons.1 hkey' with rfl | hkey'
      · exact nomatch ht.symm.trans ht'
      · exact hall key' hkey' ht'
    · obtain ⟨hnone, hall⟩ := h.excluded x hx ht
      refine ⟨by omega, fun key' hkey' ht' => ?_⟩
      rcases mem_cons.1 hkey' with rfl | hkey'
      · -- beside an exclusive key no call has counted a reader
        have : 0 < s.counting := countP_pos_iff.2 ⟨call, hc, hcounted.trans (decide_eq_true ht')⟩
        omega
      · exact hall key' hkey' ht'

theorem Inv.resume (h : s.Inv) (hc : call ∈ s.calls) : (s.resume call).Inv := by
  have hread := h.readCount
  have hnoKey : s.readCount = 0 → s.counting = 0 ∧
      ∀ key ∈ s.keys, key.type = .shared → (none : Option Nat) = some key.id := by
    refine fun hzero => ⟨by omega, fun key hkey ht => ?_⟩
    have := keysOf_pos hkey ht
    omega
  have hfail : call.holdsMutex = true → call.isCounted = false → (s.move call .failing).Inv := by
    intro hm hno
    have hmove := h.move hc hm .failing s.readCount (by rw [hno]; rfl) (by simp)
    rwa [show LockCall.failing.holdsMutex = s.exclusiveLock from (h.holder hc hm).1.symm] at hmove
  cases call with
  | spinning =>
    by_cases hzero : s.readCount = 0
    · rw [StorageLockInternals.resume, if_neg (not_not.2 hzero)]
      exact h.giveKey hc rfl rfl fun _ => hnoKey hzero
    · rw [StorageLockInternals.resume, if_pos hzero]
      exact h
  | sharing =>
    have hmove := h.move hc rfl .counted (s.readCount + 1) rfl (by simp)
    rwa [show LockCall.counted.holdsMutex = s.exclusiveLock from (h.holder hc rfl).1.symm] at hmove
  | counted => exact h.move hc rfl .returning s.readCount rfl (by simp)
  | returning => exact h.giveKey hc rfl rfl (by simp)
  | trying =>
    by_cases hzero : s.readCount = 0
    · rw [StorageLockInternals.resume, if_neg (not_not.2 hzero)]
      exact h.giveKey hc rfl rfl fun _ => hnoKey hzero
    · rw [StorageLockInternals.resume, if_pos hzero]
      exact hfail rfl rfl
  | upgrading id =>
    by_cases hone : s.readCount = 1
    · rw [StorageLockInternals.resume, if_neg (not_not.2 hone)]
      obtain ⟨hnone, hall⟩ := h.only_shared hone hc
      exact h.giveKey hc rfl rfl fun _ => ⟨hnone, fun key hkey ht => by rw [hall key hkey ht]⟩
    · rw [StorageLockInternals.resume, if_pos hone]
      exact hfail rfl rfl
  | failing =>
    obtain ⟨-, hnone, hothers⟩ := h.holder hc rfl
    refine ⟨?_, ?_, h.ids, h.fresh, fun id hid => h.upgrading id (mem_of_mem_erase hid),
      fun x hx ht => absurd ht (not_exclusive hnone hx)⟩
    · exact (congrArg₂ (· + ·) hnone hothers :)
    · have herase : _ = s.counting := countP_erase_add hc (·.isCounted)
      exact hread.trans (congrArg _ herase.symm)

theorem Inv.release (h : s.Inv) (hkey : key ∈ s.keys) (hidle : .upgrading key.id ∉ s.calls) : (s.release key).Inv := by
  have hids : ((s.keys.erase key).map (·.id)).Nodup := h.ids.sublist (erase_sublist.map _)
  have hfresh : ∀ key' ∈ s.keys.erase key, key'.id < s.nextKey := fun key' hk => h.fresh key' (mem_of_mem_erase hk)
  have hupgrading : ∀ id, .upgrading id ∈ s.calls → ∃ key' ∈ s.keys.erase key, key'.id = id ∧ key'.type = .shared := by
    intro id hid
    obtain ⟨key', hkey', rfl, ht⟩ := h.upgrading id hid
    refine ⟨key', (mem_erase_of_ne ?_).2 hkey', rfl, ht⟩
    rintro rfl
    exact hidle hid
  have hexcluded : ∀ x ∈ s.keys.erase key, x.type = .exclusive → s.counting = 0 ∧
      ∀ key' ∈ s.keys.erase key, key'.type = .shared → x.upgraded = some key'.id := by
    intro x hx ht
    obtain ⟨hnone, hall⟩ := h.excluded x (mem_of_mem_erase hx) ht
    exact ⟨hnone, fun key' hk => hall key' (mem_of_mem_erase hk)⟩
  have hmutex := h.mutex
  have hread := h.readCount
  have hx : _ = s.keysOf .exclusive := countP_erase_add hkey (·.type = .exclusive)
  have hs : _ = s.keysOf .shared := countP_erase_add hkey (·.type = .shared)
  unfold StorageLockInternals.release
  cases ht : key.type with
  | exclusive =>
    simp only [ht, decide_true, if_true, reduceCtorEq, decide_false, Bool.false_eq_true, if_false] at hx hs
    refine ⟨?_, ?_, hids, hfresh, hupgrading, hexcluded⟩
    · show (s.keys.erase key).countP (·.type = .exclusive) + s.holding = 0
      split at hmutex <;> omega
    · exact hread.trans (congrArg (· + _) hs.symm)
  | shared =>
    simp only [ht, decide_true, if_true, reduceCtorEq, decide_false, Bool.false_eq_true, if_false] at hx hs
    refine ⟨?_, ?_, hids, hfresh, hupgrading, hexcluded⟩
    · exact (congrArg (· + _) hx).trans hmutex
    · show s.readCount - 1 = (s.keys.erase key).countP (·.type = .shared) + s.counting
      omega

theorem Inv.step {op : Op} (h : s.Inv) (ha : s.Allowed op) : (s.step op).Inv := by
  cases op with
  | getExclusiveLock | getSharedLock | tryGetExclusiveLock => exact h.enter rfl rfl fun _ heq => nomatch heq
  | tryUpgradeCheckpointLock lock =>
    by_cases ht : lock.type = .shared
    · rw [StorageLockInternals.step, if_neg (not_not.2 ht)]
      refine h.enter rfl rfl fun id heq => ?_
      cases heq
      exact ⟨lock, ha, rfl, ht⟩
    · rw [StorageLockInternals.step, if_pos ht]
      exact h
  | resume call => exact h.resume ha
  | release key => exact h.release ha.1 ha.2

/-! ## Every run -/

/-- The lock after a run of such calls as the callers guarantee. -/
def Reachable (s : StorageLockInternals) : Prop := ∃ ops, Lib.Steps step Allowed {} ops ∧ Lib.run step {} ops = s

theorem Reachable.inv (h : s.Reachable) : s.Inv := by
  obtain ⟨ops, hsteps, rfl⟩ := h
  exact Lib.run_inv_of_steps (P := Inv) (fun _ _ hs ha => hs.step ha) ops .init hsteps

/-- In every interleaving of the steps of any number of calls there is at most one exclusive key, and a shared key beside it
is the one that it was made with, so that the keys of `GetExclusiveLock` and `TryGetExclusiveLock` stand alone. The
assertion of `TryUpgradeCheckpointLock` holds and `read_count` does not go below zero. When no call is under way, the mutex
is locked exactly by an exclusive key, and the count is that of the shared keys. -/
theorem storageLock_excludes (h : s.Reachable) :
    s.keysOf .exclusive ≤ 1 ∧ (s.keys.map (·.id)).Nodup ∧
    (∀ x ∈ s.keys, x.type = .exclusive → ∀ key ∈ s.keys, key.type = .shared → x.upgraded = some key.id) ∧
    (∀ key ∈ s.keys, key.type = .shared → s.readCount ≠ 0) ∧
    (∀ id, .upgrading id ∈ s.calls → s.readCount ≠ 0) ∧
    (s.calls = [] → (s.exclusiveLock = true ↔ s.keysOf .exclusive = 1) ∧ s.readCount = s.keysOf .shared) := by
  have hinv := h.inv
  have hmutex := hinv.mutex
  have hread := hinv.readCount
  have hcounted : ∀ key ∈ s.keys, key.type = .shared → s.readCount ≠ 0 := by
    intro key hkey ht
    have := keysOf_pos hkey ht
    omega
  refine ⟨by split at hmutex <;> omega, hinv.ids, fun x hx ht => (hinv.excluded x hx ht).2, hcounted, fun id hid => ?_,
    fun hnil => ?_⟩
  · obtain ⟨key, hkey, -, ht⟩ := hinv.upgrading id hid
    exact hcounted key hkey ht
  · rw [holding, hnil, countP_nil] at hmutex
    rw [counting, hnil, countP_nil] at hread
    split at hmutex
    · exact ⟨iff_of_true ‹_› hmutex, hread⟩
    · exact ⟨iff_of_false ‹_› (by omega), hread⟩

/-- A reader has its key, and a call of `GetExclusiveLock` waits for it. -/
def oneWaiting : StorageLockInternals :=
  Lib.run step {} [.getSharedLock, .resume .sharing, .resume .counted, .resume .returning, .getExclusiveLock]

theorem oneWaiting_reachable : oneWaiting.Reachable := ⟨_, by decide, rfl⟩

theorem storageLock_excludes_oneWaiting : oneWaiting.keysOf .exclusive ≤ 1 := (storageLock_excludes oneWaiting_reachable).1

/-! ## A writer that waits -/

theorem readCount_step_le (h : s.Inv) (hwait : .spinning ∈ s.calls) {op : Op} (ha : s.Allowed op) :
    (s.step op).readCount ≤ s.readCount := by
  obtain ⟨hlocked, -, hothers⟩ := h.holder hwait rfl
  have henter : ∀ call, (s.enter call).readCount = s.readCount := fun call => by rw [enter, if_pos hlocked]
  cases op with
  | getExclusiveLock | getSharedLock | tryGetExclusiveLock => exact Nat.le_of_eq (henter _)
  | tryUpgradeCheckpointLock lock =>
    rw [step]
    split
    · exact Nat.le_refl _
    · exact Nat.le_of_eq (henter _)
  | resume call =>
    cases call with
    | sharing =>
      -- the call that waits holds the mutex
      have hin : .sharing ∈ s.calls.erase .spinning := (mem_erase_of_ne (by decide)).2 ha
      exact absurd hothers (Nat.ne_of_gt (countP_pos_iff.2 ⟨_, hin, rfl⟩))
    | spinning | trying | upgrading id =>
      simp only [step, StorageLockInternals.resume]
      split <;> exact Nat.le_refl _
    | counted | returning | failing => exact Nat.le_refl _
  | release key =>
    simp only [step, StorageLockInternals.release]
    split
    · exact Nat.le_refl _
    · exact Nat.sub_le ..

/-- While a call of `GetExclusiveLock` waits in its loop, no step of any other adds a reader, in every run; and once there is
none left, its next turn returns the exclusive key, which is then the only key. -/
theorem waiting_writer_served (h : s.Reachable) {later : List Op} (hwait : Lib.Along step (.spinning ∈ ·.calls) s later)
    (hlater : Lib.Steps step Allowed s later) :
    (Lib.run step s later).readCount ≤ s.readCount ∧
    ((Lib.run step s later).readCount = 0 → ∃ key,
      ((Lib.run step s later).step (.resume .spinning)).keys = [key] ∧ key.type = .exclusive) := by
  have hinv := h.inv
  clear h
  induction later generalizing s with
  | nil =>
    refine ⟨Nat.le_refl _, fun hzero => ⟨⟨s.nextKey, .exclusive, none⟩, ?_, rfl⟩⟩
    have hread := hinv.readCount
    rw [Lib.run_nil] at hzero ⊢
    have hnone : s.keys = [] := by
      refine eq_nil_iff_forall_not_mem.2 fun key hkey => ?_
      cases ht : key.type with
      | exclusive => exact not_exclusive (hinv.holder hwait rfl).2.1 hkey ht
      | shared =>
        have := keysOf_pos hkey ht
        omega
    rw [step, StorageLockInternals.resume, if_neg (not_not.2 hzero), StorageLockInternals.giveKey, hnone]
  | cons op later ih =>
    obtain ⟨hle, hserved⟩ := ih hwait.2 hlater.2 (hinv.step hlater.1)
    exact ⟨Nat.le_trans hle (readCount_step_le hinv hwait.1 hlater.1), hserved⟩

theorem waiting_writer_served_oneWaiting :
    (Lib.run step oneWaiting [.resume .spinning, .release ⟨0, .shared, none⟩]).readCount ≤ oneWaiting.readCount :=
  (waiting_writer_served oneWaiting_reachable (by simp only [Lib.Along]; decide) (by decide)).1

end StorageLockInternals

end Haybarn.Transaction
