/-
  `WriterLock` (`storages/_write_slot.py`): the in-process writer slot, its queue of
  coroutines and the native lock that threads compete for.

  Every method here is one guarded section of the source (it runs under `_guard`) or one
  native lock call. Locks are numbered: `close` installs the next one. A native release of an
  unlocked lock raises, so the sections return the state they leave behind, `.error` when that
  happened. The marks of the execution contexts (`_HELD`) are not here: `_is_nested` reads
  them to refuse a call before it has touched the slot.
-/
import Mathlib.Logic.Function.Basic
import Mathlib.Data.List.Basic

namespace Virtuals.WriteSlot

/-- `_Waiter.state`. -/
inductive WaiterState where
  | waiting
  | granted
  | closed
  | abandoned
  deriving DecidableEq

/-- A future: not done, done with its result, or done by a cancellation. -/
inductive FutureState where
  | pending
  | result
  | cancelled
  deriving DecidableEq

/-- `_Waiter`: one queued coroutine. `woken` is the callback `wake` scheduled on its loop. -/
structure Waiter where
  future : FutureState
  lock : Option Nat
  loop : Nat
  state : WaiterState
  woken : Bool

/-- `_Waiter.__init__`. -/
def Waiter.new (loop : Nat) : Waiter := ⟨.pending, none, loop, .waiting, false⟩

/-- `WriterLock`, with the native state of every lock there has been, the waiter objects by
    identity, and which event loops are closed. -/
structure WriterLock where
  lock : Nat
  locked : Nat → Bool
  owner : Option Nat
  hold : Option Nat
  waiters : List Nat
  waiter : Nat → Waiter
  pending : Option Nat
  syncWaiting : Int
  bargeNext : Bool
  loopClosed : Nat → Bool

namespace WriterLock

/-- `__init__`: a free slot. No waiter exists yet. -/
def new : WriterLock :=
  ⟨0, fun _ => false, none, none, [], fun _ => ⟨.pending, none, 0, .abandoned, false⟩, none, 0,
    false, fun _ => false⟩

/-! ## Waiters -/

def setWaiter (s : WriterLock) (w : Nat) (x : Waiter) : WriterLock :=
  { s with waiter := Function.update s.waiter w x }

def setState (s : WriterLock) (w : Nat) (state : WaiterState) : WriterLock :=
  s.setWaiter w { s.waiter w with state := state }

/-- `_Waiter.dead`: nothing can take a grant. -/
def dead (s : WriterLock) (w : Nat) : Bool :=
  s.loopClosed (s.waiter w).loop || decide ((s.waiter w).future ≠ .pending)

/-- `_Waiter.wake`: schedule the wake-up; false if the loop is gone. -/
def wake (s : WriterLock) (w : Nat) : WriterLock × Bool :=
  if s.loopClosed (s.waiter w).loop then (s, false)
  else (s.setWaiter w { s.waiter w with woken := true }, true)

/-! ## The native lock -/

/-- `lock.acquire(blocking=False)`. -/
def tryLock (s : WriterLock) (lock : Nat) : Option WriterLock :=
  if s.locked lock then none else some { s with locked := Function.update s.locked lock true }

/-- `lock.release()`. -/
def unlock (s : WriterLock) (lock : Nat) : Except WriterLock WriterLock :=
  if s.locked lock then .ok { s with locked := Function.update s.locked lock false } else .error s

/-! ## Queue mechanics -/

/-- The loop of `_hand_off` over the queue. -/
def handOffLoop : List Nat → WriterLock → Except WriterLock WriterLock
  | [], s => do
    let s ← { s with waiters := [] }.unlock s.lock
    return { s with bargeNext := false }
  | w :: rest, s =>
    let popped := { s with waiters := rest }
    if (s.waiter w).state ≠ .waiting ∨ s.dead w then handOffLoop rest (popped.setState w .abandoned)
    else
      let x := { s.waiter w with state := .granted, lock := some s.lock }
      match (popped.setWaiter w x).wake w with
      | (s, true) => .ok { s with pending := some w, bargeNext := true }
      | (s, false) => handOffLoop rest (s.setState w .abandoned)

/-- `_hand_off`: pass a held, ownerless slot to the first live queued coroutine, or unlock it. -/
def handOff (s : WriterLock) : Except WriterLock WriterLock := handOffLoop s.waiters s

/-- `_release_locked`: a handoff, unless the last release was one and threads wait. -/
def releaseLocked (s : WriterLock) : Except WriterLock WriterLock :=
  if s.waiters ≠ [] ∧ ¬ (s.bargeNext = true ∧ s.syncWaiting ≠ 0) then s.handOff
  else do
    let s ← s.unlock s.lock
    return { s with bargeNext := false }

/-- `_reclaim_dead_pending`: take back a grant whose loop has closed since. -/
def reclaimDeadPending (s : WriterLock) : Except WriterLock WriterLock :=
  match s.pending with
  | none => .ok s
  | some w =>
    if (s.waiter w).state = .granted ∧ s.loopClosed (s.waiter w).loop = true then
      let s := { s.setState w .abandoned with pending := none }
      if (s.waiter w).lock = some s.lock then s.releaseLocked else .ok s
    else .ok s

/-- `_rescue_queue`: if the lock is free and coroutines are queued, hand it on. -/
def rescueQueue (s : WriterLock) : Except WriterLock WriterLock :=
  if s.waiters ≠ [] then
    match s.tryLock s.lock with
    | some s => s.handOff
    | none => .ok s
  else .ok s

/-- `_pass_on`: a granted coroutine will not use the slot. -/
def passOn (s : WriterLock) (w : Nat) : Except WriterLock WriterLock :=
  if (s.waiter w).state ≠ .granted then .ok s
  else
    let s := s.setState w .abandoned
    let s := if s.pending = some w then { s with pending := none } else s
    if (s.waiter w).lock = some s.lock then s.releaseLocked else .ok s

/-! ## Taking and giving back -/

/-- The guarded section of `_granted`: the lock taken, `none` for `StorageClosedError`. -/
def granted (s : WriterLock) (me hold w : Nat) : Option (WriterLock × Nat) :=
  match (s.waiter w).lock with
  | none => none
  | some lock =>
    if (s.waiter w).state ≠ .granted ∨ lock ≠ s.lock then none
    else
      let s := if s.pending = some w then { s with pending := none } else s
      some ({ s with owner := some me, hold := some hold }, lock)

/-- The guarded section of `_held_by`; false when `lock` is no longer the slot. -/
def heldBy (s : WriterLock) (me hold lock : Nat) (waited : Bool) :
    Except WriterLock (WriterLock × Bool) :=
  let s := if waited then { s with syncWaiting := s.syncWaiting - 1 } else s
  if lock ≠ s.lock then do
    let s ← if waited then s.rescueQueue else .ok s
    return (s, false)
  else .ok ({ s with owner := some me, hold := some hold }, true)

/-- `acquire` joins the blocked threads: the lock it will wait on. -/
def count (s : WriterLock) : Except WriterLock (WriterLock × Nat) := do
  let s ← s.reclaimDeadPending
  return ({ s with syncWaiting := s.syncWaiting + 1 }, s.lock)

/-- The guarded section of an interrupted wait; `got` when the lock had been taken. -/
def giveBack (s : WriterLock) (got : Bool) : Except WriterLock WriterLock :=
  let s := { s with syncWaiting := s.syncWaiting - 1 }
  if got then s.releaseLocked
  else do
    let s ← s.reclaimDeadPending
    s.rescueQueue

/-- The guarded section of a wait that timed out. -/
def giveUp (s : WriterLock) : Except WriterLock WriterLock := do
  let s ← { s with syncWaiting := s.syncWaiting - 1 }.reclaimDeadPending
  s.rescueQueue

/-- What the first guarded section of `areserve` comes to. -/
inductive Reserved where
  | took (lock : Nat)
  | queued
  | refused

/-- The first guarded section of `areserve`: take a free slot nobody waits for, or queue. -/
def reserve (s : WriterLock) (me hold loop : Nat) :
    Except WriterLock (WriterLock × Reserved) := do
  let s ← s.reclaimDeadPending
  let queue := { s.setWaiter hold (.new loop) with waiters := s.waiters ++ [hold] }
  if s.waiters = [] ∧ s.syncWaiting = 0 then
    match s.tryLock s.lock with
    | some t =>
      let (t, held) ← t.heldBy me hold s.lock false
      if held then return (t, .took s.lock)
      else
        let t ← t.unlock s.lock
        return (t, .refused)
    | none => return (queue, .queued)
  else return (queue, .queued)

/-- The guarded section of an `areserve` whose wait raised: out of the queue if still in it. -/
def leaveQueue (s : WriterLock) (w : Nat) : WriterLock :=
  if (s.waiter w).state = .waiting then { s with waiters := s.waiters.erase w } else s

/-- `release`: nothing when `lock` is no longer the slot. -/
def release (s : WriterLock) (lock : Nat) : Except WriterLock WriterLock :=
  if lock ≠ s.lock then .ok s
  else if ¬ s.locked s.lock then .error s
  else { s with owner := none, hold := none }.releaseLocked

/-- `release_if_owned`: only a hold of the caller's own, later than `since`. -/
def releaseIfOwned (s : WriterLock) (me : Nat) (since : Option Nat) :
    Except WriterLock WriterLock :=
  if s.owner = some me ∧ s.hold ≠ since ∧ s.locked s.lock then
    { s with owner := none, hold := none }.releaseLocked
  else .ok s

/-- `close`: a new lock; the old one is released on behalf of its owner or pending coroutine. -/
def close (s : WriterLock) : Except WriterLock WriterLock := do
  let t := { s with
    lock := s.lock + 1
    locked := Function.update s.locked (s.lock + 1) false
    owner := none
    hold := none
    pending := none
    waiters := []
    bargeNext := false }
  let t ← (if s.owner.isSome ∨ s.pending.isSome then t.unlock s.lock else .ok t)
  let t := match s.pending with
    | some w => t.setState w .closed
    | none => t
  return s.waiters.foldl (fun t w => ((t.setState w .closed).wake w).1) t

end WriterLock

end Virtuals.WriteSlot
