/-
  Every caller of one `WriterLock`, as a step function.

  A call is an `acquire` of a thread or an `areserve` of a coroutine, and is at one `Place` of
  its body; a step carries one call over one guarded section or one native lock call, or is
  one of what surrounds them: a future cancelled, a loop closed, a loop running a wake-up,
  the storage's `close`. A thread or a task is in one call at a time. The wait of `acquire`
  may be interrupted, before or after it took the lock; the wait of `areserve` may raise at
  any moment.
-/
import Virtuals.WriteSlot.WriterLock

namespace Virtuals.WriteSlot

/-- How a call ended without the slot. -/
inductive Failure where
  | StorageLockTimeoutError
  | StorageClosedError
  /-- `KeyboardInterrupt` and its like, raised into a wait -/
  | interrupted
  /-- `CancelledError`, or the coroutine closed with its loop -/
  | cancelled
  /-- "release unlocked lock" -/
  | RuntimeError
  deriving DecidableEq

/-- Where a call is. -/
inductive Place where
  | idle
  /-- `acquire` read the slot's lock and is about to try it -/
  | entered (lock : Nat)
  | missed
  | blocked (lock : Nat)
  | won (lock : Nat)
  | lapsed (lock : Nat)
  | interrupted (lock : Nat) (got : Bool)
  /-- the fast path took the lock -/
  | taken (lock : Nat)
  /-- `_held_by` refused: the lock is no longer the slot and is about to be released -/
  | refused (lock : Nat)
  /-- `areserve` read the current hold, about to enter its guarded section -/
  | arriving (since : Option Nat)
  | awaiting (since : Option Nat)
  /-- about to call `_granted` -/
  | ending (since : Option Nat)
  /-- about to call `_pass_on` and raise -/
  | leaving
  /-- `_granted` raised: about to call `release_if_owned` -/
  | returning (since : Option Nat)
  | owns (lock : Nat)
  | released (lock : Nat)
  | failed (why : Failure)
  deriving DecidableEq

/-- A call that has begun and not ended. -/
def Place.active : Place → Bool
  | .idle | .owns _ | .released _ | .failed _ => false
  | _ => true

/-- How a grant came to its end. -/
inductive Ending where
  | taken
  | passedOn
  | closed
  deriving DecidableEq

/-- The slot, every call on it, and what came of the grants. -/
structure System where
  slot : WriterLock
  place : Nat → Place
  caller : Nat → Nat
  /-- the call each thread or task is in -/
  busy : Nat → Option Nat
  /-- whether a step ever released an unlocked lock -/
  raised : Bool
  granted : List Nat
  ended : List (Nat × Ending)

/-- One step of one party. -/
inductive Act where
  | startAcquire (c me : Nat)
  | tryFast (c : Nat)
  | count (c : Nat)
  | win (c : Nat)
  | lapse (c : Nat)
  | interrupt (c : Nat)
  | giveBack (c : Nat)
  | giveUp (c : Nat)
  | heldBy (c : Nat)
  | releaseRefused (c : Nat)
  | startReserve (c me : Nat)
  | reserve (c loop : Nat)
  | runWakeUp (w : Nat)
  | cancelFuture (w : Nat)
  | closeLoop (loop : Nat)
  | resume (c : Nat)
  | raiseAwait (c : Nat) (timedOut : Bool)
  | passOn (c : Nat)
  | finish (c : Nat)
  | releaseIfOwned (c : Nat)
  | release (c : Nat)
  | close
  deriving DecidableEq

namespace System

def start : System :=
  ⟨.new, fun _ => .idle, fun _ => 0, fun _ => none, false, [], []⟩

/-- Call `c` comes to `p`; a call that ends leaves its thread or task free. -/
def move (s : System) (c : Nat) (p : Place) : System :=
  { s with
    place := Function.update s.place c p
    busy :=
      if (s.place c).active ∧ p.active = false then Function.update s.busy (s.caller c) none
      else s.busy }

def setSlot (s : System) (slot : WriterLock) : System := { s with slot := slot }

/-- Call `c` goes on to `p` after a section, or fails where the section raised. -/
def settle (s : System) (c : Nat) (p : Place) : Except WriterLock WriterLock → System
  | .ok slot => (s.setSlot slot).move c p
  | .error slot => { (s.setSlot slot).move c (.failed .RuntimeError) with raised := true }

/-- Begin call `c` of a thread or task that is in no other. -/
def begin (s : System) (c me : Nat) (p : Place) : System :=
  if s.place c = .idle ∧ s.busy me = none then
    { s with
      place := Function.update s.place c p
      caller := Function.update s.caller c me
      busy := Function.update s.busy me (some c) }
  else s

/-- The effect of a step; a step that is not enabled changes nothing. -/
def effect (s : System) : Act → System
  | .startAcquire c me => s.begin c me (.entered s.slot.lock)
  | .tryFast c => match s.place c with
    | .entered lock => match s.slot.tryLock lock with
      | some slot => (s.setSlot slot).move c (.taken lock)
      | none => s.move c .missed
    | _ => s
  | .count c => match s.place c with
    | .missed => match s.slot.count with
      | .ok (slot, lock) => (s.setSlot slot).move c (.blocked lock)
      | .error slot => s.settle c .missed (.error slot)
    | _ => s
  | .win c => match s.place c with
    | .blocked lock => match s.slot.tryLock lock with
      | some slot => (s.setSlot slot).move c (.won lock)
      | none => s
    | _ => s
  | .lapse c => match s.place c with
    | .blocked lock => s.move c (.lapsed lock)
    | _ => s
  | .interrupt c => match s.place c with
    | .blocked lock => s.move c (.interrupted lock false)
    | .won lock => s.move c (.interrupted lock true)
    | _ => s
  | .giveBack c => match s.place c with
    | .interrupted _ got => s.settle c (.failed .interrupted) (s.slot.giveBack got)
    | _ => s
  | .giveUp c => match s.place c with
    | .lapsed _ => s.settle c (.failed .StorageLockTimeoutError) s.slot.giveUp
    | _ => s
  | .heldBy c => match s.place c with
    | .won lock => match s.slot.heldBy (s.caller c) c lock true with
      | .ok (slot, held) => (s.setSlot slot).move c (if held then .owns lock else .refused lock)
      | .error slot => s.settle c (.refused lock) (.error slot)
    | .taken lock => match s.slot.heldBy (s.caller c) c lock false with
      | .ok (slot, held) => (s.setSlot slot).move c (if held then .owns lock else .refused lock)
      | .error slot => s.settle c (.refused lock) (.error slot)
    | _ => s
  | .releaseRefused c => match s.place c with
    | .refused lock => s.settle c (.failed .StorageClosedError) (s.slot.unlock lock)
    | _ => s
  | .startReserve c me => s.begin c me (.arriving s.slot.hold)
  | .reserve c loop => match s.place c with
    | .arriving since => match s.slot.reserve (s.caller c) c loop with
      | .ok (slot, .took lock) => (s.setSlot slot).move c (.owns lock)
      | .ok (slot, .queued) => (s.setSlot slot).move c (.awaiting since)
      | .ok (slot, .refused) => (s.setSlot slot).move c (.failed .StorageClosedError)
      | .error slot => s.settle c (.awaiting since) (.error slot)
    | _ => s
  | .runWakeUp w =>
    let x := s.slot.waiter w
    if x.woken = true ∧ x.future = .pending ∧ s.slot.loopClosed x.loop = false then
      s.setSlot (s.slot.setWaiter w { x with future := .result })
    else s
  | .cancelFuture w =>
    let x := s.slot.waiter w
    if x.future = .pending then s.setSlot (s.slot.setWaiter w { x with future := .cancelled })
    else s
  | .closeLoop loop =>
    s.setSlot { s.slot with loopClosed := Function.update s.slot.loopClosed loop true }
  | .resume c => match s.place c with
    | .awaiting since => if (s.slot.waiter c).future = .result then s.move c (.ending since) else s
    | _ => s
  | .raiseAwait c timedOut => match s.place c with
    | .awaiting since =>
      let state := (s.slot.waiter c).state
      let t := s.setSlot (s.slot.leaveQueue c)
      if state = .waiting ∨ state = .abandoned then
        t.move c (.failed (if timedOut then .StorageLockTimeoutError else .cancelled))
      else if timedOut then t.move c (.ending since)
      else t.move c .leaving
    | _ => s
  | .passOn c => match s.place c with
    | .leaving => s.settle c (.failed .cancelled) (s.slot.passOn c)
    | _ => s
  | .finish c => match s.place c with
    | .ending since => match s.slot.granted (s.caller c) c c with
      | some (slot, lock) => (s.setSlot slot).move c (.owns lock)
      | none => s.move c (.returning since)
    | _ => s
  | .releaseIfOwned c => match s.place c with
    | .returning since =>
      s.settle c (.failed .StorageClosedError) (s.slot.releaseIfOwned (s.caller c) since)
    | _ => s
  | .release c => match s.place c with
    | .owns lock => s.settle c (.released lock) (s.slot.release lock)
    | _ => s
  | .close => match s.slot.close with
    | .ok slot => s.setSlot slot
    | .error slot => { s.setSlot slot with raised := true }

/-- How a grant that is no longer pending ended, by the step that ended it. -/
def endingOf : Act → Ending
  | .finish _ => .taken
  | .close => .closed
  | _ => .passedOn

/-- Note the grants a step ended and made. -/
def note (before : System) (a : Act) (s : System) : System :=
  if s.slot.pending = before.slot.pending then s
  else
    { s with
      ended := s.ended ++ before.slot.pending.toList.map fun w => (w, endingOf a)
      granted := s.granted ++ s.slot.pending.toList }

/-- One step. -/
def step (s : System) (a : Act) : System := note s a (s.effect a)

/-- The state after a run of steps, of whichever parties in whichever order. -/
def run (acts : List Act) : System := acts.foldl step start

/-- An interrupt that finds the lock it took replaced by `close`. -/
def StaleGiveBack (s : System) : Act → Prop
  | .giveBack c => ∃ lock, s.place c = .interrupted lock true ∧ lock ≠ s.slot.lock
  | _ => False

/-- No step of the run gives back a lock that `close` has replaced. -/
def Clean : System → List Act → Prop
  | _, [] => True
  | s, a :: acts => ¬ StaleGiveBack s a ∧ Clean (s.step a) acts

/-- Call `c` was told it owns the current lock and has not released it. -/
def Owns (s : System) (c : Nat) : Prop := s.place c = .owns s.slot.lock

end System

end Virtuals.WriteSlot
