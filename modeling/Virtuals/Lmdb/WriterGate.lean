/-
  The cross-process writer gate of the LMDB storage: an `flock` on a file next to the environment.

  A state is the gate's fields, its queues with their helper threads, the futures, the one
  requester that the in-process slot lets through, the threads inside `wake_waiters` and `close`,
  and the lock as the kernel keeps it. A step is one section under `_mu`, one native call, or one
  move of a thread between two of them. Other processes take and give back the lock at any time.

  Not modelled: interrupts, forks (and `_wait_fd`, which only a fork reads), waiting times (a wait
  may end at any time) and the log lines. `LOCK_UN` on an open descriptor succeeds.
-/
import Virtuals.Lib.Flock

namespace Virtuals.Lmdb

/-! ## The parties -/

/-- An open file description on the lock file: this process's of a generation, or another's. -/
inductive Description
  | ours (generation : Nat)
  | peer (process : Nat)
  deriving DecidableEq

inductive GateError
  | StorageClosedError
  | StorageError
  | StorageLockTimeoutError
  | OSError
  | CancelledError
  deriving DecidableEq, Repr

/-- How a future was completed. -/
abbrev Landing : Type := Except GateError Unit

/-- `(fd, generation, seq)`: the descriptor, by the description it is on. -/
structure WaitRequest where
  description : Nat
  generation : Nat
  seq : Nat
  deriving DecidableEq

/-- Where the helper thread of a queue is in `_serve`. -/
inductive Helper
  | unstarted
  /-- In `requests.get()`. -/
  | idle
  /-- Before the section that drops a stale request. -/
  | got (request : WaitRequest)
  /-- In the blocking `flock`. -/
  | flocking (request : WaitRequest)
  /-- Before the section that ends the wait. -/
  | landed (request : WaitRequest) (landing : Landing)
  /-- Out of that section, the consumer in hand. -/
  | delivering (consumer : Nat) (landing : Landing)
  | exited

namespace Helper

/-- The request whose descriptor the helper is to close. -/
def request : Helper → Option WaitRequest
  | .got r => some r
  | .flocking r => some r
  | .landed r _ => some r
  | _ => none

/-- The future that the helper is to complete. -/
def hand : Helper → Option (Nat × Landing)
  | .delivering f landing => some (f, landing)
  | _ => none

end Helper

/-- Where a thread is in `wake_waiters` or `close`. -/
inductive Caller
  | idle
  /-- Out of the section of `wake_waiters`, called by `close` or not. -/
  | waking (consumer : Option Nat) (error : GateError) (closing : Bool)
  /-- Before the section of `close`. -/
  | closing
  /-- Before `requests.put(None)`. -/
  | stopping (queue : Nat) (fd : Option Nat)
  /-- Before `os.close(fd)`. -/
  | dropping (fd : Option Nat)

namespace Caller

/-- A close has begun and has not run its section. -/
def closes : Caller → Bool
  | .waking _ _ b => b
  | .closing => true
  | _ => false

def hand : Caller → Option (Nat × Landing)
  | .waking (some f) error _ => some (f, .error error)
  | _ => none

/-- The descriptor that the close is to close, by its description. -/
def fd : Caller → Option Nat
  | .stopping _ fd => fd
  | .dropping fd => fd
  | _ => none

end Caller

/-- Where the requester is in `acquire` or `aacquire`. `loop` says which of the two. -/
inductive Requester
  | idle
  /-- The non-blocking `flock` took the gate. -/
  | took (generation : Nat)
  /-- In `consumer.result(timeout)` or `_await_done`. -/
  | waiting (loop : Bool) (consumer generation : Nat)
  /-- The wait ended and the consumer was not detached: in `consumer.result()`. -/
  | landing (loop : Bool) (consumer generation : Nat)
  /-- In `except BaseException`, before `_detach`. -/
  | leaving (consumer generation : Nat)
  /-- The same, after a `_detach` that came too late: in `consumer.result()`. -/
  | left (consumer generation : Nat)
  /-- The same, before `release(generation)`. -/
  | releasing (generation : Nat)

/-- The future that the requester waits on, with the generation it attached in. -/
def Requester.attachment : Requester → Option (Nat × Nat)
  | .waiting _ f g => some (f, g)
  | .landing _ f g => some (f, g)
  | .leaving f g => some (f, g)
  | .left f g => some (f, g)
  | _ => none

/-- What happened, as the gate's users see it. -/
inductive GateEvent
  /-- An acquire returned. -/
  | acquired (generation : Nat)
  /-- A release unlocked. -/
  | released (generation : Nat)
  /-- An acquire raised. -/
  | raised (error : GateError)

/-- The last successful acquire of a generation was not released since; the newest event first. -/
def holds : List GateEvent → Nat → Bool
  | [], _ => false
  | .acquired g :: log, generation => if g = generation then true else holds log generation
  | .released g :: log, generation => if g = generation then false else holds log generation
  | .raised _ :: log, generation => holds log generation

/-- A native call of the attach that raises: the non-blocking `flock`, for another reason than a
    held lock, or `os.dup`. -/
inductive Fault
  | none
  | flock
  | dup
  deriving DecidableEq

/-! ## The gate -/

structure WriterGate where
  /-- `_fd`, by the description it is on. -/
  fd : Option Nat
  generation : Nat
  waiting : Bool
  consumer : Option Nat
  waitSeq : Nat
  /-- `_requests`: a close replaces the queue by the next one. -/
  queue : Nat
  /-- `_thread`, by the queue it serves. -/
  thread : Option Nat
  requests : Nat → List (Option WaitRequest)
  helper : Nat → Helper
  lock : Flock Description
  futures : Nat → Option Landing
  nextFuture : Nat
  requester : Requester
  caller : Nat → Caller
  log : List GateEvent

namespace WriterGate

/-- An unopened gate, the lock file held by another process or by nobody. -/
def start (peer : Option Nat) : WriterGate where
  fd := none
  generation := 0
  waiting := false
  consumer := none
  waitSeq := 0
  queue := 0
  thread := none
  requests := fun _ => []
  helper := fun _ => .unstarted
  lock := { holder := peer.map .peer, refs := fun _ => 0 }
  futures := fun _ => none
  nextFuture := 0
  requester := .idle
  caller := fun _ => .idle
  log := []

variable (s : WriterGate)

def setHelper (q : Nat) (helper : Helper) : WriterGate :=
  { s with helper := Function.update s.helper q helper }

def setCaller (c : Nat) (caller : Caller) : WriterGate :=
  { s with caller := Function.update s.caller c caller }

/-- The acquire raises. -/
def raise (error : GateError) : WriterGate :=
  { s with requester := .idle, log := .raised error :: s.log }

/-- The acquire returns. -/
def acquired (generation : Nat) : WriterGate :=
  { s with requester := .idle, log := .acquired generation :: s.log }

/-- `set_result` or `set_exception`; on a future that is done already it raises in its caller. -/
def complete (f : Nat) (landing : Landing) : WriterGate :=
  { s with futures := Function.update s.futures f (some ((s.futures f).getD landing)) }

/-- `open`. -/
def openFile : WriterGate :=
  match s.fd with
  | some _ => s
  | none =>
    { s with
      fd := some (s.generation + 1)
      generation := s.generation + 1
      waiting := false
      consumer := none
      lock := s.lock.openFile (.ours (s.generation + 1)) }

/-! ### Acquire -/

/-- `thread is not None and thread.is_alive()`. -/
def threadAlive : Bool :=
  match s.thread with
  | none => false
  | some q => match s.helper q with
    | .exited => false
    | _ => true

/-- `_start_wait`, up to the start of the thread. -/
def startThread : WriterGate :=
  if s.threadAlive = true then s else { s.setHelper s.queue .idle with thread := some s.queue }

/-- `_start_wait` from `_wait_seq += 1` on: the request is queued first and marked last. -/
def queueWait (d : Nat) : WriterGate :=
  { s with
    waitSeq := s.waitSeq + 1
    lock := s.lock.dup (.ours d)
    requests := Function.update s.requests s.queue
      (s.requests s.queue ++ [some ⟨d, s.generation, s.waitSeq + 1⟩])
    waiting := true }

/-- `_attach` from `consumer: Future = Future()` on. -/
def attachConsumer (loop : Bool) : WriterGate :=
  { s with
    consumer := some s.nextFuture
    nextFuture := s.nextFuture + 1
    requester := .waiting loop s.nextFuture s.generation }

/-- The section of `_attach`. -/
def attach (loop : Bool) (fault : Fault) : WriterGate :=
  if s.waiting = true then s.attachConsumer loop
  else match s.fd with
    | none => s.raise .StorageClosedError
    | some d =>
      -- `_try_nb`
      if fault = .flock then s.raise .StorageError
      else if s.lock.Free (.ours d) then
        { s with lock := s.lock.take (.ours d), requester := .took s.generation }
      else if fault = .dup then
        { s.startThread with waitSeq := s.waitSeq + 1 }.raise .OSError
      else (s.startThread.queueWait d).attachConsumer loop

/-- `consumer.result()` in the body of `acquire` (`loop` is false) or `aacquire`. -/
def read (loop : Bool) (f generation : Nat) : Landing → WriterGate
  | .ok () => s.acquired generation
  | .error error =>
    if loop = true ∨ error = .StorageLockTimeoutError then s.raise error
    else { s with requester := .leaving f generation }

/-- The wait for the consumer timed out: the section of `_detach`. -/
def timeOut (loop : Bool) (f generation : Nat) : WriterGate :=
  if s.consumer = some f then { s with consumer := none }.raise .StorageLockTimeoutError
  else { s with requester := .landing loop f generation }

/-- The section of `_detach` in `except BaseException`. -/
def leave (f generation : Nat) (error : GateError) : WriterGate :=
  if s.consumer = some f then { s with consumer := none }.raise error
  else { s with requester := .left f generation }

/-- `consumer.result()` in `except BaseException`. -/
def reread (generation : Nat) (error : GateError) : Landing → WriterGate
  | .ok () => { s with requester := .releasing generation }
  | .error _ => s.raise error

/-- The section of `release`. -/
def release (generation : Option Nat) : WriterGate :=
  match s.fd with
  | none => s
  | some d =>
    if ∃ g, generation = some g ∧ g ≠ s.generation then s
    else { s with lock := s.lock.unlock (.ours d), log := .released s.generation :: s.log }

/-! ### Wake and close -/

/-- The section of `wake_waiters`. -/
def wakeWaiters (c : Nat) (error : GateError) (closing : Bool) : WriterGate :=
  { s with consumer := none }.setCaller c (.waking s.consumer error closing)

/-- `wake_waiters` after its section. -/
def woken (c : Nat) (consumer : Option Nat) (error : GateError) (closing : Bool) : WriterGate :=
  match consumer with
  | none => s.setCaller c (if closing = true then .closing else .idle)
  | some f =>
    (s.complete f (.error error)).setCaller c
      (if closing = true ∧ s.futures f = none then .closing else .idle)

/-- The section of `close`. -/
def closeSection (c : Nat) : WriterGate :=
  { s with
    fd := none
    generation := s.generation + 1
    waiting := false
    queue := s.queue + 1
    thread := none }.setCaller c (.stopping s.queue s.fd)

/-- `requests.put(None)`. -/
def putNone (c q : Nat) (fd : Option Nat) : WriterGate :=
  { s with requests := Function.update s.requests q (s.requests q ++ [none]) }.setCaller c
    (.dropping fd)

/-- `os.close(fd)`. -/
def closeFd (c : Nat) (fd : Option Nat) : WriterGate :=
  { s with lock := match fd with
      | none => s.lock
      | some d => s.lock.close (.ours d) }.setCaller c .idle

/-! ### The helper -/

/-- `requests.get()`. -/
def get (q : Nat) (request : Option WaitRequest) (rest : List (Option WaitRequest)) : WriterGate :=
  { s with requests := Function.update s.requests q rest }.setHelper q
    (match request with
    | none => .exited
    | some r => .got r)

/-- The section of `_serve` before the `flock`. -/
def check (q : Nat) (r : WaitRequest) : WriterGate :=
  if r.generation ≠ s.generation ∨ r.seq ≠ s.waitSeq ∨ s.waiting = false then
    { s with lock := s.lock.close (.ours r.description) }.setHelper q .idle
  else s.setHelper q (.flocking r)

/-- The section of `_serve` after the `flock`. -/
def endWait (q : Nat) (r : WaitRequest) (landing : Landing) : WriterGate :=
  if r.generation = s.generation then
    let lock := match s.consumer, landing with
      | none, .ok () => s.lock.unlock (.ours r.description)
      | _, _ => s.lock
    { s with
      waiting := false
      consumer := none
      lock := lock.close (.ours r.description) }.setHelper q
      (match s.consumer with
      | none => .idle
      | some f => .delivering f landing)
  else { s with lock := s.lock.close (.ours r.description) }.setHelper q .idle

/-- `set_result` or `set_exception`: on a future that is done already it ends the helper. -/
def deliver (q f : Nat) (landing : Landing) : WriterGate :=
  (s.complete f landing).setHelper q (if s.futures f = none then .idle else .exited)

/-- Who may call `release`. The holder of the gate may (`mayRelease_of_holds`), and so may anyone
    with a generation that has passed or while the file is closed; besides these only a caller that
    runs beside no acquire and no wait. -/
def MayRelease (generation : Option Nat) : Prop :=
  s.fd = none ∨ (∃ g, generation = some g ∧ g ≠ s.generation) ∨
    (s.requester = .idle ∧ s.waiting = false)

/-! ## Steps -/

/-- One step of one party. An attach comes from the one requester that the in-process slot lets
    through, and from none while a close is on its way to its section. -/
inductive Step : WriterGate → Prop
  | openFile : Step s.openFile
  | attach (loop fault) (hr : s.requester = .idle) (hc : ∀ c, (s.caller c).closes = false) :
      Step (s.attach loop fault)
  | returns (generation) (hr : s.requester = .took generation) : Step (s.acquired generation)
  | read (loop f generation landing)
      (hr : s.requester = .waiting loop f generation ∨ s.requester = .landing loop f generation)
      (hf : s.futures f = some landing) : Step (s.read loop f generation landing)
  | timeOut (loop f generation) (hr : s.requester = .waiting loop f generation) :
      Step (s.timeOut loop f generation)
  | cancel (f generation) (hr : s.requester = .waiting true f generation) :
      Step { s with requester := .leaving f generation }
  | leave (f generation error) (hr : s.requester = .leaving f generation) :
      Step (s.leave f generation error)
  | reread (f generation error landing) (hr : s.requester = .left f generation)
      (hf : s.futures f = some landing) : Step (s.reread generation error landing)
  | giveBack (generation error) (hr : s.requester = .releasing generation) :
      Step ((s.release (some generation)).raise error)
  | release (generation) (hr : s.MayRelease generation) : Step (s.release generation)
  | wakeWaiters (c error closing) (hc : s.caller c = .idle)
      (he : closing = true → error = .StorageClosedError) : Step (s.wakeWaiters c error closing)
  | woken (c consumer error closing) (hc : s.caller c = .waking consumer error closing) :
      Step (s.woken c consumer error closing)
  | closeSection (c) (hc : s.caller c = .closing) : Step (s.closeSection c)
  | putNone (c q fd) (hc : s.caller c = .stopping q fd) : Step (s.putNone c q fd)
  | closeFd (c fd) (hc : s.caller c = .dropping fd) : Step (s.closeFd c fd)
  | get (q request rest) (hq : s.helper q = .idle) (hr : s.requests q = request :: rest) :
      Step (s.get q request rest)
  | check (q r) (hq : s.helper q = .got r) : Step (s.check q r)
  | lands (q r) (hq : s.helper q = .flocking r) (hf : s.lock.Free (.ours r.description)) :
      Step ({ s with lock := s.lock.take (.ours r.description) }.setHelper q
        (.landed r (.ok ())))
  | fails (q r) (hq : s.helper q = .flocking r) :
      Step (s.setHelper q (.landed r (.error .StorageError)))
  | endWait (q r landing) (hq : s.helper q = .landed r landing) : Step (s.endWait q r landing)
  | deliver (q f landing) (hq : s.helper q = .delivering f landing) :
      Step (s.deliver q f landing)
  | peerTakes (p) (hl : s.lock.holder = none) :
      Step { s with lock := s.lock.take (.peer p) }
  | peerGives (p) (hl : s.lock.holder = some (.peer p)) :
      Step { s with lock := s.lock.unlock (.peer p) }

/-- The states that some interleaving reaches. -/
inductive Reachable : WriterGate → Prop
  | start (peer) : Reachable (start peer)
  | step {s t} (hs : Reachable s) (h : Step s t) : Reachable t

/-- A run from one state to another. -/
inductive Run : WriterGate → WriterGate → Prop
  | refl (s : WriterGate) : Run s s
  | step {s t u} (h : Run s t) (hu : Step t u) : Run s u

end WriterGate

end Virtuals.Lmdb
