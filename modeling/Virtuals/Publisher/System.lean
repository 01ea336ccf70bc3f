/-
  `PublisherBase`: the notify calls, the worker, connect and disconnect, one step at a time.

  Any number of threads `T` call the publisher at once; a step is one queue operation, one section
  under `_error_lock`, or one read or write of an attribute. A key is the number of its turn in the
  notify calls, `issued` being the next one. Queue, stop event and worker of the `n`-th attempt to
  connect have the number `n`; those of `__init__` have 0. The publisher object stays alive and no
  interrupt is raised in a thread, so the worker's weak reference is never dead and `_safe_publish`
  never raises. Time only chooses: a timed wait may give up whenever what it waits for is not there.
  `sent` and `counted` are the keys that were sent and those that `dropped_keys` counts.
-/
import Mathlib.Data.List.Range
import Mathlib.Logic.Function.Basic

namespace Virtuals.Publisher

/-- What a queue holds: keys, the stop marker, the events of flush(). -/
inductive Item where
  | key (t : Nat)
  | marker
  | event
  deriving DecidableEq

/-- What the worker does after `_publish`. -/
inductive After where
  | get
  | more
  | done
  deriving DecidableEq

/-- Where a worker is: `chunks` to `failed` are in `_publish`. -/
inductive Worker where
  | unstarted
  | get
  | empty
  | more (batch : List Nat)
  | chunks (rest : List Nat) (after : After)
  | prepare (chunk rest : List Nat) (after : After)
  | encode (todo kept rest : List Nat) (after : After)
  | drainFailed (kept rest : List Nat) (after : After)
  | stopped (kept rest : List Nat) (after : After)
  | send (kept rest : List Nat) (after : After)
  | sent (rest : List Nat) (after : After)
  | failed (rest : List Nat) (after : After)
  | returned
  deriving DecidableEq

/-- A worker that was started and has not returned. -/
def Worker.isAlive : Worker → Bool
  | .unstarted => false
  | .returned => false
  | _ => true

/-- Where a thread is in a call of the publisher. -/
inductive Call where
  | idle
  -- notify
  | notify (batch : List Nat)
  | ensureConnected (batch : List Nat)
  | readQueue (batch : List Nat)
  | put (q : Nat) (rest : List Nat)
  | full (q : Nat) (rest : List Nat)
  | wait (q : Nat) (rest : List Nat)
  | stall (rest : List Nat)
  | drop (rest : List Nat)
  -- flush, up to its wait
  | flush
  | flushQueue
  | putEvent (q : Nat)
  -- connect
  | connect
  | readOld
  | oldAlive (w : Nat)
  | freshStop
  | freshQueue (n : Nat)
  | clearDrainFailed (n : Nat)
  | clearStalled (n : Nat)
  | onConnect (n : Nat)
  | makeThread (n : Nat)
  | start (n : Nat)
  | opened
  | abandonConnect
  -- disconnect
  | disconnect
  | setStop
  | stopQueue
  | putMarker (q : Nat)
  | readThread
  | alive (w : Nat)
  | join (w : Nat)
  | joined (w : Nat)
  | clearThread
  | noThread
  | leftovers (n : List Nat)
  | getLeftover (q : Nat) (n : List Nat)
  | recordLeftovers (n : List Nat)
  | closed
  deriving DecidableEq

/-- `queue_maxsize`, whether there is a `notify_timeout`, and `MAX_KEYS_PER_CALL`. -/
structure Config where
  maxsize : Int
  notifyTimeout : Bool
  maxKeysPerCall : Option Nat

structure PublisherBase (T : Type) where
  connected : Bool
  queue : Nat
  stopEvent : Nat
  thread : Option Nat
  stalled : Bool
  drainFailed : Bool
  droppedKeys : Nat
  attempts : Nat
  items : Nat → List Item
  stop : Nat → Bool
  worker : Nat → Worker
  call : T → Call
  issued : Nat
  sent : List Nat
  counted : List Nat

/-- What may happen at a branch that the program does not decide. -/
inductive Choice where
  | ok
  | fail
  | late
  deriving DecidableEq

inductive Act (T : Type) where
  | notify (c : T) (n : Nat)
  | flush (c : T)
  | connect (c : T)
  | disconnect (c : T)
  | call (c : T) (choice : Choice)
  | work (w : Nat) (choice : Choice)

namespace PublisherBase

variable {T : Type}

/-- `__init__`. -/
def init : PublisherBase T where
  connected := false
  queue := 0
  stopEvent := 0
  thread := none
  stalled := false
  drainFailed := false
  droppedKeys := 0
  attempts := 1
  items _ := []
  stop _ := false
  worker _ := .unstarted
  call _ := .idle
  issued := 0
  sent := []
  counted := []

/-- `is_alive()` of a worker. -/
def isAlive (s : PublisherBase T) (w : Nat) : Bool := (s.worker w).isAlive

/-- Whether a queue has room; one of size 0 or less is unbounded. -/
def hasRoom (cfg : Config) (s : PublisherBase T) (q : Nat) : Bool :=
  decide (cfg.maxsize ≤ 0) || decide (((s.items q).length : Int) < cfg.maxsize)

def setItems (s : PublisherBase T) (q : Nat) (l : List Item) : PublisherBase T :=
  { s with items := Function.update s.items q l }

def append (s : PublisherBase T) (q : Nat) (i : Item) : PublisherBase T :=
  s.setItems q (s.items q ++ [i])

def setWorker (s : PublisherBase T) (w : Nat) (pc : Worker) : PublisherBase T :=
  { s with worker := Function.update s.worker w pc }

/-- `_record_drop`. -/
def recordDrop (s : PublisherBase T) (ts : List Nat) : PublisherBase T :=
  { s with droppedKeys := s.droppedKeys + ts.length, counted := s.counted ++ ts }

/-! ## The worker -/

/-- The worker has taken an item from its queue. -/
def taken (batch : List Nat) : Item → Worker
  | .key t => .more (batch ++ [t])
  | .event => .chunks batch .more
  | .marker => .chunks batch .done

/-- The length of a chunk of a batch: `MAX_KEYS_PER_CALL or len(batch)`. -/
def chunkLen (cfg : Config) (rest : List Nat) : Nat :=
  match cfg.maxKeysPerCall with
  | some (n + 1) => n + 1
  | _ => rest.length

/-- One step of worker `w`. -/
def work (cfg : Config) (s : PublisherBase T) (w : Nat) (choice : Choice) :
    Option (PublisherBase T) :=
  match s.worker w with
  | .unstarted => none
  | .returned => none
  | .get =>
    match s.items w, choice with
    | item :: items, .ok => some ((s.setItems w items).setWorker w (taken [] item))
    | [], .fail => some (s.setWorker w .empty)
    | _, _ => none
  | .empty => some (s.setWorker w (if s.stop w = true then .returned else .get))
  | .more batch =>
    match s.items w with
    | item :: items => some ((s.setItems w items).setWorker w (taken batch item))
    | [] => some (s.setWorker w (.chunks batch .get))
  | .chunks [] .get => some (s.setWorker w .get)
  | .chunks [] .more => some (s.setWorker w (.more []))
  | .chunks [] .done => some (s.setWorker w .returned)
  | .chunks (t :: rest) after =>
    let n := chunkLen cfg (t :: rest)
    some (s.setWorker w (.prepare ((t :: rest).take n) ((t :: rest).drop n) after))
  | .prepare chunk rest after =>
    -- a hook that raises has recorded no key; one that records unroutable keys does not raise
    match choice with
    | .ok => some (s.setWorker w (.encode chunk [] rest after))
    | _ => some ((s.recordDrop chunk).setWorker w (.chunks rest after))
  | .encode (t :: todo) kept rest after =>
    match choice with
    | .ok => some (s.setWorker w (.encode todo (kept ++ [t]) rest after))
    | _ => some ((s.recordDrop [t]).setWorker w (.encode todo kept rest after))
  | .encode [] [] rest after => some (s.setWorker w (.chunks rest after))
  | .encode [] kept rest after => some (s.setWorker w (.drainFailed kept rest after))
  | .drainFailed kept rest after =>
    some (s.setWorker w (if s.drainFailed = true then .stopped kept rest after
      else .send kept rest after))
  | .stopped kept rest after =>
    if s.stop w = true then some ((s.recordDrop kept).setWorker w (.chunks rest after))
    else some (s.setWorker w (.send kept rest after))
  | .send kept rest after =>
    match choice with
    | .ok => some ({ s with sent := s.sent ++ kept }.setWorker w (.sent rest after))
    | .fail =>
      if s.stop w = true then some ((s.recordDrop kept).setWorker w (.failed rest after))
      else some (s.setWorker w (.send kept rest after))
    | .late => some ((s.recordDrop kept).setWorker w (.failed rest after))
  | .sent rest after => some ({ s with stalled := false }.setWorker w (.chunks rest after))
  | .failed rest after =>
    some ({ s with drainFailed := s.drainFailed || s.stop w }.setWorker w (.chunks rest after))

/-! ## The calls -/

variable [DecidableEq T]

def setCall (s : PublisherBase T) (c : T) (pc : Call) : PublisherBase T :=
  { s with call := Function.update s.call c pc }

/-- One step of the call of thread `c`. -/
def go (cfg : Config) (s : PublisherBase T) (c : T) (choice : Choice) :
    Option (PublisherBase T) :=
  match s.call c with
  | .idle => none
  | .notify batch =>
    if s.connected = true then some (s.setCall c (.readQueue batch))
    else some ((s.recordDrop batch).setCall c (.ensureConnected batch))
  | .ensureConnected batch =>
    some (s.setCall c (if s.connected = true then .readQueue batch else .idle))
  | .readQueue batch => some (s.setCall c (.put s.queue batch))
  | .put _ [] => some (s.setCall c .idle)
  | .put q (t :: rest) =>
    if s.hasRoom cfg q = true then some ((s.append q (.key t)).setCall c (.put q rest))
    else some (s.setCall c (.full q (t :: rest)))
  | .full q rest =>
    some (s.setCall c (if cfg.notifyTimeout = true ∧ s.stalled = true then .stall rest
      else .wait q rest))
  | .wait _ [] => none
  | .wait q (t :: rest) =>
    if s.hasRoom cfg q = true then some ((s.append q (.key t)).setCall c (.put q rest))
    else if cfg.notifyTimeout = true then some (s.setCall c (.stall (t :: rest)))
    else none
  | .stall rest => some ({ s with stalled := true }.setCall c (.drop rest))
  | .drop rest => some ((s.recordDrop rest).setCall c .idle)
  | .flush => some (s.setCall c (if s.connected = true then .flushQueue else .idle))
  | .flushQueue => some (s.setCall c (.putEvent s.queue))
  | .putEvent q =>
    if s.hasRoom cfg q = true then some ((s.append q .event).setCall c .idle)
    else some (s.setCall c .idle)
  | .connect => some (s.setCall c (if s.connected = true then .idle else .readOld))
  | .readOld =>
    match s.thread with
    | some w => some (s.setCall c (.oldAlive w))
    | none => some (s.setCall c .freshStop)
  | .oldAlive w => some (s.setCall c (if s.isAlive w = true then .idle else .freshStop))
  | .freshStop =>
    some ({ s with stopEvent := s.attempts, attempts := s.attempts + 1 }.setCall c
      (.freshQueue s.attempts))
  | .freshQueue n => some ({ s with queue := n }.setCall c (.clearDrainFailed n))
  | .clearDrainFailed n => some ({ s with drainFailed := false }.setCall c (.clearStalled n))
  | .clearStalled n => some ({ s with stalled := false }.setCall c (.onConnect n))
  | .onConnect n =>
    some (s.setCall c (if choice = .ok then .makeThread n else .abandonConnect))
  | .makeThread n => some ({ s with thread := some n }.setCall c (.start n))
  | .start n =>
    if choice = .ok then some ((s.setWorker n .get).setCall c .opened)
    else some (s.setCall c .abandonConnect)
  | .opened => some ({ s with connected := true }.setCall c .idle)
  | .abandonConnect => some ({ s with connected := false }.setCall c .idle)
  | .disconnect => some (s.setCall c (if s.connected = true then .setStop else .idle))
  | .setStop =>
    some ({ s with stop := Function.update s.stop s.stopEvent true }.setCall c .stopQueue)
  | .stopQueue => some (s.setCall c (.putMarker s.queue))
  | .putMarker q =>
    if s.hasRoom cfg q = true then some ((s.append q .marker).setCall c .readThread)
    else some (s.setCall c .readThread)
  | .readThread =>
    match s.thread with
    | some w => some (s.setCall c (.alive w))
    | none => some (s.setCall c .clearThread)
  | .alive w => some (s.setCall c (if s.isAlive w = true then .join w else .clearThread))
  | .join w => some (s.setCall c (.joined w))
  | .joined w => some (s.setCall c (if s.isAlive w = true then .noThread else .clearThread))
  | .clearThread => some ({ s with thread := none }.setCall c .noThread)
  | .noThread => some (s.setCall c (if s.thread = none then .leftovers [] else .closed))
  | .leftovers n => some (s.setCall c (.getLeftover s.queue n))
  | .getLeftover q n =>
    match s.items q with
    | [] => some (s.setCall c (.recordLeftovers n))
    | .key t :: items => some ((s.setItems q items).setCall c (.leftovers (n ++ [t])))
    | _ :: items => some ((s.setItems q items).setCall c (.leftovers n))
  | .recordLeftovers n => some ((s.recordDrop n).setCall c .closed)
  | .closed => some ({ s with connected := false }.setCall c .idle)

/-- One step. -/
def step (cfg : Config) (s : PublisherBase T) : Act T → Option (PublisherBase T)
  | .notify c n =>
    if s.call c = .idle then
      some ({ s with issued := s.issued + n }.setCall c (.notify (List.range' s.issued n)))
    else none
  | .flush c => if s.call c = .idle then some (s.setCall c .flush) else none
  | .connect c => if s.call c = .idle then some (s.setCall c .connect) else none
  | .disconnect c => if s.call c = .idle then some (s.setCall c .disconnect) else none
  | .call c choice => s.go cfg c choice
  | .work w choice => s.work cfg w choice

end PublisherBase

end Virtuals.Publisher
