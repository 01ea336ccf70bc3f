/-
  `WriterThread` (`storages/lmdb/_writer.py`), with what the storage runs on it: `_begin_lmdb_write`,
  `_end_live` and the second stage of `_commit_pending`.

  One thread runs the jobs of a queue in order. A step is one locked section of the thread or of
  another party, one native call, or one turn of a future. `close` does not wait here for the ends it
  queues: a wait that an interrupt cuts short goes on at once. It is one session of the storage, from
  `open` to `close`, in the process that opened it.
-/
import Mathlib.Data.List.Count
import Mathlib.Logic.Function.Basic
import Mathlib.Tactic.SplitIfs

namespace Virtuals.Lmdb.WriterThread

/-! ## Requests and jobs -/

/-- How a begin is waited for. -/
inductive Wait where
  /-- `run`, by the first read of a pending transaction -/
  | run
  /-- `arun`, by `areserve_write_slot` -/
  | arun
  /-- `run_staged`, by a commit that begins, replays and commits in one job -/
  | staged
  deriving DecidableEq

/-- The future of a begin. -/
inductive Future where
  | absent
  | pending
  | cancelled
  /-- past `set_running_or_notify_cancel`; whether the requester left since -/
  | running (left : Bool)
  | finished
  deriving DecidableEq

/-- What `_begin_lmdb_write` was called by. -/
inductive Caller where
  | request (r : Nat)
  /-- `_apply_and_commit`, once more after the sweep -/
  | retry
  deriving DecidableEq

inductive Job where
  | begin (r : Nat)
  /-- `_end_live` of a transaction -/
  | «end» (x : Nat) (commit : Bool)
  /-- `abandoned`, on a result that had landed -/
  | abandoned (x r : Nat)
  deriving DecidableEq

/-- Where a call on the thread is. -/
inductive Frame where
  /-- `begin` of a reservation, before its section -/
  | checking (r : Nat)
  /-- `_begin_lmdb_write`, before it reads `_env` -/
  | entering (c : Caller)
  /-- inside the native begin -/
  | beginning (c : Caller)
  /-- before the section that puts the transaction on the live set -/
  | registering (x : Nat) (c : Caller)
  /-- the storage was closed meanwhile: about to abort -/
  | refusing (x : Nat) (c : Caller)
  /-- `_run_job` has the result, before `set_running_or_notify_cancel` -/
  | landed (x r : Nat)
  /-- before `set_result` -/
  | handing (x r : Nat)
  /-- `_apply_and_commit`, before the replay -/
  | applying (x : Nat) (swept : Bool)
  /-- `_end_live`, before its section -/
  | ending (x : Nat) (commit : Bool)
  /-- off the live set, before the native end -/
  | native (x : Nat) (commit : Bool)
  /-- about to call `abandoned` -/
  | abandoned (x r : Nat)
  deriving DecidableEq

/-- Where `close` is. -/
inductive Closer where
  | idle
  /-- `_opened` is false; the contexts are being ended -/
  | marked
  /-- the live transactions were listed; those that are left -/
  | ending (left : List Nat)
  /-- `stop` has put its `None`, and joins the thread -/
  | joining
  | closed
  /-- the thread is stuck: the environment is left open -/
  | left
  deriving DecidableEq

inductive Event where
  | began (x : Nat)
  /-- the native commit or abort; whether a commit was applied -/
  | ended (x : Nat) (applied : Bool)
  | envClosed
  deriving DecidableEq

/-- What comes of a native call: whether it succeeds, and whether a sweep makes room. -/
structure Native where
  ok : Bool
  sweeps : Bool

/-- The thread, its queue, and what the storage keeps of write transactions. -/
structure State where
  opened : Bool
  /-- whether `_env` is bound -/
  env : Bool
  stopped : Bool
  queue : List Job
  /-- the calls on the thread, the innermost first -/
  thread : List Frame
  /-- `_live_writes` -/
  live : List Nat
  /-- the next transaction of LMDB -/
  next : Nat
  wait : Nat → Wait
  future : Nat → Future
  /-- `begun` of a reservation -/
  begun : Nat → Option Nat
  /-- results that are in, and that nobody has taken -/
  results : List (Nat × Nat)
  closer : Closer
  /-- the newest first -/
  log : List Event
  /-- the transactions whose commit raised `StorageClosedError` -/
  refused : List Nat
  /-- the begins that succeeded -/
  granted : List Nat
  received : List Nat
  handled : List Nat
  /-- the results whose `abandoned` was not queued -/
  dropped : List Nat

/-- One step of one party. -/
inductive Act where
  | ask (r : Nat) (w : Wait)
  | timeOut (r : Nat)
  /-- an interrupt, or a cancellation, out of the wait -/
  | interrupt (r : Nat)
  | take (r : Nat)
  /-- a reservation makes its slot -/
  | keep (r : Nat)
  /-- the exception path of a reservation -/
  | unwind (r : Nat)
  /-- `_end_write` of a context, a slot or a failed begin -/
  | endWrite (x : Nat) (commit : Bool)
  /-- `try_fire`, by a finalizer on another thread -/
  | tryFire (x : Nat)
  /-- a finalizer on the thread itself, inside a job -/
  | finalize (x : Nat)
  | thread (e : Native)
  | close
  | list
  | endNext
  | stop
  | join
  | leave

namespace State

variable (s : State)

/-- An open storage whose thread has no work. -/
def start : State where
  opened := true
  env := true
  stopped := false
  queue := []
  thread := []
  live := []
  next := 0
  wait := fun _ => .run
  future := fun _ => .absent
  begun := fun _ => none
  results := []
  closer := .idle
  log := []
  refused := []
  granted := []
  received := []
  handled := []
  dropped := []

/-! ## The queue -/

/-- `_submit`; after `stop` nothing is accepted. -/
def submit (job : Job) : State :=
  { s with queue := if s.stopped then s.queue else s.queue ++ [job] }

/-- `_end_write`: after `stop` it raises. -/
def endWrite (x : Nat) (commit : Bool) : State :=
  { s.submit (.end x commit) with
    refused := if s.stopped && commit then x :: s.refused else s.refused }

/-- `_abandoned_later`: the handler's job is queued, or dropped after `stop`. -/
def abandonLater (x r : Nat) : State :=
  { s.submit (.abandoned x r) with dropped := if s.stopped then r :: s.dropped else s.dropped }

def setFuture (r : Nat) (f : Future) : State :=
  { s with future := Function.update s.future r f }

/-! ## The thread -/

/-- The call that a job starts with. -/
def firstFrame (job : Job) : Frame :=
  match job with
  | .begin r => if s.wait r = .arun then .checking r else .entering (.request r)
  | .end x commit => .ending x commit
  | .abandoned x r => .abandoned x r

/-- A begin raises: the exception lands unless the requester cancelled. -/
def raises (c : Caller) : State :=
  { s with
    future := match c with
      | .request r =>
        if s.future r = .cancelled then s.future else Function.update s.future r .finished
      | .retry => s.future }

/-- A begin returns its transaction; `rest` are the calls around it. -/
def returns (x : Nat) (rest : List Frame) (c : Caller) : State :=
  match c with
  | .request r =>
    { s with
      begun := if s.wait r = .arun then Function.update s.begun r (some x) else s.begun
      granted := r :: s.granted
      thread := .landed x r :: rest }
  | .retry => { s with thread := .applying x true :: rest }

/-- `set_result`; the second stage follows at once. -/
def setResult (x r : Nat) (rest : List Frame) : State :=
  let done := s.setFuture r .finished
  if s.future r = .running true then { done with thread := rest }.abandonLater x r
  else if s.wait r = .staged then
    { done with received := r :: s.received, thread := .applying x false :: rest }
  else { done with results := (x, r) :: s.results, thread := rest }

/-- `abandoned`: a reservation's own handler ends what it finds in `begun`. -/
def abandon (x r : Nat) (rest : List Frame) : State :=
  let called := { s with handled := r :: s.handled, thread := rest }
  if s.wait r = .arun then
    if s.begun r = some x then
      { called with
        begun := Function.update s.begun r none
        thread := .ending x false :: rest }
    else called
  else { called with thread := .ending x false :: rest }

/-- The innermost call goes on; `rest` are the calls around it. -/
def frameStep (rest : List Frame) (e : Native) : Frame → State
  | .checking r =>
    if s.opened then { s with thread := .entering (.request r) :: rest }
    else { s.raises (.request r) with thread := rest }
  | .entering c =>
    if s.env then { s with thread := .beginning c :: rest }
    else { s.raises c with thread := rest }
  | .beginning c =>
    if e.ok then
      { s with
        next := s.next + 1
        log := .began s.next :: s.log
        thread := .registering s.next c :: rest }
    else { s.raises c with thread := rest }
  | .registering x c =>
    if s.opened then { s with live := x :: s.live }.returns x rest c
    else { s with thread := .refusing x c :: rest }
  | .refusing x c => { s.raises c with log := .ended x false :: s.log, thread := rest }
  | .landed x r =>
    if s.future r = .cancelled then { s with thread := .abandoned x r :: rest }
    else { s.setFuture r (.running false) with thread := .handing x r :: rest }
  | .handing x r => s.setResult x r rest
  | .applying x swept =>
    if e.ok then { s with thread := .ending x true :: rest }
    else if e.sweeps && !swept then
      { s with thread := .ending x false :: .entering .retry :: rest }
    else { s with thread := .ending x false :: rest }
  | .ending x commit =>
    if x ∈ s.live then { s with live := s.live.erase x, thread := .native x commit :: rest }
    else if commit then { s with refused := x :: s.refused, thread := rest }
    else { s with thread := rest }
  | .native x commit => { s with log := .ended x (commit && e.ok) :: s.log, thread := rest }
  | .abandoned x r => s.abandon x r rest

/-- The thread goes on, or takes the next job. -/
def threadStep (e : Native) : State :=
  match s.thread with
  | frame :: rest => s.frameStep rest e frame
  | [] =>
    match s.queue with
    | job :: queue => { s with queue := queue, thread := [s.firstFrame job] }
    | [] => s

/-! ## Requesters -/

/-- A begin is queued, for a request that is new. -/
def ask (r : Nat) (w : Wait) : State :=
  if s.future r = .absent ∧ s.stopped = false then
    { s.setFuture r .pending with
      wait := Function.update s.wait r w
      queue := s.queue ++ [.begin r] }
  else s

/-- `future.cancel()` after the wait timed out: a call that is past it is waited for. -/
def timeOut (r : Nat) : State :=
  if s.future r = .pending then s.setFuture r .cancelled else s

/-- The result of a request, where it is in. -/
def result (r : Nat) : Option Nat := (s.results.find? fun a => a.2 = r).map Prod.fst

/-- `_left`, and the same in `arun`; `run_staged` waits on once its begin landed. -/
def interrupt (r : Nat) : State :=
  match s.future r with
  | .pending => s.setFuture r .cancelled
  | .running _ => if s.wait r = .staged then s else s.setFuture r (.running true)
  | .finished =>
    match s.result r with
    | some x => { s with results := s.results.erase (x, r) }.abandonLater x r
    | none => s
  | .absent | .cancelled => s

/-- The wait returns the result. -/
def take (r : Nat) : State :=
  match s.result r with
  | some x => { s with results := s.results.erase (x, r), received := r :: s.received }
  | none => s

/-- The exception path of a reservation queues the abort of what it finds in `begun`. -/
def unwind (r : Nat) : State :=
  match s.begun r with
  | some x => { s with begun := Function.update s.begun r none }.submit (.end x false)
  | none => s

/-! ## `close` -/

/-- `close` lists what is still live. -/
def listLive : State :=
  if s.closer = .marked then { s with closer := .ending s.live } else s

def endNext : State :=
  match s.closer with
  | .ending (x :: left) => { s with closer := .ending left }.submit (.end x false)
  | _ => s

def stop : State :=
  if s.closer = .ending [] then { s with stopped := true, closer := .joining } else s

/-- The thread is gone once its queue is used up: `env.close()`. -/
def join : State :=
  if s.closer = .joining ∧ s.thread = [] ∧ s.queue = [] then
    { s with env := false, log := .envClosed :: s.log, closer := .closed }
  else s

/-- The thread is still alive after the timeout. -/
def leave : State :=
  if s.closer = .joining then { s with env := false, closer := .left } else s

/-! ## Steps -/

/-- One step; a step that is not enabled changes nothing. -/
def step : Act → State
  | .ask r w => s.ask r w
  | .timeOut r => s.timeOut r
  | .interrupt r => s.interrupt r
  | .take r => s.take r
  | .keep r => { s with begun := Function.update s.begun r none }
  | .unwind r => s.unwind r
  | .endWrite x commit => s.endWrite x commit
  | .tryFire x => s.submit (.end x false)
  | .finalize x =>
    -- `stop` has forgotten the thread: a call on it is one from elsewhere
    if s.thread = [] ∨ s.stopped = true then s
    else { s with thread := .ending x false :: s.thread }
  | .thread e => s.threadStep e
  | .close => if s.opened then { s with opened := false, closer := .marked } else s
  | .list => s.listLive
  | .endNext => s.endNext
  | .stop => s.stop
  | .join => s.join
  | .leave => s.leave

def run (s : State) (acts : List Act) : State := acts.foldl step s

end State

namespace State

/-! ## What a step can do -/

/-- What a step of a party can do. -/
inductive Moves (s : State) : State → Prop
  | nothing : Moves s s
  | asked (r : Nat) (w : Wait) (hnew : s.future r = .absent) (hopen : s.stopped = false) :
      Moves s { s.setFuture r .pending with
        wait := Function.update s.wait r w
        queue := s.queue ++ [.begin r] }
  | told (r : Nat) (f : Future) (hold : s.future r ≠ .absent) (hf : f ≠ .absent) :
      Moves s (s.setFuture r f)
  | abandoned (x r : Nat) (hin : (x, r) ∈ s.results) :
      Moves s ({ s with results := s.results.erase (x, r) }.abandonLater x r)
  | received (x r : Nat) (hin : (x, r) ∈ s.results) :
      Moves s { s with results := s.results.erase (x, r), received := r :: s.received }
  | begun (b : Nat → Option Nat) : Moves s { s with begun := b }
  | submitted (b : Nat → Option Nat) (refused : List Nat) (x : Nat) (commit : Bool) :
      Moves s ({ s with begun := b, refused := refused }.submit (.end x commit))
  | finalized (x : Nat) (hthread : s.thread ≠ []) :
      Moves s { s with thread := .ending x false :: s.thread }
  | thread (e : Native) : Moves s (s.threadStep e)
  | marked (hopen : s.opened = true) : Moves s { s with opened := false, closer := .marked }
  | listed (hcloser : s.closer = .marked) : Moves s { s with closer := .ending s.live }
  | endNext (x : Nat) (left : List Nat) (hcloser : s.closer = .ending (x :: left)) :
      Moves s ({ s with closer := .ending left }.submit (.end x false))
  | stopped (hcloser : s.closer = .ending []) :
      Moves s { s with stopped := true, closer := .joining }
  | joined (hcloser : s.closer = .joining) (hthread : s.thread = []) (hqueue : s.queue = []) :
      Moves s { s with env := false, log := .envClosed :: s.log, closer := .closed }
  | left (hcloser : s.closer = .joining) : Moves s { s with env := false, closer := .left }

variable (s : State)

theorem result_mem {r x : Nat} (h : s.result r = some x) : (x, r) ∈ s.results := by
  obtain ⟨a, ha, rfl⟩ := Option.map_eq_some_iff.1 h
  have hr : a.2 = r := by simpa using List.find?_some ha
  rw [← hr]
  exact List.mem_of_find?_eq_some ha

theorem interrupt_moves (r : Nat) : Moves s (s.interrupt r) := by
  rw [interrupt]
  cases hfuture : s.future r with
  | absent => exact .nothing
  | cancelled => exact .nothing
  | pending => exact .told r .cancelled (by rw [hfuture]; decide) (by decide)
  | running left =>
    dsimp only
    split_ifs
    · exact .nothing
    · exact .told r (.running true) (by rw [hfuture]; exact fun h => by cases h) (by decide)
  | finished =>
    dsimp only
    cases hresult : s.result r with
    | none => exact .nothing
    | some x => exact .abandoned x r (s.result_mem hresult)

/-- Each step is one of these. -/
theorem step_moves (a : Act) : Moves s (s.step a) := by
  cases a with
  | ask r w =>
    rw [step, ask]
    split_ifs with h
    · exact .asked r w h.1 h.2
    · exact .nothing
  | timeOut r =>
    rw [step, timeOut]
    split_ifs with h
    · exact .told r .cancelled (by rw [h]; decide) (by decide)
    · exact .nothing
  | interrupt r => exact s.interrupt_moves r
  | take r =>
    rw [step, take]
    cases hresult : s.result r with
    | none => exact .nothing
    | some x => exact .received x r (s.result_mem hresult)
  | keep r => exact .begun _
  | unwind r =>
    rw [step, unwind]
    cases s.begun r with
    | none => exact .nothing
    | some x => exact .submitted _ s.refused x false
  | endWrite x commit =>
    exact .submitted s.begun (if s.stopped && commit then x :: s.refused else s.refused) x commit
  | tryFire x => exact .submitted s.begun s.refused x false
  | finalize x =>
    rw [step]
    split_ifs with h
    · exact .nothing
    · exact .finalized x fun hnil => h (.inl hnil)
  | thread e => exact .thread e
  | close =>
    rw [step]
    split_ifs with h
    · exact .marked h
    · exact .nothing
  | list =>
    rw [step, listLive]
    split_ifs with h
    · exact .listed h
    · exact .nothing
  | endNext =>
    rw [step, endNext]
    split
    · rename_i x left h
      exact .endNext x left h
    · exact .nothing
  | stop =>
    rw [step, stop]
    split_ifs with h
    · exact .stopped h
    · exact .nothing
  | join =>
    rw [step, join]
    split_ifs with h
    · exact .joined h.1 h.2.1 h.2.2
    · exact .nothing
  | leave =>
    rw [step, leave]
    split_ifs with h
    · exact .left h
    · exact .nothing

end State

/-! ## The thread comes to rest -/

def Caller.work : Caller → Nat
  | .request _ => 8
  | .retry => 0

/-- The steps that a call on the thread can take. -/
def Frame.work : Frame → Nat
  | .checking _ => 15
  | .entering c => 6 + c.work
  | .beginning c => 5 + c.work
  | .registering _ c => 4 + c.work
  | .refusing _ _ | .native _ _ => 1
  | .landed _ _ => 11
  | .handing _ _ => 10
  | .applying _ swept => if swept then 3 else 9
  | .ending _ _ => 2
  | .abandoned _ _ => 3

def Job.work : Job → Nat
  | .begin _ => 16
  | .end _ _ => 3
  | .abandoned _ _ => 4

def queueWork : List Job → Nat
  | [] => 0
  | job :: queue => job.work + queueWork queue

def threadWork : List Frame → Nat
  | [] => 0
  | f :: rest => f.work + threadWork rest

namespace State

variable {s s' : State} {f : Frame} {rest : List Frame}

/-- The steps that the thread can take, left alone. -/
def work (s : State) : Nat := queueWork s.queue + threadWork s.thread

end State

end Virtuals.Lmdb.WriterThread
