/-
  The tables of one Redis observer client and the sections that change them.

  A filter hash is a number, and so are a subscribe call, its ack and a `_Ready`: the `k`-th
  `_Ready` of hash `h` is `obj h k`, unset until somebody sets it. `PubSub` is redis-py's object
  with the server behind its connection: a SUBSCRIBE or UNSUBSCRIBE that is sent takes effect and
  puts its confirmation on the wire, a reconnect subscribes `channels` again. Deadlines are left
  out: a wait may give up at any moment. So are the inbound keys, their dispatch and the
  connect and disconnect of the whole observer.
-/
import Mathlib.Logic.Function.Basic
import Mathlib.Data.List.Perm.Basic

namespace Virtuals.Observer

/-- `(kind, field, enc)`. -/
abbrev HintEntry := List UInt8 × List UInt8 × List UInt8

/-! ## The connection -/

/-- A confirmation on its way from the server. -/
inductive Msg where
  | subscribed (h : Nat)
  | unsubscribed (h : Nat)
  deriving DecidableEq

structure PubSub where
  /-- `PubSub.channels` -/
  channels : List Nat
  /-- `PubSub.pending_unsubscribe_channels` -/
  pendingUnsub : Nat → Bool
  /-- whether the connection is up -/
  up : Bool
  /-- what the server has subscribed this connection to -/
  subs : Nat → Bool
  /-- confirmations sent by the server and not read -/
  wire : List Msg

namespace PubSub

def new : PubSub := ⟨[], fun _ => false, true, fun _ => false, []⟩

/-- The connection breaks: the server forgets it and nothing more can be read. -/
def dropped (p : PubSub) : PubSub := { p with up := false, subs := fun _ => false, wire := [] }

/-- `subscribe`; false when it raised, the send having failed. -/
def subscribe (p : PubSub) (h : Nat) (sent : Bool) : PubSub × Bool :=
  if sent = true ∧ p.up = true then
    ({ p with
      channels := if h ∈ p.channels then p.channels else p.channels ++ [h]
      pendingUnsub := Function.update p.pendingUnsub h false
      subs := Function.update p.subs h true
      wire := p.wire ++ [.subscribed h] }, true)
  else (p.dropped, false)

/-- `unsubscribe`; the channel stays in `channels` until the server confirms, and is pending also
    where the send fails. -/
def unsubscribe (p : PubSub) (h : Nat) (sent : Bool) : PubSub :=
  if sent = true ∧ p.up = true then
    { p with
      pendingUnsub := Function.update p.pendingUnsub h true
      subs := Function.update p.subs h false
      wire := p.wire ++ [.unsubscribed h] }
  else { p with pendingUnsub := Function.update p.pendingUnsub h true }.dropped

/-- A new connection: every channel is subscribed again, the confirmations in some order. -/
def reconnect (p : PubSub) (order : List Nat) : PubSub :=
  { p with
    pendingUnsub := fun _ => false
    up := true
    subs := fun h => decide (h ∈ p.channels)
    wire := order.map .subscribed }

/-- redis-py reads the confirmation of an UNSUBSCRIBE. -/
def onUnsubscribed (p : PubSub) (h : Nat) : PubSub :=
  if p.pendingUnsub h = true then
    { p with
      channels := p.channels.filter (· ≠ h)
      pendingUnsub := Function.update p.pendingUnsub h false }
  else p

end PubSub

/-! ## The client -/

/-- `_Ready`; `gen` is the generation it was set on, a record nothing reads. -/
structure Ready where
  set : Bool := false
  error : Bool := false
  gen : Nat := 0
  deriving DecidableEq

/-- `_Ack`; `gen` is `none` where the source has -1. -/
structure Ack where
  set : Bool := false
  error : Bool := false
  gen : Option Nat := none
  deriving DecidableEq

/-- A command queued for the listener. -/
inductive Cmd where
  | sub (h ack : Nat)
  | unsub (h : Nat)
  deriving DecidableEq

structure Client where
  refcount : Nat → Option Nat
  /-- `_local` -/
  entries : Nat → Option (List HintEntry)
  ready : Nat → Option Nat
  obj : Nat → Nat → Ready
  /-- the `_Ready`s made so far -/
  made : Nat → Nat
  connGen : Nat
  ack : Nat → Ack
  queue : List Cmd
  /-- `_pending`, `[]` where the source has no key -/
  pending : Nat → List (List Nat)
  rereg : List (Nat × Nat)
  pubsub : PubSub

namespace Client

def new : Client :=
  ⟨fun _ => none, fun _ => none, fun _ => none, fun _ _ => {}, fun _ => 0, 0, fun _ => {}, [],
    fun _ => [], [], .new⟩

/-- `ready.event.set()`. -/
def setReady (s : Client) (h r : Nat) : Client :=
  if (s.obj h r).set = true then s
  else { s with
    obj := Function.update s.obj h
      (Function.update (s.obj h) r { s.obj h r with set := true, gen := s.connGen }) }

/-- `_dispatch_pubsub_cmd`. -/
def dispatch (s : Client) (cmd : Cmd) : Client := { s with queue := s.queue ++ [cmd] }

/-! ## Subscribe and unsubscribe -/

/-- The first section of `_register_local_filter`: whether the call is the first registrant, and
    its readiness (`none` for a `KeyError`). -/
def register (s : Client) (h : Nat) : Client × Bool × Option Nat :=
  let prior := (s.refcount h).getD 0
  let s := { s with refcount := Function.update s.refcount h (some (prior + 1)) }
  if prior = 0 then
    ({ s with
      ready := Function.update s.ready h (some (s.made h))
      made := Function.update s.made h (s.made h + 1) }, true, some (s.made h))
  else (s, false, s.ready h)

/-- The exception section of `_register_local_filter`; `subscribed` is whether its SUBSCRIBE was
    queued. -/
def rollBack (s : Client) (h r : Nat) (subscribed : Bool) : Client :=
  let s :=
    if s.ready h = some r then
      let t := { s with
        ready := Function.update s.ready h none
        refcount := Function.update s.refcount h none
        entries := Function.update s.entries h none }
      if subscribed then t.dispatch (.unsub h) else t
    else s
  { s with
    obj := Function.update s.obj h
      (Function.update (s.obj h) r { s.obj h r with error := true, set := true }) }

/-- `_release`: one waiter gave up. -/
def release (s : Client) (h r : Nat) : Client :=
  if s.ready h ≠ some r then s
  else
    let n : Int := (s.refcount h).getD 0 - 1
    if n > 0 then { s with refcount := Function.update s.refcount h (some n.toNat) } else s

/-- `_unregister_local_filter`. -/
def unregister (s : Client) (h : Nat) : Client :=
  let prior := (s.refcount h).getD 0
  if prior > 1 then { s with refcount := Function.update s.refcount h (some (prior - 1)) }
  else
    let t := { s with
      refcount := Function.update s.refcount h none
      ready := Function.update s.ready h none
      entries := Function.update s.entries h none }
    if (s.entries h).getD [] ≠ [] then t.dispatch (.unsub h) else t

/-! ## Connection loss -/

/-- Whether `_invalidate_ready` gives hash `h` a fresh readiness. -/
def resets (s : Client) (h : Nat) : Bool :=
  (s.entries h).isSome && match s.ready h with
    | some r => (s.obj h r).set && !(s.obj h r).error
    | none => false

/-- `_invalidate_ready`. -/
def invalidateReady (s : Client) : Client :=
  { s with
    connGen := s.connGen + 1
    ready := fun h => if s.resets h then some (s.made h) else s.ready h
    made := fun h => if s.resets h then s.made h + 1 else s.made h }

/-- `_on_pubsub_reconnect`, redis-py having subscribed every channel again. -/
def onPubsubReconnect (s : Client) (order : List Nat) : Client :=
  { s.invalidateReady with
    pubsub := s.pubsub.reconnect order
    pending := fun h =>
      if h ∈ s.pubsub.channels ∧ s.pending h ≠ [] then [(s.pending h).flatten] else [] }

/-! ## The listener -/

/-- `_run_cmd` on the oldest command; `sent` is whether its send goes through. -/
def runCmd (s : Client) (sent : Bool) : Client :=
  match s.queue with
  | [] => s
  | .sub h c :: rest =>
    match s.pubsub.subscribe h sent with
    | (pubsub, true) =>
      { s with
        queue := rest, pubsub := pubsub
        pending := Function.update s.pending h (s.pending h ++ [[c]]) }
    | (pubsub, false) =>
      { s with
        queue := rest, pubsub := pubsub
        ack := Function.update s.ack c { s.ack c with error := true, set := true } }
  | .unsub h :: rest => { s with queue := rest, pubsub := s.pubsub.unsubscribe h sent }

/-- What is left to do for a confirmation once the acks of its group are set. -/
inductive Confirming where
  /-- more groups wait for theirs -/
  | done
  /-- see whether the hash is still local -/
  | checking
  /-- nobody waited -/
  | resubscribed
  deriving DecidableEq

/-- `_on_subscribed` up to its last section: release the oldest group. -/
def onSubscribed (s : Client) (h : Nat) : Client × Confirming :=
  match s.pending h with
  | [] => (s, .resubscribed)
  | group :: groups =>
    ({ s with
      ack := fun c =>
        if c ∈ group then { s.ack c with set := true, gen := some s.connGen } else s.ack c
      pending := Function.update s.pending h groups },
      if groups = [] then .checking else .done)

/-- `_unsubscribe_orphan`. -/
def unsubscribeOrphan (s : Client) (h : Nat) (sent : Bool) : Client :=
  if h ∉ s.pubsub.channels ∨ s.pubsub.pendingUnsub h = true then s
  else { s with pubsub := s.pubsub.unsubscribe h sent }

/-- `_mark_ready`. -/
def markReady (s : Client) (h gen : Nat) : Client :=
  match s.ready h with
  | none => s
  | some r =>
    if gen = s.connGen ∧ (s.entries h).isSome ∧ (s.obj h r).error = false then s.setReady h r else s

end Client

end Virtuals.Observer
