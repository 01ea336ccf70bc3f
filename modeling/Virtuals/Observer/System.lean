/-
  Every subscribe call of one observer client, its listener and maintenance threads, and the
  connection, as a step function.

  A call is at one `Place` of `_register_local_filter`. A step is one section under the state
  lock, one queued command, one confirmation read, one registration of hints with the server, or
  one of what surrounds them: a wait that gives up, a connection that breaks. `hints h` are the
  routing entries of the filters of hash `h`.
-/
import Virtuals.Observer.Client

namespace Virtuals.Observer

/-- Where a subscribe call is; `r` is the readiness it took. -/
inductive Place where
  | idle
  /-- the first registrant, about to list its entries -/
  | first (h r : Nat)
  | listed (h r : Nat)
  /-- its SUBSCRIBE is queued -/
  | awaiting (h r : Nat)
  | confirmed (h r : Nat)
  /-- `nu1_reg` returned -/
  | registered (h r : Nat)
  /-- a reconnect raced the registration -/
  | stale (h r : Nat)
  /-- raised, about to roll the hash back -/
  | failing (h r : Nat)
  | finishing (h r : Nat)
  /-- another registrant, waiting for the readiness -/
  | waiting (h r : Nat)
  | givingUp (h r : Nat)
  /-- `subscribe` returned -/
  | opened (h : Nat)
  | closed (h : Nat)
  | failed (h : Nat)
  deriving DecidableEq

/-- The listener thread, between two sections of one confirmation. -/
inductive Listener where
  | idle
  | checking (h : Nat)
  | resubscribed (h : Nat)
  | orphan (h : Nat)
  deriving DecidableEq

/-- Whether the listener may be inside a call of redis-py, which reconnects there. -/
def Listener.calling : Listener → Bool
  | .idle | .orphan _ => true
  | _ => false

/-- The maintenance thread, with the item it took. -/
inductive Maint where
  | idle
  | took (h gen : Nat)
  | hinting (h gen : Nat)
  | hinted (h gen : Nat)
  deriving DecidableEq

/-- The client, its calls and threads; the last three are records nothing reads. -/
structure System where
  client : Client
  place : Nat → Place
  listener : Listener
  maint : Maint
  /-- the connection generation a call began on -/
  began : Nat → Nat
  /-- the confirmations of a SUBSCRIBE read, with their generation -/
  confirms : List (Nat × Nat)
  /-- the registrations of hints completed, with their generation -/
  hinted : List (Nat × Nat)

/-- One step of one party. -/
inductive Act where
  | subscribe (c h : Nat)
  | list (c : Nat)
  /-- a hint does not encode -/
  | listFails (c : Nat)
  | dispatch (c : Nat)
  | ackWake (c : Nat)
  | ackTimeout (c : Nat)
  | hint (c : Nat) (ok : Bool)
  | check (c : Nat)
  | readyWake (c : Nat)
  | readyTimeout (c : Nat)
  | rollBack (c : Nat)
  | finish (c : Nat)
  | wake (c : Nat)
  | timeout (c : Nat)
  | release (c : Nat)
  | unsubscribe (c : Nat)
  | runCmd (sent : Bool)
  | read
  | look
  | unsubscribeOrphan (sent : Bool)
  | drop
  | lost
  | reconnect (order : List Nat)
  | take
  | readEntries
  | reregister (ok : Bool)
  | mark
  deriving DecidableEq

namespace System

def start : System := ⟨.new, fun _ => .idle, .idle, .idle, fun _ => 0, [], []⟩

def move (s : System) (c : Nat) (p : Place) : System :=
  { s with place := Function.update s.place c p }

def setClient (s : System) (client : Client) : System := { s with client := client }

/-- The listener reads the oldest confirmation. -/
def read (s : System) : System :=
  match s.client.pubsub.wire with
  | [] => s
  | .unsubscribed h :: rest =>
    s.setClient { s.client with pubsub := { s.client.pubsub with wire := rest }.onUnsubscribed h }
  | .subscribed h :: rest =>
    let client := { s.client with pubsub := { s.client.pubsub with wire := rest } }
    let s := { s with confirms := s.confirms ++ [(h, s.client.connGen)] }
    match client.onSubscribed h with
    | (client, .done) => s.setClient client
    | (client, .checking) => { s.setClient client with listener := .checking h }
    | (client, .resubscribed) => { s.setClient client with listener := .resubscribed h }

variable (hints : Nat → List HintEntry)

/-- One step; a step that is not enabled changes nothing. -/
def step (s : System) : Act → System
  | .subscribe c h =>
    if s.place c = .idle then
      let t := { s with began := Function.update s.began c s.client.connGen }
      match s.client.register h with
      | (client, true, some r) => (t.setClient client).move c (.first h r)
      | (client, false, some r) => (t.setClient client).move c (.waiting h r)
      | (client, _, none) => (t.setClient client).move c (.failed h)
    else s
  | .list c => match s.place c with
    | .first h r =>
      if hints h ≠ [] then
        (s.setClient { s.client with
          entries := Function.update s.client.entries h (some (hints h)) }).move c (.listed h r)
      else s.move c (.finishing h r)
    | _ => s
  | .listFails c => match s.place c with
    | .first h r => (s.setClient (s.client.rollBack h r false)).move c (.failed h)
    | _ => s
  | .dispatch c => match s.place c with
    | .listed h r => (s.setClient (s.client.dispatch (.sub h c))).move c (.awaiting h r)
    | _ => s
  | .ackWake c => match s.place c with
    | .awaiting h r =>
      if (s.client.ack c).set = true then
        if (s.client.ack c).error = true then s.move c (.failing h r) else s.move c (.confirmed h r)
      else s
    | _ => s
  | .ackTimeout c => match s.place c with
    | .awaiting h r => s.move c (.failing h r)
    | _ => s
  | .hint c ok => match s.place c with
    | .confirmed h r =>
      if ok = true then
        { s.move c (.registered h r) with hinted := s.hinted ++ [(h, s.client.connGen)] }
      else s.move c (.failing h r)
    | _ => s
  | .check c => match s.place c with
    | .registered h r =>
      if (s.client.ack c).gen = some s.client.connGen then
        (s.setClient (s.client.setReady h r)).move c (.finishing h r)
      else s.move c (.stale h r)
    | _ => s
  | .readyWake c => match s.place c with
    | .stale h r => if (s.client.obj h r).set = true then s.move c (.finishing h r) else s
    | _ => s
  | .readyTimeout c => match s.place c with
    | .stale h r => s.move c (.failing h r)
    | _ => s
  | .rollBack c => match s.place c with
    | .failing h r => (s.setClient (s.client.rollBack h r true)).move c (.failed h)
    | _ => s
  | .finish c => match s.place c with
    | .finishing h r => (s.setClient (s.client.setReady h r)).move c (.opened h)
    | _ => s
  | .wake c => match s.place c with
    | .waiting h r =>
      if (s.client.obj h r).set = true then
        if (s.client.obj h r).error = true then s.move c (.failed h) else s.move c (.opened h)
      else s
    | _ => s
  | .timeout c => match s.place c with
    | .waiting h r => s.move c (.givingUp h r)
    | _ => s
  | .release c => match s.place c with
    | .givingUp h r => (s.setClient (s.client.release h r)).move c (.failed h)
    | _ => s
  | .unsubscribe c => match s.place c with
    | .opened h => (s.setClient (s.client.unregister h)).move c (.closed h)
    | _ => s
  | .runCmd sent => if s.listener = .idle then s.setClient (s.client.runCmd sent) else s
  | .read => if s.listener = .idle then s.read else s
  | .look => match s.listener with
    | .checking h =>
      if (s.client.entries h).isSome then { s with listener := .idle }
      else { s with listener := .orphan h }
    | .resubscribed h =>
      if (s.client.entries h).isSome then
        { s.setClient { s.client with rereg := s.client.rereg ++ [(h, s.client.connGen)] } with
          listener := .idle }
      else { s with listener := .orphan h }
    | _ => s
  | .unsubscribeOrphan sent => match s.listener with
    | .orphan h =>
      { s.setClient (s.client.unsubscribeOrphan h sent) with listener := .idle }
    | _ => s
  | .drop => s.setClient { s.client with pubsub := s.client.pubsub.dropped }
  | .lost =>
    if s.listener = .idle ∧ s.client.pubsub.up = false then s.setClient s.client.invalidateReady
    else s
  | .reconnect order =>
    if s.listener.calling = true ∧ s.client.pubsub.up = false ∧
        order.Perm s.client.pubsub.channels then
      s.setClient (s.client.onPubsubReconnect order)
    else s
  | .take => match s.maint, s.client.rereg with
    | .idle, (h, gen) :: rest =>
      { s.setClient { s.client with rereg := rest } with maint := .took h gen }
    | _, _ => s
  | .readEntries => match s.maint with
    | .took h gen =>
      if (s.client.entries h).getD [] ≠ [] then { s with maint := .hinting h gen }
      else { s with maint := .idle }
    | _ => s
  | .reregister ok => match s.maint with
    | .hinting h gen =>
      if ok = true then
        { s with maint := .hinted h gen, hinted := s.hinted ++ [(h, s.client.connGen)] }
      else { s with maint := .took h gen }
    | _ => s
  | .mark => match s.maint with
    | .hinted h gen => { s.setClient (s.client.markReady h gen) with maint := .idle }
    | _ => s

/-- The state after a run of steps, of whichever parties in whichever order. -/
def run (acts : List Act) : System := acts.foldl (step hints) start

end System

end Virtuals.Observer
