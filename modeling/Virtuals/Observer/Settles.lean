/-
  The listener alone comes to an end.

  With no further step of a call it runs what is queued, reads what is on the wire and looks at what
  it read, and each of these leaves less to do. A SUBSCRIBE that is run puts one confirmation on the
  wire, which may have the listener unsubscribe an orphan, whose confirmation it only reads.
-/
import Virtuals.Observer.Live

namespace Virtuals.Observer

def Msg.weight : Msg → Nat
  | .subscribed _ => 4
  | .unsubscribed _ => 1

def weigh : List Msg → Nat
  | [] => 0
  | msg :: wire => msg.weight + weigh wire

theorem weigh_append (wire more : List Msg) : weigh (wire ++ more) = weigh wire + weigh more := by
  induction wire with
  | nil => simp [weigh]
  | cons msg wire ih => rw [List.cons_append, weigh, weigh, ih, Nat.add_assoc]

def Listener.weight : Listener → Nat
  | .idle => 0
  | .orphan _ => 2
  | .checking _ | .resubscribed _ => 3

namespace System

variable {hints : Nat → List HintEntry} {s : System} {a : Act}

/-- An act of the listener, a reconnect inside redis-py included. -/
def listens : Act → Bool
  | .runCmd _ | .read | .look | .unsubscribeOrphan _ | .reconnect _ => true
  | _ => false

/-- The listener has nothing to do. -/
structure Quiet (s : System) : Prop where
  queue : s.client.queue = []
  wire : s.client.pubsub.wire = []
  listener : s.listener = .idle

/-- What the listener has left to do. -/
def left (s : System) : Nat :=
  6 * s.client.queue.length + weigh s.client.pubsub.wire + s.listener.weight

theorem place_listens (ha : listens a = true) : (step hints s a).place = s.place := by
  funext c
  rcases place_step hints s a c with hsame | hgo
  · exact hsame
  · generalize s.place c = p at hgo
    generalize (step hints s a).place c = q at hgo
    cases hgo <;> cases ha

theorem listens_safe (ha : listens a = true) : ¬ s.Unsafe a := by
  cases a with
  | release c => cases ha
  | rollBack c => cases ha
  | mark => cases ha
  | _ => exact id

/-- What a send adds to the wire, on a connection that is up. -/
theorem weight_unsubscribe (p : PubSub) (x : Nat) :
    weigh (p.unsubscribe x true).wire ≤ weigh p.wire + 1 ∧
      (p.up = true → (p.unsubscribe x true).up = true) := by
  unfold PubSub.unsubscribe
  split_ifs with hup
  · simp [weigh_append, weigh, Msg.weight]
  · exact ⟨by simp [PubSub.dropped, weigh], fun hup' => absurd ⟨rfl, hup'⟩ hup⟩

theorem weight_subscribe (p : PubSub) (x : Nat) :
    weigh (p.subscribe x true).1.wire ≤ weigh p.wire + 4 ∧
      (p.up = true → (p.subscribe x true).1.up = true) := by
  unfold PubSub.subscribe
  by_cases hup : true = true ∧ p.up = true
  · rw [if_pos hup]
    simp [weigh_append, weigh, Msg.weight]
  · rw [if_neg hup]
    exact ⟨by simp [PubSub.dropped, weigh], fun hup' => absurd ⟨rfl, hup'⟩ hup⟩

theorem left_runCmd (hidle : s.listener = .idle) (hqueue : s.client.queue ≠ []) :
    left (step hints s (.runCmd true)) < s.left ∧
      (s.client.pubsub.up = true →
        (step hints s (.runCmd true)).client.pubsub.up = true) := by
  simp only [step, hidle, if_true, left, setClient]
  unfold Client.runCmd
  split
  · rename_i hq
    exact absurd hq hqueue
  · rename_i x c rest hq
    obtain ⟨hweight, hup⟩ := weight_subscribe s.client.pubsub x
    split
    all_goals
      rename_i pubsub hsent
      rw [hsent] at hweight hup
      refine ⟨?_, hup⟩
      simp only [hq, List.length_cons]
      dsimp only at hweight
      omega
  · rename_i x rest hq
    obtain ⟨hweight, hup⟩ := weight_unsubscribe s.client.pubsub x
    refine ⟨?_, hup⟩
    simp only [hq, List.length_cons]
    omega

theorem left_read (hidle : s.listener = .idle) (hwire : s.client.pubsub.wire ≠ []) :
    left (step hints s .read) < s.left ∧
      (s.client.pubsub.up = true → (step hints s .read).client.pubsub.up = true) := by
  simp only [step, hidle, if_true, left]
  rcases hw : s.client.pubsub.wire with _ | ⟨msg, rest⟩
  · exact absurd hw hwire
  cases msg with
  | unsubscribed x =>
    unfold System.read
    simp only [hw, setClient, PubSub.onUnsubscribed]
    split_ifs <;> exact ⟨by simp [hidle, weigh, Msg.weight], id⟩
  | subscribed x =>
    obtain ⟨hqueue, hpubsub, -⟩ := read_subscribed hw
    have hlistener : s.read.listener.weight ≤ 3 := by
      cases s.read.listener <;> simp [Listener.weight]
    rw [hqueue, hpubsub]
    refine ⟨?_, id⟩
    simp only [weigh, Msg.weight]
    omega

theorem left_look {x : Nat} (hl : s.listener = .checking x ∨ s.listener = .resubscribed x) :
    left (step hints s .look) < s.left ∧
      (s.client.pubsub.up = true → (step hints s .look).client.pubsub.up = true) := by
  rcases hl with hl | hl <;> simp only [step, hl, left] <;> split_ifs <;>
    exact ⟨by simp [Listener.weight, setClient, hl], id⟩

theorem left_unsubscribeOrphan {x : Nat} (hl : s.listener = .orphan x) :
    left (step hints s (.unsubscribeOrphan true)) < s.left ∧
      (s.client.pubsub.up = true →
        (step hints s (.unsubscribeOrphan true)).client.pubsub.up = true) := by
  obtain ⟨hweight, hup⟩ := weight_unsubscribe s.client.pubsub x
  simp only [step, hl, left, Client.unsubscribeOrphan]
  split_ifs
  · exact ⟨by simp [Listener.weight, setClient], id⟩
  · refine ⟨?_, hup⟩
    simp only [setClient, Listener.weight]
    omega

/-- Where the listener has something to do, it leaves less of it. -/
theorem left_listens (hints : Nat → List HintEntry) (hnot : ¬ Quiet s) :
    ∃ a, listens a = true ∧ left (step hints s a) < s.left ∧
      (s.client.pubsub.up = true → (step hints s a).client.pubsub.up = true) := by
  cases hl : s.listener with
  | checking x => exact ⟨.look, rfl, left_look (.inl hl)⟩
  | resubscribed x => exact ⟨.look, rfl, left_look (.inr hl)⟩
  | orphan x => exact ⟨.unsubscribeOrphan true, rfl, left_unsubscribeOrphan hl⟩
  | idle =>
    by_cases hqueue : s.client.queue = []
    · by_cases hwire : s.client.pubsub.wire = []
      · exact absurd ⟨hqueue, hwire, hl⟩ hnot
      · exact ⟨.read, rfl, left_read hl hwire⟩
    · exact ⟨.runCmd true, rfl, left_runCmd hl hqueue⟩

/-- (PROVED) The listener comes to rest, the connection as it was. -/
theorem quiet_run (hints : Nat → List HintEntry) (s : System) :
    ∃ acts : List Act, (∀ a ∈ acts, listens a = true) ∧ Quiet (acts.foldl (step hints) s) ∧
      (s.client.pubsub.up = true → (acts.foldl (step hints) s).client.pubsub.up = true) := by
  induction hn : s.left using Nat.strongRecOn generalizing s with
  | ind n ih =>
    by_cases hquiet : Quiet s
    · exact ⟨[], nofun, hquiet, id⟩
    · obtain ⟨a, ha, hlt, hup⟩ := left_listens hints hquiet
      obtain ⟨acts, hacts, hrest, hup'⟩ := ih _ (hn ▸ hlt) (step hints s a) rfl
      exact ⟨a :: acts, List.forall_mem_cons.2 ⟨ha, hacts⟩, hrest, fun h => hup' (hup h)⟩

/-- (PROVED) On a connection that is up, after a reconnect where it was down. -/
theorem quiet_up (hints : Nat → List HintEntry) (s : System) :
    ∃ acts : List Act, (∀ a ∈ acts, listens a = true) ∧ Quiet (acts.foldl (step hints) s) ∧
      (acts.foldl (step hints) s).client.pubsub.up = true := by
  obtain ⟨first, hfirst, hquiet, -⟩ := quiet_run hints s
  generalize ht : first.foldl (step hints) s = t at hquiet
  cases hup : t.client.pubsub.up with
  | true => exact ⟨first, hfirst, ht ▸ hquiet, ht ▸ hup⟩
  | false =>
    obtain ⟨acts, hacts, hquiet', hup'⟩ :=
      quiet_run hints (step hints t (.reconnect t.client.pubsub.channels))
    have hback : (step hints t (.reconnect t.client.pubsub.channels)).client.pubsub.up = true := by
      simp [step, hquiet.listener, Listener.calling, hup, setClient, Client.onPubsubReconnect,
        PubSub.reconnect]
    refine ⟨first ++ .reconnect t.client.pubsub.channels :: acts, fun a ha => ?_, ?_, ?_⟩
    · rcases List.mem_append.1 ha with ha | ha
      · exact hfirst a ha
      · rcases List.mem_cons.1 ha with rfl | ha
        · rfl
        · exact hacts a ha
    · rw [List.foldl_append, ht]
      exact hquiet'
    · rw [List.foldl_append, ht]
      exact hup' hback

end System

end Virtuals.Observer
