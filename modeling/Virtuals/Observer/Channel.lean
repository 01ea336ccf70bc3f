/-
  The connection of the listener: what the server has, what waits for a confirmation, and whose it is.

  `Wire` relates redis-py's view to the server's and the pending groups to the confirmations to
  come. `Acks` says which calls a queued command or a pending group belongs to.
-/
import Virtuals.Observer.Accounts

namespace Virtuals.Observer

namespace System

variable {hints : Nat → List HintEntry} {s t : System} {h : Nat}

/-! ## The wire -/

/-- What the server has, and the confirmations the pending groups wait for. -/
structure Wire (s : System) (h : Nat) : Prop where
  served : s.client.pubsub.up = true → (s.client.pubsub.subs h = true ↔
    h ∈ s.client.pubsub.channels ∧ s.client.pubsub.pendingUnsub h = false)
  groups : s.client.pubsub.up = true →
    (s.client.pending h).length ≤ s.client.pubsub.wire.count (.subscribed h)

theorem wire_start (h : Nat) : Wire start h where
  served := by simp [start, Client.new, PubSub.new]
  groups := by simp [start, Client.new]

theorem Wire.frame (hs : Wire s h) (hpubsub : t.client.pubsub = s.client.pubsub)
    (hpending : t.client.pending = s.client.pending) : Wire t h where
  served := by rw [hpubsub]; exact hs.served
  groups := by rw [hpubsub, hpending]; exact hs.groups

theorem Wire.of_down (hdown : s.client.pubsub.up = false) : Wire s h where
  served := fun hup => by rw [hdown] at hup; cases hup
  groups := fun hup => by rw [hdown] at hup; cases hup

theorem subscribe_cases (p : PubSub) (x : Nat) (sent : Bool) :
    (p.up = true ∧ p.subscribe x sent = ({ p with
      channels := if x ∈ p.channels then p.channels else p.channels ++ [x]
      pendingUnsub := Function.update p.pendingUnsub x false
      subs := Function.update p.subs x true
      wire := p.wire ++ [.subscribed x] }, true)) ∨ p.subscribe x sent = (p.dropped, false) := by
  by_cases hc : sent = true ∧ p.up = true
  · exact Or.inl ⟨hc.2, if_pos hc⟩
  · exact Or.inr (if_neg hc)

theorem unsubscribe_cases (p : PubSub) (x : Nat) (sent : Bool) :
    (p.up = true ∧ p.unsubscribe x sent = { p with
      pendingUnsub := Function.update p.pendingUnsub x true
      subs := Function.update p.subs x false
      wire := p.wire ++ [.unsubscribed x] }) ∨
      p.unsubscribe x sent =
        { p with pendingUnsub := Function.update p.pendingUnsub x true }.dropped := by
  by_cases hc : sent = true ∧ p.up = true
  · exact Or.inl ⟨hc.2, if_pos hc⟩
  · exact Or.inr (if_neg hc)

theorem mem_channels_subscribe {l : List Nat} {x h : Nat} :
    h ∈ (if x ∈ l then l else l ++ [x]) ↔ h = x ∨ h ∈ l := by
  split_ifs with hx
  · exact ⟨Or.inr, fun hh => hh.elim (fun he => he ▸ hx) id⟩
  · rw [List.mem_append, List.mem_singleton, or_comm]

/-- An UNSUBSCRIBE, sent or not. -/
theorem Wire.unsubscribe (hs : Wire s h) {client : Client} {x : Nat} {sent : Bool}
    (hpubsub : client.pubsub = s.client.pubsub.unsubscribe x sent)
    (hpending : client.pending = s.client.pending) : Wire (s.setClient client) h := by
  rcases unsubscribe_cases s.client.pubsub x sent with ⟨hup, heq⟩ | heq
  · rw [heq] at hpubsub
    constructor
    · intro _
      simp only [setClient, hpubsub]
      by_cases hx : h = x
      · simp [hx]
      · simpa [hx] using hs.served hup
    · intro _
      simp only [setClient, hpubsub, hpending, List.count_append]
      have := hs.groups hup
      omega
  · rw [heq] at hpubsub
    exact Wire.of_down (by rw [setClient, hpubsub]; rfl)

theorem wire_runCmd (hs : Wire s h) (sent : Bool) : Wire (s.setClient (s.client.runCmd sent)) h := by
  unfold Client.runCmd
  split
  · exact hs
  · rename_i x c rest hq
    rcases subscribe_cases s.client.pubsub x sent with ⟨hup, heq⟩ | heq
    · rw [heq]
      constructor
      · intro _
        simp only [setClient, mem_channels_subscribe]
        by_cases hx : h = x
        · simp [hx]
        · simpa [hx] using hs.served hup
      · intro _
        have := hs.groups hup
        simp only [setClient, List.count_append]
        by_cases hx : h = x
        · subst hx
          simpa using this
        · simp only [Function.update_of_ne hx]
          omega
    · rw [heq]
      exact Wire.of_down rfl
  · exact hs.unsubscribe rfl rfl

theorem wire_read (hs : Wire s h) : Wire s.read h := by
  unfold System.read
  split
  · exact hs
  · rename_i x rest hw
    constructor
    · intro hup
      simp only [setClient, PubSub.onUnsubscribed] at hup ⊢
      split_ifs at hup ⊢ with hx
      · by_cases hhx : h = x
        · subst hhx
          have := (hs.served hup).not.2 (by simp [hx])
          simp [this]
        · simpa [hhx] using hs.served hup
      · exact hs.served hup
    · intro hup
      have hup' : s.client.pubsub.up = true := by
        revert hup
        simp only [setClient, PubSub.onUnsubscribed]
        split_ifs <;> exact id
      have := hs.groups hup'
      rw [hw, List.count_cons_of_ne (by simp)] at this
      simp only [setClient, PubSub.onUnsubscribed]
      split_ifs <;> exact this
  · rename_i x rest hw
    have hgroups : ∀ client progress, Client.onSubscribed
        { s.client with pubsub := { s.client.pubsub with wire := rest } } x = (client, progress) →
        client.pubsub = { s.client.pubsub with wire := rest } ∧
          client.pending = Function.update s.client.pending x (s.client.pending x).tail := by
      intro client progress heq
      unfold Client.onSubscribed at heq
      dsimp only at heq
      split at heq
      · rename_i hnil
        obtain ⟨rfl, -⟩ := Prod.mk.inj heq
        refine ⟨rfl, ?_⟩
        rw [hnil, List.tail_nil, ← hnil, Function.update_eq_self]
      · rename_i group groups hcons
        obtain ⟨rfl, -⟩ := Prod.mk.inj heq
        exact ⟨rfl, by rw [hcons]; rfl⟩
    have hwire : ∀ client : Client, client.pubsub = { s.client.pubsub with wire := rest } →
        client.pending = Function.update s.client.pending x (s.client.pending x).tail →
        Wire (s.setClient client) h := by
      intro client hp hpend
      constructor
      · intro hup
        simp only [setClient, hp] at hup ⊢
        exact hs.served hup
      · intro hup
        simp only [setClient, hp, hpend] at hup ⊢
        have := hs.groups hup
        rw [hw] at this
        by_cases hx : h = x
        · subst hx
          rw [List.count_cons_self] at this
          rw [Function.update_self, List.length_tail]
          omega
        · rw [List.count_cons_of_ne (by simp [Ne.symm hx])] at this
          rwa [Function.update_of_ne hx]
    dsimp only
    split
    all_goals
      rename_i client heq
      obtain ⟨hp, hpend⟩ := hgroups client _ heq
      exact (hwire client hp hpend).frame rfl rfl

theorem wire_reconnect (s : System) {order : List Nat} (hperm : order.Perm s.client.pubsub.channels)
    (h : Nat) : Wire (s.setClient (s.client.onPubsubReconnect order)) h where
  served := by simp [setClient, Client.onPubsubReconnect, PubSub.reconnect]
  groups := fun _ => by
    simp only [setClient, Client.onPubsubReconnect, PubSub.reconnect]
    split_ifs with hc
    · rw [List.length_singleton, Nat.one_le_iff_ne_zero, ← Nat.pos_iff_ne_zero, List.count_pos_iff]
      exact List.mem_map.2 ⟨h, hperm.mem_iff.2 hc.1, rfl⟩
    · exact Nat.zero_le _

/-! ## Whose a command or a group is -/

/-- A call that queued its SUBSCRIBE for `h` and has not seen it confirmed. -/
def SentAt (p : Place) (h : Nat) : Prop :=
  (∃ r, p = .awaiting h r ∨ p = .failing h r) ∨ p = .failed h

/-- The SUBSCRIBE of call `c` for `h` is on its way. -/
def Sent (s : System) (h c : Nat) : Prop := s.client.ack c = {} ∧ SentAt (s.place c) h

/-- A call that has queued nothing. -/
def early : Place → Bool
  | .idle | .first _ _ | .listed _ _ => true
  | _ => false

/-- A call that saw its SUBSCRIBE confirmed. -/
def late (hints : Nat → List HintEntry) : Place → Bool
  | .confirmed _ _ | .registered _ _ | .stale _ _ => true
  | .finishing h _ => decide (hints h ≠ [])
  | _ => false

/-- What the acks keep. -/
structure Acks (hints : Nat → List HintEntry) (s : System) : Prop where
  waiting : ∀ h, ∀ c ∈ (s.client.pending h).flatten, s.Sent h c
  queued : ∀ h c, .sub h c ∈ s.client.queue → s.Sent h c
  apart : ∀ h c, .sub h c ∈ s.client.queue → c ∉ (s.client.pending h).flatten
  once : ∀ h c, s.client.queue.count (.sub h c) ≤ 1
  nodup : ∀ h, (s.client.pending h).flatten.Nodup
  fresh : ∀ c, early (s.place c) = true → s.client.ack c = {}
  late : ∀ c, late hints (s.place c) = true → (s.client.ack c).Confirmed

theorem acks_start : Acks hints start := by
  constructor <;> simp [start, Client.new, System.late]

theorem SentAt.hash {p : Place} {x y : Nat} (hx : SentAt p x) (hy : SentAt p y) : x = y := by
  rcases hx with ⟨r, rfl | rfl⟩ | rfl <;> rcases hy with ⟨r', hy | hy⟩ | hy <;> cases hy <;> rfl

theorem SentAt.not_early {p : Place} {x : Nat} (hx : SentAt p x) : ¬ early p = true := by
  rcases hx with ⟨r, rfl | rfl⟩ | rfl <;> simp [early]

theorem SentAt.not_late {p : Place} {x : Nat} (hx : SentAt p x) :
    ¬ System.late hints p = true := by
  rcases hx with ⟨r, rfl | rfl⟩ | rfl <;> simp [System.late]

/-- A call goes on, what it sent, has not sent or saw confirmed being as its place says. -/
theorem Acks.frame (hs : Acks hints s) (hack : t.client.ack = s.client.ack)
    (hqueue : ∀ h c, t.client.queue.count (.sub h c) = s.client.queue.count (.sub h c))
    (hpending : t.client.pending = s.client.pending)
    (hsent : ∀ c h, s.client.ack c = {} → SentAt (s.place c) h → SentAt (t.place c) h)
    (hearly : ∀ c, early (t.place c) = true → early (s.place c) = true)
    (hlate : ∀ c, System.late hints (t.place c) = true →
      System.late hints (s.place c) = true ∨ (s.client.ack c).Confirmed) : Acks hints t := by
  have hmem : ∀ h c, .sub h c ∈ t.client.queue → .sub h c ∈ s.client.queue := fun h c hc => by
    rw [← List.count_pos_iff] at hc ⊢
    rwa [← hqueue]
  have hkeep : ∀ h c, s.Sent h c → t.Sent h c := fun h c hc =>
    ⟨by rw [hack]; exact hc.1, hsent c h hc.1 hc.2⟩
  constructor
  · rw [hpending]
    exact fun h c hc => hkeep h c (hs.waiting h c hc)
  · exact fun h c hc => hkeep h c (hs.queued h c (hmem h c hc))
  · rw [hpending]
    exact fun h c hc => hs.apart h c (hmem h c hc)
  · intro h c
    rw [hqueue]
    exact hs.once h c
  · rw [hpending]
    exact hs.nodup
  · intro c hc
    rw [hack]
    exact hs.fresh c (hearly c hc)
  · intro c hc
    rw [hack]
    exact (hlate c hc).elim (hs.late c) id

/-- One call moves. -/
theorem Acks.move (hs : Acks hints s) {client : Client} {c : Nat} {p q : Place}
    (hq : s.place c = q) (hack : client.ack = s.client.ack)
    (hqueue : ∀ h c, client.queue.count (.sub h c) = s.client.queue.count (.sub h c))
    (hpending : client.pending = s.client.pending)
    (hsent : ∀ h, s.client.ack c = {} → SentAt q h → SentAt p h)
    (hearly : early p = true → early q = true)
    (hlate : System.late hints p = true → System.late hints q = true ∨ (s.client.ack c).Confirmed) :
    Acks hints ((s.setClient client).move c p) := by
  subst hq
  refine hs.frame hack hqueue hpending (fun a h ha hsent' => ?_) (fun a ha => ?_) fun a ha => ?_
  · rw [place_moved]
    split_ifs with hac
    · subst hac
      exact hsent h ha hsent'
    · exact hsent'
  · rw [place_moved] at ha
    split_ifs at ha with hac
    · rw [hac]
      exact hearly ha
    · exact ha
  · rw [place_moved] at ha
    split_ifs at ha with hac
    · rw [hac]
      exact hlate ha
    · exact Or.inl ha

theorem count_sub_unsub (q : List Cmd) (x h c : Nat) :
    (q ++ [Cmd.unsub x]).count (Cmd.sub h c) = q.count (Cmd.sub h c) := by
  rw [List.count_append]
  simp

theorem acks_dispatch (hs : Acks hints s) {c x r : Nat} (hq : s.place c = .listed x r) :
    Acks hints ((s.setClient (s.client.dispatch (.sub x c))).move c (.awaiting x r)) := by
  have hack := hs.fresh c (by rw [hq]; rfl)
  have hnot : ∀ h, ¬ s.Sent h c := by
    rintro h ⟨-, ⟨r', hp | hp⟩ | hp⟩ <;> rw [hq] at hp <;> cases hp
  have hkeep : ∀ h a, s.Sent h a →
      Sent ((s.setClient (s.client.dispatch (.sub x c))).move c (.awaiting x r)) h a := by
    intro h a ha
    refine ⟨ha.1, ?_⟩
    rw [place_moved, if_neg fun hac => hnot h (by rw [← hac]; exact ha)]
    exact ha.2
  have hself : Sent ((s.setClient (s.client.dispatch (.sub x c))).move c (.awaiting x r)) x c :=
    ⟨hack, by rw [place_moved, if_pos rfl]; exact Or.inl ⟨r, Or.inl rfl⟩⟩
  have hmem : ∀ h a, .sub h a ∈ s.client.queue ++ [.sub x c] →
      .sub h a ∈ s.client.queue ∨ (h = x ∧ a = c) := fun h a ha => by
    rcases List.mem_append.1 ha with ha | ha
    · exact Or.inl ha
    · exact Or.inr (Cmd.sub.inj (List.mem_singleton.1 ha))
  constructor
  · exact fun h a ha => hkeep h a (hs.waiting h a ha)
  · intro h a ha
    rcases hmem h a ha with ha | ⟨rfl, rfl⟩
    · exact hkeep h a (hs.queued h a ha)
    · exact hself
  · intro h a ha hp
    rcases hmem h a ha with ha | ⟨rfl, rfl⟩
    · exact hs.apart h a ha hp
    · exact hnot h (hs.waiting h a hp)
  · intro h a
    change (s.client.queue ++ [Cmd.sub x c]).count (.sub h a) ≤ 1
    rw [List.count_append]
    by_cases hh : Cmd.sub h a = .sub x c
    · obtain ⟨rfl, rfl⟩ := Cmd.sub.inj hh
      rw [List.count_eq_zero_of_not_mem fun hin => hnot h (hs.queued h a hin)]
      simp
    · have := hs.once h a
      rw [List.count_singleton, if_neg (by simpa using Ne.symm hh)]
      omega
  · exact hs.nodup
  · intro a ha
    rw [place_moved] at ha
    split_ifs at ha
    · cases ha
    · exact hs.fresh a ha
  · intro a ha
    rw [place_moved] at ha
    split_ifs at ha
    · cases ha
    · exact hs.late a ha

/-- The listener runs a command: a SUBSCRIBE goes from the queue to the pending groups, or its
    call hears that it failed. -/
theorem acks_runCmd (hs : Acks hints s) (sent : Bool) :
    Acks hints (s.setClient (s.client.runCmd sent)) := by
  unfold Client.runCmd
  split
  · exact hs
  · rename_i x c rest hq
    have hhead : Cmd.sub x c ∈ s.client.queue := by simp [hq]
    have hnot : ∀ y, Cmd.sub y c ∉ rest := by
      intro y hy
      have hy' := hs.queued y c (by simp [hq, hy])
      obtain rfl := (hs.queued x c hhead).2.hash hy'.2
      have := hs.once x c
      rw [hq, List.count_cons_self] at this
      have := List.count_pos_iff.2 hy
      omega
    have hrest : ∀ h a, Cmd.sub h a ∈ rest → a ≠ c ∧ Cmd.sub h a ∈ s.client.queue := fun h a ha =>
      ⟨fun hac => hnot h (hac ▸ ha), by simp [hq, ha]⟩
    have hcount : ∀ h a, rest.count (Cmd.sub h a) ≤ 1 := fun h a => by
      have := hs.once h a
      rw [hq, List.count_cons] at this
      omega
    split
    · -- the SUBSCRIBE is sent
      have hpend : ∀ h, (Function.update s.client.pending x (s.client.pending x ++ [[c]]) h).flatten
          = (s.client.pending h).flatten ++ if h = x then [c] else [] := by
        intro h
        by_cases hx : h = x
        · subst hx
          simp
        · simp [hx]
      constructor
      · intro h a ha
        simp only [setClient] at ha
        rw [hpend] at ha
        rcases List.mem_append.1 ha with ha | ha
        · exact hs.waiting h a ha
        · split_ifs at ha with hx
          · rw [hx, List.mem_singleton.1 ha]
            exact hs.queued x c hhead
          · cases ha
      · exact fun h a ha => hs.queued h a (hrest h a ha).2
      · intro h a ha hp
        simp only [setClient] at hp
        rw [hpend] at hp
        rcases List.mem_append.1 hp with hp | hp
        · exact hs.apart h a (hrest h a ha).2 hp
        · split_ifs at hp
          · exact (hrest h a ha).1 (List.mem_singleton.1 hp)
          · cases hp
      · exact hcount
      · intro h
        simp only [setClient]
        rw [hpend]
        split_ifs with hx
        · rw [List.nodup_append]
          refine ⟨hs.nodup h, by simp, fun a ha b hb => ?_⟩
          rw [List.mem_singleton.1 hb]
          rintro rfl
          exact hs.apart x a hhead (hx ▸ ha)
        · rw [List.append_nil]
          exact hs.nodup h
      · exact hs.fresh
      · exact hs.late
    · -- the send failed, and the call of this command hears of it
      have hne : ∀ h a, s.Sent h a → a ≠ c →
          Sent (s.setClient { s.client with
            queue := rest
            pubsub := (s.client.pubsub.dropped)
            ack := Function.update s.client.ack c
              { s.client.ack c with error := true, set := true } }) h a := fun h a ha hac =>
        ⟨by simp only [setClient, Function.update_of_ne hac]; exact ha.1, ha.2⟩
      have hplace : SentAt (s.place c) x := (hs.queued x c hhead).2
      constructor
      · intro h a ha
        exact hne h a (hs.waiting h a ha) fun hac => by
          subst hac
          obtain rfl := hplace.hash (hs.waiting h a ha).2
          exact hs.apart x a hhead ha
      · exact fun h a ha => hne h a (hs.queued h a (hrest h a ha).2) (hrest h a ha).1
      · exact fun h a ha => hs.apart h a (hrest h a ha).2
      · exact hcount
      · exact hs.nodup
      · intro a ha
        have hac : a ≠ c := fun hac => hplace.not_early (hac ▸ ha)
        simp only [setClient, Function.update_of_ne hac]
        exact hs.fresh a ha
      · intro a ha
        have hac : a ≠ c := fun hac => hplace.not_late (hac ▸ ha)
        simp only [setClient, Function.update_of_ne hac]
        exact hs.late a ha
  · rename_i x rest hq
    refine hs.frame rfl (fun h c => ?_) rfl (fun _ _ _ => id) (fun _ => id) fun _ => Or.inl
    rw [setClient, hq, List.count_cons_of_ne (by simp)]

/-- The oldest group of `x` is released. -/
theorem acks_onSubscribed (hs : Acks hints s) {x : Nat} {group : List Nat}
    {groups : List (List Nat)} (hp : s.client.pending x = group :: groups) {client : Client}
    (hqueue : client.queue = s.client.queue)
    (hpending : client.pending = Function.update s.client.pending x groups)
    (hack : ∀ c, client.ack c = if c ∈ group then
      { s.client.ack c with set := true, gen := some s.client.connGen } else s.client.ack c) :
    Acks hints (s.setClient client) := by
  have hin : ∀ c ∈ group, c ∈ (s.client.pending x).flatten := fun c hc => by simp [hp, hc]
  have hnodup := hs.nodup x
  rw [hp, List.flatten_cons, List.nodup_append] at hnodup
  have hsub : ∀ h c, c ∈ (client.pending h).flatten → c ∈ (s.client.pending h).flatten ∧ c ∉ group := by
    intro h c hc
    rw [hpending] at hc
    by_cases hx : h = x
    · subst hx
      rw [Function.update_self] at hc
      exact ⟨by simp [hp, List.mem_flatten.1 hc], fun hg => hnodup.2.2 c hg c hc rfl⟩
    · rw [Function.update_of_ne hx] at hc
      exact ⟨hc, fun hg => hx ((hs.waiting h c hc).2.hash (hs.waiting x c (hin c hg)).2)⟩
  have hkeep : ∀ h c, s.Sent h c → c ∉ group → Sent (s.setClient client) h c := fun h c hc hg =>
    ⟨by rw [setClient, hack, if_neg hg]; exact hc.1, hc.2⟩
  constructor
  · exact fun h c hc => hkeep h c (hs.waiting h c (hsub h c hc).1) (hsub h c hc).2
  · intro h c hc
    simp only [setClient, hqueue] at hc
    refine hkeep h c (hs.queued h c hc) fun hg => ?_
    obtain rfl := (hs.queued h c hc).2.hash (hs.waiting x c (hin c hg)).2
    exact hs.apart h c hc (hin c hg)
  · intro h c hc hp'
    simp only [setClient, hqueue] at hc
    exact hs.apart h c hc (hsub h c hp').1
  · simp only [setClient, hqueue]
    exact hs.once
  · intro h
    simp only [setClient, hpending]
    by_cases hx : h = x
    · subst hx
      rw [Function.update_self]
      exact hnodup.2.1
    · rw [Function.update_of_ne hx]
      exact hs.nodup h
  · intro c hc
    have hg : c ∉ group := fun hg => (hs.waiting x c (hin c hg)).2.not_early hc
    rw [setClient, hack, if_neg hg]
    exact hs.fresh c hc
  · intro c hc
    have := hs.late c hc
    rw [setClient, hack]
    split_ifs
    · exact ⟨rfl, this.2⟩
    · exact this

theorem acks_reconnect (hs : Acks hints s) (order : List Nat) :
    Acks hints (s.setClient (s.client.onPubsubReconnect order)) := by
  have hpend : ∀ h, ((s.client.onPubsubReconnect order).pending h).flatten =
      (s.client.pending h).flatten ∨ ((s.client.onPubsubReconnect order).pending h).flatten = [] := by
    intro h
    simp only [Client.onPubsubReconnect]
    split_ifs
    · exact Or.inl (by simp)
    · exact Or.inr rfl
  have hsub : ∀ h, ∀ c ∈ ((s.client.onPubsubReconnect order).pending h).flatten,
      c ∈ (s.client.pending h).flatten := by
    intro h c hc
    rcases hpend h with he | he <;> rw [he] at hc
    · exact hc
    · cases hc
  constructor
  · exact fun h c hc => hs.waiting h c (hsub h c hc)
  · exact hs.queued
  · exact fun h c hc hp => hs.apart h c hc (hsub h c hp)
  · exact hs.once
  · intro h
    rcases hpend h with he | he
    · simp only [setClient]
      rw [he]
      exact hs.nodup h
    · simp only [setClient]
      rw [he]
      exact List.nodup_nil
  · exact hs.fresh
  · exact hs.late

theorem acks_read (hs : Acks hints s) : Acks hints s.read := by
  unfold System.read
  split
  · exact hs
  · exact hs.frame rfl (fun _ _ => rfl) rfl (fun _ _ _ => id) (fun _ => id) fun _ => Or.inl
  · rename_i x rest hw
    dsimp only
    rcases hp : s.client.pending x with _ | ⟨group, groups⟩
    · have heq : Client.onSubscribed { s.client with
          pubsub := { s.client.pubsub with wire := rest } } x =
          ({ s.client with pubsub := { s.client.pubsub with wire := rest } }, .resubscribed) := by
        simp [Client.onSubscribed, hp]
      rw [heq]
      exact hs.frame rfl (fun _ _ => rfl) rfl (fun _ _ _ => id) (fun _ => id) fun _ => Or.inl
    · have h1 : ∀ client progress, Client.onSubscribed { s.client with
          pubsub := { s.client.pubsub with wire := rest } } x = (client, progress) →
          Acks hints (s.setClient client) := by
        intro client progress heq
        simp only [Client.onSubscribed, hp, Prod.mk.injEq] at heq
        obtain ⟨rfl, -⟩ := heq
        exact acks_onSubscribed hs hp rfl rfl fun _ => rfl
      split
      all_goals
        rename_i client heq
        exact (h1 client _ heq).frame rfl (fun _ _ => rfl) rfl (fun _ _ _ => id) (fun _ => id)
          fun _ => Or.inl

theorem rollBack_sends (s : Client) (x r : Nat) (subscribed : Bool) :
    (s.rollBack x r subscribed).ack = s.ack ∧
      (∀ h a, (s.rollBack x r subscribed).queue.count (.sub h a) = s.queue.count (.sub h a)) ∧
      (s.rollBack x r subscribed).pending = s.pending := by
  unfold Client.rollBack Client.dispatch
  dsimp only
  split_ifs
  · exact ⟨rfl, count_sub_unsub _ x, rfl⟩
  · exact ⟨rfl, fun _ _ => rfl, rfl⟩
  · exact ⟨rfl, fun _ _ => rfl, rfl⟩

/-- (PROVED) Every step keeps whose a command or a group is. -/
theorem acks_step (hs : Acks hints s) (a : Act) : Acks hints (step hints s a) := by
  have hsame : ∀ t : System, t.client.ack = s.client.ack → t.client.queue = s.client.queue →
      t.client.pending = s.client.pending → t.place = s.place → Acks hints t :=
    fun t h1 h2 h3 h4 => hs.frame h1 (fun _ _ => by rw [h2]) h3 (fun _ _ _ => by rw [h4]; exact id)
      (fun _ => by rw [h4]; exact id) (fun _ => by rw [h4]; exact Or.inl)
  have hmove : ∀ (client : Client) (c : Nat) (p q : Place), s.place c = q →
      client.ack = s.client.ack → client.queue = s.client.queue →
      client.pending = s.client.pending → (∀ h, s.client.ack c = {} → SentAt q h → SentAt p h) →
      (early p = true → early q = true) →
      (System.late hints p = true → System.late hints q = true ∨ (s.client.ack c).Confirmed) →
      Acks hints ((s.setClient client).move c p) :=
    fun client c p q hq h1 h2 h3 => hs.move hq h1 (fun _ _ => by rw [h2]) h3
  cases a with
  | subscribe c x =>
    unfold step
    dsimp only
    split_ifs with hidle
    swap
    · exact hs
    have hbegan : ∀ (client : Client) (p : Place), client.ack = s.client.ack →
        client.queue = s.client.queue → client.pending = s.client.pending →
        System.late hints p = false →
        Acks hints ((({ s with began := Function.update s.began c s.client.connGen }).setClient
          client).move c p) := fun client p h1 h2 h3 h4 =>
      (hmove client c p .idle hidle h1 h2 h3 (fun h _ hsent => by
        rcases hsent with ⟨r, hp | hp⟩ | hp <;> cases hp) (fun _ => rfl)
        (fun hl => by rw [h4] at hl; cases hl)).frame rfl (fun _ _ => rfl) rfl (fun _ _ _ => id)
          (fun _ => id) fun _ => Or.inl
    have hreg : (s.client.register x).1.ack = s.client.ack ∧
        (s.client.register x).1.queue = s.client.queue ∧
        (s.client.register x).1.pending = s.client.pending := by
      unfold Client.register
      dsimp only
      split_ifs <;> exact ⟨rfl, rfl, rfl⟩
    split
    all_goals
      rename_i heq
      rw [heq] at hreg
      exact hbegan _ _ hreg.1 hreg.2.1 hreg.2.2 rfl
  | list c =>
    unfold step
    dsimp only
    split
    · rename_i x r hq
      split_ifs with hne
      · exact hmove _ c _ _ hq rfl rfl rfl (fun h _ hsent => by
          rcases hsent with ⟨r, hp | hp⟩ | hp <;> cases hp) (fun _ => rfl) (fun hl => by cases hl)
      · refine hmove s.client c _ _ hq rfl rfl rfl (fun h _ hsent => ?_) (fun he => ?_) fun hl => ?_
        · rcases hsent with ⟨r, hp | hp⟩ | hp <;> cases hp
        · cases he
        · simp only [System.late, decide_eq_true_eq] at hl
          exact absurd hl hne
    · exact hs
  | listFails c =>
    unfold step
    dsimp only
    split
    · rename_i x r hq
      have hroll := rollBack_sends s.client x r false
      refine hs.move hq hroll.1 hroll.2.1 hroll.2.2 (fun h _ hsent => ?_) (fun he => ?_) fun hl => ?_
      · rcases hsent with ⟨r', hp | hp⟩ | hp <;> cases hp
      · cases he
      · cases hl
    · exact hs
  | dispatch c =>
    unfold step
    dsimp only
    split
    · rename_i x r hq
      exact acks_dispatch hs hq
    · exact hs
  | ackWake c =>
    unfold step
    dsimp only
    split
    · rename_i x r hq
      split_ifs with hset herr
      · refine hmove s.client c _ _ hq rfl rfl rfl (fun h he => ?_) (fun he => ?_) fun hl => ?_
        · rw [he] at hset
          cases hset
        · cases he
        · cases hl
      · refine hmove s.client c _ _ hq rfl rfl rfl (fun h he => ?_) (fun he => ?_) fun _ => ?_
        · rw [he] at hset
          cases hset
        · cases he
        · exact Or.inr ⟨hset, by simpa using herr⟩
      · exact hs
    · exact hs
  | ackTimeout c =>
    unfold step
    dsimp only
    split
    · rename_i x r hq
      refine hmove s.client c _ _ hq rfl rfl rfl (fun h _ hsent => ?_) (fun he => ?_) fun hl => ?_
      · rcases hsent with ⟨r', hp | hp⟩ | hp <;> cases hp
        exact Or.inl ⟨r, Or.inr rfl⟩
      · cases he
      · cases hl
    · exact hs
  | hint c ok =>
    unfold step
    dsimp only
    split
    · rename_i x r hq
      split_ifs
      · exact (hmove s.client c (.registered x r) _ hq rfl rfl rfl (fun h _ hsent => by
          rcases hsent with ⟨r', hp | hp⟩ | hp <;> cases hp) (fun he => by cases he)
          (fun _ => Or.inl rfl)).frame rfl (fun _ _ => rfl) rfl (fun _ _ _ => id) (fun _ => id)
            fun _ => Or.inl
      · exact hmove s.client c _ _ hq rfl rfl rfl (fun h _ hsent => by
          rcases hsent with ⟨r', hp | hp⟩ | hp <;> cases hp) (fun he => by cases he)
          (fun hl => by cases hl)
    · exact hs
  | check c =>
    unfold step
    dsimp only
    split
    · rename_i x r hq
      have hset : (s.client.setReady x r).ack = s.client.ack ∧
          (s.client.setReady x r).queue = s.client.queue ∧
          (s.client.setReady x r).pending = s.client.pending := by
        unfold Client.setReady
        split_ifs <;> exact ⟨rfl, rfl, rfl⟩
      split_ifs
      · exact hmove _ c _ _ hq hset.1 hset.2.1 hset.2.2 (fun h _ hsent => by
          rcases hsent with ⟨r', hp | hp⟩ | hp <;> cases hp) (fun he => by cases he)
          (fun _ => Or.inl rfl)
      · exact hmove s.client c _ _ hq rfl rfl rfl (fun h _ hsent => by
          rcases hsent with ⟨r', hp | hp⟩ | hp <;> cases hp) (fun he => by cases he)
          (fun _ => Or.inl rfl)
    · exact hs
  | readyWake c =>
    unfold step
    dsimp only
    split
    · rename_i x r hq
      split_ifs
      · exact hmove s.client c _ _ hq rfl rfl rfl (fun h _ hsent => by
          rcases hsent with ⟨r', hp | hp⟩ | hp <;> cases hp) (fun he => by cases he)
          (fun _ => Or.inl rfl)
      · exact hs
    · exact hs
  | readyTimeout c =>
    unfold step
    dsimp only
    split
    · rename_i x r hq
      exact hmove s.client c _ _ hq rfl rfl rfl (fun h _ hsent => by
        rcases hsent with ⟨r', hp | hp⟩ | hp <;> cases hp) (fun he => by cases he)
        (fun hl => by cases hl)
    · exact hs
  | rollBack c =>
    unfold step
    dsimp only
    split
    · rename_i x r hq
      have hroll := rollBack_sends s.client x r true
      refine hs.move hq hroll.1 hroll.2.1 hroll.2.2 (fun h _ hsent => ?_) (fun he => ?_) fun hl => ?_
      · rcases hsent with ⟨r', hp | hp⟩ | hp <;> cases hp
        exact Or.inr rfl
      · cases he
      · cases hl
    · exact hs
  | finish c =>
    unfold step
    dsimp only
    split
    · rename_i x r hq
      have hset : (s.client.setReady x r).ack = s.client.ack ∧
          (s.client.setReady x r).queue = s.client.queue ∧
          (s.client.setReady x r).pending = s.client.pending := by
        unfold Client.setReady
        split_ifs <;> exact ⟨rfl, rfl, rfl⟩
      exact hmove _ c _ _ hq hset.1 hset.2.1 hset.2.2 (fun h _ hsent => by
        rcases hsent with ⟨r', hp | hp⟩ | hp <;> cases hp) (fun he => by cases he)
        (fun hl => by cases hl)
    · exact hs
  | wake c =>
    unfold step
    dsimp only
    split
    · rename_i x r hq
      split_ifs
      all_goals first
        | exact hs
        | exact hmove s.client c _ _ hq rfl rfl rfl (fun h _ hsent => by
            rcases hsent with ⟨r', hp | hp⟩ | hp <;> cases hp) (fun he => by cases he)
            (fun hl => by cases hl)
    · exact hs
  | timeout c =>
    unfold step
    dsimp only
    split
    · rename_i x r hq
      exact hmove s.client c _ _ hq rfl rfl rfl (fun h _ hsent => by
        rcases hsent with ⟨r', hp | hp⟩ | hp <;> cases hp) (fun he => by cases he)
        (fun hl => by cases hl)
    · exact hs
  | release c =>
    unfold step
    dsimp only
    split
    · rename_i x r hq
      have hrel : (s.client.release x r).ack = s.client.ack ∧
          (s.client.release x r).queue = s.client.queue ∧
          (s.client.release x r).pending = s.client.pending := by
        unfold Client.release
        dsimp only
        split_ifs <;> exact ⟨rfl, rfl, rfl⟩
      exact hmove _ c _ _ hq hrel.1 hrel.2.1 hrel.2.2 (fun h _ hsent => by
        rcases hsent with ⟨r', hp | hp⟩ | hp <;> cases hp) (fun he => by cases he)
        (fun hl => by cases hl)
    · exact hs
  | unsubscribe c =>
    unfold step
    dsimp only
    split
    · rename_i x hq
      have hunreg : (s.client.unregister x).ack = s.client.ack ∧
          (∀ h a, (s.client.unregister x).queue.count (.sub h a) = s.client.queue.count (.sub h a)) ∧
          (s.client.unregister x).pending = s.client.pending := by
        unfold Client.unregister Client.dispatch
        dsimp only
        split_ifs
        · exact ⟨rfl, fun _ _ => rfl, rfl⟩
        · exact ⟨rfl, count_sub_unsub _ x, rfl⟩
        · exact ⟨rfl, fun _ _ => rfl, rfl⟩
      exact hs.move hq hunreg.1 hunreg.2.1 hunreg.2.2 (fun h _ hsent => by
        rcases hsent with ⟨r', hp | hp⟩ | hp <;> cases hp) (fun he => by cases he)
        (fun hl => by cases hl)
    · exact hs
  | runCmd sent =>
    unfold step
    dsimp only
    split_ifs
    · exact acks_runCmd hs sent
    · exact hs
  | read =>
    unfold step
    dsimp only
    split_ifs
    · exact acks_read hs
    · exact hs
  | look =>
    unfold step
    dsimp only
    split
    · split_ifs <;> exact hsame _ rfl rfl rfl rfl
    · split_ifs <;> exact hsame _ rfl rfl rfl rfl
    · exact hs
  | unsubscribeOrphan sent =>
    unfold step
    dsimp only
    split
    · unfold Client.unsubscribeOrphan
      split_ifs <;> exact hsame _ rfl rfl rfl rfl
    · exact hs
  | drop => exact hsame _ rfl rfl rfl rfl
  | lost =>
    unfold step
    dsimp only
    split_ifs
    · exact hsame _ rfl rfl rfl rfl
    · exact hs
  | reconnect order =>
    unfold step
    dsimp only
    split_ifs
    · exact acks_reconnect hs order
    · exact hs
  | take =>
    unfold step
    dsimp only
    split
    · exact hsame _ rfl rfl rfl rfl
    · exact hs
  | readEntries =>
    unfold step
    dsimp only
    split
    · split_ifs <;> exact hsame _ rfl rfl rfl rfl
    · exact hs
  | reregister ok =>
    unfold step
    dsimp only
    split
    · split_ifs <;> exact hsame _ rfl rfl rfl rfl
    · exact hs
  | mark =>
    unfold step
    dsimp only
    split
    · rename_i x gen hm
      unfold Client.markReady Client.setReady
      split
      · exact hsame _ rfl rfl rfl rfl
      · split_ifs <;> exact hsame _ rfl rfl rfl rfl
    · exact hs

end System

end Virtuals.Observer
