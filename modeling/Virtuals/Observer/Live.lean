/-
  The channel of a hash, from its first registrant to the end of its last subscription.

  While the hash is in the local tables, its first registrant has still to queue the SUBSCRIBE, or
  it is the last command of the hash in the queue, or it was sent and nothing that is queued or under
  way takes it back (`Channel`). Once the hash has left the tables, every SUBSCRIBE that is still
  queued has an UNSUBSCRIBE behind it, and where the server has the channel an UNSUBSCRIBE is queued
  or a confirmation to come will find it an orphan (`Stray`).
-/
import Virtuals.Observer.Unconfirmed

namespace Virtuals.Observer

/-! ## The commands of a hash -/

def Cmd.hash : Cmd → Nat
  | .sub h _ | .unsub h => h

/-- No command of `h` is queued. -/
def Clear (h : Nat) (q : List Cmd) : Prop := ∀ cmd ∈ q, cmd.hash ≠ h

/-- Every SUBSCRIBE of `h` has an UNSUBSCRIBE of `h` behind it. -/
def Trailed (h : Nat) : List Cmd → Prop
  | [] => True
  | .sub x _ :: q => (x = h → .unsub h ∈ q) ∧ Trailed h q
  | .unsub _ :: q => Trailed h q

/-- The SUBSCRIBE of call `c` is the last command of `h`. -/
def Queued (h c : Nat) (q : List Cmd) : Prop :=
  ∃ before behind, q = before ++ .sub h c :: behind ∧ Trailed h before ∧ Clear h behind

section Queue

variable {h c x : Nat} {q : List Cmd} {cmd : Cmd}

theorem trailed_unsub_self (q : List Cmd) : Trailed h (q ++ [.unsub h]) := by
  induction q with
  | nil => trivial
  | cons cmd q ih =>
    cases cmd with
    | sub x c => exact ⟨fun _ => List.mem_append_right q (List.mem_singleton_self _), ih⟩
    | unsub x => exact ih

theorem Clear.trailed (hq : Clear h q) : Trailed h q := by
  induction q with
  | nil => trivial
  | cons cmd q ih =>
    have hrest := ih fun x hx => hq x (List.mem_cons_of_mem cmd hx)
    cases cmd with
    | sub x c => exact ⟨fun hx => absurd hx (hq _ List.mem_cons_self), hrest⟩
    | unsub x => exact hrest

theorem Trailed.append {q' : List Cmd} (hq : Trailed h q) (hq' : Clear h q') :
    Trailed h (q ++ q') := by
  induction q with
  | nil => exact hq'.trailed
  | cons cmd q ih =>
    cases cmd with
    | sub x c => exact ⟨fun hx => List.mem_append_left _ (hq.1 hx), ih hq.2⟩
    | unsub x => exact ih hq

theorem Trailed.tail (hq : Trailed h (cmd :: q)) : Trailed h q := by
  cases cmd with
  | sub x d => exact hq.2
  | unsub x => exact hq

theorem Clear.tail (hq : Clear h (cmd :: q)) : cmd.hash ≠ h ∧ Clear h q :=
  ⟨hq cmd List.mem_cons_self, fun x hx => hq x (List.mem_cons_of_mem cmd hx)⟩

theorem Clear.append {q' : List Cmd} (hq : Clear h q) (hq' : Clear h q') : Clear h (q ++ q') :=
  fun x hx => (List.mem_append.1 hx).elim (hq x) (hq' x)

theorem clear_singleton (hcmd : cmd.hash ≠ h) : Clear h [cmd] := fun _ hx =>
  List.mem_singleton.1 hx ▸ hcmd

theorem clear_nil : Clear h [] := fun _ hx => absurd hx List.not_mem_nil

theorem Trailed.append_unsub (hq : Trailed h q) (x : Nat) : Trailed h (q ++ [.unsub x]) := by
  by_cases hx : x = h
  · exact hx ▸ trailed_unsub_self q
  · exact hq.append (clear_singleton hx)

theorem Queued.append {q' : List Cmd} (hq : Queued h c q) (hq' : Clear h q') :
    Queued h c (q ++ q') := by
  obtain ⟨before, behind, rfl, htrailed, hclear⟩ := hq
  exact ⟨before, behind ++ q', by simp, htrailed, hclear.append hq'⟩

theorem Queued.mem (hq : Queued h c q) : .sub h c ∈ q := by
  obtain ⟨before, behind, rfl, -, -⟩ := hq
  exact List.mem_append_right before List.mem_cons_self

/-- The command in front is run: it is the SUBSCRIBE, or the SUBSCRIBE comes later. -/
theorem Queued.tail (hq : Queued h c (cmd :: q)) : cmd = .sub h c ∧ Clear h q ∨ Queued h c q := by
  obtain ⟨before, behind, heq, htrailed, hclear⟩ := hq
  cases before with
  | nil =>
    obtain ⟨rfl, rfl⟩ := List.cons.inj heq
    exact .inl ⟨rfl, hclear⟩
  | cons first before =>
    obtain ⟨rfl, rfl⟩ := List.cons.inj heq
    exact .inr ⟨before, behind, rfl, htrailed.tail, hclear⟩

theorem Trailed.queued (hq : Trailed h q) : Queued h c (q ++ [.sub h c]) :=
  ⟨q, [], rfl, hq, clear_nil⟩

end Queue

/-- The hash a call has put into the local tables. -/
def Place.listedOf : Place → Option Nat
  | .listed h _ | .awaiting h _ | .confirmed h _ | .registered h _ | .stale h _ | .failing h _ =>
    some h
  | _ => none

/-- The hash whose confirmation the listener is at work on. -/
def Listener.hash : Listener → Option Nat
  | .idle => none
  | .checking h | .resubscribed h | .orphan h => some h

namespace System

variable {hints : Nat → List HintEntry} {s : System} {a : Act} {h c r : Nat}

/-! ## The wire, in every step -/

/-- (PROVED) Every step keeps what the server has and the confirmations to come. -/
theorem wire_step (hs : Wire s h) (a : Act) : Wire (step hints s a) h := by
  cases ha : aside a with
  | true =>
    obtain ⟨hsame, -⟩ := aside_step hints s ha
    exact hs.frame hsame.pubsub hsame.pending
  | false =>
    cases a with
    | dispatch d =>
      unfold step
      dsimp only
      split <;> exact hs.frame rfl rfl
    | rollBack d =>
      unfold step
      dsimp only
      split
      · exact hs.frame (rollBack_channel ..).pubsub (rollBack_channel ..).pending
      · exact hs
    | unsubscribe d =>
      unfold step
      dsimp only
      split
      · exact hs.frame (unregister_channel ..).pubsub (unregister_channel ..).pending
      · exact hs
    | runCmd sent =>
      unfold step
      dsimp only
      split_ifs
      · exact wire_runCmd hs sent
      · exact hs
    | read =>
      unfold step
      dsimp only
      split_ifs
      · exact wire_read hs
      · exact hs
    | look =>
      unfold step
      dsimp only
      repeat' split
      all_goals exact hs.frame rfl rfl
    | unsubscribeOrphan sent =>
      unfold step
      dsimp only
      split
      · rename_i x hl
        have hsent : Wire (s.setClient
            { s.client with pubsub := s.client.pubsub.unsubscribe x sent }) h :=
          hs.unsubscribe rfl rfl
        unfold Client.unsubscribeOrphan
        split_ifs
        · exact hs.frame rfl rfl
        · exact hsent.frame rfl rfl
      · exact hs
    | drop => exact .of_down rfl
    | reconnect order =>
      unfold step
      dsimp only
      split_ifs with hc
      · exact wire_reconnect s hc.2.2 h
      · exact hs
    | _ => cases ha

/-! ## The invariant -/

/-- redis-py keeps the channel subscribed. -/
def Held (s : System) (h : Nat) : Prop :=
  h ∈ s.client.pubsub.channels ∧ s.client.pubsub.pendingUnsub h = false

/-- The SUBSCRIBE of the first registrant could not be sent. -/
def Refused (s : System) (h : Nat) : Prop :=
  ∃ c r, (s.place c = .awaiting h r ∨ s.place c = .failing h r) ∧ (s.client.ack c).error = true

/-- How far the channel of a hash in the local tables is. -/
inductive Channel (s : System) (h : Nat) : Prop
  | listed (c r : Nat) (hplace : s.place c = .listed h r) (hqueue : Trailed h s.client.queue)
  | queued (c r : Nat) (hplace : s.place c = .awaiting h r ∨ s.place c = .failing h r)
      (hqueue : Queued h c s.client.queue)
  | sent (hqueue : Clear h s.client.queue) (hlistener : s.listener ≠ .orphan h)
      (hlisted : ∀ c r, s.place c ≠ .listed h r) (hheld : Held s h ∨ Refused s h)

/-- What becomes of a channel that the server has and nobody uses. -/
def Stray (s : System) (h : Nat) : Prop :=
  s.client.pubsub.up = true → s.client.pubsub.subs h = true →
    .unsub h ∈ s.client.queue ∨ .subscribed h ∈ s.client.pubsub.wire ∨ s.listener.hash = some h

structure Live (hints : Nat → List HintEntry) (s : System) (h : Nat) : Prop where
  past : ∀ c, (s.place c).listedOf = some h → hints h ≠ []
  first : ∀ c r, s.place c = .first h r → s.client.entries h = none
  dead : s.client.entries h = none → Trailed h s.client.queue ∧ Stray s h
  channel : s.client.entries h ≠ none → Channel s h

theorem live_start : Live hints start h where
  past := fun c hc => by cases hc
  first := fun c r hc => by cases hc
  dead := fun _ => ⟨trivial, fun _ hsubs => by cases hsubs⟩
  channel := fun hne => absurd rfl hne

/-! ## What the tables say -/

theorem Account.entries_of_refs (hs : Account hints s h) (hrefs : (s.client.refcount h).getD 0 = 0) :
    s.client.entries h = none := by
  cases he : s.client.entries h with
  | none => rfl
  | some x =>
    obtain ⟨n, hn⟩ := Option.ne_none_iff_exists'.1 fun hnone =>
      absurd (hs.tables.1 hnone) (hs.entries x he).2.2
    rw [hn] at hrefs
    exact absurd (hn.trans (congrArg some hrefs)) hs.positive

/-- A first registrant that listed its entries has them in the local tables. -/
theorem Account.entries_of_listed (hs : Account hints s h) (hc : (s.place c).firstOf = some (h, r))
    (hlisted : ∀ r, s.place c ≠ .first h r) (hne : hints h ≠ []) :
    s.client.entries h = some (hints h) := by
  obtain ⟨-, r', hready, -⟩ := hs.first c r hc
  rcases hs.listed (by simp [hready]) hne with hentries | ⟨d, r₁, hd⟩
  · exact hentries
  · obtain rfl := hs.only_of_place hc hd rfl
    exact absurd hd (hlisted r₁)

theorem past_step (hs : Live hints s h) (hc : ((step hints s a).place c).listedOf = some h) :
    hints h ≠ [] := by
  rcases place_step hints s a c with hsame | hgo
  · exact hs.past c (hsame ▸ hc)
  · have hpast := hs.past c
    generalize s.place c = p at hgo hpast
    generalize (step hints s a).place c = q at hgo hc
    cases hgo with
    | list x r hne => exact Option.some.inj hc ▸ hne
    | _ => first | exact hpast hc | cases hc

theorem place_list (hq : s.place c = .first h r) (r' : Nat) :
    (step hints s (.list c)).place c ≠ .first h r' := by
  simp only [step, hq]
  split_ifs <;> simp [place_move]

theorem first_step (hacc : Account hints s h) (hs : Live hints s h)
    (hc : (step hints s a).place c = .first h r) : (step hints s a).client.entries h = none := by
  have hentries : s.client.entries h = none := by
    rcases place_step hints s a c with hsame | hgo
    · exact hs.first c r (hsame ▸ hc)
    · rw [hc] at hgo
      generalize s.place c = p at hgo
      cases hgo with
      | first _ hrefs => exact hacc.entries_of_refs hrefs
  rcases (client_step hints s a).entries h with hsame | ⟨d, r', rfl, hd, -⟩ |
    ⟨-, -, -, -, -, hnone⟩ | ⟨-, -, -, -, hnone⟩
  · exact hsame.trans hentries
  · -- only the first registrant lists, and it goes on
    have hfirst : (s.place c).firstOf = some (h, r) := by
      have hcalled : ((step hints s (.list d)).place c).firstOf = some (h, r) := by rw [hc]; rfl
      rcases firstOf_step hcalled with hfirst | ⟨ha, -⟩
      · exact hfirst
      · cases ha
    obtain rfl := hacc.only_of_place hfirst hd rfl
    exact absurd hc (place_list hd r)
  · exact hnone
  · exact hnone

/-! ## The calls beside the listener -/

/-- A step beside the listener: the calls go on as far as the queue lets them. -/
theorem Channel.aside (hacks : Acks hints s) (hs : Live hints s h)
    (hne : s.client.entries h ≠ none) (ha : aside a = true) (hc : Channel s h) :
    Channel (step hints s a) h := by
  obtain ⟨hsame, hlistener⟩ := aside_step hints s ha
  cases hc with
  | listed c r hplace hqueue =>
    refine .listed c r ?_ (hsame.queue ▸ hqueue)
    rcases place_step hints s a c with heq | hgo
    · exact heq.trans hplace
    · rw [hplace] at hgo
      generalize (step hints s a).place c = q at hgo
      cases hgo
      cases ha
  | queued c r hplace hqueue =>
    refine .queued c r ?_ (hsame.queue ▸ hqueue)
    have hack := (hacks.queued h c hqueue.mem).1
    rcases place_step hints s a c with heq | hgo
    · exact heq ▸ hplace
    · rcases hplace with hplace | hplace <;> rw [hplace] at hgo <;>
        generalize (step hints s a).place c = q at hgo <;> cases hgo
      · rename_i hconf
        rw [hack] at hconf
        cases hconf.1
      · exact .inr rfl
      · exact .inr rfl
      · cases ha
  | sent hqueue hidle hlisted hheld =>
    refine .sent (hsame.queue ▸ hqueue) (hlistener ▸ hidle) (fun c r hc => ?_) ?_
    · rcases place_step hints s a c with heq | hgo
      · exact hlisted c r (heq.symm.trans hc)
      · rw [hc] at hgo
        generalize hp : s.place c = p at hgo
        cases hgo
        exact hne (hs.first c r hp)
    · refine hheld.imp (fun hheld => ?_) fun ⟨c, r, hplace, herror⟩ => ?_
      · rw [Held, hsame.pubsub]
        exact hheld
      · refine ⟨c, r, ?_, hsame.ack ▸ herror⟩
        rcases place_step hints s a c with heq | hgo
        · exact heq ▸ hplace
        · rcases hplace with hplace | hplace <;> rw [hplace] at hgo <;>
            generalize (step hints s a).place c = q at hgo <;> cases hgo
          · rename_i hconf
            exact absurd (herror.symm.trans hconf.2) (by decide)
          · exact .inr rfl
          · exact .inr rfl
          · cases ha

/-- Commands of other hashes are queued, by a call that has not put `h` into the tables. -/
theorem Channel.frame {t : System} {d : Nat} {q : List Cmd} (hc : Channel s h)
    (hqueue : t.client.queue = s.client.queue ++ q) (hq : Clear h q)
    (hpubsub : t.client.pubsub = s.client.pubsub) (hack : t.client.ack = s.client.ack)
    (hlistener : t.listener = s.listener) (hplace : ∀ c, c ≠ d → t.place c = s.place c)
    (hbefore : (s.place d).listedOf ≠ some h) (hafter : (t.place d).listedOf ≠ some h) :
    Channel t h := by
  have hother : ∀ c p, s.place c = p → p.listedOf = some h → t.place c = p := fun c p hp hph => by
    rw [hplace c fun hcd => hbefore (by rw [← hcd, hp]; exact hph), hp]
  cases hc with
  | listed c r hp hold =>
    refine .listed c r (hother c _ hp rfl) ?_
    rw [hqueue]
    exact hold.append hq
  | queued c r hp hold =>
    refine .queued c r (hp.imp (hother c _ · rfl) (hother c _ · rfl)) ?_
    rw [hqueue]
    exact hold.append hq
  | sent hold hidle hlisted hheld =>
    refine .sent ?_ (hlistener ▸ hidle) (fun c r hc => ?_) ?_
    · rw [hqueue]
      exact hold.append hq
    · by_cases hcd : c = d
      · exact hafter (by rw [← hcd, hc]; rfl)
      · exact hlisted c r ((hplace c hcd).symm.trans hc)
    · refine hheld.imp (fun hheld => ?_) fun ⟨c, r, hp, herror⟩ => ?_
      · rw [Held, hpubsub]
        exact hheld
      · exact ⟨c, r, hp.imp (hother c _ · rfl) (hother c _ · rfl), hack ▸ herror⟩

theorem place_moved_of_ne (s : System) (client : Client) {c d : Nat} (p : Place) (hcd : c ≠ d) :
    ((s.setClient client).move d p).place c = s.place c := by
  rw [place_moved, if_neg hcd]

theorem channel_dispatch (hacc : Account hints s h) (hc : Channel s h) {d x : Nat}
    (hq : s.place d = .listed x r) :
    Channel ((s.setClient (s.client.dispatch (.sub x d))).move d (.awaiting x r)) h := by
  by_cases hx : x = h
  · subst hx
    have hplace : ((s.setClient (s.client.dispatch (.sub x d))).move d (.awaiting x r)).place d =
        .awaiting x r := by rw [place_moved, if_pos rfl]
    have honly : ∀ c r', (s.place c).firstOf = some (x, r') → c = d := fun c r' hfirst =>
      hacc.only c d r' r hfirst (by rw [hq]; rfl)
    cases hc with
    | listed c r' hp hold => exact .queued d r (.inl hplace) hold.queued
    | queued c r' hp hold =>
      rcases hp with hp | hp
      all_goals
        obtain rfl := honly c r' (by rw [hp]; rfl)
        rw [hq] at hp
        cases hp
    | sent hold hidle hlisted hheld => exact absurd hq (hlisted d r)
  · refine hc.frame rfl (clear_singleton hx) rfl rfl rfl
      (fun c hcd => place_moved_of_ne s _ _ hcd) ?_ ?_
    · rw [hq]
      simpa [Place.listedOf] using hx
    · rw [place_moved, if_pos rfl]
      simpa [Place.listedOf] using hx

theorem channel_rollBack (hc : Channel s h) {d x : Nat} (hq : s.place d = .failing x r)
    (hsafe : ¬ s.LateRollBack d) (hne : (s.client.rollBack x r true).entries h ≠ none) :
    Channel ((s.setClient (s.client.rollBack x r true)).move d (.failed x)) h := by
  have hready : s.client.ready x = some r := by
    by_contra hlost
    exact hsafe ⟨x, r, hq, .inl hlost⟩
  have hx : x ≠ h := fun hx => hne (by
    rw [(rollBack_fields hready true).2.2.1, hx, Function.update_self])
  obtain ⟨hqueue, hpubsub, -, hack⟩ := rollBack_channel s.client x r true
  rw [if_pos ⟨hready, rfl⟩] at hqueue
  refine hc.frame hqueue (clear_singleton hx) hpubsub hack rfl
    (fun c hcd => place_moved_of_ne s _ _ hcd) ?_ ?_
  · rw [hq]
    simpa [Place.listedOf] using hx
  · rw [place_moved, if_pos rfl]
    simp [Place.listedOf]

theorem unregister_entries (s : Client) (h : Nat) (hrefs : (s.refcount h).getD 0 ≤ 1) :
    (s.unregister h).entries h = none := by
  unfold Client.unregister
  dsimp only
  rw [if_neg (not_lt.2 hrefs)]
  split_ifs <;> exact Function.update_self ..

theorem channel_unsubscribe (hc : Channel s h) {d x : Nat} (hq : s.place d = .opened x)
    (hne : (s.client.unregister x).entries h ≠ none) :
    Channel ((s.setClient (s.client.unregister x)).move d (.closed x)) h := by
  obtain ⟨hqueue, hpubsub, -, hack⟩ := unregister_channel s.client x
  refine hc.frame hqueue ?_ hpubsub hack rfl (fun c hcd => place_moved_of_ne s _ _ hcd) ?_ ?_
  · split_ifs with hlast
    · exact clear_singleton fun hx => hne (hx ▸ unregister_entries s.client x hlast.1)
    · exact clear_nil
  · rw [hq]
    simp [Place.listedOf]
  · rw [place_moved, if_pos rfl]
    simp [Place.listedOf]

/-! ## The listener -/

theorem held_subscribe {p : PubSub} {x : Nat} (hx : x ≠ h) (sent : Bool)
    (hp : h ∈ p.channels ∧ p.pendingUnsub h = false) :
    h ∈ (p.subscribe x sent).1.channels ∧ (p.subscribe x sent).1.pendingUnsub h = false := by
  rcases subscribe_cases p x sent with ⟨-, heq⟩ | heq <;> rw [heq]
  · exact ⟨mem_channels_subscribe.2 (.inr hp.1), (Function.update_of_ne hx.symm ..).trans hp.2⟩
  · exact hp

theorem held_unsubscribe {p : PubSub} {x : Nat} (hx : x ≠ h) (sent : Bool)
    (hp : h ∈ p.channels ∧ p.pendingUnsub h = false) :
    h ∈ (p.unsubscribe x sent).channels ∧ (p.unsubscribe x sent).pendingUnsub h = false := by
  rcases unsubscribe_cases p x sent with ⟨-, heq⟩ | heq <;> rw [heq] <;>
    exact ⟨hp.1, (Function.update_of_ne hx.symm ..).trans hp.2⟩

/-- The oldest command leaves the queue; if it was the SUBSCRIBE of `h`, its send decides. -/
theorem Channel.pop (hacc : Account hints s h) (hc : Channel s h) (hidle : s.listener = .idle)
    {client : Client} {cmd : Cmd} (hq : s.client.queue = cmd :: client.queue)
    (hother : cmd.hash ≠ h → Held s h ∨ Refused s h →
      Held (s.setClient client) h ∨ Refused (s.setClient client) h)
    (hself : ∀ c r, cmd = .sub h c → s.place c = .awaiting h r ∨ s.place c = .failing h r →
      Held (s.setClient client) h ∨ Refused (s.setClient client) h) :
    Channel (s.setClient client) h := by
  have hnot : (s.setClient client).listener ≠ .orphan h := by
    show s.listener ≠ .orphan h
    rw [hidle]
    exact nofun
  cases hc with
  | listed c r hp hold =>
    rw [hq] at hold
    exact .listed c r hp hold.tail
  | queued c r hp hold =>
    rw [hq] at hold
    rcases hold.tail with ⟨hcmd, hclear⟩ | hold
    · refine .sent hclear hnot (fun d r' hd => ?_) (hself c r hcmd hp)
      have hd' : s.place d = .listed h r' := hd
      have hfirst : (s.place c).firstOf = some (h, r) := by
        rcases hp with hp | hp <;> rw [hp] <;> rfl
      obtain rfl := hacc.only_of_place hfirst hd' rfl
      rcases hp with hp | hp <;> rw [hd'] at hp <;> cases hp
    · exact .queued c r hp hold
  | sent hold _ hlisted hheld =>
    rw [hq] at hold
    exact .sent hold.tail.2 hnot hlisted (hother hold.tail.1 hheld)

/-- The listener runs the oldest command. -/
theorem channel_runCmd (hacc : Account hints s h) (hc : Channel s h) (hidle : s.listener = .idle)
    (sent : Bool) : Channel (s.setClient (s.client.runCmd sent)) h := by
  unfold Client.runCmd
  split
  · exact hc
  · rename_i x c rest hq
    have hkeep : ∀ (client : Client), x ≠ h →
        client.pubsub = (s.client.pubsub.subscribe x sent).1 →
        (∀ d, (s.client.ack d).error = true → (client.ack d).error = true) →
        Held s h ∨ Refused s h → Held (s.setClient client) h ∨ Refused (s.setClient client) h := by
      intro client hx hpubsub hack
      refine Or.imp (fun hheld => ?_) fun ⟨d, r, hp, herror⟩ => ⟨d, r, hp, hack d herror⟩
      rw [Held, setClient, hpubsub]
      exact held_subscribe hx sent hheld
    split
    · rename_i pubsub hsent
      refine hc.pop hacc hidle hq (fun hx => hkeep _ hx (by rw [hsent]) fun _ => id)
        fun d r hcmd hp => .inl ?_
      obtain ⟨rfl, rfl⟩ := Cmd.sub.inj hcmd
      rcases subscribe_cases s.client.pubsub x sent with ⟨-, heq⟩ | heq <;> rw [hsent] at heq
      · obtain ⟨rfl, -⟩ := Prod.mk.inj heq
        exact ⟨mem_channels_subscribe.2 (.inl rfl), Function.update_self ..⟩
      · cases (Prod.mk.inj heq).2
    · rename_i pubsub hsent
      refine hc.pop hacc hidle hq (fun hx => hkeep _ hx (by rw [hsent]) fun d herror => ?_)
        fun d r hcmd hp => .inr ?_
      · by_cases hd : d = c
        · subst hd
          simp only [Function.update_self]
        · simp only [Function.update_of_ne hd, herror]
      · obtain ⟨rfl, rfl⟩ := Cmd.sub.inj hcmd
        exact ⟨c, r, hp, by simp only [setClient, Function.update_self]⟩
  · rename_i x rest hq
    refine hc.pop hacc hidle hq (fun hx hheld => hheld.imp_left fun hheld => ?_)
      fun d r hcmd => by cases hcmd
    exact held_unsubscribe hx sent hheld

/-- The listener goes on, with nothing that takes the channel back. -/
theorem Channel.listen {t : System} (hc : Channel s h) (hqueue : t.client.queue = s.client.queue)
    (hplace : t.place = s.place)
    (hack : ∀ c, (s.client.ack c).error = true → (t.client.ack c).error = true)
    (hlistener : s.listener ≠ .orphan h → t.listener ≠ .orphan h)
    (hheld : s.listener ≠ .orphan h → Held s h → Held t h) : Channel t h := by
  cases hc with
  | listed c r hp hold => exact .listed c r (hplace ▸ hp) (hqueue ▸ hold)
  | queued c r hp hold => exact .queued c r (hplace ▸ hp) (hqueue ▸ hold)
  | sent hold hnot hlisted hsent =>
    exact .sent (hqueue ▸ hold) (hlistener hnot) (hplace ▸ hlisted)
      (hsent.imp (hheld hnot) fun ⟨c, r, hp, herror⟩ => ⟨c, r, hplace ▸ hp, hack c herror⟩)

theorem ack_error_step (a : Act) (hc : (s.client.ack c).error = true) :
    ((step hints s a).client.ack c).error = true := by
  rcases ack_step hints s a c with heq | ⟨-, -, heq⟩ | ⟨-, -, -, heq⟩
  · rw [heq]
    exact hc
  · rw [heq]
  · rw [heq]
    exact hc

/-- What the reading of one confirmation leaves of the channel. -/
theorem read_channel (s : System) : s.read.client.queue = s.client.queue ∧
    (Held s h → Held s.read h) ∧ (s.listener = .idle → s.read.listener ≠ .orphan h) := by
  unfold System.read
  split
  · exact ⟨rfl, id, fun hidle => by rw [hidle]; exact nofun⟩
  · rename_i x rest hwire
    refine ⟨rfl, fun hheld => ?_, fun hidle => by
      show s.listener ≠ .orphan h
      rw [hidle]
      exact nofun⟩
    simp only [Held, setClient, PubSub.onUnsubscribed]
    split_ifs with hpending
    · have hx : x ≠ h := fun hx => by
        rw [hx, hheld.2] at hpending
        cases hpending
      exact ⟨List.mem_filter.2 ⟨hheld.1, by simpa using hx.symm⟩,
        (Function.update_of_ne hx.symm ..).trans hheld.2⟩
    · exact hheld
  · rename_i x rest hwire
    have hclient : ∀ client progress, Client.onSubscribed
        { s.client with pubsub := { s.client.pubsub with wire := rest } } x = (client, progress) →
        client.queue = s.client.queue ∧
          client.pubsub = { s.client.pubsub with wire := rest } := by
      intro client progress heq
      unfold Client.onSubscribed at heq
      split at heq <;> obtain ⟨rfl, -⟩ := Prod.mk.inj heq <;> exact ⟨rfl, rfl⟩
    dsimp only
    split
    all_goals
      rename_i client heq
      obtain ⟨hqueue, hpubsub⟩ := hclient client _ heq
      refine ⟨hqueue, fun hheld => ?_, fun hidle => ?_⟩
      · show h ∈ client.pubsub.channels ∧ client.pubsub.pendingUnsub h = false
        rw [hpubsub]
        exact hheld
      · intro horphan
        first
          | cases horphan
          | cases hidle.symm.trans horphan

theorem channel_read (hc : Channel s h) : Channel (step hints s .read) h := by
  have hack : ∀ c, (s.client.ack c).error = true →
      ((step hints s .read).client.ack c).error = true := fun c => ack_error_step .read
  obtain ⟨hqueue, hheld, hlistener⟩ := read_channel (h := h) s
  unfold step at hack ⊢
  dsimp only at hack ⊢
  split_ifs at hack ⊢ with hidle
  · exact hc.listen hqueue place_read hack (fun _ => hlistener hidle) fun _ => hheld
  · exact hc

theorem channel_look (hc : Channel s h) (hne : s.client.entries h ≠ none) :
    Channel (step hints s .look) h := by
  have hlive : (s.client.entries h).isSome := Option.isSome_iff_ne_none.2 hne
  unfold step
  dsimp only
  split
  · rename_i x hl
    split_ifs with hx
    · exact hc.listen rfl rfl (fun _ => id) (fun _ => nofun) fun _ => id
    · refine hc.listen rfl rfl (fun _ => id) (fun _ horphan => ?_) fun _ => id
      exact hx (Listener.orphan.inj horphan ▸ hlive)
  · rename_i x hl
    split_ifs with hx
    · exact hc.listen rfl rfl (fun _ => id) (fun _ => nofun) fun _ => id
    · refine hc.listen rfl rfl (fun _ => id) (fun _ horphan => ?_) fun _ => id
      exact hx (Listener.orphan.inj horphan ▸ hlive)
  · exact hc

theorem channel_unsubscribeOrphan (hc : Channel s h) (sent : Bool) :
    Channel (step hints s (.unsubscribeOrphan sent)) h := by
  unfold step
  dsimp only
  split
  · rename_i x hl
    unfold Client.unsubscribeOrphan
    split_ifs
    · exact hc.listen rfl rfl (fun _ => id) (fun _ => nofun) fun _ => id
    · refine hc.listen rfl rfl (fun _ => id) (fun _ => nofun) fun hnot hheld => ?_
      have hx : x ≠ h := fun hx => hnot (by rw [hl, hx])
      exact held_unsubscribe hx sent hheld
  · exact hc

theorem channel_reconnect (hc : Channel s h) (order : List Nat) :
    Channel (step hints s (.reconnect order)) h := by
  unfold step
  dsimp only
  split_ifs
  · exact hc.listen rfl rfl (fun _ => id) id fun _ hheld => ⟨hheld.1, rfl⟩
  · exact hc

/-- A hash that stays in the local tables keeps its channel. -/
theorem channel_step (hacc : ∀ x, Account hints s x) (hacks : Acks hints s) (hs : Live hints s h)
    (hsafe : ¬ s.Unsafe a) (hbefore : s.client.entries h ≠ none)
    (hne : (step hints s a).client.entries h ≠ none) : Channel (step hints s a) h := by
  have hc := hs.channel hbefore
  cases ha : aside a with
  | true => exact hc.aside hacks hs hbefore ha
  | false =>
    cases a with
    | dispatch d =>
      unfold step
      dsimp only
      split
      · rename_i x r hq
        exact channel_dispatch (hacc h) hc hq
      · exact hc
    | rollBack d =>
      unfold step at hne ⊢
      dsimp only at hne ⊢
      split at hne
      · rename_i x r hq
        exact channel_rollBack hc hq hsafe hne
      · exact hc
    | unsubscribe d =>
      unfold step at hne ⊢
      dsimp only at hne ⊢
      split at hne
      · rename_i x hq
        exact channel_unsubscribe hc hq hne
      · exact hc
    | runCmd sent =>
      unfold step
      dsimp only
      split_ifs with hidle
      · exact channel_runCmd (hacc h) hc hidle sent
      · exact hc
    | read => exact channel_read hc
    | look => exact channel_look hc hbefore
    | unsubscribeOrphan sent => exact channel_unsubscribeOrphan hc sent
    | drop => exact hc.listen rfl rfl (fun _ => id) id fun _ => id
    | reconnect order => exact channel_reconnect hc order
    | _ => cases ha

/-! ## A hash out of the local tables -/

/-- Something that may end a stray channel stays until the channel ends. -/
theorem Stray.frame {t : System} (hs : Stray s h)
    (hup : t.client.pubsub.up = true → s.client.pubsub.up = true)
    (hsubs : t.client.pubsub.subs h = true → s.client.pubsub.subs h = true)
    (hqueue : .unsub h ∈ s.client.queue → .unsub h ∈ t.client.queue)
    (hwire : s.client.pubsub.up = true → .subscribed h ∈ s.client.pubsub.wire →
      .subscribed h ∈ t.client.pubsub.wire ∨ t.listener.hash = some h)
    (hlistener : s.listener.hash = some h → t.listener.hash = some h) : Stray t h := by
  intro hup' hsubs'
  rcases hs (hup hup') (hsubs hsubs') with hq | hw | hl
  · exact .inl (hqueue hq)
  · exact .inr (hwire (hup hup') hw)
  · exact .inr (.inr (hlistener hl))

theorem Stray.of_down (hdown : s.client.pubsub.up = false) : Stray s h := fun hup => by
  rw [hdown] at hup
  cases hup

theorem stray_runCmd (hqueue : Trailed h s.client.queue) (hs : Stray s h) (sent : Bool) :
    Stray (s.setClient (s.client.runCmd sent)) h := by
  unfold Client.runCmd
  split
  · exact hs
  · rename_i x c rest hq
    rw [hq] at hqueue
    have hrest : .unsub h ∈ s.client.queue → .unsub h ∈ rest := fun hin => by
      simpa [hq] using hin
    rcases subscribe_cases s.client.pubsub x sent with ⟨hup, heq⟩ | heq <;> rw [heq]
    · by_cases hx : x = h
      · -- an UNSUBSCRIBE is queued behind this SUBSCRIBE
        exact fun _ _ => .inl (hqueue.1 hx)
      · refine hs.frame id (fun hsubs => ?_) hrest
          (fun _ hw => .inl (List.mem_append_left _ hw)) id
        exact (Function.update_of_ne (Ne.symm hx) ..).symm.trans hsubs
    · exact .of_down rfl
  · rename_i x rest hq
    rcases unsubscribe_cases s.client.pubsub x sent with ⟨hup, heq⟩ | heq <;> rw [heq]
    · by_cases hx : x = h
      · intro _ hsubs
        simp only [setClient, hx, Function.update_self] at hsubs
        cases hsubs
      · refine hs.frame id (fun hsubs => ?_) (fun hin => ?_)
          (fun _ hw => .inl (List.mem_append_left _ hw)) id
        · exact (Function.update_of_ne (Ne.symm hx) ..).symm.trans hsubs
        · simpa [setClient, hq, Ne.symm hx] using hin
    · exact .of_down rfl

/-- A confirmation is read: its listener looks at the hash, unless more groups wait for theirs. -/
theorem read_subscribed {x : Nat} {rest : List Msg}
    (hw : s.client.pubsub.wire = .subscribed x :: rest) :
    s.read.client.queue = s.client.queue ∧
      s.read.client.pubsub = { s.client.pubsub with wire := rest } ∧
      (s.read.listener.hash = some x ∨ s.read.client.pending x ≠ []) := by
  unfold System.read
  simp only [hw]
  unfold Client.onSubscribed
  dsimp only
  rcases hp : s.client.pending x with _ | ⟨group, groups⟩
  · exact ⟨rfl, rfl, .inl rfl⟩
  · by_cases hmore : groups = []
    · simp only [hmore, if_true]
      exact ⟨rfl, rfl, .inl rfl⟩
    · simp only [hmore, if_false]
      exact ⟨rfl, rfl, .inr (by simpa [setClient] using hmore)⟩

theorem stray_read (hwire : Wire s.read h) (hs : Stray s h) (hidle : s.listener = .idle) :
    Stray s.read h := by
  have hnot : s.listener.hash ≠ some h := by
    rw [hidle]
    exact nofun
  rcases hw : s.client.pubsub.wire with _ | ⟨msg, rest⟩
  · have hread : s.read = s := by
      unfold System.read
      simp only [hw]
    rwa [hread]
  cases msg with
  | unsubscribed x =>
    unfold System.read
    simp only [hw]
    refine hs.frame ?_ ?_ id (fun _ hin => .inl ?_) fun hl => absurd hl hnot
    · simp only [setClient, PubSub.onUnsubscribed]
      split_ifs <;> exact id
    · simp only [setClient, PubSub.onUnsubscribed]
      split_ifs <;> exact id
    · have hin' : .subscribed h ∈ rest := by simpa [hw] using hin
      simp only [setClient, PubSub.onUnsubscribed]
      split_ifs <;> exact hin'
  | subscribed x =>
    obtain ⟨hqueue, hpubsub, hlooks⟩ := read_subscribed hw
    refine hs.frame (by rw [hpubsub]; exact id) (by rw [hpubsub]; exact id)
      (by rw [hqueue]; exact id) (fun hup hin => ?_) fun hl => absurd hl hnot
    rw [hw] at hin
    rcases List.mem_cons.1 hin with hx | hin
    · obtain rfl := Msg.subscribed.inj hx
      rcases hlooks with hl | hmore
      · exact .inr hl
      · -- the next group has its confirmation on the wire
        have hgroups := hwire.groups (by rw [hpubsub]; exact hup)
        exact .inl (List.count_pos_iff.1 ((List.length_pos_iff.2 hmore).trans_le hgroups))
    · rw [hpubsub]
      exact .inl hin

theorem stray_look (hs : Stray s h) (hnone : s.client.entries h = none) :
    Stray (step hints s .look) h := by
  have hdead : ∀ x, (s.client.entries x).isSome → x ≠ h := fun x hx hxh => by
    rw [hxh, hnone] at hx
    cases hx
  unfold step
  dsimp only
  split
  · rename_i x hl
    split_ifs with hx
    · refine hs.frame id id id (fun _ => .inl) fun hhash => ?_
      rw [hl] at hhash
      exact absurd (Option.some.inj hhash) (hdead x hx)
    · exact hs.frame id id id (fun _ => .inl) fun hhash => by rwa [hl] at hhash
  · rename_i x hl
    split_ifs with hx
    · refine hs.frame id id id (fun _ => .inl) fun hhash => ?_
      rw [hl] at hhash
      exact absurd (Option.some.inj hhash) (hdead x hx)
    · exact hs.frame id id id (fun _ => .inl) fun hhash => by rwa [hl] at hhash
  · exact hs

theorem stray_unsubscribeOrphan (hwire : Wire s h) (hs : Stray s h) (sent : Bool) :
    Stray (step hints s (.unsubscribeOrphan sent)) h := by
  unfold step
  dsimp only
  split
  · rename_i x hl
    have hother : x ≠ h → s.listener.hash = some h → Listener.idle.hash = some h :=
      fun hx hhash => by
        rw [hl] at hhash
        exact absurd (Option.some.inj hhash) hx
    unfold Client.unsubscribeOrphan
    split_ifs with hgone
    · by_cases hx : x = h
      · intro hup hsubs
        obtain ⟨hin, hpending⟩ := (hwire.served hup).1 hsubs
        rw [hx] at hgone
        rcases hgone with hnot | hpend
        · exact absurd hin hnot
        · exact absurd (hpending.symm.trans hpend) (by decide)
      · exact hs.frame id id id (fun _ => .inl) (hother hx)
    · rcases unsubscribe_cases s.client.pubsub x sent with ⟨hup, heq⟩ | heq <;> rw [heq]
      · by_cases hx : x = h
        · intro _ hsubs
          simp only [setClient, hx, Function.update_self] at hsubs
          cases hsubs
        · refine hs.frame id (fun hsubs => ?_) id
            (fun _ hw => .inl (List.mem_append_left _ hw)) (hother hx)
          exact (Function.update_of_ne (Ne.symm hx) ..).symm.trans hsubs
      · exact .of_down rfl
  · exact hs

theorem stray_reconnect (s : System) {order : List Nat}
    (hperm : order.Perm s.client.pubsub.channels) :
    Stray (s.setClient (s.client.onPubsubReconnect order)) h := by
  intro _ hsubs
  have hin : h ∈ s.client.pubsub.channels := by
    simpa [setClient, Client.onPubsubReconnect, PubSub.reconnect] using hsubs
  exact .inr (.inl (List.mem_map.2 ⟨h, hperm.mem_iff.2 hin, rfl⟩))

/-- A hash that stays out of the local tables: its channel is on its way out. -/
theorem dead_step (hacc : Account hints s h) (hwire : Wire s h) (hs : Live hints s h)
    (hbefore : s.client.entries h = none) :
    Trailed h (step hints s a).client.queue ∧ Stray (step hints s a) h := by
  obtain ⟨hqueue, hstray⟩ := hs.dead hbefore
  have hafter : Wire (step hints s a) h := wire_step hwire a
  cases ha : aside a with
  | true =>
    obtain ⟨hsame, hlistener⟩ := aside_step hints s ha
    refine ⟨hsame.queue ▸ hqueue, hstray.frame ?_ ?_ ?_ ?_ ?_⟩
    · rw [hsame.pubsub]
      exact id
    · rw [hsame.pubsub]
      exact id
    · rw [hsame.queue]
      exact id
    · rw [hsame.pubsub]
      exact fun _ => .inl
    · rw [hlistener]
      exact id
  | false =>
    cases a with
    | dispatch d =>
      unfold step
      dsimp only
      split
      · rename_i x r hq
        have hx : x ≠ h := fun hx => by
          subst hx
          have hlisted := hacc.entries_of_listed (c := d) (r := r) (by rw [hq]; rfl)
            (by rw [hq]; exact nofun) (hs.past d (by rw [hq]; rfl))
          rw [hbefore] at hlisted
          cases hlisted
        exact ⟨hqueue.append (clear_singleton hx),
          hstray.frame id id (List.mem_append_left _) (fun _ => .inl) id⟩
      · exact ⟨hqueue, hstray⟩
    | rollBack d =>
      unfold step
      dsimp only
      split
      · rename_i x r hq
        obtain ⟨hq', hpubsub, -, -⟩ := rollBack_channel s.client x r true
        refine ⟨?_, hstray.frame ?_ ?_ ?_ ?_ id⟩
        · show Trailed h (s.client.rollBack x r true).queue
          rw [hq']
          split_ifs
          · exact hqueue.append_unsub x
          · exact hqueue.append clear_nil
        · simp only [setClient, move, hpubsub]
          exact id
        · simp only [setClient, move, hpubsub]
          exact id
        · simp only [setClient, move, hq']
          exact List.mem_append_left _
        · simp only [setClient, move, hpubsub]
          exact fun _ => .inl
      · exact ⟨hqueue, hstray⟩
    | unsubscribe d =>
      unfold step
      dsimp only
      split
      · rename_i x hq
        obtain ⟨hq', hpubsub, -, -⟩ := unregister_channel s.client x
        refine ⟨?_, hstray.frame ?_ ?_ ?_ ?_ id⟩
        · show Trailed h (s.client.unregister x).queue
          rw [hq']
          split_ifs
          · exact hqueue.append_unsub x
          · exact hqueue.append clear_nil
        · simp only [setClient, move, hpubsub]
          exact id
        · simp only [setClient, move, hpubsub]
          exact id
        · simp only [setClient, move, hq']
          exact List.mem_append_left _
        · simp only [setClient, move, hpubsub]
          exact fun _ => .inl
      · exact ⟨hqueue, hstray⟩
    | runCmd sent =>
      unfold step
      dsimp only
      split_ifs
      · refine ⟨?_, stray_runCmd hqueue hstray sent⟩
        show Trailed h (s.client.runCmd sent).queue
        unfold Client.runCmd
        split
        · exact hqueue
        · rename_i x c rest hq
          rw [hq] at hqueue
          split <;> exact hqueue.tail
        · rename_i x rest hq
          rw [hq] at hqueue
          exact hqueue.tail
      · exact ⟨hqueue, hstray⟩
    | read =>
      unfold step at hafter ⊢
      dsimp only at hafter ⊢
      split_ifs at hafter ⊢ with hidle
      · exact ⟨(read_channel (h := h) s).1 ▸ hqueue, stray_read hafter hstray hidle⟩
      · exact ⟨hqueue, hstray⟩
    | look =>
      refine ⟨?_, stray_look hstray hbefore⟩
      unfold step
      dsimp only
      repeat' split
      all_goals exact hqueue
    | unsubscribeOrphan sent =>
      refine ⟨?_, stray_unsubscribeOrphan hwire hstray sent⟩
      unfold step
      dsimp only
      split
      · unfold Client.unsubscribeOrphan
        split_ifs <;> exact hqueue
      · exact hqueue
    | drop => exact ⟨hqueue, .of_down rfl⟩
    | reconnect order =>
      unfold step
      dsimp only
      split_ifs with hc
      · exact ⟨hqueue, stray_reconnect s hc.2.2⟩
      · exact ⟨hqueue, hstray⟩
    | _ => cases ha

/-! ## The invariant, in every step -/

/-- The hash leaves the local tables, and its UNSUBSCRIBE is queued. -/
theorem queue_last (hacc : Account hints s h) (hbefore : s.client.entries h ≠ none) {d : Nat}
    (hq : s.place d = .opened h) (hrefs : (s.client.refcount h).getD 0 ≤ 1) :
    (step hints s (.unsubscribe d)).client.queue = s.client.queue ++ [.unsub h] := by
  obtain ⟨x, hx⟩ := Option.ne_none_iff_exists'.1 hbefore
  have hne : (s.client.entries h).getD [] ≠ [] := by
    rw [hx]
    exact (hacc.entries x hx).2.1
  have hqueue := (unregister_channel s.client h).queue
  rw [if_pos ⟨hrefs, hne⟩] at hqueue
  simp only [step, hq]
  exact hqueue

theorem queue_rollBack {d : Nat} (hq : s.place d = .failing h r)
    (hready : s.client.ready h = some r) :
    (step hints s (.rollBack d)).client.queue = s.client.queue ++ [.unsub h] := by
  have hqueue := (rollBack_channel s.client h r true).queue
  rw [if_pos ⟨hready, rfl⟩] at hqueue
  simp only [step, hq]
  exact hqueue

/-- (PROVED) Every safe step keeps the channel of a hash as its entries say. -/
theorem live_step (hacc : ∀ x, Account hints s x) (hacks : Acks hints s) (hwire : Wire s h)
    (hs : Live hints s h) (hsafe : ¬ s.Unsafe a) : Live hints (step hints s a) h where
  past := fun _ => past_step hs
  first := fun _ _ => first_step (hacc h) hs
  dead := fun hnone => by
    have hleaves : (step hints s a).client.queue = s.client.queue ++ [.unsub h] →
        Trailed h (step hints s a).client.queue ∧ Stray (step hints s a) h := fun hqueue => by
      refine ⟨hqueue ▸ trailed_unsub_self _, fun _ _ => .inl ?_⟩
      rw [hqueue]
      exact List.mem_append_right _ (List.mem_singleton_self _)
    by_cases hbefore : s.client.entries h = none
    · exact dead_step (hacc h) hwire hs hbefore
    · rcases (client_step hints s a).entries h with hsame | ⟨-, -, -, -, hlisted⟩ |
        ⟨d, r, _, hroll, hready, -⟩ | ⟨d, rfl, hq, hrefs, -⟩
      · exact absurd (hsame.symm.trans hnone) hbefore
      · rw [hnone] at hlisted
        cases hlisted
      · cases hroll with
        | listFails hq => exact absurd (hs.first d r hq) hbefore
        | failing hq => exact hleaves (queue_rollBack hq hready)
      · exact hleaves (queue_last (hacc h) hbefore hq hrefs)
  channel := fun hne => by
    by_cases hbefore : s.client.entries h = none
    · rcases (client_step hints s a).entries h with hsame | ⟨c, r, rfl, hq, -⟩ |
        ⟨-, -, -, -, -, hnone⟩ | ⟨-, -, -, -, hnone⟩
      · exact absurd (hsame.trans hbefore) hne
      · -- its first registrant puts it into the tables
        have hhints : hints h ≠ [] := fun hnil => hne (by
          simp only [step, hq, hnil, ne_eq, not_true_eq_false, if_false]
          exact hbefore)
        refine .listed c r ?_ ?_
        · simp only [step, hq, if_pos hhints, place_moved, if_true]
        · rw [(aside_step hints s (a := .list c) rfl).1.queue]
          exact (hs.dead hbefore).1
      · exact absurd hnone hne
      · exact absurd hnone hne
    · exact channel_step hacc hacks hs hsafe hbefore hne

end System

end Virtuals.Observer
