/-
  Channel accounting, over every run of the calls, the threads and the connection.

  In a run without the steps that `Unsafe` names, a hash with an open subscription stays in the local
  tables and subscribed (`Kept`), a subscribe that returned was routed on a generation no older than
  what it waited for, and a hash that nobody uses is gone (`Gone`): from the tables at once, from the
  server by what the listener has still to do.
-/
import Virtuals.Observer.Generations
import Virtuals.Observer.Settles

namespace Virtuals.Observer

/-- A call whose subscribe of `h` is in progress, or whose subscription of `h` is open. -/
def Place.Uses (p : Place) (h : Nat) : Prop :=
  (∃ r, p.firstOf = some (h, r)) ∨ (∃ r, p.waitOf = some (h, r)) ∨ p = .opened h

namespace System

variable {hints : Nat → List HintEntry} {s : System} {a : Act} {h c r : Nat}

/-! ## The property -/

/-- `h` is in the local tables; its channel is subscribed and nothing takes it back. A filter without
    entries matches nothing and has no channel. -/
structure Kept (hints : Nat → List HintEntry) (s : System) (h : Nat) : Prop where
  refcount : ∃ n, 0 < n ∧ s.client.refcount h = some n
  ready : ∃ r, s.client.ready h = some r
  entries : hints h ≠ [] → s.client.entries h = some (hints h)
  held : hints h ≠ [] → Held s h
  served : hints h ≠ [] → s.client.pubsub.up = true → s.client.pubsub.subs h = true
  queue : hints h ≠ [] → .unsub h ∉ s.client.queue
  listener : hints h ≠ [] → s.listener ≠ .orphan h

/-- Nothing of `h` is left in the local tables, the server has its channel at most until the listener
    comes to what is queued or on the wire, and the listener alone does so. -/
structure Gone (hints : Nat → List HintEntry) (s : System) (h : Nat) : Prop where
  refcount : s.client.refcount h = none
  ready : s.client.ready h = none
  entries : s.client.entries h = none
  stray : Stray s h
  quiet : Quiet s → s.client.pubsub.up = true → s.client.pubsub.subs h = false
  leaves : ∃ acts : List Act, (∀ a ∈ acts, listens a = true) ∧
    Quiet (acts.foldl (step hints) s) ∧ (acts.foldl (step hints) s).client.pubsub.up = true ∧
      (acts.foldl (step hints) s).client.pubsub.subs h = false

/-- Channel accounting of one hash. -/
structure Accounted (hints : Nat → List HintEntry) (s : System) (h : Nat) : Prop where
  kept : ∀ c, s.place c = .opened h → Kept hints s h
  routed : ∀ c, s.place c = .opened h → hints h ≠ [] → ∃ g, s.Since c g ∧ s.Routed h g
  gone : (∀ c, ¬ (s.place c).Uses h) → Gone hints s h

/-! ## Runs without the steps that go wrong -/

/-- No step of `acts` from `s` is one of those that go wrong. -/
def Safe (hints : Nat → List HintEntry) (s : System) : List Act → Prop
  | [] => True
  | a :: acts => ¬ s.Unsafe a ∧ Safe hints (step hints s a) acts

/-- What every step keeps. -/
structure Inv (hints : Nat → List HintEntry) (s : System) : Prop where
  account : ∀ h, Account hints s h
  acks : Acks hints s
  wire : ∀ h, Wire s h
  withheld : ∀ h, Withheld hints s h
  live : ∀ h, Live hints s h
  rereg : ∀ h, Rereg s h
  gens : ∀ h, hints h ≠ [] → Gens s h

theorem inv_start : Inv hints start where
  account := account_start
  acks := acks_start
  wire := wire_start
  withheld := fun _ => withheld_start
  live := fun _ => live_start
  rereg := fun _ => rereg_start
  gens := fun _ _ => gens_start

theorem Inv.account_step (hs : Inv hints s) (hsafe : ¬ s.Unsafe a) (h : Nat) :
    Account hints (System.step hints s a) h :=
  System.account_step hs.account (Withheld.alone hs.acks hs.withheld) a hsafe h

theorem Inv.step (hs : Inv hints s) (hsafe : ¬ s.Unsafe a) : Inv hints (step hints s a) where
  account := hs.account_step hsafe
  acks := acks_step hs.acks a
  wire := fun h => wire_step (hs.wire h) a
  withheld := fun h => withheld_step hs.account hs.acks (hs.withheld h) hsafe
  live := fun h => live_step hs.account hs.acks (hs.wire h) (hs.live h) hsafe
  rereg := fun h => rereg_step (hs.rereg h) a
  gens := fun h hne =>
    gens_step hne (hs.account h) (hs.account_step hsafe h) hs.acks (hs.withheld h) (hs.rereg h)
      (hs.gens h hne)

/-- (PROVED) Every safe run keeps the invariant. -/
theorem Inv.run {acts : List Act} (hs : Inv hints s) (hsafe : Safe hints s acts) :
    Inv hints (acts.foldl (System.step hints) s) := by
  induction acts generalizing s with
  | nil => exact hs
  | cons a acts ih => exact ih (hs.step hsafe.1) hsafe.2

/-- What the listener does is safe, and no call moves. -/
theorem safe_listens (hints : Nat → List HintEntry) {acts : List Act}
    (hacts : ∀ a ∈ acts, listens a = true) (s : System) :
    Safe hints s acts ∧ (acts.foldl (step hints) s).place = s.place := by
  induction acts generalizing s with
  | nil => exact ⟨trivial, rfl⟩
  | cons a acts ih =>
    have ha := hacts a List.mem_cons_self
    obtain ⟨hsafe, hplace⟩ := ih (fun b hb => hacts b (List.mem_cons_of_mem a hb)) (step hints s a)
    exact ⟨⟨listens_safe ha, hsafe⟩, hplace.trans (place_listens ha)⟩

/-! ## An open subscription -/

/-- Nobody withholds the readiness of a hash with an open subscription. -/
theorem Inv.confirmed (hs : Inv hints s) (hopen : s.place c = .opened h) (hne : hints h ≠ [])
    {d : Nat} (hfirst : (s.place d).firstOf = some (h, r)) : (s.client.ack d).Confirmed := by
  by_contra hack
  exact (hs.withheld h d r ⟨hfirst, hack, .inl hne⟩).2.2 c hopen

theorem Inv.entries_of_open (hs : Inv hints s) (hopen : s.place c = .opened h)
    (hne : hints h ≠ []) : s.client.entries h = some (hints h) := by
  obtain ⟨r, hr⟩ := (hs.account h).ready_of_counted (c := c) (.inr (.inr hopen))
  rcases (hs.account h).listed (by simp [hr]) hne with hentries | ⟨d, r', hd⟩
  · exact hentries
  · have hconf := hs.confirmed hopen hne (d := d) (by rw [hd]; rfl)
    rw [hs.acks.fresh d (by rw [hd]; rfl)] at hconf
    cases hconf.1

theorem Inv.sent_of_open (hs : Inv hints s) (hopen : s.place c = .opened h) (hne : hints h ≠ []) :
    Clear h s.client.queue ∧ s.listener ≠ .orphan h ∧ Held s h := by
  have hentries : s.client.entries h ≠ none := by
    rw [hs.entries_of_open hopen hne]
    exact Option.some_ne_none _
  cases (hs.live h).channel hentries with
  | listed d r hplace =>
    have hconf := hs.confirmed hopen hne (d := d) (by rw [hplace]; rfl)
    rw [hs.acks.fresh d (by rw [hplace]; rfl)] at hconf
    cases hconf.1
  | queued d r hplace hqueue =>
    have hconf := hs.confirmed hopen hne (d := d) (r := r) (by
      rcases hplace with hplace | hplace <;> rw [hplace] <;> rfl)
    rw [(hs.acks.queued h d hqueue.mem).1] at hconf
    cases hconf.1
  | sent hqueue hlistener _ hheld =>
    rcases hheld with hheld | ⟨d, r, hplace, herror⟩
    · exact ⟨hqueue, hlistener, hheld⟩
    · have hconf := hs.confirmed hopen hne (d := d) (r := r) (by
        rcases hplace with hplace | hplace <;> rw [hplace] <;> rfl)
      exact absurd (herror.symm.trans hconf.2) (by decide)

theorem Inv.kept (hs : Inv hints s) (hopen : s.place c = .opened h) : Kept hints s h where
  refcount := by
    have hpos := (hs.account h).count.pos (c := c) (.inr (.inr hopen))
    cases hr : s.client.refcount h with
    | none =>
      rw [hr] at hpos
      cases hpos
    | some n => exact ⟨n, by rwa [hr] at hpos, rfl⟩
  ready := (hs.account h).ready_of_counted (c := c) (.inr (.inr hopen))
  entries := hs.entries_of_open hopen
  held := fun hne => (hs.sent_of_open hopen hne).2.2
  served := fun hne hup => ((hs.wire h).served hup).2 (hs.sent_of_open hopen hne).2.2
  queue := fun hne hin => (hs.sent_of_open hopen hne).1 _ hin rfl
  listener := fun hne => (hs.sent_of_open hopen hne).2.1

/-! ## A hash that nobody uses -/

theorem Inv.tables_of_unused (hs : Inv hints s) (hunused : ∀ c, ¬ (s.place c).Uses h) :
    s.client.refcount h = none ∧ s.client.ready h = none ∧ s.client.entries h = none := by
  have hrefs : (s.client.refcount h).getD 0 = 0 :=
    (hs.account h).count.eq_zero_iff.2 fun c hc => hunused c (by
      rcases hc with hfirst | ⟨r, hwait, -⟩ | hopen
      · exact .inl hfirst
      · exact .inr (.inl ⟨r, hwait⟩)
      · exact .inr (.inr hopen))
  have hnone : s.client.refcount h = none := by
    cases hr : s.client.refcount h with
    | none => rfl
    | some n =>
      rw [hr] at hrefs
      exact absurd (hr.trans (congrArg some hrefs)) (hs.account h).positive
  exact ⟨hnone, (hs.account h).tables.1 hnone, (hs.account h).entries_of_refs hrefs⟩

theorem Stray.of_quiet (hs : Stray s h) (hquiet : Quiet s) (hup : s.client.pubsub.up = true) :
    s.client.pubsub.subs h = false := by
  by_contra hsubs
  rcases hs hup (by simpa using hsubs) with hq | hw | hl
  · rw [hquiet.queue] at hq
    cases hq
  · rw [hquiet.wire] at hw
    cases hw
  · rw [hquiet.listener] at hl
    cases hl

theorem Inv.gone (hs : Inv hints s) (hunused : ∀ c, ¬ (s.place c).Uses h) : Gone hints s h := by
  obtain ⟨hrefs, hready, hentries⟩ := hs.tables_of_unused hunused
  have hstray : ∀ t, Inv hints t → t.place = s.place → Stray t h := fun t ht hplace => by
    have hnone := (ht.tables_of_unused (by rw [hplace]; exact hunused)).2.2
    exact ((ht.live h).dead hnone).2
  refine ⟨hrefs, hready, hentries, hstray s hs rfl, fun hquiet hup =>
    (hstray s hs rfl).of_quiet hquiet hup, ?_⟩
  obtain ⟨acts, hacts, hquiet, hup⟩ := quiet_up hints s
  obtain ⟨hsafe, hplace⟩ := safe_listens hints hacts s
  exact ⟨acts, hacts, hquiet, hup, (hstray _ (hs.run hsafe) hplace).of_quiet hquiet hup⟩

/-- (PROVED) Every run without the steps that go wrong keeps the channel of every hash accounted. -/
theorem channel_accounted (hints : Nat → List HintEntry) (acts : List Act)
    (hsafe : Safe hints start acts) (h : Nat) : Accounted hints (run hints acts) h where
  kept := fun _ hopen => (inv_start.run hsafe).kept hopen
  routed := fun _ hopen hne => ((inv_start.run hsafe).gens h hne).opened _ hopen
  gone := fun hunused => (inv_start.run hsafe).gone hunused

/-! ## Runs on one hash -/

/-- Every filter has one routing entry. -/
def oneHint (_ : Nat) : List HintEntry := [([1], [2], [3])]

/-- Call `c` subscribes hash 0 as its first registrant, up to the confirmation. -/
def subscribing (c : Nat) : List Act :=
  [.subscribe c 0, .list c, .dispatch c, .runCmd true, .read, .look, .ackWake c]

theorem safe_append (s : System) (acts rest : List Act) :
    Safe hints s (acts ++ rest) ↔ Safe hints s acts ∧ Safe hints (acts.foldl (step hints) s) rest := by
  induction acts generalizing s with
  | nil => simp [Safe]
  | cons a acts ih =>
    rw [List.cons_append, List.foldl_cons]
    simp only [Safe, ih, and_assoc]

/-- An act that is never one of those that go wrong. -/
def plain : Act → Bool
  | .release _ | .rollBack _ | .mark => false
  | _ => true

theorem safe_plain (s : System) {acts : List Act} (hacts : acts.all plain = true) :
    Safe hints s acts := by
  induction acts generalizing s with
  | nil => trivial
  | cons a acts ih =>
    obtain ⟨ha, hrest⟩ := Bool.and_eq_true_iff.1 hacts
    refine ⟨?_, ih _ hrest⟩
    cases a with
    | release c => cases ha
    | rollBack c => cases ha
    | mark => cases ha
    | _ => exact id

/-- The connection of a subscribed hash is lost and comes back; of two calls that subscribe meanwhile
    one is about to give up. -/
def reconnecting : List Act :=
  subscribing 0 ++ [.hint 0 true, .check 0, .finish 0, .drop, .reconnect [0], .subscribe 1 0,
    .subscribe 2 0, .timeout 2]

/-- The hash is re-registered. -/
def reregistering : List Act := [.read, .look, .take, .readEntries, .reregister true]

/-- The call that gave up has left its count, the other one is subscribed when the first is closed. -/
theorem channel_accounted_reconnected :
    let acts := reconnecting ++ .release 2 :: (reregistering ++ [.mark, .wake 1, .unsubscribe 0])
    Safe oneHint start acts ∧ (run oneHint acts).place 1 = .opened 0 ∧
      Accounted oneHint (run oneHint acts) 0 := by
  intro acts
  have hrelease : ¬ LeakyRelease (run oneHint reconnecting) 2 := by
    rintro ⟨h, r, hplace, -, hlost⟩
    have hplace' : Place.givingUp 0 1 = .givingUp h r := hplace
    cases hplace'
    exact absurd hlost (by decide)
  have hmark : ¬ EarlyMark (run oneHint (reconnecting ++ .release 2 :: reregistering)) := by
    rintro ⟨h, gen, c, r, -, -, -, hfirst, -⟩
    have hplace : (run oneHint (reconnecting ++ .release 2 :: reregistering)).place c =
        if c = 0 then .opened 0 else if c = 1 then .waiting 0 1 else
          if c = 2 then .failed 0 else .idle := by
      rcases c with _ | _ | _ | c <;> rfl
    rw [hplace] at hfirst
    split_ifs at hfirst <;> cases hfirst
  have hsafe : Safe oneHint start acts :=
    (safe_append start reconnecting _).2 ⟨safe_plain _ (by decide), hrelease,
      (safe_append _ reregistering _).2 ⟨safe_plain _ (by decide), hmark, safe_plain _ (by decide)⟩⟩
  exact ⟨hsafe, by decide, channel_accounted oneHint acts hsafe 0⟩

/-! ## The three steps that go wrong -/

/-- A waiter's wait ends, its first registrant succeeds and closes, and then the waiter gives up. -/
def leaking : List Act :=
  subscribing 0 ++ [.subscribe 1 0, .timeout 1, .hint 0 true, .check 0, .finish 0, .unsubscribe 0,
    .release 1]

/-- A first registrant's wait for the re-registration ends, the re-registration releases a waiter, and
    then the first registrant rolls back. -/
def rollingBack : List Act :=
  subscribing 0 ++ [.hint 0 true, .drop, .reconnect [0], .check 0, .read, .look, .subscribe 1 0,
    .readyTimeout 0, .take, .readEntries, .reregister true, .mark, .wake 1, .rollBack 0]

/-- A re-registration is taken, its subscription closes, and it marks the readiness of the next
    first registrant, whose SUBSCRIBE is not even queued. -/
def marking : List Act :=
  subscribing 0 ++ [.hint 0 true, .check 0, .finish 0, .drop, .reconnect [0], .read, .look, .take,
    .unsubscribe 0, .subscribe 1 0, .list 1, .subscribe 2 0, .readEntries, .reregister true, .mark,
    .wake 2]

/-- (REFUTED) Without the condition the accounts fail: the count of a hash that nobody uses stays, a
    hash with an open subscription leaves the tables, and the UNSUBSCRIBE of one is queued. -/
theorem accounting_fails : ¬ (∀ hints acts h, Accounted hints (run hints acts) h) ∧
    ¬ Accounted oneHint (run oneHint leaking) 0 ∧
    ¬ Accounted oneHint (run oneHint rollingBack) 0 ∧
    ¬ Accounted oneHint (run oneHint marking) 0 := by
  have hleaking : ¬ Accounted oneHint (run oneHint leaking) 0 := fun hacc => by
    have hgone := (hacc.gone ?_).refcount
    · exact absurd hgone (by decide)
    · have hplace : ∀ c, (run oneHint leaking).place c =
          if c = 0 then .closed 0 else if c = 1 then .failed 0 else .idle := by
        rintro (_ | _ | c) <;> rfl
      intro c
      rw [hplace]
      split_ifs <;> simp [Place.Uses, Place.firstOf, Place.waitOf]
  have hrolling : ¬ Accounted oneHint (run oneHint rollingBack) 0 := fun hacc =>
    absurd ((hacc.kept 1 (by decide)).entries (by decide)) (by decide)
  have hmarking : ¬ Accounted oneHint (run oneHint marking) 0 := fun hacc =>
    absurd (by decide) ((hacc.kept 2 (by decide)).queue (by decide))
  exact ⟨fun hall => hleaking (hall _ _ _), hleaking, hrolling, hmarking⟩

end System

end Virtuals.Observer
