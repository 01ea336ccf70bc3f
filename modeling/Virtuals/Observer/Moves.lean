/-
  What one step does to the calls and to each table of the client.

  `Goes s c a p q` says that act `a` may take call `c` from place `p` to place `q`, with what the
  source checks on the way. `place_step` and the lemmas after it, one for each table, say once what a
  step can do; the invariants that follow cite them and unfold no step.
-/
import Virtuals.Observer.Channel

namespace Virtuals.Observer

namespace System

variable {hints : Nat → List HintEntry} {s : System} {h : Nat}

/-! ## The calls -/

/-- Act `a` may take call `c` from `p` to `q`. -/
inductive Goes (hints : Nat → List HintEntry) (s : System) (c : Nat) : Act → Place → Place → Prop
  | first (h : Nat) (hrefs : (s.client.refcount h).getD 0 = 0) :
      Goes hints s c (.subscribe c h) .idle (.first h (s.client.made h))
  | wait (h r : Nat) (hrefs : (s.client.refcount h).getD 0 ≠ 0)
      (hready : s.client.ready h = some r) : Goes hints s c (.subscribe c h) .idle (.waiting h r)
  | refused (h : Nat) : Goes hints s c (.subscribe c h) .idle (.failed h)
  | list (h r : Nat) (hne : hints h ≠ []) : Goes hints s c (.list c) (.first h r) (.listed h r)
  | listNone (h r : Nat) (hnil : hints h = []) :
      Goes hints s c (.list c) (.first h r) (.finishing h r)
  | dispatch (h r : Nat) : Goes hints s c (.dispatch c) (.listed h r) (.awaiting h r)
  | confirmed (h r : Nat) (hack : (s.client.ack c).Confirmed) :
      Goes hints s c (.ackWake c) (.awaiting h r) (.confirmed h r)
  | ackFailed (h r : Nat) : Goes hints s c (.ackWake c) (.awaiting h r) (.failing h r)
  | ackTimeout (h r : Nat) : Goes hints s c (.ackTimeout c) (.awaiting h r) (.failing h r)
  | registered (h r : Nat) : Goes hints s c (.hint c true) (.confirmed h r) (.registered h r)
  | unregistered (h r : Nat) : Goes hints s c (.hint c false) (.confirmed h r) (.failing h r)
  | current (h r : Nat) (hgen : (s.client.ack c).gen = some s.client.connGen) :
      Goes hints s c (.check c) (.registered h r) (.finishing h r)
  | stale (h r : Nat) : Goes hints s c (.check c) (.registered h r) (.stale h r)
  | ready (h r : Nat) (hset : (s.client.obj h r).set = true) :
      Goes hints s c (.readyWake c) (.stale h r) (.finishing h r)
  | readyTimeout (h r : Nat) : Goes hints s c (.readyTimeout c) (.stale h r) (.failing h r)
  | listFails (h r : Nat) : Goes hints s c (.listFails c) (.first h r) (.failed h)
  | rolledBack (h r : Nat) : Goes hints s c (.rollBack c) (.failing h r) (.failed h)
  | opened (h r : Nat) : Goes hints s c (.finish c) (.finishing h r) (.opened h)
  | woken (h r : Nat) (hset : (s.client.obj h r).set = true)
      (herror : (s.client.obj h r).error = false) :
      Goes hints s c (.wake c) (.waiting h r) (.opened h)
  | wokenFailed (h r : Nat) : Goes hints s c (.wake c) (.waiting h r) (.failed h)
  | timeout (h r : Nat) : Goes hints s c (.timeout c) (.waiting h r) (.givingUp h r)
  | released (h r : Nat) : Goes hints s c (.release c) (.givingUp h r) (.failed h)
  | closed (h : Nat) : Goes hints s c (.unsubscribe c) (.opened h) (.closed h)

/-- Only the moved call is elsewhere. -/
theorem moved {t : System} {a : Act} {c : Nat} {p q : Place} (hq : s.place c = q)
    (hgo : Goes hints s c a q p) (ht : t.place = s.place) (d : Nat) :
    (t.move c p).place d = s.place d ∨ Goes hints s d a (s.place d) ((t.move c p).place d) := by
  rw [place_move, ht]
  split_ifs with hd
  · rw [hd, hq]
    exact .inr hgo
  · exact .inl rfl

theorem place_read : s.read.place = s.place := by
  unfold System.read
  split
  · rfl
  · rfl
  · dsimp only
    split <;> rfl

/-- A call stays where it is or goes on. -/
theorem place_step (hints : Nat → List HintEntry) (s : System) (a : Act) (d : Nat) :
    (step hints s a).place d = s.place d ∨
      Goes hints s d a (s.place d) ((step hints s a).place d) := by
  cases a with
  | subscribe c h =>
    unfold step
    dsimp only
    split_ifs with hidle
    swap
    · exact .inl rfl
    unfold Client.register
    by_cases hrefs : (s.client.refcount h).getD 0 = 0
    · simp only [hrefs, if_true]
      exact moved hidle (.first h hrefs) rfl d
    · simp only [hrefs, if_false]
      cases hready : s.client.ready h with
      | none => exact moved hidle (.refused h) rfl d
      | some r => exact moved hidle (.wait h r hrefs hready) rfl d
  | list c =>
    unfold step
    dsimp only
    split
    · rename_i h r hq
      split_ifs with hne
      · exact moved hq (.list h r hne) rfl d
      · exact moved hq (.listNone h r (not_not.1 hne)) rfl d
    · exact .inl rfl
  | listFails c =>
    unfold step
    dsimp only
    split
    · rename_i h r hq
      exact moved hq (.listFails h r) rfl d
    · exact .inl rfl
  | dispatch c =>
    unfold step
    dsimp only
    split
    · rename_i h r hq
      exact moved hq (.dispatch h r) rfl d
    · exact .inl rfl
  | ackWake c =>
    unfold step
    dsimp only
    split
    · rename_i h r hq
      split_ifs with hset herror
      · exact moved hq (.ackFailed h r) rfl d
      · exact moved hq (.confirmed h r ⟨hset, by simpa using herror⟩) rfl d
      · exact .inl rfl
    · exact .inl rfl
  | ackTimeout c =>
    unfold step
    dsimp only
    split
    · rename_i h r hq
      exact moved hq (.ackTimeout h r) rfl d
    · exact .inl rfl
  | hint c ok =>
    unfold step
    dsimp only
    split
    · rename_i h r hq
      split_ifs with hok
      · exact moved hq (hok ▸ .registered h r) rfl d
      · obtain rfl : ok = false := by simpa using hok
        exact moved hq (.unregistered h r) rfl d
    · exact .inl rfl
  | check c =>
    unfold step
    dsimp only
    split
    · rename_i h r hq
      split_ifs with hgen
      · exact moved hq (.current h r hgen) rfl d
      · exact moved hq (.stale h r) rfl d
    · exact .inl rfl
  | readyWake c =>
    unfold step
    dsimp only
    split
    · rename_i h r hq
      split_ifs with hset
      · exact moved hq (.ready h r hset) rfl d
      · exact .inl rfl
    · exact .inl rfl
  | readyTimeout c =>
    unfold step
    dsimp only
    split
    · rename_i h r hq
      exact moved hq (.readyTimeout h r) rfl d
    · exact .inl rfl
  | rollBack c =>
    unfold step
    dsimp only
    split
    · rename_i h r hq
      exact moved hq (.rolledBack h r) rfl d
    · exact .inl rfl
  | finish c =>
    unfold step
    dsimp only
    split
    · rename_i h r hq
      exact moved hq (.opened h r) rfl d
    · exact .inl rfl
  | wake c =>
    unfold step
    dsimp only
    split
    · rename_i h r hq
      split_ifs with hset herror
      · exact moved hq (.wokenFailed h r) rfl d
      · exact moved hq (.woken h r hset (by simpa using herror)) rfl d
      · exact .inl rfl
    · exact .inl rfl
  | timeout c =>
    unfold step
    dsimp only
    split
    · rename_i h r hq
      exact moved hq (.timeout h r) rfl d
    · exact .inl rfl
  | release c =>
    unfold step
    dsimp only
    split
    · rename_i h r hq
      exact moved hq (.released h r) rfl d
    · exact .inl rfl
  | unsubscribe c =>
    unfold step
    dsimp only
    split
    · rename_i h hq
      exact moved hq (.closed h) rfl d
    · exact .inl rfl
  | read =>
    unfold step
    dsimp only
    split_ifs
    · exact .inl (congrFun place_read d)
    · exact .inl rfl
  | _ =>
    refine .inl ?_
    unfold step
    dsimp only
    repeat' split
    all_goals rfl

/-! ## The tables -/

/-- An act that begins a connection generation. -/
def breaks : Act → Bool
  | .lost | .reconnect _ => true
  | _ => false

/-- The exception section of the first registrant `c`. -/
inductive RollsBack (s : System) (c h r : Nat) : Bool → Act → Prop
  | listFails (hplace : s.place c = .first h r) : RollsBack s c h r false (.listFails c)
  | failing (hplace : s.place c = .failing h r) : RollsBack s c h r true (.rollBack c)

theorem RollsBack.firstOf {a : Act} {c r : Nat} {subscribed : Bool}
    (hroll : RollsBack s c h r subscribed a) : (s.place c).firstOf = some (h, r) := by
  cases hroll with
  | listFails hplace => rw [hplace]; rfl
  | failing hplace => rw [hplace]; rfl

theorem RollsBack.place_step {a : Act} {c r : Nat} {subscribed : Bool}
    (hroll : RollsBack s c h r subscribed a) : (step hints s a).place c = .failed h := by
  cases hroll with
  | listFails hplace => simp only [step, hplace, place_moved, if_true]
  | failing hplace => simp only [step, hplace, place_moved, if_true]

/-- What act `a` may make of the tables of the client. -/
inductive Changes (hints : Nat → List HintEntry) (s : System) : Act → Client → Prop
  | same (a : Act) (client : Client) (hsame : SameTables s.client client)
      (hgen : client.connGen = s.client.connGen) : Changes hints s a client
  | register (c x : Nat) (hplace : s.place c = .idle) :
      Changes hints s (.subscribe c x) (s.client.register x).1
  | list (c x r : Nat) (hplace : s.place c = .first x r) (hne : hints x ≠ []) :
      Changes hints s (.list c)
        { s.client with entries := Function.update s.client.entries x (some (hints x)) }
  | rollBack (a : Act) (c x r : Nat) (subscribed : Bool) (hroll : RollsBack s c x r subscribed a) :
      Changes hints s a (s.client.rollBack x r subscribed)
  | check (c x r : Nat) (hplace : s.place c = .registered x r)
      (hgen : (s.client.ack c).gen = some s.client.connGen) :
      Changes hints s (.check c) (s.client.setReady x r)
  | finish (c x r : Nat) (hplace : s.place c = .finishing x r) :
      Changes hints s (.finish c) (s.client.setReady x r)
  | mark (x r : Nat) (hmaint : s.maint = .hinted x s.client.connGen)
      (hready : s.client.ready x = some r) (hentries : (s.client.entries x).isSome) :
      Changes hints s .mark (s.client.setReady x r)
  | release (c x r : Nat) (hplace : s.place c = .givingUp x r) :
      Changes hints s (.release c) (s.client.release x r)
  | unsubscribe (c x : Nat) (hplace : s.place c = .opened x) :
      Changes hints s (.unsubscribe c) (s.client.unregister x)
  | invalidate (a : Act) (client : Client) (ha : breaks a = true)
      (hsame : SameTables s.client.invalidateReady client)
      (hgen : client.connGen = s.client.connGen + 1) : Changes hints s a client

theorem SameTables.refl (s : Client) : SameTables s s := ⟨rfl, rfl, rfl, rfl, rfl⟩

theorem Changes.unchanged (a : Act) : Changes hints s a s.client := .same a _ (.refl _) rfl

theorem connGen_runCmd (s : Client) (sent : Bool) : (s.runCmd sent).connGen = s.connGen := by
  unfold Client.runCmd
  split
  · rfl
  · split <;> rfl
  · rfl

theorem changes_read : Changes hints s .read s.read.client := by
  unfold System.read
  split
  · exact .unchanged _
  · exact .same _ _ ⟨rfl, rfl, rfl, rfl, rfl⟩ rfl
  · rename_i x rest hwire
    have hsame := sameTables_onSubscribed
      { s.client with pubsub := { s.client.pubsub with wire := rest } } x
    have hgen : (Client.onSubscribed
        { s.client with pubsub := { s.client.pubsub with wire := rest } } x).1.connGen =
        s.client.connGen := by
      unfold Client.onSubscribed
      split <;> rfl
    dsimp only
    split
    all_goals
      rename_i client heq
      rw [heq] at hsame hgen
      exact .same _ _ ⟨hsame.1, hsame.2, hsame.3, hsame.4, hsame.5⟩ hgen

/-- A step leaves the tables alone or changes them as its act does. -/
theorem client_step (hints : Nat → List HintEntry) (s : System) (a : Act) :
    Changes hints s a (step hints s a).client := by
  cases a with
  | subscribe c x =>
    unfold step
    dsimp only
    split_ifs with hidle
    · have hreg : Changes hints s (.subscribe c x) (s.client.register x).1 := .register c x hidle
      split
      all_goals
        rename_i heq
        rw [heq] at hreg
        exact hreg
    · exact .unchanged _
  | list c =>
    unfold step
    dsimp only
    split
    · rename_i x r hq
      split_ifs with hne
      · exact .list c x r hq hne
      · exact .unchanged _
    · exact .unchanged _
  | rollBack c =>
    unfold step
    dsimp only
    split
    · rename_i x r hq
      exact .rollBack _ c x r true (.failing hq)
    · exact .unchanged _
  | listFails c =>
    unfold step
    dsimp only
    split
    · rename_i x r hq
      exact .rollBack _ c x r false (.listFails hq)
    · exact .unchanged _
  | check c =>
    unfold step
    dsimp only
    split
    · rename_i x r hq
      split_ifs with hgen
      · exact .check c x r hq hgen
      · exact .unchanged _
    · exact .unchanged _
  | finish c =>
    unfold step
    dsimp only
    split
    · rename_i x r hq
      exact .finish c x r hq
    · exact .unchanged _
  | mark =>
    unfold step
    dsimp only
    split
    · rename_i x gen hm
      unfold Client.markReady
      split
      · exact .unchanged _
      · rename_i r hr
        split_ifs with hc
        · exact .mark x r (hc.1 ▸ hm) hr hc.2.1
        · exact .unchanged _
    · exact .unchanged _
  | release c =>
    unfold step
    dsimp only
    split
    · rename_i x r hq
      exact .release c x r hq
    · exact .unchanged _
  | unsubscribe c =>
    unfold step
    dsimp only
    split
    · rename_i x hq
      exact .unsubscribe c x hq
    · exact .unchanged _
  | runCmd sent =>
    unfold step
    dsimp only
    split_ifs
    · exact .same _ _ (sameTables_runCmd s.client sent) (connGen_runCmd s.client sent)
    · exact .unchanged _
  | read =>
    unfold step
    dsimp only
    split_ifs
    · exact changes_read
    · exact .unchanged _
  | unsubscribeOrphan sent =>
    unfold step
    dsimp only
    split
    · rename_i x hl
      refine .same _ _ (sameTables_unsubscribeOrphan s.client x sent) ?_
      show (s.client.unsubscribeOrphan x sent).connGen = s.client.connGen
      unfold Client.unsubscribeOrphan
      split_ifs <;> rfl
    · exact .unchanged _
  | lost =>
    unfold step
    dsimp only
    split_ifs
    · exact .invalidate _ _ rfl (.refl _) rfl
    · exact .unchanged _
  | reconnect order =>
    unfold step
    dsimp only
    split_ifs
    · exact .invalidate _ _ rfl ⟨rfl, rfl, rfl, rfl, rfl⟩ rfl
    · exact .unchanged _
  | _ =>
    refine .same _ _ ?_ ?_
    · unfold step
      dsimp only
      repeat' split
      all_goals exact ⟨rfl, rfl, rfl, rfl, rfl⟩
    · unfold step
      dsimp only
      repeat' split
      all_goals rfl

namespace Changes

variable {a : Act} {client : Client}

/-- The entries of a hash come with its first registrant and go with its last subscription. -/
theorem entries (hc : Changes hints s a client) (h : Nat) :
    client.entries h = s.client.entries h ∨
    (∃ c r, a = .list c ∧ s.place c = .first h r ∧ client.entries h = some (hints h)) ∨
    (∃ c r subscribed, RollsBack s c h r subscribed a ∧ s.client.ready h = some r ∧
      client.entries h = none) ∨
    (∃ c, a = .unsubscribe c ∧ s.place c = .opened h ∧ (s.client.refcount h).getD 0 ≤ 1 ∧
      client.entries h = none) := by
  cases hc with
  | same _ _ hsame => exact .inl (congrFun hsame.entries h)
  | register c x =>
    refine .inl ?_
    unfold Client.register
    dsimp only
    split_ifs <;> rfl
  | list c x r hplace =>
    by_cases hx : h = x
    · subst hx
      exact .inr (.inl ⟨c, r, rfl, hplace, Function.update_self ..⟩)
    · exact .inl (Function.update_of_ne hx ..)
  | rollBack _ c x r subscribed hroll =>
    by_cases hready : s.client.ready x = some r
    · rw [(rollBack_fields hready subscribed).2.2.1]
      by_cases hx : h = x
      · subst hx
        exact .inr (.inr (.inl ⟨c, r, subscribed, hroll, hready, Function.update_self ..⟩))
      · exact .inl (Function.update_of_ne hx ..)
    · exact .inl (by simp only [Client.rollBack, hready, if_false])
  | check c x r => exact .inl (congrFun (setReady_fields ..).2.2.1 h)
  | finish c x r => exact .inl (congrFun (setReady_fields ..).2.2.1 h)
  | mark x r => exact .inl (congrFun (setReady_fields ..).2.2.1 h)
  | release c x r =>
    refine .inl ?_
    unfold Client.release
    dsimp only
    split_ifs <;> rfl
  | unsubscribe c x hplace =>
    unfold Client.unregister
    dsimp only
    split_ifs with hprior hne
    · exact .inl rfl
    all_goals
      by_cases hx : h = x
      · subst hx
        exact .inr (.inr (.inr ⟨c, rfl, hplace, not_lt.1 hprior, Function.update_self ..⟩))
      · exact .inl (Function.update_of_ne hx ..)
  | invalidate _ _ ha hsame => exact .inl (congrFun hsame.entries h)

/-- The readiness of a hash is made by its first registrant, goes with it or with the last
    subscription, and is replaced where a set one lost its connection. -/
theorem ready (hc : Changes hints s a client) (h : Nat) :
    client.ready h = s.client.ready h ∨
    (∃ c, a = .subscribe c h ∧ (s.client.refcount h).getD 0 = 0 ∧
      client.ready h = some (s.client.made h)) ∨
    (∃ c r subscribed, RollsBack s c h r subscribed a ∧ client.ready h = none) ∨
    (∃ c, a = .unsubscribe c ∧ s.place c = .opened h ∧ (s.client.refcount h).getD 0 ≤ 1 ∧
      client.ready h = none) ∨
    (breaks a = true ∧ s.client.resets h = true ∧ client.ready h = some (s.client.made h)) := by
  cases hc with
  | same _ _ hsame => exact .inl (congrFun hsame.ready h)
  | register c x =>
    unfold Client.register
    dsimp only
    split_ifs with hrefs
    · by_cases hx : h = x
      · subst hx
        exact .inr (.inl ⟨c, rfl, hrefs, Function.update_self ..⟩)
      · exact .inl (Function.update_of_ne hx ..)
    · exact .inl rfl
  | list c x r => exact .inl rfl
  | rollBack _ c x r subscribed hroll =>
    by_cases hready : s.client.ready x = some r
    · rw [(rollBack_fields hready subscribed).2.1]
      by_cases hx : h = x
      · subst hx
        exact .inr (.inr (.inl ⟨c, r, subscribed, hroll, Function.update_self ..⟩))
      · exact .inl (Function.update_of_ne hx ..)
    · exact .inl (by simp only [Client.rollBack, hready, if_false])
  | check c x r => exact .inl (congrFun (setReady_fields ..).2.1 h)
  | finish c x r => exact .inl (congrFun (setReady_fields ..).2.1 h)
  | mark x r => exact .inl (congrFun (setReady_fields ..).2.1 h)
  | release c x r =>
    refine .inl ?_
    unfold Client.release
    dsimp only
    split_ifs <;> rfl
  | unsubscribe c x hplace =>
    unfold Client.unregister
    dsimp only
    split_ifs with hprior hne
    · exact .inl rfl
    all_goals
      by_cases hx : h = x
      · subst hx
        exact .inr (.inr (.inr (.inl ⟨c, rfl, hplace, not_lt.1 hprior, Function.update_self ..⟩)))
      · exact .inl (Function.update_of_ne hx ..)
  | invalidate _ _ ha hsame =>
    rw [hsame.ready]
    unfold Client.invalidateReady
    dsimp only
    split_ifs with hreset
    · exact .inr (.inr (.inr (.inr ⟨ha, hreset, rfl⟩)))
    · exact .inl rfl

end Changes

/-- `ready.event.set()`, by one of the three that call it. -/
inductive Sets (s : System) (h r : Nat) : Act → Prop
  | check (c : Nat) (hplace : s.place c = .registered h r)
      (hgen : (s.client.ack c).gen = some s.client.connGen) : Sets s h r (.check c)
  | finish (c : Nat) (hplace : s.place c = .finishing h r) : Sets s h r (.finish c)
  | mark (hmaint : s.maint = .hinted h s.client.connGen) (hready : s.client.ready h = some r)
      (hentries : (s.client.entries h).isSome) : Sets s h r .mark

theorem obj_setReady (s : Client) (h r x y : Nat) :
    (s.setReady h r).obj x y = s.obj x y ∨
      (x = h ∧ y = r ∧ (s.obj h r).set = false ∧
        (s.setReady h r).obj x y = { s.obj h r with set := true, gen := s.connGen }) := by
  by_cases hxy : x = h ∧ y = r
  · obtain ⟨rfl, rfl⟩ := hxy
    unfold Client.setReady
    split_ifs with hset
    · exact .inl rfl
    · refine .inr ⟨rfl, rfl, by simpa using hset, ?_⟩
      simp only [Function.update_self]
  · exact .inl (obj_setReady_of_ne s hxy)

/-- A readiness is set, or fails with its first registrant. -/
theorem Changes.obj {a : Act} {client : Client} (hc : Changes hints s a client) (h r : Nat) :
    client.obj h r = s.client.obj h r ∨
    ((s.client.obj h r).set = false ∧ client.connGen = s.client.connGen ∧ Sets s h r a ∧
      client.obj h r = { s.client.obj h r with set := true, gen := s.client.connGen }) ∨
    (∃ c subscribed, RollsBack s c h r subscribed a ∧
      client.obj h r = { s.client.obj h r with error := true, set := true }) := by
  have hset : ∀ x y, Sets s x y a → (s.client.setReady x y).connGen = s.client.connGen →
      (s.client.setReady x y).obj h r = s.client.obj h r ∨
      ((s.client.obj h r).set = false ∧
        (s.client.setReady x y).connGen = s.client.connGen ∧ Sets s h r a ∧
        (s.client.setReady x y).obj h r =
          { s.client.obj h r with set := true, gen := s.client.connGen }) ∨
      (∃ c subscribed, RollsBack s c h r subscribed a ∧
        (s.client.setReady x y).obj h r =
          { s.client.obj h r with error := true, set := true }) := fun x y hsets hgen => by
    rcases obj_setReady s.client x y h r with hsame | ⟨rfl, rfl, hunset, heq⟩
    · exact .inl hsame
    · exact .inr (.inl ⟨hunset, hgen, hsets, heq⟩)
  have hgen : ∀ x y, (s.client.setReady x y).connGen = s.client.connGen := fun x y => by
    unfold Client.setReady
    split_ifs <;> rfl
  cases hc with
  | same _ _ hsame => exact .inl (congrFun (congrFun hsame.obj h) r)
  | register c x =>
    refine .inl ?_
    unfold Client.register
    dsimp only
    split_ifs <;> rfl
  | list c x r' => exact .inl rfl
  | rollBack _ c x y subscribed hroll =>
    have hobj : (s.client.rollBack x y subscribed).obj = Function.update s.client.obj x
        (Function.update (s.client.obj x) y
          { s.client.obj x y with error := true, set := true }) := by
      unfold Client.rollBack
      dsimp only
      split_ifs <;> rfl
    by_cases hx : h = x
    · subst hx
      by_cases hy : r = y
      · subst hy
        exact .inr (.inr ⟨c, subscribed, hroll, by
          rw [hobj, Function.update_self, Function.update_self]⟩)
      · exact .inl (by rw [hobj, Function.update_self, Function.update_of_ne hy])
    · exact .inl (by rw [hobj, Function.update_of_ne hx])
  | check c x y hplace hack => exact hset x y (.check c hplace hack) (hgen x y)
  | finish c x y hplace => exact hset x y (.finish c hplace) (hgen x y)
  | mark x y hmaint hready hentries => exact hset x y (.mark hmaint hready hentries) (hgen x y)
  | release c x y =>
    refine .inl ?_
    unfold Client.release
    dsimp only
    split_ifs <;> rfl
  | unsubscribe c x =>
    refine .inl ?_
    unfold Client.unregister
    dsimp only
    split_ifs <;> rfl
  | invalidate _ _ ha hsame => exact .inl (congrFun (congrFun hsame.obj h) r)

/-- The connection generation only grows. -/
theorem Changes.connGen {a : Act} {client : Client} (hc : Changes hints s a client) :
    client.connGen = s.client.connGen ∨
      breaks a = true ∧ client.connGen = s.client.connGen + 1 ∧
        SameTables s.client.invalidateReady client := by
  cases hc with
  | same _ _ hsame hgen => exact .inl hgen
  | invalidate _ _ ha hsame hgen => exact .inr ⟨ha, hgen, hsame⟩
  | register c x =>
    refine .inl ?_
    unfold Client.register
    dsimp only
    split_ifs <;> rfl
  | list c x r => exact .inl rfl
  | rollBack _ c x r subscribed =>
    refine .inl ?_
    unfold Client.rollBack
    dsimp only
    split_ifs <;> rfl
  | release c x r =>
    refine .inl ?_
    unfold Client.release
    dsimp only
    split_ifs <;> rfl
  | unsubscribe c x =>
    refine .inl ?_
    unfold Client.unregister
    dsimp only
    split_ifs <;> rfl
  | _ =>
    refine .inl ?_
    unfold Client.setReady
    split_ifs <;> rfl

/-! ## The listener and its connection -/

/-- What the listener works on: the commands, the groups, the connection and the acks. -/
structure SameChannel (s t : Client) : Prop where
  queue : t.queue = s.queue
  pubsub : t.pubsub = s.pubsub
  pending : t.pending = s.pending
  ack : t.ack = s.ack

theorem sameChannel_register (s : Client) (h : Nat) : SameChannel s (s.register h).1 := by
  unfold Client.register
  dsimp only
  split_ifs <;> exact ⟨rfl, rfl, rfl, rfl⟩

theorem sameChannel_setReady (s : Client) (h r : Nat) : SameChannel s (s.setReady h r) := by
  unfold Client.setReady
  split_ifs <;> exact ⟨rfl, rfl, rfl, rfl⟩

theorem sameChannel_markReady (s : Client) (h gen : Nat) : SameChannel s (s.markReady h gen) := by
  unfold Client.markReady
  split
  · exact ⟨rfl, rfl, rfl, rfl⟩
  · split_ifs
    · exact sameChannel_setReady s h _
    · exact ⟨rfl, rfl, rfl, rfl⟩

theorem sameChannel_release (s : Client) (h r : Nat) : SameChannel s (s.release h r) := by
  unfold Client.release
  dsimp only
  split_ifs <;> exact ⟨rfl, rfl, rfl, rfl⟩

/-- A rollback queues an UNSUBSCRIBE where its SUBSCRIBE was queued and the readiness is still the
    hash's. -/
theorem rollBack_channel (s : Client) (h r : Nat) (subscribed : Bool) :
    SameChannel
      { s with
        queue := s.queue ++ if s.ready h = some r ∧ subscribed = true then [.unsub h] else [] }
      (s.rollBack h r subscribed) := by
  unfold Client.rollBack
  dsimp only
  by_cases hready : s.ready h = some r
  · cases subscribed with
    | true => simp only [hready, if_true, and_self]; exact ⟨rfl, rfl, rfl, rfl⟩
    | false =>
      simp only [hready, if_true, Bool.false_eq_true, and_false, if_false]
      exact ⟨(List.append_nil _).symm, rfl, rfl, rfl⟩
  · simp only [hready, if_false, false_and]
    exact ⟨(List.append_nil _).symm, rfl, rfl, rfl⟩

/-- So does the last `_unregister_local_filter`. -/
theorem unregister_channel (s : Client) (h : Nat) :
    SameChannel { s with queue := s.queue ++
        if (s.refcount h).getD 0 ≤ 1 ∧ (s.entries h).getD [] ≠ [] then [.unsub h] else [] }
      (s.unregister h) := by
  unfold Client.unregister
  dsimp only
  by_cases hprior : (s.refcount h).getD 0 > 1
  · rw [if_pos hprior, if_neg fun hc => absurd hc.1 (not_le.2 hprior)]
    exact ⟨(List.append_nil _).symm, rfl, rfl, rfl⟩
  · rw [if_neg hprior]
    by_cases hne : (s.entries h).getD [] ≠ []
    · rw [if_pos hne, if_pos ⟨not_lt.1 hprior, hne⟩]
      exact ⟨rfl, rfl, rfl, rfl⟩
    · rw [if_neg hne, if_neg fun hc => hne hc.2]
      exact ⟨(List.append_nil _).symm, rfl, rfl, rfl⟩

/-- An act that neither queues a command nor is one of the listener's or the connection's. -/
def aside : Act → Bool
  | .dispatch _ | .rollBack _ | .unsubscribe _ | .runCmd _ | .read | .look | .unsubscribeOrphan _
  | .drop | .reconnect _ => false
  | _ => true

theorem aside_step (hints : Nat → List HintEntry) (s : System) {a : Act} (ha : aside a = true) :
    SameChannel s.client (step hints s a).client ∧ (step hints s a).listener = s.listener := by
  cases a with
  | dispatch c => cases ha
  | rollBack c => cases ha
  | unsubscribe c => cases ha
  | runCmd sent => cases ha
  | read => cases ha
  | look => cases ha
  | unsubscribeOrphan sent => cases ha
  | drop => cases ha
  | reconnect order => cases ha
  | subscribe c x =>
    unfold step
    dsimp only
    split_ifs
    · have hsame := sameChannel_register s.client x
      split
      all_goals
        rename_i heq
        rw [heq] at hsame
        exact ⟨hsame, rfl⟩
    · exact ⟨⟨rfl, rfl, rfl, rfl⟩, rfl⟩
  | check c =>
    unfold step
    dsimp only
    split
    · split_ifs
      · exact ⟨sameChannel_setReady .., rfl⟩
      · exact ⟨⟨rfl, rfl, rfl, rfl⟩, rfl⟩
    · exact ⟨⟨rfl, rfl, rfl, rfl⟩, rfl⟩
  | finish c =>
    unfold step
    dsimp only
    split
    · exact ⟨sameChannel_setReady .., rfl⟩
    · exact ⟨⟨rfl, rfl, rfl, rfl⟩, rfl⟩
  | release c =>
    unfold step
    dsimp only
    split
    · exact ⟨sameChannel_release .., rfl⟩
    · exact ⟨⟨rfl, rfl, rfl, rfl⟩, rfl⟩
  | mark =>
    unfold step
    dsimp only
    split
    · exact ⟨sameChannel_markReady .., rfl⟩
    · exact ⟨⟨rfl, rfl, rfl, rfl⟩, rfl⟩
  | listFails c =>
    unfold step
    dsimp only
    split
    · rename_i x r hq
      obtain ⟨hqueue, hpubsub, hpending, hack⟩ := rollBack_channel s.client x r false
      rw [if_neg (by simp), List.append_nil] at hqueue
      exact ⟨⟨hqueue, hpubsub, hpending, hack⟩, rfl⟩
    · exact ⟨⟨rfl, rfl, rfl, rfl⟩, rfl⟩
  | _ =>
    unfold step
    dsimp only
    repeat' split
    all_goals exact ⟨⟨rfl, rfl, rfl, rfl⟩, rfl⟩

/-! ## The records -/

theorem confirms_read (s : System) : s.read.confirms = s.confirms ∨
    ∃ x rest, s.client.pubsub.wire = .subscribed x :: rest ∧
      s.read.confirms = s.confirms ++ [(x, s.client.connGen)] := by
  unfold System.read
  split
  · exact .inl rfl
  · exact .inl rfl
  · rename_i x rest hwire
    refine .inr ⟨x, rest, hwire, ?_⟩
    dsimp only
    split <;> rfl

/-- What was confirmed and registered stays so. -/
theorem records_step (hints : Nat → List HintEntry) (s : System) (a : Act) :
    s.confirms ⊆ (step hints s a).confirms ∧ s.hinted ⊆ (step hints s a).hinted := by
  cases a with
  | subscribe c x =>
    unfold step
    dsimp only
    split_ifs
    · split <;> exact ⟨List.Subset.refl _, List.Subset.refl _⟩
    · exact ⟨List.Subset.refl _, List.Subset.refl _⟩
  | read =>
    unfold step
    dsimp only
    split_ifs
    · have hhinted : s.read.hinted = s.hinted := by
        unfold System.read
        split
        · rfl
        · rfl
        · dsimp only
          split <;> rfl
      rw [hhinted]
      rcases confirms_read s with heq | ⟨x, rest, -, heq⟩
      · exact ⟨heq ▸ List.Subset.refl _, List.Subset.refl _⟩
      · exact ⟨heq ▸ List.subset_append_left .., List.Subset.refl _⟩
    · exact ⟨List.Subset.refl _, List.Subset.refl _⟩
  | hint c ok =>
    unfold step
    dsimp only
    split
    · split_ifs
      · exact ⟨List.Subset.refl _, List.subset_append_left ..⟩
      · exact ⟨List.Subset.refl _, List.Subset.refl _⟩
    · exact ⟨List.Subset.refl _, List.Subset.refl _⟩
  | reregister ok =>
    unfold step
    dsimp only
    split
    · split_ifs
      · exact ⟨List.Subset.refl _, List.subset_append_left ..⟩
      · exact ⟨List.Subset.refl _, List.Subset.refl _⟩
    · exact ⟨List.Subset.refl _, List.Subset.refl _⟩
  | _ =>
    unfold step
    dsimp only
    repeat' split
    all_goals exact ⟨List.Subset.refl _, List.Subset.refl _⟩

/-- An ack fails with the send of its SUBSCRIBE, or is set by a confirmation. -/
theorem ack_step (hints : Nat → List HintEntry) (s : System) (a : Act) (c : Nat) :
    (step hints s a).client.ack c = s.client.ack c ∨
    (∃ x, .sub x c ∈ s.client.queue ∧
      (step hints s a).client.ack c = { s.client.ack c with error := true, set := true }) ∨
    (∃ x, c ∈ (s.client.pending x).flatten ∧ (x, s.client.connGen) ∈ (step hints s a).confirms ∧
      (step hints s a).client.ack c =
        { s.client.ack c with set := true, gen := some s.client.connGen }) := by
  cases ha : aside a with
  | true => exact .inl (congrFun (aside_step hints s ha).1.ack c)
  | false =>
    cases a with
    | dispatch d =>
      unfold step
      dsimp only
      split <;> exact .inl rfl
    | rollBack d =>
      unfold step
      dsimp only
      split
      · exact .inl (congrFun (rollBack_channel ..).ack c)
      · exact .inl rfl
    | unsubscribe d =>
      unfold step
      dsimp only
      split
      · exact .inl (congrFun (unregister_channel ..).ack c)
      · exact .inl rfl
    | runCmd sent =>
      unfold step
      dsimp only
      split_ifs
      swap
      · exact .inl rfl
      unfold Client.runCmd
      split
      · exact .inl rfl
      · rename_i x d rest hq
        split
        · exact .inl rfl
        · by_cases hd : c = d
          · subst hd
            exact .inr (.inl ⟨x, by rw [hq]; exact List.mem_cons_self, Function.update_self ..⟩)
          · exact .inl (Function.update_of_ne hd ..)
      · exact .inl rfl
    | read =>
      unfold step
      dsimp only
      split_ifs
      swap
      · exact .inl rfl
      unfold System.read
      split
      · exact .inl rfl
      · exact .inl rfl
      · rename_i x rest hwire
        have hack : ∀ client progress, Client.onSubscribed
            { s.client with pubsub := { s.client.pubsub with wire := rest } } x =
              (client, progress) →
            client.ack c = s.client.ack c ∨ c ∈ (s.client.pending x).flatten ∧
              client.ack c =
                { s.client.ack c with set := true, gen := some s.client.connGen } := by
          intro client progress heq
          unfold Client.onSubscribed at heq
          dsimp only at heq
          split at heq
          · obtain ⟨rfl, -⟩ := Prod.mk.inj heq
            exact .inl rfl
          · rename_i group groups hp
            obtain ⟨rfl, -⟩ := Prod.mk.inj heq
            dsimp only
            split_ifs with hin
            · exact .inr ⟨by rw [hp]; exact List.mem_append_left _ hin, rfl⟩
            · exact .inl rfl
        dsimp only
        split
        all_goals
          rename_i client heq
          rcases hack client _ heq with hsame | ⟨hin, hset⟩
          · exact .inl hsame
          · exact .inr (.inr ⟨x, hin, List.mem_append_right _ (List.mem_singleton_self _), hset⟩)
    | look =>
      unfold step
      dsimp only
      repeat' split
      all_goals exact .inl rfl
    | unsubscribeOrphan sent =>
      unfold step
      dsimp only
      split
      · refine .inl ?_
        unfold Client.unsubscribeOrphan
        split_ifs <;> rfl
      · exact .inl rfl
    | drop => exact .inl rfl
    | reconnect order =>
      unfold step
      dsimp only
      split_ifs <;> exact .inl rfl
    | _ => cases ha

/-- The generation that a call began on. -/
theorem began_step (hints : Nat → List HintEntry) (s : System) (a : Act) (c : Nat) :
    (step hints s a).began c = s.began c ∨
      s.place c = .idle ∧ (step hints s a).began c = s.client.connGen := by
  cases a with
  | subscribe d x =>
    unfold step
    dsimp only
    split_ifs with hidle
    swap
    · exact .inl rfl
    have hbegan : Function.update s.began d s.client.connGen c = s.began c ∨
        s.place c = .idle ∧ Function.update s.began d s.client.connGen c = s.client.connGen := by
      by_cases hd : c = d
      · subst hd
        exact .inr ⟨hidle, Function.update_self ..⟩
      · exact .inl (Function.update_of_ne hd ..)
    split <;> exact hbegan
  | read =>
    refine .inl ?_
    unfold step
    dsimp only
    split_ifs
    swap
    · rfl
    unfold System.read
    split
    · rfl
    · rfl
    · dsimp only
      split <;> rfl
  | _ =>
    refine .inl ?_
    unfold step
    dsimp only
    repeat' split
    all_goals rfl

end System

end Virtuals.Observer
