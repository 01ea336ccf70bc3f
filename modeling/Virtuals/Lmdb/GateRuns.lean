/-
  The writer gate over whole runs.

  Every reachable state keeps what is known of the requests, the queues, the futures and the lock
  (`Inv`), and `writer_gate` reads the gate's promises off it. A future that a close finds is never
  `_consumer` again, and its requester cannot leave before it is completed (`Kept`).
-/
import Virtuals.Lmdb.GateAccounting

namespace Virtuals.Lmdb

namespace WriterGate

variable {s t : WriterGate} {c f g : Nat}

/-- What every reachable state keeps. -/
structure Inv (s : WriterGate) : Prop where
  flight : s.Flight
  threads : s.Threads
  waiters : s.Waiters
  account : s.Account

theorem Inv.step (h : s.Inv) (hs : s.Step t) : t.Inv :=
  ⟨h.flight.step h.threads hs, h.threads.step h.flight hs,
    h.waiters.step h.flight h.threads hs, h.account.step h.flight h.threads h.waiters hs⟩

theorem Reachable.inv (h : Reachable s) : s.Inv := by
  induction h with
  | start peer =>
    exact ⟨flight_start peer, threads_start peer, waiters_start peer, account_start peer⟩
  | step _ hs ih => exact ih.step hs

theorem Run.inv (h : Run s t) (hs : s.Inv) : t.Inv := by
  induction h with
  | refl => exact hs
  | step _ hu ih => exact ih.step hu

/-! ## The future that a close finds -/

/-- The future is not `_consumer`; it is completed, or its requester is still on it. -/
structure Kept (f : Nat) (s : WriterGate) : Prop where
  made : f < s.nextFuture
  taken : s.consumer ≠ some f
  place : s.futures f ≠ none ∨ ∃ g, s.requester.attachment = some (f, g)

theorem Kept.congr (h : Kept f s) (hn : s.nextFuture ≤ t.nextFuture)
    (hc : t.consumer = s.consumer ∨ t.consumer = none)
    (hf : t.futures f = none → s.futures f = none)
    (hr : s.futures f = none → t.requester.attachment = s.requester.attachment) : Kept f t where
  made := Nat.lt_of_lt_of_le h.made hn
  taken := by
    obtain hc | hc := hc <;> rw [hc]
    · exact h.taken
    · exact fun he => by cases he
  place := by
    by_cases hnone : s.futures f = none
    · rw [hr hnone]
      exact .inr (h.place.resolve_left fun hne => hne hnone)
    · exact .inl fun he => hnone (hf he)

theorem Kept.attachConsumer (h : Kept f s) (hr : s.requester = .idle) (loop : Bool) :
    Kept f (s.attachConsumer loop) where
  made := Nat.lt_succ_of_lt h.made
  taken := fun he => Nat.ne_of_lt h.made (Option.some.inj he).symm
  place := .inl (h.place.resolve_right fun ⟨g, ha⟩ => by
    rw [hr] at ha
    cases ha)

theorem complete_futures {f' : Nat} {landing : Landing} :
    (s.complete f' landing).futures f = none → s.futures f = none := by
  intro h
  have h' : Function.update s.futures f' (some ((s.futures f').getD landing)) f = none := h
  by_cases he : f = f'
  · rw [he, Function.update_self] at h'
    cases h'
  · rw [Function.update_of_ne he] at h'
    exact h'

theorem Kept.attach (h : Kept f s) (hr : s.requester = .idle) (loop : Bool) (fault : Fault) :
    Kept f (s.attach loop fault) := by
  have hdone : s.futures f = none → False := fun hn =>
    (h.place.resolve_left fun hne => hne hn).elim fun g ha => by
      rw [hr] at ha
      cases ha
  have hst : s.startThread.nextFuture = s.nextFuture ∧ s.startThread.consumer = s.consumer ∧
      s.startThread.futures = s.futures := by
    unfold WriterGate.startThread
    split <;> exact ⟨rfl, rfl, rfl⟩
  obtain ⟨hn, hc, hf⟩ := hst
  have hkst : Kept f s.startThread :=
    h.congr (Nat.le_of_eq hn.symm) (.inl hc) (by rw [hf]; exact id) fun hn => (hdone hn).elim
  obtain ⟨-, he⟩ | ⟨error, he⟩ | ⟨-, d, -, ⟨-, he⟩ | ⟨-, he | he⟩⟩ := attach_cases s loop fault
  · rw [he]
    exact h.attachConsumer hr loop
  · rw [he]
    exact h.congr (Nat.le_refl _) (.inl rfl) id fun hn => (hdone hn).elim
  · rw [he]
    exact h.congr (Nat.le_refl _) (.inl rfl) id fun hn => (hdone hn).elim
  · rw [he]
    exact hkst.congr (Nat.le_refl _) (.inl rfl) id fun hn => by
      rw [hf] at hn
      exact (hdone hn).elim
  · rw [he]
    have hq : Kept f (s.startThread.queueWait d) := ⟨hkst.made, hkst.taken, hkst.place⟩
    exact hq.attachConsumer ((startThread_requester s).trans hr) loop

/-- Every step keeps it: the requester leaves a future that is not `_consumer` only when it is
    completed. -/
theorem Kept.step (h : Kept f s) (hs : s.Step t) : Kept f t := by
  have hsame : ∀ u : WriterGate, u.nextFuture = s.nextFuture → u.consumer = s.consumer →
      u.futures = s.futures → u.requester.attachment = s.requester.attachment → Kept f u :=
    fun u hn hc hf hr => h.congr (Nat.le_of_eq hn.symm) (.inl hc) (by rw [hf]; exact id)
      fun _ => hr
  -- the requester leaves a future that is completed
  have hleaves : ∀ (u : WriterGate) (f' g' : Nat) (landing : Landing),
      s.requester.attachment = some (f', g') → s.futures f' = some landing →
      u.nextFuture = s.nextFuture → u.consumer = s.consumer → u.futures = s.futures →
      Kept f u := by
    intro u f' g' landing ha hf' hn hc hf
    refine h.congr (Nat.le_of_eq hn.symm) (.inl hc) (by rw [hf]; exact id) fun hnone => ?_
    obtain ⟨g, ha'⟩ := h.place.resolve_left fun hne => hne hnone
    have he : f' = f := congrArg Prod.fst (Option.some.inj (ha.symm.trans ha'))
    rw [← he, hf'] at hnone
    cases hnone
  -- the requester detaches its own future, which is not this one
  have hdetach : ∀ (f' g' : Nat) (error : GateError), s.requester.attachment = some (f', g') →
      s.consumer = some f' → Kept f ({ s with consumer := none }.raise error) := by
    intro f' g' error ha hc
    refine h.congr (Nat.le_refl _) (.inr rfl) id fun hnone => ?_
    obtain ⟨g, ha'⟩ := h.place.resolve_left fun hne => hne hnone
    have he : f' = f := congrArg Prod.fst (Option.some.inj (ha.symm.trans ha'))
    exact absurd (hc.trans (congrArg some he)) h.taken
  -- nobody waits
  have hidle : ∀ u : WriterGate, s.requester.attachment = none →
      u.nextFuture = s.nextFuture → u.consumer = s.consumer → u.futures = s.futures →
      Kept f u := by
    intro u ha hn hc hf
    refine h.congr (Nat.le_of_eq hn.symm) (.inl hc) (by rw [hf]; exact id) fun hnone => ?_
    obtain ⟨g, ha'⟩ := h.place.resolve_left fun hne => hne hnone
    rw [ha] at ha'
    cases ha'
  have hrelease : ∀ generation, Kept f (s.release generation) := by
    intro generation
    obtain he | ⟨d, -, -, he⟩ := release_cases s generation
    · rw [he]
      exact h
    · rw [he]
      exact hsame _ rfl rfl rfl rfl
  cases hs with
  | openFile =>
    unfold openFile
    cases s.fd with
    | some d => exact h
    | none => exact h.congr (Nat.le_refl _) (.inr rfl) id fun _ => rfl
  | attach loop fault hr hc => exact h.attach hr loop fault
  | returns generation hr => exact hidle _ (by rw [hr]; rfl) rfl rfl rfl
  | read loop f' generation landing hr hf =>
    have ha : s.requester.attachment = some (f', generation) := by
      obtain hr | hr := hr <;> rw [hr] <;> rfl
    cases landing with
    | ok => exact hleaves _ f' generation _ ha hf rfl rfl rfl
    | error e =>
      unfold read
      dsimp only
      split
      · exact hleaves _ f' generation _ ha hf rfl rfl rfl
      · exact hsame _ rfl rfl rfl ha.symm
  | timeOut loop f' generation hr =>
    have ha : s.requester.attachment = some (f', generation) := by rw [hr]; rfl
    unfold timeOut
    by_cases hc : s.consumer = some f'
    · rw [if_pos hc]
      exact hdetach f' generation _ ha hc
    · rw [if_neg hc]
      exact hsame _ rfl rfl rfl ha.symm
  | cancel f' generation hr => exact hsame _ rfl rfl rfl (by rw [hr]; rfl)
  | leave f' generation error hr =>
    have ha : s.requester.attachment = some (f', generation) := by rw [hr]; rfl
    unfold leave
    by_cases hc : s.consumer = some f'
    · rw [if_pos hc]
      exact hdetach f' generation error ha hc
    · rw [if_neg hc]
      exact hsame _ rfl rfl rfl ha.symm
  | reread f' generation error landing hr hf =>
    have ha : s.requester.attachment = some (f', generation) := by rw [hr]; rfl
    cases landing <;> exact hleaves _ f' generation _ ha hf rfl rfl rfl
  | giveBack generation error hr =>
    have hk := hrelease (some generation)
    have hfut : (s.release (some generation)).futures = s.futures := by
      obtain he | ⟨d, -, -, he⟩ := release_cases s (some generation) <;> rw [he]
    refine hk.congr (Nat.le_refl _) (.inl rfl) id fun hnone => ?_
    rw [hfut] at hnone
    obtain ⟨g, ha⟩ := h.place.resolve_left fun hne => hne hnone
    rw [hr] at ha
    cases ha
  | release generation hr => exact hrelease generation
  | wakeWaiters c error closing hc he => exact h.congr (Nat.le_refl _) (.inr rfl) id fun _ => rfl
  | woken c consumer error closing hc =>
    obtain ⟨caller, -, he⟩ := woken_cases s c consumer error closing
    rw [he]
    cases consumer with
    | none => exact hsame _ rfl rfl rfl rfl
    | some f' => exact h.congr (Nat.le_refl _) (.inl rfl) complete_futures fun _ => rfl
  | closeSection c hc => exact hsame _ rfl rfl rfl rfl
  | putNone c q fd hc => exact hsame _ rfl rfl rfl rfl
  | closeFd c fd hc => exact hsame _ rfl rfl rfl rfl
  | get q request rest hq hr => exact hsame _ rfl rfl rfl rfl
  | check q r hq =>
    unfold check
    split <;> exact hsame _ rfl rfl rfl rfl
  | lands q r hq hf => exact hsame _ rfl rfl rfl rfl
  | fails q r hq => exact hsame _ rfl rfl rfl rfl
  | endWait q r landing hq =>
    unfold endWait
    split
    · exact h.congr (Nat.le_refl _) (.inr rfl) id fun _ => rfl
    · exact hsame _ rfl rfl rfl rfl
  | deliver q f' landing hq =>
    exact h.congr (Nat.le_refl _) (.inl rfl) complete_futures fun _ => rfl
  | peerTakes p hl => exact hsame _ rfl rfl rfl rfl
  | peerGives p hl => exact hsame _ rfl rfl rfl rfl

theorem Kept.run (h : Kept f s) (hr : Run s t) : Kept f t := by
  induction hr with
  | refl => exact h
  | step _ hu ih => exact ih.step hu

/-! ## What a thread has in hand, it completes -/

theorem hand_completes (h : s.Inv) {p : Party} {landing : Landing}
    (hp : s.hand p = some (f, landing)) : ∃ t, s.Step t ∧ t.futures f = some landing := by
  have hnone := (h.waiters.hand p f landing hp).2.1
  have hset : (s.complete f landing).futures f = some landing := by
    refine (Function.update_self ..).trans ?_
    rw [hnone]
    rfl
  cases p with
  | helper q =>
    have hq : s.helper q = .delivering f landing := by
      have hp' : (s.helper q).hand = some (f, landing) := hp
      cases hh : s.helper q <;> rw [hh] at hp' <;> cases hp'
      rfl
    exact ⟨_, .deliver q f landing hq, hset⟩
  | caller c =>
    have hp' : (s.caller c).hand = some (f, landing) := hp
    cases hc : s.caller c with
    | waking consumer error closing =>
      rw [hc] at hp'
      cases consumer with
      | none => cases hp'
      | some f' =>
        cases hp'
        exact ⟨_, .woken c (some f) error closing hc, hset⟩
    | _ => rw [hc] at hp'; cases hp'

/-! ## What the gate promises -/

/-- An attach in this state makes its non-blocking `flock` call on the description. -/
def TriesNb (s : WriterGate) (d : Nat) : Prop := s.waiting = false ∧ s.fd = some d

/-- The helper of the queue in use is in `requests.get()`, or not started. -/
def HelperIdle (s : WriterGate) : Prop :=
  s.helper s.queue = .unstarted ∨ s.helper s.queue = .idle

/-- This process has the lock of the file in use. -/
def Held (s : WriterGate) : Prop := s.lock.holder = some (.ours s.generation)

/-- The future is completed, or a thread has it in hand whose next step completes it. -/
def Completed (f : Nat) (s : WriterGate) : Prop :=
  s.futures f ≠ none ∨ ∃ p landing, s.hand p = some (f, landing) ∧
    ∃ t, s.Step t ∧ t.futures f = some landing

/-- The gate's promises. -/
structure Accounted (s : WriterGate) : Prop where
  /-- At most one blocking `flock` is in flight on a description. -/
  one : ∀ q q' r r', s.helper q = .flocking r → s.helper q' = .flocking r' →
    r.description = r'.description → q = q'
  /-- No non-blocking one is made beside it. -/
  alone : ∀ d, s.TriesNb d → ∀ q r, s.helper q = .flocking r → r.description ≠ d
  /-- An acquire that returned in the generation that is current has the lock until a release. -/
  held : holds s.log s.generation = true → s.Held
  /-- With no acquire in progress and the helper idle, nothing else has it. -/
  settled : s.requester = .idle → s.HelperIdle → (s.Held ↔ holds s.log s.generation = true)
  /-- From the start of a close on, every requester that it finds is completed. -/
  completed : ∀ c f g, s.caller c = .idle → s.requester.attachment = some (f, g) →
    ∀ t, Run (s.wakeWaiters c .StorageClosedError true) t → t.Completed f

theorem Inv.completed (h : s.Inv) (hk : Kept f s) : s.Completed f := by
  by_cases hnone : s.futures f = none
  · obtain ⟨g, ha⟩ := hk.place.resolve_left fun hne => hne hnone
    obtain hc | ⟨p, landing, hp⟩ := h.waiters.pending f g ha hnone
    · exact absurd hc hk.taken
    · exact .inr ⟨p, landing, hp, hand_completes h hp⟩
  · exact .inl hnone

/-- The writer gate keeps its promises in every reachable state. -/
theorem writer_gate (hs : Reachable s) : s.Accounted where
  one := fun _ _ _ _ hq hq' he => hs.inv.flight.one_flock hq hq' he
  alone := fun _ hd _ _ hq =>
    hs.inv.flight.no_flock_beside (by rw [hd.1]; exact Bool.false_ne_true) hd.2 hq
  held := fun hh => hs.inv.account.lock.2 (.inl hh)
  settled := fun hr hq => by
    refine hs.inv.account.lock.trans ⟨?_, .inl⟩
    rintro (hh | ⟨r, hl⟩ | hd)
    · exact hh
    · obtain hq | hq := hq <;> rw [hq] at hl <;> cases hl
    · exact absurd hd (not_due_idle hr)
  completed := fun c f g hc ha t hrun => by
    have hwake : s.Step (s.wakeWaiters c .StorageClosedError true) :=
      .wakeWaiters c .StorageClosedError true hc fun _ => rfl
    have hk : Kept f (s.wakeWaiters c .StorageClosedError true) :=
      ⟨(hs.inv.waiters.attached f g ha).1, fun he => (by cases he), .inr ⟨g, ha⟩⟩
    exact (hrun.inv (hs.inv.step hwake)).completed (hk.run hrun)

/-- Another process holds the gate, a requester waits for it, and a helper serves the wait. -/
def waitingRun : WriterGate :=
  ((start (some 7)).openFile.attach false .none).get 0 (some ⟨1, 1, 1⟩) []

theorem waitingRun_reachable : Reachable waitingRun :=
  (((Reachable.start (some 7)).step (.openFile)).step
    (.attach false .none rfl fun _ => rfl)).step (.get 0 (some ⟨1, 1, 1⟩) [] rfl rfl)

/-- The peer gives the gate back, and the wait lands and is delivered. -/
def takenRun : WriterGate :=
  let s := waitingRun.check 0 ⟨1, 1, 1⟩
  let s := { s with lock := s.lock.unlock (.peer 7) }
  let s := { s with lock := s.lock.take (.ours 1) }.setHelper 0 (.landed ⟨1, 1, 1⟩ (.ok ()))
  ((s.endWait 0 ⟨1, 1, 1⟩ (.ok ())).deliver 0 0 (.ok ())).read false 0 1 (.ok ())

theorem takenRun_reachable : Reachable takenRun :=
  ((((((waitingRun_reachable.step (.check 0 ⟨1, 1, 1⟩ rfl)).step (.peerGives 7 rfl)).step
    (.lands 0 ⟨1, 1, 1⟩ rfl (.inl rfl))).step (.endWait 0 ⟨1, 1, 1⟩ (.ok ()) rfl)).step
    (.deliver 0 0 (.ok ()) rfl)).step (.read false 0 1 (.ok ()) (.inl rfl) rfl))

/-- The wait that landed leaves the gate held, and a close that comes while it is in flight
    completes its requester. -/
theorem writer_gate_waits : takenRun.Held ∧
    (waitingRun.wakeWaiters 0 .StorageClosedError true).Completed 0 :=
  ⟨(writer_gate takenRun_reachable).held rfl,
    (writer_gate waitingRun_reachable).completed 0 0 1 rfl rfl _ (.refl _)⟩

end WriterGate

end Virtuals.Lmdb
