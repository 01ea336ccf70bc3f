/-
  Who holds the gate.

  The lock of the file in use is held by this process exactly while an acquire that succeeded is not
  released, or the wait in flight has landed and its section is to come, or a requester is on its way
  to take the lock up (`Due`). While a wait is in flight there is neither of the first and the third.
-/
import Virtuals.Lmdb.GateWaiters

namespace Virtuals.Lmdb

namespace WriterGate

variable {s t : WriterGate} {q c f g generation : Nat} {p : Party} {landing : Landing}

/-- The blocking `flock` of the queue in use landed, and the section that ends the wait is to come. -/
def Landed (s : WriterGate) : Prop := ∃ r, s.helper s.queue = .landed r (.ok ())

/-- A requester of the generation is on its way to return, or to give back, the lock it was given. -/
def Due (s : WriterGate) (g : Nat) : Prop :=
  s.requester = .took g ∨ s.requester = .releasing g ∨
    ∃ f, s.requester.attachment = some (f, g) ∧
      (s.futures f = some (.ok ()) ∨ ∃ p, s.hand p = some (f, .ok ()))

/-- What is known of the lock. -/
structure Account (s : WriterGate) : Prop where
  bound : ∀ g, s.lock.holder = some (.ours g) → g ≤ s.generation
  closed : s.fd = none → s.lock.holder ≠ some (.ours s.generation)
  log : ∀ g, s.generation < g → holds s.log g = false
  due : ∀ g, s.Due g → g ≤ s.generation
  lock : s.lock.holder = some (.ours s.generation) ↔
    holds s.log s.generation = true ∨ s.Landed ∨ s.Due s.generation
  waiting : s.waiting = true → holds s.log s.generation = false ∧ ¬ s.Due s.generation

theorem account_start (peer : Option Nat) : (start peer).Account := by
  have hdue : ∀ g, ¬ (start peer).Due g := by
    rintro g (h | h | ⟨f, h, -⟩) <;> cases h
  have hpeer : ∀ g, (start peer).lock.holder ≠ some (.ours g) := by
    intro g h
    cases peer <;> cases h
  exact {
    bound := fun g h => absurd h (hpeer g)
    closed := fun _ => hpeer _
    log := fun _ _ => rfl
    due := fun g h => absurd h (hdue g)
    lock := ⟨fun h => absurd h (hpeer _), by
      rintro (h | ⟨r, h⟩ | h)
      · cases h
      · cases h
      · exact absurd h (hdue _)⟩
    waiting := fun h => by cases h }

/-! ## Reading a state -/

theorem Flight.waiting_of_landed (h : s.Flight) (hl : s.Landed) : s.waiting = true := by
  obtain ⟨r, hr⟩ := hl
  exact (h.live (mem_inFlight (r := r) (by rw [hr]; rfl))).1

theorem not_due_idle (hr : s.requester = .idle) : ¬ s.Due g := by
  rintro (h | h | ⟨f, h, -⟩) <;> rw [hr] at h <;> cases h

/-- A requester whose future is not completed and in nobody's hand is not due. -/
theorem not_due_of_pending (ha : s.requester.attachment = some (f, generation))
    (hf : s.futures f ≠ some (.ok ())) (hp : ∀ p, s.hand p ≠ some (f, .ok ())) : ¬ s.Due g := by
  rintro (h | h | ⟨f', h, hok⟩)
  · rw [h] at ha
    cases ha
  · rw [h] at ha
    cases ha
  · have he : f = f' := congrArg Prod.fst (Option.some.inj (ha.symm.trans h))
    subst he
    obtain hok | ⟨p, hok⟩ := hok
    · exact hf hok
    · exact hp p hok

theorem due_iff_of_completed (ha : s.requester.attachment = some (f, generation))
    (hf : s.futures f = some (.ok ())) : s.Due g ↔ g = generation := by
  refine ⟨?_, ?_⟩
  · rintro (h | h | ⟨f', h, -⟩)
    · rw [h] at ha
      cases ha
    · rw [h] at ha
      cases ha
    · exact congrArg Prod.snd (Option.some.inj (h.symm.trans ha))
  · rintro rfl
    exact .inr (.inr ⟨f, ha, .inl hf⟩)

/-- What a requester is due hangs on its place, its future and the hands. -/
theorem due_congr (hr : t.requester.attachment = s.requester.attachment)
    (ht : ∀ g, t.requester = .took g ↔ s.requester = .took g)
    (hb : ∀ g, t.requester = .releasing g ↔ s.requester = .releasing g)
    (hf : t.futures = s.futures)
    (hh : ∀ f, (∃ p, t.hand p = some (f, .ok ())) ↔ ∃ p, s.hand p = some (f, .ok ())) :
    t.Due g ↔ s.Due g := by
  unfold Due
  simp only [hr, ht, hb, hf, hh]

/-! ## Frames -/

theorem Account.congr (h : s.Account) (hg : t.generation = s.generation) (hfd : t.fd = s.fd)
    (hlog : ∀ g, holds t.log g = holds s.log g)
    (hbound : ∀ g, t.lock.holder = some (.ours g) → g ≤ s.generation)
    (hlock : t.lock.holder = some (.ours s.generation) ↔
      s.lock.holder = some (.ours s.generation))
    (hl : t.Landed ↔ s.Landed) (hd : ∀ g, t.Due g ↔ s.Due g)
    (hw : t.waiting = true → s.waiting = true) : t.Account where
  bound := by rw [hg]; exact hbound
  closed := by
    rw [hg, hfd]
    exact fun hn hl => h.closed hn (hlock.1 hl)
  log := by
    rw [hg]
    exact fun g hlt => (hlog g).trans (h.log g hlt)
  due := by
    rw [hg]
    exact fun g hdue => h.due g ((hd g).1 hdue)
  lock := by rw [hg, hlog, hl, hd, hlock]; exact h.lock
  waiting := by
    rw [hg, hlog, hd]
    exact fun hw' => h.waiting (hw hw')

/-- The requester leaves, raising, and was due nothing. -/
theorem Account.raises (h : s.Account) (hg : t.generation = s.generation) (hfd : t.fd = s.fd)
    (hlog : ∀ g, holds t.log g = holds s.log g) (hlock : t.lock.holder = s.lock.holder)
    (hl : t.Landed ↔ s.Landed) (hw : t.waiting = s.waiting) (hr : t.requester = .idle)
    (hd : ∀ g, ¬ s.Due g) : t.Account :=
  h.congr hg hfd hlog (fun g hg' => h.bound g (hlock ▸ hg')) (by rw [hlock]) hl
    (fun g => ⟨fun hdue => absurd hdue (not_due_idle hr), fun hdue => absurd hdue (hd g)⟩)
    fun hw' => hw ▸ hw'

/-- The requester returns with what it was due. -/
theorem Account.acquired (h : s.Account) (hd : ∀ g, s.Due g ↔ g = generation) :
    (s.acquired generation).Account := by
  have hidle : ∀ g, ¬ (s.acquired generation).Due g := fun g => not_due_idle rfl
  have hle : generation ≤ s.generation := h.due _ ((hd _).2 rfl)
  have hother : ∀ g, generation ≠ g →
      holds (s.acquired generation).log g = holds s.log g := fun g hne => if_neg hne
  exact {
    bound := h.bound
    closed := h.closed
    log := fun g hlt => (hother g (Nat.ne_of_lt (Nat.lt_of_le_of_lt hle hlt))).trans (h.log g hlt)
    due := fun g hdue => absurd hdue (hidle g)
    lock := by
      show s.lock.holder = some (.ours s.generation) ↔
        holds (s.acquired generation).log s.generation = true ∨ s.Landed ∨ _
      by_cases he : generation = s.generation
      · subst he
        refine ⟨fun _ => .inl (if_pos rfl), fun _ => h.lock.2 (.inr (.inr ((hd _).2 rfl)))⟩
      · rw [hother _ he, h.lock]
        have hnd : ¬ s.Due s.generation := fun hdue => he ((hd _).1 hdue).symm
        simp only [hnd, hidle]
    waiting := fun hw => by
      have hne : generation ≠ s.generation := fun he =>
        (h.waiting hw).2 ((hd _).2 he.symm)
      exact ⟨(hother _ hne).trans (h.waiting hw).1, hidle _⟩ }

/-- Somebody gives the lock of the file in use back while no wait is in flight. -/
theorem Account.unlocks (h : s.Account) {d : Nat} (hd : d = s.generation)
    (hg : t.generation = s.generation)
    (hlock : t.lock.holder = (s.lock.unlock (.ours d)).holder)
    (hlog : ∀ g, holds t.log g = if s.generation = g then false else holds s.log g)
    (hl : ¬ t.Landed) (hdue : ∀ g, ¬ t.Due g) (hw : ¬ t.waiting = true) : t.Account := by
  subst hd
  have hne : t.lock.holder ≠ some (.ours s.generation) := by
    rw [hlock]
    exact s.lock.unlock_holder_self
  have hself : holds t.log s.generation = false := (hlog _).trans (if_pos rfl)
  exact {
    bound := fun g hg' => by
      rw [hg]
      by_cases he : Description.ours g = .ours s.generation
      · exact Nat.le_of_eq (Description.ours.inj he)
      · rw [hlock, s.lock.unlock_holder_of_ne he] at hg'
        exact h.bound g hg'
    closed := fun _ => by rw [hg]; exact hne
    log := fun g hlt => by
      rw [hg] at hlt
      rw [hlog, if_neg (Nat.ne_of_lt hlt)]
      exact h.log g hlt
    due := fun g hg' => absurd hg' (hdue g)
    lock := by
      rw [hg]
      refine ⟨fun he => absurd he hne, ?_⟩
      rintro (he | he | he)
      · rw [hself] at he
        cases he
      · exact absurd he hl
      · exact absurd he (hdue _)
    waiting := fun hw' => absurd hw' hw }

/-- The gate goes on to a new generation, with no wait in flight. -/
theorem Account.bump (h : s.Account) (hg : t.generation = s.generation + 1)
    (hlock : t.lock.holder = s.lock.holder) (hlog : t.log = s.log) (hl : ¬ t.Landed)
    (hd : ∀ g, t.Due g ↔ s.Due g) (hw : ¬ t.waiting = true) : t.Account := by
  have hlt : ∀ g, g ≤ s.generation → g ≠ s.generation + 1 := fun g hle => by omega
  have hne : t.lock.holder ≠ some (.ours (s.generation + 1)) := by
    rw [hlock]
    exact fun he => hlt _ (h.bound _ he) rfl
  have hnd : ¬ t.Due (s.generation + 1) := fun hdue => hlt _ (h.due _ ((hd _).1 hdue)) rfl
  have hlog' : holds t.log (s.generation + 1) = false := by
    rw [hlog]
    exact h.log _ (Nat.lt_succ_self _)
  exact {
    bound := fun g hg' => by
      rw [hg]
      exact Nat.le_succ_of_le (h.bound g (hlock ▸ hg'))
    closed := fun _ => by rw [hg]; exact hne
    log := fun g hlt => by
      rw [hg] at hlt
      rw [hlog]
      exact h.log g (Nat.lt_of_succ_lt hlt)
    due := fun g hdue => by
      rw [hg]
      exact Nat.le_succ_of_le (h.due g ((hd g).1 hdue))
    lock := by
      rw [hg, hlog']
      refine ⟨fun he => absurd he hne, ?_⟩
      rintro (he | he | he)
      · cases he
      · exact absurd he hl
      · exact absurd he hnd
    waiting := fun hw' => absurd hw' hw }

/-! ## Hands and helpers -/

/-- A thread that had nothing in hand takes nothing that landed. -/
theorem hands_ok_update {x : Option (Nat × Landing)} (hp : s.hand p = none)
    (hx : ∀ f, x ≠ some (f, .ok ())) (f : Nat) :
    (∃ p', Function.update s.hand p x p' = some (f, .ok ())) ↔
      ∃ p', s.hand p' = some (f, .ok ()) := by
  refine ⟨fun ⟨p', h⟩ => ?_, fun ⟨p', h⟩ => ?_⟩
  · by_cases he : p' = p
    · subst he
      rw [Function.update_self] at h
      exact absurd h (hx f)
    · rw [Function.update_of_ne he] at h
      exact ⟨p', h⟩
  · have he : p' ≠ p := fun he => by
      rw [he, hp] at h
      cases h
    exact ⟨p', (Function.update_of_ne he ..).trans h⟩

theorem landed_setHelper {helper : Helper} (h : ∀ r, s.helper q ≠ .landed r (.ok ()))
    (hn : ∀ r, helper ≠ .landed r (.ok ())) : (s.setHelper q helper).Landed ↔ s.Landed := by
  unfold Landed
  refine exists_congr fun r => ?_
  by_cases hq : s.queue = q
  · subst hq
    have hself : (s.setHelper s.queue helper).helper s.queue = helper := Function.update_self ..
    exact ⟨fun he => absurd (hself.symm.trans he) (hn r), fun he => absurd he (h r)⟩
  · have hne : (s.setHelper q helper).helper s.queue = s.helper s.queue :=
      Function.update_of_ne hq ..
    exact ⟨fun he => hne.symm.trans he, fun he => hne.trans he⟩

theorem landed_setHelper_of_ne {helper : Helper} (hq : q ≠ s.queue) :
    (s.setHelper q helper).Landed ↔ s.Landed := by
  have hne : (s.setHelper q helper).helper s.queue = s.helper s.queue :=
    Function.update_of_ne (fun he => hq he.symm) ..
  exact exists_congr fun r => ⟨fun he => hne.symm.trans he, fun he => hne.trans he⟩

/-- A helper that lands nothing and has nothing in hand, before and after. -/
theorem Account.setHelper (h : s.Account) {helper : Helper}
    (hq : (s.helper q).hand = none) (hn : helper.hand = none)
    (hl : (s.setHelper q helper).Landed ↔ s.Landed) : (s.setHelper q helper).Account :=
  h.congr rfl rfl (fun _ => rfl) h.bound Iff.rfl hl
    (fun _ => due_congr rfl (fun _ => Iff.rfl) (fun _ => Iff.rfl) rfl
      fun _ => by rw [hand_setHelper_none hq hn]) id

/-- A descriptor on a file that is not in use is closed. -/
theorem Account.closes (h : s.Account) {d : Nat} (hd : d ≠ s.generation) :
    { s with lock := s.lock.close (.ours d) }.Account :=
  h.congr rfl rfl (fun _ => rfl) (fun g hg => h.bound g (s.lock.holder_of_close hg))
    (s.lock.close_holder_of_ne fun he => hd (Description.ours.inj he).symm) Iff.rfl
    (fun _ => due_congr rfl (fun _ => Iff.rfl) (fun _ => Iff.rfl) rfl fun _ => Iff.rfl) id

/-! ## The requester -/

theorem Account.attachConsumer (h : s.Account) (hw : s.Waiters) (hr : s.requester = .idle)
    (loop : Bool) : (s.attachConsumer loop).Account := by
  have hhands := (hw.quiet (by rw [hr]; rfl)).2
  have hnew : s.futures s.nextFuture = none := hw.fresh _ (Nat.le_refl _)
  have hnd : ∀ g, ¬ (s.attachConsumer loop).Due g := fun g => by
    refine not_due_of_pending (f := s.nextFuture) (g := g) rfl ?_ fun p hp => ?_
    · show s.futures s.nextFuture ≠ _
      rw [hnew]
      exact fun he => by cases he
    · have hp' : s.hand p = some (s.nextFuture, .ok ()) := hp
      rw [hhands p] at hp'
      cases hp'
  exact h.congr rfl rfl (fun _ => rfl) h.bound Iff.rfl Iff.rfl
    (fun g => ⟨fun hdue => absurd hdue (hnd g), fun hdue => absurd hdue (not_due_idle hr)⟩) id

theorem landed_startThread (ht : s.Threads) (hl : ¬ s.Landed) : ¬ s.startThread.Landed := by
  obtain he | ⟨-, -, he⟩ := startThread_cases s ht
  · rw [he]
    exact hl
  · rw [he]
    rintro ⟨r, hr⟩
    have hr' : Function.update s.helper s.queue .idle s.queue = .landed r (.ok ()) := hr
    rw [Function.update_self] at hr'
    cases hr'

theorem Account.attach (h : s.Account) (hf : s.Flight) (ht : s.Threads) (hw : s.Waiters)
    (hr : s.requester = .idle) (loop : Bool) (fault : Fault) :
    (s.attach loop fault).Account := by
  have hnd : ∀ g, ¬ s.Due g := fun g => not_due_idle hr
  obtain ⟨hfd', hg', hw', hc', hs', hq', hlock', hcall'⟩ := startThread_fields s
  obtain ⟨-, he⟩ | ⟨error, he⟩ | ⟨hnw, d, hd, ⟨-, he⟩ | ⟨hfree, he⟩⟩ := attach_cases s loop fault
  · rw [he]
    exact h.attachConsumer hw hr loop
  · rw [he]
    exact h.raises rfl rfl (fun _ => rfl) rfl Iff.rfl rfl rfl hnd
  · -- the non-blocking call took the lock
    rw [he]
    have hdg : d = s.generation := hf.fd d hd
    subst hdg
    exact {
      bound := fun g hg => Nat.le_of_eq (Description.ours.inj (Option.some.inj hg)).symm
      closed := fun hn => by
        have hn' : s.fd = none := hn
        rw [hd] at hn'
        cases hn'
      log := h.log
      due := fun g hdue => by
        obtain hg | hg | ⟨f, hg, -⟩ := hdue
        · exact Nat.le_of_eq (Requester.took.inj hg).symm
        · cases hg
        · cases hg
      lock := ⟨fun _ => .inr (.inr (.inl rfl)), fun _ => rfl⟩
      waiting := fun hwait => absurd hwait hnw }
  · have hnl : ¬ s.Landed := fun hl => hnw (hf.waiting_of_landed hl)
    have hnl' := landed_startThread ht hnl
    have hlog' : s.startThread.log = s.log := by
      unfold WriterGate.startThread
      split <;> rfl
    have hr' : s.startThread.requester = .idle := (startThread_requester s).trans hr
    have hst : s.startThread.Account :=
      h.raises hg' hfd' (fun g => by rw [hlog']) (by rw [hlock'])
        ⟨fun hl => absurd hl hnl', fun hl => absurd hl hnl⟩ hw' hr' hnd
    obtain he | he := he
    · rw [he]
      exact hst.raises rfl rfl (fun _ => rfl) rfl Iff.rfl rfl rfl fun g => not_due_idle hr'
    · rw [he]
      -- the lock is another's, so that nothing is outstanding
      have hother : ¬ s.lock.holder = some (.ours s.generation) := fun hl =>
        hfree (.inr (by rw [hl, hf.fd d hd]))
      have hnh : ¬ holds s.log s.generation = true := fun hh => hother (h.lock.2 (.inl hh))
      have hqueue : (s.startThread.queueWait d).Account := {
        bound := hst.bound
        closed := hst.closed
        log := hst.log
        due := fun g hdue => absurd hdue (not_due_idle hr')
        lock := hst.lock.trans (or_congr_right (or_congr_right
          ⟨fun hdue => absurd hdue (not_due_idle hr'), fun hdue => absurd hdue (not_due_idle hr')⟩))
        waiting := fun _ => by
          refine ⟨?_, not_due_idle hr'⟩
          show holds s.startThread.log s.startThread.generation = false
          rw [hlog', hg']
          exact Bool.eq_false_iff.2 hnh }
      exact hqueue.attachConsumer
        ((hw.startThread ht).congr rfl rfl rfl rfl rfl (fun _ => rfl) rfl
          (hand_congr rfl rfl) (hw.startThread ht).closing) hr' loop

theorem Account.release (h : s.Account) (hf : s.Flight) {generation : Option Nat}
    (hr : s.MayRelease generation) : (s.release generation).Account := by
  obtain he | ⟨d, hd, hg, he⟩ := release_cases s generation
  · rw [he]
    exact h
  · rw [he]
    obtain hn | hn | ⟨hr, hw⟩ := hr
    · rw [hd] at hn
      cases hn
    · exact absurd hn hg
    · have hnw : ¬ s.waiting = true := by rw [hw]; exact Bool.false_ne_true
      exact h.unlocks (hf.fd d hd) rfl rfl (fun _ => rfl)
        (fun hl => hnw (hf.waiting_of_landed hl)) (fun _ => not_due_idle hr) hnw

theorem Account.giveBack (h : s.Account) (hf : s.Flight)
    (hr : s.requester = .releasing generation) (error : GateError) :
    ((s.release (some generation)).raise error).Account := by
  have hdue : ∀ g, s.Due g ↔ g = generation := by
    refine fun g => ⟨?_, ?_⟩
    · rintro (hg | hg | ⟨f, hg, -⟩)
      · rw [hr] at hg
        cases hg
      · rw [hr] at hg
        exact (Requester.releasing.inj hg).symm
      · rw [hr] at hg
        cases hg
    · rintro rfl
      exact .inr (.inl hr)
  by_cases hcur : s.fd = none ∨ generation ≠ s.generation
  · -- nothing of the file in use is due
    have he : s.release (some generation) = s := by
      obtain he | ⟨d, hd, hg, -⟩ := release_cases s (some generation)
      · exact he
      · obtain hn | hne := hcur
        · rw [hd] at hn
          cases hn
        · exact absurd ⟨generation, rfl, hne⟩ hg
    rw [he]
    have hnd : ¬ s.Due s.generation := fun hd => by
      obtain hn | hne := hcur
      · exact h.closed hn (h.lock.2 (.inr (.inr hd)))
      · exact hne ((hdue _).1 hd).symm
    have hidle : ∀ g, ¬ (s.raise error).Due g := fun g => not_due_idle rfl
    exact {
      bound := h.bound
      closed := h.closed
      log := h.log
      due := fun g hg => absurd hg (hidle g)
      lock := h.lock.trans (or_congr_right (or_congr_right
        ⟨fun hd => absurd hd hnd, fun hd => absurd hd (hidle _)⟩))
      waiting := fun hw => ⟨(h.waiting hw).1, hidle _⟩ }
  · obtain ⟨hfd, hg⟩ := not_or.1 hcur
    have hg := not_not.1 hg
    subst hg
    have hnw : ¬ s.waiting = true := fun hw => (h.waiting hw).2 ((hdue _).2 rfl)
    have hnl : ¬ s.Landed := fun hl => hnw (hf.waiting_of_landed hl)
    obtain ⟨d, hd⟩ := Option.ne_none_iff_exists'.1 hfd
    have hrel : s.release (some s.generation) =
        { s with lock := s.lock.unlock (.ours d), log := .released s.generation :: s.log } := by
      unfold WriterGate.release
      rw [hd]
      exact if_neg fun ⟨g, hg, hne⟩ => hne (Option.some.inj hg).symm
    rw [hrel]
    exact h.unlocks (hf.fd d hd) rfl rfl (fun _ => rfl) hnl (fun _ => not_due_idle rfl) hnw

/-! ## The future's way -/

/-- A thread completes the future that it has in hand: what the requester is due stays. -/
theorem due_finish (hw : s.Waiters) (hp : s.hand p = some (f, landing))
    (hr : t.requester = s.requester)
    (hf : t.futures = Function.update s.futures f (some landing))
    (hh : t.hand = Function.update s.hand p none) : t.Due g ↔ s.Due g := by
  obtain ⟨⟨g', ha⟩, hnone, -⟩ := hw.hand p f landing hp
  have hempty : ∀ p', t.hand p' = none := fun p' => by
    rw [hh]
    by_cases he : p' = p
    · rw [he, Function.update_self]
    · rw [Function.update_of_ne he]
      exact Option.eq_none_iff_forall_ne_some.2 fun x hx => he (hw.one p' p x _ hx hp)
  have hplace : ∀ f', s.requester.attachment = some (f', g) →
      ((t.futures f' = some (.ok ()) ∨ ∃ p, t.hand p = some (f', .ok ())) ↔
        (s.futures f' = some (.ok ()) ∨ ∃ p, s.hand p = some (f', .ok ()))) := by
    intro f' ha'
    have he : f = f' := congrArg Prod.fst (Option.some.inj (ha.symm.trans ha'))
    subst he
    rw [hf, Function.update_self, hnone]
    refine ⟨?_, ?_⟩
    · rintro (hl | ⟨p', hp'⟩)
      · exact .inr ⟨p, hp.trans (congrArg (fun l => some (f, l)) (Option.some.inj hl))⟩
      · rw [hempty p'] at hp'
        cases hp'
    · rintro (hl | ⟨p', hp'⟩)
      · cases hl
      · have hpp := hw.one p' p _ _ hp' hp
        subst hpp
        exact .inl (congrArg some (congrArg Prod.snd (Option.some.inj (hp.symm.trans hp'))))
  unfold Due
  rw [hr]
  refine or_congr_right (or_congr_right (exists_congr fun f' => ?_))
  exact and_congr_right (hplace f')

theorem Account.woken (h : s.Account) (hw : s.Waiters) {consumer : Option Nat} {error : GateError}
    {closing : Bool} (hc : s.caller c = .waking consumer error closing) :
    (s.woken c consumer error closing).Account := by
  obtain ⟨caller, hcaller, he⟩ := woken_cases s c consumer error closing
  have hhand : caller.hand = none := by obtain rfl | ⟨rfl, -⟩ := hcaller <;> rfl
  rw [he]
  cases consumer with
  | none =>
    have hsame : (s.setCaller c caller).hand = s.hand :=
      hand_setCaller_none (by rw [hc]; rfl) hhand
    exact h.congr rfl rfl (fun _ => rfl) h.bound Iff.rfl Iff.rfl
      (fun _ => due_congr rfl (fun _ => Iff.rfl) (fun _ => Iff.rfl) rfl
        fun f => by simp only [Option.elim_none, hsame]) id
  | some f =>
    have hp : s.hand (.caller c) = some (f, .error error) := by
      show (s.caller c).hand = _
      rw [hc]
      rfl
    have hf := (hw.hand _ f _ hp).2.1
    refine h.congr rfl rfl (fun _ => rfl) h.bound Iff.rfl Iff.rfl
      (fun _ => due_finish hw hp rfl ?_ ?_) id
    · show Function.update s.futures f (some ((s.futures f).getD _)) = _
      rw [hf]
      rfl
    · rw [← hhand]
      exact hand_setCaller s c caller

theorem Account.deliver (h : s.Account) (hw : s.Waiters)
    (hq : s.helper q = .delivering f landing) : (s.deliver q f landing).Account := by
  have hp : s.hand (.helper q) = some (f, landing) := by
    show (s.helper q).hand = _
    rw [hq]
    rfl
  have hf := (hw.hand _ f _ hp).2.1
  refine h.congr rfl rfl (fun _ => rfl) h.bound Iff.rfl ?_
    (fun _ => due_finish hw hp rfl ?_ ?_) id
  · have hl : (s.setHelper q (if s.futures f = none then .idle else .exited)).Landed ↔ s.Landed :=
      landed_setHelper (fun r he => by rw [hq] at he; cases he)
        fun r he => by rw [if_pos hf] at he; cases he
    exact hl
  · show Function.update s.futures f (some ((s.futures f).getD _)) = _
    rw [hf]
    rfl
  · refine (hand_setHelper s q _).trans ?_
    rw [if_pos hf]
    rfl

/-! ## The helper's lock -/

theorem Account.lands (h : s.Account) (hf : s.Flight) {r : WaitRequest}
    (hq : s.helper q = .flocking r) (hfree : s.lock.Free (.ours r.description)) :
    ({ s with lock := s.lock.take (.ours r.description) }.setHelper q
      (.landed r (.ok ()))).Account := by
  have hr : r ∈ s.inFlight q := mem_inFlight (by rw [hq]; rfl)
  obtain ⟨hdg, hle, -⟩ := hf.request q r hr
  have hhands : ({ s with lock := s.lock.take (.ours r.description) }.setHelper q
      (.landed r (.ok ()))).hand = s.hand :=
    hand_setHelper_none (by show (s.helper q).hand = none; rw [hq]; rfl) rfl
  have hdue : ∀ g, ({ s with lock := s.lock.take (.ours r.description) }.setHelper q
      (.landed r (.ok ()))).Due g ↔ s.Due g := fun g =>
    due_congr rfl (fun _ => Iff.rfl) (fun _ => Iff.rfl) rfl fun f => by rw [hhands]
  have hbound : ∀ g, some (Description.ours r.description) = some (.ours g) →
      g ≤ s.generation := fun g hg => by
    rw [← Description.ours.inj (Option.some.inj hg), hdg]
    exact hle
  by_cases he : q = s.queue
  · subst he
    obtain ⟨hw, hreq⟩ := hf.live hr
    have hd : r.description = s.generation := by rw [hreq]
    exact {
      bound := hbound
      closed := fun hn => by
        rw [hf.closed hn] at hw
        cases hw
      log := h.log
      due := fun g hg => h.due g ((hdue g).1 hg)
      lock := ⟨fun _ => .inr (.inl ⟨r, Function.update_self ..⟩),
        fun _ => congrArg some (congrArg Description.ours hd)⟩
      waiting := fun hw' => ⟨(h.waiting hw').1, fun hg => (h.waiting hw').2 ((hdue _).1 hg)⟩ }
  · have hne : r.description ≠ s.generation := fun hd =>
      he ((hf.current_iff hr).1 (hdg.symm.trans hd))
    have hnew : ¬ some (Description.ours r.description) = some (.ours s.generation) := fun hl =>
      hne (Description.ours.inj (Option.some.inj hl))
    have hold : ¬ s.lock.holder = some (.ours s.generation) := fun hl => by
      obtain hn | hd := hfree
      · rw [hn] at hl
        cases hl
      · exact hnew (hd.symm.trans hl)
    exact h.congr rfl rfl (fun _ => rfl) hbound
      ⟨fun hl => absurd hl hnew, fun hl => absurd hl hold⟩ (landed_setHelper_of_ne he) hdue id

theorem not_landed_endLive (r : WaitRequest) (landing : Landing) :
    ¬ (s.endLive r landing).Landed := by
  rintro ⟨r', hr'⟩
  have hself : s.endHelper landing = .landed r' (.ok ()) :=
    (Function.update_self (f := s.helper) ..).symm.trans hr'
  unfold endHelper at hself
  split at hself <;> cases hself

/-- The helper's descriptor is not the last one on the file in use. -/
theorem endLive_holder (hf : s.Flight) {r : WaitRequest}
    (hr : (s.helper s.queue).request = some r) (landing : Landing) :
    (s.endLive r landing).lock.holder = (s.endLock r landing).holder := by
  obtain ⟨hw, hlive⟩ := hf.live (mem_inFlight hr)
  have hrefs : 2 ≤ s.lock.refs (.ours r.description) := by
    cases hfd : s.fd with
    | none =>
      rw [hf.closed hfd] at hw
      cases hw
    | some d =>
      have hd : r.description = d := by
        rw [hlive]
        exact (hf.fd d hfd).symm
      rw [hd, hf.refs d hfd, hf.current, if_pos hw]
      exact Nat.le_refl _
  exact (s.endLock r landing).close_holder_of_refs (by rw [endLock_refs]; exact hrefs)

/-- The section ends the wait: whether the lock stays is whether the requester is due it. -/
theorem Account.endLive (h : s.Account) (hf : s.Flight) {r : WaitRequest}
    (hr : (s.helper s.queue).request = some r)
    (hlock : (s.endLock r landing).holder = some (.ours s.generation) ↔
      (s.endLive r landing).Due s.generation)
    (hdue : ∀ g, (s.endLive r landing).Due g → g ≤ s.generation) :
    (s.endLive r landing).Account := by
  obtain ⟨hw, hlive⟩ := hf.live (mem_inFlight hr)
  have hnh := (h.waiting hw).1
  have hholder := endLive_holder hf hr landing
  exact {
    bound := fun g hl => by
      rw [hholder] at hl
      unfold endLock at hl
      split at hl
      · by_cases hd : Description.ours g = .ours r.description
        · rw [Description.ours.inj hd, hlive]
          exact Nat.le_refl _
        · rw [s.lock.unlock_holder_of_ne hd] at hl
          exact h.bound g hl
      · exact h.bound g hl
    closed := fun hn => by
      rw [hf.closed hn] at hw
      cases hw
    log := h.log
    due := hdue
    lock := by
      rw [hholder]
      refine hlock.trans ⟨fun hd => .inr (.inr hd), ?_⟩
      rintro (hh | hh | hh)
      · exact absurd (hnh.symm.trans hh) Bool.false_ne_true
      · exact absurd hh (not_landed_endLive r landing)
      · exact hh
    waiting := fun hwt => by cases hwt }

/-- While a wait is in flight that has not landed, the lock is not this process's. -/
theorem Account.not_held (h : s.Account) (hw : s.waiting = true) (hl : ¬ s.Landed) :
    ¬ s.lock.holder = some (.ours s.generation) := by
  rw [h.lock]
  rintro (hh | hh | hh)
  · exact absurd ((h.waiting hw).1.symm.trans hh) Bool.false_ne_true
  · exact hl hh
  · exact (h.waiting hw).2 hh

/-- Nobody wants the wait's lock any more. -/
theorem Account.endLive_none (h : s.Account) (hf : s.Flight) {r : WaitRequest}
    (hq : s.helper s.queue = .landed r landing) (hc : s.consumer = none) :
    (s.endLive r landing).Account := by
  have hr : (s.helper s.queue).request = some r := by rw [hq]; rfl
  obtain ⟨hw, hlive⟩ := hf.live (mem_inFlight hr)
  have hnone : s.hand (.helper s.queue) = none := by
    show (s.helper s.queue).hand = none
    rw [hq]
    rfl
  have hsame : ∀ g, (s.endLive r landing).Due g ↔ s.Due g := fun g =>
    due_congr rfl (fun _ => Iff.rfl) (fun _ => Iff.rfl) rfl fun f => by
      rw [endLive_hand, hc]
      exact hands_ok_update hnone (fun _ he => by cases he) f
  refine h.endLive hf hr ⟨fun hl => ?_, fun hd => ?_⟩ fun g hd => h.due g ((hsame g).1 hd)
  · cases landing with
    | ok =>
      have hd : r.description = s.generation := by rw [hlive]
      simp only [endLock, hc, hd] at hl
      exact absurd hl s.lock.unlock_holder_self
    | error e =>
      simp only [endLock, hc] at hl
      refine absurd hl (h.not_held hw ?_)
      rintro ⟨r', hr'⟩
      rw [hq] at hr'
      cases hr'
  · exact absurd ((hsame _).1 hd) (h.waiting hw).2

/-- The wait's requester is there: the helper has its future in hand, with the lock or an error. -/
theorem Account.endLive_some (h : s.Account) (hf : s.Flight) (hw : s.Waiters) {r : WaitRequest}
    (hq : s.helper s.queue = .landed r landing) (hc : s.consumer = some f) :
    (s.endLive r landing).Account := by
  have hr : (s.helper s.queue).request = some r := by rw [hq]; rfl
  obtain ⟨hwait, -⟩ := hf.live (mem_inFlight hr)
  obtain ⟨ha, hpend, -⟩ := hw.consumer f hc
  have hhands : ∀ p x, (s.endLive r landing).hand p = some x → x = (f, landing) := by
    intro p x hp
    rw [endLive_hand, hc] at hp
    by_cases he : p = .helper s.queue
    · rw [he, Function.update_self] at hp
      exact (Option.some.inj hp).symm
    · rw [Function.update_of_ne he, hw.hands_of_consumer hc p] at hp
      cases hp
  have hkept : s.endLock r landing = s.lock := by
    unfold endLock
    rw [hc]
  cases landing with
  | ok =>
    have hdue : (s.endLive r (.ok ())).Due s.generation := by
      refine .inr (.inr ⟨f, ha, .inr ⟨.helper s.queue, ?_⟩⟩)
      rw [endLive_hand, hc, Function.update_self]
      rfl
    refine h.endLive hf hr ?_ ?_
    · rw [hkept]
      exact ⟨fun _ => hdue, fun _ => h.lock.2 (.inr (.inl ⟨r, hq⟩))⟩
    · intro g hd
      obtain hg | hg | ⟨f', hg, -⟩ := hd
      · have hg' : s.requester = .took g := hg
        rw [hg'] at ha
        cases ha
      · have hg' : s.requester = .releasing g := hg
        rw [hg'] at ha
        cases ha
      · exact (hw.attached f' g hg).2
  | error e =>
    have hnd : ∀ g, ¬ (s.endLive r (.error e)).Due g := fun g => by
      refine not_due_of_pending (f := f) ha (fun he => ?_) fun p hp => ?_
      · rw [show s.futures f = some (.ok ()) from he] at hpend
        cases hpend
      · cases hhands p _ hp
    refine h.endLive hf hr ?_ fun g hd => absurd hd (hnd g)
    rw [hkept]
    refine ⟨fun hl => absurd hl (h.not_held hwait ?_), fun hd => absurd hd (hnd _)⟩
    rintro ⟨r', hr'⟩
    rw [hq] at hr'
    cases hr'

theorem Account.endWait (h : s.Account) (hf : s.Flight) (hw : s.Waiters) {r : WaitRequest}
    (hq : s.helper q = .landed r landing) : (s.endWait q r landing).Account := by
  have hr : r ∈ s.inFlight q := mem_inFlight (by rw [hq]; rfl)
  rw [endWait_eq hf hr]
  by_cases he : q = s.queue
  · rw [if_pos he]
    subst he
    cases hc : s.consumer with
    | none => exact h.endLive_none hf hq hc
    | some f => exact h.endLive_some hf hw hq hc
  · -- a wait of a file that is not in use any more
    rw [if_neg he]
    have hd : r.description ≠ s.generation := fun hd =>
      he ((hf.current_iff hr).1 ((hf.request q r hr).1.symm.trans hd))
    exact (h.closes hd).setHelper (by show (s.helper q).hand = none; rw [hq]; rfl) rfl
      (landed_setHelper_of_ne he)

/-! ## Every step -/

theorem Account.closeSection (h : s.Account) (ht : s.Threads) (hc : s.caller c = .closing) :
    (s.closeSection c).Account := by
  have hhands : (s.setCaller c (.stopping s.queue s.fd)).hand = s.hand :=
    hand_setCaller_none (by rw [hc]; rfl) rfl
  have hhands' : (s.closeSection c).hand = s.hand :=
    (hand_congr (s := s.setCaller c (.stopping s.queue s.fd)) rfl rfl).trans hhands
  refine h.bump rfl rfl rfl ?_ (fun g => due_congr rfl (fun _ => Iff.rfl) (fun _ => Iff.rfl) rfl
    fun f => by rw [hhands']) Bool.false_ne_true
  rintro ⟨r, hr⟩
  have hr' : s.helper (s.queue + 1) = .landed r (.ok ()) := hr
  rw [(ht.unused _ (Nat.lt_succ_self _)).1] at hr'
  cases hr'

theorem Account.openFile (h : s.Account) (hf : s.Flight) : s.openFile.Account := by
  unfold WriterGate.openFile
  cases hfd : s.fd with
  | some d => exact h
  | none =>
    have hnl : ¬ s.Landed := fun hl => by
      have hw := hf.waiting_of_landed hl
      rw [hf.closed hfd] at hw
      cases hw
    exact h.bump rfl rfl rfl hnl (fun g => due_congr rfl (fun _ => Iff.rfl) (fun _ => Iff.rfl) rfl
      fun _ => Iff.rfl) Bool.false_ne_true

theorem Account.check (h : s.Account) (hf : s.Flight) {r : WaitRequest}
    (hq : s.helper q = .got r) : (s.check q r).Account := by
  have hr : r ∈ s.inFlight q := mem_inFlight (by rw [hq]; rfl)
  have hnone : (s.helper q).hand = none := by rw [hq]; rfl
  rw [check_eq hf hr]
  by_cases he : q = s.queue
  · rw [if_pos he]
    exact h.setHelper hnone rfl (landed_setHelper (fun r he => by rw [hq] at he; cases he)
      fun r he => by cases he)
  · rw [if_neg he]
    have hd : r.description ≠ s.generation := fun hd =>
      he ((hf.current_iff hr).1 ((hf.request q r hr).1.symm.trans hd))
    exact (h.closes hd).setHelper hnone rfl (landed_setHelper_of_ne he)

/-- Every step keeps what is known of the lock. -/
theorem Account.step (h : s.Account) (hf : s.Flight) (ht : s.Threads) (hw : s.Waiters)
    (hs : s.Step t) : t.Account := by
  -- a step that leaves all but the requester's place among those that wait
  have hplace : ∀ u : WriterGate, u.generation = s.generation → u.fd = s.fd → u.log = s.log →
      u.lock = s.lock → u.queue = s.queue → u.helper = s.helper → u.caller = s.caller →
      u.futures = s.futures → u.waiting = s.waiting →
      u.requester.attachment = s.requester.attachment →
      (∀ g, u.requester = .took g ↔ s.requester = .took g) →
      (∀ g, u.requester = .releasing g ↔ s.requester = .releasing g) → u.Account := by
    intro u hg hfd hlog hl hq hh hc hfut hwt ha htk hrl
    have hland : u.Landed ↔ s.Landed := by
      unfold Landed
      rw [hq, hh]
    exact h.congr hg hfd (fun _ => by rw [hlog]) (fun g hb => h.bound g (hl ▸ hb)) (by rw [hl])
      hland (fun g => due_congr ha htk hrl hfut fun f => by rw [hand_congr hh hc])
      fun hw' => hwt ▸ hw'
  -- a requester in `consumer.result()` is neither of the two others
  have hno : ∀ {r : Requester} {x : Nat × Nat}, r.attachment = some x →
      (∀ g, r ≠ .took g) ∧ ∀ g, r ≠ .releasing g := by
    rintro r x hr
    exact ⟨fun g he => (by rw [he] at hr; cases hr), fun g he => (by rw [he] at hr; cases hr)⟩
  have hmoves : ∀ (r r' : Requester) (x : Nat × Nat), s.requester = r → r.attachment = some x →
      r'.attachment = some x → { s with requester := r' }.Account := by
    rintro r r' x rfl ha ha'
    exact hplace _ rfl rfl rfl rfl rfl rfl rfl rfl rfl (ha'.trans ha.symm)
      (fun g => ⟨fun he => absurd he ((hno ha').1 g), fun he => absurd he ((hno ha).1 g)⟩)
      (fun g => ⟨fun he => absurd he ((hno ha').2 g), fun he => absurd he ((hno ha).2 g)⟩)
  -- a requester that leaves with nothing, its future completed by an error or its own again
  have hleaves : ∀ (f generation : Nat), s.requester.attachment = some (f, generation) →
      s.futures f ≠ some (.ok ()) → (∀ p, s.hand p = none) → ∀ consumer error,
      ({ s with consumer := consumer }.raise error).Account := by
    intro f generation ha hok hnone consumer error
    refine h.raises rfl rfl (fun _ => rfl) rfl Iff.rfl rfl rfl fun g =>
      not_due_of_pending ha hok fun p hp => ?_
    rw [hnone p] at hp
    cases hp
  cases hs with
  | openFile => exact h.openFile hf
  | attach loop fault hr hc => exact h.attach hf ht hw hr loop fault
  | returns generation hr =>
    refine h.acquired fun g => ⟨?_, fun he => .inl (he ▸ hr)⟩
    rintro (he | he | ⟨f, he, -⟩) <;> rw [hr] at he <;> cases he
    rfl
  | read loop f generation landing hr hland =>
    have ha : s.requester.attachment = some (f, generation) := by
      obtain hr | hr := hr <;> rw [hr] <;> rfl
    have hquiet := (hw.quiet_of_completed ha hland).2
    cases landing with
    | ok => exact h.acquired fun g => due_iff_of_completed ha hland
    | error e =>
      have hok : s.futures f ≠ some (.ok ()) := by
        rw [hland]
        exact fun he => by cases he
      unfold read
      dsimp only
      split
      · exact hleaves f generation ha hok hquiet s.consumer e
      · exact hmoves _ _ _ rfl ha rfl
  | timeOut loop f generation hr =>
    have ha : s.requester.attachment = some (f, generation) := by rw [hr]; rfl
    unfold WriterGate.timeOut
    by_cases hc : s.consumer = some f
    · rw [if_pos hc]
      have hpend := (hw.consumer f hc).2.1
      exact hleaves f generation ha (by rw [hpend]; exact fun he => by cases he)
        (hw.hands_of_consumer hc) none _
    · rw [if_neg hc]
      exact hmoves _ _ _ rfl ha rfl
  | cancel f generation hr => exact hmoves _ _ _ hr rfl rfl
  | leave f generation error hr =>
    have ha : s.requester.attachment = some (f, generation) := by rw [hr]; rfl
    unfold WriterGate.leave
    by_cases hc : s.consumer = some f
    · rw [if_pos hc]
      have hpend := (hw.consumer f hc).2.1
      exact hleaves f generation ha (by rw [hpend]; exact fun he => by cases he)
        (hw.hands_of_consumer hc) none _
    · rw [if_neg hc]
      exact hmoves _ _ _ rfl ha rfl
  | reread f generation error landing hr hland =>
    have ha : s.requester.attachment = some (f, generation) := by rw [hr]; rfl
    have hquiet := (hw.quiet_of_completed ha hland).2
    cases landing with
    | ok =>
      refine h.congr rfl rfl (fun _ => rfl) h.bound Iff.rfl Iff.rfl (fun g => ?_) id
      rw [due_iff_of_completed ha hland]
      refine ⟨?_, fun he => .inr (.inl (congrArg Requester.releasing he.symm))⟩
      rintro (he | he | ⟨f', he, -⟩)
      · cases he
      · exact (Requester.releasing.inj he).symm
      · cases he
    | error e =>
      exact hleaves f generation ha (by rw [hland]; exact fun he => by cases he) hquiet
        s.consumer error
  | giveBack generation error hr => exact h.giveBack hf hr error
  | release generation hr => exact h.release hf hr
  | wakeWaiters c error closing hc he =>
    have hnone : s.hand (.caller c) = none := by
      show (s.caller c).hand = none
      rw [hc]
      rfl
    refine h.congr rfl rfl (fun _ => rfl) h.bound Iff.rfl Iff.rfl
      (fun g => due_congr rfl (fun _ => Iff.rfl) (fun _ => Iff.rfl) rfl fun f => ?_) id
    have hh : (s.wakeWaiters c error closing).hand =
        Function.update s.hand (.caller c) (Caller.waking s.consumer error closing).hand :=
      (hand_congr rfl rfl).trans (hand_setCaller s c _)
    rw [hh]
    refine hands_ok_update hnone (fun f hx => ?_) f
    cases hcons : s.consumer <;> rw [hcons] at hx <;> cases hx
  | woken c consumer error closing hc => exact h.woken hw hc
  | closeSection c hc => exact h.closeSection ht hc
  | putNone c q fd hc =>
    have hh : (s.putNone c q fd).hand = s.hand :=
      (hand_congr (s := s.setCaller c (.dropping fd)) rfl rfl).trans
        (hand_setCaller_none (by rw [hc]; rfl) rfl)
    exact h.congr rfl rfl (fun _ => rfl) h.bound Iff.rfl Iff.rfl
      (fun g => due_congr rfl (fun _ => Iff.rfl) (fun _ => Iff.rfl) rfl fun f => by rw [hh]) id
  | closeFd c fd hc =>
    have hh : (s.closeFd c fd).hand = s.hand :=
      (hand_congr (s := s.setCaller c .idle) rfl rfl).trans
        (hand_setCaller_none (by rw [hc]; rfl) rfl)
    have hdue : ∀ g, (s.closeFd c fd).Due g ↔ s.Due g := fun g =>
      due_congr rfl (fun _ => Iff.rfl) (fun _ => Iff.rfl) rfl fun f => by rw [hh]
    cases fd with
    | none => exact h.congr rfl rfl (fun _ => rfl) h.bound Iff.rfl Iff.rfl hdue id
    | some d =>
      have hd : d ≠ s.generation := Nat.ne_of_lt (ht.fds c d (by rw [hc]; rfl))
      have hcl := h.closes hd
      exact h.congr rfl rfl (fun _ => rfl) hcl.bound
        (s.lock.close_holder_of_ne fun he => hd (Description.ours.inj he).symm) Iff.rfl hdue id
  | get q request rest hq hr =>
    have hnone : (s.helper q).hand = none := by rw [hq]; rfl
    have hl : ∀ helper : Helper, (∀ r, helper ≠ .landed r (.ok ())) →
        ((s.setHelper q helper).Landed ↔ s.Landed) := fun helper hn =>
      landed_setHelper (fun r he => by rw [hq] at he; cases he) hn
    cases request with
    | none =>
      have hset : (s.setHelper q .exited).Account :=
        h.setHelper hnone rfl (hl _ fun r he => by cases he)
      exact hset.congr rfl rfl (fun _ => rfl) hset.bound Iff.rfl Iff.rfl
        (fun g => due_congr rfl (fun _ => Iff.rfl) (fun _ => Iff.rfl) rfl fun _ => Iff.rfl) id
    | some r =>
      have hset : (s.setHelper q (.got r)).Account :=
        h.setHelper hnone rfl (hl _ fun r he => by cases he)
      exact hset.congr rfl rfl (fun _ => rfl) hset.bound Iff.rfl Iff.rfl
        (fun g => due_congr rfl (fun _ => Iff.rfl) (fun _ => Iff.rfl) rfl fun _ => Iff.rfl) id
  | check q r hq => exact h.check hf hq
  | lands q r hq hfree => exact h.lands hf hq hfree
  | fails q r hq =>
    exact h.setHelper (by rw [hq]; rfl) rfl
      (landed_setHelper (fun r he => by rw [hq] at he; cases he) fun r he => by cases he)
  | endWait q r landing hq => exact h.endWait hf hw hq
  | deliver q f landing hq => exact h.deliver hw hq
  | peerTakes p hl =>
    have hpeer : ∀ g, some (Description.peer p) ≠ some (.ours g) := fun g he => by cases he
    refine h.congr rfl rfl (fun _ => rfl) (fun g hg => absurd hg (hpeer g)) ?_ Iff.rfl
      (fun g => due_congr rfl (fun _ => Iff.rfl) (fun _ => Iff.rfl) rfl fun _ => Iff.rfl) id
    rw [hl]
    exact ⟨fun he => absurd he (hpeer _), fun he => by cases he⟩
  | peerGives p hl =>
    have hne : ∀ g, Description.ours g ≠ .peer p := fun g he => by cases he
    exact h.congr rfl rfl (fun _ => rfl)
      (fun g hg => h.bound g ((s.lock.unlock_holder_of_ne (hne g)).1 hg))
      (s.lock.unlock_holder_of_ne (hne _)) Iff.rfl
      (fun g => due_congr rfl (fun _ => Iff.rfl) (fun _ => Iff.rfl) rfl fun _ => Iff.rfl) id

end WriterGate

end Virtuals.Lmdb
