/-
  The account of a publisher over whole runs.

  In every run each key passed to notify is sent, counted in `dropped_keys`, in the hand of a call or
  of a worker, or in a queue, and in one of these only, unless notify's second look at `_connected`
  finds it true. A queue that holds keys is that of a running worker or of the current connection,
  unless a step leaves keys behind in it: a put after the connection is over, the return of a worker
  that disconnect no longer waits for, or the end of a connection whose worker has returned. `Allowed`
  says that a step is none of these (`publisher_accounted`); `strandedRun` and `countedRun` are runs
  with such a step.
-/
import Virtuals.Publisher.Steps

namespace Virtuals.Publisher

open Lib

namespace PublisherBase

variable {T : Type} {cfg : Config} {s s' : PublisherBase T} {c : T} {w : Nat}

/-- `q` is the queue of a running worker or of the current connection. -/
def Live (s : PublisherBase T) (q : Nat) : Prop :=
  s.isAlive q = true ∨ (s.connected = true ∧ s.queue = q)

instance (s : PublisherBase T) (q : Nat) : Decidable (s.Live q) :=
  inferInstanceAs (Decidable (_ ∨ _))

/-- A place where a key may be. -/
def Accepts (s : PublisherBase T) : Place T → Prop
  | .queued q => s.Live q
  | _ => True

/-- Every key passed to notify is at one place where it may be, there once, and nowhere else, and
    `dropped_keys` is the number of the counted ones. -/
def Accounted (s : PublisherBase T) : Prop :=
  s.droppedKeys = s.counted.length ∧ ∀ t < s.issued, ∃ p, s.Accepts p ∧ (s.held p).count t = 1 ∧
    ∀ p', t ∈ s.held p' → p' = p

/-- No keys are in the current queue, or its worker still runs. -/
def Served (s : PublisherBase T) : Prop :=
  keysOf (s.items s.queue) = [] ∨ s.isAlive s.queue = true

instance (s : PublisherBase T) : Decidable s.Served := inferInstanceAs (Decidable (_ ∨ _))

/-- The step of a call neither leaves keys behind in a queue nor queues keys that were counted. -/
def CallAllowed (cfg : Config) (s : PublisherBase T) : Call → Prop
  | .ensureConnected batch => s.connected = true → batch = []
  | .put q (_ :: _) => s.hasRoom cfg q = true → s.Live q
  | .wait q (_ :: _) => s.hasRoom cfg q = true → s.Live q
  | .freshQueue _ => s.connected = true → s.Served
  | .abandonConnect => s.connected = true → s.Served
  | .closed => s.connected = true → s.Served
  | _ => True

instance (cfg : Config) (s : PublisherBase T) : DecidablePred (s.CallAllowed cfg)
  | .ensureConnected _ => inferInstanceAs (Decidable (_ → _))
  | .put _ (_ :: _) => inferInstanceAs (Decidable (_ → _))
  | .wait _ (_ :: _) => inferInstanceAs (Decidable (_ → _))
  | .freshQueue _ => inferInstanceAs (Decidable (_ → _))
  | .abandonConnect => inferInstanceAs (Decidable (_ → _))
  | .closed => inferInstanceAs (Decidable (_ → _))
  | .put _ [] => isTrue trivial
  | .wait _ [] => isTrue trivial
  | .idle | .notify _ | .readQueue _ | .full _ _ | .stall _ | .drop _ | .flush | .flushQueue
  | .putEvent _ | .connect | .readOld | .oldAlive _ | .freshStop | .clearDrainFailed _
  | .clearStalled _ | .onConnect _ | .makeThread _ | .start _ | .opened | .disconnect | .setStop
  | .stopQueue | .putMarker _ | .readThread | .alive _ | .join _ | .joined _ | .clearThread
  | .noThread | .leftovers _ | .getLeftover _ _ | .recordLeftovers _ => isTrue trivial

/-- So does the step; a worker that returns leaves no keys but those of the current connection. -/
def Allowed (cfg : Config) (s : PublisherBase T) : Act T → Prop
  | .call c _ => s.CallAllowed cfg (s.call c)
  | .work w _ => s.Returns w → keysOf (s.items w) = [] ∨ (s.connected = true ∧ s.queue = w)
  | _ => True

instance (cfg : Config) (s : PublisherBase T) : DecidablePred (s.Allowed cfg)
  | .call c _ => inferInstanceAs (Decidable (s.CallAllowed cfg (s.call c)))
  | .work _ _ => inferInstanceAs (Decidable (_ → _))
  | .notify _ _ | .flush _ | .connect _ | .disconnect _ => isTrue trivial

/-! ## The numbers of the attempts -/

/-- A connect that has not started its worker yet is the only one with its number. -/
structure Attempts (s : PublisherBase T) : Prop where
  unstarted : ∀ w, s.attempts ≤ w → s.worker w = .unstarted
  pending : ∀ c n, (s.call c).attempt = some n → n < s.attempts ∧ s.worker n = .unstarted
  apart : ∀ c c' n, (s.call c).attempt = some n → (s.call c').attempt = some n → c = c'

/-- What the run lemma follows: the account, the attempts, and that queues with keys are live. -/
structure Kept (s : PublisherBase T) : Prop where
  account : s.Account
  attempts : s.Attempts
  live : ∀ q, keysOf (s.items q) ≠ [] → s.Live q

theorem Attempts.frame (hs : s.Attempts) (hcall : s'.call = s.call)
    (hattempts : s'.attempts = s.attempts)
    (hworker : ∀ w, s.worker w = .unstarted → s'.worker w = .unstarted) : s'.Attempts where
  unstarted v hv := hworker v (hs.unstarted v (hattempts ▸ hv))
  pending a n ha := by
    rw [hcall] at ha
    rw [hattempts]
    exact ⟨(hs.pending a n ha).1, hworker n (hs.pending a n ha).2⟩
  apart a a' n ha ha' := by
    rw [hcall] at ha ha'
    exact hs.apart a a' n ha ha'

/-! ## Rules for the queues -/

theorem isAlive_setWorker (pc : Worker) (v : Nat) :
    (s.setWorker w pc).isAlive v = if v = w then pc.isAlive else s.isAlive v := by
  unfold isAlive setWorker
  dsimp only
  rw [Function.update_apply]
  split_ifs <;> rfl

/-- A step that puts no keys in a queue, stops no worker and ends no connection. -/
theorem Kept.next (hs : s.Kept) (haccount : s'.Account) (hattempts : s'.Attempts)
    (hitems : ∀ q, keysOf (s'.items q) ≠ [] → keysOf (s.items q) ≠ [])
    (halive : ∀ q, s.isAlive q = true → s'.isAlive q = true)
    (hcurrent : s.connected = true → s'.connected = true ∧ s'.queue = s.queue) : s'.Kept := by
  refine ⟨haccount, hattempts, fun q hq => ?_⟩
  rcases hs.live q (hitems q hq) with hlive | ⟨hconn, rfl⟩
  · exact Or.inl (halive q hlive)
  · exact Or.inr ⟨(hcurrent hconn).1, (hcurrent hconn).2⟩

/-- A connection ends or is replaced while nothing is left behind in its queue. -/
theorem Kept.live_of_served (hs : s.Kept) (hserved : s.connected = true → s.Served) (q : Nat)
    (hq : keysOf (s.items q) ≠ []) : s.isAlive q = true := by
  rcases hs.live q hq with hlive | ⟨hconn, rfl⟩
  · exact hlive
  · exact (hserved hconn).resolve_left hq

theorem unstarted_setWorker (hw : (s.worker w).isAlive = true) (pc : Worker) {v : Nat}
    (hv : s.worker v = .unstarted) : (s.setWorker w pc).worker v = .unstarted := by
  refine (Function.update_of_ne ?_ _ _).trans hv
  rintro rfl
  rw [hv] at hw
  cases hw

theorem alive_setWorker {pc : Worker} (hpc : pc.isAlive = true) {v : Nat}
    (hv : s.isAlive v = true) : (s.setWorker w pc).isAlive v = true := by
  rw [isAlive_setWorker]
  split_ifs
  · exact hpc
  · exact hv

theorem keysOf_setItems {q : Nat} {i : Item} {items : List Item} (hitems : s.items q = i :: items)
    (p : Nat) (hp : keysOf ((s.setItems q items).items p) ≠ []) : keysOf (s.items p) ≠ [] := by
  by_cases hpq : p = q
  · subst hpq
    rw [hitems, keysOf_cons]
    intro h
    refine hp ?_
    simp only [setItems, Function.update_self]
    exact (List.append_eq_nil_iff.1 h).2
  · simpa [setItems, hpq] using hp

variable [DecidableEq T]

theorem call_setCall (pc : Call) (a : T) : (s.setCall c pc).call a = if a = c then pc else s.call a :=
  Function.update_apply _ _ _ _

/-- A call goes on with no attempt, or with the one it has. -/
theorem Attempts.setCall (hs : s.Attempts) (hcall : s'.call = s.call)
    (hattempts : s'.attempts = s.attempts) (hworker : s'.worker = s.worker) {pc : Call}
    (hpc : pc.attempt = none ∨ pc.attempt = (s.call c).attempt) : (s'.setCall c pc).Attempts := by
  have hsub : ∀ {a n}, ((s'.setCall c pc).call a).attempt = some n →
      (s.call a).attempt = some n := by
    intro a n ha
    rw [call_setCall, hcall] at ha
    split_ifs at ha with hac
    · subst hac
      rcases hpc with hnone | hsame
      · rw [hnone] at ha
        cases ha
      · exact hsame ▸ ha
    · exact ha
  refine ⟨fun v hv => ?_, fun a n ha => ?_,
    fun a a' n ha ha' => hs.apart a a' n (hsub ha) (hsub ha')⟩
  · exact (congrFun hworker v).trans (hs.unstarted v (hattempts ▸ hv))
  · obtain ⟨hlt, hun⟩ := hs.pending a n (hsub ha)
    exact ⟨hlt.trans_eq hattempts.symm, (congrFun hworker n).trans hun⟩

/-- A connect makes an attempt. -/
theorem Attempts.attempt (hs : s.Attempts) (n : Nat) : (Attempts
    ({ s with stopEvent := n, attempts := s.attempts + 1 }.setCall c (.freshQueue s.attempts))) := by
  have hold : ∀ {a m}, (({ s with stopEvent := n, attempts := s.attempts + 1 }.setCall c
      (.freshQueue s.attempts)).call a).attempt = some m →
      (a = c ∧ m = s.attempts) ∨ (s.call a).attempt = some m := by
    intro a m ha
    rw [call_setCall] at ha
    split_ifs at ha with hac
    · exact Or.inl ⟨hac, (Option.some.inj ha).symm⟩
    · exact Or.inr ha
  refine ⟨fun v hv => hs.unstarted v (Nat.le_of_succ_le hv), fun a m ha => ?_,
    fun a a' m ha ha' => ?_⟩
  · rcases hold ha with ⟨-, rfl⟩ | ha
    · exact ⟨Nat.lt_succ_self _, hs.unstarted _ le_rfl⟩
    · exact ⟨Nat.lt_succ_of_lt (hs.pending a m ha).1, (hs.pending a m ha).2⟩
  · rcases hold ha with ⟨hac, hm⟩ | hin <;> rcases hold ha' with ⟨hac', hm'⟩ | hin'
    · rw [hac, hac']
    · exact absurd (hm ▸ (hs.pending a' m hin').1) (lt_irrefl _)
    · exact absurd (hm' ▸ (hs.pending a m hin).1) (lt_irrefl _)
    · exact hs.apart a a' m hin hin'

/-- A connect starts its worker. -/
theorem Attempts.start (hs : s.Attempts) {n : Nat} (hcall : s.call c = .start n) :
    ((s.setWorker n .get).setCall c .opened).Attempts := by
  have hn : (s.call c).attempt = some n := by rw [hcall]; rfl
  have hother : ∀ {v}, v ≠ n → (s.setWorker n .get).worker v = s.worker v := fun hv =>
    Function.update_of_ne hv _ _
  have hold : ∀ {a m}, (((s.setWorker n .get).setCall c .opened).call a).attempt = some m →
      a ≠ c ∧ (s.call a).attempt = some m := by
    intro a m ha
    rw [call_setCall] at ha
    split_ifs at ha with hac
    · cases ha
    · exact ⟨hac, ha⟩
  refine ⟨fun v hv => ?_, fun a m ha => ?_, fun a a' m ha ha' => hs.apart a a' m (hold ha).2
    (hold ha').2⟩
  · refine (hother ?_).trans (hs.unstarted v hv)
    have := (hs.pending c n hn).1
    exact (lt_of_lt_of_le this hv).ne'
  · obtain ⟨hac, hin⟩ := hold ha
    refine ⟨(hs.pending a m hin).1, (hother ?_).trans (hs.pending a m hin).2⟩
    rintro rfl
    exact hac (hs.apart a c m hin hn)

/-! ## Steps -/

/-- (PROVED) A step of a worker that leaves no keys behind. -/
theorem Kept.work (hs : s.Kept) (h : WorkStep s w s') (hw : (s.worker w).isAlive = true)
    (hret : s.Returns w → keysOf (s.items w) = [] ∨ (s.connected = true ∧ s.queue = w)) :
    s'.Kept := by
  cases h with
  | @goOn s₁ pc hq hpc halive =>
    refine hs.next (hs.account.goOn hq hpc) (hs.attempts.frame hq.call hq.attempts fun v hv => ?_)
      (fun q hk => ?_) (fun q hv => ?_) fun hc => ⟨hq.connected.trans hc, hq.queue⟩
    · exact unstarted_setWorker (by rw [hq.worker]; exact hw) pc (by rw [hq.worker]; exact hv)
    · rwa [show (s₁.setWorker w pc).items = s.items from hq.items] at hk
    · exact alive_setWorker halive (by rw [isAlive, hq.worker]; exact hv)
  | @take batch item items hbatch hitems =>
    refine hs.next (hs.account.take hbatch hitems)
      (hs.attempts.frame rfl rfl fun v hv => unstarted_setWorker hw _ hv)
      (keysOf_setItems hitems) (fun q hv => ?_) fun hc => ⟨hc, rfl⟩
    exact alive_setWorker (by cases item <;> rfl) hv
  | @drop pc ts hpc halive =>
    exact hs.next (hs.account.recordDrop hpc)
      (hs.attempts.frame rfl rfl fun v hv => unstarted_setWorker hw _ hv)
      (fun q hq => hq) (fun q hv => alive_setWorker halive hv) fun hc => ⟨hc, rfl⟩
  | @send pc ts hpc halive =>
    exact hs.next (hs.account.send hpc)
      (hs.attempts.frame rfl rfl fun v hv => unstarted_setWorker hw _ hv)
      (fun q hq => hq) (fun q hv => alive_setWorker halive hv) fun hc => ⟨hc, rfl⟩
  | returns hreturns hpc =>
    refine ⟨hs.account.goOn (.refl s) (.of_eq hpc.symm),
      hs.attempts.frame rfl rfl fun v hv => unstarted_setWorker hw _ hv, fun q hq => ?_⟩
    by_cases hqw : q = w
    · subst hqw
      exact Or.inr ((hret hreturns).resolve_left hq)
    · rcases hs.live q hq with hlive | hcurrent
      · exact Or.inl (by rw [isAlive_setWorker, if_neg hqw]; exact hlive)
      · exact Or.inr hcurrent

/-- (PROVED) A step of a call that is allowed. -/
theorem Kept.call (hs : s.Kept) {choice : Choice} (h : CallStep cfg s c s')
    (hallowed : s.Allowed cfg (.call c choice)) : s'.Kept := by
  change s.CallAllowed cfg (s.call c) at hallowed
  cases h with
  | @quiet s₁ pc hq hcalling hdraining hattempt =>
    refine hs.next (hs.account.callOn hq.held hq.issued hq.droppedKeys hcalling hdraining)
      (hs.attempts.setCall hq.call hq.attempts hq.worker hattempt) (fun q hk => ?_)
      (fun q hv => ?_) fun hc => ⟨hq.connected.trans hc, hq.queue⟩
    · rwa [show (s₁.setCall c pc).items = s.items from hq.items] at hk
    · rwa [isAlive, show (s₁.setCall c pc).worker = s.worker from hq.worker]
  | @put q t rest hcall hroom =>
    have hlive : s.Live q := by
      rcases hcall with hcall | hcall
      · rw [hcall] at hallowed
        exact hallowed hroom
      · rw [hcall] at hallowed
        exact hallowed hroom
    have hcalling : (s.call c).calling = keysOf [.key t] ++ (Call.put q rest).calling := by
      rcases hcall with hcall | hcall <;> rw [hcall] <;> rfl
    have hdraining : (Call.put q rest).draining = (s.call c).draining := by
      rcases hcall with hcall | hcall <;> rw [hcall] <;> rfl
    refine ⟨hs.account.append hcalling hdraining, hs.attempts.setCall (by rfl) (by rfl)
      (by rfl) (Or.inl rfl), fun p hp => ?_⟩
    by_cases hpq : p = q
    · exact hpq ▸ hlive
    · exact hs.live p (by simpa [PublisherBase.append, setItems, PublisherBase.setCall, hpq] using hp)
  | @mark q i pc hi hcalling hdraining hattempt =>
    refine hs.next (hs.account.append (by rw [hi, hcalling, List.nil_append]) hdraining)
      (hs.attempts.setCall (by rfl) (by rfl) (by rfl) (Or.inl hattempt)) (fun p hp => ?_) (fun _ hv => hv) fun hc => ⟨hc, rfl⟩
    by_cases hpq : p = q
    · subst hpq
      simpa [PublisherBase.append, setItems, PublisherBase.setCall, keysOf_append, hi] using hp
    · simpa [PublisherBase.append, setItems, PublisherBase.setCall, hpq] using hp
  | @countCalling pc hcalling hdraining hattempt =>
    exact hs.next (hs.account.countCalling hcalling hdraining)
      (hs.attempts.setCall (by rfl) (by rfl) (by rfl) (Or.inl hattempt))
      (fun _ hp => hp) (fun _ hv => hv) fun hc => ⟨hc, rfl⟩
  | @countDraining pc hdraining hcalling hattempt =>
    exact hs.next (hs.account.countDraining hdraining hcalling)
      (hs.attempts.setCall (by rfl) (by rfl) (by rfl) (Or.inl hattempt))
      (fun _ hp => hp) (fun _ hv => hv) fun hc => ⟨hc, rfl⟩
  | @leftover q i items pc hitems hdraining hcalling hattempt =>
    exact hs.next (hs.account.getLeftover hitems hdraining hcalling)
      (hs.attempts.setCall (by rfl) (by rfl) (by rfl) (Or.inl hattempt))
      (keysOf_setItems hitems) (fun _ hv => hv) fun hc => ⟨hc, rfl⟩
  | attempt hcall =>
    refine hs.next ?_ (hs.attempts.attempt _) (fun _ hp => hp) (fun _ hv => hv) fun hc => ⟨hc, rfl⟩
    exact hs.account.callOn (by funext r; cases r <;> rfl) (by rfl) (by rfl) (by rw [hcall]; rfl)
      (by rw [hcall]; rfl)
  | @freshQueue n hcall =>
    rw [hcall] at hallowed
    refine ⟨hs.account.callOn (by funext r; cases r <;> rfl) (by rfl) (by rfl) (by rw [hcall]; rfl)
      (by rw [hcall]; rfl), hs.attempts.setCall (by rfl) (by rfl) (by rfl)
      (Or.inr (by rw [hcall]; rfl)), fun q hq => ?_⟩
    exact Or.inl (hs.live_of_served hallowed q hq)
  | @start n hcall =>
    have hworker := (hs.attempts.pending c n (by rw [hcall]; rfl)).2
    refine hs.next ?_ (hs.attempts.start hcall) (fun _ hp => hp) (fun q hv => ?_)
      fun hc => ⟨hc, rfl⟩
    · refine hs.account.callOn ?_ (by rfl) (by rfl) (by rw [hcall]; rfl) (by rw [hcall]; rfl)
      funext r
      rw [held_setWorker]
      split_ifs with hr
      · subst hr
        exact (congrArg Worker.working hworker).symm
      · rfl
    · exact alive_setWorker (s := s) rfl hv
  | opens hcall =>
    exact hs.next (hs.account.callOn (by funext r; cases r <;> rfl) (by rfl) (by rfl) (by rw [hcall]; rfl)
      (by rw [hcall]; rfl)) (hs.attempts.setCall (by rfl) (by rfl) (by rfl) (Or.inl rfl)) (fun _ hp => hp) (fun _ hv => hv) fun _ => ⟨rfl, rfl⟩
  | closes hcall =>
    have hserved : s.connected = true → s.Served := by
      rcases hcall with hcall | hcall
      · rw [hcall] at hallowed
        exact hallowed
      · rw [hcall] at hallowed
        exact hallowed
    refine ⟨hs.account.callOn (by funext r; cases r <;> rfl) (by rfl) (by rfl) ?_ ?_,
      hs.attempts.setCall (by rfl) (by rfl) (by rfl) (Or.inl rfl),
      fun q hq => Or.inl (hs.live_of_served hserved q hq)⟩
    · rcases hcall with hcall | hcall <;> rw [hcall] <;> rfl
    · rcases hcall with hcall | hcall <;> rw [hcall] <;> rfl
  | @recount batch hcall hconnected =>
    rw [hcall] at hallowed
    obtain rfl := hallowed hconnected
    exact hs.next (hs.account.callOn (by rfl) (by rfl) (by rfl) (by rw [hcall]; rfl) (by rw [hcall]; rfl))
      (hs.attempts.setCall (by rfl) (by rfl) (by rfl) (Or.inl rfl)) (fun _ hp => hp) (fun _ hv => hv) fun hc => ⟨hc, rfl⟩

/-- A call of notify begins with keys of its own. -/
theorem Kept.notify (hs : s.Kept) (hidle : s.call c = .idle) (n : Nat) :
    ({ s with issued := s.issued + n }.setCall c
      (.notify (List.range' s.issued n))).Kept := by
  have hmem : ∀ t, t ∈ List.range' s.issued n ↔ s.issued ≤ t ∧ t < s.issued + n := fun t => by
    rw [List.mem_range'_1]
  refine hs.next ⟨?_, hs.account.droppedKeys⟩
    (hs.attempts.setCall (by rfl) (by rfl) (by rfl) (Or.inl rfl)) (fun _ hp => hp)
    (fun _ hv => hv) fun hc => ⟨hc, rfl⟩
  have hissue : Lib.Balanced ({ s with issued := s.issued + n }.setCall c
      (.notify (List.range' s.issued n))).held fun t =>
        t < s.issued ∨ t ∈ List.range' s.issued n :=
    hs.account.balanced.issue (q := .calling c) (fun t ht => not_lt.2 ((hmem t).1 ht).1)
      List.nodup_range' ?_ fun r hr => ?_
  · refine ⟨hissue.nodup, hissue.apart, fun t => ?_⟩
    rw [← hissue.total, hmem]
    change t < s.issued + n ↔ _
    omega
  · rw [held_setCall, if_pos rfl]
    simp [held, hidle, Call.calling]
  · rw [held_setCall, if_neg hr]
    split_ifs with hd
    · subst hd
      exact (congrArg Call.draining hidle).symm
    · cases r <;> rfl

/-- (PROVED) An allowed step. -/
theorem Kept.step (hs : s.Kept) {a : Act T} (h : s.step cfg a = some s') (ha : s.Allowed cfg a) :
    s'.Kept := by
  have hbegin : ∀ {c : T} {pc : Call}, s.call c = .idle → pc.calling = [] → pc.draining = [] →
      pc.attempt = none → (s.setCall c pc).Kept := fun hidle hcalling hdraining hattempt =>
    hs.next (hs.account.callOn (by rfl) (by rfl) (by rfl) (by rw [hidle, hcalling]; rfl)
      (by rw [hidle, hdraining]; rfl)) (hs.attempts.setCall (by rfl) (by rfl) (by rfl) (Or.inl hattempt))
      (fun _ hp => hp)
      (fun _ hv => hv) fun hc => ⟨hc, rfl⟩
  cases a with
  | notify c n =>
    simp only [PublisherBase.step] at h
    split_ifs at h with hidle
    obtain rfl := Option.some.inj h
    exact hs.notify hidle n
  | flush c =>
    simp only [PublisherBase.step] at h
    split_ifs at h with hidle
    obtain rfl := Option.some.inj h
    exact hbegin hidle rfl rfl rfl
  | connect c =>
    simp only [PublisherBase.step] at h
    split_ifs at h with hidle
    obtain rfl := Option.some.inj h
    exact hbegin hidle rfl rfl rfl
  | disconnect c =>
    simp only [PublisherBase.step] at h
    split_ifs at h with hidle
    obtain rfl := Option.some.inj h
    exact hbegin hidle rfl rfl rfl
  | call c choice => exact hs.call (go_cases h) ha
  | work w choice => exact hs.work (work_cases h).1 (work_cases h).2 ha

/-! ## Runs -/

/-- The state after steps in some order; `none` when one of them is not possible. -/
def run (cfg : Config) (s : PublisherBase T) : List (Act T) → Option (PublisherBase T)
  | [] => some s
  | a :: acts => (s.step cfg a).bind fun s' => run cfg s' acts

/-- Every step of the run is allowed. -/
def AllAllowed (cfg : Config) (s : PublisherBase T) : List (Act T) → Prop
  | [] => True
  | a :: acts => s.Allowed cfg a ∧ ∀ s' ∈ s.step cfg a, AllAllowed cfg s' acts

instance decidableAllAllowed (cfg : Config) :
    ∀ (acts : List (Act T)) (s : PublisherBase T), Decidable (s.AllAllowed cfg acts)
  | [], _ => isTrue trivial
  | a :: acts, s =>
    have : DecidablePred fun s' : PublisherBase T => s'.AllAllowed cfg acts :=
      decidableAllAllowed cfg acts
    inferInstanceAs (Decidable (s.Allowed cfg a ∧ ∀ s' ∈ s.step cfg a, AllAllowed cfg s' acts))

theorem Kept.run (hs : s.Kept) {acts : List (Act T)} (h : s.run cfg acts = some s')
    (hall : s.AllAllowed cfg acts) : s'.Kept := by
  induction acts generalizing s with
  | nil =>
    obtain rfl := Option.some.inj h
    exact hs
  | cons a acts ih =>
    obtain ⟨s₁, hstep, hrun⟩ := Option.bind_eq_some_iff.1 h
    exact ih (hs.step hstep hall.1) hrun (hall.2 s₁ hstep)

omit [DecidableEq T] in
theorem kept_init : (init : PublisherBase T).Kept where
  account :=
    { balanced :=
        { nodup := fun p => by cases p <;> exact List.nodup_nil
          apart := fun {p q t} hp => by cases p <;> cases hp
          total := fun t => ⟨fun h => absurd h (Nat.not_lt_zero t), fun ⟨p, hp⟩ => by
            cases p <;> cases hp⟩ }
      droppedKeys := rfl }
  attempts :=
    { unstarted := fun _ _ => rfl
      pending := fun c n h => by cases h
      apart := fun c c' n h => by cases h }
  live := fun q hq => absurd rfl hq

omit [DecidableEq T] in
theorem Kept.accounted (hs : s.Kept) : s.Accounted := by
  refine ⟨hs.account.droppedKeys, fun t ht => ?_⟩
  obtain ⟨p, hp⟩ := (hs.account.balanced.total t).1 ht
  refine ⟨p, ?_, List.count_eq_one_of_mem (hs.account.balanced.nodup p) hp,
    fun p' hp' => hs.account.balanced.apart hp' hp⟩
  cases p with
  | queued q => exact hs.live q (List.ne_nil_of_mem hp)
  | _ => trivial

end PublisherBase

/-- (PROVED) In a run of allowed steps every key is accounted for at every moment: sent, counted, in
    the hand of a call or of a worker, or in the queue of a running worker or of the current
    connection, exactly one of these. The hand of a call is that of its notify, or, between taking it
    out of the queue and counting it, that of a disconnect. -/
theorem publisher_accounted {T : Type} [DecidableEq T] (cfg : Config) (acts : List (Act T))
    (s : PublisherBase T) (hrun : PublisherBase.init.run cfg acts = some s)
    (hall : PublisherBase.init.AllAllowed cfg acts) : s.Accounted :=
  (PublisherBase.kept_init.run hrun hall).accounted

/-! ## Runs in which keys go astray -/

/-- A queue of ten, a notify timeout, batches sent whole. -/
def small : Config := ⟨10, true, none⟩

/-- A call goes on for `n` steps. -/
def goes (c n : Nat) : List (Act Nat) := List.replicate n (.call c .ok)

/-- A worker goes on for `n` steps. -/
def works (w n : Nat) : List (Act Nat) := List.replicate n (.work w .ok)

/-- Thread 1 notifies a key, which worker 1 sends, and another, which it cannot; thread 0 connects
    before and disconnects after. -/
def soundRun : List (Act Nat) :=
  [.connect 0] ++ goes 0 10 ++ [.notify 1 1] ++ goes 1 4 ++ works 1 8 ++ [.notify 1 1] ++ goes 1 4 ++
    works 1 9 ++ [.work 1 .late] ++ works 1 2 ++ [.disconnect 0] ++ goes 0 6 ++ works 1 2 ++ goes 0 8

set_option maxRecDepth 4000 in
theorem publisher_accounted_soundRun : ∃ s, PublisherBase.init.run small soundRun = some s ∧
    s.sent = [0] ∧ s.counted = [1] ∧ s.Accounted := by
  have hrun : ((PublisherBase.init.run small soundRun).map fun s => (s.sent, s.counted)) =
      some ([0], [1]) := by decide
  obtain ⟨s, hs, hlogs⟩ := Option.map_eq_some_iff.1 hrun
  exact ⟨s, hs, congrArg Prod.fst hlogs, congrArg Prod.snd hlogs,
    publisher_accounted small soundRun s hs (by decide)⟩

/-- notify finds the publisher connected; disconnect then stops the worker, counts what is left and
    closes; notify queues its key. -/
def strandedRun : List (Act Nat) :=
  [.connect 0] ++ goes 0 10 ++ [.notify 1 1] ++ goes 1 1 ++ [.disconnect 0] ++ goes 0 6 ++
    works 1 2 ++ goes 0 8 ++ goes 1 3

/-- notify finds the publisher not connected and counts its key as dropped; connect completes;
    notify looks again, queues the key, and the worker sends it. -/
def countedRun : List (Act Nat) :=
  [.notify 1 1] ++ goes 1 1 ++ [.connect 0] ++ goes 0 10 ++ goes 1 4 ++ works 1 8

theorem not_publisher_accounted :
    (∃ s, PublisherBase.init.run small strandedRun = some s ∧ ¬ s.Accounted) ∧
    ∃ s, PublisherBase.init.run small countedRun = some s ∧ ¬ s.Accounted := by
  constructor
  · have hrun : ((PublisherBase.init.run small strandedRun).map fun s =>
        (s.issued, s.items 1, s.isAlive 1, s.connected)) =
          some (1, [.key 0], false, false) := by decide
    obtain ⟨s, hs, hfinal⟩ := Option.map_eq_some_iff.1 hrun
    simp only [Prod.mk.injEq] at hfinal
    obtain ⟨hissued, hitems, hdead, hclosed⟩ := hfinal
    refine ⟨s, hs, fun h => ?_⟩
    obtain ⟨p, haccepts, -, honly⟩ := h.2 0 (by omega)
    obtain rfl := honly (.queued 1) (by simp [PublisherBase.held, hitems, keysOf])
    rcases haccepts with halive | ⟨hconn, -⟩
    · rw [hdead] at halive
      cases halive
    · rw [hclosed] at hconn
      cases hconn
  · have hrun : ((PublisherBase.init.run small countedRun).map fun s =>
        (s.issued, s.sent, s.counted)) = some (1, [0], [0]) := by decide
    obtain ⟨s, hs, hfinal⟩ := Option.map_eq_some_iff.1 hrun
    simp only [Prod.mk.injEq] at hfinal
    obtain ⟨hissued, hsent, hcounted⟩ := hfinal
    refine ⟨s, hs, fun h => ?_⟩
    obtain ⟨p, -, -, honly⟩ := h.2 0 (by omega)
    have hs : Place.sent = p := honly .sent (by simp [PublisherBase.held, hsent])
    have hc : Place.counted = p := honly .counted (by simp [PublisherBase.held, hcounted])
    cases hs.trans hc.symm

end Virtuals.Publisher
