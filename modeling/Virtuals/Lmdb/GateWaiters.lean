/-
  The requester's future.

  A future that its requester waits on is `_consumer`, or one thread has it in hand and is to complete
  it, or it is completed. So a requester is never left behind: what a wake takes out of `_consumer` it
  completes, and a close takes out what there is.
-/
import Virtuals.Lmdb.GateFlight

namespace Virtuals.Lmdb

/-- Who completes futures. -/
inductive Party
  | helper (queue : Nat)
  | caller (thread : Nat)
  deriving DecidableEq

namespace WriterGate

variable {s t : WriterGate} {q c f generation : Nat} {p p' : Party} {landing : Landing}

/-- The future that a thread took out of `_consumer` and is to complete. -/
def hand (s : WriterGate) : Party → Option (Nat × Landing)
  | .helper q => (s.helper q).hand
  | .caller c => (s.caller c).hand

/-- What is known of the futures. -/
structure Waiters (s : WriterGate) : Prop where
  fresh : ∀ f, s.nextFuture ≤ f → s.futures f = none
  attached : ∀ f g, s.requester.attachment = some (f, g) → f < s.nextFuture ∧ g ≤ s.generation
  consumer : ∀ f, s.consumer = some f → s.requester.attachment = some (f, s.generation) ∧
    s.futures f = none ∧ s.waiting = true
  hand : ∀ p f landing, s.hand p = some (f, landing) →
    (∃ g, s.requester.attachment = some (f, g)) ∧ s.futures f = none ∧ s.consumer ≠ some f
  one : ∀ p p' x x', s.hand p = some x → s.hand p' = some x' → p = p'
  pending : ∀ f g, s.requester.attachment = some (f, g) → s.futures f = none →
    s.consumer = some f ∨ ∃ p landing, s.hand p = some (f, landing)
  closing : ∀ c, (s.caller c).closes = true → s.consumer = none
  closed : s.fd = none → s.consumer = none

theorem waiters_start (peer : Option Nat) : (start peer).Waiters where
  fresh := fun _ _ => rfl
  attached := fun _ _ h => by cases h
  consumer := fun _ h => by cases h
  hand := fun p _ _ h => by cases p <;> cases h
  one := fun p _ _ _ h => by cases p <;> cases h
  pending := fun _ _ h => by cases h
  closing := fun _ _ => rfl
  closed := fun _ => rfl

/-! ## Hands -/

theorem hand_congr (hh : t.helper = s.helper) (hc : t.caller = s.caller) : t.hand = s.hand := by
  funext p
  cases p with
  | helper q => exact congrArg (fun g => (g q).hand) hh
  | caller c => exact congrArg (fun g => (g c).hand) hc

theorem hand_setHelper (s : WriterGate) (q : Nat) (helper : Helper) :
    (s.setHelper q helper).hand = Function.update s.hand (.helper q) helper.hand := by
  funext p
  cases p with
  | helper q' =>
    by_cases hq : q' = q
    · subst hq
      simp [hand, setHelper]
    · have hp : Party.helper q' ≠ .helper q := fun he => hq (Party.helper.inj he)
      simp [hand, setHelper, hq]
  | caller c => exact (Function.update_of_ne (by exact Party.noConfusion) ..).symm

theorem hand_setCaller (s : WriterGate) (c : Nat) (caller : Caller) :
    (s.setCaller c caller).hand = Function.update s.hand (.caller c) caller.hand := by
  funext p
  cases p with
  | helper q => exact (Function.update_of_ne (by exact Party.noConfusion) ..).symm
  | caller c' =>
    by_cases hc : c' = c
    · subst hc
      simp [hand, setCaller]
    · simp [hand, setCaller, hc]

/-- A thread that has nothing in hand before and after. -/
theorem hand_setHelper_none {helper : Helper} (h : (s.helper q).hand = none)
    (hn : helper.hand = none) : (s.setHelper q helper).hand = s.hand := by
  rw [hand_setHelper, Function.update_eq_self_iff, hn]
  exact h.symm

theorem hand_setCaller_none {caller : Caller} (h : (s.caller c).hand = none)
    (hn : caller.hand = none) : (s.setCaller c caller).hand = s.hand := by
  rw [hand_setCaller, Function.update_eq_self_iff, hn]
  exact h.symm

theorem closes_setCaller {caller : Caller} (h : caller.closes = true → s.consumer = none)
    (hs : ∀ c, (s.caller c).closes = true → s.consumer = none) (c' : Nat)
    (hc : ((s.setCaller c caller).caller c').closes = true) : s.consumer = none := by
  have hc' : (Function.update s.caller c caller c').closes = true := hc
  by_cases he : c' = c
  · subst he
    rw [Function.update_self] at hc'
    exact h hc'
  · rw [Function.update_of_ne he] at hc'
    exact hs c' hc'

/-- Nobody waits: no consumer, and nothing in hand. -/
theorem Waiters.quiet (h : s.Waiters) (hn : s.requester.attachment = none) :
    s.consumer = none ∧ ∀ p, s.hand p = none := by
  refine ⟨Option.eq_none_iff_forall_ne_some.2 fun f hf => ?_,
    fun p => Option.eq_none_iff_forall_ne_some.2 fun x hx => ?_⟩
  · have ha := (h.consumer f hf).1
    rw [hn] at ha
    cases ha
  · obtain ⟨g, ha⟩ := (h.hand p x.1 x.2 hx).1
    rw [hn] at ha
    cases ha

/-- The same of a requester whose future is completed. -/
theorem Waiters.quiet_of_completed (h : s.Waiters)
    (ha : s.requester.attachment = some (f, generation)) (hf : s.futures f = some landing) :
    s.consumer = none ∧ ∀ p, s.hand p = none := by
  refine ⟨Option.eq_none_iff_forall_ne_some.2 fun f' hf' => ?_,
    fun p => Option.eq_none_iff_forall_ne_some.2 fun x hx => ?_⟩
  · obtain ⟨ha', hn, -⟩ := h.consumer f' hf'
    have he : f = f' := congrArg Prod.fst (Option.some.inj (ha.symm.trans ha'))
    rw [← he, hf] at hn
    cases hn
  · obtain ⟨⟨g, ha'⟩, hn, -⟩ := h.hand p x.1 x.2 hx
    have he : f = x.1 := congrArg Prod.fst (Option.some.inj (ha.symm.trans ha'))
    rw [← he, hf] at hn
    cases hn

/-- Nothing is in hand while the future is `_consumer`. -/
theorem Waiters.hands_of_consumer (h : s.Waiters) (hc : s.consumer = some f) (p : Party) :
    s.hand p = none := by
  refine Option.eq_none_iff_forall_ne_some.2 fun x hx => ?_
  obtain ⟨⟨g, ha⟩, -, hne⟩ := h.hand p x.1 x.2 hx
  have he := congrArg Prod.fst (Option.some.inj ((h.consumer f hc).1.symm.trans ha))
  exact hne (hc.trans (congrArg some he))

/-! ## Steps that leave the futures -/

theorem Waiters.congr (h : s.Waiters) (hn : t.nextFuture = s.nextFuture)
    (hf : t.futures = s.futures) (hr : t.requester.attachment = s.requester.attachment)
    (hc : t.consumer = s.consumer) (hg : t.generation = s.generation)
    (hw : s.waiting = true → t.waiting = true) (hfd : t.fd = s.fd) (hh : t.hand = s.hand)
    (hcl : ∀ c, (t.caller c).closes = true → s.consumer = none) : t.Waiters where
  fresh := by rw [hn, hf]; exact h.fresh
  attached := by rw [hr, hn, hg]; exact h.attached
  consumer := by
    rw [hc, hr, hg, hf]
    exact fun f hf => ⟨(h.consumer f hf).1, (h.consumer f hf).2.1, hw (h.consumer f hf).2.2⟩
  hand := by rw [hh, hr, hf, hc]; exact h.hand
  one := by rw [hh]; exact h.one
  pending := by rw [hr, hf, hc, hh]; exact h.pending
  closing := fun c hc' => hc.trans (hcl c hc')
  closed := by rw [hfd, hc]; exact h.closed

/-- The requester leaves with nobody to complete its future. -/
theorem Waiters.drop (h : s.Waiters) (hn : t.nextFuture = s.nextFuture)
    (hf : t.futures = s.futures) (hr : t.requester.attachment = none)
    (hc : t.consumer = none) (hh : ∀ p, t.hand p = none) : t.Waiters where
  fresh := by rw [hn, hf]; exact h.fresh
  attached := fun _ _ ha => by rw [hr] at ha; cases ha
  consumer := fun _ hf => by rw [hc] at hf; cases hf
  hand := fun p _ _ hp => by rw [hh p] at hp; cases hp
  one := fun p _ _ _ hp => by rw [hh p] at hp; cases hp
  pending := fun _ _ ha => by rw [hr] at ha; cases ha
  closing := fun _ _ => hc
  closed := fun _ => hc

/-! ## Steps that move a future -/

/-- A new future for the requester. -/
theorem Waiters.attachConsumer (h : s.Waiters) (hr : s.requester.attachment = none)
    (hw : s.waiting = true) (hfd : s.fd ≠ none) (hc : ∀ c, (s.caller c).closes = false)
    (loop : Bool) : (s.attachConsumer loop).Waiters := by
  obtain ⟨-, hhands⟩ := h.quiet hr
  have hnew : s.futures s.nextFuture = none := h.fresh _ (Nat.le_refl _)
  exact {
    fresh := fun f hf => h.fresh f (Nat.le_of_succ_le hf)
    attached := fun f g ha => by
      obtain ⟨rfl, rfl⟩ := Prod.mk.inj (Option.some.inj ha)
      exact ⟨Nat.lt_succ_self _, Nat.le_refl _⟩
    consumer := fun f hf => by
      cases hf
      exact ⟨rfl, hnew, hw⟩
    hand := fun p f landing hp => by
      have hp' : s.hand p = some (f, landing) := by cases p <;> exact hp
      rw [hhands p] at hp'
      cases hp'
    one := fun p p' x x' hp => by
      have hp' : s.hand p = some x := by cases p <;> exact hp
      rw [hhands p] at hp'
      cases hp'
    pending := fun f g ha _ => by
      obtain ⟨rfl, rfl⟩ := Prod.mk.inj (Option.some.inj ha)
      exact .inl rfl
    closing := fun c hc' => by
      have hc'' : (s.caller c).closes = true := hc'
      rw [hc c] at hc''
      cases hc''
    closed := fun hn => absurd hn hfd }

/-- A thread takes what there is in `_consumer`. -/
theorem Waiters.take (h : s.Waiters) (hn : t.nextFuture = s.nextFuture)
    (hf : t.futures = s.futures) (hr : t.requester = s.requester) (hc : t.consumer = none)
    (hg : t.generation = s.generation) (hp : s.hand p = none)
    (hh : t.hand = Function.update s.hand p (s.consumer.map fun f => (f, landing))) :
    t.Waiters where
  fresh := by rw [hn, hf]; exact h.fresh
  attached := by rw [hr, hn, hg]; exact h.attached
  consumer := fun _ hf => by rw [hc] at hf; cases hf
  hand := fun p' f landing' hp' => by
    rw [hr, hf, hc]
    rw [hh] at hp'
    by_cases he : p' = p
    · subst he
      rw [Function.update_self] at hp'
      obtain ⟨f', hf', hx⟩ := Option.map_eq_some_iff.1 hp'
      obtain ⟨rfl, -⟩ := Prod.mk.inj hx
      obtain ⟨ha, hnone, -⟩ := h.consumer f' hf'
      exact ⟨⟨_, ha⟩, hnone, fun he => by cases he⟩
    · rw [Function.update_of_ne he] at hp'
      obtain ⟨ha, hnone, -⟩ := h.hand p' f landing' hp'
      exact ⟨ha, hnone, fun he => by cases he⟩
  one := fun p₁ p₂ x₁ x₂ h₁ h₂ => by
    rw [hh] at h₁ h₂
    cases hcons : s.consumer with
    | none =>
      have hupd : Function.update s.hand p (s.consumer.map fun f => (f, landing)) = s.hand := by
        rw [Function.update_eq_self_iff, hcons, hp]
        rfl
      rw [hupd] at h₁ h₂
      exact h.one p₁ p₂ x₁ x₂ h₁ h₂
    | some f =>
      -- nothing was in hand, so that the hand that is not empty is the new one
      have hnew : ∀ p' x, Function.update s.hand p (s.consumer.map fun f => (f, landing)) p' =
          some x → p' = p := fun p' x hx => by
        by_contra he
        rw [Function.update_of_ne he, h.hands_of_consumer hcons] at hx
        cases hx
      exact (hnew p₁ x₁ h₁).trans (hnew p₂ x₂ h₂).symm
  pending := fun f g ha hnone => by
    rw [hr] at ha
    rw [hf] at hnone
    rw [hh]
    obtain hcons | ⟨p', landing', hp'⟩ := h.pending f g ha hnone
    · refine .inr ⟨p, landing, ?_⟩
      rw [Function.update_self, hcons]
      rfl
    · have he : p' ≠ p := fun he => by
        rw [he, hp] at hp'
        cases hp'
      exact .inr ⟨p', landing', (Function.update_of_ne he ..).trans hp'⟩
  closing := fun _ _ => hc
  closed := fun _ => hc

/-- A thread completes the future that it has in hand. -/
theorem Waiters.finish (h : s.Waiters) (hp : s.hand p = some (f, landing))
    (hn : t.nextFuture = s.nextFuture)
    (hf : t.futures = Function.update s.futures f (some landing))
    (hr : t.requester = s.requester) (hc : t.consumer = s.consumer)
    (hg : t.generation = s.generation) (hh : t.hand = Function.update s.hand p none)
    (hcl : ∀ c, (t.caller c).closes = true → s.consumer = none) : t.Waiters := by
  obtain ⟨⟨g, ha⟩, -, hne⟩ := h.hand p f landing hp
  obtain ⟨hlt, -⟩ := h.attached f g ha
  -- by `one`, nothing else is in hand
  have hempty : ∀ p', t.hand p' = none := fun p' => by
    rw [hh]
    by_cases he : p' = p
    · rw [he, Function.update_self]
    · rw [Function.update_of_ne he]
      exact Option.eq_none_iff_forall_ne_some.2 fun x hx => he (h.one p' p x _ hx hp)
  have hnone : s.consumer = none := Option.eq_none_iff_forall_ne_some.2 fun f' hf' => by
    have he := congrArg Prod.fst (Option.some.inj (ha.symm.trans (h.consumer f' hf').1))
    exact hne (hf'.trans (congrArg some he.symm))
  exact {
    fresh := fun f' hf' => by
      rw [hn] at hf'
      have he : f' ≠ f := fun he => absurd hf' (Nat.not_le_of_lt (he ▸ hlt))
      rw [hf, Function.update_of_ne he]
      exact h.fresh f' hf'
    attached := by rw [hr, hn, hg]; exact h.attached
    consumer := fun f' hf' => by
      rw [hc, hnone] at hf'
      cases hf'
    hand := fun p' _ _ hp' => by
      rw [hempty p'] at hp'
      cases hp'
    one := fun p₁ _ _ _ h₁ => by
      rw [hempty p₁] at h₁
      cases h₁
    pending := fun f' g' ha' hnone' => by
      rw [hr] at ha'
      have he : f = f' := congrArg Prod.fst (Option.some.inj (ha.symm.trans ha'))
      rw [hf, ← he, Function.update_self] at hnone'
      cases hnone'
    closing := fun c hc' => hc.trans (hcl c hc')
    closed := fun _ => hc.trans hnone }

/-! ## Every step -/

theorem Waiters.setHelper (h : s.Waiters) {helper : Helper} (hq : (s.helper q).hand = none)
    (hn : helper.hand = none) : (s.setHelper q helper).Waiters :=
  h.congr rfl rfl rfl rfl rfl id rfl (hand_setHelper_none hq hn) h.closing

theorem Waiters.setCaller (h : s.Waiters) {caller : Caller} (hc : (s.caller c).hand = none)
    (hn : caller.hand = none) (hcl : caller.closes = true → s.consumer = none) :
    (s.setCaller c caller).Waiters :=
  h.congr rfl rfl rfl rfl rfl id rfl (hand_setCaller_none hc hn) (closes_setCaller hcl h.closing)

theorem Waiters.startThread (h : s.Waiters) (ht : s.Threads) : s.startThread.Waiters := by
  obtain he | ⟨-, hn, he⟩ := startThread_cases s ht
  · rw [he]
    exact h
  · rw [he]
    exact h.congr rfl rfl rfl rfl rfl id rfl (hand_setHelper_none hn rfl) h.closing

theorem startThread_requester (s : WriterGate) : s.startThread.requester = s.requester := by
  unfold WriterGate.startThread
  split <;> rfl

theorem Waiters.attach (h : s.Waiters) (hf : s.Flight) (ht : s.Threads)
    (hr : s.requester = .idle) (hc : ∀ c, (s.caller c).closes = false) (loop : Bool)
    (fault : Fault) : (s.attach loop fault).Waiters := by
  have hn : s.requester.attachment = none := by rw [hr]; rfl
  obtain ⟨hcons, hhands⟩ := h.quiet hn
  have hst := h.startThread ht
  have hn' : s.startThread.requester.attachment = none := by rw [startThread_requester, hn]
  obtain ⟨hw, he⟩ | ⟨error, he⟩ | ⟨hw, d, hd, ⟨-, he⟩ | ⟨-, he | he⟩⟩ := attach_cases s loop fault
  · rw [he]
    refine h.attachConsumer hn hw (fun hfd => ?_) hc loop
    rw [hf.closed hfd] at hw
    cases hw
  · rw [he]
    exact h.drop rfl rfl rfl hcons fun p => (congrFun (hand_congr rfl rfl) p).trans (hhands p)
  · rw [he]
    exact h.drop rfl rfl rfl hcons fun p => (congrFun (hand_congr rfl rfl) p).trans (hhands p)
  · rw [he]
    obtain ⟨hcons', hhands'⟩ := hst.quiet hn'
    exact hst.drop rfl rfl rfl hcons' fun p =>
      (congrFun (hand_congr rfl rfl) p).trans (hhands' p)
  · rw [he]
    obtain ⟨hfd, -, -, -, -, -, -, hcall⟩ := startThread_fields s
    have hq : (s.startThread.queueWait d).Waiters :=
      hst.congr rfl rfl rfl rfl rfl (fun _ => rfl) rfl
        (hand_congr rfl rfl) hst.closing
    refine hq.attachConsumer hn' rfl (fun hfd' => ?_) (fun c => ?_) loop
    · have hnone : s.startThread.fd = none := hfd'
      rw [hfd, hd] at hnone
      cases hnone
    · show (s.startThread.caller c).closes = false
      rw [hcall]
      exact hc c

theorem Waiters.release (h : s.Waiters) (generation : Option Nat) :
    (s.release generation).Waiters := by
  obtain he | ⟨d, -, -, he⟩ := release_cases s generation
  · rw [he]
    exact h
  · rw [he]
    exact h.congr rfl rfl rfl rfl rfl id rfl (hand_congr rfl rfl) h.closing

theorem Waiters.openFile (h : s.Waiters) : s.openFile.Waiters := by
  unfold WriterGate.openFile
  cases hfd : s.fd with
  | some d => exact h
  | none =>
    have hnone := h.closed hfd
    exact {
      fresh := h.fresh
      attached := fun f g ha =>
        ⟨(h.attached f g ha).1, Nat.le_succ_of_le (h.attached f g ha).2⟩
      consumer := fun _ hf => by cases hf
      hand := fun p f landing hp => by
        have hp' : s.hand p = some (f, landing) := by cases p <;> exact hp
        exact ⟨(h.hand p f landing hp').1, (h.hand p f landing hp').2.1, fun he => by cases he⟩
      one := fun p p' x x' hp hp' =>
        h.one p p' x x' (by cases p <;> exact hp) (by cases p' <;> exact hp')
      pending := fun f g ha hn => by
        obtain hc | ⟨p, landing, hp⟩ := h.pending f g ha hn
        · rw [hnone] at hc
          cases hc
        · exact .inr ⟨p, landing, by cases p <;> exact hp⟩
      closing := fun _ _ => rfl
      closed := fun _ => rfl }

theorem Waiters.closeSection (h : s.Waiters) (hc : s.caller c = .closing) :
    (s.closeSection c).Waiters := by
  have hnone : s.consumer = none := h.closing c (by rw [hc]; rfl)
  have hset : (s.setCaller c (.stopping s.queue s.fd)).Waiters :=
    h.setCaller (by rw [hc]; rfl) rfl fun hcl => by cases hcl
  exact {
    fresh := h.fresh
    attached := fun f g ha => ⟨(h.attached f g ha).1, Nat.le_succ_of_le (h.attached f g ha).2⟩
    consumer := fun f hf => by
      have hf' : s.consumer = some f := hf
      rw [hnone] at hf'
      cases hf'
    hand := fun p f landing hp => hset.hand p f landing (by cases p <;> exact hp)
    one := fun p p' x x' hp hp' =>
      hset.one p p' x x' (by cases p <;> exact hp) (by cases p' <;> exact hp')
    pending := fun f g ha hn => by
      obtain hcons | ⟨p, landing, hp⟩ := hset.pending f g ha hn
      · exact .inl hcons
      · exact .inr ⟨p, landing, by cases p <;> exact hp⟩
    closing := fun _ _ => hnone
    closed := fun _ => hnone }

theorem Waiters.woken (h : s.Waiters) {consumer : Option Nat} {error : GateError}
    {closing : Bool} (hc : s.caller c = .waking consumer error closing) :
    (s.woken c consumer error closing).Waiters := by
  obtain ⟨caller, hcaller, he⟩ := woken_cases s c consumer error closing
  have hhand : caller.hand = none := by obtain rfl | ⟨rfl, -⟩ := hcaller <;> rfl
  have hcl : caller.closes = true → s.consumer = none := fun hcl => by
    obtain rfl | ⟨-, hclosing⟩ := hcaller
    · cases hcl
    · exact h.closing c (by rw [hc]; exact hclosing)
  rw [he]
  cases consumer with
  | none => exact h.setCaller (by rw [hc]; rfl) hhand hcl
  | some f =>
    have hp : s.hand (.caller c) = some (f, .error error) := by
      show (s.caller c).hand = _
      rw [hc]
      rfl
    have hf := (h.hand _ f _ hp).2.1
    refine h.finish hp rfl ?_ rfl rfl rfl ?_ (closes_setCaller hcl h.closing)
    · show Function.update s.futures f (some ((s.futures f).getD _)) = _
      rw [hf]
      rfl
    · rw [← hhand]
      exact hand_setCaller s c caller

theorem Waiters.deliver (h : s.Waiters) (hq : s.helper q = .delivering f landing) :
    (s.deliver q f landing).Waiters := by
  have hp : s.hand (.helper q) = some (f, landing) := by
    show (s.helper q).hand = _
    rw [hq]
    rfl
  have hf := (h.hand _ f _ hp).2.1
  refine h.finish hp rfl ?_ rfl rfl rfl ?_ h.closing
  · show Function.update s.futures f (some ((s.futures f).getD _)) = _
    rw [hf]
    rfl
  · refine (hand_setHelper s q _).trans ?_
    rw [if_pos hf]
    rfl

theorem endLive_hand (r : WaitRequest) (landing : Landing) : (s.endLive r landing).hand =
    Function.update s.hand (.helper s.queue) (s.consumer.map fun f => (f, landing)) := by
  have hmap : (s.endHelper landing).hand = s.consumer.map fun f => (f, landing) := by
    unfold endHelper
    cases s.consumer <;> rfl
  rw [← hmap]
  exact hand_setHelper s s.queue _

theorem Waiters.endWait (h : s.Waiters) (hf : s.Flight) {r : WaitRequest}
    (hq : s.helper q = .landed r landing) : (s.endWait q r landing).Waiters := by
  have hr : r ∈ s.inFlight q := mem_inFlight (by rw [hq]; rfl)
  have hp : s.hand (.helper q) = none := by
    show (s.helper q).hand = none
    rw [hq]
    rfl
  rw [endWait_eq hf hr]
  by_cases he : q = s.queue
  · rw [if_pos he]
    subst he
    exact h.take rfl rfl rfl rfl rfl hp (endLive_hand r landing)
  · rw [if_neg he]
    exact h.congr rfl rfl rfl rfl rfl id rfl (hand_setHelper_none hp rfl) h.closing

theorem Waiters.check (h : s.Waiters) {r : WaitRequest} (hq : s.helper q = .got r) :
    (s.check q r).Waiters := by
  have hp : (s.helper q).hand = none := by rw [hq]; rfl
  unfold WriterGate.check
  split
  · exact h.congr rfl rfl rfl rfl rfl id rfl (hand_setHelper_none hp rfl) h.closing
  · exact h.setHelper hp rfl

/-- Every step keeps what is known of the futures. -/
theorem Waiters.step (h : s.Waiters) (hf : s.Flight) (ht : s.Threads) (hs : s.Step t) :
    t.Waiters := by
  -- a step that leaves all but the requester's place, the lock and the log
  have hsame : ∀ u : WriterGate, u.nextFuture = s.nextFuture → u.futures = s.futures →
      u.requester.attachment = s.requester.attachment → u.consumer = s.consumer →
      u.generation = s.generation → u.waiting = s.waiting → u.fd = s.fd →
      u.helper = s.helper → u.caller = s.caller → u.Waiters := by
    intro u h₁ h₂ h₃ h₄ h₅ h₆ h₇ h₈ h₉
    refine h.congr h₁ h₂ h₃ h₄ h₅ (fun hw => h₆.trans hw) h₇ (hand_congr h₈ h₉) ?_
    rw [h₉]
    exact h.closing
  -- a requester that leaves
  have hleaves : ∀ u : WriterGate, u.nextFuture = s.nextFuture → u.futures = s.futures →
      u.requester.attachment = none → u.consumer = none → u.helper = s.helper →
      u.caller = s.caller → (∀ p, s.hand p = none) → u.Waiters := by
    intro u h₁ h₂ h₃ h₄ h₅ h₆ hno
    refine h.drop h₁ h₂ h₃ h₄ fun p => ?_
    rw [hand_congr h₅ h₆]
    exact hno p
  cases hs with
  | openFile => exact h.openFile
  | attach loop fault hr hc => exact h.attach hf ht hr hc loop fault
  | returns generation hr =>
    exact hsame _ rfl rfl (by rw [hr]; rfl) rfl rfl rfl rfl rfl rfl
  | read loop f generation landing hr hland =>
    have ha : s.requester.attachment = some (f, generation) := by
      obtain hr | hr := hr <;> rw [hr] <;> rfl
    obtain ⟨hcons, hno⟩ := h.quiet_of_completed ha hland
    cases landing with
    | ok => exact hleaves _ rfl rfl rfl hcons rfl rfl hno
    | error e =>
      unfold read
      dsimp only
      split
      · exact hleaves _ rfl rfl rfl hcons rfl rfl hno
      · exact hsame _ rfl rfl ha.symm rfl rfl rfl rfl rfl rfl
  | timeOut loop f generation hr =>
    unfold WriterGate.timeOut
    by_cases hcons : s.consumer = some f
    · rw [if_pos hcons]
      exact hleaves _ rfl rfl rfl rfl rfl rfl (h.hands_of_consumer hcons)
    · rw [if_neg hcons]
      exact hsame _ rfl rfl (by rw [hr]; rfl) rfl rfl rfl rfl rfl rfl
  | cancel f generation hr => exact hsame _ rfl rfl (by rw [hr]; rfl) rfl rfl rfl rfl rfl rfl
  | leave f generation error hr =>
    unfold WriterGate.leave
    by_cases hcons : s.consumer = some f
    · rw [if_pos hcons]
      exact hleaves _ rfl rfl rfl rfl rfl rfl (h.hands_of_consumer hcons)
    · rw [if_neg hcons]
      exact hsame _ rfl rfl (by rw [hr]; rfl) rfl rfl rfl rfl rfl rfl
  | reread f generation error landing hr hland =>
    have ha : s.requester.attachment = some (f, generation) := by rw [hr]; rfl
    obtain ⟨hcons, hno⟩ := h.quiet_of_completed ha hland
    cases landing with
    | ok => exact hleaves _ rfl rfl rfl hcons rfl rfl hno
    | error e => exact hleaves _ rfl rfl rfl hcons rfl rfl hno
  | giveBack generation error hr =>
    have hn : s.requester.attachment = none := by rw [hr]; rfl
    obtain ⟨hcons, hno⟩ := h.quiet hn
    obtain he | ⟨d, -, -, he⟩ := release_cases s (some generation)
    · rw [he]
      exact hleaves _ rfl rfl rfl hcons rfl rfl hno
    · rw [he]
      exact hleaves _ rfl rfl rfl hcons rfl rfl hno
  | release generation hr => exact h.release generation
  | wakeWaiters c error closing hc he =>
    have hp : s.hand (.caller c) = none := by
      show (s.caller c).hand = none
      rw [hc]
      rfl
    have hmap : (Caller.waking s.consumer error closing).hand =
        s.consumer.map fun f => (f, .error error) := by
      cases s.consumer <;> rfl
    have hh : (s.setCaller c (.waking s.consumer error closing)).hand =
        Function.update s.hand (.caller c) (s.consumer.map fun f => (f, .error error)) := by
      rw [hand_setCaller, hmap]
    exact h.take rfl rfl rfl rfl rfl hp ((hand_congr rfl rfl).trans hh)
  | woken c consumer error closing hc => exact h.woken hc
  | closeSection c hc => exact h.closeSection hc
  | putNone c q fd hc =>
    have hset : (s.setCaller c (.dropping fd)).Waiters :=
      h.setCaller (by rw [hc]; rfl) rfl fun hcl => by cases hcl
    exact hset.congr rfl rfl rfl rfl rfl id rfl (hand_congr rfl rfl) hset.closing
  | closeFd c fd hc =>
    have hset : (s.setCaller c .idle).Waiters :=
      h.setCaller (by rw [hc]; rfl) rfl fun hcl => by cases hcl
    exact hset.congr rfl rfl rfl rfl rfl id rfl (hand_congr rfl rfl) hset.closing
  | get q request rest hq hr =>
    have hp : (s.helper q).hand = none := by
      rw [hq]
      rfl
    cases request with
    | none => exact h.congr rfl rfl rfl rfl rfl id rfl (hand_setHelper_none hp rfl) h.closing
    | some r => exact h.congr rfl rfl rfl rfl rfl id rfl (hand_setHelper_none hp rfl) h.closing
  | check q r hq => exact h.check hq
  | lands q r hq hfree =>
    exact h.congr rfl rfl rfl rfl rfl id rfl
      (hand_setHelper_none (by rw [hq]; rfl) rfl) h.closing
  | fails q r hq => exact h.setHelper (by rw [hq]; rfl) rfl
  | endWait q r landing hq => exact h.endWait hf hq
  | deliver q f landing hq => exact h.deliver hq
  | peerTakes p hl => exact hsame _ rfl rfl rfl rfl rfl rfl rfl rfl rfl
  | peerGives p hl => exact hsame _ rfl rfl rfl rfl rfl rfl rfl rfl rfl

end WriterGate

end Virtuals.Lmdb
