/-
  The writer slot loses no waiter and no grant, over every run without interrupts.

  `Ledger` keeps the record of the grants: each is noted once, is in flight or has ended once,
  and a call whose grant ended without the slot is `Out`, for good. `close` puts every queued or
  granted call `Out`, and every thread blocked in the old lock `Cut`.
-/
import Virtuals.WriteSlot.Turn

namespace Virtuals.WriteSlot

/-! ## Calls that get nothing any more -/

/-- An `areserve` that is still waiting for, or has not got, the slot. -/
def Place.without : Place → Bool
  | .awaiting _ | .ending _ | .leaving | .returning _ | .failed _ => true
  | _ => false

/-- A thread at this place has, or waits for, a lock older than `lock`; or it failed. -/
def Place.behind (lock : Nat) : Place → Bool
  | .blocked l | .won l | .lapsed l | .interrupted l _ | .taken l | .refused l => decide (l < lock)
  | .failed _ => true
  | _ => false

/-- The calls of threads that are blocked in, or midway through, `acquire`. -/
def Place.acquiring : Place → Bool
  | .entered _ | .missed | .blocked _ | .won _ | .lapsed _ | .interrupted _ _ | .taken _
  | .refused _ => true
  | _ => false

/-- A call that had or has the slot. -/
def Place.had : Place → Bool
  | .owns _ | .released _ => true
  | _ => false

namespace System

/-- The waiter of `w` was abandoned or closed and its call has not got the slot. -/
def Out (s : System) (w : Nat) : Prop :=
  ((s.slot.waiter w).state = .abandoned ∨ (s.slot.waiter w).state = .closed) ∧
    (s.place w).without = true

/-- The thread of call `c` waited for, or took, a lock that was replaced. -/
def Cut (s : System) (c : Nat) : Prop := (s.place c).behind s.slot.lock = true

variable {s : System} {a : Act}

theorem Out.not_had {w : Nat} (h : s.Out w) : (s.place w).had = false := by
  have := h.2
  revert this
  cases s.place w <;> simp [Place.without, Place.had]

theorem Cut.not_had {c : Nat} (h : s.Cut c) : (s.place c).had = false := by
  revert h
  unfold Cut
  cases s.place c <;> simp [Place.behind, Place.had]

theorem Out.apart (h : Core s) {w : Nat} (hw : s.Out w) :
    w ∉ s.slot.waiters ∧ s.slot.pending ≠ some w := by
  refine ⟨h.not_queued (Or.inr ?_), fun hp => ?_⟩
  · rcases hw.1 with he | he <;> simp [he]
  · have := (h.pending w hp).1
    rcases hw.1 with he | he <;> simp [he] at this

/-- A call without the slot goes on without it, or finishes on its grant. -/
theorem Goes.without_or {v : Nat} {p : Place} (hg : Goes a s v p)
    (hv : (s.place v).without = true) :
    p.without = true ∨ (a = .finish v ∧ s.slot.pending = some v ∧ p.had = true) := by
  cases hg with
  | stays => exact Or.inl hv
  | wakes _ hp => rcases hp with rfl | rfl <;> exact Or.inl rfl
  | takes ha _ hpend => exact Or.inr ⟨ha, hpend, rfl⟩
  | returns | fails => exact Or.inl rfl
  | begins hq | tries hq | counts hq | waits hq | reserves hq | releases _ hq =>
    simp [hq, Place.without] at hv
  | interrupts _ hq | records hq | refused hq =>
    rcases hq with hq | hq <;> simp [hq, Place.without] at hv

/-- (PROVED) A call that is out stays out. -/
theorem out_effect (h : Core s) (hclean : ¬ s.StaleGiveBack a) {w : Nat} (hw : s.Out w) :
    Out (s.effect a) w := by
  obtain ⟨hq, hp⟩ := hw.apart h
  have harr : ∀ since, s.place w ≠ .arriving since := fun since he => by
    have := hw.2
    simp [he, Place.without] at this
  have hst := (turn h a hclean).apart w harr hq hp
  refine ⟨by rw [hst]; exact hw.1, ?_⟩
  rcases (goes h a hclean w).without_or hw.2 with hwithout | ⟨-, hpw, -⟩
  · exact hwithout
  · exact absurd hpw hp

theorem lock_le_effect (h : Core s) (hclean : ¬ s.StaleGiveBack a) :
    s.slot.lock ≤ (s.effect a).slot.lock := by
  by_cases ha : a = .close
  · subst ha
    obtain ⟨slot, heq, hcl⟩ := close_spec h
    unfold effect
    dsimp only
    rw [heq]
    exact (Nat.le_succ _).trans_eq hcl.lock.symm
  · exact ((turn h a hclean).lock ha).ge

/-- (PROVED) A thread behind the slot stays behind it. -/
theorem cut_effect (h : Core s) (hclean : ¬ s.StaleGiveBack a) {c : Nat} (hc : s.Cut c) :
    Cut (s.effect a) c := by
  have hle := lock_le_effect h hclean
  unfold Cut at hc ⊢
  have hmono : ∀ p : Place, p.behind s.slot.lock = true →
      p.behind (s.effect a).slot.lock = true := by
    intro p hp
    cases p <;> simp only [Place.behind, decide_eq_true_eq] at hp ⊢ <;> omega
  refine hmono _ ?_
  have hg := goes h a hclean c
  revert hg
  generalize (s.effect a).place c = p
  intro hg
  cases hg with
  | stays => exact hc
  | waits hq hp =>
    rw [hq] at hc
    rcases hp with rfl | rfl <;> exact hc
  | interrupts _ hq | refused hq => rcases hq with hq | hq <;> rw [hq] at hc <;> exact hc
  | records hq hl => rcases hq with hq | hq <;> simp [hq, Place.behind, hl] at hc
  | fails => rfl
  | begins hq | tries hq | counts hq | reserves hq | wakes hq | takes _ hq | returns hq
  | releases _ hq => simp [hq, Place.behind] at hc

/-! ## The record of the grants -/

/-- What the record of the grants says. -/
structure Ledger (s : System) : Prop where
  record : s.granted = s.ended.map Prod.fst ++ s.slot.pending.toList
  nodup : s.granted.Nodup
  past : ∀ w ∈ s.granted, w ∉ s.slot.waiters ∧ ((s.place w).without = true ∨ (s.place w).had = true)
  complete : ∀ w, (s.slot.waiter w).state = .granted → w ∈ s.granted
  taken : ∀ w, (w, Ending.taken) ∈ s.ended → (s.place w).had = true
  lost : ∀ w e, (w, e) ∈ s.ended → e ≠ .taken → s.Out w
  handled : s.Handled

theorem ledger_start : Ledger start where
  record := rfl
  nodup := List.nodup_nil
  past := by simp [start]
  complete := by simp [start, WriterLock.new]
  taken := by simp [start]
  lost := by simp [start]
  handled := by simp [Handled, start, WriterLock.new]

theorem had_of_goes {v : Nat} {p : Place} (hg : Goes a s v p) (hv : (s.place v).had = true) :
    p.had = true := by
  cases hg with
  | stays => exact hv
  | releases => rfl
  | fails hact =>
    revert hv hact
    cases s.place v <;> simp [Place.had, Place.active]
  | begins hq | tries hq | counts hq | waits hq | reserves hq | wakes hq | takes _ hq
  | returns hq => simp [hq, Place.had] at hv
  | interrupts _ hq | records hq | refused hq =>
    rcases hq with hq | hq <;> simp [hq, Place.had] at hv

theorem without_of_waiting {p : Place} (h : p.waiting = true) : p.without = true := by
  cases p <;> simp_all [Place.waiting, Place.without]

theorem without_or_had_of_goes {v : Nat} {p : Place} (hg : Goes a s v p)
    (hv : (s.place v).without = true ∨ (s.place v).had = true) :
    p.without = true ∨ p.had = true := by
  rcases hv with hv | hv
  · exact (hg.without_or hv).imp_right fun ⟨_, _, hp⟩ => hp
  · exact Or.inr (had_of_goes hg hv)

/-- How the pending grant of `w` ended shows in its call. -/
theorem Ended.shows (h : Core s) (hclean : ¬ s.StaleGiveBack a) {w : Nat}
    (hw : s.slot.pending = some w) (he : Ended a s (s.effect a) w) :
    (endingOf a = .taken → ((s.effect a).place w).had = true) ∧
    (endingOf a ≠ .taken → Out (s.effect a) w) := by
  have hwithout : endingOf a ≠ .taken → ((s.effect a).place w).without = true := fun hne => by
    rcases (goes h a hclean w).without_or (without_of_waiting (h.pending w hw).2.2) with hp | hp
    · exact hp
    · exact absurd (by rw [hp.1]; rfl) hne
  rcases he with ⟨ha, hp⟩ | ⟨ha, hst, -⟩ | ⟨ha, hst⟩
  · exact ⟨fun _ => by rw [hp]; rfl, fun hne => absurd ha hne⟩
  · exact ⟨fun he => absurd (ha.symm.trans he) (by simp), fun hne => ⟨Or.inl hst, hwithout hne⟩⟩
  · exact ⟨fun he => absurd (ha.symm.trans he) (by simp), fun hne => ⟨Or.inr hst, hwithout hne⟩⟩

theorem record_effect (s : System) (a : Act) :
    (s.effect a).granted = s.granted ∧ (s.effect a).ended = s.ended := by
  have hbegin : ∀ c me p, (s.begin c me p).granted = s.granted ∧
      (s.begin c me p).ended = s.ended := fun c me p => by
    unfold System.begin
    split_ifs <;> exact ⟨rfl, rfl⟩
  have hsettle : ∀ c p r, (s.settle c p r).granted = s.granted ∧
      (s.settle c p r).ended = s.ended := fun c p r => by
    rcases r with _ | _ <;> exact ⟨rfl, rfl⟩
  cases a <;> unfold effect <;> dsimp only <;> repeat' split
  all_goals first | exact ⟨rfl, rfl⟩ | exact hbegin _ _ _ | exact hsettle _ _ _

/-- (PROVED) A step keeps the record. -/
theorem ledger_step (h : Inv s) (hs : Ledger s) (hclean : ¬ s.StaleGiveBack a) :
    Ledger (s.step a) := by
  have ht := turn h.core a hclean
  have hcore := (inv_effect h a hclean).core
  obtain ⟨hgranted, hended⟩ := record_effect s a
  have hpast : ∀ w ∈ s.granted, w ∉ (s.effect a).slot.waiters ∧
      (((s.effect a).place w).without = true ∨ ((s.effect a).place w).had = true) := by
    intro w hw
    obtain ⟨hq, hpl⟩ := hs.past w hw
    refine ⟨fun hq' => ?_, without_or_had_of_goes (goes h.core a hclean w) hpl⟩
    rcases ht.queued w hq' with hq' | ⟨since, harr⟩
    · exact hq hq'
    · simp [harr, Place.without, Place.had] at hpl
  have htaken : ∀ w, (w, Ending.taken) ∈ s.ended → ((s.effect a).place w).had = true := fun w hw =>
    had_of_goes (goes h.core a hclean w) (hs.taken w hw)
  have hlost : ∀ w e, (w, e) ∈ s.ended → e ≠ .taken → Out (s.effect a) w := fun w e hw he =>
    out_effect h.core hclean (hs.lost w e hw he)
  unfold step note
  split_ifs with hpend
  · -- no grant was made or came to its end
    refine ⟨?_, ?_, ?_, fun w hw => ?_, ?_, ?_, ht.handled hs.handled⟩
    · rw [hgranted, hended, hpend]
      exact hs.record
    · rw [hgranted]
      exact hs.nodup
    · rw [hgranted]
      exact hpast
    · rw [hgranted]
      rcases ht.granted w hw with hw | hw
      · exact hs.complete w hw
      · rw [hpend] at hw
        exact hs.complete w (h.core.pending w hw).1
    · rw [hended]
      exact htaken
    · rw [hended]
      exact hlost
  · have hmade : ∀ v ∈ (s.effect a).slot.pending.toList, v ∈ s.slot.waiters := by
      intro v hv
      have hv : (s.effect a).slot.pending = some v := by simpa using hv
      rcases ht.made v hv with hp | hq
      · exact absurd (hv.trans hp.symm) hpend
      · exact hq
    have hfinal : ∀ w e, (w, e) ∈ s.slot.pending.toList.map (fun w => (w, endingOf a)) →
        e = endingOf a ∧ (endingOf a = .taken → ((s.effect a).place w).had = true) ∧
          (endingOf a ≠ .taken → Out (s.effect a) w) := by
      intro w e hw
      obtain ⟨v, hv, heq⟩ := List.mem_map.1 hw
      obtain ⟨rfl, rfl⟩ := Prod.mk.inj heq
      have hv : s.slot.pending = some v := by simpa using hv
      rcases ht.ended v hv with hp | ⟨-, he⟩
      · exact absurd (hp.trans hv.symm) hpend
      · exact ⟨rfl, he.shows h.core hclean hv⟩
    refine ⟨?_, ?_, fun w hw => ?_, fun w hw => ?_, fun w hw => ?_, fun w e hw hne => ?_,
      ht.handled hs.handled⟩
    · dsimp only
      rw [hgranted, hended, hs.record, List.map_append, List.map_map]
      simp [Function.comp_def]
    · dsimp only
      rw [hgranted, List.nodup_append]
      refine ⟨hs.nodup, ?_, fun w hw v hv => ?_⟩
      · cases (s.effect a).slot.pending <;> simp
      · rintro rfl
        exact (hs.past w hw).1 (hmade w hv)
    · dsimp only at hw
      rw [hgranted] at hw
      rcases List.mem_append.1 hw with hw | hw
      · exact hpast w hw
      · have hp : (s.effect a).slot.pending = some w := by simpa using hw
        exact ⟨(hcore.sound.pending w hp).1,
          Or.inl (without_of_waiting (hcore.pending w hp).2.2)⟩
    · dsimp only
      rw [hgranted]
      rcases ht.granted w hw with hw | hw
      · exact List.mem_append_left _ (hs.complete w hw)
      · exact List.mem_append_right _ (by simp [hw])
    · dsimp only at hw
      rw [hended] at hw
      rcases List.mem_append.1 hw with hw | hw
      · exact htaken w hw
      · obtain ⟨he, htk, -⟩ := hfinal w _ hw
        exact htk he.symm
    · dsimp only at hw
      rw [hended] at hw
      rcases List.mem_append.1 hw with hw | hw
      · exact hlost w e hw hne
      · obtain ⟨he, -, hout⟩ := hfinal w e hw
        exact hout (he ▸ hne)

/-! ## Runs without interrupts -/

/-- What a run without interrupts keeps. -/
structure Calm (s : System) : Prop where
  inv : Inv s
  ledger : Ledger s
  quiet : ∀ c l got, s.place c ≠ .interrupted l got

theorem calm_start : Calm start := ⟨inv_start, ledger_start, by simp [start]⟩

theorem Calm.clean (h : Calm s) (a : Act) : ¬ s.StaleGiveBack a := by
  cases a <;> simp only [StaleGiveBack, not_false_eq_true]
  rintro ⟨l, hq, -⟩
  exact h.quiet _ _ _ hq

theorem place_step (s : System) (a : Act) : (s.step a).place = (s.effect a).place := by
  unfold step note
  split_ifs <;> rfl

theorem slot_step (s : System) (a : Act) : (s.step a).slot = (s.effect a).slot := by
  unfold step note
  split_ifs <;> rfl

theorem calm_step (h : Calm s) (ha : ∀ c, a ≠ .interrupt c) : Calm (s.step a) where
  inv := inv_step h.inv a (h.clean a)
  ledger := ledger_step h.inv h.ledger (h.clean a)
  quiet := fun c l got hq => by
    rw [place_step] at hq
    have hg := goes h.inv.core a (h.clean a) c
    rw [hq] at hg
    generalize hp : Place.interrupted l got = p at hg
    cases hg with
    | stays => exact h.quiet c l got hp.symm
    | interrupts hint => exact ha c hint
    | begins _ hor | tries _ hor | waits _ hor | reserves _ hor | wakes _ hor =>
      rcases hor with rfl | rfl <;> cases hp
    | counts | records | refused | takes | returns | releases | fails => cases hp

theorem calm_foldl (acts : List Act) (h : Calm s) (hno : ∀ c, .interrupt c ∉ acts) :
    Calm (acts.foldl step s) := by
  induction acts generalizing s with
  | nil => exact h
  | cons a rest ih =>
    refine ih (calm_step h fun c he => hno c (by simp [he])) fun c hc => hno c ?_
    exact List.mem_cons_of_mem a hc

theorem out_foldl (acts : List Act) (h : Calm s) (hno : ∀ c, .interrupt c ∉ acts) {w : Nat}
    (hw : s.Out w ∨ s.Cut w) : Out (acts.foldl step s) w ∨ Cut (acts.foldl step s) w := by
  induction acts generalizing s with
  | nil => exact hw
  | cons a rest ih =>
    refine ih (calm_step h fun c he => hno c (by simp [he]))
      (fun c hc => hno c (List.mem_cons_of_mem a hc)) ?_
    unfold Out Cut
    rw [place_step, slot_step]
    exact hw.imp (out_effect h.inv.core (h.clean a)) (cut_effect h.inv.core (h.clean a))

/-- Call `w` is queued, or granted the slot and has not taken it, or its thread is blocked in the
    current lock or has taken it and not recorded it. -/
def Pends (s : System) (w : Nat) : Prop :=
  w ∈ s.slot.waiters ∨ s.slot.pending = some w ∨
    ∃ l, s.place w = .blocked l ∨ s.place w = .won l ∨ s.place w = .taken l

/-- (PROVED) `close` puts out every call that pends. -/
theorem out_close (h : Calm s) {w : Nat} (hw : s.Pends w) :
    Out (s.step .close) w ∨ Cut (s.step .close) w := by
  obtain ⟨slot, heq, hcl⟩ := close_spec h.inv.core
  have heff : s.effect .close = s.setSlot slot := by
    unfold effect
    dsimp only
    rw [heq]
  unfold Out Cut
  rw [place_step, slot_step, heff]
  rcases hw with hw | hw | ⟨l, hw⟩
  · obtain ⟨-, since, hq⟩ := h.inv.core.queued w hw
    exact Or.inl ⟨Or.inr (hcl.told w (Or.inl hw)), by simp [setSlot, hq, Place.without]⟩
  · exact Or.inl ⟨Or.inr (hcl.told w (Or.inr hw)),
      without_of_waiting (h.inv.core.pending w hw).2.2⟩
  · refine Or.inr ?_
    have hle : l ≤ s.slot.lock := h.inv.core.older w l (by rcases hw with hw | hw | hw <;> rw [hw] <;> rfl)
    have hlt : l < slot.lock := by
      have := hcl.lock
      omega
    rcases hw with hw | hw | hw <;> simp [setSlot, hw, Place.behind, hlt]

theorem not_queued_of_out (h : Calm s) {w : Nat} (hw : s.Out w ∨ s.Cut w) :
    w ∉ s.slot.waiters := fun hq => by
  obtain ⟨-, since, hpl⟩ := h.inv.core.queued w hq
  rcases hw with hw | hw
  · exact (hw.apart h.inv.core).1 hq
  · simp [Cut, hpl, Place.behind] at hw

/-- (PROVED) Nobody is queued on a free slot while no thread is in `acquire`. -/
theorem Calm.nobody_queued (h : Calm s) (hidle : ∀ c, (s.place c).acquiring = false)
    (hfree : s.slot.locked s.slot.lock = false) : s.slot.waiters = [] := by
  by_contra hq
  obtain ⟨counted, hn, hmem⟩ := h.inv.core.sync
  have hempty : counted = ∅ := by
    refine Finset.eq_empty_of_forall_notMem fun c hc => ?_
    have hcounted := (hmem c).1 hc
    have := hidle c
    revert hcounted this
    cases s.place c <;> simp [Place.counted, Place.acquiring]
  exact h.inv.free hfree hq (by rw [hn, hempty]; rfl)

/-- (PROVED) No waiter and no grant is lost, in any run without interrupts: on a free slot nobody
    is queued once no thread is in `acquire`; every grant is noted once, is in flight on the locked
    slot to a call still in `areserve`, or has ended once, with the call having had the slot exactly
    when it took the grant; a locked slot is always somebody's; and what pends at a `close` is
    never queued again and never gets the slot. -/
theorem nobody_lost (acts : List Act) (hno : ∀ c, .interrupt c ∉ acts) :
    ((∀ c, ((run acts).place c).acquiring = false) →
      (run acts).slot.locked (run acts).slot.lock = false → (run acts).slot.waiters = []) ∧
    ((run acts).granted = (run acts).ended.map Prod.fst ++ (run acts).slot.pending.toList ∧
      (run acts).granted.Nodup ∧
      (∀ w, ((run acts).slot.waiter w).state = .granted → w ∈ (run acts).granted) ∧
      (∀ w, (run acts).slot.pending = some w →
        (run acts).slot.locked (run acts).slot.lock = true ∧
          ((run acts).place w).waiting = true) ∧
      (∀ w e, (w, e) ∈ (run acts).ended → (((run acts).place w).had = true ↔ e = .taken)) ∧
      ((run acts).slot.locked (run acts).slot.lock = true →
        ∃ c, (run acts).Natively (run acts).slot.lock c)) ∧
    ∀ before after, acts = before ++ .close :: after → ∀ w, (run before).Pends w →
      w ∉ (run acts).slot.waiters ∧ ((run acts).place w).had = false := by
  have h : Calm (run acts) := calm_foldl acts calm_start hno
  refine ⟨h.nobody_queued, ⟨h.ledger.record, h.ledger.nodup, h.ledger.complete, fun w hw => ?_,
    fun w e hw => ⟨fun hhad => ?_, ?_⟩, h.ledger.handled⟩, fun before after heq w hw => ?_⟩
  · exact ⟨h.inv.core.locked _ w (Or.inr ⟨rfl, Or.inr hw⟩), (h.inv.core.pending w hw).2.2⟩
  · by_contra hne
    have := (h.ledger.lost w e hw hne).not_had
    rw [hhad] at this
    cases this
  · rintro rfl
    exact h.ledger.taken w hw
  · subst heq
    have hbefore : Calm (run before) := calm_foldl before calm_start fun c hc =>
      hno c (List.mem_append_left _ hc)
    have hclosed := calm_step hbefore (a := .close) fun c => by simp
    have hrun : run (before ++ .close :: after) = after.foldl step ((run before).step .close) := by
      rw [run, List.foldl_append]
      rfl
    have hout := out_foldl after hclosed
      (fun c hc => hno c (List.mem_append_right _ (List.mem_cons_of_mem _ hc)))
      (out_close hbefore hw)
    rw [← hrun] at hout
    exact ⟨not_queued_of_out h hout, hout.elim Out.not_had Cut.not_had⟩

/-- Two coroutines queue behind a thread; the first is granted the slot and cancelled, the second
    is granted it next, and `close` comes before it wakes. -/
def passedRun : List Act :=
  [.startAcquire 1 1, .tryFast 1, .heldBy 1, .startReserve 2 2, .reserve 2 0, .startReserve 3 3,
    .reserve 3 0, .release 1, .cancelFuture 2, .raiseAwait 2 false, .passOn 2, .close, .runWakeUp 3,
    .resume 3, .finish 3, .releaseIfOwned 3]

theorem nobody_lost_passedRun :
    (run passedRun).ended = [(2, .passedOn), (3, .closed)] ∧
      ((run passedRun).granted =
        (run passedRun).ended.map Prod.fst ++ (run passedRun).slot.pending.toList) :=
  ⟨by decide, (nobody_lost passedRun (by simp [passedRun])).2.1.1⟩

end System

end Virtuals.WriteSlot
