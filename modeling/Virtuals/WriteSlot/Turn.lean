/-
  What one step can do to the lock, the pending grant, the waiters and the places.

  `Deals` is what the guarded sections that take back, rescue or pass on the slot share; `Turn`
  says it of every step, and `Goes` is the way of a call through its body. The properties that
  follow are read off these and never open a step again.
-/
import Virtuals.WriteSlot.Steps

namespace Virtuals.WriteSlot

namespace WriterLock

/-! ## Guarded sections -/

/-- What a section may do to the grants: end one of those in `mine`, and grant the slot to a
    queued waiter. -/
structure Deals (mine : Nat → Prop) (s t : WriterLock) : Prop where
  lock : t.lock = s.lock
  queued : t.waiters ⊆ s.waiters
  apart : ∀ v, v ∉ s.waiters → s.pending ≠ some v → t.waiter v = s.waiter v
  made : ∀ v, t.pending = some v → s.pending = some v ∨ v ∈ s.waiters
  ended : ∀ w, s.pending = some w → t.pending = some w ∧ t.waiter w = s.waiter w ∨
    t.pending ≠ some w ∧ (t.waiter w).state = .abandoned ∧ mine w
  granted : ∀ v, (t.waiter v).state = .granted → (s.waiter v).state = .granted ∨
    t.pending = some v

/-- A lock left locked is in handoff. -/
def Settled (s : WriterLock) : Prop := s.locked s.lock = true → s.pending.isSome

/-- What the sections rely on. -/
structure Sound (s : WriterLock) : Prop where
  nodup : s.waiters.Nodup
  pending : ∀ w, s.pending = some w →
    w ∉ s.waiters ∧ (s.waiter w).lock = some s.lock ∧ s.locked s.lock = true

/-- A grant that cannot be used: its waiter's loop has closed. -/
def Dead (s : WriterLock) (w : Nat) : Prop := s.loopClosed (s.waiter w).loop = true

variable {mine : Nat → Prop} {s t u : WriterLock}

theorem Deals.refl (mine : Nat → Prop) (s : WriterLock) : Deals mine s s :=
  ⟨rfl, List.Subset.refl _, fun _ _ _ => rfl, fun _ h => Or.inl h, fun _ h => Or.inl ⟨h, rfl⟩,
    fun _ h => Or.inl h⟩

/-- A section that ends no grant, after another. -/
theorem Deals.trans (h : Deals mine s t) (h' : Deals (fun _ => False) t u)
    (hsound : s.Sound) : Deals mine s u where
  lock := h'.lock.trans h.lock
  queued := fun _ hv => h.queued (h'.queued hv)
  apart := fun v hq hp => by
    have hp' : t.pending ≠ some v := fun hv => (h.made v hv).elim hp hq
    rw [h'.apart v (fun hv => hq (h.queued hv)) hp', h.apart v hq hp]
  made := fun v hv => by
    rcases h'.made v hv with hv | hv
    · exact h.made v hv
    · exact Or.inr (h.queued hv)
  ended := fun w hw => by
    have hq : w ∉ t.waiters := fun hv => (hsound.pending w hw).1 (h.queued hv)
    rcases h.ended w hw with ⟨hp, heq⟩ | ⟨hp, hst, hm⟩
    · rcases h'.ended w hp with ⟨hp', heq'⟩ | ⟨-, -, hf⟩
      · exact Or.inl ⟨hp', heq'.trans heq⟩
      · exact hf.elim
    · refine Or.inr ⟨fun hp' => (h'.made w hp').elim hp hq, ?_, hm⟩
      rw [h'.apart w hq hp, hst]
  granted := fun v hv => by
    rcases h'.granted v hv with hv | hv
    · rcases h.granted v hv with hv | hv
      · exact Or.inl hv
      · rcases h'.ended v hv with ⟨hp, -⟩ | ⟨-, -, hf⟩
        · exact Or.inr hp
        · exact hf.elim
    · exact Or.inr hv

theorem Passed.settled (h : Passed s t) : t.Settled := fun hl => by
  rcases h.outcome with ⟨w, -, -, hp, -⟩ | ⟨-, heq, -⟩
  · simp [hp]
  · rw [heq, h.lock, Function.update_self] at hl
    cases hl

theorem Passed.granted (h : Passed s t) {v : Nat} (hv : (t.waiter v).state = .granted) :
    (s.waiter v).state = .granted ∨ t.pending = some v := by
  by_cases hq : v ∈ s.waiters
  · by_cases hq' : v ∈ t.waiters
    · exact Or.inl (h.kept v (Or.inr hq') ▸ hv)
    · rcases h.left v hq hq' with he | ⟨-, he⟩
      · exact absurd (he.symm.trans hv) (by simp)
      · exact Or.inr he
  · exact Or.inl (h.kept v (Or.inl hq) ▸ hv)

/-- A held slot with no grant in flight, passed on. -/
theorem Passed.deals (h : Passed s t) (hp : s.pending = none) (mine : Nat → Prop) :
    Deals mine s t where
  lock := h.lock
  queued := h.suffix.subset
  apart := fun v hv _ => h.kept v (Or.inl hv)
  made := fun v hv => by
    rcases h.outcome with ⟨w, hw, -, hpw, -⟩ | ⟨heq, -⟩
    · obtain rfl := Option.some.inj (hpw.symm.trans hv)
      exact Or.inr hw
    · exact Or.inl (heq.symm.trans hv)
  ended := fun w hw => absurd (hp.symm.trans hw) (by simp)
  granted := fun _ hv => h.granted hv

theorem Passed.sound (h : Passed s t) (hnd : s.waiters.Nodup) (hl : s.locked s.lock = true)
    (hp : s.pending = none) : t.Sound where
  nodup := h.suffix.nodup hnd
  pending := fun w hw => by
    rcases h.outcome with ⟨v, -, hq, hpv, heq, -, hlk⟩ | ⟨heq, -⟩
    · obtain rfl := Option.some.inj (hpv.symm.trans hw)
      exact ⟨hq, hlk.trans (congrArg some h.lock.symm), by rw [heq, h.lock]; exact hl⟩
    · exact absurd (hp.symm.trans (heq.symm.trans hw)) (by simp)

/-- A grant taken back, and the slot passed on. -/
theorem Passed.deals_of_end {w : Nat}
    (h : Passed { s.setState w .abandoned with pending := none } t) (hw : s.pending = some w)
    (hq : w ∉ s.waiters) (hm : mine w) : Deals mine s t := by
  have hother : ∀ v, v ≠ w → (s.setState w .abandoned).waiter v = s.waiter v := fun v hv => by
    simp [setState, setWaiter, hv]
  have hself : ((s.setState w .abandoned).waiter w).state = .abandoned := by
    simp [setState, setWaiter]
  have hd := h.deals rfl mine
  have hend : (t.waiter w).state = .abandoned := by
    rw [hd.apart w hq (by simp)]
    exact hself
  refine ⟨hd.lock, hd.queued, fun v hv hp => ?_, fun v hv => ?_, fun v hv => ?_, fun v hv => ?_⟩
  · have hvw : v ≠ w := fun he => hp (he ▸ hw)
    rw [hd.apart v hv (by simp)]
    exact hother v hvw
  · exact (hd.made v hv).elim (fun hv => by cases hv) Or.inr
  · obtain rfl := Option.some.inj (hw.symm.trans hv)
    exact Or.inr ⟨fun hp => (hd.made w hp).elim (fun hv => by cases hv) hq, hend, hm⟩
  · by_cases hvw : v = w
    · subst hvw
      exact absurd (hend.symm.trans hv) (by simp)
    · exact (hd.granted v hv).imp_left fun hv => by rw [← hother v hvw]; exact hv

theorem reclaim_deals (h : s.Sound) : ∃ t, s.reclaimDeadPending = .ok t ∧ Deals s.Dead s t ∧
    t.Sound ∧ (t = s ∨ t.Settled) := by
  unfold reclaimDeadPending
  rcases hw : s.pending with _ | w
  · exact ⟨s, rfl, Deals.refl _ s, h, Or.inl rfl⟩
  obtain ⟨hq, hlk, hl⟩ := h.pending w hw
  dsimp only
  split_ifs with hdead hlock
  · obtain ⟨t, heq, hp⟩ := releaseLocked_spec
      (s := { s.setState w .abandoned with pending := none }) h.nodup hl
    exact ⟨t, heq, hp.deals_of_end hw hq hdead.2, hp.sound h.nodup hl rfl, Or.inr hp.settled⟩
  · refine absurd ?_ hlock
    simp [setState, setWaiter, hlk]
  · exact ⟨s, rfl, Deals.refl _ s, h, Or.inl rfl⟩

theorem rescue_deals (h : s.Sound) : ∃ t, s.rescueQueue = .ok t ∧
    Deals (fun _ => False) s t ∧ (t = s ∨ t.Settled) := by
  unfold rescueQueue tryLock
  by_cases hq : s.waiters ≠ []
  swap
  · exact ⟨s, if_neg hq, Deals.refl _ s, Or.inl rfl⟩
  rw [if_pos hq]
  by_cases hl : s.locked s.lock = true
  · exact ⟨s, by simp [hl], Deals.refl _ s, Or.inl rfl⟩
  · have hpend : s.pending = none := by
      rcases hp : s.pending with _ | w
      · rfl
      · exact absurd (h.pending w hp).2.2 hl
    obtain ⟨t, heq, hp⟩ := handOff_spec
      (s := { s with locked := Function.update s.locked s.lock true }) h.nodup (by simp)
    refine ⟨t, by simp only [hl]; exact heq, ?_, Or.inr hp.settled⟩
    have hd := hp.deals hpend (fun _ => False)
    exact ⟨hd.lock, hd.queued, hd.apart, hd.made, hd.ended, hd.granted⟩

/-- A section of a thread that stops waiting: reclaim, then rescue. -/
theorem giveUp_deals (h : s.Sound) : ∃ t, s.giveUp = .ok t ∧ Deals s.Dead s t ∧
    (t.Settled ∨ (t.locked = s.locked ∧ t.pending = s.pending)) := by
  have h0 : Sound { s with syncWaiting := s.syncWaiting - 1 } := ⟨h.nodup, h.pending⟩
  obtain ⟨t, heq, hd, hs, ht⟩ := reclaim_deals h0
  obtain ⟨u, heq', hd', hu⟩ := rescue_deals hs
  have hd0 := hd.trans hd' h0
  refine ⟨u, by simp only [giveUp, heq]; exact heq', ?_, ?_⟩
  · exact ⟨hd0.lock, hd0.queued, hd0.apart, hd0.made, hd0.ended, hd0.granted⟩
  · rcases hu with rfl | hu
    · rcases ht with rfl | ht
      · exact Or.inr ⟨rfl, rfl⟩
      · exact Or.inl ht
    · exact Or.inl hu

/-- `_held_by` records exactly the current lock. -/
theorem heldBy_iff {me hold l : Nat} {waited held : Bool}
    (h : s.heldBy me hold l waited = .ok (t, held)) : held = true ↔ l = s.lock := by
  unfold heldBy at h
  by_cases hl : l = s.lock
  · rcases waited with _ | _ <;> simp [hl] at h <;> simp [hl, ← h.2]
  · rcases waited with _ | _
    · simp only [Bool.false_eq_true, if_false, ne_eq, hl, not_false_eq_true, if_true] at h
      simp [hl, ← (Prod.mk.inj (Except.ok.inj h)).2]
    · simp only [if_true, ne_eq, hl, not_false_eq_true] at h
      rcases hr : WriterLock.rescueQueue { s with syncWaiting := s.syncWaiting - 1 } with e | u
      · rw [hr] at h
        cases h
      · rw [hr] at h
        simp [hl, ← (Prod.mk.inj (Except.ok.inj h)).2]

end WriterLock

/-! ## Steps -/

/-- The call a step carries, if it carries one. -/
def Act.call : Act → Option Nat
  | .startAcquire c _ | .tryFast c | .count c | .win c | .lapse c | .interrupt c | .giveBack c
  | .giveUp c | .heldBy c | .releaseRefused c | .startReserve c _ | .reserve c _ | .resume c
  | .raiseAwait c _ | .passOn c | .finish c | .releaseIfOwned c | .release c => some c
  | .runWakeUp _ | .cancelFuture _ | .closeLoop _ | .close => none

/-- A call at this place has lock `l`. -/
def Place.Has (p : Place) (l : Nat) : Prop := p.holding = some l ∨ p = .owns l

namespace System

/-- Whoever locked the slot is still known. -/
def Handled (s : System) : Prop := s.slot.locked s.slot.lock = true → ∃ c, s.Natively s.slot.lock c

/-- How the pending grant of `w` came to its end in a step `a` from `s` to `t`. -/
inductive Ended (a : Act) (s t : System) (w : Nat) : Prop where
  | taken : endingOf a = .taken → t.place w = .owns t.slot.lock → Ended a s t w
  | passedOn : endingOf a = .passedOn → (t.slot.waiter w).state = .abandoned →
      a = .passOn w ∨ s.slot.Dead w → Ended a s t w
  | closed : endingOf a = .closed → (t.slot.waiter w).state = .closed → Ended a s t w

/-- What a step can do. -/
structure Turn (a : Act) (s t : System) : Prop where
  lock : a ≠ .close → t.slot.lock = s.slot.lock
  place : ∀ v, a.call ≠ some v → t.place v = s.place v
  apart : ∀ v, (∀ since, s.place v ≠ .arriving since) → v ∉ s.slot.waiters →
    s.slot.pending ≠ some v → (t.slot.waiter v).state = (s.slot.waiter v).state
  made : ∀ v, t.slot.pending = some v → s.slot.pending = some v ∨ v ∈ s.slot.waiters
  ended : ∀ w, s.slot.pending = some w → t.slot.pending = some w ∨
    t.slot.pending ≠ some w ∧ Ended a s t w
  granted : ∀ v, (t.slot.waiter v).state = .granted → (s.slot.waiter v).state = .granted ∨
    t.slot.pending = some v
  queued : ∀ v ∈ t.slot.waiters, v ∈ s.slot.waiters ∨ ∃ since, s.place v = .arriving since
  handled : s.Handled → t.Handled

variable {s : System} {a : Act}

theorem Core.sound (h : Core s) : s.slot.Sound where
  nodup := h.nodup
  pending := fun w hw => by
    obtain ⟨hst, hlk, -⟩ := h.pending w hw
    exact ⟨fun hq => by simp [(h.queued w hq).1] at hst, hlk, h.locked _ w (Or.inr ⟨rfl, Or.inr hw⟩)⟩

/-- (PROVED) A call that moves after a section which deals: who has the lock stays known when the
    section settled it, or the call has it now, or had not and the lock stayed as it was. -/
theorem Turn.of_deals (mine : Nat → Prop) {slot : WriterLock} {c : Nat} {p : Place}
    (hcall : a.call = some c) (hend : endingOf a = .passedOn)
    (hd : WriterLock.Deals mine s.slot slot)
    (hm : ∀ w, mine w → a = .passOn w ∨ s.slot.Dead w)
    (hh : slot.Settled ∨ p.Has s.slot.lock ∨
      (slot.locked s.slot.lock = s.slot.locked s.slot.lock ∧ slot.pending = s.slot.pending ∧
        ¬ (s.place c).Has s.slot.lock)) :
    Turn a s ((s.setSlot slot).move c p) where
  lock := fun _ => hd.lock
  place := fun v hv => Function.update_of_ne (fun he : v = c => hv (he ▸ hcall)) _ _
  apart := fun v _ hq hp => by
    change (slot.waiter v).state = _
    rw [hd.apart v hq hp]
  made := hd.made
  ended := fun w hw => (hd.ended w hw).imp And.left fun ⟨hp, hst, hw⟩ =>
    ⟨hp, .passedOn hend hst (hm w hw)⟩
  granted := hd.granted
  queued := fun v hv => Or.inl (hd.queued hv)
  handled := fun h hl => by
    change ∃ d, Natively _ slot.lock d
    have hlock : slot.lock = s.slot.lock := hd.lock
    have hself : ((s.setSlot slot).move c p).place c = p := Function.update_self _ _ _
    rcases hh with hset | hp | ⟨hlk, hpend, hnot⟩
    · obtain ⟨w, hw⟩ := Option.isSome_iff_exists.1 (hset hl)
      exact ⟨w, Or.inr ⟨rfl, Or.inr hw⟩⟩
    · refine ⟨c, ?_⟩
      rw [← hlock] at hp
      exact hp.imp (fun hp => by rw [hself]; exact hp)
        fun hp => ⟨rfl, Or.inl (by rw [Owns, hself]; exact hp)⟩
    · have hl : s.slot.locked s.slot.lock = true := by
        rw [← hlk, ← hlock]
        exact hl
      obtain ⟨d, hd⟩ := h hl
      refine ⟨d, ?_⟩
      by_cases hdc : d = c
      · subst hdc
        rcases hd with hd | ⟨-, hd | hd⟩
        · exact absurd (Or.inl hd) hnot
        · exact absurd (Or.inr hd) hnot
        · exact Or.inr ⟨rfl, Or.inr (hpend.trans hd)⟩
      · have hother : ((s.setSlot slot).move c p).place d = s.place d :=
          Function.update_of_ne hdc _ _
        unfold Natively Owns at hd ⊢
        rw [hother]
        change (s.place d).holding = some slot.lock ∨ slot.lock = slot.lock ∧
          (s.place d = .owns slot.lock ∨ slot.pending = some d)
        rw [hlock, hpend]
        exact hd

/-- A call that moves over an unchanged slot. -/
theorem Turn.of_move {c : Nat} {p : Place} (hcall : a.call = some c)
    (hend : endingOf a = .passedOn)
    (hh : (s.place c).Has s.slot.lock → p.Has s.slot.lock) : Turn a s (s.move c p) := by
  by_cases hp : p.Has s.slot.lock
  · exact Turn.of_deals (fun _ => False) hcall hend (.refl _ s.slot) (fun _ hf => hf.elim)
      (Or.inr (Or.inl hp))
  · exact Turn.of_deals (fun _ => False) hcall hend (.refl _ s.slot) (fun _ hf => hf.elim)
      (Or.inr (Or.inr ⟨rfl, rfl, fun hc => hp (hh hc)⟩))

/-- A step that is not enabled, or that only runs a future or a loop. -/
theorem Turn.of_quiet {t : WriterLock} (hlock : t.lock = s.slot.lock)
    (hqueue : t.waiters = s.slot.waiters) (hlocked : t.locked = s.slot.locked) (hpend : t.pending = s.slot.pending)
    (hstate : ∀ v, (t.waiter v).state = (s.slot.waiter v).state) :
    Turn a s (s.setSlot t) where
  lock := fun _ => hlock
  place := fun _ _ => rfl
  apart := fun v _ _ _ => hstate v
  made := fun v hv => Or.inl (hpend.symm.trans hv)
  ended := fun w hw => Or.inl (hpend.trans hw)
  granted := fun v hv => Or.inl ((hstate v).symm.trans hv)
  queued := fun v hv => Or.inl (hqueue ▸ hv)
  handled := fun h hl => by
    obtain ⟨c, hc⟩ := h (by rw [← hlocked, ← hlock]; exact hl)
    refine ⟨c, ?_⟩
    change (s.place c).holding = some t.lock ∨ t.lock = t.lock ∧
      (s.place c = .owns t.lock ∨ t.pending = some c)
    rw [hlock, hpend]
    exact hc

theorem Turn.refl (a : Act) (s : System) : Turn a s s :=
  Turn.of_quiet (t := s.slot) rfl rfl rfl rfl fun _ => rfl

theorem turn_begin (c me : Nat) (p : Place) (hcall : a.call = some c) : Turn a s (s.begin c me p) := by
  unfold System.begin
  split_ifs with hc
  swap
  · exact .refl a s
  refine ⟨fun _ => rfl, fun v hv => Function.update_of_ne (fun he : v = c => hv (he ▸ hcall)) _ _,
    fun _ _ _ _ => rfl, fun _ h => Or.inl h, fun _ h => Or.inl h, fun _ h => Or.inl h,
    fun _ hv => Or.inl hv, fun h hl => ?_⟩
  obtain ⟨d, hd⟩ := h hl
  refine ⟨d, ?_⟩
  by_cases hdc : d = c
  · subst hdc
    rcases hd with hd | ⟨-, hd | hd⟩
    · rw [hc.1] at hd
      cases hd
    · cases hc.1.symm.trans hd
    · exact Or.inr ⟨rfl, Or.inr hd⟩
  · unfold Natively Owns at hd ⊢
    dsimp only
    rw [Function.update_of_ne hdc]
    exact hd

/-- A lock taken. -/
theorem turn_takeLock {c l : Nat} {p : Place} (hcall : a.call = some c)
    (hend : endingOf a = .passedOn) (hp : p.holding = some l)
    (hq : (s.place c).holding = none ∧ ∀ l, s.place c ≠ .owns l) :
    Turn a s ((s.setSlot { s.slot with locked := Function.update s.slot.locked l true }).move c p) := by
  refine Turn.of_deals (fun _ => False) hcall hend
    ⟨rfl, fun _ hv => hv, fun _ _ _ => rfl, fun _ h => Or.inl h, fun _ h => Or.inl ⟨h, rfl⟩,
      fun _ h => Or.inl h⟩ (fun _ hf => hf.elim) ?_
  by_cases hl : l = s.slot.lock
  · exact Or.inr (Or.inl (Or.inl (hl ▸ hp)))
  · refine Or.inr (Or.inr ⟨Function.update_of_ne (Ne.symm hl) _ _, rfl, ?_⟩)
    rintro (hc | hc)
    · cases hq.1.symm.trans hc
    · exact hq.2 _ hc

theorem not_has {p : Place} {l : Nat} (h : p.holding = none ∧ ∀ l, p ≠ .owns l) : ¬ p.Has l := by
  rintro (hp | hp)
  · cases h.1.symm.trans hp
  · exact h.2 _ hp

theorem turn_tryFast (s : System) (c : Nat) : Turn (.tryFast c) s (s.effect (.tryFast c)) := by
  unfold effect
  dsimp only
  split
  · rename_i l hq
    unfold WriterLock.tryLock
    split_ifs with hl
    · exact .of_move rfl rfl fun hc => absurd (hq ▸ hc) (not_has (by simp [Place.holding]))
    · exact turn_takeLock rfl rfl rfl (by simp [hq, Place.holding])
  · exact .refl _ s

theorem turn_win (s : System) (c : Nat) : Turn (.win c) s (s.effect (.win c)) := by
  unfold effect
  dsimp only
  split
  · rename_i l hq
    unfold WriterLock.tryLock
    split_ifs with hl
    · exact .refl _ s
    · exact turn_takeLock rfl rfl rfl (by simp [hq, Place.holding])
  · exact .refl _ s

theorem turn_lapse (s : System) (c : Nat) : Turn (.lapse c) s (s.effect (.lapse c)) := by
  unfold effect
  dsimp only
  split
  · rename_i l hq
    exact .of_move rfl rfl fun hc => absurd (hq ▸ hc) (not_has (by simp [Place.holding]))
  · exact .refl _ s

theorem turn_interrupt (s : System) (c : Nat) : Turn (.interrupt c) s (s.effect (.interrupt c)) := by
  unfold effect
  dsimp only
  split
  · rename_i l hq
    exact .of_move rfl rfl fun hc => absurd (hq ▸ hc) (not_has (by simp [Place.holding]))
  · rename_i l hq
    refine .of_move rfl rfl fun hc => ?_
    rw [hq] at hc
    rcases hc with hc | hc
    · exact Or.inl hc
    · cases hc
  · exact .refl _ s

theorem turn_count (h : Core s) (c : Nat) : Turn (.count c) s (s.effect (.count c)) := by
  unfold effect
  dsimp only
  split
  · rename_i hq
    obtain ⟨slot, heq, hd, -, hset⟩ := WriterLock.reclaim_deals h.sound
    have hcount : s.slot.count =
        .ok ({ slot with syncWaiting := slot.syncWaiting + 1 }, slot.lock) := by
      simp only [WriterLock.count, heq]
      rfl
    rw [hcount]
    refine Turn.of_deals s.slot.Dead rfl rfl
      ⟨hd.lock, hd.queued, hd.apart, hd.made, hd.ended, hd.granted⟩ (fun _ => Or.inr) ?_
    rcases hset with rfl | hset
    · exact Or.inr (Or.inr ⟨rfl, rfl, hq ▸ not_has (by simp [Place.holding])⟩)
    · exact Or.inl hset
  · exact .refl _ s

/-- A thread that stops waiting without a lock. -/
theorem turn_stopWaiting (h : Core s) {c : Nat} {why : Failure} (hcall : a.call = some c)
    (hend : endingOf a = .passedOn) (hq : (s.place c).holding = none ∧ ∀ l, s.place c ≠ .owns l) :
    Turn a s (s.settle c (.failed why) s.slot.giveUp) := by
  obtain ⟨slot, heq, hd, hset⟩ := WriterLock.giveUp_deals h.sound
  rw [heq]
  refine Turn.of_deals _ hcall hend hd (fun _ => Or.inr) ?_
  rcases hset with hset | ⟨hl, hp⟩
  · exact Or.inl hset
  · exact Or.inr (Or.inr ⟨by rw [hl], hp, not_has hq⟩)

theorem turn_giveUp (h : Core s) (c : Nat) : Turn (.giveUp c) s (s.effect (.giveUp c)) := by
  unfold effect
  dsimp only
  split
  · rename_i l hq
    exact turn_stopWaiting h rfl rfl (by simp [hq, Place.holding])
  · exact .refl _ s

theorem Core.no_pending (h : Core s) {c : Nat} (hc : (s.place c).Has s.slot.lock) :
    s.slot.pending = none := by
  rcases hp : s.slot.pending with _ | w
  · rfl
  · have hnat : s.Natively s.slot.lock c := hc.imp_right fun ho => ⟨rfl, Or.inl ho⟩
    obtain rfl := h.excl _ _ _ hnat (Or.inr ⟨rfl, Or.inr hp⟩)
    have hw := (h.pending c hp).2.2
    revert hc hw
    cases s.place c <;> simp [Place.Has, Place.holding, Place.waiting]

theorem Core.locked_of_has (h : Core s) {c : Nat} (hc : (s.place c).Has s.slot.lock) :
    s.slot.locked s.slot.lock = true :=
  h.locked _ c (hc.imp_right fun ho => ⟨rfl, Or.inl ho⟩)

/-- A call that has the slot passes it on. -/
theorem turn_pass (h : Core s) {c : Nat} {p : Place} (hcall : a.call = some c)
    (hend : endingOf a = .passedOn) (hc : (s.place c).Has s.slot.lock) {t slot : WriterLock}
    (ht : t.lock = s.slot.lock ∧ t.pending = s.slot.pending ∧ t.waiters = s.slot.waiters ∧
      t.waiter = s.slot.waiter) (hp : WriterLock.Passed t slot) :
    Turn a s ((s.setSlot slot).move c p) := by
  obtain ⟨hlock, hpend, hqueue, hwaiter⟩ := ht
  have hd := hp.deals (hpend.trans (h.no_pending hc)) (fun _ => False)
  refine Turn.of_deals (fun _ => False) hcall hend ?_ (fun _ hf => hf.elim)
    (Or.inl hp.settled)
  refine ⟨hd.lock.trans hlock, ?_, fun v hq hv => ?_, fun v hv => ?_, fun v hv => ?_,
    fun v hv => ?_⟩
  · rw [← hqueue]
    exact hd.queued
  · rw [← hqueue] at hq
    rw [← hpend] at hv
    rw [hd.apart v hq hv, hwaiter]
  · rw [← hpend, ← hqueue]
    exact hd.made v hv
  · rw [h.no_pending hc] at hv
    cases hv
  · rw [← hwaiter]
    exact hd.granted v hv

theorem turn_giveBack (h : Core s) (c : Nat) (hclean : ¬ s.StaleGiveBack (.giveBack c)) :
    Turn (.giveBack c) s (s.effect (.giveBack c)) := by
  unfold effect
  dsimp only
  split
  · rename_i l got hq
    rcases got with _ | _
    · exact turn_stopWaiting h rfl rfl (by simp [hq, Place.holding])
    · have hl : l = s.slot.lock := by
        by_contra hne
        exact hclean ⟨l, hq, hne⟩
      subst hl
      have hc : (s.place c).Has s.slot.lock := Or.inl (by rw [hq]; rfl)
      obtain ⟨slot, heq, hp⟩ := WriterLock.releaseLocked_spec
        (s := { s.slot with syncWaiting := s.slot.syncWaiting - 1 }) h.nodup (h.locked_of_has hc)
      rw [show s.slot.giveBack true = .ok slot from heq]
      exact turn_pass h rfl rfl hc (t := { s.slot with syncWaiting := s.slot.syncWaiting - 1 })
        ⟨rfl, rfl, rfl, rfl⟩ hp
  · exact .refl _ s

/-- `_held_by` on the current lock. -/
theorem turn_own {c : Nat} {o d : Option Nat} {n : Int} (hcall : a.call = some c)
    (hend : endingOf a = .passedOn) :
    Turn a s ((s.setSlot { s.slot with owner := o, hold := d, syncWaiting := n }).move c
      (.owns s.slot.lock)) :=
  Turn.of_deals (fun _ => False) hcall hend
    ⟨rfl, fun _ hv => hv, fun _ _ _ => rfl, fun _ h => Or.inl h, fun _ h => Or.inl ⟨h, rfl⟩,
      fun _ h => Or.inl h⟩ (fun _ hf => hf.elim) (Or.inr (Or.inl (Or.inr rfl)))

theorem turn_heldBy (h : Core s) (c : Nat) : Turn (.heldBy c) s (s.effect (.heldBy c)) := by
  unfold effect
  dsimp only
  split
  · rename_i l hq
    by_cases hl : l = s.slot.lock
    · subst hl
      simp only [WriterLock.heldBy, if_true, ne_eq, not_true_eq_false, if_false]
      exact turn_own rfl rfl
    · obtain ⟨slot, heq, hd, hset⟩ := WriterLock.rescue_deals
        (s := { s.slot with syncWaiting := s.slot.syncWaiting - 1 }) ⟨h.nodup, h.sound.pending⟩
      have hheld : s.slot.heldBy (s.caller c) c l true = .ok (slot, false) := by
        simp only [WriterLock.heldBy, if_true, ne_eq, hl, not_false_eq_true, heq]
        rfl
      rw [hheld]
      refine Turn.of_deals (fun _ => False) rfl rfl
        ⟨hd.lock, hd.queued, hd.apart, hd.made, hd.ended, hd.granted⟩ (fun _ hf => hf.elim) ?_
      rcases hset with rfl | hset
      · refine Or.inr (Or.inr ⟨rfl, rfl, ?_⟩)
        rw [hq]
        rintro (hc | hc)
        · exact hl (Option.some.inj hc)
        · cases hc
      · exact Or.inl hset
  · rename_i l hq
    by_cases hl : l = s.slot.lock
    · subst hl
      simp only [WriterLock.heldBy, Bool.false_eq_true, if_false, ne_eq, not_true_eq_false]
      exact turn_own rfl rfl
    · have hheld : s.slot.heldBy (s.caller c) c l false = .ok (s.slot, false) := by
        simp only [WriterLock.heldBy, Bool.false_eq_true, if_false, ne_eq, hl, not_false_eq_true,
          if_true]
        rfl
      rw [hheld]
      refine .of_move rfl rfl fun hc => ?_
      rw [hq] at hc
      rcases hc with hc | hc
      · exact absurd (Option.some.inj hc) hl
      · cases hc
  · exact .refl _ s

theorem turn_releaseRefused (h : Core s) (c : Nat) :
    Turn (.releaseRefused c) s (s.effect (.releaseRefused c)) := by
  unfold effect
  dsimp only
  split
  · rename_i l hq
    have hne := h.refused c l hq
    rw [WriterLock.unlock_of_locked (h.locked l c (Or.inl (by rw [hq]; rfl)))]
    refine Turn.of_deals (fun _ => False) rfl rfl
      ⟨rfl, fun _ hv => hv, fun _ _ _ => rfl, fun _ h => Or.inl h, fun _ h => Or.inl ⟨h, rfl⟩,
        fun _ h => Or.inl h⟩ (fun _ hf => hf.elim)
      (Or.inr (Or.inr ⟨Function.update_of_ne hne.symm _ _, rfl, ?_⟩))
    rw [hq]
    rintro (hc | hc)
    · exact hne (Option.some.inj hc)
    · cases hc
  · exact .refl _ s

theorem turn_reserve (h : Core s) (c loop : Nat) :
    Turn (.reserve c loop) s (s.effect (.reserve c loop)) := by
  unfold effect
  dsimp only
  split
  · rename_i since hq
    obtain ⟨slot, heq, hd, -, hset⟩ := WriterLock.reclaim_deals h.sound
    rcases reserve_cases (s.caller c) c loop heq with ⟨-, hslot⟩ | ⟨-, hslot⟩ <;> rw [hslot]
    · exact Turn.of_deals s.slot.Dead rfl rfl
        ⟨hd.lock, hd.queued, hd.apart, hd.made, hd.ended, hd.granted⟩ (fun _ => Or.inr)
        (Or.inr (Or.inl (Or.inr (congrArg Place.owns hd.lock))))
    · have h0 : Turn (.reserve c loop) s ((s.setSlot slot).move c (.awaiting since)) := by
        refine Turn.of_deals _ rfl rfl hd (fun _ => Or.inr) ?_
        rcases hset with rfl | hset
        · exact Or.inr (Or.inr ⟨rfl, rfl, hq ▸ not_has (by simp [Place.holding])⟩)
        · exact Or.inl hset
      have hother : ∀ v, v ≠ c →
          (slot.setWaiter c (.new loop)).waiter v = slot.waiter v := fun v hv => by
        simp [WriterLock.setWaiter, hv]
      exact
        { h0 with
          apart := fun v hv hq' hp => by
            have hvc : v ≠ c := fun he => hv since (he ▸ hq)
            change ((slot.setWaiter c (.new loop)).waiter v).state = _
            rw [hother v hvc]
            exact h0.apart v hv hq' hp
          ended := fun w hw => by
            have hwc : w ≠ c := fun he => h.not_pending (by rw [hq]; rfl) (he ▸ hw)
            refine (hd.ended w hw).imp And.left fun hpassed =>
              ⟨hpassed.1, .passedOn rfl ?_ (Or.inr hpassed.2.2)⟩
            change ((slot.setWaiter c (.new loop)).waiter w).state = _
            rw [hother w hwc]
            exact hpassed.2.1
          granted := fun v hv => by
            change ((slot.setWaiter c (.new loop)).waiter v).state = .granted at hv
            by_cases hvc : v = c
            · subst hvc
              simp [WriterLock.setWaiter, Waiter.new] at hv
            · rw [hother v hvc] at hv
              exact hd.granted v hv
          queued := fun v hv => by
            rcases List.mem_append.1 hv with hv | hv
            · exact Or.inl (hd.queued hv)
            · exact Or.inr ⟨since, List.mem_singleton.1 hv ▸ hq⟩ }
  · exact .refl _ s

theorem turn_future (a : Act) (w : Nat) (future : FutureState) :
    Turn a s (s.setSlot (s.slot.setWaiter w { s.slot.waiter w with future := future })) :=
  .of_quiet rfl rfl rfl rfl fun v => by by_cases hv : v = w <;> simp [WriterLock.setWaiter, hv]

theorem turn_runWakeUp (s : System) (w : Nat) : Turn (.runWakeUp w) s (s.effect (.runWakeUp w)) := by
  unfold effect
  dsimp only
  split_ifs
  · exact turn_future _ w _
  · exact .refl _ s

theorem turn_cancelFuture (s : System) (w : Nat) :
    Turn (.cancelFuture w) s (s.effect (.cancelFuture w)) := by
  unfold effect
  dsimp only
  split_ifs
  · exact turn_future _ w _
  · exact .refl _ s

theorem turn_resume (s : System) (c : Nat) : Turn (.resume c) s (s.effect (.resume c)) := by
  unfold effect
  dsimp only
  split
  · rename_i since hq
    split_ifs
    · exact .of_move rfl rfl fun hc => absurd (hq ▸ hc) (not_has (by simp [Place.holding]))
    · exact .refl _ s
  · exact .refl _ s

theorem turn_raiseAwait (s : System) (c : Nat) (timedOut : Bool) :
    Turn (.raiseAwait c timedOut) s (s.effect (.raiseAwait c timedOut)) := by
  unfold effect
  dsimp only
  split
  · rename_i since hq
    have hleave : ∀ p, Turn (.raiseAwait c timedOut) s ((s.setSlot (s.slot.leaveQueue c)).move c p) := by
      intro p
      have hnot : ¬ (s.place c).Has s.slot.lock := hq ▸ not_has (by simp [Place.holding])
      unfold WriterLock.leaveQueue
      split_ifs
      · exact Turn.of_deals (fun _ => False) rfl rfl
          ⟨rfl, fun _ hv => List.mem_of_mem_erase hv, fun _ _ _ => rfl, fun _ h => Or.inl h,
            fun _ h => Or.inl ⟨h, rfl⟩, fun _ h => Or.inl h⟩ (fun _ hf => hf.elim)
          (Or.inr (Or.inr ⟨rfl, rfl, hnot⟩))
      · exact .of_move rfl rfl fun hc => absurd hc hnot
    split_ifs <;> exact hleave _
  · exact .refl _ s

theorem turn_passOn (h : Core s) (c : Nat) : Turn (.passOn c) s (s.effect (.passOn c)) := by
  unfold effect
  dsimp only
  split
  · rename_i hq
    have hnot : ¬ (s.place c).Has s.slot.lock := hq ▸ not_has (by simp [Place.holding])
    by_cases hg : (s.slot.waiter c).state = .granted
    · have hp := h.grant c (by rw [hq]; rfl) hg
      obtain ⟨hqd, hlk, hl⟩ := h.sound.pending c hp
      obtain ⟨slot, heq, hpass⟩ := WriterLock.releaseLocked_spec
        (s := { s.slot.setState c .abandoned with pending := none }) h.nodup hl
      rw [WriterLock.passOn_of_granted hg hp hlk, heq]
      exact Turn.of_deals (fun w => w = c) rfl rfl (hpass.deals_of_end hp hqd rfl)
        (fun w hw => Or.inl (by rw [hw])) (Or.inl hpass.settled)
    · rw [show s.slot.passOn c = .ok s.slot from if_pos hg]
      exact .of_move rfl rfl fun hc => absurd hc hnot
  · exact .refl _ s

theorem turn_finish (h : Core s) (c : Nat) : Turn (.finish c) s (s.effect (.finish c)) := by
  unfold effect
  dsimp only
  split
  · rename_i since hq
    by_cases hg : (s.slot.waiter c).state = .granted
    · have hp := h.grant c (by rw [hq]; rfl) hg
      rw [WriterLock.granted_of_granted _ _ hg hp (h.pending c hp).2.1]
      have hplace : ((s.setSlot { s.slot with
          pending := none, owner := some (s.caller c), hold := some c }).move c
            (.owns s.slot.lock)).place c = .owns s.slot.lock := Function.update_self _ _ _
      refine ⟨fun _ => rfl, fun v hv => Function.update_of_ne (fun he : v = c => hv (he ▸ rfl)) _ _,
        fun _ _ _ _ => rfl, fun v hv => (by cases hv), fun w hw => Or.inr ⟨fun hw => (by cases hw), ?_⟩,
        fun _ hv => Or.inl hv, fun _ hv => Or.inl hv,
        fun _ _ => ⟨c, Or.inr ⟨rfl, Or.inl hplace⟩⟩⟩
      obtain rfl := Option.some.inj (hp.symm.trans hw)
      exact .taken rfl hplace
    · have hnot : s.slot.granted (s.caller c) c c = none := WriterLock.granted_of_not _ _ hg
      rw [hnot]
      refine ⟨fun _ => rfl, fun v hv => Function.update_of_ne (fun he : v = c => hv (he ▸ rfl)) _ _,
        fun _ _ _ _ => rfl, fun _ hv => Or.inl hv, fun _ hw => Or.inl hw, fun _ hv => Or.inl hv,
        fun _ hv => Or.inl hv, ?_⟩
      exact (Turn.of_move (a := .passOn c) rfl rfl fun hc =>
        absurd (hq ▸ hc) (not_has (by simp [Place.holding]))).handled
  · exact .refl _ s

theorem turn_releaseIfOwned (h : Core s) (c : Nat) :
    Turn (.releaseIfOwned c) s (s.effect (.releaseIfOwned c)) := by
  unfold effect
  dsimp only
  split
  · rename_i since hq
    rw [h.releaseIfOwned hq]
    exact .of_move rfl rfl fun hc => absurd (hq ▸ hc) (not_has (by simp [Place.holding]))
  · exact .refl _ s

theorem turn_release (h : Core s) (c : Nat) : Turn (.release c) s (s.effect (.release c)) := by
  unfold effect
  dsimp only
  split
  · rename_i l hq
    by_cases hl : l = s.slot.lock
    · subst hl
      have hc : (s.place c).Has s.slot.lock := Or.inr hq
      obtain ⟨slot, heq, hp⟩ := WriterLock.releaseLocked_spec
        (s := { s.slot with owner := none, hold := none }) h.nodup (h.locked_of_has hc)
      rw [WriterLock.release_of_locked (h.locked_of_has hc), heq]
      exact turn_pass h rfl rfl hc (t := { s.slot with owner := none, hold := none })
        ⟨rfl, rfl, rfl, rfl⟩ hp
    · rw [show s.slot.release l = .ok s.slot from if_pos hl]
      refine .of_move rfl rfl fun hc => ?_
      rw [hq] at hc
      rcases hc with hc | hc
      · cases hc
      · exact absurd (Place.owns.inj hc) hl
  · exact .refl _ s

theorem turn_close (h : Core s) : Turn .close s (s.effect .close) := by
  obtain ⟨slot, heq, hcl⟩ := close_spec h
  unfold effect
  dsimp only
  rw [heq]
  refine ⟨fun hne => absurd rfl hne, fun _ _ => rfl, fun v _ hq hp => ?_, fun v hv => ?_,
    fun w hw => ?_, fun v hv => ?_, fun v hv => ?_, fun _ hl => ?_⟩
  · change (slot.waiter v).state = _
    rw [hcl.kept v (not_or.2 ⟨hq, hp⟩)]
  · exact absurd (hcl.pending.symm.trans hv) (by simp)
  · refine Or.inr ⟨fun hp => ?_, .closed rfl (hcl.told w (Or.inr hw))⟩
    exact absurd (hcl.pending.symm.trans hp) (by simp)
  · by_cases hin : v ∈ s.slot.waiters ∨ s.slot.pending = some v
    · exact absurd ((hcl.told v hin).symm.trans hv) (by simp)
    · exact Or.inl ((hcl.kept v hin) ▸ hv)
  · rw [show (s.setSlot slot).slot.waiters = [] from hcl.waiters] at hv
    cases hv
  · exact absurd (hcl.fresh.symm.trans hl) (by simp)

/-- (PROVED) What a step does, clean as to interrupts. -/
theorem turn (h : Core s) (a : Act) (hclean : ¬ s.StaleGiveBack a) : Turn a s (s.effect a) := by
  cases a with
  | startAcquire c me => exact turn_begin c me _ rfl
  | tryFast c => exact turn_tryFast s c
  | count c => exact turn_count h c
  | win c => exact turn_win s c
  | lapse c => exact turn_lapse s c
  | interrupt c => exact turn_interrupt s c
  | giveBack c => exact turn_giveBack h c hclean
  | giveUp c => exact turn_giveUp h c
  | heldBy c => exact turn_heldBy h c
  | releaseRefused c => exact turn_releaseRefused h c
  | startReserve c me => exact turn_begin c me _ rfl
  | reserve c loop => exact turn_reserve h c loop
  | runWakeUp w => exact turn_runWakeUp s w
  | cancelFuture w => exact turn_cancelFuture s w
  | closeLoop loop => exact .of_quiet rfl rfl rfl rfl fun _ => rfl
  | resume c => exact turn_resume s c
  | raiseAwait c timedOut => exact turn_raiseAwait s c timedOut
  | passOn c => exact turn_passOn h c
  | finish c => exact turn_finish h c
  | releaseIfOwned c => exact turn_releaseIfOwned h c
  | release c => exact turn_release h c
  | close => exact turn_close h

/-! ## The way of a call -/

/-- Where call `v` may be after a step `a` from `s`. -/
inductive Goes (a : Act) (s : System) (v : Nat) : Place → Prop where
  | stays : Goes a s v (s.place v)
  | begins {p : Place} : s.place v = .idle →
      p = .entered s.slot.lock ∨ p = .arriving s.slot.hold → Goes a s v p
  | tries {l : Nat} {p : Place} : s.place v = .entered l → p = .taken l ∨ p = .missed → Goes a s v p
  | counts : s.place v = .missed → Goes a s v (.blocked s.slot.lock)
  | waits {l : Nat} {p : Place} : s.place v = .blocked l → p = .won l ∨ p = .lapsed l → Goes a s v p
  | interrupts {l : Nat} {got : Bool} : a = .interrupt v →
      s.place v = .blocked l ∨ s.place v = .won l → Goes a s v (.interrupted l got)
  | records {l : Nat} : s.place v = .won l ∨ s.place v = .taken l → l = s.slot.lock →
      Goes a s v (.owns l)
  | refused {l : Nat} : s.place v = .won l ∨ s.place v = .taken l → l ≠ s.slot.lock →
      Goes a s v (.refused l)
  | reserves {since : Option Nat} {p : Place} : s.place v = .arriving since →
      p = .owns s.slot.lock ∨ p = .awaiting since → Goes a s v p
  | wakes {since : Option Nat} {p : Place} : s.place v = .awaiting since →
      p = .ending since ∨ p = .leaving → Goes a s v p
  | takes {since : Option Nat} : a = .finish v → s.place v = .ending since → s.slot.pending = some v →
      Goes a s v (.owns s.slot.lock)
  | returns {since : Option Nat} : s.place v = .ending since → Goes a s v (.returning since)
  | releases {l : Nat} : a = .release v → s.place v = .owns l → Goes a s v (.released l)
  | fails {why : Failure} : (s.place v).active = true → Goes a s v (.failed why)

@[simp] theorem place_move_self (s : System) (c : Nat) (p : Place) : (s.move c p).place c = p :=
  Function.update_self _ _ _

theorem Goes.raises {c : Nat} {p : Place} {slot : WriterLock} (hact : (s.place c).active = true) :
    Goes a s c ((s.settle c p (.error slot)).place c) := by
  rw [show (s.settle c p (.error slot)).place c = _ from place_move_self (s.setSlot slot) c _]
  exact .fails hact

/-- A call that fails after a section, one way or the other. -/
theorem Goes.ends {c : Nat} {why : Failure} {r : Except WriterLock WriterLock}
    (hact : (s.place c).active = true) : Goes a s c ((s.settle c (.failed why) r).place c) := by
  rcases r with slot | slot
  · exact .raises hact
  · rw [show (s.settle c _ (.ok slot)).place c = _ from place_move_self (s.setSlot slot) c _]
    exact .fails hact

theorem goes_begin {c me : Nat} {p : Place}
    (hp : p = .entered s.slot.lock ∨ p = .arriving s.slot.hold) :
    Goes a s c ((s.begin c me p).place c) := by
  unfold System.begin
  split_ifs with hc
  · dsimp only
    rw [Function.update_self]
    exact .begins hc.1 hp
  · exact .stays

theorem goes_heldBy (s : System) (c : Nat) : Goes (.heldBy c) s c ((s.effect (.heldBy c)).place c) := by
  unfold effect
  dsimp only
  split
  · rename_i l hq
    have hact : (s.place c).active = true := by rw [hq]; rfl
    split
    · rename_i slot held heq
      rw [place_move_self]
      have hheld := WriterLock.heldBy_iff heq
      rcases held with _ | _
      · exact .refused (Or.inl hq) fun hl => by simp [hl] at hheld
      · exact .records (Or.inl hq) (hheld.1 rfl)
    · exact .raises hact
  · rename_i l hq
    have hact : (s.place c).active = true := by rw [hq]; rfl
    split
    · rename_i slot held heq
      rw [place_move_self]
      have hheld := WriterLock.heldBy_iff heq
      rcases held with _ | _
      · exact .refused (Or.inr hq) fun hl => by simp [hl] at hheld
      · exact .records (Or.inr hq) (hheld.1 rfl)
    · exact .raises hact
  · exact .stays

theorem goes_count (h : Core s) (c : Nat) : Goes (.count c) s c ((s.effect (.count c)).place c) := by
  unfold effect
  dsimp only
  split
  · rename_i hq
    obtain ⟨slot, heq, hd, -⟩ := WriterLock.reclaim_deals h.sound
    have hcount : s.slot.count =
        .ok ({ slot with syncWaiting := slot.syncWaiting + 1 }, slot.lock) := by
      simp only [WriterLock.count, heq]
      rfl
    rw [hcount]
    dsimp only
    rw [place_move_self, hd.lock]
    exact .counts hq
  · exact .stays

theorem goes_reserve (h : Core s) (c loop : Nat) :
    Goes (.reserve c loop) s c ((s.effect (.reserve c loop)).place c) := by
  unfold effect
  dsimp only
  split
  · rename_i since hq
    obtain ⟨slot, heq, hd, -⟩ := WriterLock.reclaim_deals h.sound
    rcases reserve_cases (s.caller c) c loop heq with ⟨-, hslot⟩ | ⟨-, hslot⟩ <;> rw [hslot]
    · dsimp only
      rw [place_move_self, hd.lock]
      exact .reserves hq (Or.inl rfl)
    · dsimp only
      rw [place_move_self]
      exact .reserves hq (Or.inr rfl)
  · exact .stays

theorem goes_finish (h : Core s) (c : Nat) :
    Goes (.finish c) s c ((s.effect (.finish c)).place c) := by
  unfold effect
  dsimp only
  split
  · rename_i since hq
    by_cases hg : (s.slot.waiter c).state = .granted
    · have hp := h.grant c (by rw [hq]; rfl) hg
      rw [WriterLock.granted_of_granted _ _ hg hp (h.pending c hp).2.1]
      dsimp only
      rw [place_move_self]
      exact .takes rfl hq hp
    · rw [WriterLock.granted_of_not _ _ hg]
      dsimp only
      rw [place_move_self]
      exact .returns hq
  · exact .stays

theorem goes_raiseAwait (s : System) (c : Nat) (timedOut : Bool) :
    Goes (.raiseAwait c timedOut) s c ((s.effect (.raiseAwait c timedOut)).place c) := by
  unfold effect
  dsimp only
  split
  · rename_i since hq
    split_ifs <;> rw [place_move_self]
    · exact .fails (by rw [hq]; rfl)
    · exact .fails (by rw [hq]; rfl)
    · exact .wakes hq (Or.inl rfl)
    · exact .wakes hq (Or.inr rfl)
  · exact .stays

theorem goes_release (h : Core s) (c : Nat) :
    Goes (.release c) s c ((s.effect (.release c)).place c) := by
  unfold effect
  dsimp only
  split
  · rename_i l hq
    obtain ⟨slot, hslot⟩ : ∃ slot, s.slot.release l = .ok slot := by
      by_cases hl : l = s.slot.lock
      · subst hl
        have hl := h.locked_of_has (Or.inr hq)
        obtain ⟨slot, heq, -⟩ := WriterLock.releaseLocked_spec
          (s := { s.slot with owner := none, hold := none }) h.nodup hl
        exact ⟨slot, (WriterLock.release_of_locked hl).trans heq⟩
      · exact ⟨s.slot, if_pos hl⟩
    rw [hslot, show (s.settle c (.released l) (.ok slot)).place c = _ from
      place_move_self (s.setSlot slot) c _]
    exact .releases rfl hq
  · exact .stays

/-- (PROVED) A call goes only where its body leads. -/
theorem goes (h : Core s) (a : Act) (hclean : ¬ s.StaleGiveBack a) (v : Nat) :
    Goes a s v ((s.effect a).place v) := by
  by_cases hv : a.call = some v
  swap
  · rw [(turn h a hclean).place v hv]
    exact .stays
  cases a with
  | runWakeUp w => cases hv
  | cancelFuture w => cases hv
  | closeLoop loop => cases hv
  | close => cases hv
  | startAcquire c me =>
    obtain rfl := Option.some.inj hv
    exact goes_begin (Or.inl rfl)
  | startReserve c me =>
    obtain rfl := Option.some.inj hv
    exact goes_begin (Or.inr rfl)
  | count c =>
    obtain rfl := Option.some.inj hv
    exact goes_count h c
  | heldBy c =>
    obtain rfl := Option.some.inj hv
    exact goes_heldBy s c
  | reserve c loop =>
    obtain rfl := Option.some.inj hv
    exact goes_reserve h c loop
  | raiseAwait c timedOut =>
    obtain rfl := Option.some.inj hv
    exact goes_raiseAwait s c timedOut
  | finish c =>
    obtain rfl := Option.some.inj hv
    exact goes_finish h c
  | release c =>
    obtain rfl := Option.some.inj hv
    exact goes_release h c
  | tryFast c =>
    obtain rfl := Option.some.inj hv
    unfold effect
    dsimp only
    split
    · rename_i l hq
      split <;> rw [place_move_self]
      · exact .tries hq (Or.inl rfl)
      · exact .tries hq (Or.inr rfl)
    · exact .stays
  | win c =>
    obtain rfl := Option.some.inj hv
    unfold effect
    dsimp only
    split
    · rename_i l hq
      split
      · rw [place_move_self]
        exact .waits hq (Or.inl rfl)
      · exact .stays
    · exact .stays
  | lapse c =>
    obtain rfl := Option.some.inj hv
    unfold effect
    dsimp only
    split
    · rename_i l hq
      rw [place_move_self]
      exact .waits hq (Or.inr rfl)
    · exact .stays
  | interrupt c =>
    obtain rfl := Option.some.inj hv
    unfold effect
    dsimp only
    split
    · rename_i l hq
      rw [place_move_self]
      exact .interrupts rfl (Or.inl hq)
    · rename_i l hq
      rw [place_move_self]
      exact .interrupts rfl (Or.inr hq)
    · exact .stays
  | resume c =>
    obtain rfl := Option.some.inj hv
    unfold effect
    dsimp only
    split
    · rename_i since hq
      split_ifs
      · rw [place_move_self]
        exact .wakes hq (Or.inl rfl)
      · exact .stays
    · exact .stays
  | giveBack c =>
    obtain rfl := Option.some.inj hv
    unfold effect
    dsimp only
    split
    · rename_i l got hq
      exact .ends (by rw [hq]; rfl)
    · exact .stays
  | giveUp c =>
    obtain rfl := Option.some.inj hv
    unfold effect
    dsimp only
    split
    · rename_i l hq
      exact .ends (by rw [hq]; rfl)
    · exact .stays
  | releaseRefused c =>
    obtain rfl := Option.some.inj hv
    unfold effect
    dsimp only
    split
    · rename_i l hq
      exact .ends (by rw [hq]; rfl)
    · exact .stays
  | passOn c =>
    obtain rfl := Option.some.inj hv
    unfold effect
    dsimp only
    split
    · rename_i hq
      exact .ends (by rw [hq]; rfl)
    · exact .stays
  | releaseIfOwned c =>
    obtain rfl := Option.some.inj hv
    unfold effect
    dsimp only
    split
    · rename_i since hq
      exact .ends (by rw [hq]; rfl)
    · exact .stays

end System

end Virtuals.WriteSlot
