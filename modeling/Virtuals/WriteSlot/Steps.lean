/-
  Every step keeps the invariant of the writer slot, and so does every clean run.

  One condition is needed: an interrupted wait must not give back a lock that `close` replaced
  after the thread took it. There `acquire` calls `_release_locked`, which releases the slot's
  current lock, not the one the thread took.
-/
import Virtuals.WriteSlot.Invariant

namespace Virtuals.WriteSlot

namespace WriterLock

variable {s : WriterLock} {w : Nat}

theorem passOn_of_granted (hg : (s.waiter w).state = .granted) (hp : s.pending = some w)
    (hl : (s.waiter w).lock = some s.lock) :
    s.passOn w = { s.setState w .abandoned with pending := none }.releaseLocked := by
  have hp' : (s.setState w .abandoned).pending = some w := hp
  simp only [passOn, hg, ne_eq, not_true_eq_false, if_false]
  rw [if_pos hp', if_pos (by simp [setState, setWaiter, hl])]

theorem granted_of_granted (me hold : Nat) (hg : (s.waiter w).state = .granted)
    (hp : s.pending = some w) (hl : (s.waiter w).lock = some s.lock) :
    s.granted me hold w =
      some ({ s with pending := none, owner := some me, hold := some hold }, s.lock) := by
  simp [granted, hl, hg, hp]

theorem granted_of_not (me hold : Nat) (hg : (s.waiter w).state ≠ .granted) :
    s.granted me hold w = none := by
  unfold granted
  split
  · rfl
  · exact if_pos (Or.inl hg)

theorem release_of_locked (hl : s.locked s.lock = true) :
    s.release s.lock = { s with owner := none, hold := none }.releaseLocked := by
  rw [release, if_neg (by simp), if_neg (by simp [hl])]

end WriterLock

namespace System

/-- What every state reached by a clean run keeps. -/
structure Inv (s : System) : Prop where
  core : s.Core
  free : s.Free
  raised : s.raised = false

theorem inv_start : Inv start := ⟨core_start, free_start, rfl⟩

section Steps

variable {s : System}

/-! ## Beginning a call -/

theorem Core.begin (h : Core s) (c me : Nat) {p : Place}
    (hp : p = .entered s.slot.lock ∨ p = .arriving s.slot.hold) : Core (s.begin c me p) := by
  unfold System.begin
  split_ifs with hc
  swap
  · exact h
  obtain ⟨hidle, hbusy⟩ := hc
  have hplace : ∀ a, Function.update s.place c p a = if a = c then p else s.place a := fun a =>
    Function.update_apply _ _ _ _
  have hne : ∀ a, s.place a ≠ .idle → a ≠ c := fun a ha he => ha (he ▸ hidle)
  have hpl : p.holding = none ∧ p.waiting = false ∧ p.woke = false ∧ p.counted = false ∧
      (∀ l, p ≠ .owns l) ∧ ∀ l, p ≠ .refused l := by
    rcases hp with rfl | rfl <;>
      simp [Place.holding, Place.waiting, Place.woke, Place.counted]
  have hnat : ∀ l a, Natively { s with
      place := Function.update s.place c p
      caller := Function.update s.caller c me
      busy := Function.update s.busy me (some c) } l a → s.Natively l a := by
    intro l a ha
    simp only [Natively, Owns, hplace] at ha
    split_ifs at ha with hac
    · rcases ha with ha | ⟨hl, ha | ha⟩
      · simp [hpl.1] at ha
      · exact absurd ha (hpl.2.2.2.2.1 _)
      · exact Or.inr ⟨hl, Or.inr ha⟩
    · exact ha
  exact
    { h with
      excl := fun l a b ha hb => h.excl l a b (hnat l a ha) (hnat l b hb)
      locked := fun l a ha => h.locked l a (hnat l a ha)
      older := fun a l ha => by
        simp only [hplace] at ha
        split_ifs at ha
        · rcases hp with rfl | rfl <;> simp [Place.named] at ha
          exact ha.ge
        · exact h.older a l ha
      refused := fun a l ha => by
        simp only [hplace] at ha
        split_ifs at ha
        · exact absurd ha (hpl.2.2.2.2.2 l)
        · exact h.refused a l ha
      owner := fun ho => by
        obtain ⟨a, ha⟩ := h.owner ho
        have hac := hne a (by rw [show s.place a = _ from ha]; simp)
        exact ⟨a, by simp only [Owns, hplace, if_neg hac]; exact ha⟩
      queued := fun w hw => by
        obtain ⟨hst, since, hw'⟩ := h.queued w hw
        exact ⟨hst, since, by simp only [hplace, if_neg (hne w (by simp [hw']))]; exact hw'⟩
      pending := fun w hw => by
        obtain ⟨hst, hl, hw'⟩ := h.pending w hw
        refine ⟨hst, hl, ?_⟩
        have hwc := hne w (fun he => by simp [he, Place.waiting] at hw')
        simp only [hplace, if_neg hwc]
        exact hw'
      grant := fun w hw hg => by
        simp only [hplace] at hw
        split_ifs at hw
        · simp [hpl.2.1] at hw
        · exact h.grant w hw hg
      woke := fun w hw => by
        simp only [hplace] at hw
        split_ifs at hw
        · simp [hpl.2.2.1] at hw
        · exact h.woke w hw
      since := fun a x ha ho => by
        simp only [hplace] at ha
        split_ifs at ha with hac
        · rcases hp with rfl | rfl <;> simp [Place.since] at ha
          exact ha
        · simp only [Function.update_of_ne hac] at ho
          exact h.since a x ha ho
      busy := fun a ha => by
        simp only [hplace] at ha
        split_ifs at ha with hac
        · subst hac
          simp
        · have hb := h.busy a ha
          have hme : s.caller a ≠ me := fun he => by simp [he, hbusy] at hb
          simp [hac, hme, hb]
      sync := by
        obtain ⟨counted, hn, hmem⟩ := h.sync
        refine ⟨counted, hn, fun a => ?_⟩
        simp only [hplace]
        split_ifs with hac
        · subst hac
          rw [hmem, hidle, hpl.2.2.2.1]
          rfl
        · exact hmem a }

theorem begin_slot (s : System) (c me : Nat) (p : Place) : (s.begin c me p).slot = s.slot ∧
    (s.begin c me p).raised = s.raised := by
  unfold System.begin
  split_ifs <;> exact ⟨rfl, rfl⟩

theorem inv_begin (h : Inv s) (c me : Nat) {p : Place}
    (hp : p = .entered s.slot.lock ∨ p = .arriving s.slot.hold) : Inv (s.begin c me p) := by
  obtain ⟨hslot, hraised⟩ := begin_slot s c me p
  exact ⟨h.core.begin c me hp, by rw [Free, hslot]; exact h.free, hraised.trans h.raised⟩

/-! ## `acquire` -/

/-- A lock taken by a call of a thread that is about to record it. -/
theorem Core.takeLock (h : Core s) {c l : Nat} {p : Place} (hl : s.slot.locked l = false)
    (hq : (s.place c = .entered l ∧ p = .taken l) ∨ (s.place c = .blocked l ∧ p = .won l)) :
    Core ((s.setSlot { s.slot with locked := Function.update s.slot.locked l true }).move c p) := by
  have hold : l ≤ s.slot.lock := by
    rcases hq with ⟨hq, -⟩ | ⟨hq, -⟩ <;> exact h.older c l (by rw [hq]; rfl)
  have hnot : (s.place c).waiting = false ∧ (∀ l, s.place c ≠ .owns l) ∧
      (s.place c).active = true ∧ p.counted = (s.place c).counted := by
    rcases hq with ⟨hq, rfl⟩ | ⟨hq, rfl⟩ <;>
      simp [hq, Place.waiting, Place.active, Place.counted]
  have hp : (∀ l', p.holding = some l' → l' = l) ∧ (∀ l', p.named = some l' → l' = l) ∧
      p.waiting = false ∧ p.woke = false ∧ p.since = none ∧ (∀ l, p ≠ .owns l) ∧
      (∀ l, p ≠ .refused l) := by
    rcases hq with ⟨-, rfl⟩ | ⟨-, rfl⟩ <;>
      simp [Place.holding, Place.named, Place.waiting, Place.woke, Place.since, eq_comm]
  obtain ⟨hp1, hp2, hp3, hp4, hp5, hp6, hp7⟩ := hp
  exact h.moves
    { gain := fun l' hg => by
        rcases hg with hg | ⟨-, hg⟩
        · obtain rfl := hp1 l' hg
          exact ⟨by simp, Or.inr hl⟩
        · exact absurd hg (hp6 l')
      keep := fun l' c' _ hc' => by
        by_cases he : l' = l
        · simp [he]
        · simpa [he] using h.locked l' c' hc'
      pends := fun hpc => absurd hpc (h.not_pending hnot.1)
      grants := Or.inl rfl
      older := fun l' hn => (hp2 l' hn) ▸ hold
      refused := fun l' hr => absurd hr (hp7 l')
      owned := fun _ => Or.inr ⟨rfl, hnot.2.1 _⟩
      queued := fun hqd => absurd hqd (h.not_queued (Or.inl hnot.1))
      grant := fun hw => by simp [hp3] at hw
      woke := fun hw => by simp [hp4] at hw
      since := fun x hx => by simp [hp5] at hx
      holder := Or.inl ⟨rfl, rfl⟩
      active := fun _ => hnot.2.2.1
      sync := by rw [hnot.2.2.2]; omega }

theorem free_takeLock (h : Free s) (l c : Nat) (p : Place) :
    Free ((s.setSlot { s.slot with locked := Function.update s.slot.locked l true }).move c p) := by
  intro hl hq
  refine h ?_ hq
  by_cases he : s.slot.lock = l
  · simp [move, setSlot, he] at hl
  · simpa [move, setSlot, he] using hl

theorem inv_tryFast (h : Inv s) (c : Nat) : Inv (s.effect (.tryFast c)) := by
  unfold effect
  dsimp only
  split
  · rename_i l hq
    unfold WriterLock.tryLock
    split_ifs with hl
    · refine ⟨h.core.moveThread hq (by simp [Place.waiting]) ?_ ?_ ?_ ?_ ?_, h.free, h.raised⟩ <;>
        simp [Place.waiting, Place.woke, Place.since, Place.holding, Place.named, Place.active,
          Place.counted]
    · exact ⟨h.core.takeLock (by simpa using hl) (Or.inl ⟨hq, rfl⟩), free_takeLock h.free l c _,
        h.raised⟩
  · exact h

theorem inv_win (h : Inv s) (c : Nat) : Inv (s.effect (.win c)) := by
  unfold effect
  dsimp only
  split
  · rename_i l hq
    unfold WriterLock.tryLock
    split_ifs with hl
    · exact h
    · exact ⟨h.core.takeLock (by simpa using hl) (Or.inr ⟨hq, rfl⟩), free_takeLock h.free l c _,
        h.raised⟩
  · exact h

theorem inv_lapse (h : Inv s) (c : Nat) : Inv (s.effect (.lapse c)) := by
  unfold effect
  dsimp only
  split
  · rename_i l hq
    refine ⟨h.core.moveThread hq (by simp [Place.waiting]) ?_ ?_ ?_ ?_ ?_, h.free, h.raised⟩ <;>
      simp [Place.waiting, Place.woke, Place.since, Place.holding, Place.named, Place.active,
        Place.counted]
  · exact h

theorem inv_interrupt (h : Inv s) (c : Nat) : Inv (s.effect (.interrupt c)) := by
  unfold effect
  dsimp only
  split
  · rename_i l hq
    refine ⟨h.core.moveThread hq (by simp [Place.waiting]) ?_ ?_ ?_ ?_ ?_, h.free, h.raised⟩ <;>
      simp [Place.waiting, Place.woke, Place.since, Place.holding, Place.named, Place.active,
        Place.counted]
  · rename_i l hq
    refine ⟨h.core.moveThread hq (by simp [Place.waiting]) ?_ ?_ ?_ ?_ ?_, h.free, h.raised⟩ <;>
      simp [Place.waiting, Place.woke, Place.since, Place.holding, Place.named, Place.active,
        Place.counted]
  · exact h

/-- The thread counter is a count. -/
theorem Core.sync_nonneg (h : Core s) : 0 ≤ s.slot.syncWaiting := by
  obtain ⟨counted, hn, -⟩ := h.sync
  omega

/-- A call of a thread, holding no lock or one that is dropped, moves and counts itself in or
    out. -/
theorem Core.countThread (h : Core s) {c : Nat} {p q : Place} {n : Int} (hq : s.place c = q)
    (hnot : q.waiting = false ∧ ∀ l, q ≠ .owns l)
    (hp : p.waiting = false ∧ p.woke = false ∧ p.since = none ∧ p.holding = none ∧
      ∀ l, p ≠ .owns l)
    (hnamed : ∀ l, p.named = some l → l = s.slot.lock)
    (hactive : p.active = true → q.active = true)
    (hn : n = s.slot.syncWaiting + (if p.counted then 1 else 0) - (if q.counted then 1 else 0))
    (hrefused : ∀ l, p ≠ .refused l) :
    Core ((s.setSlot { s.slot with syncWaiting := n }).move c p) := by
  subst hq
  obtain ⟨hp1, hp2, hp3, hp4, hp5⟩ := hp
  exact h.moves
    { gain := fun l hg => by
        rcases hg with hg | ⟨-, hg⟩
        · simp [hp4] at hg
        · exact absurd hg (hp5 l)
      keep := fun l c' _ hc' => h.locked l c' hc'
      pends := fun hpc => absurd hpc (h.not_pending hnot.1)
      grants := Or.inl rfl
      older := fun l hl => (hnamed l hl).le
      refused := fun l hl => absurd hl (hrefused l)
      owned := fun _ => Or.inr ⟨rfl, hnot.2 _⟩
      queued := fun hqd => absurd hqd (h.not_queued (Or.inl hnot.1))
      grant := fun hw => by simp [hp1] at hw
      woke := fun hw => by simp [hp2] at hw
      since := fun x hx => by simp [hp3] at hx
      holder := Or.inl ⟨rfl, rfl⟩
      active := hactive
      sync := hn }

theorem inv_count (h : Inv s) (c : Nat) : Inv (s.effect (.count c)) := by
  unfold effect
  dsimp only
  split
  · rename_i hq
    obtain ⟨slot, heq, h1, hfr, hlock, -⟩ := h.core.reclaim
    have hcount : s.slot.count =
        .ok ({ slot with syncWaiting := slot.syncWaiting + 1 }, slot.lock) := by
      simp only [WriterLock.count, heq]
      rfl
    rw [hcount]
    dsimp only
    refine ⟨?_, fun hl hqd => ?_, h.raised⟩
    · refine h1.countThread (c := c) (q := .missed) hq ?_ ?_ ?_ ?_ ?_ ?_ <;>
        simp [Place.waiting, Place.woke, Place.since, Place.holding, Place.named, Place.active,
          Place.counted, setSlot, eq_comm]
    · have := h1.sync_nonneg
      simp only [move, setSlot] at this ⊢
      omega
  · exact h

/-- (PROVED) A thread that stops waiting without a lock leaves nobody stranded. -/
theorem Inv.stopWaiting (h : Inv s) {c : Nat} {q : Place} {why : Failure} (hq : s.place c = q)
    (hnot : q.waiting = false ∧ q.counted = true ∧ q.active = true ∧ ∀ l, q ≠ .owns l) :
    Inv (s.settle c (.failed why) s.slot.giveUp) := by
  have h1 : Core ((s.setSlot { s.slot with syncWaiting := s.slot.syncWaiting - 1 }).move c
      (.failed why)) := by
    refine h.core.countThread hq ⟨hnot.1, hnot.2.2.2⟩ (by simp [Place.waiting, Place.woke,
      Place.since, Place.holding]) (by simp [Place.named]) (by simp [Place.active]) ?_ (by simp)
    rw [hnot.2.1]
    simp [Place.counted]
  obtain ⟨slot, heq, h2, -⟩ := h1.reclaim
  obtain ⟨slot', heq', h3, hfr, -⟩ := h2.rescue
  have hgive : s.slot.giveUp = .ok slot' := by
    simp only [WriterLock.giveUp]
    rw [show WriterLock.reclaimDeadPending { s.slot with
      syncWaiting := s.slot.syncWaiting - 1 } = .ok slot from heq]
    exact heq'
  rw [hgive]
  exact ⟨h3, hfr, h.raised⟩

theorem inv_giveUp (h : Inv s) (c : Nat) : Inv (s.effect (.giveUp c)) := by
  unfold effect
  dsimp only
  split
  · rename_i l hq
    exact h.stopWaiting hq (by simp [Place.waiting, Place.counted, Place.active])
  · exact h

/-- The call that had the slot moves to where it has nothing: nobody has it. -/
theorem Core.ownerless_move (h : Core s) {c : Nat} (hnat : s.Natively s.slot.lock c) {p : Place}
    (hc : (s.place c).waiting = false) (hp : p.holding = none) (hp' : ∀ l, p ≠ .owns l)
    {t : WriterLock} (hl : t.lock = s.slot.lock) (hpend : t.pending = s.slot.pending) :
    Ownerless ((s.setSlot t).move c p) := by
  intro a ha
  by_cases hac : a = c
  · subst hac
    simp only [Natively, Owns, move, setSlot, Function.update_self, hp, hpend] at ha
    rcases ha with ha | ⟨-, ha | ha⟩
    · cases ha
    · exact hp' _ ha
    · exact h.not_pending hc ha
  · have hold : s.Natively s.slot.lock a := by
      simpa only [Natively, Owns, move, setSlot, Function.update_of_ne hac, hl, hpend] using ha
    exact hac (h.excl _ _ _ hold hnat)

/-- An interrupted wait that took no lock, or one that is still the slot. -/
theorem inv_giveBack (h : Inv s) (c : Nat) (hclean : ¬ s.StaleGiveBack (.giveBack c)) :
    Inv (s.effect (.giveBack c)) := by
  unfold effect
  dsimp only
  split
  · rename_i l got hq
    rcases got with _ | _
    · exact h.stopWaiting hq (by simp [Place.waiting, Place.counted, Place.active])
    · have hl : l = s.slot.lock := by
        by_contra hne
        exact hclean ⟨l, hq, hne⟩
      subst hl
      have hnat : s.Natively s.slot.lock c := Or.inl (by rw [hq]; rfl)
      have h1 : Core ((s.setSlot { s.slot with syncWaiting := s.slot.syncWaiting - 1 }).move c
          (.failed .interrupted)) := by
        refine h.core.countThread hq ?_ ?_ ?_ ?_ ?_ ?_ <;>
          simp [Place.waiting, Place.woke, Place.since, Place.holding, Place.named, Place.active,
            Place.counted]
      have hfree := h.core.ownerless_move hnat (p := .failed .interrupted)
        (by rw [hq]; rfl) rfl (by simp) (t := { s.slot with syncWaiting := s.slot.syncWaiting - 1 })
        rfl rfl
      obtain ⟨slot, heq, hp⟩ := WriterLock.releaseLocked_spec h1.nodup (h.core.locked _ c hnat)
      obtain ⟨h2, hfr⟩ := h1.passed hfree (h.core.locked _ c hnat) hp
      rw [show s.slot.giveBack true = .ok slot from heq]
      exact ⟨h2, hfr, h.raised⟩
  · exact h

/-- `_held_by`, counted or not: the caller that has the current lock becomes its owner. -/
theorem Core.own (h : Core s) {c : Nat} {q : Place} {n : Int} (hq : s.place c = q)
    (hhold : q.holding = some s.slot.lock) (hact : q.active = true) (hwait : q.waiting = false)
    (hn : n = s.slot.syncWaiting - (if q.counted then 1 else 0)) :
    Core ((s.setSlot { s.slot with
      owner := some (s.caller c), hold := some c, syncWaiting := n }).move c
        (.owns s.slot.lock)) := by
  subst hq
  have hnat : s.Natively s.slot.lock c := Or.inl hhold
  exact h.moves
    { gain := fun l hg => by
        rcases hg with hg | ⟨rfl, -⟩
        · cases hg
        · exact ⟨h.locked _ c hnat, Or.inl hnat⟩
      keep := fun l c' _ hc' => h.locked l c' hc'
      pends := fun hpc => absurd hpc (h.not_pending hwait)
      grants := Or.inl rfl
      older := fun l hl => (Option.some.inj hl).ge
      refused := fun l hl => by cases hl
      owned := fun _ => Or.inl rfl
      queued := fun hqd => absurd hqd (h.not_queued (Or.inl hwait))
      grant := fun hw => by cases hw
      woke := fun hw => by cases hw
      since := fun x hx => by cases hx
      holder := Or.inr (Or.inr ⟨rfl, hact⟩)
      active := fun ha => by cases ha
      sync := by rw [hn]; simp [Place.counted] }

/-- `_held_by` refuses a lock that is no longer the slot: it stays held until it is released. -/
theorem Core.refuse (h : Core s) {c l : Nat} {q : Place} {n : Int} (hq : s.place c = q)
    (hhold : q.holding = some l) (hl : l ≠ s.slot.lock) (hnamed : q.named = some l)
    (hact : q.active = true) (hown : ∀ l, q ≠ .owns l) (hwait : q.waiting = false)
    (hn : n = s.slot.syncWaiting - (if q.counted then 1 else 0)) :
    Core ((s.setSlot { s.slot with syncWaiting := n }).move c (.refused l)) := by
  subst hq
  have hnat : s.Natively l c := Or.inl hhold
  exact h.moves
    { gain := fun l' hg => by
        rcases hg with hg | ⟨-, hg⟩
        · obtain rfl := Option.some.inj hg
          exact ⟨h.locked _ c hnat, Or.inl hnat⟩
        · cases hg
      keep := fun l c' _ hc' => h.locked l c' hc'
      pends := fun hpc => absurd hpc (h.not_pending hwait)
      grants := Or.inl rfl
      older := fun l' hl' => (Option.some.inj hl') ▸ h.older c l hnamed
      refused := fun l' hl' => by
        obtain rfl := Place.refused.inj hl'
        exact hl
      owned := fun _ => Or.inr ⟨rfl, hown _⟩
      queued := fun hqd => absurd hqd (h.not_queued (Or.inl hwait))
      grant := fun hw => by cases hw
      woke := fun hw => by cases hw
      since := fun x hx => by cases hx
      holder := Or.inl ⟨rfl, rfl⟩
      active := fun _ => hact
      sync := by rw [hn]; simp [Place.counted] }

theorem inv_heldBy (h : Inv s) (c : Nat) : Inv (s.effect (.heldBy c)) := by
  unfold effect
  dsimp only
  split
  · rename_i l hq
    by_cases hl : l = s.slot.lock
    · subst hl
      have hheld : s.slot.heldBy (s.caller c) c s.slot.lock true = .ok ({ s.slot with
          owner := some (s.caller c), hold := some c
          syncWaiting := s.slot.syncWaiting - 1 }, true) := by
        simp [WriterLock.heldBy]
      rw [hheld]
      have h1 := h.core.own hq rfl rfl rfl (n := s.slot.syncWaiting - 1) rfl
      have hl := h.core.locked _ c (Or.inl (by rw [hq]; rfl))
      exact ⟨h1, fun hfr => by simp [move, setSlot, hl] at hfr, h.raised⟩
    · have h1 := h.core.refuse hq rfl hl rfl rfl (by simp) rfl
        (n := s.slot.syncWaiting - 1) rfl
      obtain ⟨slot, heq, h2, hfr, -⟩ := h1.rescue
      have hheld : s.slot.heldBy (s.caller c) c l true = .ok (slot, false) := by
        simp only [WriterLock.heldBy, if_true, ne_eq, hl, not_false_eq_true]
        rw [show WriterLock.rescueQueue { s.slot with
          syncWaiting := s.slot.syncWaiting - 1 } = .ok slot from heq]
        rfl
      rw [hheld]
      exact ⟨h2, hfr, h.raised⟩
  · rename_i l hq
    by_cases hl : l = s.slot.lock
    · subst hl
      have hheld : s.slot.heldBy (s.caller c) c s.slot.lock false = .ok ({ s.slot with
          owner := some (s.caller c), hold := some c }, true) := by
        simp [WriterLock.heldBy]
      rw [hheld]
      have h1 := h.core.own hq rfl rfl rfl (n := s.slot.syncWaiting) (by simp [Place.counted])
      have hl := h.core.locked _ c (Or.inl (by rw [hq]; rfl))
      exact ⟨h1, fun hfr => by simp [move, setSlot, hl] at hfr, h.raised⟩
    · have h1 := h.core.refuse hq rfl hl rfl rfl (by simp) rfl
        (n := s.slot.syncWaiting) (by simp [Place.counted])
      have hheld : s.slot.heldBy (s.caller c) c l false = .ok (s.slot, false) := by
        simp only [WriterLock.heldBy, Bool.false_eq_true, if_false, ne_eq, hl, not_false_eq_true,
          if_true]
        rfl
      rw [hheld]
      exact ⟨h1, h.free, h.raised⟩
  · exact h

theorem inv_releaseRefused (h : Inv s) (c : Nat) : Inv (s.effect (.releaseRefused c)) := by
  unfold effect
  dsimp only
  split
  · rename_i l hq
    have hnat : s.Natively l c := Or.inl (by rw [hq]; rfl)
    have hne := h.core.refused c l hq
    rw [WriterLock.unlock_of_locked (h.core.locked l c hnat)]
    refine ⟨h.core.moves ?_, fun hl hqd => h.free ?_ hqd, h.raised⟩
    · exact
        { gain := fun l' hg => by rcases hg with hg | ⟨-, hg⟩ <;> cases hg
          keep := fun l' c' hc' hn => by
            have : l' ≠ l := fun he => hc' (h.core.excl l c' c (he ▸ hn) hnat)
            rw [Function.update_of_ne this]
            exact h.core.locked l' c' hn
          pends := fun hpc => absurd hpc (h.core.not_pending (by rw [hq]; rfl))
          grants := Or.inl rfl
          older := fun l' hl' => by cases hl'
          refused := fun l' hl' => by cases hl'
          owned := fun _ => Or.inr ⟨rfl, fun ho => by rw [Owns, hq] at ho; cases ho⟩
          queued := fun hqd => absurd hqd (h.core.not_queued (Or.inl (by rw [hq]; rfl)))
          grant := fun hw => by cases hw
          woke := fun hw => by cases hw
          since := fun x hx => by cases hx
          holder := Or.inl ⟨rfl, rfl⟩
          active := fun ha => by cases ha
          sync := by rw [hq]; simp [Place.counted] }
    · simpa [settle, move, setSlot, hne.symm] using hl
  · exact h

/-! ## `areserve` -/

/-- `areserve` takes a free slot at once. -/
theorem Core.reserveNow (h : Core s) {c : Nat} {since : Option Nat}
    (hq : s.place c = .arriving since) (hl : s.slot.locked s.slot.lock = false) :
    Core ((s.setSlot { s.slot with
      locked := Function.update s.slot.locked s.slot.lock true
      owner := some (s.caller c), hold := some c }).move c (.owns s.slot.lock)) :=
  h.moves
    { gain := fun l hg => by
        rcases hg with hg | ⟨rfl, -⟩
        · cases hg
        · exact ⟨by simp, Or.inr hl⟩
      keep := fun l c' _ hc' => by
        by_cases he : l = s.slot.lock
        · simp [he]
        · simpa [he] using h.locked l c' hc'
      pends := fun hpc => absurd hpc (h.not_pending (by rw [hq]; rfl))
      grants := Or.inl rfl
      older := fun l hl' => (Option.some.inj hl').ge
      refused := fun l hl' => by cases hl'
      owned := fun _ => Or.inl rfl
      queued := fun hqd => absurd hqd (h.not_queued (Or.inl (by rw [hq]; rfl)))
      grant := fun hw => by cases hw
      woke := fun hw => by cases hw
      since := fun x hx => by cases hx
      holder := Or.inr (Or.inr ⟨rfl, by rw [hq]; rfl⟩)
      active := fun ha => by cases ha
      sync := by rw [hq]; simp [Place.counted] }

/-- `areserve` joins the queue. -/
theorem Core.enqueue (h : Core s) (loop : Nat) {c : Nat} {since : Option Nat}
    (hq : s.place c = .arriving since) :
    Core ((s.setSlot { s.slot.setWaiter c (.new loop) with
      waiters := s.slot.waiters ++ [c] }).move c (.awaiting since)) := by
  have hcq : c ∉ s.slot.waiters := h.not_queued (Or.inl (by rw [hq]; rfl))
  have hcp : s.slot.pending ≠ some c := h.not_pending (by rw [hq]; rfl)
  have hplace : ∀ a, ((s.setSlot { s.slot.setWaiter c (.new loop) with
      waiters := s.slot.waiters ++ [c] }).move c (.awaiting since)).place a =
        if a = c then .awaiting since else s.place a := fun a => Function.update_apply _ _ _ _
  have hwaiter : ∀ a, ((s.setSlot { s.slot.setWaiter c (.new loop) with
      waiters := s.slot.waiters ++ [c] }).move c (.awaiting since)).slot.waiter a =
        if a = c then .new loop else s.slot.waiter a := fun a => Function.update_apply _ _ _ _
  have hnat : ∀ l a, Natively ((s.setSlot { s.slot.setWaiter c (.new loop) with
      waiters := s.slot.waiters ++ [c] }).move c (.awaiting since)) l a → s.Natively l a := by
    intro l a ha
    simp only [Natively, Owns, hplace] at ha
    split_ifs at ha with hac
    · rcases ha with ha | ⟨-, ha | ha⟩
      · cases ha
      · cases ha
      · exact absurd (hac ▸ ha) hcp
    · exact ha
  exact
    { excl := fun l a b ha hb => h.excl l a b (hnat l a ha) (hnat l b hb)
      locked := fun l a ha => h.locked l a (hnat l a ha)
      older := fun a l ha => by
        rw [hplace] at ha
        split_ifs at ha
        · cases ha
        · exact h.older a l ha
      refused := fun a l ha => by
        rw [hplace] at ha
        split_ifs at ha
        exact h.refused a l ha
      owner := fun ho => by
        obtain ⟨a, ha⟩ := h.owner ho
        have hac : a ≠ c := by
          rintro rfl
          rw [Owns, hq] at ha
          cases ha
        exact ⟨a, by rw [Owns, hplace, if_neg hac]; exact ha⟩
      nodup := List.nodup_append.2 ⟨h.nodup, by simp, fun a ha b hb => by
        rw [List.mem_singleton.1 hb]
        exact fun he => hcq (he ▸ ha)⟩
      queued := fun w hw => by
        rw [hplace, hwaiter]
        rcases List.mem_append.1 hw with hw | hw
        · have hwc : w ≠ c := fun he => hcq (he ▸ hw)
          rw [if_neg hwc, if_neg hwc]
          exact h.queued w hw
        · rw [if_pos (List.mem_singleton.1 hw), if_pos (List.mem_singleton.1 hw)]
          exact ⟨rfl, since, rfl⟩
      pending := fun w hw => by
        have hwc : w ≠ c := fun he => hcp (he ▸ hw)
        rw [hplace, hwaiter, if_neg hwc, if_neg hwc]
        exact h.pending w hw
      grant := fun w hw hg => by
        rw [hplace] at hw
        rw [hwaiter] at hg
        split_ifs at hw hg with hwc
        · cases hg
        · exact h.grant w hw hg
      woken := fun w hw => by
        rw [hwaiter] at hw ⊢
        split_ifs at hw ⊢ with hwc
        · rcases hw with hw | hw <;> cases hw
        · exact h.woken w hw
      woke := fun w hw => by
        rw [hplace] at hw
        rw [hwaiter]
        split_ifs at hw ⊢ with hwc
        · cases hw
        · exact h.woke w hw
      since := fun a x ha ho => by
        rw [hplace] at ha
        split_ifs at ha with hac
        · subst hac
          exact h.since a x (by rw [hq]; exact ha) ho
        · exact h.since a x ha ho
      busy := fun a ha => by
        rw [hplace] at ha
        simp only [move, setSlot, Place.active, Bool.true_eq_false, and_false, if_false]
        split_ifs at ha with hac
        · subst hac
          exact h.busy a (by rw [hq]; rfl)
        · exact h.busy a ha
      sync := by
        obtain ⟨counted, hn, hmem⟩ := h.sync
        refine ⟨counted, hn, fun a => ?_⟩
        rw [hplace]
        split_ifs with hac
        · rw [hmem, hac, hq]
          rfl
        · exact hmem a }

/-- `areserve`, once it has reclaimed, takes the slot or queues. -/
theorem reserve_cases (me c loop : Nat) {slot : WriterLock}
    (heq : s.slot.reclaimDeadPending = .ok slot) :
    ((slot.waiters = [] ∧ slot.syncWaiting = 0 ∧ slot.locked slot.lock = false) ∧
      s.slot.reserve me c loop = .ok ({ slot with
        locked := Function.update slot.locked slot.lock true
        owner := some me, hold := some c }, .took slot.lock)) ∨
    (¬ (slot.waiters = [] ∧ slot.syncWaiting = 0 ∧ slot.locked slot.lock = false) ∧
      s.slot.reserve me c loop =
        .ok ({ slot.setWaiter c (.new loop) with waiters := slot.waiters ++ [c] }, .queued)) := by
  simp only [WriterLock.reserve, heq]
  by_cases hfast : slot.waiters = [] ∧ slot.syncWaiting = 0
  · by_cases hl : slot.locked slot.lock = true
    · refine Or.inr ⟨by simp [hl], ?_⟩
      change (if slot.waiters = [] ∧ slot.syncWaiting = 0 then _ else _) = _
      rw [if_pos hfast]
      simp [WriterLock.tryLock, hl]
      rfl
    · refine Or.inl ⟨⟨hfast.1, hfast.2, by simpa using hl⟩, ?_⟩
      change (if slot.waiters = [] ∧ slot.syncWaiting = 0 then _ else _) = _
      rw [if_pos hfast]
      simp [WriterLock.tryLock, WriterLock.heldBy, hl]
      rfl
  · refine Or.inr ⟨fun hc => hfast ⟨hc.1, hc.2.1⟩, ?_⟩
    change (if slot.waiters = [] ∧ slot.syncWaiting = 0 then _ else _) = _
    rw [if_neg hfast]
    rfl

theorem inv_reserve (h : Inv s) (c loop : Nat) : Inv (s.effect (.reserve c loop)) := by
  unfold effect
  dsimp only
  split
  · rename_i since hq
    obtain ⟨slot, heq, h1, hfr, -, -⟩ := h.core.reclaim
    have hfr := hfr h.free
    have hqueue := h1.enqueue loop (show (s.setSlot slot).place c = _ from hq)
    rcases reserve_cases (s.caller c) c loop heq with ⟨hnow, hslot⟩ | ⟨hnow, hslot⟩ <;> rw [hslot]
    · refine ⟨h1.reserveNow (show (s.setSlot slot).place c = _ from hq) hnow.2.2,
        fun hl => ?_, h.raised⟩
      simp [move, setSlot] at hl
    · refine ⟨hqueue, fun hl hqd => ?_, h.raised⟩
      -- queued on a free lock only behind somebody: a queued coroutine or a counted thread
      have hl : slot.locked slot.lock = false := hl
      by_cases hw : slot.waiters = []
      · exact fun h0 => hnow ⟨hw, h0, hl⟩
      · exact hfr hl hw
  · exact h

/-- A future done: by the wake-up of a waiter that is no longer waiting, or by a cancellation. -/
theorem Core.setFuture (h : Core s) {w : Nat} {future : FutureState}
    (hf : future = .result → (s.slot.waiter w).state ≠ .waiting) :
    Core (s.setSlot (s.slot.setWaiter w { s.slot.waiter w with future := future })) := by
  have hstate : ∀ v, ((s.slot.setWaiter w { s.slot.waiter w with future := future }).waiter v).state
      = (s.slot.waiter v).state := fun v => by
    by_cases hv : v = w <;> simp [WriterLock.setWaiter, hv]
  have hlock : ∀ v, ((s.slot.setWaiter w { s.slot.waiter w with future := future }).waiter v).lock
      = (s.slot.waiter v).lock := fun v => by
    by_cases hv : v = w <;> simp [WriterLock.setWaiter, hv]
  exact
    { h with
      queued := fun v hv => by
        simp only [setSlot, hstate]
        exact h.queued v hv
      pending := fun v hv => by
        simp only [setSlot, hstate, hlock]
        exact h.pending v hv
      grant := fun v hv hg => by
        simp only [setSlot, hstate] at hg
        exact h.grant v hv hg
      woken := fun v hv => by
        simp only [setSlot, hstate]
        by_cases hvw : v = w
        · subst hvw
          simp only [setSlot, WriterLock.setWaiter, Function.update_self] at hv
          rcases hv with hv | hv
          · exact h.woken v (Or.inl hv)
          · exact hf hv
        · simp only [setSlot, WriterLock.setWaiter, Function.update_of_ne hvw] at hv
          exact h.woken v hv
      woke := fun v hv => by
        simp only [setSlot, hstate]
        exact h.woke v hv }

theorem inv_runWakeUp (h : Inv s) (w : Nat) : Inv (s.effect (.runWakeUp w)) := by
  unfold effect
  dsimp only
  split_ifs with hw
  · exact ⟨h.core.setFuture fun _ => h.core.woken w (Or.inl hw.1), h.free, h.raised⟩
  · exact h

theorem inv_cancelFuture (h : Inv s) (w : Nat) : Inv (s.effect (.cancelFuture w)) := by
  unfold effect
  dsimp only
  split_ifs with hw
  · exact ⟨h.core.setFuture (fun hf => by cases hf), h.free, h.raised⟩
  · exact h

theorem Core.setLoopClosed (h : Core s) (loopClosed : Nat → Bool) :
    Core (s.setSlot { s.slot with loopClosed := loopClosed }) :=
  { h with queued := h.queued }

theorem inv_closeLoop (h : Inv s) (loop : Nat) : Inv (s.effect (.closeLoop loop)) :=
  ⟨h.core.setLoopClosed _, h.free, h.raised⟩

/-- A coroutine that is no longer queued goes on or ends, its grant, if it has one, kept. -/
theorem Core.moveTask (h : Core s) {c : Nat} {p q : Place} (hq : s.place c = q)
    (hact : q.active = true) (hown : ∀ l, q ≠ .owns l)
    (hstate : (s.slot.waiter c).state ≠ .waiting)
    (hpend : s.slot.pending = some c → p.waiting = true)
    (hwait : p.waiting = true → q.waiting = true)
    (hp : p.holding = none ∧ p.named = none ∧ p.counted = false ∧ q.counted = false ∧
      (∀ l, p ≠ .owns l) ∧ ∀ l, p ≠ .refused l)
    (hsince : ∀ x, p.since = some x → q.since = some x) : Core (s.move c p) := by
  subst hq
  rw [move_eq_change]
  obtain ⟨hp1, hp2, hp3, hp4, hp5, hp6⟩ := hp
  exact h.moves
    { gain := fun l hg => by
        rcases hg with hg | ⟨-, hg⟩
        · simp [hp1] at hg
        · exact absurd hg (hp5 l)
      keep := fun l c' _ hc' => h.locked l c' hc'
      pends := fun hpc => ⟨hpend hpc, h.locked _ c (Or.inr ⟨rfl, Or.inr hpc⟩)⟩
      grants := Or.inl rfl
      older := fun l hl => by simp [hp2] at hl
      refused := fun l hl => absurd hl (hp6 l)
      owned := fun _ => Or.inr ⟨rfl, hown _⟩
      queued := fun hqd => absurd hqd (h.not_queued (Or.inr hstate))
      grant := fun hw hg => h.grant c (hwait hw) hg
      woke := fun _ => hstate
      since := fun x hx ho => h.since c x (hsince x hx) ho
      holder := Or.inl ⟨rfl, rfl⟩
      active := fun _ => hact
      sync := by rw [hp3, hp4]; simp }

theorem inv_resume (h : Inv s) (c : Nat) : Inv (s.effect (.resume c)) := by
  unfold effect
  dsimp only
  split
  · rename_i since hq
    split_ifs with hf
    · refine ⟨h.core.moveTask hq rfl (by simp) (h.core.woken c (Or.inr hf)) (fun _ => rfl)
        (fun _ => rfl) ?_ (fun x hx => hx), h.free, h.raised⟩
      simp [Place.holding, Place.named, Place.counted]
    · exact h
  · exact h

/-- A coroutine whose wait raised while it was queued leaves the queue and ends. -/
theorem Core.leave (h : Core s) {c : Nat} {since : Option Nat} (hq : s.place c = .awaiting since)
    (hst : (s.slot.waiter c).state = .waiting) (why : Failure) :
    Core ((s.setSlot { s.slot with waiters := s.slot.waiters.erase c }).move c (.failed why)) := by
  have hpend : s.slot.pending ≠ some c := fun hp => by
    rw [(h.pending c hp).1] at hst
    cases hst
  have h1 : Core (s.setSlot { s.slot with waiters := s.slot.waiters.erase c }) :=
    { h with
      nodup := h.nodup.erase c
      queued := fun w hw => h.queued w (List.mem_of_mem_erase hw) }
  exact h1.moves
    { gain := fun l hg => by rcases hg with hg | ⟨-, hg⟩ <;> cases hg
      keep := fun l c' _ hc' => h.locked l c' hc'
      pends := fun hpc => absurd hpc hpend
      grants := Or.inl rfl
      older := fun l hl => by cases hl
      refused := fun l hl => by cases hl
      owned := fun _ => Or.inr ⟨rfl, fun ho => by cases hq.symm.trans ho⟩
      queued := fun hqd => absurd hqd (h.nodup.not_mem_erase)
      grant := fun hw => by cases hw
      woke := fun hw => by cases hw
      since := fun x hx => by cases hx
      holder := Or.inl ⟨rfl, rfl⟩
      active := fun ha => by cases ha
      sync := by
        rw [show (s.setSlot { s.slot with waiters := s.slot.waiters.erase c }).place c = _ from hq]
        simp [Place.counted, setSlot] }

theorem inv_raiseAwait (h : Inv s) (c : Nat) (timedOut : Bool) :
    Inv (s.effect (.raiseAwait c timedOut)) := by
  unfold effect
  dsimp only
  split
  · rename_i since hq
    by_cases hw : (s.slot.waiter c).state = .waiting
    · rw [if_pos (Or.inl hw), WriterLock.leaveQueue, if_pos hw]
      refine ⟨h.core.leave hq hw _, fun hl hqd => h.free hl fun he => hqd ?_, h.raised⟩
      change s.slot.waiters.erase c = []
      rw [he]
      rfl
    · rw [WriterLock.leaveQueue, if_neg hw]
      by_cases ha : (s.slot.waiter c).state = .abandoned
      · rw [if_pos (Or.inr ha)]
        refine ⟨h.core.moveTask hq rfl (by simp) hw (fun hp => ?_) (fun hp => ?_) ?_
          (fun x hx => ?_), h.free, h.raised⟩
        · rw [(h.core.pending c hp).1] at ha
          cases ha
        · cases hp
        · simp [Place.holding, Place.named, Place.counted]
        · cases hx
      · rw [if_neg (not_or.2 ⟨hw, ha⟩)]
        split_ifs
        · refine ⟨h.core.moveTask hq rfl (by simp) hw (fun _ => rfl) (fun _ => rfl) ?_
            (fun x hx => hx), h.free, h.raised⟩
          simp [Place.holding, Place.named, Place.counted]
        · refine ⟨h.core.moveTask hq rfl (by simp) hw (fun _ => rfl) (fun _ => rfl) ?_
            (fun x hx => ?_), h.free, h.raised⟩
          · simp [Place.holding, Place.named, Place.counted]
          · cases hx
  · exact h

theorem inv_passOn (h : Inv s) (c : Nat) : Inv (s.effect (.passOn c)) := by
  unfold effect
  dsimp only
  split
  · rename_i hq
    have hend : ∀ t : System, Core t → t.place c = .leaving →
        (t.slot.waiter c).state ≠ .waiting → t.slot.pending ≠ some c →
        Core (t.move c (.failed .cancelled)) := fun t ht hq hst hp => by
      refine ht.moveTask hq rfl (by simp) hst (fun hpc => absurd hpc hp) (fun hw => ?_) ?_
        (fun x hx => ?_)
      · cases hw
      · simp [Place.holding, Place.named, Place.counted]
      · cases hx
    have hst := h.core.woke c (by rw [hq]; rfl)
    by_cases hg : (s.slot.waiter c).state = .granted
    · have hp := h.core.grant c (by rw [hq]; rfl) hg
      obtain ⟨h1, hfree⟩ := h.core.unpend hp
      have h2 := hend _ h1 hq (by simp [setSlot, WriterLock.setState, WriterLock.setWaiter])
        (by simp [setSlot])
      have hl : s.slot.locked s.slot.lock = true := h.core.locked _ c (Or.inr ⟨rfl, Or.inr hp⟩)
      have hfree2 : Ownerless ((s.setSlot { s.slot.setState c .abandoned with
          pending := none }).move c (.failed .cancelled)) := by
        intro a ha
        refine hfree a ?_
        by_cases hac : a = c
        · subst hac
          simp [Natively, Owns, move, setSlot, Place.holding] at ha
        · simpa only [Natively, Owns, move, setSlot, Function.update_of_ne hac] using ha
      obtain ⟨slot, heq, hpass⟩ := WriterLock.releaseLocked_spec h2.nodup hl
      obtain ⟨h3, hfr⟩ := h2.passed hfree2 hl hpass
      rw [(WriterLock.passOn_of_granted hg hp (h.core.pending c hp).2.1).trans heq]
      exact ⟨h3, hfr, h.raised⟩
    · rw [show s.slot.passOn c = .ok s.slot from if_pos hg]
      refine ⟨hend s h.core hq hst fun hp => hg (h.core.pending c hp).1, h.free, h.raised⟩
  · exact h

theorem inv_finish (h : Inv s) (c : Nat) : Inv (s.effect (.finish c)) := by
  unfold effect
  dsimp only
  split
  · rename_i since hq
    have hst := h.core.woke c (by rw [hq]; rfl)
    by_cases hg : (s.slot.waiter c).state = .granted
    · have hp := h.core.grant c (by rw [hq]; rfl) hg
      have hlk : (s.slot.waiter c).lock = some s.slot.lock := (h.core.pending c hp).2.1
      have hnat : s.Natively s.slot.lock c := Or.inr ⟨rfl, Or.inr hp⟩
      have hl := h.core.locked _ c hnat
      rw [WriterLock.granted_of_granted _ _ hg hp hlk]
      refine ⟨h.core.moves ?_, fun hfr => by simp [move, setSlot, hl] at hfr, h.raised⟩
      exact
        { gain := fun l hg => by
            rcases hg with hg | ⟨rfl, -⟩
            · cases hg
            · exact ⟨hl, Or.inl hnat⟩
          keep := fun l c' _ hc' => h.core.locked l c' hc'
          pends := fun hpc => by cases hpc
          grants := Or.inr ⟨hp, rfl⟩
          older := fun l hl' => (Option.some.inj hl').ge
          refused := fun l hl' => by cases hl'
          owned := fun _ => Or.inl rfl
          queued := fun hqd => absurd hqd (h.core.not_queued (Or.inr hst))
          grant := fun hw => by cases hw
          woke := fun hw => by cases hw
          since := fun x hx => by cases hx
          holder := Or.inr (Or.inr ⟨rfl, by rw [hq]; rfl⟩)
          active := fun ha => by cases ha
          sync := by rw [hq]; simp [Place.counted] }
    · have hnone : s.slot.granted (s.caller c) c c = none := WriterLock.granted_of_not _ _ hg
      rw [hnone]
      refine ⟨h.core.moveTask hq rfl (by simp) hst (fun hp => ?_) (fun hp => ?_) ?_
        (fun x hx => hx), h.free, h.raised⟩
      · exact absurd (h.core.pending c hp).1 hg
      · cases hp
      · simp [Place.holding, Place.named, Place.counted]
  · exact h

/-- `release_if_owned` of a coroutine that was refused finds nothing of its own. -/
theorem Core.releaseIfOwned (h : Core s) {c : Nat} {since : Option Nat}
    (hq : s.place c = .returning since) :
    s.slot.releaseIfOwned (s.caller c) since = .ok s.slot :=
  if_neg fun ⟨ho, hne, _⟩ => hne (h.since c since (by rw [hq]; rfl) ho)

theorem inv_releaseIfOwned (h : Inv s) (c : Nat) : Inv (s.effect (.releaseIfOwned c)) := by
  unfold effect
  dsimp only
  split
  · rename_i since hq
    rw [h.core.releaseIfOwned hq]
    refine ⟨h.core.moveThread hq (by simp [Place.waiting]) ?_ ?_ ?_ ?_ ?_, h.free, h.raised⟩ <;>
      simp [Place.waiting, Place.woke, Place.since, Place.holding, Place.named, Place.active,
        Place.counted]
  · exact h

/-! ## `release` and `close` -/

theorem inv_release (h : Inv s) (c : Nat) : Inv (s.effect (.release c)) := by
  unfold effect
  dsimp only
  split
  · rename_i l hq
    have hdrop : ∀ o d, (o.isSome → o = s.slot.owner ∧ d = s.slot.hold ∧ l ≠ s.slot.lock) →
        Core ((s.setSlot { s.slot with owner := o, hold := d }).move c (.released l)) := by
      intro o d ho
      exact h.core.moves
        { gain := fun l' hg => by rcases hg with hg | ⟨-, hg⟩ <;> cases hg
          keep := fun l' c' _ hc' => h.core.locked l' c' hc'
          pends := fun hpc => absurd hpc (h.core.not_pending (by rw [hq]; rfl))
          grants := Or.inl rfl
          older := fun l' hl' => by cases hl'
          refused := fun l' hl' => by cases hl'
          owned := fun hs => Or.inr ⟨(ho hs).1, fun hc => by
            rw [Owns, hq] at hc
            exact (ho hs).2.2 (Place.owns.inj hc)⟩
          queued := fun hqd => absurd hqd (h.core.not_queued (Or.inl (by rw [hq]; rfl)))
          grant := fun hw => by cases hw
          woke := fun hw => by cases hw
          since := fun x hx => by cases hx
          holder := by
            rcases o with _ | o
            · exact Or.inr (Or.inl rfl)
            · exact Or.inl ⟨(ho rfl).1, (ho rfl).2.1⟩
          active := fun ha => by cases ha
          sync := by rw [hq]; simp [Place.counted] }
    by_cases hl : l = s.slot.lock
    · subst hl
      have hnat : s.Natively s.slot.lock c := Or.inr ⟨rfl, Or.inl hq⟩
      have hl := h.core.locked _ c hnat
      have h1 := hdrop none none (by simp)
      have hfree := h.core.ownerless_move hnat (p := .released s.slot.lock)
        (by rw [hq]; rfl) rfl (by simp) (t := { s.slot with owner := none, hold := none }) rfl rfl
      obtain ⟨slot, heq, hp⟩ := WriterLock.releaseLocked_spec h1.nodup hl
      obtain ⟨h2, hfr⟩ := h1.passed hfree hl hp
      rw [(WriterLock.release_of_locked hl).trans heq]
      exact ⟨h2, hfr, h.raised⟩
    · have hrel : s.slot.release l = .ok s.slot := if_pos hl
      rw [hrel]
      exact ⟨hdrop s.slot.owner s.slot.hold fun _ => ⟨rfl, rfl, hl⟩, h.free, h.raised⟩
  · exact h

/-- What `close` leaves: a new free lock, nobody queued, every waiter told. -/
structure Closed (s t : WriterLock) : Prop where
  lock : t.lock = s.lock + 1
  fresh : t.locked t.lock = false
  locked : ∀ l, l ≠ s.lock → l ≠ t.lock → t.locked l = s.locked l
  old : s.owner = none → s.pending = none → t.locked s.lock = s.locked s.lock
  owner : t.owner = none
  pending : t.pending = none
  waiters : t.waiters = []
  syncWaiting : t.syncWaiting = s.syncWaiting
  told : ∀ v, v ∈ s.waiters ∨ s.pending = some v → (t.waiter v).state = .closed
  kept : ∀ v, ¬ (v ∈ s.waiters ∨ s.pending = some v) → t.waiter v = s.waiter v

/-- The loop of `close` over the queue. -/
theorem foldl_closed (l : List Nat) (t : WriterLock) :
    ∃ waiter, l.foldl (fun t w => ((t.setState w .closed).wake w).1) t = { t with waiter := waiter } ∧
      (∀ v ∈ l, (waiter v).state = .closed) ∧
      (∀ v, (t.waiter v).state = .closed → (waiter v).state = .closed) ∧
      ∀ v, v ∉ l → waiter v = t.waiter v := by
  induction l generalizing t with
  | nil => exact ⟨t.waiter, rfl, by simp, fun _ h => h, fun _ _ => rfl⟩
  | cons w rest ih =>
    have hwake : ∃ x : Waiter, x.state = .closed ∧ ((t.setState w .closed).wake w).1 =
        { t with waiter := Function.update t.waiter w x } := by
      unfold WriterLock.wake
      split_ifs
      · exact ⟨{ t.waiter w with state := .closed }, rfl, rfl⟩
      · refine ⟨{ t.waiter w with state := .closed, woken := true }, rfl, ?_⟩
        simp [WriterLock.setWaiter, WriterLock.setState]
    obtain ⟨x, hx, heq⟩ := hwake
    obtain ⟨waiter, hfold, hin, hkeep, hout⟩ :=
      ih { t with waiter := Function.update t.waiter w x }
    refine ⟨waiter, by rw [List.foldl_cons, heq]; exact hfold, fun v hv => ?_, fun v hv => ?_,
      fun v hv => ?_⟩
    · rcases List.mem_cons.1 hv with rfl | hv
      · exact hkeep v (by simp [hx])
      · exact hin v hv
    · refine hkeep v ?_
      by_cases hvw : v = w
      · subst hvw
        simp [hx]
      · simpa [hvw] using hv
    · rw [hout v fun hr => hv (List.mem_cons_of_mem w hr)]
      have hvw : v ≠ w := fun he => hv (by simp [he])
      simp [hvw]

theorem close_spec (h : Core s) : ∃ slot, s.slot.close = .ok slot ∧ Closed s.slot slot := by
  set old := s.slot with hold
  let t : WriterLock := { old with
    lock := old.lock + 1
    locked := Function.update old.locked (old.lock + 1) false
    owner := none
    hold := none
    pending := none
    waiters := []
    bargeNext := false }
  -- the old lock is released on behalf of its owner or of the pending grant, which hold it
  obtain ⟨locked, hun, hl1, hl2, hl3⟩ : ∃ locked,
      (if old.owner.isSome ∨ old.pending.isSome then t.unlock old.lock else .ok t) =
        .ok { t with locked := locked } ∧ locked (old.lock + 1) = false ∧
      (∀ l, l ≠ old.lock → l ≠ old.lock + 1 → locked l = old.locked l) ∧
      (old.owner = none → old.pending = none → locked old.lock = old.locked old.lock) := by
    by_cases hhas : old.owner.isSome ∨ old.pending.isSome
    · have hlk : old.locked old.lock = true := by
        rcases hhas with ho | hp
        · obtain ⟨c, hc⟩ := h.owner ho
          exact h.locked _ c (Or.inr ⟨rfl, Or.inl hc⟩)
        · obtain ⟨w, hw⟩ := Option.isSome_iff_exists.1 hp
          exact h.locked _ w (Or.inr ⟨rfl, Or.inr hw⟩)
      have htl : t.locked old.lock = true := by simp [t, hlk]
      refine ⟨Function.update t.locked old.lock false,
        by rw [if_pos hhas, WriterLock.unlock_of_locked htl], by simp [t], fun l h1 h2 => ?_,
        fun ho hp => ?_⟩
      · simp [t, h1, h2]
      · simp [ho, hp] at hhas
    · refine ⟨t.locked, by rw [if_neg hhas], by simp [t], fun l h1 h2 => ?_, fun _ _ => ?_⟩
      · simp [t, h2]
      · simp [t]
  obtain ⟨u, hu, hu1, hu2⟩ : ∃ u : WriterLock, old.pending.elim { t with locked := locked }
        (fun w => WriterLock.setState { t with locked := locked } w .closed) = u ∧
      (∃ waiter, u = { t with locked := locked, waiter := waiter }) ∧
      ∀ v, (old.pending = some v → (u.waiter v).state = .closed) ∧
        (old.pending ≠ some v → u.waiter v = old.waiter v) := by
    rcases hp : old.pending with _ | w
    · exact ⟨_, rfl, ⟨_, rfl⟩, fun v => ⟨fun hv => (by cases hv), fun _ => rfl⟩⟩
    · refine ⟨_, rfl, ⟨_, rfl⟩, fun v => ⟨fun hv => ?_, fun hv => ?_⟩⟩
      · obtain rfl := Option.some.inj hv
        simp [WriterLock.setState, WriterLock.setWaiter]
      · have hvw : v ≠ w := fun he => hv (congrArg some he.symm)
        simp [WriterLock.setState, WriterLock.setWaiter, hvw, t]
  obtain ⟨waiter, hfold, hin, hkeep, hout⟩ := foldl_closed old.waiters u
  have hclose : old.close = .ok { u with waiter := waiter } := by
    unfold WriterLock.close
    change (if old.owner.isSome ∨ old.pending.isSome then t.unlock old.lock else .ok t) >>= _ = _
    rw [hun]
    rw [← hfold, ← hu]
    cases old.pending <;> rfl
  obtain ⟨x, rfl⟩ := hu1
  refine ⟨_, hclose, rfl, hl1, hl2, hl3, rfl, rfl, rfl, rfl, fun v hv => ?_, fun v hv => ?_⟩
  · rcases hv with hv | hv
    · exact hin v hv
    · exact hkeep v ((hu2 v).1 hv)
  · obtain ⟨hq, hp⟩ := not_or.1 hv
    exact (hout v hq).trans ((hu2 v).2 hp)

theorem inv_close (h : Inv s) : Inv (s.effect .close) := by
  obtain ⟨slot, heq, hcl⟩ := close_spec h.core
  unfold effect
  dsimp only
  rw [heq]
  -- only a thread between its take and its record still has a lock: an old one
  have hnat : ∀ l c, (s.setSlot slot).Natively l c →
      (s.place c).holding = some l ∧ s.Natively l c ∧ l ≤ s.slot.lock := by
    rintro l c (hc | ⟨-, hc | hc⟩)
    · refine ⟨hc, Or.inl hc, h.core.older c l ?_⟩
      revert hc
      change (s.place c).holding = some l → _
      rcases s.place c with _ | _ | _ | _ | _ | _ | ⟨_, _ | _⟩ | _ | _ | _ | _ | _ | _ | _ | _ | _ | _ <;>
        simp [Place.holding, Place.named]
    · have := h.core.older c slot.lock (by rw [show s.place c = _ from hc]; rfl)
      rw [hcl.lock] at this
      omega
    · exact absurd (hcl.pending.symm.trans hc) (by simp)
  have hstate : ∀ v, (slot.waiter v).state ≠ .closed → slot.waiter v = s.slot.waiter v ∧
      v ∉ s.slot.waiters ∧ s.slot.pending ≠ some v := by
    intro v hv
    have hnot : ¬ (v ∈ s.slot.waiters ∨ s.slot.pending = some v) := fun hin => hv (hcl.told v hin)
    exact ⟨hcl.kept v hnot, not_or.1 hnot⟩
  refine ⟨⟨fun l a b ha hb => ?_, fun l a ha => ?_, fun a l ha => ?_, fun a l ha => ?_,
    fun ho => ?_, ?_, fun w hw => ?_, fun w hw => ?_, fun w hw hg => ?_, fun w hw => ?_,
    fun w hw => ?_, fun a x _ ho => ?_, h.core.busy, ?_⟩, fun _ hq => ?_, h.raised⟩
  · exact h.core.excl l a b (hnat l a ha).2.1 (hnat l b hb).2.1
  · obtain ⟨hhold, hold, hle⟩ := hnat l a ha
    have hlk := h.core.locked l a hold
    have hne : l ≠ slot.lock := by
      have := hcl.lock
      omega
    by_cases hl : l = s.slot.lock
    · subst hl
      -- the owner or the pending grant would have it, and neither is in mid-take
      have hnone : s.slot.owner = none ∧ s.slot.pending = none := by
        constructor
        · rcases ho : s.slot.owner with _ | me
          · rfl
          · obtain ⟨d, hd⟩ := h.core.owner (by simp [ho])
            obtain rfl := h.core.excl _ _ _ hold (Or.inr ⟨rfl, Or.inl hd⟩)
            rw [show s.place a = _ from hd] at hhold
            cases hhold
        · rcases hp : s.slot.pending with _ | w
          · rfl
          · obtain rfl := h.core.excl _ _ _ hold (Or.inr ⟨rfl, Or.inr hp⟩)
            have hw := (h.core.pending a hp).2.2
            revert hhold hw
            cases s.place a <;> simp [Place.holding, Place.waiting]
      exact (hcl.old hnone.1 hnone.2).trans hlk
    · exact (hcl.locked l hl hne).trans hlk
  · have := h.core.older a l ha
    have := hcl.lock
    change l ≤ slot.lock
    omega
  · have := h.core.older a l (by rw [show s.place a = _ from ha]; rfl)
    have := hcl.lock
    change l ≠ slot.lock
    omega
  · exact absurd ho (by simp [setSlot, hcl.owner])
  · change slot.waiters.Nodup
    rw [hcl.waiters]
    exact List.nodup_nil
  · rw [show (s.setSlot slot).slot.waiters = [] from hcl.waiters] at hw
    cases hw
  · exact absurd (hcl.pending.symm.trans hw) (by simp)
  · have hg : (slot.waiter w).state = .granted := hg
    obtain ⟨heq, -, hp⟩ := hstate w (by simp [hg])
    rw [heq] at hg
    exact absurd (h.core.grant w hw hg) hp
  · change (slot.waiter w).state ≠ .waiting
    intro hst
    obtain ⟨heq, -, -⟩ := hstate w (by simp [hst])
    have hw : (slot.waiter w).woken = true ∨ (slot.waiter w).future = .result := hw
    rw [heq] at hw hst
    exact h.core.woken w hw hst
  · change (slot.waiter w).state ≠ .waiting
    intro hst
    obtain ⟨heq, -, -⟩ := hstate w (by simp [hst])
    rw [heq] at hst
    exact h.core.woke w hw hst
  · exact absurd (hcl.owner.symm.trans ho) (by simp)
  · obtain ⟨counted, hn, hmem⟩ := h.core.sync
    exact ⟨counted, hcl.syncWaiting.trans hn, hmem⟩
  · exact absurd hcl.waiters hq

end Steps

/-! ## Runs -/

theorem inv_note {before s : System} (h : Inv s) (a : Act) : Inv (note before a s) := by
  unfold note
  split_ifs
  · exact h
  · exact ⟨{ h.core with }, h.free, h.raised⟩

theorem inv_effect {s : System} (h : Inv s) (a : Act) (hclean : ¬ s.StaleGiveBack a) :
    Inv (s.effect a) := by
  cases a with
  | startAcquire c me => exact inv_begin h c me (Or.inl rfl)
  | tryFast c => exact inv_tryFast h c
  | count c => exact inv_count h c
  | win c => exact inv_win h c
  | lapse c => exact inv_lapse h c
  | interrupt c => exact inv_interrupt h c
  | giveBack c => exact inv_giveBack h c hclean
  | giveUp c => exact inv_giveUp h c
  | heldBy c => exact inv_heldBy h c
  | releaseRefused c => exact inv_releaseRefused h c
  | startReserve c me => exact inv_begin h c me (Or.inr rfl)
  | reserve c loop => exact inv_reserve h c loop
  | runWakeUp w => exact inv_runWakeUp h w
  | cancelFuture w => exact inv_cancelFuture h w
  | closeLoop loop => exact inv_closeLoop h loop
  | resume c => exact inv_resume h c
  | raiseAwait c timedOut => exact inv_raiseAwait h c timedOut
  | passOn c => exact inv_passOn h c
  | finish c => exact inv_finish h c
  | releaseIfOwned c => exact inv_releaseIfOwned h c
  | release c => exact inv_release h c
  | close => exact inv_close h

theorem inv_step {s : System} (h : Inv s) (a : Act) (hclean : ¬ s.StaleGiveBack a) :
    Inv (s.step a) := inv_note (inv_effect h a hclean) a

theorem inv_foldl (acts : List Act) {s : System} (h : Inv s) (hclean : Clean s acts) :
    Inv (acts.foldl step s) := by
  induction acts generalizing s with
  | nil => exact h
  | cons a rest ih => exact ih (inv_step h a hclean.1) hclean.2

theorem inv_run (acts : List Act) (hclean : Clean start acts) : Inv (run acts) :=
  inv_foldl acts inv_start hclean

end System

end Virtuals.WriteSlot
