/-
  The invariant of the writer slot and what a handoff does to it.

  `Natively s l c` says that call `c` has native lock `l`: it took it and has not given it
  back, it was told it owns the current lock, or the current lock is in handoff to it. `Core`
  keeps at most one such call for each lock, old ones included, next to what the queue, the
  grants and the counter of waiting threads mean. `Free` adds that nobody is queued on a free
  lock unless a counted thread is about to take it.

  Two lemmas carry every step: `Core.moves`, for a call that goes on, and `Core.passed`, for
  a held slot nobody has that is passed on.
-/
import Virtuals.WriteSlot.System
import Mathlib.Data.Finset.Card
import Mathlib.Data.Finset.Insert
import Mathlib.Tactic.Linarith

namespace Virtuals.WriteSlot

/-! ## What a place means -/

/-- The native lock a call at this place took and has not recorded or given back. -/
def Place.holding : Place → Option Nat
  | .won lock | .taken lock | .refused lock | .interrupted lock true => some lock
  | _ => none

/-- The lock a call at this place names. -/
def Place.named : Place → Option Nat
  | .entered lock | .blocked lock | .won lock | .lapsed lock | .interrupted lock _ | .taken lock
  | .refused lock | .owns lock => some lock
  | _ => none

/-- A thread counted in `_sync_waiting`. -/
def Place.counted : Place → Bool
  | .blocked _ | .won _ | .lapsed _ | .interrupted _ _ => true
  | _ => false

/-- An `areserve` whose waiter may still be granted the slot. -/
def Place.waiting : Place → Bool
  | .awaiting _ | .ending _ | .leaving => true
  | _ => false

/-- The hold an `areserve` saw when it began. -/
def Place.since : Place → Option (Option Nat)
  | .arriving since | .awaiting since | .ending since | .returning since => some since
  | _ => none

/-- An `areserve` past its wait. -/
def Place.woke : Place → Bool
  | .ending _ | .leaving => true
  | _ => false

/-! ## What a handoff does -/

namespace WriterLock

/-- From a held, ownerless slot `s` to `t`: the first live waiter was granted the slot, or it was
    unlocked; the waiters before it are abandoned. -/
structure Passed (s t : WriterLock) : Prop where
  lock : t.lock = s.lock
  owner : t.owner = s.owner
  hold : t.hold = s.hold
  syncWaiting : t.syncWaiting = s.syncWaiting
  suffix : t.waiters <:+ s.waiters
  kept : ∀ v, v ∉ s.waiters ∨ v ∈ t.waiters → t.waiter v = s.waiter v
  future : ∀ v, (t.waiter v).future = (s.waiter v).future
  left : ∀ v ∈ s.waiters, v ∉ t.waiters → (t.waiter v).state = .abandoned ∨
    ((t.waiter v).state = .granted ∧ t.pending = some v)
  outcome : (∃ w ∈ s.waiters, w ∉ t.waiters ∧ t.pending = some w ∧ t.locked = s.locked ∧
      (t.waiter w).state = .granted ∧ (t.waiter w).lock = some s.lock) ∨
    (t.pending = s.pending ∧ t.locked = Function.update s.locked s.lock false ∧
      (t.waiters = [] ∨ s.syncWaiting ≠ 0))

theorem unlock_of_locked {s : WriterLock} {l : Nat} (h : s.locked l = true) :
    s.unlock l = .ok { s with locked := Function.update s.locked l false } := if_pos h

/-- Skipping a waiter that cannot take the slot. -/
theorem passed_skip {s t : WriterLock} {w : Nat} {rest : List Nat} (hw : w ∉ rest)
    (h : Passed { s.setState w .abandoned with waiters := rest } t) :
    Passed { s with waiters := w :: rest } t where
  lock := h.lock
  owner := h.owner
  hold := h.hold
  syncWaiting := h.syncWaiting
  suffix := h.suffix.trans (List.suffix_cons w rest)
  kept := fun v hv => by
    have hvw : v ≠ w := by
      rintro rfl
      rcases hv with hv | hv
      · simp at hv
      · exact hw (h.suffix.subset hv)
    rw [h.kept v (hv.imp_left fun hv hr => hv (List.mem_cons_of_mem w hr))]
    simp [setState, setWaiter, hvw]
  future := fun v => by
    rw [h.future v]
    by_cases hvw : v = w
    · subst hvw
      simp [setState, setWaiter]
    · simp [setState, setWaiter, hvw]
  left := fun v hv hnot => by
    rcases List.mem_cons.1 hv with rfl | hv
    · left
      rw [h.kept v (Or.inl hw)]
      simp [setState, setWaiter]
    · exact h.left v hv hnot
  outcome := h.outcome.imp_left fun ⟨v, hv, hrest⟩ => ⟨v, List.mem_cons_of_mem w hv, hrest⟩

/-- (PROVED) The loop of a handoff never raises on a held slot. -/
theorem handOffLoop_spec (l : List Nat) :
    ∀ s : WriterLock, l.Nodup → s.locked s.lock = true →
      ∃ t, handOffLoop l s = .ok t ∧ Passed { s with waiters := l } t := by
  induction l with
  | nil =>
    intro s _ hl
    refine ⟨{ s with
        waiters := [], locked := Function.update s.locked s.lock false, bargeNext := false },
      by simp only [handOffLoop, unlock, hl, if_true]; rfl, ?_⟩
    exact ⟨rfl, rfl, rfl, rfl, List.suffix_refl _, fun _ _ => rfl, fun _ => rfl,
      fun _ hv => absurd hv List.not_mem_nil, Or.inr ⟨rfl, rfl, Or.inl rfl⟩⟩
  | cons w rest ih =>
    intro s hnd hl
    obtain ⟨hw, hnd⟩ := List.nodup_cons.1 hnd
    by_cases hskip : (s.waiter w).state ≠ .waiting ∨ s.dead w = true
    · obtain ⟨t, heq, hp⟩ := ih ({ s with waiters := rest }.setState w .abandoned) hnd hl
      exact ⟨t, by simp only [handOffLoop]; rw [if_pos hskip]; exact heq, passed_skip hw hp⟩
    · have hlive := hskip
      simp only [dead, ne_eq, Bool.or_eq_true, decide_eq_true_eq, not_or, not_not] at hlive
      obtain ⟨hst, hloop, hfut⟩ := hlive
      have hgrant : handOffLoop (w :: rest) s = .ok { s with
          waiters := rest
          waiter := Function.update s.waiter w { s.waiter w with
            state := .granted, lock := some s.lock, woken := true }
          pending := some w
          bargeNext := true } := by
        simp only [handOffLoop]
        rw [if_neg hskip]
        simp [wake, setWaiter, hloop]
      refine ⟨_, hgrant, rfl, rfl, rfl, rfl, List.suffix_cons w rest, fun v hv => ?_, fun v => ?_,
        fun v hv hnot => ?_, Or.inl ⟨w, List.mem_cons_self, hw, rfl, rfl, by simp, by simp⟩⟩
      · have hvw : v ≠ w := by
          rintro rfl
          rcases hv with hv | hv
          · simp at hv
          · exact hw hv
        simp [hvw]
      · by_cases hvw : v = w
        · subst hvw
          simp
        · simp [hvw]
      · have hvw : v = w := (List.mem_cons.1 hv).resolve_right hnot
        subst hvw
        exact Or.inr ⟨by simp, rfl⟩

theorem handOff_spec {s : WriterLock} (hnd : s.waiters.Nodup) (hl : s.locked s.lock = true) :
    ∃ t, s.handOff = .ok t ∧ Passed s t := handOffLoop_spec s.waiters s hnd hl

/-- (PROVED) `_release_locked` never raises on a held slot, and unlocks it only when nobody is
    queued or a counted thread will take it. -/
theorem releaseLocked_spec {s : WriterLock} (hnd : s.waiters.Nodup)
    (hl : s.locked s.lock = true) : ∃ t, s.releaseLocked = .ok t ∧ Passed s t := by
  unfold releaseLocked
  by_cases hq : s.waiters ≠ [] ∧ ¬ (s.bargeNext = true ∧ s.syncWaiting ≠ 0)
  · rw [if_pos hq]
    exact handOff_spec hnd hl
  · rw [if_neg hq]
    refine ⟨{ s with locked := Function.update s.locked s.lock false, bargeNext := false },
      by rw [unlock_of_locked hl]; rfl, rfl, rfl, rfl, rfl, List.suffix_refl _, fun _ _ => rfl, fun _ => rfl, fun _ hv hnot => absurd hv hnot, Or.inr ⟨rfl, rfl, ?_⟩⟩
    by_cases hempty : s.waiters = []
    · exact Or.inl hempty
    · have : s.bargeNext = true ∧ s.syncWaiting ≠ 0 := by
        by_contra hb
        exact hq ⟨hempty, hb⟩
      exact Or.inr this.2

end WriterLock

namespace System

/-- Call `c` has native lock `l`. -/
def Natively (s : System) (l c : Nat) : Prop :=
  (s.place c).holding = some l ∨ (l = s.slot.lock ∧ (s.Owns c ∨ s.slot.pending = some c))

/-- What every reachable state keeps. -/
structure Core (s : System) : Prop where
  excl : ∀ l c c', s.Natively l c → s.Natively l c' → c = c'
  locked : ∀ l c, s.Natively l c → s.slot.locked l = true
  older : ∀ c l, (s.place c).named = some l → l ≤ s.slot.lock
  refused : ∀ c l, s.place c = .refused l → l ≠ s.slot.lock
  owner : s.slot.owner.isSome → ∃ c, s.Owns c
  nodup : s.slot.waiters.Nodup
  queued : ∀ w ∈ s.slot.waiters, (s.slot.waiter w).state = .waiting ∧
    ∃ since, s.place w = .awaiting since
  pending : ∀ w, s.slot.pending = some w → (s.slot.waiter w).state = .granted ∧
    (s.slot.waiter w).lock = some s.slot.lock ∧ (s.place w).waiting = true
  grant : ∀ w, (s.place w).waiting = true → (s.slot.waiter w).state = .granted →
    s.slot.pending = some w
  woken : ∀ w, (s.slot.waiter w).woken = true ∨ (s.slot.waiter w).future = .result →
    (s.slot.waiter w).state ≠ .waiting
  woke : ∀ w, (s.place w).woke = true → (s.slot.waiter w).state ≠ .waiting
  since : ∀ c since, (s.place c).since = some since → s.slot.owner = some (s.caller c) →
    s.slot.hold = since
  busy : ∀ c, (s.place c).active = true → s.busy (s.caller c) = some c
  sync : ∃ counted : Finset Nat, s.slot.syncWaiting = counted.card ∧
    ∀ c, c ∈ counted ↔ (s.place c).counted = true

/-- Nobody is queued on a free lock, unless a counted thread will take it or hand it on. -/
def Free (s : System) : Prop :=
  s.slot.locked s.slot.lock = false → s.slot.waiters ≠ [] → s.slot.syncWaiting ≠ 0

theorem core_start : Core start where
  excl := by simp [Natively, Owns, start, Place.holding, WriterLock.new]
  locked := by simp [Natively, Owns, start, Place.holding, WriterLock.new]
  older := by simp [start, Place.named]
  refused := by simp [start]
  owner := by simp [start, WriterLock.new]
  nodup := by simp [start, WriterLock.new]
  queued := by simp [start, WriterLock.new]
  pending := by simp [start, WriterLock.new]
  grant := by simp [start, Place.waiting]
  woken := by simp [start, WriterLock.new]
  woke := by simp [start, Place.woke]
  since := by simp [start, Place.since]
  busy := by simp [start, Place.active]
  sync := ⟨∅, rfl, by simp [start, Place.counted]⟩

theorem free_start : Free start := by simp [Free, start, WriterLock.new]

/-! ## One call moves -/

/-- The thread counter after call `c` went from place `q` to place `p`. -/
theorem exists_counted {place : Nat → Place} {n : Int} {c : Nat} {p : Place}
    (h : ∃ counted : Finset Nat, n = counted.card ∧ ∀ x, x ∈ counted ↔ (place x).counted = true) :
    ∃ counted : Finset Nat,
      n + (if p.counted then 1 else 0) - (if (place c).counted then 1 else 0) = counted.card ∧
        ∀ x, x ∈ counted ↔ (Function.update place c p x).counted = true := by
  obtain ⟨counted, hn, hmem⟩ := h
  by_cases hp : p.counted = true <;> by_cases hq : (place c).counted = true
  · refine ⟨counted, by simp [hn, hp, hq], fun x => ?_⟩
    by_cases hx : x = c
    · simp [hx, hp, (hmem c).2 hq]
    · simp [hx, hmem]
  · refine ⟨insert c counted, ?_, fun x => ?_⟩
    · have hc : c ∉ counted := fun hc => hq ((hmem c).1 hc)
      simp [hn, hp, hq, Finset.card_insert_of_notMem hc]
    · by_cases hx : x = c
      · simp [hx, hp]
      · simp [hx, hmem]
  · refine ⟨counted.erase c, ?_, fun x => ?_⟩
    · have hc : c ∈ counted := (hmem c).2 hq
      have := Finset.card_erase_add_one hc
      simp only [hn, hp, hq, if_true]
      simp
      omega
    · by_cases hx : x = c
      · simp [hx, hp]
      · simp [hx, hmem]
  · refine ⟨counted, by simp [hn, hp, hq], fun x => ?_⟩
    by_cases hx : x = c
    · simp [hx, hp, hmem, hq]
    · simp [hx, hmem]

/-- What a move of call `c` to place `p` has to respect, next to a new native state, owner `o`,
    hold `d`, pending grant `q` and counter of the slot: it names a lock it had or one that was
    free, gives back at most its own, and leaves the queue and the grants in step. -/
structure Moves (s : System) (c : Nat) (p : Place) (locked : Nat → Bool) (o d q : Option Nat)
    (n : Int) : Prop where
  gain : ∀ l, p.holding = some l ∨ (l = s.slot.lock ∧ p = .owns l) →
    locked l = true ∧ (s.Natively l c ∨ s.slot.locked l = false)
  keep : ∀ l c', c' ≠ c → s.Natively l c' → locked l = true
  pends : q = some c → p.waiting = true ∧ locked s.slot.lock = true
  grants : q = s.slot.pending ∨ (s.slot.pending = some c ∧ q = none)
  older : ∀ l, p.named = some l → l ≤ s.slot.lock
  refused : ∀ l, p = .refused l → l ≠ s.slot.lock
  owned : o.isSome → p = .owns s.slot.lock ∨ (o = s.slot.owner ∧ ¬ s.Owns c)
  queued : c ∈ s.slot.waiters → ∃ since, p = .awaiting since
  grant : p.waiting = true → (s.slot.waiter c).state = .granted → q = some c
  woke : p.woke = true → (s.slot.waiter c).state ≠ .waiting
  since : ∀ since, p.since = some since → o = some (s.caller c) → d = since
  holder : (o = s.slot.owner ∧ d = s.slot.hold) ∨ o = none ∨
    (o = some (s.caller c) ∧ (s.place c).active = true)
  active : p.active = true → (s.place c).active = true
  sync : n = s.slot.syncWaiting + (if p.counted then 1 else 0) -
    (if (s.place c).counted then 1 else 0)

/-- Call `c` at `p`, over the slot with a new native state, owner, hold, grant and counter. -/
def change (s : System) (c : Nat) (p : Place) (locked : Nat → Bool) (o d q : Option Nat) (n : Int) :
    System :=
  (s.setSlot { s.slot with
    locked := locked, owner := o, hold := d, pending := q, syncWaiting := n }).move c p

section Change

variable {s : System} {c : Nat} {p : Place} {locked : Nat → Bool} {o d q : Option Nat} {n : Int}

theorem place_change (a : Nat) :
    (s.change c p locked o d q n).place a = if a = c then p else s.place a := by
  simp [change, move, setSlot, Function.update_apply]

theorem Moves.pending (hm : Moves s c p locked o d q n) {w : Nat} (h : q = some w) :
    s.slot.pending = some w := by
  rcases hm.grants with he | ⟨-, he⟩
  · exact he.symm.trans h
  · exact absurd (he.symm.trans h) (by simp)

/-- Who has a lock after a move had it before, or is the call that took it. -/
theorem Moves.natively (hm : Moves s c p locked o d q n) {l a : Nat}
    (h : Natively (s.change c p locked o d q n) l a) :
    locked l = true ∧ (s.Natively l a ∨ (a = c ∧ s.slot.locked l = false)) := by
  unfold Natively Owns at h
  rw [place_change] at h
  by_cases hac : a = c
  · subst hac
    rw [if_pos rfl] at h
    rcases h with h | ⟨hl, h | h⟩
    · exact ⟨(hm.gain l (Or.inl h)).1, (hm.gain l (Or.inl h)).2.imp_right fun hl => ⟨rfl, hl⟩⟩
    · obtain rfl : l = s.slot.lock := hl
      have := hm.gain _ (Or.inr ⟨rfl, h⟩)
      exact ⟨this.1, this.2.imp_right fun hl => ⟨rfl, hl⟩⟩
    · obtain rfl : l = s.slot.lock := hl
      exact ⟨(hm.pends h).2, Or.inl (Or.inr ⟨rfl, Or.inr (hm.pending h)⟩)⟩
  · rw [if_neg hac] at h
    have hold : s.Natively l a := h.imp_right fun ⟨hl, ho⟩ => ⟨hl, ho.imp_right hm.pending⟩
    exact ⟨hm.keep l a hac hold, Or.inl hold⟩

/-- A call that is under way is the only one of its thread or task. -/
theorem Core.caller_ne (h : Core s) {a b : Nat} (ha : (s.place a).active = true)
    (hb : (s.place b).active = true) (hab : a ≠ b) : s.caller a ≠ s.caller b := fun he => by
  have := h.busy a ha
  rw [he, h.busy b hb] at this
  exact hab (Option.some.inj this).symm

theorem Place.active_of_since {p : Place} {since : Option Nat} (h : p.since = some since) :
    p.active = true := by
  cases p <;> simp_all [Place.since, Place.active]

/-- (PROVED) A call that moves as it may keeps the invariant. -/
theorem Core.moves (h : Core s) (hm : Moves s c p locked o d q n) :
    Core (s.change c p locked o d q n) where
  excl := fun l a b ha hb => by
    obtain ⟨-, ha⟩ := hm.natively ha
    obtain ⟨-, hb⟩ := hm.natively hb
    rcases ha with ha | ⟨hac, hl⟩ <;> rcases hb with hb | ⟨hbc, hl'⟩
    · exact h.excl l a b ha hb
    · simp [h.locked l a ha] at hl'
    · simp [h.locked l b hb] at hl
    · exact hac.trans hbc.symm
  locked := fun l a ha => (hm.natively ha).1
  older := fun a l ha => by
    rw [place_change] at ha
    split_ifs at ha
    · exact hm.older l ha
    · exact h.older a l ha
  refused := fun a l ha => by
    rw [place_change] at ha
    split_ifs at ha
    · exact hm.refused l ha
    · exact h.refused a l ha
  owner := fun ho => by
    rcases hm.owned ho with hp | ⟨heq, hno⟩
    · exact ⟨c, by rw [Owns, place_change, if_pos rfl, hp]; rfl⟩
    · obtain ⟨a, ha⟩ := h.owner (heq ▸ ho)
      have hac : a ≠ c := fun he => hno (he ▸ ha)
      exact ⟨a, by rw [Owns, place_change, if_neg hac]; exact ha⟩
  nodup := h.nodup
  queued := fun w hw => by
    obtain ⟨hst, hpl⟩ := h.queued w hw
    refine ⟨hst, ?_⟩
    rw [place_change]
    split_ifs with hwc
    · exact hm.queued (hwc ▸ hw)
    · exact hpl
  pending := fun w hw => by
    obtain ⟨hst, hl, hpl⟩ := h.pending w (hm.pending hw)
    refine ⟨hst, hl, ?_⟩
    rw [place_change]
    split_ifs with hwc
    · exact (hm.pends (hwc ▸ hw)).1
    · exact hpl
  grant := fun w hw hg => by
    rw [place_change] at hw
    split_ifs at hw with hwc
    · subst hwc
      exact hm.grant hw hg
    · have hpw := h.grant w hw hg
      rcases hm.grants with he | ⟨hpc, -⟩
      · exact he.trans hpw
      · exact absurd (Option.some.inj (hpw.symm.trans hpc)) hwc
  woken := h.woken
  woke := fun w hw => by
    rw [place_change] at hw
    split_ifs at hw with hwc
    · subst hwc
      exact hm.woke hw
    · exact h.woke w hw
  since := fun a x ha ho => by
    rw [place_change] at ha
    split_ifs at ha with hac
    · subst hac
      exact hm.since x ha ho
    · rcases hm.holder with ⟨heq, heq'⟩ | hnone | ⟨hme, hact⟩
      · exact heq'.trans (h.since a x ha (heq.symm.trans ho))
      · exact absurd (hnone.symm.trans ho) (by simp)
      · -- another call of the same thread or task cannot be under way
        exact absurd (Option.some.inj (ho.symm.trans hme))
          (h.caller_ne (Place.active_of_since ha) hact hac)
  busy := fun a ha => by
    rw [place_change] at ha
    change (if (s.place c).active ∧ p.active = false then
      Function.update s.busy (s.caller c) none else s.busy) (s.caller a) = some a
    split_ifs at ha with hac
    · subst hac
      rw [if_neg (by simp [ha]), h.busy a (hm.active ha)]
    · split_ifs with hend
      · rw [Function.update_of_ne (h.caller_ne ha hend.1 hac), h.busy a ha]
      · exact h.busy a ha
  sync := by
    have := exists_counted (c := c) (p := p) h.sync
    rwa [← hm.sync] at this

end Change

/-! ## The slot passed on -/

/-- Nobody has the current lock. -/
def Ownerless (s : System) : Prop := ∀ c, ¬ s.Natively s.slot.lock c

/-- (PROVED) A held slot nobody has, passed on: the invariant stays, and if the slot came free
    nobody is left queued on it. -/
theorem Core.passed {s : System} (h : Core s) (hfree : s.Ownerless)
    (hl : s.slot.locked s.slot.lock = true) {slot : WriterLock} (hp : WriterLock.Passed s.slot slot) : Core (s.setSlot slot) ∧ Free (s.setSlot slot) := by
  have hpend : s.slot.pending = none := by
    rcases he : s.slot.pending with _ | w
    · rfl
    · exact absurd (Or.inr ⟨rfl, Or.inr he⟩) (hfree w)
  have howner : s.slot.owner = none := by
    rcases he : s.slot.owner with _ | me
    · rfl
    · obtain ⟨c, hc⟩ := h.owner (by simp [he])
      exact absurd (Or.inr ⟨rfl, Or.inl hc⟩) (hfree c)
  -- the only new holder is the waiter the slot was granted to
  have hnat : ∀ l c, (s.setSlot slot).Natively l c →
      (l ≠ s.slot.lock ∧ s.Natively l c) ∨ (l = s.slot.lock ∧ slot.pending = some c) := by
    rintro l c (hc | ⟨hl, hc | hc⟩)
    · by_cases hl : l = s.slot.lock
      · exact absurd (Or.inl (hl ▸ hc)) (hfree c)
      · exact Or.inl ⟨hl, Or.inl hc⟩
    · have hc' : s.Owns c := by rw [Owns, ← hp.lock]; exact hc
      exact absurd (Or.inr ⟨rfl, Or.inl hc'⟩) (hfree c)
    · exact Or.inr ⟨hl.trans hp.lock, hc⟩
  have hlocked : ∀ l, l ≠ s.slot.lock → slot.locked l = s.slot.locked l := by
    intro l hl
    rcases hp.outcome with ⟨-, -, -, -, heq, -⟩ | ⟨-, heq, -⟩ <;> rw [heq]
    simp [hl]
  have hgranted : ∀ w, slot.pending = some w → w ∈ s.slot.waiters ∧ w ∉ slot.waiters ∧
      slot.locked = s.slot.locked ∧ (slot.waiter w).state = .granted ∧
      (slot.waiter w).lock = some s.slot.lock := by
    intro w hw
    rcases hp.outcome with ⟨v, hv, hnot, hpv, heq, hst, hlk⟩ | ⟨heq, -⟩
    · obtain rfl := Option.some.inj (hpv.symm.trans hw)
      exact ⟨hv, hnot, heq, hst, hlk⟩
    · rw [heq, hpend] at hw
      cases hw
  have hleft : ∀ v ∈ s.slot.waiters, v ∉ slot.waiters → (slot.waiter v).state ≠ .waiting :=
    fun v hv hnot hst => by
      rcases hp.left v hv hnot with he | ⟨he, -⟩ <;> simp [he] at hst
  have hkeep : ∀ v, v ∉ s.slot.waiters → slot.waiter v = s.slot.waiter v := fun v hv =>
    hp.kept v (Or.inl hv)
  constructor
  · refine ⟨fun l a b ha hb => ?_, fun l a ha => ?_, fun a l ha => ?_, fun a l ha => ?_,
      fun ho => ?_, hp.suffix.nodup h.nodup, fun w hw => ?_, fun w hw => ?_, fun w hw hg => ?_,
      fun w hw => ?_, fun w hw => ?_, fun a x ha ho => ?_, h.busy, ?_⟩
    · rcases hnat l a ha with ⟨hne, ha⟩ | ⟨he, ha⟩ <;> rcases hnat l b hb with ⟨hne', hb⟩ | ⟨he', hb⟩
      · exact h.excl l a b ha hb
      · exact absurd he' hne
      · exact absurd he hne'
      · exact Option.some.inj (ha.symm.trans hb)
    · rcases hnat l a ha with ⟨hne, hold⟩ | ⟨rfl, hpa⟩
      · exact (hlocked l hne).trans (h.locked l a hold)
      · rw [setSlot, (hgranted a hpa).2.2.1]
        exact hl
    · exact (h.older a l ha).trans_eq hp.lock.symm
    · exact fun he => h.refused a l ha (he.trans hp.lock)
    · exact absurd ho (by simp [setSlot, hp.owner, howner])
    · obtain ⟨hst, hpl⟩ := h.queued w (hp.suffix.subset hw)
      exact ⟨by rw [setSlot, hp.kept w (Or.inr hw)]; exact hst, hpl⟩
    · obtain ⟨hq, -, -, hst, hlk⟩ := hgranted w hw
      obtain ⟨-, since, hpl⟩ := h.queued w hq
      exact ⟨hst, hlk.trans (congrArg some hp.lock.symm), by simp [setSlot, hpl, Place.waiting]⟩
    · by_cases hq : w ∈ s.slot.waiters
      · by_cases hq' : w ∈ slot.waiters
        · rw [setSlot, hp.kept w (Or.inr hq'), (h.queued w hq).1] at hg
          cases hg
        · rcases hp.left w hq hq' with he | ⟨-, he⟩
          · rw [setSlot, he] at hg
            cases hg
          · exact he
      · rw [setSlot, hkeep w hq] at hg
        rw [h.grant w hw hg] at hpend
        cases hpend
    · by_cases hq : w ∈ s.slot.waiters
      · by_cases hq' : w ∈ slot.waiters
        · rw [setSlot, hp.kept w (Or.inr hq')] at hw ⊢
          exact h.woken w hw
        · exact hleft w hq hq'
      · rw [setSlot, hkeep w hq] at hw ⊢
        exact h.woken w hw
    · have hq : w ∉ s.slot.waiters := fun hq => h.woke w hw (h.queued w hq).1
      rw [setSlot, hkeep w hq]
      exact h.woke w hw
    · rw [setSlot, hp.owner, howner] at ho
      cases ho
    · obtain ⟨counted, hn, hmem⟩ := h.sync
      exact ⟨counted, hp.syncWaiting.trans hn, hmem⟩
  · intro hfr hq
    rcases hp.outcome with ⟨-, -, -, -, heq, -⟩ | ⟨-, -, hempty | hsync⟩
    · rw [setSlot, heq, hp.lock, hl] at hfr
      cases hfr
    · exact absurd hempty hq
    · exact fun h0 => hsync (hp.syncWaiting.symm.trans h0)

/-- A lock taken or kept: more native locks are held. -/
theorem Core.setLocked {s : System} (h : Core s) (locked : Nat → Bool)
    (hl : ∀ l, s.slot.locked l = true → locked l = true) :
    Core (s.setSlot { s.slot with locked := locked }) :=
  { h with locked := fun l c hc => hl l (h.locked l c hc) }

theorem ownerless_of_unlocked {s : System} (h : Core s)
    (hl : s.slot.locked s.slot.lock = false) : s.Ownerless := fun c hc => by
  simp [h.locked _ c hc] at hl

/-- A grant taken back: the slot is held and nobody has it. -/
theorem Core.unpend {s : System} (h : Core s) {w : Nat} (hw : s.slot.pending = some w) :
    Core (s.setSlot { s.slot.setState w .abandoned with pending := none }) ∧
      Ownerless (s.setSlot { s.slot.setState w .abandoned with pending := none }) := by
  obtain ⟨hst, hlk, hpl⟩ := h.pending w hw
  have hnat : s.Natively s.slot.lock w := Or.inr ⟨rfl, Or.inr hw⟩
  have hother : ∀ v, v ≠ w → (s.slot.setState w .abandoned).waiter v = s.slot.waiter v :=
    fun v hv => by simp [WriterLock.setState, WriterLock.setWaiter, hv]
  have hself : ((s.slot.setState w .abandoned).waiter w).state = .abandoned := by
    simp [WriterLock.setState, WriterLock.setWaiter]
  have hqueue : ∀ v ∈ s.slot.waiters, v ≠ w := by
    rintro v hv rfl
    rw [(h.queued v hv).1] at hst
    cases hst
  have hsub : ∀ l c, (s.setSlot { s.slot.setState w .abandoned with pending := none }).Natively l c →
      s.Natively l c := fun l c hc => hc.imp_right fun ⟨hl, ho⟩ =>
    ⟨hl, ho.imp_right fun hnone => by cases hnone⟩
  constructor
  · exact
    { h with
      excl := fun l a b ha hb => h.excl l a b (hsub l a ha) (hsub l b hb)
      locked := fun l a ha => h.locked l a (hsub l a ha)
      queued := fun v hv => by
        have hq := h.queued v hv
        rw [← hother v (hqueue v hv)] at hq
        exact hq
      pending := fun v hv => by cases hv
      grant := fun v hv hg => by
        by_cases hvw : v = w
        · subst hvw
          exact absurd (hself.symm.trans hg) (by simp)
        · have hg' : (s.slot.waiter v).state = .granted := by rw [← hother v hvw]; exact hg
          exact absurd (Option.some.inj ((h.grant v hv hg').symm.trans hw)) hvw
      woken := fun v hv => by
        by_cases hvw : v = w
        · subst hvw
          exact fun he => absurd (hself.symm.trans he) (by simp)
        · change ((s.slot.setState w .abandoned).waiter v).woken = true ∨
            ((s.slot.setState w .abandoned).waiter v).future = .result at hv
          rw [hother v hvw] at hv
          change ((s.slot.setState w .abandoned).waiter v).state ≠ .waiting
          rw [hother v hvw]
          exact h.woken v hv
      woke := fun v hv => by
        by_cases hvw : v = w
        · subst hvw
          exact fun he => absurd (hself.symm.trans he) (by simp)
        · change ((s.slot.setState w .abandoned).waiter v).state ≠ .waiting
          rw [hother v hvw]
          exact h.woke v hv }
  · rintro c (hc | ⟨-, hc | hc⟩)
    · obtain rfl := h.excl _ _ _ (Or.inl hc) hnat
      change (s.place c).holding = some s.slot.lock at hc
      revert hc hpl
      cases s.place c <;> simp [Place.holding, Place.waiting]
    · obtain rfl := h.excl _ _ _ (Or.inr ⟨rfl, Or.inl hc⟩) hnat
      rw [show s.place c = .owns s.slot.lock from hc] at hpl
      simp [Place.waiting] at hpl
    · cases hc

/-- (PROVED) `_reclaim_dead_pending` never raises and keeps the invariant. -/
theorem Core.reclaim {s : System} (h : Core s) : ∃ slot, s.slot.reclaimDeadPending = .ok slot ∧
    Core (s.setSlot slot) ∧ (s.Free → Free (s.setSlot slot)) ∧ slot.lock = s.slot.lock ∧
    slot.syncWaiting = s.slot.syncWaiting := by
  unfold WriterLock.reclaimDeadPending
  rcases hw : s.slot.pending with _ | w
  · exact ⟨s.slot, rfl, h, id, rfl, rfl⟩
  dsimp only
  split_ifs with hdead hlk
  · obtain ⟨h1, hfree⟩ := h.unpend hw
    have hl : s.slot.locked s.slot.lock = true := h.locked _ w (Or.inr ⟨rfl, Or.inr hw⟩)
    obtain ⟨slot, heq, hp⟩ := WriterLock.releaseLocked_spec (s := { s.slot.setState w .abandoned with
      pending := none }) h1.nodup hl
    obtain ⟨h2, hfr⟩ := h1.passed hfree hl hp
    exact ⟨slot, heq, h2, fun _ => hfr, hp.lock, hp.syncWaiting⟩
  · -- a pending grant is always of the current lock
    refine absurd ?_ hlk
    simp [WriterLock.setState, WriterLock.setWaiter, (h.pending w hw).2.1]
  · exact ⟨s.slot, rfl, h, id, rfl, rfl⟩

/-- (PROVED) `_rescue_queue` never raises and leaves nobody queued on a free lock. -/
theorem Core.rescue {s : System} (h : Core s) : ∃ slot, s.slot.rescueQueue = .ok slot ∧
    Core (s.setSlot slot) ∧ Free (s.setSlot slot) ∧ slot.lock = s.slot.lock := by
  unfold WriterLock.rescueQueue WriterLock.tryLock
  by_cases hq : s.slot.waiters ≠ []
  · rw [if_pos hq]
    by_cases hl : s.slot.locked s.slot.lock = true
    · exact ⟨s.slot, by simp [hl], h, fun hfr => by simp [setSlot, hl] at hfr, rfl⟩
    · have hl' : s.slot.locked s.slot.lock = false := by simpa using hl
      have h1 := h.setLocked (Function.update s.slot.locked s.slot.lock true)
        fun l hl => by by_cases he : l = s.slot.lock <;> simp [he, hl]
      have hfree : Ownerless (s.setSlot { s.slot with
          locked := Function.update s.slot.locked s.slot.lock true }) :=
        fun c hc => ownerless_of_unlocked h hl' c hc
      obtain ⟨slot, heq, hp⟩ := WriterLock.handOff_spec (s := { s.slot with
        locked := Function.update s.slot.locked s.slot.lock true }) h.nodup (by simp)
      obtain ⟨h2, hfr⟩ := h1.passed hfree (by simp [setSlot]) hp
      exact ⟨slot, by simp only [hl', Bool.false_eq_true, if_false]; exact heq, h2, hfr, hp.lock⟩
  · exact ⟨s.slot, if_neg hq, h, fun _ hne => absurd hne hq, rfl⟩

/-! ## Moves over an unchanged slot -/

theorem move_eq_change (s : System) (c : Nat) (p : Place) : s.move c p =
    s.change c p s.slot.locked s.slot.owner s.slot.hold s.slot.pending s.slot.syncWaiting := rfl

theorem Core.not_pending {s : System} (h : Core s) {c : Nat} (hc : (s.place c).waiting = false) :
    s.slot.pending ≠ some c := fun hp => by simp [(h.pending c hp).2.2] at hc

theorem Core.not_queued {s : System} (h : Core s) {c : Nat}
    (hc : (s.place c).waiting = false ∨ (s.slot.waiter c).state ≠ .waiting) :
    c ∉ s.slot.waiters := fun hq => by
  obtain ⟨hst, since, hpl⟩ := h.queued c hq
  rcases hc with hc | hc
  · simp [hpl, Place.waiting] at hc
  · exact hc hst

/-- A call of a thread moves on, having what it had or less. -/
theorem Core.moveThread {s : System} (h : Core s) {c : Nat} {p q : Place} (hq : s.place c = q)
    (hnot : q.waiting = false ∧ ∀ l, q ≠ .owns l)
    (hp : p.waiting = false ∧ p.woke = false ∧ (p.since = none ∨ p.since = q.since) ∧
      (∀ l, p ≠ .owns l) ∧ ∀ l, p ≠ .refused l)
    (hold : ∀ l, p.holding = some l → q.holding = some l)
    (hnamed : ∀ l, p.named = some l → q.named = some l)
    (hactive : p.active = true → q.active = true) (hsync : p.counted = q.counted) :
    Core (s.move c p) := by
  subst hq
  rw [move_eq_change]
  have hpend := h.not_pending hnot.1
  exact h.moves
    { gain := fun l hg => by
        rcases hg with hg | ⟨-, hg⟩
        · exact ⟨h.locked l c (Or.inl (hold l hg)), Or.inl (Or.inl (hold l hg))⟩
        · exact absurd hg (hp.2.2.2.1 l)
      keep := fun l c' _ hc' => h.locked l c' hc'
      pends := fun hpc => absurd hpc hpend
      grants := Or.inl rfl
      older := fun l hl => h.older c l (hnamed l hl)
      refused := fun l hl => absurd hl (hp.2.2.2.2 l)
      owned := fun _ => Or.inr ⟨rfl, hnot.2 _⟩
      queued := fun hqd => absurd hqd (h.not_queued (Or.inl hnot.1))
      grant := fun hw => by simp [hp.1] at hw
      woke := fun hw => by simp [hp.2.1] at hw
      since := fun x hx ho => by
        rcases hp.2.2.1 with hn | hn
        · simp [hn] at hx
        · exact h.since c x (hn.symm.trans hx) ho
      holder := Or.inl ⟨rfl, rfl⟩
      active := hactive
      sync := by rw [hsync]; omega }

end System

end Virtuals.WriteSlot
