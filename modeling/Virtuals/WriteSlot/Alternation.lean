/-
  Threads and coroutines take turns.

  Every guarded section is a run of events between the phases of the slot, with the coroutines served
  in the order of the queue: a handoff skips none that could take the slot. Read off the steps of a
  run, this bounds what may overtake a coroutine that stays queued and live.
-/
import Virtuals.WriteSlot.Events
import Virtuals.WriteSlot.Exclusion
import Virtuals.WriteSlot.Grants

namespace Virtuals.WriteSlot

namespace WriterLock

variable {s t u : WriterLock} {es es' : List Event}

/-! ## Events of the sections -/

def phase (s : WriterLock) : Phase := ⟨s.locked s.lock, s.bargeNext⟩

/-- A coroutine that can take a grant. -/
def Able (s : WriterLock) (w : Nat) : Prop := (s.waiter w).state = .waiting ∧ s.dead w = false

instance (s : WriterLock) (w : Nat) : Decidable (s.Able w) := by unfold Able; infer_instance

/-- A live coroutine is queued. -/
def Live (s : WriterLock) (w : Nat) : Prop := w ∈ s.waiters ∧ s.Able w

instance (s : WriterLock) (w : Nat) : Decidable (s.Live w) := by unfold Live; infer_instance

def Queues (s : WriterLock) : Prop := ∃ w, s.Live w

/-- What a give-up came to. -/
def outcome (t : WriterLock) : Event :=
  match t.pending with
  | some w => .grants w
  | none => .unlocks

def releaseEvents (s : WriterLock) : List Event :=
  match s.releaseLocked with
  | .ok t => [t.outcome]
  | .error _ => []

/-- The slot as `_reclaim_dead_pending` and `_pass_on` give it up for `w`. -/
def abandon (s : WriterLock) (w : Nat) : WriterLock :=
  { s.setState w .abandoned with pending := none }

def reclaimEvents (s : WriterLock) : List Event :=
  match s.pending with
  | none => []
  | some w =>
    if (s.waiter w).state = .granted ∧ s.loopClosed (s.waiter w).loop = true ∧
        (s.waiter w).lock = some s.lock then (s.abandon w).releaseEvents
    else []

def rescueEvents (s : WriterLock) : List Event :=
  if s.waiters ≠ [] then
    match s.tryLock s.lock with
    | some s =>
      match s.handOff with
      | .ok t => (t.pending.map Event.rescues).toList
      | .error _ => []
    | none => []
  else []

/-- A thread that stops waiting. -/
def giveUpEvents (s : WriterLock) : List Event :=
  { s with syncWaiting := s.syncWaiting - 1 }.reclaimEvents ++
    match reclaimDeadPending { s with syncWaiting := s.syncWaiting - 1 } with
    | .ok t => t.rescueEvents
    | .error _ => []

def passOnEvents (s : WriterLock) (w : Nat) : List Event :=
  if (s.waiter w).state = .granted ∧ (s.waiter w).lock = some s.lock then
    (if s.pending = some w then s.abandon w else s.setState w .abandoned).releaseEvents
  else []

def takeEvents (s : WriterLock) (c lock : Nat) : List Event :=
  if lock = s.lock ∧ s.locked lock = false then [.takes c] else []

/-! ## What a handoff skips -/

/-- (PROVED) A handoff serves the first coroutine that can take the slot. -/
theorem handOffLoop_first (l : List Nat) :
    ∀ s : WriterLock, s.locked s.lock = true → s.pending = none →
      ∃ t, handOffLoop l s = .ok t ∧ t.lock = s.lock ∧
        ((t.pending = none ∧ t.phase = ⟨false, false⟩ ∧ ∀ v ∈ l, ¬ s.Able v) ∨
          ∃ w pre post, l = pre ++ w :: post ∧ t.pending = some w ∧ t.phase = ⟨true, true⟩ ∧
            ∀ v ∈ pre, ¬ s.Able v) := by
  induction l with
  | nil =>
    intro s hl hp
    refine ⟨{ s with
        waiters := [], locked := Function.update s.locked s.lock false, bargeNext := false },
      by simp only [handOffLoop, unlock, hl, if_true]; rfl, rfl, Or.inl ⟨hp, ?_, ?_⟩⟩
    · simp [phase]
    · exact fun v hv => absurd hv List.not_mem_nil
  | cons w rest ih =>
    intro s hl hp
    by_cases hskip : (s.waiter w).state ≠ .waiting ∨ s.dead w = true
    · have hw : ¬ s.Able w := by
        rintro ⟨hst, hd⟩
        rcases hskip with hs | hs
        · exact hs hst
        · rw [hd] at hs
          cases hs
      have hkept : ∀ v, s.Able v → ({ s with waiters := rest }.setState w .abandoned).Able v := by
        intro v hv
        have hvw : v ≠ w := by
          rintro rfl
          exact hw hv
        simpa [Able, dead, setState, setWaiter, hvw] using hv
      obtain ⟨t, heq, hlock, hout⟩ := ih ({ s with waiters := rest }.setState w .abandoned) hl hp
      refine ⟨t, by simp only [handOffLoop]; rw [if_pos hskip]; exact heq, hlock, ?_⟩
      rcases hout with ⟨hpt, hph, hnone⟩ | ⟨v, pre, post, rfl, hpt, hph, hnone⟩
      · refine Or.inl ⟨hpt, hph, fun v hv => ?_⟩
        rcases List.mem_cons.1 hv with rfl | hv
        · exact hw
        · exact fun ha => hnone v hv (hkept v ha)
      · refine Or.inr ⟨v, w :: pre, post, rfl, hpt, hph, fun x hx => ?_⟩
        rcases List.mem_cons.1 hx with rfl | hx
        · exact hw
        · exact fun ha => hnone x hx (hkept x ha)
    · have hlive := hskip
      simp only [dead, ne_eq, Bool.or_eq_true, decide_eq_true_eq, not_or, not_not] at hlive
      obtain ⟨hst, hloop, hfut⟩ := hlive
      have hgrant : handOffLoop (w :: rest) s = .ok { s with
          waiters := rest
          waiter := Function.update s.waiter w { s.waiter w with
            state := .granted, lock := some s.lock, woken := true }
          pending := some w
          bargeNext := true } := by
        simp only [handOffLoop]
        rw [if_neg hskip]
        simp [wake, setWaiter, hloop]
      refine ⟨_, hgrant, rfl, Or.inr ⟨w, [], rest, rfl, rfl, ?_, ?_⟩⟩
      · simp [phase, hl]
      · exact fun v hv => absurd hv List.not_mem_nil

/-- A section from `s` to `t` with events `es`. -/
structure Gives (s t : WriterLock) (es : List Event) : Prop where
  lock : t.lock = s.lock
  run : Phase.Run s.Queues s.phase es t.phase
  queue : t.waiters.Sublist s.waiters
  order : ∀ e ∈ es, ∀ w, e.handed = some w → ∀ v, s.Live v → v ≠ w → [w, v].Sublist s.waiters
  keeps : ¬ Phase.Hands es → ∀ v, s.Live v → t.Live v

theorem Gives.refl (s : WriterLock) : Gives s s [] :=
  ⟨rfl, .nil _, List.Sublist.refl _, fun _ he => absurd he List.not_mem_nil, fun _ _ hv => hv⟩

/-- The first live waiter of the queue, and any other live one. -/
theorem sublist_of_first {l pre post : List Nat} {w v : Nat} (hl : l = pre ++ w :: post)
    (hv : v ∈ l) (hpre : v ∉ pre) (hne : v ≠ w) : [w, v].Sublist l := by
  subst hl
  have hpost : v ∈ post := by
    rcases List.mem_append.1 hv with hv | hv
    · exact absurd hv hpre
    · exact (List.mem_cons.1 hv).resolve_left hne
  exact ((List.singleton_sublist.2 hpost).cons_cons w).trans (List.sublist_append_right pre _)

/-- (PROVED) A handoff of a held slot, with the event `e w` if it serves a coroutine `w`. -/
theorem handOff_gives (hnd : s.waiters.Nodup) (hl : s.locked s.lock = true) (hp : s.pending = none) :
    ∃ t, s.handOff = .ok t ∧ t.lock = s.lock ∧ t.waiters.Sublist s.waiters ∧
      ((t.pending = none ∧ t.phase = ⟨false, false⟩ ∧ ¬ s.Queues) ∨
        ∃ w, t.pending = some w ∧ t.phase = ⟨true, true⟩ ∧
          ∀ v, s.Live v → v ≠ w → [w, v].Sublist s.waiters) := by
  obtain ⟨t, heq, hlock, hout⟩ := handOffLoop_first s.waiters s hl hp
  obtain ⟨t', heq', hpass⟩ := handOff_spec hnd hl
  obtain rfl := Except.ok.inj (heq'.symm.trans heq)
  refine ⟨t', heq, hlock, hpass.suffix.sublist, ?_⟩
  rcases hout with ⟨hpt, hph, hnone⟩ | ⟨w, pre, post, hq, hpt, hph, hnone⟩
  · exact Or.inl ⟨hpt, hph, fun ⟨v, hv, ha⟩ => hnone v hv ha⟩
  · refine Or.inr ⟨w, hpt, hph, fun v hv hne => ?_⟩
    exact sublist_of_first hq hv.1 (fun hpre => hnone v hpre hv.2) hne

theorem phase_of_locked (hl : s.locked s.lock = true) : s.phase = ⟨true, s.bargeNext⟩ := by
  rw [phase, hl]

/-- (PROVED) `_release_locked`: an unlock passes over a live coroutine only after a handoff. -/
theorem release_gives (hnd : s.waiters.Nodup) (hl : s.locked s.lock = true)
    (hp : s.pending = none) : ∃ t, s.releaseLocked = .ok t ∧ Gives s t s.releaseEvents := by
  by_cases hq : s.waiters ≠ [] ∧ ¬ (s.bargeNext = true ∧ s.syncWaiting ≠ 0)
  · obtain ⟨t, heq, hlock, hsub, hout⟩ := handOff_gives hnd hl hp
    have hrel : s.releaseLocked = .ok t := (if_pos hq).trans heq
    refine ⟨t, hrel, ?_⟩
    rcases hout with ⟨hpt, hph, hnone⟩ | ⟨w, hpt, hph, horder⟩
    · have hes : s.releaseEvents = [.unlocks] := by
        rw [releaseEvents, hrel]
        simp only [outcome, hpt]
      rw [hes]
      refine ⟨hlock, ?_, hsub, ?_, fun _ v hv => absurd ⟨v, hv⟩ hnone⟩
      · rw [phase_of_locked hl, hph]
        exact .single (.unlocks _ fun h => absurd h hnone)
      · rintro e he w hw
        rw [List.mem_singleton.1 he] at hw
        cases hw
    · have hes : s.releaseEvents = [.grants w] := by
        rw [releaseEvents, hrel]
        simp only [outcome, hpt]
      rw [hes]
      refine ⟨hlock, ?_, hsub, ?_, fun hno => absurd ⟨_, List.mem_singleton_self _, rfl⟩ hno⟩
      · rw [hph]
        exact .single (.hands _ _ rfl)
      · rintro e he v hv
        rw [List.mem_singleton.1 he] at hv
        obtain rfl := Option.some.inj hv
        exact horder
  · have hrel : s.releaseLocked = .ok { s with
        locked := Function.update s.locked s.lock false, bargeNext := false } := by
      rw [releaseLocked, if_neg hq, unlock_of_locked hl]
      rfl
    have hes : s.releaseEvents = [.unlocks] := by
      rw [releaseEvents, hrel]
      simp only [outcome, hp]
    refine ⟨_, hrel, ?_⟩
    rw [hes]
    refine ⟨rfl, ?_, List.Sublist.refl _, ?_, fun _ v hv => hv⟩
    · have hph : phase { s with
          locked := Function.update s.locked s.lock false, bargeNext := false } =
            ⟨false, false⟩ := by simp [phase]
      rw [phase_of_locked hl, hph]
      refine .single (.unlocks _ fun ⟨v, hv, _⟩ => ?_)
      by_contra hb
      exact hq ⟨List.ne_nil_of_mem hv, fun h => hb h.1⟩
    · rintro e he w hw
      rw [List.mem_singleton.1 he] at hw
      cases hw

/-- A slot that differs in nothing that a section reads of the queue and the lock. -/
structure Same (s t : WriterLock) : Prop where
  lock : t.lock = s.lock
  phase : t.phase = s.phase
  waiters : t.waiters = s.waiters
  live : ∀ v, t.Live v ↔ s.Live v

theorem Gives.of_same (h : Gives t u es) (hs : Same s t) : Gives s u es where
  lock := h.lock.trans hs.lock
  run := by
    rw [← hs.phase]
    exact h.run.mono fun ⟨v, hv⟩ => ⟨v, (hs.live v).2 hv⟩
  queue := hs.waiters ▸ h.queue
  order := fun e he w hw v hv hne => hs.waiters ▸ h.order e he w hw v ((hs.live v).2 hv) hne
  keeps := fun hno v hv => h.keeps hno v ((hs.live v).2 hv)

/-- An abandoned grant was not queued. -/
theorem same_abandon (w : Nat) (hq : w ∉ s.waiters) : Same s (s.abandon w) where
  lock := rfl
  phase := rfl
  waiters := rfl
  live := fun v => by
    by_cases hvw : v = w
    · subst hvw
      exact ⟨fun h => absurd h.1 hq, fun h => absurd h.1 hq⟩
    · simp [Live, Able, dead, abandon, setState, setWaiter, hvw]

theorem reclaim_gives (h : s.Sound) :
    ∃ t, s.reclaimDeadPending = .ok t ∧ Gives s t s.reclaimEvents := by
  unfold reclaimDeadPending reclaimEvents
  rcases hw : s.pending with _ | w
  · exact ⟨s, rfl, Gives.refl s⟩
  obtain ⟨hq, hlk, hl⟩ := h.pending w hw
  have hlk' : ((s.abandon w).waiter w).lock = some (s.abandon w).lock := by
    simp [abandon, setState, setWaiter, hlk]
  dsimp only
  by_cases hdead : (s.waiter w).state = .granted ∧ s.loopClosed (s.waiter w).loop = true
  · obtain ⟨t, heq, hg⟩ := @release_gives (s.abandon w) h.nodup hl rfl
    refine ⟨t, ?_, ?_⟩
    · rw [if_pos hdead]
      exact (if_pos hlk').trans heq
    · rw [if_pos ⟨hdead.1, hdead.2, hlk⟩]
      exact hg.of_same (same_abandon w hq)
  · refine ⟨s, if_neg hdead, ?_⟩
    rw [if_neg fun hc => hdead ⟨hc.1, hc.2.1⟩]
    exact Gives.refl s

/-- (PROVED) `_rescue_queue`: a free lock goes to the first live coroutine, if there is one. -/
theorem rescue_gives (h : s.Sound) (hoff : s.phase.Sound) :
    ∃ t, s.rescueQueue = .ok t ∧ Gives s t s.rescueEvents := by
  unfold rescueQueue rescueEvents tryLock
  by_cases hq : s.waiters ≠ []
  swap
  · exact ⟨s, if_neg hq, by rw [if_neg hq]; exact Gives.refl s⟩
  rw [if_pos hq, if_pos hq]
  by_cases hl : s.locked s.lock = true
  · exact ⟨s, by simp [hl], by simp only [hl]; exact Gives.refl s⟩
  · have hfree : s.locked s.lock = false := by simpa using hl
    have hpend : s.pending = none := by
      rcases hp : s.pending with _ | w
      · rfl
      · exact absurd (h.pending w hp).2.2 hl
    obtain ⟨t, heq, hlock, hsub, hout⟩ := @handOff_gives
      { s with locked := Function.update s.locked s.lock true } h.nodup (by simp) hpend
    refine ⟨t, by simp only [hl]; exact heq, ?_⟩
    simp only [hfree, Bool.false_eq_true, if_false, heq]
    rcases hout with ⟨hpt, hph, hnone⟩ | ⟨w, hpt, hph, horder⟩
    · have hsame : t.phase = s.phase := by
        rw [hph]
        refine (congrArg₂ Phase.mk hfree (hoff hfree)).symm
      rw [hpt]
      refine ⟨hlock, ?_, hsub, fun e he => absurd he List.not_mem_nil,
        fun _ v hv => absurd ⟨v, hv⟩ hnone⟩
      rw [hsame]
      exact .nil _
    · rw [hpt]
      refine ⟨hlock, ?_, hsub, ?_, fun hno => absurd ⟨_, List.mem_singleton_self _, rfl⟩ hno⟩
      · rw [hph]
        exact .single (.hands _ _ rfl)
      · rintro e he v hv
        rw [List.mem_singleton.1 he] at hv
        obtain rfl := Option.some.inj hv
        exact horder

/-- A section after another one that handed the slot on only if it does nothing. -/
theorem Gives.trans (h : Gives s t es) (h' : Gives t u es')
    (hnone : Phase.Hands es → es' = []) : Gives s u (es ++ es') where
  lock := h'.lock.trans h.lock
  run := by
    refine h.run.append ?_
    by_cases hh : Phase.Hands es
    · obtain rfl := hnone hh
      rw [h'.run.eq_of_nil]
      exact .nil _
    · exact h'.run.mono fun ⟨v, hv⟩ => ⟨v, h.keeps hh v hv⟩
  queue := h'.queue.trans h.queue
  order := fun e he w hw v hv hne => by
    by_cases hh : Phase.Hands es
    · obtain rfl := hnone hh
      rw [List.append_nil] at he
      exact h.order e he w hw v hv hne
    · rcases List.mem_append.1 he with he | he
      · exact h.order e he w hw v hv hne
      · exact (h'.order e he w hw v (h.keeps hh v hv) hne).trans h.queue
  keeps := fun hno v hv => by
    have h1 : ¬ Phase.Hands es := fun ⟨e, he, hs⟩ => hno ⟨e, List.mem_append_left _ he, hs⟩
    have h2 : ¬ Phase.Hands es' := fun ⟨e, he, hs⟩ => hno ⟨e, List.mem_append_right _ he, hs⟩
    exact h'.keeps h2 v (h.keeps h1 v hv)

theorem releaseEvents_single (s : WriterLock) :
    s.releaseEvents = [] ∨ ∃ e, s.releaseEvents = [e] := by
  unfold releaseEvents
  split
  · exact Or.inr ⟨_, rfl⟩
  · exact Or.inl rfl

theorem reclaimEvents_single (s : WriterLock) :
    s.reclaimEvents = [] ∨ ∃ e, s.reclaimEvents = [e] := by
  unfold reclaimEvents
  split
  · exact Or.inl rfl
  · split_ifs
    · exact releaseEvents_single _
    · exact Or.inl rfl

theorem rescueEvents_of_locked (hl : s.locked s.lock = true) : s.rescueEvents = [] := by
  simp [rescueEvents, tryLock, hl]

/-- (PROVED) A thread that stops waiting: a reclaim, and a rescue if that left the lock free. -/
theorem giveUp_gives (h : s.Sound) (hoff : s.phase.Sound) :
    ∃ t, s.giveUp = .ok t ∧ Gives s t s.giveUpEvents := by
  obtain ⟨t, heq, hg⟩ := @reclaim_gives { s with syncWaiting := s.syncWaiting - 1 }
    ⟨h.nodup, h.pending⟩
  obtain ⟨t', heq', -, hsound, -⟩ := @reclaim_deals { s with syncWaiting := s.syncWaiting - 1 }
    ⟨h.nodup, h.pending⟩
  obtain rfl := Except.ok.inj (heq'.symm.trans heq)
  obtain ⟨u, heq'', hg'⟩ := rescue_gives hsound (hg.run.sound hoff)
  refine ⟨u, by simp only [giveUp, heq]; exact heq'', ?_⟩
  have hes : s.giveUpEvents =
      reclaimEvents { s with syncWaiting := s.syncWaiting - 1 } ++ t'.rescueEvents := by
    simp only [giveUpEvents, heq]
  rw [hes]
  refine (hg.trans hg' ?_).of_same ⟨rfl, rfl, rfl, fun _ => Iff.rfl⟩
  rintro ⟨e, he, hs⟩
  refine rescueEvents_of_locked ?_
  have hrun := hg.run
  rcases reclaimEvents_single { s with syncWaiting := s.syncWaiting - 1 } with hnil | ⟨e', hone⟩
  · rw [hnil] at he
    exact absurd he List.not_mem_nil
  · rw [hone] at he hrun
    obtain rfl := List.mem_singleton.1 he
    exact hrun.held_of_hands hs

theorem passOn_gives {w : Nat} (hnd : s.waiters.Nodup) (hg : (s.waiter w).state = .granted)
    (hp : s.pending = some w) (hlk : (s.waiter w).lock = some s.lock)
    (hl : s.locked s.lock = true) (hq : w ∉ s.waiters) :
    ∃ t, s.passOn w = .ok t ∧ Gives s t (s.passOnEvents w) := by
  obtain ⟨t, heq, hgives⟩ := @release_gives (s.abandon w) hnd hl rfl
  refine ⟨t, (passOn_of_granted hg hp hlk).trans heq, ?_⟩
  rw [passOnEvents, if_pos ⟨hg, hlk⟩, if_pos hp]
  exact hgives.of_same (same_abandon w hq)

end WriterLock

namespace System

/-! ## Events of the steps -/

/-- The slot changes hands in a step. -/
def events (s : System) : Act → List Event
  | .tryFast c => match s.place c with
    | .entered lock => s.slot.takeEvents c lock
    | _ => []
  | .win c => match s.place c with
    | .blocked lock => s.slot.takeEvents c lock
    | _ => []
  | .count c => match s.place c with
    | .missed => s.slot.reclaimEvents
    | _ => []
  | .giveBack c => match s.place c with
    | .interrupted _ got =>
      if got then WriterLock.releaseEvents { s.slot with syncWaiting := s.slot.syncWaiting - 1 }
      else s.slot.giveUpEvents
    | _ => []
  | .giveUp c => match s.place c with
    | .lapsed _ => s.slot.giveUpEvents
    | _ => []
  | .heldBy c => match s.place c with
    | .won lock =>
      if lock = s.slot.lock then []
      else WriterLock.rescueEvents { s.slot with syncWaiting := s.slot.syncWaiting - 1 }
    | _ => []
  | .reserve c loop => match s.place c with
    | .arriving _ => s.slot.reclaimEvents ++
      match s.slot.reserve (s.caller c) c loop with
      | .ok (_, .took _) => [.takes c]
      | _ => []
    | _ => []
  | .passOn c => match s.place c with
    | .leaving => s.slot.passOnEvents c
    | _ => []
  | .releaseIfOwned c => match s.place c with
    | .returning since =>
      if s.slot.owner = some (s.caller c) ∧ s.slot.hold ≠ since ∧ s.slot.locked s.slot.lock then
        WriterLock.releaseEvents { s.slot with owner := none, hold := none }
      else []
    | _ => []
  | .release c => match s.place c with
    | .owns lock =>
      if lock = s.slot.lock ∧ s.slot.locked s.slot.lock then
        WriterLock.releaseEvents { s.slot with owner := none, hold := none }
      else []
    | _ => []
  | _ => []

/-- The coroutine that a step puts at the end of the queue. -/
def arrives (s : System) : Act → List Nat
  | .reserve c loop => match s.place c with
    | .arriving _ => match s.slot.reserve (s.caller c) c loop with
      | .ok (_, .queued) => [c]
      | _ => []
    | _ => []
  | _ => []

/-- What a step does as to the turns. -/
structure Fair (a : Act) (s t : System) : Prop where
  run : a ≠ .close → Phase.Run s.slot.Queues s.slot.phase (s.events a) t.slot.phase
  queue : t.slot.waiters.Sublist (s.slot.waiters ++ s.arrives a)
  order : ∀ e ∈ s.events a, ∀ w, e.handed = some w → ∀ v, s.slot.Live v → v ≠ w →
    [w, v].Sublist s.slot.waiters

variable {s t : System} {a : Act}

/-- A step without events leaves the lock and the flag as they are, and queues nobody. -/
theorem Fair.quiet (hev : s.events a = []) (hph : t.slot.phase = s.slot.phase)
    (hq : t.slot.waiters.Sublist s.slot.waiters) : Fair a s t where
  run := fun _ => by
    rw [hev, hph]
    exact .nil _
  queue := hq.trans (List.sublist_append_left _ _)
  order := fun e he => by
    rw [hev] at he
    exact absurd he List.not_mem_nil

theorem Fair.of_slot (hev : s.events a = []) (hslot : t.slot = s.slot) : Fair a s t :=
  .quiet hev (by rw [hslot]) (by rw [hslot])

theorem Fair.refl (hev : s.events a = []) : Fair a s s :=
  .quiet hev rfl (List.Sublist.refl _)

/-- A step whose section gives the slot up. -/
theorem Fair.of_gives {slot : WriterLock} (hg : WriterLock.Gives s.slot slot (s.events a))
    (ht : WriterLock.Same slot t.slot) : Fair a s t where
  run := fun _ => by
    rw [ht.phase]
    exact hg.run
  queue := by
    rw [ht.waiters]
    exact hg.queue.trans (List.sublist_append_left _ _)
  order := fun e he w hw v hv hne => hg.order e he w hw v hv hne

theorem same_refl (s : WriterLock) : WriterLock.Same s s := ⟨rfl, rfl, rfl, fun _ => Iff.rfl⟩

/-- The lock is taken if it is free. -/
theorem fair_take {c l : Nat} {p : Place} (hl : s.slot.locked l = false)
    (hev : s.events a = s.slot.takeEvents c l) :
    Fair a s ((s.setSlot { s.slot with
      locked := Function.update s.slot.locked l true }).move c p) := by
  by_cases hcur : l = s.slot.lock
  · subst hcur
    have hone : s.events a = [.takes c] := by
      rw [hev, WriterLock.takeEvents, if_pos ⟨rfl, hl⟩]
    refine ⟨fun _ => ?_, List.sublist_append_left _ _, fun e he w hw => ?_⟩
    · have hbefore : s.slot.phase = ⟨false, s.slot.bargeNext⟩ := by rw [WriterLock.phase, hl]
      have hafter : WriterLock.phase { s.slot with
          locked := Function.update s.slot.locked s.slot.lock true } =
            ⟨true, s.slot.bargeNext⟩ := by simp [WriterLock.phase]
      rw [hone, hbefore]
      exact hafter ▸ .single (.takes c _)
    · rw [hone] at he
      rw [List.mem_singleton.1 he] at hw
      cases hw
  · have hnone : s.events a = [] := by
      rw [hev, WriterLock.takeEvents, if_neg fun h => hcur h.1]
    refine .quiet hnone ?_ (List.Sublist.refl _)
    simp [WriterLock.phase, move, setSlot, Function.update_of_ne (Ne.symm hcur)]

/-! ## Steps -/

theorem fair_setFuture (hev : s.events a = []) (w : Nat) (x : Waiter) :
    Fair a s (s.setSlot (s.slot.setWaiter w x)) := .quiet hev rfl (List.Sublist.refl _)

theorem fair_tryFast (s : System) (c : Nat) : Fair (.tryFast c) s (s.effect (.tryFast c)) := by
  unfold effect
  dsimp only
  split
  · rename_i l hq
    have hev : s.events (.tryFast c) = s.slot.takeEvents c l := by
      simp only [events, hq]
    unfold WriterLock.tryLock
    by_cases hl : s.slot.locked l = true
    · have hnone : s.slot.takeEvents c l = [] := if_neg fun h => by simp [hl] at h
      simp only [hl, if_true]
      exact .quiet (hev.trans hnone) rfl (List.Sublist.refl _)
    · simp only [hl]
      exact fair_take (by simpa using hl) hev
  · rename_i hq
    refine .refl ?_
    simp only [events]

theorem fair_win (s : System) (c : Nat) : Fair (.win c) s (s.effect (.win c)) := by
  unfold effect
  dsimp only
  split
  · rename_i l hq
    have hev : s.events (.win c) = s.slot.takeEvents c l := by
      simp only [events, hq]
    unfold WriterLock.tryLock
    by_cases hl : s.slot.locked l = true
    · have hnone : s.slot.takeEvents c l = [] := if_neg fun h => by simp [hl] at h
      simp only [hl, if_true]
      exact .refl (hev.trans hnone)
    · simp only [hl]
      exact fair_take (by simpa using hl) hev
  · refine .refl ?_
    simp only [events]

theorem fair_count (h : Core s) (c : Nat) : Fair (.count c) s (s.effect (.count c)) := by
  unfold effect
  dsimp only
  split
  · rename_i hq
    obtain ⟨slot, heq, hg⟩ := WriterLock.reclaim_gives h.sound
    have hev : s.events (.count c) = s.slot.reclaimEvents := by
      simp only [events, hq]
    have hcount : s.slot.count =
        .ok ({ slot with syncWaiting := slot.syncWaiting + 1 }, slot.lock) := by
      simp only [WriterLock.count, heq]
      rfl
    rw [← hev] at hg
    rw [hcount]
    exact .of_gives hg ⟨rfl, rfl, rfl, fun _ => Iff.rfl⟩
  · refine .refl ?_
    simp only [events]

theorem fair_giveUp (h : Core s) (hoff : s.slot.phase.Sound) (c : Nat) :
    Fair (.giveUp c) s (s.effect (.giveUp c)) := by
  unfold effect
  dsimp only
  split
  · rename_i l hq
    obtain ⟨slot, heq, hg⟩ := WriterLock.giveUp_gives h.sound hoff
    have hev : s.events (.giveUp c) = s.slot.giveUpEvents := by
      simp only [events, hq]
    rw [heq]
    exact .of_gives (hev ▸ hg) (same_refl slot)
  · refine .refl ?_
    simp only [events]

theorem fair_giveBack (h : Core s) (hoff : s.slot.phase.Sound) (c : Nat)
    (hclean : ¬ s.StaleGiveBack (.giveBack c)) : Fair (.giveBack c) s (s.effect (.giveBack c)) := by
  unfold effect
  dsimp only
  split
  · rename_i l got hq
    rcases got with _ | _
    · obtain ⟨slot, heq, hg⟩ := WriterLock.giveUp_gives h.sound hoff
      have hev : s.events (.giveBack c) = s.slot.giveUpEvents := by
        simp only [events, hq, Bool.false_eq_true, if_false]
      rw [show s.slot.giveBack false = .ok slot from heq]
      exact .of_gives (hev ▸ hg) (same_refl slot)
    · have hl : l = s.slot.lock := by
        by_contra hne
        exact hclean ⟨l, hq, hne⟩
      subst hl
      have hhas : (s.place c).Has s.slot.lock := Or.inl (by rw [hq]; rfl)
      obtain ⟨slot, heq, hg⟩ := @WriterLock.release_gives
        { s.slot with syncWaiting := s.slot.syncWaiting - 1 } h.nodup (h.locked_of_has hhas)
          (h.no_pending hhas)
      have hev : s.events (.giveBack c) =
          WriterLock.releaseEvents { s.slot with syncWaiting := s.slot.syncWaiting - 1 } := by
        simp only [events, hq, if_true]
      rw [show s.slot.giveBack true = .ok slot from heq]
      refine .of_gives ?_ (same_refl slot)
      rw [hev]
      exact hg.of_same ⟨rfl, rfl, rfl, fun _ => Iff.rfl⟩
  · refine .refl ?_
    simp only [events]

theorem fair_heldBy (h : Core s) (hoff : s.slot.phase.Sound) (c : Nat) :
    Fair (.heldBy c) s (s.effect (.heldBy c)) := by
  unfold effect
  dsimp only
  split
  · rename_i l hq
    by_cases hl : l = s.slot.lock
    · have hev : s.events (.heldBy c) = [] := by
        simp only [events, hq, if_pos hl]
      simp only [WriterLock.heldBy, hl, ne_eq, not_true_eq_false, if_false, if_true]
      exact .quiet hev rfl (List.Sublist.refl _)
    · obtain ⟨slot, heq, hg⟩ := @WriterLock.rescue_gives
        { s.slot with syncWaiting := s.slot.syncWaiting - 1 } ⟨h.sound.nodup, h.sound.pending⟩ hoff
      have hev : s.events (.heldBy c) =
          WriterLock.rescueEvents { s.slot with syncWaiting := s.slot.syncWaiting - 1 } := by
        simp only [events, hq, if_neg hl]
      have hheld : s.slot.heldBy (s.caller c) c l true = .ok (slot, false) := by
        simp only [WriterLock.heldBy, if_true, ne_eq, hl, not_false_eq_true, heq]
        rfl
      rw [hheld]
      refine .of_gives ?_ (same_refl slot)
      rw [hev]
      exact hg.of_same ⟨rfl, rfl, rfl, fun _ => Iff.rfl⟩
  · rename_i l hq
    have hev : s.events (.heldBy c) = [] := by
      simp only [events, hq]
    by_cases hl : l = s.slot.lock
    · simp only [WriterLock.heldBy, hl, ne_eq, not_true_eq_false, if_false, Bool.false_eq_true]
      exact .quiet hev rfl (List.Sublist.refl _)
    · have hheld : s.slot.heldBy (s.caller c) c l false = .ok (s.slot, false) := by
        simp only [WriterLock.heldBy, ne_eq, hl, not_false_eq_true, if_true, Bool.false_eq_true,
          if_false]
        rfl
      rw [hheld]
      exact .quiet hev rfl (List.Sublist.refl _)
  · refine .refl ?_
    rename_i hwon htaken
    simp only [events]

theorem fair_releaseRefused (h : Core s) (c : Nat) :
    Fair (.releaseRefused c) s (s.effect (.releaseRefused c)) := by
  unfold effect
  dsimp only
  split
  · rename_i l hq
    have hne : s.slot.lock ≠ l := Ne.symm (h.refused c l hq)
    unfold WriterLock.unlock
    split_ifs
    · refine .quiet rfl ?_ (List.Sublist.refl _)
      simp [WriterLock.phase, settle, move, setSlot, Function.update_of_ne hne]
    · exact .quiet rfl rfl (List.Sublist.refl _)
  · exact .refl rfl

theorem fair_reserve (h : Core s) (c loop : Nat) :
    Fair (.reserve c loop) s (s.effect (.reserve c loop)) := by
  unfold effect
  dsimp only
  split
  · rename_i since hq
    obtain ⟨slot, heq, hg⟩ := WriterLock.reclaim_gives h.sound
    rcases reserve_cases (s.caller c) c loop heq with ⟨hnow, hslot⟩ | ⟨-, hslot⟩
    · have hev : s.events (.reserve c loop) = s.slot.reclaimEvents ++ [.takes c] := by
        simp only [events, hq, hslot]
      rw [hslot]
      refine ⟨fun _ => ?_, ?_, fun e he w hw v hv hne => ?_⟩
      · have hbefore : slot.phase = ⟨false, slot.bargeNext⟩ := by
          rw [WriterLock.phase, hnow.2.2]
        have hafter : WriterLock.phase { slot with
            locked := Function.update slot.locked slot.lock true
            owner := some (s.caller c), hold := some c } = ⟨true, slot.bargeNext⟩ := by
          simp [WriterLock.phase]
        have hrun := hg.run
        rw [hbefore] at hrun
        rw [hev]
        exact hafter ▸ hrun.append (.single (.takes c _))
      · exact hg.queue.trans (List.sublist_append_left _ _)
      · rw [hev] at he
        rcases List.mem_append.1 he with he | he
        · exact hg.order e he w hw v hv hne
        · rw [List.mem_singleton.1 he] at hw
          cases hw
    · have hev : s.events (.reserve c loop) = s.slot.reclaimEvents := by
        simp only [events, hq, hslot, List.append_nil]
      have harr : s.arrives (.reserve c loop) = [c] := by
        simp only [arrives, hq, hslot]
      rw [hslot]
      refine ⟨fun _ => ?_, ?_, fun e he w hw v hv hne => ?_⟩
      · rw [hev]
        exact hg.run
      · rw [harr]
        exact hg.queue.append (List.Sublist.refl [c])
      · rw [hev] at he
        exact hg.order e he w hw v hv hne
  · refine .refl ?_
    simp only [events]

theorem fair_raiseAwait (s : System) (c : Nat) (timedOut : Bool) :
    Fair (.raiseAwait c timedOut) s (s.effect (.raiseAwait c timedOut)) := by
  have hph : (s.slot.leaveQueue c).phase = s.slot.phase := by
    unfold WriterLock.leaveQueue
    split_ifs <;> rfl
  have hsub : (s.slot.leaveQueue c).waiters.Sublist s.slot.waiters := by
    unfold WriterLock.leaveQueue
    split_ifs
    · exact List.erase_sublist
    · exact List.Sublist.refl _
  unfold effect
  dsimp only
  split
  · split_ifs <;> exact .quiet rfl hph hsub
  · exact .refl rfl

theorem fair_passOn (h : Core s) (c : Nat) : Fair (.passOn c) s (s.effect (.passOn c)) := by
  unfold effect
  dsimp only
  split
  · rename_i hq
    have hev : s.events (.passOn c) = s.slot.passOnEvents c := by
      simp only [events, hq]
    by_cases hg : (s.slot.waiter c).state = .granted
    · have hp := h.grant c (by rw [hq]; rfl) hg
      obtain ⟨hnot, hlk, hl⟩ := h.sound.pending c hp
      obtain ⟨slot, heq, hgives⟩ := WriterLock.passOn_gives h.nodup hg hp hlk hl hnot
      rw [heq]
      exact .of_gives (hev ▸ hgives) (same_refl slot)
    · have hnone : s.slot.passOnEvents c = [] := if_neg fun hc => hg hc.1
      have hstay : s.slot.passOn c = .ok s.slot := if_pos hg
      rw [hstay]
      exact .quiet (hev.trans hnone) rfl (List.Sublist.refl _)
  · refine .refl ?_
    simp only [events]

theorem fair_finish (h : Core s) (c : Nat) : Fair (.finish c) s (s.effect (.finish c)) := by
  unfold effect
  dsimp only
  split
  · rename_i since hq
    by_cases hg : (s.slot.waiter c).state = .granted
    · have hp := h.grant c (by rw [hq]; rfl) hg
      rw [WriterLock.granted_of_granted _ _ hg hp (h.pending c hp).2.1]
      exact .quiet rfl rfl (List.Sublist.refl _)
    · rw [WriterLock.granted_of_not _ _ hg]
      exact .quiet rfl rfl (List.Sublist.refl _)
  · exact .refl rfl

theorem fair_releaseIfOwned (h : Core s) (c : Nat) :
    Fair (.releaseIfOwned c) s (s.effect (.releaseIfOwned c)) := by
  unfold effect
  dsimp only
  split
  · rename_i since hq
    have hev : s.events (.releaseIfOwned c) = [] := by
      simp only [events, hq]
      exact if_neg fun hc => hc.2.1 (h.since c since (by rw [hq]; rfl) hc.1)
    rw [h.releaseIfOwned hq]
    exact .quiet hev rfl (List.Sublist.refl _)
  · refine .refl ?_
    simp only [events]

theorem fair_release (h : Core s) (c : Nat) : Fair (.release c) s (s.effect (.release c)) := by
  unfold effect
  dsimp only
  split
  · rename_i l hq
    by_cases hl : l = s.slot.lock
    · subst hl
      have hhas : (s.place c).Has s.slot.lock := Or.inr hq
      have hlocked := h.locked_of_has hhas
      obtain ⟨slot, heq, hg⟩ := @WriterLock.release_gives
        { s.slot with owner := none, hold := none } h.nodup hlocked (h.no_pending hhas)
      have hev : s.events (.release c) =
          WriterLock.releaseEvents { s.slot with owner := none, hold := none } := by
        simp only [events, hq]
        exact if_pos ⟨trivial, hlocked⟩
      rw [(WriterLock.release_of_locked hlocked).trans heq]
      refine .of_gives ?_ (same_refl slot)
      rw [hev]
      exact hg.of_same ⟨rfl, rfl, rfl, fun _ => Iff.rfl⟩
    · have hev : s.events (.release c) = [] := by
        simp only [events, hq]
        exact if_neg fun hc => hl hc.1
      have hrel : s.slot.release l = .ok s.slot := if_pos hl
      rw [hrel]
      exact .quiet hev rfl (List.Sublist.refl _)
  · refine .refl ?_
    simp only [events]

theorem fair_close (h : Core s) : Fair .close s (s.effect .close) := by
  obtain ⟨slot, heq, hcl⟩ := close_spec h
  have heff : s.effect .close = s.setSlot slot := by
    unfold effect
    rw [heq]
  rw [heff]
  refine ⟨fun hne => absurd rfl hne, ?_, fun e he => absurd he List.not_mem_nil⟩
  rw [show (s.setSlot slot).slot.waiters = [] from hcl.waiters]
  exact List.nil_sublist _

/-- (PROVED) Every step is fair, clean as to interrupts. -/
theorem fair (h : Core s) (hoff : s.slot.phase.Sound) (a : Act) (hclean : ¬ s.StaleGiveBack a) :
    Fair a s (s.effect a) := by
  cases a with
  | startAcquire c me => exact .of_slot rfl (begin_slot s c me _).1
  | tryFast c => exact fair_tryFast s c
  | count c => exact fair_count h c
  | win c => exact fair_win s c
  | lapse c =>
    unfold effect
    dsimp only
    split <;> exact .of_slot rfl rfl
  | interrupt c =>
    unfold effect
    dsimp only
    split <;> exact .of_slot rfl rfl
  | giveBack c => exact fair_giveBack h hoff c hclean
  | giveUp c => exact fair_giveUp h hoff c
  | heldBy c => exact fair_heldBy h hoff c
  | releaseRefused c => exact fair_releaseRefused h c
  | startReserve c me => exact .of_slot rfl (begin_slot s c me _).1
  | reserve c loop => exact fair_reserve h c loop
  | runWakeUp w =>
    unfold effect
    dsimp only
    split_ifs
    · exact fair_setFuture rfl w _
    · exact .refl rfl
  | cancelFuture w =>
    unfold effect
    dsimp only
    split_ifs
    · exact fair_setFuture rfl w _
    · exact .refl rfl
  | closeLoop loop => exact .quiet rfl rfl (List.Sublist.refl _)
  | resume c =>
    unfold effect
    dsimp only
    split
    · split_ifs <;> exact .of_slot rfl rfl
    · exact .refl rfl
  | raiseAwait c timedOut => exact fair_raiseAwait s c timedOut
  | passOn c => exact fair_passOn h c
  | finish c => exact fair_finish h c
  | releaseIfOwned c => exact fair_releaseIfOwned h c
  | release c => exact fair_release h c
  | close => exact fair_close h

/-! ## Runs -/

/-- The slot changes hands in a run of steps. -/
def eventsOf (s : System) : List Act → List Event
  | [] => []
  | a :: acts => s.events a ++ (s.step a).eventsOf acts

/-- The coroutines that a run of steps queues, in the order in which they queue. -/
def arrivals (s : System) : List Act → List Nat
  | [] => []
  | a :: acts => s.arrives a ++ (s.step a).arrivals acts

/-- What a clean run keeps: the flag is only set while the lock is held. -/
structure Turns (s : System) : Prop where
  inv : Inv s
  phase : s.slot.phase.Sound

theorem turns_start : Turns start := ⟨inv_start, fun _ => rfl⟩

theorem Turns.fair (h : Turns s) (hclean : ¬ s.StaleGiveBack a) : Fair a s (s.step a) := by
  have hf := System.fair h.inv.core h.phase a hclean
  have hslot : (s.step a).slot = (s.effect a).slot := slot_note s a _
  exact ⟨fun hne => hslot ▸ hf.run hne, hslot ▸ hf.queue, hf.order⟩

theorem close_barge {t u : WriterLock} (h : t.close = .ok u) : u.bargeNext = false := by
  unfold WriterLock.close at h
  simp only [bind, Except.bind, pure, Except.pure] at h
  split at h
  · cases h
  · rename_i v hv
    have hvb : v.bargeNext = false := by
      split_ifs at hv with hhas
      · unfold WriterLock.unlock at hv
        split_ifs at hv
        cases hv
        rfl
      · cases hv
        rfl
    have hclosed : ∀ (l : List Nat) (x : WriterLock),
        (l.foldl (fun t w => ((t.setState w .closed).wake w).1) x).bargeNext = x.bargeNext := by
      intro l x
      obtain ⟨waiter, hfold, -⟩ := foldl_closed l x
      rw [hfold]
    cases h
    rw [hclosed]
    split <;> exact hvb

theorem close_quiet (h : Core s) :
    (s.step .close).slot.waiters = [] ∧ (s.step .close).slot.phase = ⟨false, false⟩ := by
  obtain ⟨slot, heq, hcl⟩ := close_spec h
  have hslot : (s.step .close).slot = slot := by
    rw [step, slot_note]
    unfold effect
    rw [heq]
    rfl
  rw [hslot]
  exact ⟨hcl.waiters, congrArg₂ Phase.mk hcl.fresh (close_barge heq)⟩

theorem turns_step (h : Turns s) (hclean : ¬ s.StaleGiveBack a) : Turns (s.step a) where
  inv := inv_step h.inv a hclean
  phase := by
    by_cases ha : a = .close
    · subst ha
      rw [(close_quiet h.inv.core).2]
      exact fun _ => rfl
    · exact ((h.fair hclean).run ha).sound h.phase

theorem turns_foldl (acts : List Act) (h : Turns s) (hclean : Clean s acts) :
    Turns (acts.foldl step s) := by
  induction acts generalizing s with
  | nil => exact h
  | cons a rest ih => exact ih (turns_step h hclean.1) hclean.2

theorem clean_append {acts acts' : List Act} :
    Clean s (acts ++ acts') ↔ Clean s acts ∧ Clean (acts.foldl step s) acts' := by
  induction acts generalizing s with
  | nil => simp [Clean]
  | cons a rest ih => simp only [List.cons_append, Clean, ih, and_assoc, List.foldl_cons]

/-- The queue holds its coroutines in the order in which they queued. -/
theorem waiters_sublist (acts : List Act) (h : Turns s) (hclean : Clean s acts) :
    (acts.foldl step s).slot.waiters.Sublist (s.slot.waiters ++ s.arrivals acts) := by
  induction acts generalizing s with
  | nil => exact List.sublist_append_left _ _
  | cons a rest ih =>
    have hrest := ih (turns_step h hclean.1) hclean.2
    rw [arrivals, ← List.append_assoc]
    exact hrest.trans ((h.fair hclean.1).queue.append (List.Sublist.refl _))

/-- A call that is past its arrival. -/
def Past (s : System) (c : Nat) : Prop := s.place c ≠ .idle ∧ ∀ since, s.place c ≠ .arriving since

theorem past_of_goes {c : Nat} {p : Place} (hg : Goes a s c p) (h : s.Past c) :
    p ≠ .idle ∧ ∀ since, p ≠ .arriving since := by
  cases hg with
  | stays => exact h
  | begins hidle _ => exact absurd hidle h.1
  | reserves harr _ => exact absurd harr (h.2 _)
  | tries _ hp => rcases hp with rfl | rfl <;> exact ⟨by simp, by simp⟩
  | waits _ hp => rcases hp with rfl | rfl <;> exact ⟨by simp, by simp⟩
  | wakes _ hp => rcases hp with rfl | rfl <;> exact ⟨by simp, by simp⟩
  | counts _ => exact ⟨by simp, by simp⟩
  | interrupts _ _ => exact ⟨by simp, by simp⟩
  | records _ _ => exact ⟨by simp, by simp⟩
  | refused _ _ => exact ⟨by simp, by simp⟩
  | takes _ _ _ => exact ⟨by simp, by simp⟩
  | returns _ => exact ⟨by simp, by simp⟩
  | releases _ _ => exact ⟨by simp, by simp⟩
  | fails _ => exact ⟨by simp, by simp⟩

theorem past_step (h : Turns s) (hclean : ¬ s.StaleGiveBack a) {c : Nat} (hc : s.Past c) :
    (s.step a).Past c := by
  have hgoes := goes h.inv.core a hclean c
  rw [Past, place_step]
  exact past_of_goes hgoes hc

/-- Who arrives was arriving, and is past it after the step. -/
theorem past_of_arrives {c : Nat} (hc : c ∈ s.arrives a) :
    ¬ s.Past c ∧ (s.step a).Past c := by
  cases a with
  | reserve d loop =>
    simp only [arrives] at hc
    split at hc
    · rename_i since hq
      split at hc
      · rename_i slot hslot
        obtain rfl := List.mem_singleton.1 hc
        refine ⟨fun hp => hp.2 since hq, ?_⟩
        have hplace : (s.effect (.reserve c loop)).place c = .awaiting since := by
          simp only [effect, hq, hslot]
          exact place_move_self _ _ _
        rw [Past, place_step, hplace]
        exact ⟨by simp, by simp⟩
      · exact absurd hc List.not_mem_nil
    · exact absurd hc List.not_mem_nil
  | _ => exact absurd hc List.not_mem_nil

theorem not_past_of_arrivals (acts : List Act) (h : Turns s) (hclean : Clean s acts) {c : Nat}
    (hc : c ∈ s.arrivals acts) : ¬ s.Past c := by
  induction acts generalizing s with
  | nil => exact absurd hc List.not_mem_nil
  | cons a rest ih =>
    rcases List.mem_append.1 hc with hc | hc
    · exact (past_of_arrives hc).1
    · exact fun hp => ih (turns_step h hclean.1) hclean.2 hc (past_step h hclean.1 hp)

theorem arrives_nodup (s : System) (a : Act) : (s.arrives a).Nodup := by
  cases a with
  | reserve c loop =>
    simp only [arrives]
    split
    · split
      · exact List.nodup_singleton c
      · exact List.nodup_nil
    · exact List.nodup_nil
  | _ => exact List.nodup_nil

/-- Nobody queues twice. -/
theorem arrivals_nodup (acts : List Act) (h : Turns s) (hclean : Clean s acts) :
    (s.arrivals acts).Nodup := by
  induction acts generalizing s with
  | nil => exact List.nodup_nil
  | cons a rest ih =>
    refine List.nodup_append.2 ⟨arrives_nodup s a, ih (turns_step h hclean.1) hclean.2, ?_⟩
    rintro c hc d hd rfl
    exact not_past_of_arrivals rest (turns_step h hclean.1) hclean.2 hd (past_of_arrives hc).2

/-- (PROVED) While a live coroutine is queued, the events of a run go from phase to phase. -/
theorem run_events (seg : List Act) {w : Nat} (h : Turns s) (hclean : Clean s seg)
    (hlive : ∀ n < seg.length, ((seg.take n).foldl step s).slot.Live w) :
    ∃ q, Phase.Run True s.slot.phase (s.eventsOf seg) q := by
  induction seg generalizing s with
  | nil => exact ⟨_, .nil _⟩
  | cons a rest ih =>
    have hw : s.slot.Live w := hlive 0 (by simp)
    have hrest : ∀ n < rest.length, ((rest.take n).foldl step (s.step a)).slot.Live w :=
      fun n hn => hlive (n + 1) (by simpa using hn)
    obtain ⟨q, hq⟩ := ih (turns_step h hclean.1) hclean.2 hrest
    by_cases ha : a = .close
    · subst ha
      cases rest with
      | nil => exact ⟨_, .nil _⟩
      | cons b rest =>
        have hqueued := (hrest 0 (by simp)).1
        rw [List.take_zero, List.foldl_nil, (close_quiet h.inv.core).1] at hqueued
        exact absurd hqueued List.not_mem_nil
    · exact ⟨q, (((h.fair hclean.1).run ha).mono fun _ => ⟨w, hw⟩).append hq⟩

/-- (PROVED) While a live coroutine stays queued, a hand-off stands between any two unlocks and
    between any two calls that take the lock, and every hand-off goes to it or to a coroutine that
    queued before it. -/
theorem alternation (acts seg : List Act) (w : Nat) (hclean : Clean start (acts ++ seg))
    (hlive : ∀ n < seg.length, (run (acts ++ seg.take n)).slot.Live w) :
    (∀ l m r, (run acts).eventsOf seg = l ++ .unlocks :: (m ++ .unlocks :: r) → Phase.Hands m) ∧
    (∀ l m r c d, (run acts).eventsOf seg = l ++ .takes c :: (m ++ .takes d :: r) →
      Phase.Hands m) ∧
    (∀ n a, seg[n]? = some a → ∀ e ∈ (run (acts ++ seg.take n)).events a, ∀ v,
      e.handed = some v → v ≠ w → [v, w].Sublist (start.arrivals (acts ++ seg.take n))) ∧
    (start.arrivals (acts ++ seg)).Nodup := by
  have hrun : ∀ n, run (acts ++ seg.take n) = (seg.take n).foldl step (run acts) := fun n => by
    rw [run, List.foldl_append]
    rfl
  have hacts := (clean_append.1 hclean).1
  have hseg := (clean_append.1 hclean).2
  have h : Turns (run acts) := turns_foldl acts turns_start hacts
  obtain ⟨q, hq⟩ := run_events seg h hseg fun n hn => hrun n ▸ hlive n hn
  refine ⟨fun l m r he => ?_, fun l m r c d he => ?_, fun n a ha e he v hv hne => ?_,
    arrivals_nodup _ turns_start hclean⟩
  · rw [he] at hq
    exact hq.between_unlocks trivial
  · rw [he] at hq
    exact hq.between_takes trivial h.phase
  · obtain ⟨hn, hget⟩ := List.getElem?_eq_some_iff.1 ha
    have hsplit : acts ++ seg = (acts ++ seg.take n) ++ a :: seg.drop (n + 1) := by
      rw [List.append_assoc, ← hget, ← List.drop_eq_getElem_cons hn, List.take_append_drop]
    rw [hsplit] at hclean
    obtain ⟨hbefore, hstep⟩ := clean_append.1 hclean
    have hT : Turns (run (acts ++ seg.take n)) := turns_foldl _ turns_start hbefore
    exact ((hT.fair hstep.1).order e he v hv w (hlive n hn) hne.symm).trans
      (waiters_sublist _ turns_start hbefore)

/-- A run without interrupts is clean. -/
theorem clean_of_calm (acts : List Act) (h : Calm s) (hno : ∀ c, .interrupt c ∉ acts) :
    Clean s acts := by
  induction acts generalizing s with
  | nil => trivial
  | cons a rest ih =>
    refine ⟨h.clean a, ih (calm_step h fun c hc => hno c (hc ▸ List.mem_cons_self)) fun c hc => ?_⟩
    exact hno c (List.mem_cons_of_mem _ hc)

/-- Threads 2 and 3 wait behind thread 1, and coroutines 4, 5 and 6 are queued; the slot goes to
    coroutine 4. -/
def rescuedStart : List Act :=
  [.startAcquire 1 1, .tryFast 1, .heldBy 1, .startAcquire 2 2, .tryFast 2, .count 2,
    .startAcquire 3 3, .tryFast 3, .count 3, .startReserve 4 4, .reserve 4 0, .startReserve 5 5,
    .reserve 5 0, .startReserve 6 6, .reserve 6 0, .release 1, .runWakeUp 4, .resume 4, .finish 4]

/-- Coroutine 4 unlocks for the threads; thread 2 has timed out and hands the lock to coroutine 5,
    which unlocks for thread 3. -/
def rescuedRun : List Act :=
  [.release 4, .lapse 2, .giveUp 2, .runWakeUp 5, .resume 5, .finish 5, .release 5]

theorem clean_rescuedRun : Clean start (rescuedStart ++ rescuedRun) :=
  clean_of_calm _ calm_start fun c => by simp [rescuedStart, rescuedRun]

theorem live_rescuedRun : ∀ n < rescuedRun.length,
    (run (rescuedStart ++ rescuedRun.take n)).slot.Live 6 := by decide

/-- Coroutine 6 stays queued and live, and neither of two releases in a row is a hand-off: what
    stands between them is a rescue. -/
theorem unlocks_twice :
    (∀ n < rescuedRun.length, (run (rescuedStart ++ rescuedRun.take n)).slot.Live 6) ∧
      ((run rescuedStart).eventsOf rescuedRun).filter Event.gaveUp = [.unlocks, .unlocks] :=
  ⟨live_rescuedRun, by decide⟩

theorem alternation_rescuedRun :
    (run rescuedStart).eventsOf rescuedRun = [.unlocks, .rescues 5, .unlocks] ∧
      (start.arrivals (rescuedStart ++ rescuedRun)).Nodup :=
  ⟨by decide, (alternation rescuedStart rescuedRun 6 clean_rescuedRun live_rescuedRun).2.2.2⟩

end System

end Virtuals.WriteSlot
