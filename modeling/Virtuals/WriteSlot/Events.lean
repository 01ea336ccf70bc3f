/-
  How the slot changes hands, event by event.

  A step gives the slot up at most twice: where it reclaims a dead grant and then rescues the queue.
  Its events are read off the sections it runs, a rescue apart from the give-ups, since it takes the
  free lock itself. `Phase` is the native lock and the turn flag, and `Phase.Step` is what an event
  does to them: an unlock needs the flag while a live coroutine is queued, and clears it.
-/
import Virtuals.WriteSlot.Turn
import Mathlib.Data.List.Infix

namespace Virtuals.WriteSlot

/-- The slot changes hands. -/
inductive Event where
  /-- a call takes the free lock -/
  | takes (c : Nat)
  /-- a give-up leaves the lock to the threads -/
  | unlocks
  /-- a give-up hands the slot to a queued coroutine -/
  | grants (w : Nat)
  /-- a rescue hands the slot to a queued coroutine -/
  | rescues (w : Nat)
  deriving DecidableEq

/-- A release, a pass-on or a reclaim. -/
def Event.gaveUp : Event → Bool
  | .unlocks | .grants _ => true
  | .takes _ | .rescues _ => false

/-- The coroutine that the slot is handed to. -/
def Event.handed : Event → Option Nat
  | .grants w | .rescues w => some w
  | .takes _ | .unlocks => none

/-! ## Phases -/

/-- Whether the slot's lock is locked, and `_barge_next`. -/
structure Phase where
  held : Bool
  barge : Bool

namespace Phase

/-- An event and the phases around it; `live` says that a live coroutine is queued. -/
inductive Step (live : Prop) : Phase → Event → Phase → Prop
  | takes (c : Nat) (b : Bool) : Step live ⟨false, b⟩ (.takes c) ⟨true, b⟩
  | unlocks (b : Bool) : (live → b = true) → Step live ⟨true, b⟩ .unlocks ⟨false, false⟩
  | hands (p : Phase) (e : Event) : e.handed.isSome → Step live p e ⟨true, true⟩

/-- The flag is only set while the lock is held. -/
def Sound (p : Phase) : Prop := p.held = false → p.barge = false

/-- Events one after another. -/
inductive Run (live : Prop) : Phase → List Event → Phase → Prop
  | nil (p : Phase) : Run live p [] p
  | cons {p q r : Phase} {e : Event} {es : List Event} :
      Step live p e q → Run live q es r → Run live p (e :: es) r

variable {live : Prop} {p q r : Phase} {e : Event} {es es' : List Event}

theorem Run.single (h : Step live p e q) : Run live p [e] q := .cons h (.nil q)

theorem Run.eq_of_nil (h : Run live p [] q) : q = p := by
  cases h
  rfl

theorem Run.held_of_hands (h : Run live p [e] q) (he : e.handed.isSome) : q.held = true := by
  cases h with
  | cons hstep hrest =>
    obtain rfl := hrest.eq_of_nil
    cases hstep with
    | takes c b => cases he
    | unlocks b hb => cases he
    | hands _ _ _ => rfl

theorem Run.append (h : Run live p es q) (h' : Run live q es' r) : Run live p (es ++ es') r := by
  induction h with
  | nil => exact h'
  | cons hstep _ ih => exact .cons hstep (ih h')

theorem Run.split (h : Run live p (es ++ es') r) :
    ∃ q, Run live p es q ∧ Run live q es' r := by
  induction es generalizing p with
  | nil => exact ⟨p, .nil p, h⟩
  | cons e es ih =>
    cases h with
    | cons hstep hrest =>
      obtain ⟨q, hq, hr⟩ := ih hrest
      exact ⟨q, .cons hstep hq, hr⟩

theorem Run.mono {live' : Prop} (h : Run live p es q) (hl : live' → live) : Run live' p es q := by
  induction h with
  | nil => exact .nil _
  | cons hstep _ ih =>
    refine .cons ?_ ih
    cases hstep with
    | takes c b => exact .takes c b
    | unlocks b hb => exact .unlocks b fun h => hb (hl h)
    | hands _ _ he => exact .hands _ _ he

theorem Step.sound (h : Step live p e q) (hp : p.Sound) : q.Sound := by
  cases h with
  | takes c b => exact fun hf => by cases hf
  | unlocks b hb => exact fun _ => rfl
  | hands _ _ he => exact fun hf => by cases hf

theorem Run.sound (h : Run live p es q) (hp : p.Sound) : q.Sound := by
  induction h with
  | nil => exact hp
  | cons hstep _ ih => exact ih (hstep.sound hp)

/-- The slot is handed to a coroutine. -/
def Hands (es : List Event) : Prop := ∃ e ∈ es, e.handed.isSome

/-- Without a hand-off the flag stays off. -/
theorem Run.barge (h : Run live p es q) (hp : p.barge = false) (hno : ¬ Hands es) :
    q.barge = false := by
  induction h with
  | nil => exact hp
  | cons hstep _ ih =>
    have hno' := fun (hh : Hands _) => hno (hh.imp fun e he => ⟨List.mem_cons_of_mem _ he.1, he.2⟩)
    cases hstep with
    | takes c b => exact ih hp hno'
    | unlocks b hb => exact ih rfl hno'
    | hands _ _ he => exact absurd ⟨_, List.mem_cons_self, he⟩ hno

/-- Without a hand-off a slot that is held with the flag off stays as it is. -/
theorem Run.stuck (hlive : live) (h : Run live ⟨true, false⟩ es q) (hno : ¬ Hands es) :
    q = ⟨true, false⟩ := by
  cases h with
  | nil => rfl
  | cons hstep _ =>
    cases hstep with
    | unlocks b hb => exact absurd (hb hlive) Bool.false_ne_true
    | hands _ _ he => exact absurd ⟨_, List.mem_cons_self, he⟩ hno

/-- (PROVED) Of two unlocks while a live coroutine is queued, a hand-off stands between them. -/
theorem Run.between_unlocks (hlive : live) {l m t : List Event}
    (h : Run live p (l ++ .unlocks :: (m ++ .unlocks :: t)) q) : Hands m := by
  by_contra hno
  obtain ⟨p1, -, h1⟩ := h.split
  cases h1 with
  | cons hstep hrest =>
    obtain ⟨p2, h2, h3⟩ := hrest.split
    cases hstep with
    | unlocks b hb =>
      have hoff := h2.barge rfl hno
      cases h3 with
      | cons hstep' _ =>
        cases hstep' with
        | unlocks b' hb' =>
          rw [hb' hlive] at hoff
          cases hoff
        | hands _ _ he => cases he
    | hands _ _ he => cases he

/-- (PROVED) Of two calls that take the lock meanwhile, a hand-off stands between them. -/
theorem Run.between_takes (hlive : live) (hp : p.Sound) {l m t : List Event} {c d : Nat}
    (h : Run live p (l ++ .takes c :: (m ++ .takes d :: t)) q) : Hands m := by
  by_contra hno
  obtain ⟨p1, hl, h1⟩ := h.split
  cases h1 with
  | cons hstep hrest =>
    obtain ⟨p2, h2, h3⟩ := hrest.split
    cases hstep with
    | takes c b =>
      have hb : b = false := hl.sound hp rfl
      subst hb
      obtain rfl := h2.stuck hlive hno
      cases h3 with
      | cons hstep' _ =>
        cases hstep' with
        | hands _ _ he => cases he
    | hands _ _ he => cases he

end Phase

end Virtuals.WriteSlot
