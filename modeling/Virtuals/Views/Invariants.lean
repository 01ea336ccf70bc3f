/-
  What a write of the base class keeps.

  Whatever view it is, a write marks the view, puts the child at one key and runs the hook, in an order
  that depends on what the site holds; any of these may be where it ends. An invariant of the three is
  one of the write, whether it returns or raises. The child is put only at a key that the key codec
  takes.
-/
import Virtuals.Views.Base

namespace Virtuals.Views

open Virtuals.Lib

/-- The creation of a view that is not there. -/
theorem ViewBase.ensureCreated_missing {σ K P S C X : Type} (V : ViewBase σ K P S C)
    (env : Env P S C X) {s : σ} (hs : V.created s = false) :
    V.ensureCreated env s =
      match env.blocked with
      | some e => .error e s
      | none => .ok () (V.markCreated s) := by
  have hget : (V.created <$> get : EStateM ViewError σ Bool) s = .ok false s :=
    congrArg (EStateM.Result.ok · s) hs
  rw [ViewBase.ensureCreated, bind_of_ok hget]
  cases env.blocked <;> rfl

/-- What the marker row keeps, the creation of the view keeps. -/
theorem ViewBase.ensureCreated_keeps {σ K P S C X : Type} (V : ViewBase σ K P S C)
    (env : Env P S C X) {I : σ → Prop} (hmarked : ∀ s, I s → I (V.markCreated s)) :
    Keeps I (V.ensureCreated env) := by
  intro s hs
  cases hc : V.created s with
  | true =>
    rw [ensureCreated_made V env hc]
    exact hs
  | false =>
    rw [V.ensureCreated_missing env hc]
    cases env.blocked with
    | some e => exact hs
    | none => exact hmarked s hs

/-- Checks of the arguments leave the state alone. -/
theorem rejectEmptyIn_keeps {σ A P S C : Type} {I : σ → Prop} (value : Bulk A (Value P S C)) :
    Keeps I (ViewBase.rejectEmptyIn value) := by
  cases value with
  | mapping items => exact Keeps.raiseIf _
  | other => exact Keeps.pure ()

theorem items_keeps {σ A V : Type} {I : σ → Prop} (value : Bulk A V) : Keeps I value.items := by
  cases value with
  | mapping items => exact Keeps.pure items
  | other => exact Keeps.throw _

/-- An invariant of the steps of a write at a key. -/
structure ViewBase.Preserves {σ K P S C : Type} (V : ViewBase σ K P S C) (k : K) (I : σ → Prop) :
    Prop where
  marked : ∀ s, I s → I (V.markCreated s)
  put : V.refusesKey k = none → ∀ s c, I s → I (V.putChild k c s)
  hook : V.refusesKey k = none → Keeps I (V.onChildCreated k)

namespace ViewBase.Preserves

variable {σ K P S C X : Type} {V : ViewBase σ K P S C} {k : K} {I : σ → Prop}
variable (h : V.Preserves k I) (env : Env P S C X)

/-- The child is looked up first, and a key that the codec refuses ends the write. -/
theorem nodeInfo_bind {α : Type} {f : Option (Child P S C) → EStateM ViewError σ α}
    (hf : V.refusesKey k = none → ∀ info, Keeps I (f info)) : Keeps I (V.nodeInfo k >>= f) := by
  intro s hs
  cases hk : V.refusesKey k with
  | some kind =>
    have hinfo : V.nodeInfo k s = .error (.other kind) s := by
      rw [ViewBase.nodeInfo, hk]
      rfl
    rw [bind_of_error hinfo]
    exact hs
  | none =>
    have hinfo : V.nodeInfo k s = .ok (V.child s k) s := by
      rw [ViewBase.nodeInfo, hk]
      rfl
    rw [bind_of_ok hinfo]
    exact hf hk _ s hs

include h

theorem ensureCreated : Keeps I (V.ensureCreated env) := V.ensureCreated_keeps env h.marked

theorem createChild (hk : V.refusesKey k = none) (c : Child P S C) : Keeps I (V.createChild k c) :=
  Keeps.bind (Keeps.modify fun s hs => h.put hk s c hs) fun _ => h.hook hk

theorem putChildPrimitive (value : P) : Keeps I (V.putChildPrimitive env k value) := by
  refine nodeInfo_bind fun hk info => ?_
  match info with
  | some (.container _ _) => exact Keeps.throw _
  | some (.primitive _) =>
    exact Keeps.bind (Keeps.raiseIf _) fun _ => Keeps.modify fun s hs => h.put hk s _ hs
  | none => exact Keeps.bind (Keeps.raiseIf _) fun _ => h.createChild hk _

variable [DecidableEq S]

theorem ensureChildView (structureId : S) : Keeps I (V.ensureChildView env k structureId) := by
  refine nodeInfo_bind fun hk info => ?_
  match info with
  | none =>
    exact Keeps.bind (h.ensureCreated env) fun _ =>
      Keeps.bind (h.createChild hk _) fun _ => Keeps.pure true
  | some (.primitive _) => exact Keeps.throw _
  | some (.container s content) =>
    by_cases hs : s = structureId
    · simp only [if_pos hs]
      exact Keeps.bind (Keeps.modify fun s hs => h.put hk s _ hs) fun _ => Keeps.pure false
    · simp only [if_neg hs]
      exact Keeps.throw _

omit [DecidableEq S] in
theorem writeInside (hk : V.refusesKey k = none) (write : C → C × Option ViewError) :
    Keeps I (V.writeInside k write) := by
  intro s hs
  have hget : ((V.child · k) <$> get : EStateM ViewError σ _) s = .ok (V.child s k) s := rfl
  rw [ViewBase.writeInside, bind_of_ok hget]
  match V.child s k with
  | none => exact hs
  | some (.primitive _) => exact hs
  | some (.container found content) =>
    exact Keeps.bind (Keeps.modify fun s hs => h.put hk s _ hs) (fun _ => Keeps.raiseIf _) s hs

/-- A container is opened before it is written in, so the key was taken. -/
theorem openedWrite (structureId : S) (write : Bool → C → C × Option ViewError) :
    Keeps I (V.ensureChildView env k structureId >>= fun made => V.writeInside k (write made)) := by
  cases hk : V.refusesKey k with
  | some kind =>
    intro s hs
    have hinfo : V.nodeInfo k s = .error (.other kind) s := by
      rw [ViewBase.nodeInfo, hk]
      rfl
    have hopen : V.ensureChildView env k structureId s = .error (.other kind) s :=
      bind_of_error hinfo
    rw [bind_of_error hopen]
    exact hs
  | none =>
    exact Keeps.bind (h.ensureChildView env structureId) fun made => h.writeInside hk (write made)

theorem writeChild (value : Value P S C) : Keeps I (V.writeChild env k value) := by
  cases value with
  | empty => exact Keeps.pure ()
  | primitive value => exact h.putChildPrimitive env value
  | compound structureId store =>
    exact h.openedWrite env structureId fun made content => store content (!made)

/-- **A write of a value keeps what its steps keep** (PROVED). -/
theorem setChildValue (value : Value P S C) : Keeps I (V.setChildValue env (.key k) value) := by
  have hwrite : Keeps I (V.ensureCreated env >>= fun _ => V.writeChild env k value) :=
    Keeps.bind (h.ensureCreated env) fun _ => h.writeChild env value
  cases value with
  | empty => exact fun s hs => hs
  | primitive value => exact hwrite
  | compound structureId store => exact hwrite

/-- **A write through a child view keeps what its steps keep** (PROVED). -/
theorem nestedWrite (structureId : S) (write : C → C × Option ViewError) :
    Keeps I (V.nestedWrite env k structureId write) :=
  h.openedWrite env structureId fun _ => write

end ViewBase.Preserves

end Virtuals.Views
