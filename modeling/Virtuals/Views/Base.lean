/-
  `view/base.py` and `view/bases.py`: how a view writes its children.

  A view's own site is a marker row and the rows of its children; what a view keeps besides (a count,
  an index) is reached only through the hook `_on_child_created`. The base class is therefore one
  definition over the methods a view overrides (`ViewBase`), and a raised error leaves written what
  was written before it. `Refines` is what a view's bookkeeping has to show once: that the hook, run
  on a child just written, repairs the relation to a model. Every write of the base class then
  simulates the same write of the model.

  A child container's content, how a compound value is stored in it and how it is read back belong
  to the child's own view class and stay parameters (`Env`, `Value`).
-/
import Virtuals.Lib.Coupled

namespace Virtuals.Views

open Virtuals.Lib

/-- What a view operation raises. -/
inductive ViewError
  | typeError
  | valueError
  | keyError
  | indexError
  | attributeError
  | runtimeError
  | containerNotFound
  | containerType
  | containerExists
  /-- what a codec or the registry raises, by kind -/
  | other (kind : Nat)
  deriving DecidableEq, Repr

/-- `except KeyError`: a missing container is a missing key too. -/
def ViewError.isKeyError : ViewError → Bool
  | keyError | containerNotFound => true
  | _ => false

/-- What a child site holds. -/
inductive Child (P S C : Type)
  | primitive (value : P)
  | container (structureId : S) (content : C)

/-- A value offered to a view. -/
inductive Value (P S C : Type)
  /-- EMPTY, or a compound with EMPTY inside -/
  | empty
  | primitive (value : P)
  /-- a value of a registered container type, with what `child_view.store(value, replace)` makes of
  the content of a child, and what it raises after that -/
  | compound (structureId : S) (store : C → Bool → C × Option ViewError)

/-- A key offered to a view: a str or an int, or of another type. -/
inductive Address (K : Type)
  | key (k : K)
  | other

/-- The argument of `store` and `update`: a mapping, or something without `items()`. -/
inductive Bulk (A V : Type)
  | mapping (items : List (A × V))
  | other

/-- `value.items()`. -/
def Bulk.items {A V σ : Type} : Bulk A V → EStateM ViewError σ (List (A × V))
  | .mapping items => pure items
  | .other => throw .attributeError

/-- What a view depends on and does not decide. -/
structure Env (P S C X : Type) where
  /-- what creating the missing marker of the view raises (the storage parent is missing) -/
  blocked : Option ViewError
  /-- what the value codec raises on a value -/
  refusesValue : P → Option Nat
  /-- a child container after `Container.create` and `_ensure_internal_layout`: from nothing, or
  from what it holds -/
  layout : S → Option C → C
  /-- how a container child is read: extracted by the eager facets, opened by the lazy ones -/
  read : S → C → Except ViewError X

/-- The rows of a view and the methods it overrides, as the base class sees them. -/
structure ViewBase (σ K P S C : Type) where
  /-- the view's own marker row -/
  created : σ → Bool
  /-- the marker row written, and the internal layout set up -/
  markCreated : σ → σ
  /-- what the key codec raises on a child's key -/
  refusesKey : K → Option Nat
  child : σ → K → Option (Child P S C)
  putChild : K → Child P S C → σ → σ
  onChildCreated : K → EStateM ViewError σ Unit

variable {σ τ K J P S C X : Type}

namespace ViewBase

/-- `node_ops.get_node_info` of a child site. -/
def nodeInfo (V : ViewBase σ K P S C) (k : K) : EStateM ViewError σ (Option (Child P S C)) := do
  raiseIf ((V.refusesKey k).map .other)
  (V.child · k) <$> get

/-- `container.exists_child`. -/
def existsChild (V : ViewBase σ K P S C) (k : K) : EStateM ViewError σ Bool := do
  return (← V.nodeInfo k).isSome

/-- `container.require_exists`. -/
def requireExists (V : ViewBase σ K P S C) : EStateM ViewError σ Unit := do
  let made ← V.created <$> get
  raiseIf (if made then none else some .containerNotFound)

/-- `container.exists_child` with `strict`: no child of a container never written. -/
def existsChildStrict (V : ViewBase σ K P S C) (k : K) : EStateM ViewError σ Bool := do
  let found ← V.existsChild k
  if found then return true else do
    V.requireExists
    return false

/-- `ensure_created`. -/
def ensureCreated (V : ViewBase σ K P S C) (env : Env P S C X) : EStateM ViewError σ Unit := do
  let made ← V.created <$> get
  if made then pure () else do
    raiseIf env.blocked
    modify V.markCreated

/-- `_reject_bad_key`. -/
def rejectBadKey : Address K → EStateM ViewError σ K
  | .key k => pure k
  | .other => throw .typeError

/-- `_reject_empty_in`: EMPTY anywhere in a bulk value. -/
def rejectEmptyIn {A : Type} : Bulk A (Value P S C) → EStateM ViewError σ Unit
  | .mapping items => raiseIf <|
    if items.any (fun a => match a.2 with | .empty => true | _ => false) then some .valueError
    else none
  | .other => pure ()

/-- The first write of a child, then the hook. -/
def createChild (V : ViewBase σ K P S C) (k : K) (c : Child P S C) :
    EStateM ViewError σ Unit := do
  modify (V.putChild k c)
  V.onChildCreated k

/-- `_put_child_primitive`. -/
def putChildPrimitive (V : ViewBase σ K P S C) (env : Env P S C X) (k : K) (value : P) :
    EStateM ViewError σ Unit := do
  let info ← V.nodeInfo k
  match info with
  | some (.container _ _) => throw .containerType
  | some (.primitive _) => do
    raiseIf ((env.refusesValue value).map .other)
    modify (V.putChild k (.primitive value))
  | none => do
    raiseIf ((env.refusesValue value).map .other)
    V.createChild k (.primitive value)

theorem ensureCreated_made (V : ViewBase σ K P S C) (env : Env P S C X) {s : σ}
    (h : V.created s = true) : V.ensureCreated env s = .ok () s := by
  simp only [ensureCreated, Bind.bind, EStateM.bind, Functor.map, EStateM.map, get_apply, h]
  rfl

theorem requireExists_apply (V : ViewBase σ K P S C) (s : σ) :
    V.requireExists s = if V.created s then .ok () s else .error .containerNotFound s := by
  show (raiseIf (if V.created s then none else some ViewError.containerNotFound) :
    EStateM ViewError σ Unit) s = _
  cases V.created s <;> rfl

variable [DecidableEq S]

/-- `_ensure_child_view`: true if the child was created by this call. -/
def ensureChildView (V : ViewBase σ K P S C) (env : Env P S C X) (k : K) (structureId : S) :
    EStateM ViewError σ Bool := do
  let info ← V.nodeInfo k
  match info with
  | none => do
    V.ensureCreated env
    V.createChild k (.container structureId (env.layout structureId none))
    return true
  | some (.primitive _) => throw .containerType
  | some (.container s content) =>
    if s = structureId then do
      modify (V.putChild k (.container s (env.layout s (some content))))
      return false
    else throw .containerExists

omit [DecidableEq S] in
/-- A write inside a child container, by the child's own view. -/
def writeInside (V : ViewBase σ K P S C) (k : K) (write : C → C × Option ViewError) :
    EStateM ViewError σ Unit := do
  let child ← (V.child · k) <$> get
  match child with
  | some (.container s content) => do
    modify (V.putChild k (.container s (write content).1))
    raiseIf (write content).2
  | _ => pure ()

/-- `_populate_child_container`: a child created just now has nothing to clear. -/
def populateChildContainer (V : ViewBase σ K P S C) (env : Env P S C X) (k : K) (structureId : S)
    (store : C → Bool → C × Option ViewError) : EStateM ViewError σ Unit := do
  let created ← V.ensureChildView env k structureId
  V.writeInside k (store · (!created))

/-- The write of a value under a key that passed the checks, once the view exists. -/
def writeChild (V : ViewBase σ K P S C) (env : Env P S C X) (k : K) :
    Value P S C → EStateM ViewError σ Unit
  | .empty => pure ()
  | .primitive value => V.putChildPrimitive env k value
  | .compound structureId store => V.populateChildContainer env k structureId store

/-- `_set_child_value`: the key and EMPTY are refused before the view is created. -/
def setChildValue (V : ViewBase σ K P S C) (env : Env P S C X) (address : Address K)
    (value : Value P S C) : EStateM ViewError σ Unit := do
  let k ← rejectBadKey address
  raiseIf (match value with | .empty => some .valueError | _ => none)
  V.ensureCreated env
  V.writeChild env k value

/-- A write through a child view opened at a key (`open_child`, `ensure_child`): the child is created
through this view, then its own view writes inside it. -/
def nestedWrite (V : ViewBase σ K P S C) (env : Env P S C X) (k : K) (structureId : S)
    (write : C → C × Option ViewError) : EStateM ViewError σ Unit := do
  let _ ← V.ensureChildView env k structureId
  V.writeInside k write

omit [DecidableEq S] in
/-- The value read from a child: KeyError for a missing one. -/
def childValue (env : Env P S C X) : Option (Child P S C) → Except ViewError (P ⊕ X)
  | none => .error .keyError
  | some (.primitive value) => .ok (.inl value)
  | some (.container s content) => .inr <$> env.read s content

end ViewBase

/-! ## Refinement -/

/-- What a view has to show: its rows and its hook follow the model `W`, whose keys are the view's
under `key`. -/
structure Refines (V : ViewBase σ K P S C) (W : ViewBase τ J P S C) (key : J → K)
    (R : σ → τ → Prop) : Prop where
  created : ∀ {s t}, R s t → V.created s = W.created t
  markCreated : ∀ {s t}, R s t → V.created s = false → R (V.markCreated s) (W.markCreated t)
  marked : ∀ s, V.created (V.markCreated s) = true
  childMarked : ∀ s k, V.child (V.markCreated s) k = V.child s k
  refusesKey : ∀ j, V.refusesKey (key j) = W.refusesKey j
  child : ∀ {s t}, R s t → ∀ j, V.child s (key j) = W.child t j
  overwrite : ∀ {s t}, R s t → ∀ j c c', V.child s (key j) = some c →
    R (V.putChild (key j) c' s) (W.putChild j c' t)
  /-- a child just written for the first time, then the hook -/
  record : ∀ {s t}, R s t → V.created s = true → ∀ j c, V.child s (key j) = none →
    Agree (fun _ => R) R (V.onChildCreated (key j) (V.putChild (key j) c s))
      (W.onChildCreated j (W.putChild j c t))

namespace Refines

variable {V : ViewBase σ K P S C} {W : ViewBase τ J P S C} {key : J → K} {R : σ → τ → Prop}

/-- The states of an existing view. -/
def Made (V : ViewBase σ K P S C) (R : σ → τ → Prop) (s : σ) (t : τ) : Prop :=
  R s t ∧ V.created s = true

theorem nodeInfo (h : Refines V W key R) (j : J) {P : σ → τ → Prop}
    (hP : ∀ s t, P s t → R s t) :
    Coupled P (V.nodeInfo (key j)) (W.nodeInfo j)
      (fun info s t => P s t ∧ V.child s (key j) = info) R := by
  rw [ViewBase.nodeInfo, ViewBase.nodeInfo, h.refusesKey j]
  refine Coupled.bind (Coupled.raiseIf _ hP) fun _ s t hs => ?_
  exact ⟨h.child (hP s t hs) j, hs, rfl⟩

theorem existsChild (h : Refines V W key R) (j : J) :
    Sim R (V.existsChild (key j)) (W.existsChild j) :=
  Coupled.bind (h.nodeInfo j fun _ _ hR => hR) fun info =>
    (Sim.pure info.isSome).mono (fun _ _ h => h.1) fun _ _ _ h => h

theorem requireExists (h : Refines V W key R) : Sim R V.requireExists W.requireExists :=
  Sim.bind (Sim.gets fun _ _ hR => h.created hR) fun _ => Sim.raiseIf _

theorem existsChildStrict (h : Refines V W key R) (j : J) :
    Sim R (V.existsChildStrict (key j)) (W.existsChildStrict j) :=
  Sim.bind (h.existsChild j) fun _ =>
    Sim.ite (Sim.pure true) (Sim.bind h.requireExists fun _ => Sim.pure false)

theorem ensureCreated (h : Refines V W key R) (env : Env P S C X) :
    Coupled R (V.ensureCreated env) (W.ensureCreated env) (fun _ => Made V R) R := by
  intro s t hR
  have hc := h.created hR
  simp only [ViewBase.ensureCreated, Bind.bind, EStateM.bind, Functor.map, EStateM.map, get_apply,
    ← hc]
  cases hs : V.created s with
  | true => exact ⟨rfl, hR, hs⟩
  | false =>
    cases env.blocked with
    | some e => exact ⟨rfl, hR⟩
    | none => exact ⟨rfl, h.markCreated hR hs, h.marked s⟩

/-- Creating the view does not create a child. -/
theorem ensureCreatedMissing (h : Refines V W key R) (env : Env P S C X) (j : J) :
    Coupled (fun s t => R s t ∧ V.child s (key j) = none) (V.ensureCreated env)
      (W.ensureCreated env) (fun _ s t => Made V R s t ∧ V.child s (key j) = none) R := by
  intro s t hs
  have hc := h.created hs.1
  simp only [ViewBase.ensureCreated, Bind.bind, EStateM.bind, Functor.map, EStateM.map, get_apply,
    ← hc]
  cases hm : V.created s with
  | true => exact ⟨rfl, ⟨hs.1, hm⟩, hs.2⟩
  | false =>
    cases env.blocked with
    | some e => exact ⟨rfl, hs.1⟩
    | none => exact ⟨rfl, ⟨h.markCreated hs.1 hm, h.marked s⟩, (h.childMarked s _).trans hs.2⟩

theorem createChild (h : Refines V W key R) (j : J) (c : Child P S C) :
    Coupled (fun s t => Made V R s t ∧ V.child s (key j) = none) (V.createChild (key j) c)
      (W.createChild j c) (fun _ => R) R :=
  fun _ _ hs => h.record hs.1.1 hs.1.2 j c hs.2

theorem replace (h : Refines V W key R) (j : J) (c c' : Child P S C) :
    Coupled (fun s t => R s t ∧ V.child s (key j) = some c)
      (modify (V.putChild (key j) c') : EStateM ViewError σ Unit) (modify (W.putChild j c'))
      (fun _ => R) R :=
  fun _ _ hs => ⟨rfl, h.overwrite hs.1 j c c' hs.2⟩

theorem putChildPrimitive (h : Refines V W key R) (env : Env P S C X) (j : J) (value : P) :
    Coupled (Made V R) (V.putChildPrimitive env (key j) value) (W.putChildPrimitive env j value)
      (fun _ => R) R := by
  refine Coupled.bind (h.nodeInfo j fun _ _ hs => hs.1) fun info => ?_
  match info with
  | some (.container s content) => exact Coupled.throw _ fun _ _ hs => hs.1.1
  | some (.primitive old) =>
    exact Coupled.bind (Coupled.raiseIf _ fun _ _ hs => hs.1.1) fun _ =>
      (h.replace j (.primitive old) (.primitive value)).mono (fun _ _ hs => ⟨hs.1.1, hs.2⟩)
        fun _ _ _ hs => hs
  | none =>
    exact Coupled.bind (Coupled.raiseIf _ fun _ _ hs => hs.1.1) fun _ =>
      h.createChild j (.primitive value)

theorem writeInside (h : Refines V W key R) (j : J) (write : C → C × Option ViewError) :
    Sim R (V.writeInside (key j) write) (W.writeInside j write) := by
  have hget : Coupled R ((V.child · (key j)) <$> get : EStateM ViewError σ _)
      ((W.child · j) <$> get) (fun c s t => R s t ∧ V.child s (key j) = c) R :=
    fun s t hR => ⟨h.child hR j, hR, rfl⟩
  refine Coupled.bind hget fun child => ?_
  match child with
  | some (.container s content) =>
    exact Coupled.bind (h.replace j _ _) fun _ => Sim.raiseIf _
  | some (.primitive value) => exact (Sim.pure ()).mono (fun _ _ hs => hs.1) fun _ _ _ hs => hs
  | none => exact (Sim.pure ()).mono (fun _ _ hs => hs.1) fun _ _ _ hs => hs

variable [DecidableEq S]

theorem ensureChildView (h : Refines V W key R) (env : Env P S C X) (j : J) (structureId : S) :
    Sim R (V.ensureChildView env (key j) structureId) (W.ensureChildView env j structureId) := by
  refine Coupled.bind (h.nodeInfo j fun _ _ hR => hR) fun info => ?_
  match info with
  | none =>
    refine Coupled.bind (h.ensureCreatedMissing env j) fun _ => ?_
    exact Coupled.bind (h.createChild j _) fun _ => Sim.pure true
  | some (.primitive value) => exact Coupled.throw _ fun _ _ hs => hs.1
  | some (.container s content) =>
    by_cases hs : s = structureId
    · simp only [if_pos hs]
      exact Coupled.bind (h.replace j _ _) fun _ => Sim.pure false
    · simp only [if_neg hs]
      exact Coupled.throw _ fun _ _ hs => hs.1

theorem populateChildContainer (h : Refines V W key R) (env : Env P S C X) (j : J)
    (structureId : S) (store : C → Bool → C × Option ViewError) :
    Sim R (V.populateChildContainer env (key j) structureId store)
      (W.populateChildContainer env j structureId store) :=
  Sim.bind (h.ensureChildView env j structureId) fun created =>
    h.writeInside j (store · (!created))

theorem nestedWrite (h : Refines V W key R) (env : Env P S C X) (j : J) (structureId : S)
    (write : C → C × Option ViewError) :
    Sim R (V.nestedWrite env (key j) structureId write) (W.nestedWrite env j structureId write) :=
  Sim.bind (h.ensureChildView env j structureId) fun _ => h.writeInside j write

theorem writeChild (h : Refines V W key R) (env : Env P S C X) (j : J) (value : Value P S C) :
    Coupled (Made V R) (V.writeChild env (key j) value) (W.writeChild env j value)
      (fun _ => R) R := by
  cases value with
  | empty => exact fun _ _ hs => ⟨rfl, hs.1⟩
  | primitive value => exact h.putChildPrimitive env j value
  | compound structureId store =>
    exact (h.populateChildContainer env j structureId store).mono (fun _ _ hs => hs.1)
      fun _ _ _ hs => hs

/-- A model's key as the view's. -/
def address (key : J → K) : Address J → Address K
  | .key j => .key (key j)
  | .other => .other

/-- **Every write of the base class simulates the model's** (PROVED). -/
theorem setChildValue (h : Refines V W key R) (env : Env P S C X) (a : Address J)
    (value : Value P S C) :
    Sim R (V.setChildValue env (address key a) value) (W.setChildValue env a value) := by
  cases a with
  | other => exact Sim.throw _
  | key j =>
    refine Sim.bind (Sim.raiseIf _) fun _ => ?_
    exact Coupled.bind (h.ensureCreated env) fun _ => h.writeChild env j value

omit [DecidableEq S] in
theorem ensureCreated_sim (h : Refines V W key R) (env : Env P S C X) :
    Sim R (V.ensureCreated env) (W.ensureCreated env) :=
  (h.ensureCreated env).mono (fun _ _ h => h) fun _ _ _ h => h.1

end Refines

/-- Checks of the arguments do not touch the state. -/
theorem rejectEmptyIn_sim {A : Type} {R : σ → τ → Prop} (value : Bulk A (Value P S C)) :
    Sim R (ViewBase.rejectEmptyIn value) (ViewBase.rejectEmptyIn value) := by
  cases value with
  | mapping items => exact Sim.raiseIf _
  | other => exact Sim.pure ()

theorem items_sim {A B : Type} {R : σ → τ → Prop} (value : Bulk A B) :
    Sim R value.items value.items := by
  cases value with
  | mapping items => exact Sim.pure items
  | other => exact Sim.throw _

end Virtuals.Views
