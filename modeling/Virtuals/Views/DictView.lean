/-
  What the dict views have in common, and what they are for.

  The dict views share the code of `__setitem__`, `update`, `store`, `pop` and `get`; they differ in
  the keys they take, in their bookkeeping and in `__delitem__`, `clear`, `__len__` and `__contains__`.
  `DictView` is the common code over those, `DictView.exec` the public operations.

  The model is the same code over an insertion-ordered dict of typed children, with a hook that does
  nothing: a child keeps its kind, a child container is written in place, an absent dict is created by
  its first write. `Simulates.exec` reduces the refinement of a view to its own methods.
-/
import Virtuals.Lib.PyDict
import Virtuals.Views.Base

namespace Virtuals.Views

open Virtuals.Lib

/-- Which keys a dict view takes, by what is done with them; `K` is what it stores them under. -/
structure KeyChecks (A K : Type) where
  /-- an assignment -/
  write : A → Except ViewError K
  /-- an item of `store` -/
  store : A → Except ViewError K
  /-- a read or a delete: what the view cannot hold is absent -/
  read : A → Except ViewError K
  /-- a child view opened at a key -/
  nested : A → Except ViewError K

/-- The public operations of a dict view. -/
inductive DictOp (A P S C : Type)
  /-- `d[a] = v`, and `set_child_container_as` with the structure of its view class -/
  | set (address : A) (value : Value P S C)
  /-- a write through a child view opened at a key -/
  | nested (address : A) (structureId : S) (write : C → C × Option ViewError)
  | del (address : A)
  | pop (address : A) (default : Bool)
  | clear
  | update (value : Bulk A (Value P S C)) (kwargs : List (A × Value P S C))
  | store (value : Bulk A (Value P S C)) (replace : Bool)
  | get (address : A) (default : Bool)
  | contains (address : A)
  | len
  /-- a method of `dict` that the view does not have, such as `popitem` and `setdefault` -/
  | missing

/-- What an operation returns. -/
inductive Out (P X : Type)
  | unit
  | bool (b : Bool)
  | nat (n : Nat)
  | value (x : P ⊕ X)
  /-- the caller's default -/
  | default
  deriving DecidableEq

/-- `try: … except KeyError: default`, with the default that the caller gave or none. -/
def orDefault {σ P X : Type} (default : Bool) (m : EStateM ViewError σ (Out P X)) :
    EStateM ViewError σ (Out P X) :=
  MonadExcept.tryCatch m fun e =>
    if e.isKeyError && default then pure .default else throw e

/-- `__contains__`: a key the view cannot hold is not in it. -/
def containsKey {σ A K P S C : Type} (V : ViewBase σ K P S C) (checks : KeyChecks A K)
    (address : A) : EStateM ViewError σ Bool :=
  match checks.read address with
  | .error _ => return false
  | .ok k => V.existsChildStrict k

/-- A dict view: its base class, its keys and the methods that follow its layout. -/
structure DictView (σ A K P S C : Type) where
  base : ViewBase σ K P S C
  checks : KeyChecks A K
  /-- `__delitem__` -/
  delItem : A → EStateM ViewError σ Unit
  clear : EStateM ViewError σ Unit
  /-- `__len__` -/
  len : EStateM ViewError σ Nat
  /-- `__contains__` -/
  contains : A → EStateM ViewError σ Bool

variable {σ τ A K J P S C X : Type} [DecidableEq S]

namespace DictView

variable (V : DictView σ A K P S C) (env : Env P S C X)

/-- `__setitem__`, and `set_child_container_as`. -/
def setItem (address : A) (value : Value P S C) : EStateM ViewError σ Unit := do
  let k ← liftResult (V.checks.write address)
  V.base.setChildValue env (.key k) value

omit [DecidableEq S] in
/-- `__getitem__`. -/
def getItem (address : A) : EStateM ViewError σ (P ⊕ X) := do
  let k ← liftResult (V.checks.read address)
  let child ← V.base.nodeInfo k
  liftResult (ViewBase.childValue env child)

/-- `update`. -/
def update (value : Bulk A (Value P S C)) (kwargs : List (A × Value P S C)) :
    EStateM ViewError σ Unit := do
  ViewBase.rejectEmptyIn value
  ViewBase.rejectEmptyIn (.mapping kwargs)
  let items ← value.items
  items.forM fun a => V.setItem env a.1 a.2
  kwargs.forM fun a => V.setItem env a.1 a.2

/-- `store`: a container that has items is cleared first. -/
def store (value : Bulk A (Value P S C)) (replace : Bool) : EStateM ViewError σ Unit := do
  ViewBase.rejectEmptyIn value
  V.base.ensureCreated env
  let n ← V.len
  onlyIf (replace && decide (0 < n)) V.clear
  let items ← value.items
  items.forM fun a => do
    let k ← liftResult (V.checks.store a.1)
    V.base.setChildValue env (.key k) a.2

omit [DecidableEq S] in
/-- `pop`. -/
def pop (address : A) (default : Bool) : EStateM ViewError σ (Out P X) :=
  orDefault default do
    let x ← V.getItem env address
    V.delItem address
    return .value x

/-- An operation of the view. -/
def exec : DictOp A P S C → EStateM ViewError σ (Out P X)
  | .set address value => (fun _ => .unit) <$> V.setItem env address value
  | .nested address structureId write => do
    let k ← liftResult (V.checks.nested address)
    V.base.nestedWrite env k structureId write
    return .unit
  | .del address => (fun _ => .unit) <$> V.delItem address
  | .pop address default => V.pop env address default
  | .clear => (fun _ => .unit) <$> V.clear
  | .update value kwargs => (fun _ => .unit) <$> V.update env value kwargs
  | .store value replace => (fun _ => .unit) <$> V.store env value replace
  | .get address default => orDefault default (.value <$> V.getItem env address)
  | .contains address => .bool <$> V.contains address
  | .len => .nat <$> V.len
  | .missing => throw .attributeError

end DictView

/-! ## The model -/

/-- A dict, once created. -/
structure DictModel (K V : Type) where
  created : Bool
  dict : PyDict K V

namespace DictModel

/-- The dict of a view never written. -/
def absent {K V : Type} : DictModel K V := ⟨false, ⟨[], List.nodup_nil⟩⟩

variable [DecidableEq K] (checks : KeyChecks A K) (refusesKey : K → Option Nat)

omit [DecidableEq S] in
def base : ViewBase (DictModel K (Child P S C)) K P S C where
  created := created
  markCreated m := { m with created := true }
  refusesKey := refusesKey
  child m k := m.dict.get? k
  putChild k c m := { m with dict := m.dict.set k c }
  onChildCreated _ := pure ()

omit [DecidableEq S] in
/-- `del d[a]`. -/
def delItem (address : A) : EStateM ViewError (DictModel K (Child P S C)) Unit := do
  let k ← liftResult (checks.read address)
  let found ← (base refusesKey).existsChild k
  if found then modify fun m => { m with dict := m.dict.erase k } else throw .keyError

omit [DecidableEq S] in
/-- `a in d`: an absent key asks for the dict itself. -/
def contains (address : A) : EStateM ViewError (DictModel K (Child P S C)) Bool :=
  containsKey (base refusesKey) checks address

omit [DecidableEq S] [DecidableEq K] in
/-- `d.clear()`. -/
def clear {V : Type} : EStateM ViewError (DictModel K V) Unit :=
  modify fun m => { m with dict := ⟨[], List.nodup_nil⟩ }

omit [DecidableEq S] in
/-- `len(d)`. -/
def len : EStateM ViewError (DictModel K (Child P S C)) Nat := do
  (base refusesKey).requireExists
  (fun m : DictModel K (Child P S C) => m.dict.items.length) <$> get

omit [DecidableEq S] in
theorem len_apply (m : DictModel K (Child P S C)) :
    len refusesKey m =
      if m.created then .ok m.dict.items.length m else .error .containerNotFound m := by
  have h := ViewBase.requireExists_apply (base refusesKey) m
  cases hm : m.created with
  | true =>
    rw [show (base refusesKey).created m = true from hm, if_pos rfl] at h
    exact bind_of_ok h
  | false =>
    rw [show (base refusesKey).created m = false from hm, if_neg Bool.false_ne_true] at h
    exact bind_of_error h

omit [DecidableEq S] [DecidableEq K] in
theorem clear_of_nil {V : Type} (m : DictModel K V) (h : m.dict.items = []) :
    clear m = .ok () m := by
  obtain ⟨created, items, nodup⟩ := m
  cases h
  rfl

/-- A Python dict that takes the keys of a view. -/
def view : DictView (DictModel K (Child P S C)) A K P S C where
  base := base refusesKey
  checks := checks
  delItem := delItem checks refusesKey
  clear := clear
  len := len refusesKey
  contains := contains checks refusesKey

end DictModel

/-! ## Refinement -/

theorem orDefault_sim {R : σ → τ → Prop} (default : Bool)
    {m : EStateM ViewError σ (Out P X)} {n : EStateM ViewError τ (Out P X)} (h : Sim R m n) :
    Sim R (orDefault default m) (orDefault default n) :=
  Sim.tryCatch h fun _ => Sim.ite (Sim.pure _) (Sim.throw _)

omit [DecidableEq S] in
theorem containsKey_sim {V : ViewBase σ K P S C} {W : ViewBase τ J P S C} {key : J → K}
    {R : σ → τ → Prop} (h : Refines V W key R) {checks : KeyChecks A K}
    {checks' : KeyChecks A J} (hread : ∀ a, checks.read a = (checks'.read a).map key) (a : A) :
    Sim R (containsKey V checks a) (containsKey W checks' a) := by
  rw [containsKey, containsKey, hread]
  cases checks'.read a with
  | error e => exact Sim.pure false
  | ok j => exact h.existsChildStrict j

/-- What a dict view has to show of its own methods. -/
structure Simulates (V : DictView σ A K P S C) (W : DictView τ A J P S C) (key : J → K)
    (R : σ → τ → Prop) : Prop where
  refines : Refines V.base W.base key R
  write : ∀ a, V.checks.write a = (W.checks.write a).map key
  store : ∀ a, V.checks.store a = (W.checks.store a).map key
  read : ∀ a, V.checks.read a = (W.checks.read a).map key
  nested : ∀ a, V.checks.nested a = (W.checks.nested a).map key
  delItem : ∀ a, Sim R (V.delItem a) (W.delItem a)
  clear : Sim R V.clear W.clear
  len : Sim R V.len W.len
  contains : ∀ a, Sim R (V.contains a) (W.contains a)

/-- One side goes on with the key it stores under, the other with the model's. -/
theorem Sim.keyed {R : σ → τ → Prop} {α : Type} {key : J → K} {x : Except ViewError J}
    {f : K → EStateM ViewError σ α} {g : J → EStateM ViewError τ α}
    (h : ∀ j, Sim R (f (key j)) (g j)) :
    Sim R (liftResult (x.map key) >>= f) (liftResult x >>= g) := by
  cases x with
  | error e => exact Sim.throw e
  | ok j => exact h j

namespace Simulates

variable {V : DictView σ A K P S C} {W : DictView τ A J P S C} {key : J → K} {R : σ → τ → Prop}
variable (h : Simulates V W key R) (env : Env P S C X)

include h

theorem setItem (address : A) (value : Value P S C) :
    Sim R (V.setItem env address value) (W.setItem env address value) := by
  rw [DictView.setItem, DictView.setItem, h.write]
  exact Sim.keyed fun j => h.refines.setChildValue env (.key j) value

omit [DecidableEq S] in
theorem getItem (address : A) : Sim R (V.getItem env address) (W.getItem env address) := by
  rw [DictView.getItem, DictView.getItem, h.read]
  refine Sim.keyed fun j => Coupled.bind (h.refines.nodeInfo j fun _ _ hR => hR) fun child => ?_
  exact (Sim.liftResult _).mono (fun _ _ h => h.1) fun _ _ _ h => h

theorem update (value : Bulk A (Value P S C)) (kwargs : List (A × Value P S C)) :
    Sim R (V.update env value kwargs) (W.update env value kwargs) := by
  refine Sim.bind (rejectEmptyIn_sim value) fun _ => ?_
  refine Sim.bind (rejectEmptyIn_sim (.mapping kwargs)) fun _ => ?_
  refine Sim.bind (items_sim value) fun items => ?_
  exact Sim.bind (Sim.forM items fun a => h.setItem env a.1 a.2) fun _ =>
    Sim.forM kwargs fun a => h.setItem env a.1 a.2

theorem storeValue (value : Bulk A (Value P S C)) (replace : Bool) :
    Sim R (V.store env value replace) (W.store env value replace) := by
  refine Sim.bind (rejectEmptyIn_sim value) fun _ => ?_
  refine Sim.bind (h.refines.ensureCreated_sim env) fun _ => ?_
  refine Sim.bind h.len fun n => Sim.bind (Sim.onlyIf _ h.clear) fun _ => ?_
  refine Sim.bind (items_sim value) fun items => Sim.forM items fun a => ?_
  rw [h.store]
  exact Sim.keyed fun j => h.refines.setChildValue env (.key j) a.2

omit [DecidableEq S] in
theorem pop (address : A) (default : Bool) :
    Sim R (V.pop env address default) (W.pop env address default) :=
  orDefault_sim default <| Sim.bind (h.getItem env address) fun x =>
    Sim.bind (h.delItem address) fun _ => Sim.pure (Out.value x)

/-- **Every public operation of the view simulates the model's** (PROVED). -/
theorem exec (op : DictOp A P S C) : Sim R (V.exec env op) (W.exec env op) := by
  cases op with
  | set address value => exact Sim.map _ (h.setItem env address value)
  | nested address structureId write =>
    simp only [DictView.exec, h.nested]
    exact Sim.keyed fun j =>
      Sim.bind (h.refines.nestedWrite env j structureId write) fun _ => Sim.pure Out.unit
  | del address => exact Sim.map _ (h.delItem address)
  | pop address default => exact h.pop env address default
  | clear => exact Sim.map _ h.clear
  | update value kwargs => exact Sim.map _ (h.update env value kwargs)
  | store value replace => exact Sim.map _ (h.storeValue env value replace)
  | get address default => exact orDefault_sim default (Sim.map _ (h.getItem env address))
  | contains address => exact Sim.map _ (h.contains address)
  | len => exact Sim.map _ h.len
  | missing => exact Sim.throw _

end Simulates

end Virtuals.Views
