/-
  `_views/set_view.py` and `_views/frozenset_view.py`: sets of values stored under a key computed from
  the value.

  A member is one opaque row under its key (`_make_key`); the rows are counted by the hook of the base
  class and by hand. The views have no in-place operators: Python then takes `v |= other` for
  `v = v | other`, which reads the view and returns a set.

  The model (`PySet`) is a Python set of values in which two values are one member when `same` says
  so; for the views that is: when they have the same member key. What it raises is said by Python's
  own view of the values (`PyObjects`), not by their keys. A set written by an older release may hold
  members as child containers (`old`), which the views replace by rows.
-/
import Mathlib.Data.Finset.SDiff
import Virtuals.Views.Counted

namespace Virtuals.Views

open Virtuals.Lib

/-- What Python says of the values offered to a set. -/
structure PyObjects (V N : Type) where
  /-- EMPTY anywhere in the value -/
  containsEmpty : V → Bool
  /-- `hash(value)` succeeds -/
  hashable : V → Bool
  /-- what `pickle.dumps(value)` raises -/
  unpicklable : V → Option ViewError
  /-- the value up to Python's `==` -/
  value : V → N

/-- The operand of a set operator: what iterating it yields, and what it raises after that. -/
structure Operand (V : Type) where
  values : List V
  raises : Option ViewError

/-- `TypeError` at once. -/
def Operand.notIterable {V : Type} : Operand V := ⟨[], some .typeError⟩

/-- The binary set operators. -/
inductive SetOperator
  | or
  | and
  | sub
  | xor

def SetOperator.apply {N : Type} [DecidableEq N] : SetOperator → Finset N → Finset N → Finset N
  | or, s, t => s ∪ t
  | and, s, t => s ∩ t
  | sub, s, t => s \ t
  | xor, s, t => s \ t ∪ t \ s

namespace PyObjects

variable {V N : Type} (objects : PyObjects V N)

def pickles (value : V) : Except ViewError Unit :=
  match objects.unpicklable value with
  | some e => .error e
  | none => .ok ()

/-- `set(values)`. -/
def toSet [DecidableEq N] (values : List V) : Except ViewError (Finset N) :=
  if values.all objects.hashable then .ok (values.map objects.value).toFinset
  else .error .typeError

/-- `set(other)`: a value is hashed as it is yielded. -/
def operandSet [DecidableEq N] (other : Operand V) : Except ViewError (Finset N) := do
  let values ← objects.toSet other.values
  match other.raises with
  | none => return values
  | some e => throw e

end PyObjects

/-- The keys of the members: `sha256` of the canonical pickle. -/
structure MemberCheck (V K N : Type) extends PyObjects V N where
  key : V → K
  /-- the hash has no collision, and a pickle determines the value up to `==`, and its type -/
  determines : ∀ v w, unpicklable v = none → unpicklable w = none → key v = key w →
    value v = value w ∧ hashable v = hashable w

variable {V K N S C X : Type} [LinearOrder K]

/-- `_make_key`: raises like `pickle.dumps`. -/
def MemberCheck.makeKey (check : MemberCheck V K N) (value : V) : Except ViewError K :=
  match check.unpicklable value with
  | some e => .error e
  | none => .ok (check.key value)

namespace SetView

/-- The rows at the site of a set view: a member's key, and the member itself. -/
abbrev Site (K V S C : Type) := Counted K (Child V S C)

/-- Assumed: the key codec takes the member keys, strings of 64 hexadecimal digits. -/
def refusesKey (_ : K) : Option Nat := none

def base : ViewBase (Site K V S C) K V S C := Counted.base refusesKey

/-- `_check_member`: everything a Python set would reject, before anything is written. -/
def checkMember (check : MemberCheck V K N) (value : V) : Except ViewError K :=
  if check.containsEmpty value then .error .valueError
  else if check.hashable value then check.makeKey value
  else .error .typeError

/-- `_put_member`: a member held as a child container is deleted first, and counted down. -/
def putMember (env : Env V S C X) (key : K) (value : V) : EStateM ViewError (Site K V S C) Unit :=
  MonadExcept.tryCatch (base.putChildPrimitive env key value) fun e =>
    if e = .containerType then do
      Counted.deleteChild key
      Counted.decrementLength
      base.putChildPrimitive env key value
    else throw e

/-- `add`. -/
def add (check : MemberCheck V K N) (env : Env V S C X) (value : V) :
    EStateM ViewError (Site K V S C) Unit := do
  let key ← liftResult (checkMember check value)
  base.ensureCreated env
  putMember env key value

/-- Delete a member that is present. -/
def deleteMember (env : Env V S C X) (key : K) : EStateM ViewError (Site K V S C) Unit := do
  base.ensureCreated env
  Counted.deleteChild key
  Counted.decrementLength

/-- `remove`. -/
def remove (check : MemberCheck V K N) (env : Env V S C X) (value : V) :
    EStateM ViewError (Site K V S C) Unit := do
  let key ← liftResult (check.makeKey value)
  let found ← base.existsChild key
  if found then deleteMember env key else throw .keyError

/-- `discard`. -/
def discard (check : MemberCheck V K N) (env : Env V S C X) (value : V) :
    EStateM ViewError (Site K V S C) Unit := do
  let key ← liftResult (check.makeKey value)
  let found ← base.existsChild key
  if found then deleteMember env key else pure ()

/-- `__contains__`. -/
def contains (check : MemberCheck V K N) (value : V) : EStateM ViewError (Site K V S C) Bool := do
  let key ← liftResult (check.makeKey value)
  base.existsChildStrict key

/-- `clear`. -/
def clear (env : Env V S C X) : EStateM ViewError (Site K V S C) Unit :=
  Counted.clear refusesKey env

/-- `store`: every member is checked and keyed before any write. -/
def store (check : MemberCheck V K N) (env : Env V S C X) (value : List V) (replace : Bool) :
    EStateM ViewError (Site K V S C) Unit := do
  let keyed ← liftResult (value.mapM fun item => (·, item) <$> checkMember check item)
  base.ensureCreated env
  if replace then clear env else pure ()
  keyed.forM fun a => putMember env a.1 a.2

/-- `__iter__`: the stored values, in the order of their keys. A scan that meets neither a child nor
the marker row raises. -/
def iter : EStateM ViewError (Site K V S C) (List V) := do
  let s ← get
  raiseIf (if s.created || !s.children.scan.isEmpty then none else some .containerNotFound)
  let stored ← s.children.scan.mapM fun key =>
    match s.children.get? key with
    | none => return none
    | some (.primitive value) => return some value
    | some (.container _ _) => throw .containerType
  return stored.filterMap id

variable [DecidableEq N]

/-- `__or__`, `__and__`, `__sub__` and `__xor__`, and what Python makes of `v |= other`, `v &= other`,
`v -= other` and `v ^= other`: the views define no `__ior__` and the like. The view stays as it is; the
name `v` is bound to the set returned. -/
def operator (check : MemberCheck V K N) (op : SetOperator) (other : Operand V) :
    EStateM ViewError (Site K V S C) (Finset N) := do
  let stored ← iter
  let mine ← liftResult (check.toSet stored)
  let theirs ← liftResult (check.operandSet other)
  return op.apply mine theirs

end SetView

namespace FrozenSetView

/-- `store` of a frozenset view, its only write: replacing clears without asking for the marker. -/
def store (check : MemberCheck V K N) (env : Env V S C X) (value : List V) (replace : Bool) :
    EStateM ViewError (SetView.Site K V S C) Unit := do
  let keyed ← liftResult (value.mapM fun item => (·, item) <$> SetView.checkMember check item)
  SetView.base.ensureCreated env
  if replace then do
    Counted.clearChildren
    Counted.setLength 0
  else pure ()
  keyed.forM fun a => SetView.putMember env a.1 a.2

end FrozenSetView

/-! ## The model -/

/-- A Python set, once created: values no two of which are one member. -/
structure PySet (V : Type) where
  created : Bool
  members : List V

namespace PySet

/-- The set of a view never written. -/
def absent : PySet V := ⟨false, []⟩

variable (same : V → V → Bool)

/-- `add` to a list of members. -/
def insert (value : V) (members : List V) : List V :=
  if members.any (same value) then members else members ++ [value]

/-- `discard` from a list of members. -/
def delete (value : V) (members : List V) : List V := members.filter fun v => !same value v

variable (objects : PyObjects V N) (env : Env V S C X)

/-- What `add` asks of a value, before anything is written: no EMPTY, a hash and a pickle. -/
def admits (value : V) : Except ViewError Unit :=
  if objects.containsEmpty value then .error .valueError
  else if objects.hashable value then objects.pickles value
  else .error .typeError

/-- An unhashable value is in no set. Python's own set raises TypeError when asked for one. -/
def has (value : V) (m : PySet V) : Bool :=
  objects.hashable value && m.members.any (same value)

def ensureCreated : EStateM ViewError (PySet V) Unit := do
  let made ← created <$> get
  if made then pure () else do
    raiseIf env.blocked
    modify fun m => { m with created := true }

/-- A set never written cannot be read. -/
def requireExists : EStateM ViewError (PySet V) Unit := do
  let made ← created <$> get
  raiseIf (if made then none else some .containerNotFound)

/-- A checked value becomes a member; the value codec may refuse it. -/
def put (value : V) : EStateM ViewError (PySet V) Unit := do
  raiseIf ((env.refusesValue value).map .other)
  modify fun m => { m with members := insert same value m.members }

def add (value : V) : EStateM ViewError (PySet V) Unit := do
  liftResult (admits objects value)
  ensureCreated env
  put same env value

def remove (value : V) : EStateM ViewError (PySet V) Unit := do
  liftResult (objects.pickles value)
  let found ← has same objects value <$> get
  if found then modify fun m => { m with members := delete same value m.members }
  else throw .keyError

def discard (value : V) : EStateM ViewError (PySet V) Unit := do
  liftResult (objects.pickles value)
  let found ← has same objects value <$> get
  if found then modify fun m => { m with members := delete same value m.members }
  else pure ()

def contains (value : V) : EStateM ViewError (PySet V) Bool := do
  liftResult (objects.pickles value)
  let found ← has same objects value <$> get
  if found then return true else do
    requireExists
    return false

def len : EStateM ViewError (PySet V) Nat := do
  requireExists
  (fun m : PySet V => m.members.length) <$> get

/-- A set operator, in place or not: the set stays as it is. -/
def operator [DecidableEq N] (op : SetOperator) (other : Operand V) :
    EStateM ViewError (PySet V) (Finset N) := do
  requireExists
  let mine ← (fun m : PySet V => (m.members.map objects.value).toFinset) <$> get
  let theirs ← liftResult (objects.operandSet other)
  return op.apply mine theirs

theorem requireExists_apply (m : PySet V) :
    requireExists m = if m.created then .ok () m else .error .containerNotFound m := by
  show (raiseIf (if m.created then none else some ViewError.containerNotFound) :
    EStateM ViewError (PySet V) Unit) m = _
  cases m.created <;> rfl

theorem len_apply (m : PySet V) :
    len m = if m.created then .ok m.members.length m else .error .containerNotFound m := by
  have h := requireExists_apply m
  cases hm : m.created with
  | true => rw [hm] at h; exact bind_of_ok h
  | false => rw [hm] at h; exact bind_of_error h

def clear : EStateM ViewError (PySet V) Unit := modify fun m => { m with members := [] }

def store (value : List V) (replace : Bool) : EStateM ViewError (PySet V) Unit := do
  liftResult (value.forM (admits objects))
  ensureCreated env
  if replace then clear else pure ()
  value.forM fun item => put same env item

end PySet

end Virtuals.Views
