/-
  `_views/list_view.py`: a list of typed children, one row an index, its length in `__len__`.

  An operation that moves children does so row by row, and `__len__` is written last. A child view is
  opened at the site that its address names at that moment, and keeps that site; a write through it
  creates the missing child there, whatever has become of the list since. `Cond` says of which
  operations that is the end of the story: those whose value is refused before a row is written, or not
  at all, and the writes through a child view whose index the list still has. `exact_iff` says that
  after every run of such operations, and after no other, the rows are the indexes below the length.
-/
import Virtuals.Views.ByteArrayView
import Virtuals.Views.DictView
import Virtuals.Views.Invariants

namespace Virtuals.Views

open Virtuals.Lib

/-- An argument of `extend` and `store`. -/
inductive Batch (P S C : Type)
  /-- the values that it holds, or that are left of an iterable once it is listed -/
  | values (values : List (Value P S C))
  /-- an iterable that raises while it is listed -/
  | raises (e : ViewError)
  /-- not iterable -/
  | other

/-- The operations that change a list. -/
inductive ListOp (P S C X : Type)
  /-- `l[i] = v`, and `set_child_container_as` with the structure of its view class -/
  | set (address : Int) (value : Value P S C)
  /-- `open_child`, and a child view that the lazy facet returns -/
  | openChild (address : Int)
  /-- a write through a child view opened before, at an index -/
  | nested (index : Nat) (structureId : S) (write : C → C × Option ViewError)
  | append (value : Value P S C)
  | insert (address : Int) (value : Value P S C)
  | del (address : Int)
  /-- of the eager facet -/
  | pop (address : Int)
  /-- `remove`, with the items that equal its argument, and whether the facet is the eager one -/
  | remove (equal : P ⊕ X → Bool) (eager : Bool)
  | clear
  | extend (values : Batch P S C)
  | store (value : Batch P S C) (replace : Bool)

namespace ListView

variable {P S C X : Type}

/-- The rows at the site of the view. -/
abbrev Rows (P S C : Type) := FlatList (Child P S C)

/-- A list has no hook: its length is written by the operations. Assumed: the key codec takes the
indexes; the string codec ends at 49999. -/
def base : ViewBase (Rows P S C) Nat P S C where
  created := Counted.created
  markCreated s := { s with created := true }
  refusesKey _ := none
  child s i := s.children.get? i
  putChild i c s := { s with children := s.children.put i c }
  onChildCreated _ := pure ()

/-! ## Rows moved -/

/-- `container.put_child_primitive`, of a value that was read from a row. -/
def putChildPrimitive (i : Nat) (value : P) : EStateM ViewError (Rows P S C) Unit := do
  let s ← get
  raiseIf (if s.created then none else some .containerNotFound)
  raiseIf (match s.children.get? i with | some (.container _ _) => some .containerType | _ => none)
  modify fun s => { s with children := s.children.put i (.primitive value) }

/-- A child put over what a site holds: the rows of a container stay where they are not overwritten. -/
def Child.onto (merge : C → C → C) : Child P S C → Option (Child P S C) → Child P S C
  | .container structureId content, some (.container _ old) =>
    .container structureId (merge content old)
  | c, _ => c

variable (merge : C → C → C) (env : Env P S C X)

/-- `container.move_child_subtree`. -/
def moveChildSubtree (src dst : Nat) : EStateM ViewError (Rows P S C) Unit :=
  modify fun s => match s.children.get? src with
    | some c => { s with
        children := (s.children.put dst (Child.onto merge c (s.children.get? dst))).erase src }
    | none => s

/-- The loop of `insert`, with the rows left to move: the last of them goes up by one. The slot that a
primitive leaves is emptied only where the new value comes. -/
def shiftUp (address : Nat) : Nat → EStateM ViewError (Rows P S C) Unit
  | 0 => pure ()
  | n + 1 => do
    let child ← (fun s => s.children.get? (address + n)) <$> get
    match child with
    | some (.primitive value) => do
      putChildPrimitive (address + n + 1) value
      onlyIf (n == 0) (Counted.deleteChild (address + n))
    | some (.container _ _) => moveChildSubtree merge (address + n) (address + n + 1)
    | none => pure ()
    shiftUp address n

/-- The loop of `__delitem__`, with the rows left to move: the first of them goes down to the hole. -/
def shiftDown : Nat → Nat → EStateM ViewError (Rows P S C) Unit
  | _, 0 => pure ()
  | hole, n + 1 => do
    let child ← (fun s => s.children.get? (hole + 1)) <$> get
    match child with
    | some (.primitive value) => do
      putChildPrimitive hole value
      Counted.deleteChild (hole + 1)
    | some (.container _ _) => moveChildSubtree merge (hole + 1) hole
    | none => pure ()
    shiftDown (hole + 1) n

/-! ## Reads -/

/-- A child as the facet reads it: the eager one asks for the index of a container, and takes a missing
container for a missing index. -/
def readChild (eager : Bool) (s : Rows P S C) (i : Nat) : Except ViewError (P ⊕ X) :=
  match s.children.get? i with
  | none => .error .keyError
  | some (.primitive value) => .ok (.inl value)
  | some (.container structureId content) =>
    if eager && decide (s.len ≤ i) then .error .indexError
    else match env.read structureId content with
      | .ok x => .ok (.inr x)
      | .error .containerNotFound => .error (if eager then .indexError else .containerNotFound)
      | .error e => .error e

/-- The loop of `remove`: the position of the first item that equals its argument. -/
def position (eager : Bool) (equal : P ⊕ X → Bool) (s : Rows P S C) :
    Nat → List Nat → Except ViewError Nat
  | _, [] => .error .valueError
  | i, k :: ks => do
    let item ← readChild env eager s k
    if equal item then return i else position eager equal s (i + 1) ks

/-- `open_child`: pure navigation, the index in the site of the child view. -/
def openChild (address : Int) : EStateM ViewError (Rows P S C) Nat := do
  let s ← get
  liftResult (FlatList.normalizeAddress s address)

/-- `__getitem__` of the eager facet. -/
def getItem (address : Int) : EStateM ViewError (Rows P S C) (P ⊕ X) := do
  let s ← get
  let i ← liftResult (FlatList.normalizeAddress s address)
  liftResult (readChild env true s i)

/-! ## Mutations -/

/-- EMPTY is refused before anything is written. -/
def rejectEmpty (value : Value P S C) : EStateM ViewError (Rows P S C) Unit :=
  raiseIf (match value with | .empty => some .valueError | _ => none)

/-- `_reject_empty_in`: an iterable is listed, and no value of it may be EMPTY. -/
def rejectEmptyIn : Batch P S C → EStateM ViewError (Rows P S C) Unit
  | .values values => raiseIf <|
    if values.any (fun v => match v with | .empty => true | _ => false) then some .valueError
    else none
  | .raises e => throw e
  | .other => pure ()

/-- `__delitem__`. -/
def delItem (address : Int) : EStateM ViewError (Rows P S C) Unit := do
  let s ← get
  let normalized ← liftResult (FlatList.normalizeAddress s address)
  base.ensureCreated env
  let length ← Counted.len <$> get
  Counted.deleteChild normalized
  shiftDown merge normalized (length - (normalized + 1))
  Counted.setLength (length - 1)

/-- `pop`. -/
def pop (address : Int) : EStateM ViewError (Rows P S C) (P ⊕ X) := do
  let length ← Counted.len <$> get
  raiseIf (if length = 0 then some .indexError else none)
  let value ← getItem env address
  delItem merge env address
  return value

/-- `remove`. -/
def remove (equal : P ⊕ X → Bool) (eager : Bool) : EStateM ViewError (Rows P S C) Unit := do
  let s ← get
  raiseIf (if s.len = 0 then some .valueError else none)
  raiseIf (if s.created || !s.children.scan.isEmpty then none else some .containerNotFound)
  let i ← liftResult (position env eager equal s 0 s.children.scan)
  delItem merge env i

/-- `clear`. -/
def clear : EStateM ViewError (Rows P S C) Unit := do
  let made ← Counted.created <$> get
  onlyIf made do
    base.ensureCreated env
    Counted.clearChildren
    Counted.setLength 0

variable [DecidableEq S]

/-- `__setitem__`, and `set_child_container_as`. -/
def setItem (address : Int) (value : Value P S C) : EStateM ViewError (Rows P S C) Unit := do
  let s ← get
  let normalized ← liftResult (FlatList.normalizeAddress s address)
  base.setChildValue env (.key normalized) value

/-- A write through a child view: its site is not looked at again. -/
def nestedWrite (index : Nat) (structureId : S) (write : C → C × Option ViewError) :
    EStateM ViewError (Rows P S C) Unit := base.nestedWrite env index structureId write

/-- `append`. -/
def append (value : Value P S C) : EStateM ViewError (Rows P S C) Unit := do
  let index ← Counted.len <$> get
  base.setChildValue env (.key index) value
  Counted.setLength (index + 1)

/-- `insert`. -/
def insert (address : Int) (value : Value P S C) : EStateM ViewError (Rows P S C) Unit := do
  rejectEmpty value
  base.ensureCreated env
  let length ← Counted.len <$> get
  let address := ByteArrayView.insertAt length address
  shiftUp merge address (length - address)
  base.setChildValue env (.key address) value
  Counted.setLength (length + 1)

/-- The values of a batch, in a loop. -/
def each {α : Type} (f : List (Value P S C) → EStateM ViewError (Rows P S C) α) :
    Batch P S C → EStateM ViewError (Rows P S C) α
  | .values values => f values
  | _ => throw .typeError

/-- `extend`. -/
def extend (values : Batch P S C) : EStateM ViewError (Rows P S C) Unit := do
  rejectEmptyIn values
  each (fun values => values.forM (append env)) values

/-- The loop of `store`, from an index on. -/
def putAll : Nat → List (Value P S C) → EStateM ViewError (Rows P S C) Nat
  | count, [] => pure count
  | count, item :: rest => do
    base.setChildValue env (.key count) item
    putAll (count + 1) rest

/-- `store`. -/
def store (value : Batch P S C) (replace : Bool) : EStateM ViewError (Rows P S C) Unit := do
  rejectEmptyIn value
  base.ensureCreated env
  onlyIf replace (clear env)
  let count ← (fun s : Rows P S C => if replace then 0 else s.len) <$> get
  let count ← each (putAll env count) value
  Counted.setLength count

/-- An operation of the view. -/
def exec : ListOp P S C X → EStateM ViewError (Rows P S C) (Out P X)
  | .set address value => (fun _ => .unit) <$> setItem env address value
  | .openChild address => .nat <$> openChild address
  | .nested index structureId write => (fun _ => .unit) <$> nestedWrite env index structureId write
  | .append value => (fun _ => .unit) <$> append env value
  | .insert address value => (fun _ => .unit) <$> insert merge env address value
  | .del address => (fun _ => .unit) <$> delItem merge env address
  | .pop address => .value <$> pop merge env address
  | .remove equal eager => (fun _ => .unit) <$> remove merge env equal eager
  | .clear => (fun _ => .unit) <$> clear env
  | .extend values => (fun _ => .unit) <$> extend env values
  | .store value replace => (fun _ => .unit) <$> store env value replace

end ListView

end Virtuals.Views
