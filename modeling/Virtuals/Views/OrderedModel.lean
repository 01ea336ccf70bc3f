/-
  What a fractional indexed dict is for: typed children, listed in an order that the callers give.

  The ids of the children form a list. A new id goes to the end or to the place asked for, a move takes
  an id out and puts it at another place, all other ids stay as they are; an insertion whose value is
  refused leaves the collection as it was. `peak` is how many ids there were at most at once.
-/
import Virtuals.Lib.Placement
import Virtuals.Views.FractionalIndexedDictView

namespace Virtuals.Views

open Virtuals.Lib

/-- An ordered collection, once created. -/
structure Ordered (K P S C : Type) where
  created : Bool
  ids : List K
  data : Table K (Child P S C)
  peak : Nat

namespace Ordered

variable {K P S C X : Type} [LinearOrder K]

/-- A collection never written. -/
def absent : Ordered K P S C := ⟨false, [], ∅, 0⟩

variable (refusesKey : K → Option Nat) (env : Env P S C X)

/-- The children alone. -/
def children : ViewBase (Ordered K P S C) K P S C where
  created := created
  markCreated m := { m with created := true }
  refusesKey := refusesKey
  child m k := m.data.get? k
  putChild k c m := { m with data := m.data.put k c }
  onChildCreated _ := pure ()

/-- A new child comes last. -/
def base : ViewBase (Ordered K P S C) K P S C :=
  { children refusesKey with
    onChildCreated := fun k => modify fun m =>
      { m with ids := m.ids ++ [k], peak := max m.peak (m.ids.length + 1) } }

/-- An id of the collection. -/
def listed (address : Address K) : EStateM ViewError (Ordered K P S C) K := do
  let k ← liftResult (dictChecks.read address)
  raiseIf ((refusesKey k).map .other)
  let m ← get
  raiseIf (if k ∈ m.ids then none else some .keyError)
  return k

/-- A key that may be written, and a value that is not EMPTY. -/
def offered (address : Address K) (value : Value P S C) : EStateM ViewError (Ordered K P S C) K := do
  let k ← ViewBase.rejectBadKey address
  raiseIf (match value with | .empty => some .valueError | _ => none)
  return k

/-- Move an id of the collection. -/
def move (k : K) (spot : Spot K) : EStateM ViewError (Ordered K P S C) Unit :=
  modify fun m => { m with ids := spot.move k m.ids }

/-- Move an id next to another. -/
def moveNextTo (spot : K → Spot K) (address ref : Address K) :
    EStateM ViewError (Ordered K P S C) Unit := do
  let k ← listed refusesKey address
  match ref with
  | .key j =>
    if k = j then pure () else do
      let j ← listed refusesKey (.key j)
      move k (spot j)
  | .other => throw .keyError

/-- Move an id to an end. -/
def moveToEnd (spot : Spot K) (address : Address K) : EStateM ViewError (Ordered K P S C) Unit := do
  let k ← listed refusesKey address
  move k spot

/-- `del d[a]`. -/
def delItem (address : Address K) : EStateM ViewError (Ordered K P S C) Unit := do
  let k ← listed refusesKey address
  modify fun m => { m with
    ids := m.ids.filter (· ≠ k)
    data := m.data.erase k }

/-- `d[a]`. -/
def getItem (address : Address K) : EStateM ViewError (Ordered K P S C) (P ⊕ X) := do
  let k ← liftResult (dictChecks.read address)
  let child ← (children refusesKey).nodeInfo k
  liftResult (ViewBase.childValue env child)

/-- `d.pop(a)`. -/
def pop (address : Address K) (default : Bool) : EStateM ViewError (Ordered K P S C) (Out P X) := do
  let x ← orDefault default (.value <$> getItem refusesKey env address)
  match x with
  | .default => return .default
  | x => do
    delItem refusesKey address
    return x

/-- `a in d`. -/
def contains (address : Address K) : EStateM ViewError (Ordered K P S C) Bool := do
  let m ← get
  match address with
  | .key k => do
    raiseIf ((refusesKey k).map .other)
    raiseIf (if k ∈ m.ids || m.created then none else some .containerNotFound)
    return k ∈ m.ids
  | .other => do
    raiseIf (if m.created then none else some .containerNotFound)
    return false

/-- `len(d)`. -/
def len : EStateM ViewError (Ordered K P S C) Nat := do
  let m ← get
  raiseIf (if m.ids.isEmpty && !m.created then some .containerNotFound else none)
  return m.ids.length

/-- `d.clear()`. -/
def clear : EStateM ViewError (Ordered K P S C) Unit :=
  modify fun m => { m with ids := [], data := ∅ }

variable [DecidableEq S]

/-- Put a new id with its value at a place, or leave the collection as it was. -/
def insert (k : K) (value : Value P S C) (spot : Spot K) :
    EStateM ViewError (Ordered K P S C) Unit := do
  raiseIf ((refusesKey k).map .other)
  let m ← get
  raiseIf (if k ∈ m.ids then some .valueError else none)
  MonadExcept.tryCatch ((children refusesKey).writeChild env k value) fun e => do
    set m
    throw e
  modify fun m => { m with ids := spot.put k m.ids, peak := max m.peak (m.ids.length + 1) }

/-- Insert at an end. -/
def insertAtEnd (spot : Spot K) (address : Address K) (value : Value P S C) :
    EStateM ViewError (Ordered K P S C) Unit := do
  let k ← offered address value
  (children refusesKey).ensureCreated env
  insert refusesKey env k value spot

/-- Insert next to an id of the collection. -/
def insertNextTo (spot : K → Spot K) (ref address : Address K) (value : Value P S C) :
    EStateM ViewError (Ordered K P S C) Unit := do
  let j ← listed refusesKey ref
  let k ← offered address value
  (children refusesKey).ensureCreated env
  insert refusesKey env k value (spot j)

/-- `d[a] = v`. -/
def setItem (address : Address K) (value : Value P S C) :
    EStateM ViewError (Ordered K P S C) Unit :=
  (base refusesKey).setChildValue env address value

/-- `d.update(other, **kwargs)`. -/
def update (value : Bulk (Address K) (Value P S C)) (kwargs : List (Address K × Value P S C)) :
    EStateM ViewError (Ordered K P S C) Unit := do
  ViewBase.rejectEmptyIn value
  ViewBase.rejectEmptyIn (.mapping kwargs)
  let items ← value.items
  items.forM fun a => setItem refusesKey env a.1 a.2
  kwargs.forM fun a => setItem refusesKey env a.1 a.2

/-- Fill from a mapping, or from ids that have the value True. -/
def store (yes : P) (value : Filling K P S C) (replace : Bool) :
    EStateM ViewError (Ordered K P S C) Unit := do
  value.rejectEmpty
  (base refusesKey).ensureCreated env
  onlyIf replace clear
  let items ← value.items yes
  items.forM fun a => setItem refusesKey env a.1 a.2

/-- An operation on the collection. -/
def exec (yes : P) : FractionalOp K P S C → EStateM ViewError (Ordered K P S C) (Out P X)
  | .set address value => (fun _ => .unit) <$> setItem refusesKey env address value
  | .nested address structureId write => do
    let k ← liftResult (dictChecks.nested address)
    (base refusesKey).nestedWrite env k structureId write
    return .unit
  | .append address value => (fun _ => .unit) <$> insertAtEnd refusesKey env .last address value
  | .prepend address value => (fun _ => .unit) <$> insertAtEnd refusesKey env .first address value
  | .insertBefore ref address value =>
    (fun _ => .unit) <$> insertNextTo refusesKey env .before ref address value
  | .insertAfter ref address value =>
    (fun _ => .unit) <$> insertNextTo refusesKey env .after ref address value
  | .moveBefore address ref => (fun _ => .unit) <$> moveNextTo refusesKey .before address ref
  | .moveAfter address ref => (fun _ => .unit) <$> moveNextTo refusesKey .after address ref
  | .moveFirst address => (fun _ => .unit) <$> moveToEnd refusesKey .first address
  | .moveLast address => (fun _ => .unit) <$> moveToEnd refusesKey .last address
  | .del address => (fun _ => .unit) <$> delItem refusesKey address
  | .pop address default => pop refusesKey env address default
  | .clear => (fun _ => .unit) <$> clear
  | .update value kwargs => (fun _ => .unit) <$> update refusesKey env value kwargs
  | .store value replace => (fun _ => .unit) <$> store refusesKey env yes value replace
  | .respace => pure .unit
  | .get address default => orDefault default (.value <$> getItem refusesKey env address)
  | .contains address => .bool <$> contains refusesKey address
  | .len => .nat <$> len
  | .missing => throw .attributeError

end Ordered

end Virtuals.Views
