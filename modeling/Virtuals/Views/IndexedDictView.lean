/-
  `_views/indexed_dict_view.py`: a dict with its keys listed beside its data.

  Children live under `__data__`, and `__keys__` is a flat list of their keys, in the order in which
  they were created. A created child appends its key (the hook of the base class), a delete stores the
  remaining keys again. The model is the insertion-ordered dict itself.

  Assumed: the storage and its codecs take the rows of `__keys__`, an index with a key of the data.
-/
import Virtuals.Views.DictView
import Virtuals.Views.FlatListView

namespace Virtuals.Views

open Virtuals.Lib

/-- The rows at the site of an indexed dict; the marker rows of `__data__` and `__keys__` are written
with its own. -/
structure Indexed (K P S C : Type) where
  created : Bool
  /-- `__data__` -/
  data : Table K (Child P S C)
  /-- `__keys__` -/
  keys : FlatList K

/-- The keys of a dict view: a str or an int. -/
def dictChecks {K : Type} : KeyChecks (Address K) K where
  write
    | .key k => .ok k
    | .other => .error .typeError
  store
    | .key k => .ok k
    | .other => .error .typeError
  read
    | .key k => .ok k
    | .other => .error .keyError
  nested
    | .key k => .ok k
    -- not checked by the view: the key codec refuses it
    | .other => .error (.other 0)

variable {K P S C X : Type} [LinearOrder K]

namespace IndexedDictView

/-- A site never written. -/
def absent : Indexed K P S C := ⟨false, ∅, Counted.absent⟩

/-- A computation on `__keys__`. -/
def onKeys {α : Type} (m : EStateM ViewError (FlatList K) α) :
    EStateM ViewError (Indexed K P S C) α :=
  within Indexed.keys (fun keys s => { s with keys := keys }) m

/-- A computation on `__keys__` that does not write. -/
def ofKeys {α : Type} (f : FlatList K → α) : EStateM ViewError (Indexed K P S C) α :=
  (fun s => f s.keys) <$> get

variable (refusesKey : K → Option Nat) (env : Env P S C X)

/-- `_on_child_created` records the key, `_ensure_internal_layout` writes the inner markers. -/
def base : ViewBase (Indexed K P S C) K P S C where
  created := Indexed.created
  markCreated s := { s with created := true, keys := { s.keys with created := true } }
  refusesKey := refusesKey
  child s k := s.data.get? k
  putChild k c s := { s with data := s.data.put k c }
  onChildCreated k := onKeys (FlatList.append none k)

/-- `container.delete_child` under `__data__`, which must exist. -/
def deleteChild (k : K) : EStateM ViewError (Indexed K P S C) Unit := do
  (base refusesKey).requireExists
  modify fun s => { s with data := s.data.erase k }

/-- `_iter_ordered_keys`: a scan that meets neither a row nor a marker raises. -/
def iterOrderedKeys : EStateM ViewError (Indexed K P S C) (List K) := do
  let s ← get
  raiseIf (if s.keys.created || !s.keys.children.scan.isEmpty then none
    else some .containerNotFound)
  return FlatList.rows s.keys

/-- `__delitem__`: the key index is stored again without the key. -/
def delItem (address : Address K) : EStateM ViewError (Indexed K P S C) Unit := do
  let k ← liftResult (dictChecks.read address)
  let found ← (base refusesKey).existsChild k
  if found then do
    deleteChild refusesKey k
    let keys ← iterOrderedKeys
    onKeys (FlatList.store none (keys.filter (· ≠ k)) true)
  else throw .keyError

/-- `__contains__`. -/
def contains (address : Address K) : EStateM ViewError (Indexed K P S C) Bool :=
  containsKey (base refusesKey) dictChecks address

/-- `__len__`. -/
def len : EStateM ViewError (Indexed K P S C) Nat := do
  let length ← ofKeys Counted.len
  if length = 0 then do
    (base refusesKey).requireExists
    return length
  else return length

/-- `clear`. -/
def clear : EStateM ViewError (Indexed K P S C) Unit := do
  let made ← Indexed.created <$> get
  onlyIf made do
    (base refusesKey).ensureCreated env
    modify fun s => { s with data := s.data.eraseAll s.data.scan }
    onKeys (FlatList.clear none)

/-- `IndexedDictView`. -/
def view : DictView (Indexed K P S C) (Address K) K P S C where
  base := base refusesKey
  checks := dictChecks
  delItem := delItem refusesKey
  clear := clear refusesKey env
  len := len refusesKey
  contains := contains refusesKey

/-- `__reversed__`. -/
def reversed : EStateM ViewError (Indexed K P S C) (List K) := List.reverse <$> iterOrderedKeys

/-- `key_at`. -/
def keyAt (idx : Int) : EStateM ViewError (Indexed K P S C) K := onKeys (FlatList.getItem idx)

/-- `_read_child_from_data` and the facet's reading of the child, for a key that the index lists. -/
def readListed (k : K) : EStateM ViewError (Indexed K P S C) (P ⊕ X) := do
  let child ← (fun s => s.data.get? k) <$> get
  liftResult (ViewBase.childValue env child)

/-- `_iter_items`; `values()` and `extract()` read the same. -/
def iterItems : EStateM ViewError (Indexed K P S C) (List (K × (P ⊕ X))) := do
  let keys ← iterOrderedKeys
  keys.mapM fun k => (k, ·) <$> readListed env k

/-- `_iter_values`. -/
def iterValues : EStateM ViewError (Indexed K P S C) (List (P ⊕ X)) := do
  let keys ← iterOrderedKeys
  keys.mapM (readListed env)

end IndexedDictView

end Virtuals.Views
