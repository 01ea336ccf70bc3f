/-
  `_views/kh57_view.py`: a sparse map from ints of 57 bits, its rows laid out by `kh57`.

  `kh57` packs a level over the key: the level comes from a hash that this repository does not define
  and stays a parameter; the key is the low 57 bits. Rows are counted by the hook of the base class and
  by hand. The model is a dict by the keys themselves.
-/
import Virtuals.Lib.HeapMerge
import Virtuals.Views.Counted
import Virtuals.Views.DictView

namespace Virtuals.Views

open Virtuals.Lib

/-- A key offered to a `Kh57View`: an int (bool included), a float with the int it equals, or of
another type. -/
inductive Kh57Address
  | int (n : Int)
  | float (n : Option Int)
  | other

namespace Kh57View

/-- A key the view can hold: `_LEVEL_BITS` bits. -/
abbrev Key := Fin (2 ^ 57)

abbrev Site (P S C : Type) := Counted Nat (Child P S C)

variable {P S C X : Type}

/-- `kh57`: the level over the key. -/
def encode (level : Key → Nat) (k : Key) : Nat := level k * 2 ^ 57 + k

/-- `encoded & _KEY_MASK`. -/
def decode (e : Nat) : Key := Fin.ofNat (2 ^ 57) e

/-- The ints `kh57` takes: ValueError for a negative one or one past 57 bits. -/
def inRange (n : Int) : Except ViewError Key :=
  if 0 ≤ n ∧ n < 2 ^ 57 then .ok (decode n.toNat) else .error .valueError

/-- The key of a write: `normalize_address`, before it is encoded. -/
def writeKey : Kh57Address → Except ViewError Key
  | .int n => inRange n
  | _ => .error .typeError

/-- `_read_key`: a float names the int it equals, and what the view cannot hold is absent. -/
def readKey : Kh57Address → Except ViewError Key
  | .int n => if 0 ≤ n ∧ n < 2 ^ 57 then .ok (decode n.toNat) else .error .keyError
  | .float (some n) => if 0 ≤ n ∧ n < 2 ^ 57 then .ok (decode n.toNat) else .error .keyError
  | .float none => .error .keyError
  | .other => .error .keyError

/-- Assumed: the key codec takes the encoded keys, which are below 2^63. The binary codecs do; the
string codec ends at 49999. -/
def refusesKey {K : Type} (_ : K) : Option Nat := none

def base : ViewBase (Site P S C) Nat P S C := Counted.base refusesKey

/-- The key of an item of `store`: TypeError for what is no non-negative int. -/
def storeKey : Kh57Address → Except ViewError Key
  | .int n => if n < 0 then .error .typeError else inRange n
  | _ => .error .typeError

/-- The keys of the view, by what is done with them. -/
def checks : KeyChecks Kh57Address Key where
  write := writeKey
  store := storeKey
  read := readKey
  nested := writeKey

variable (level : Key → Nat) (env : Env P S C X)

/-- `normalize_address` and the encoding of a key that is read. -/
def encoded : KeyChecks Kh57Address Nat where
  write a := (checks.write a).map (encode level)
  store a := (checks.store a).map (encode level)
  read a := (checks.read a).map (encode level)
  nested a := (checks.nested a).map (encode level)

/-- `_delete_encoded`, the backend's delete: silent on a miss. -/
def deleteEncoded (e : Nat) : EStateM ViewError (Site P S C) Unit := do
  let found ← base.existsChild e
  if found then do
    base.ensureCreated env
    Counted.deleteChild e
    Counted.decrementLength
  else pure ()

/-- `__delitem__`. -/
def delItem (address : Kh57Address) : EStateM ViewError (Site P S C) Unit := do
  let e ← liftResult ((encoded level).read address)
  let found ← base.existsChild e
  if found then do
    Counted.deleteChild e
    Counted.decrementLength
  else throw .keyError

/-- `__contains__`. -/
def contains (address : Kh57Address) : EStateM ViewError (Site P S C) Bool :=
  containsKey base (encoded level) address

/-- `clear`. -/
def clear : EStateM ViewError (Site P S C) Unit := Counted.clear refusesKey env

/-- `Kh57View`: the children of the base class are the encoded keys. -/
def view : DictView (Site P S C) Kh57Address Nat P S C where
  base := base
  checks := encoded level
  delItem := delItem level
  clear := clear env
  len := Counted.size
  contains := contains level

/-- `_put_encoded`. -/
def putEncoded [DecidableEq S] (e : Nat) (value : Value P S C) :
    EStateM ViewError (Site P S C) Unit :=
  base.setChildValue env (.key e) value

/-- `__setitem__`. -/
def setItem [DecidableEq S] (address : Kh57Address) (value : Value P S C) :
    EStateM ViewError (Site P S C) Unit := (view level env).setItem env address value

/-- `__getitem__`. -/
def getItem (address : Kh57Address) : EStateM ViewError (Site P S C) (P ⊕ X) :=
  (view level env).getItem env address

/-- `update`. -/
def update [DecidableEq S] (value : Bulk Kh57Address (Value P S C))
    (kwargs : List (Kh57Address × Value P S C)) : EStateM ViewError (Site P S C) Unit :=
  (view level env).update env value kwargs

/-- `store`. -/
def store [DecidableEq S] (value : Bulk Kh57Address (Value P S C)) (replace : Bool) :
    EStateM ViewError (Site P S C) Unit := (view level env).store env value replace

/-- `pop`. -/
def pop (address : Kh57Address) (default : Bool) : EStateM ViewError (Site P S C) (Out P X) :=
  (view level env).pop env address default

/-- `_scan_encoded_range`: the encoded keys in `[lo, hi)`, which end at 63 bits. -/
def scanEncodedRange (s : Site P S C) (lo hi : Nat) : List Nat :=
  s.children.scan.filter fun e => lo ≤ e ∧ e < min hi (2 ^ 63)

/-- `_iter_level_keys`: the keys of a level. -/
def iterLevelKeys (s : Site P S C) (l : Nat) : List Nat :=
  (scanEncodedRange s (l * 2 ^ 57) (l * 2 ^ 57 + 2 ^ 57)).map fun e => e % 2 ^ 57

/-- `__iter__`: the keys of the levels 0 to 63, merged. -/
def iter : EStateM ViewError (Site P S C) (List Nat) := do
  let s ← get
  let rows := HeapMerge.merge id ((List.range 64).map (iterLevelKeys s))
  raiseIf (if s.created || !rows.isEmpty then none else some .containerNotFound)
  return rows

end Kh57View

end Virtuals.Views
