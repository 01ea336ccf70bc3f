/-
  `view/base.py`, `view/bases.py` and `_views/`: what path navigation uses of a view.

  A view lies below the view it was opened from, right below it or inside one of its inner containers.
  Its class says where its own children lie (`open_child`), which addresses are segments as they are
  (`is_address_static`), what creating it sets up (`_ensure_internal_layout`) and what it records of a
  new child (`_on_child_created`). Sites lie under the data root, and addresses are keys the storage's
  codec takes. What a log key is and which rows an order index rewrites for a new child belong to
  those views and stay parameters (`Env`).
-/
import Virtuals.Container.Frame
import Virtuals.Views.Kh57View

namespace Virtuals.Loc

open Lib KeyCodec Container Views

/-! ## View classes -/

inductive Facet
  | eager
  | lazy
  deriving DecidableEq

/-- The standard view classes. -/
inductive ViewType
  | dict (facet : Facet)
  | flatDict
  | lightDict
  | list (facet : Facet)
  | flatList
  | tuple
  | set
  | frozenSet
  | byteArray
  | kh57 (facet : Facet)
  | indexedDict (facet : Facet)
  | logIndexedDict (facet : Facet)
  | fractionalIndexedDict (facet : Facet)
  deriving DecidableEq

def DATA : KeySegment := .str (pyStr "__data__")

def KEYS : KeySegment := .str (pyStr "__keys__")

def LOG : KeySegment := .str (pyStr "__log__")

def ORDER : KeySegment := .str (pyStr "__order__")

def POS : KeySegment := .str (pyStr "__pos__")

/-- The metadata key of a stored count. -/
def LEN : KeySegment := .str (pyStr "__len__")

namespace ViewType

/-- `STRUCTURE`. -/
def structureId : ViewType → Nat
  | dict _ => 1
  | list _ => 2
  | tuple => 3
  | set => 4
  | frozenSet => 5
  | byteArray => 6
  | lightDict => 11
  | flatDict => 12
  | indexedDict _ => 13
  | flatList => 14
  | logIndexedDict _ => 15
  | kh57 _ => 16
  | fractionalIndexedDict _ => 17

/-- `PROTOCOL`: MUTABLE is 1, SIZED 2, INDEXED 4, MAPPING 8, SET 16. -/
def protocol : ViewType → Nat
  | list _ | flatList => 4 + 1 + 2
  | tuple => 4 + 2
  | set => 16 + 1
  | frozenSet => 16
  | byteArray => 1 + 4
  | _ => 8 + 1

/-- The marker of a container of the class. -/
def marker (t : ViewType) : Marker := ⟨t.structureId, t.protocol⟩

/-- `is_address_static`. -/
def isAddressStatic : ViewType → KeySegment → Bool
  | dict _, _ | flatDict, _ | lightDict, _ => true
  | list _, .int n | flatList, .int n | tuple, .int n | byteArray, .int n | kh57 _, .int n =>
    decide (0 ≤ n)
  | _, _ => false

/-- The inner container that children live in, if they do not live right below the view. -/
def inner : ViewType → Option KeySegment
  | indexedDict _ | logIndexedDict _ | fractionalIndexedDict _ => some DATA
  | _ => none

/-- The inner containers of `_ensure_internal_layout`. -/
def layout : ViewType → List (KeySegment × Marker)
  | indexedDict _ => [(DATA, (dict .eager).marker), (KEYS, flatList.marker)]
  | logIndexedDict _ =>
    [(DATA, (dict .eager).marker), (KEYS, (dict .eager).marker), (LOG, (dict .eager).marker)]
  | fractionalIndexedDict _ =>
    [(DATA, (dict .eager).marker), (ORDER, (dict .eager).marker), (POS, (dict .eager).marker)]
  | _ => []

theorem compatible_marker (t : ViewType) : compatible t.marker t.marker = true := by
  cases t <;> simp [compatible, marker, protocol]

end ViewType

/-! ## Views -/

/-- A view: its class, the view it was opened from, and where below that it lies. -/
inductive View
  | root (type : ViewType) (path : Site)
  | child (parent : View) (type : ViewType) (inner : Option KeySegment) (segment : KeySegment)
  deriving DecidableEq

namespace View

def type : View → ViewType
  | root t _ => t
  | child _ t _ _ => t

def path : View → Site
  | root _ path => path
  | child parent _ inner segment => parent.path ++ inner.toList ++ [segment]

/-- `container.site`. -/
def site (v : View) : Site := dataAt v.path

/-- The view it was opened from; a root has none. -/
def parent : View → View
  | root t path => root t path
  | child parent _ _ _ => parent

/-- A view that lies where the view it was opened from keeps its children. -/
def Placed : View → Prop
  | root _ _ => True
  | child parent _ inner _ => inner = parent.type.inner

end View

/-- One row of an order index to write: of `__pos__` or of `__order__`, `none` for a delete. -/
structure IndexWrite where
  pos : Bool
  key : KeySegment
  value : Option KeySegment

/-- What the views depend on and navigation does not decide. -/
structure Env (V : Type) where
  /-- an int or a key, as a value -/
  cell : KeySegment → V
  /-- `int(value)` -/
  toInt : V → Int
  /-- the level of `kh57` -/
  level : Kh57View.Key → Nat
  /-- `_generate_log_key` -/
  logKey : Site → KeySegment → Store V → PyStr
  /-- `_place` of a new id behind the last one: the rows it writes, and what it raises then -/
  place : Site → KeySegment → Store V → List IndexWrite × Option ViewError

variable {V : Type} (env : Env V)

/-- `_len`. -/
def storedLen (site : Site) (s : Store V) : Int :=
  match s.get? (metaSite site ++ [LEN]) with
  | some (.primitive n) => env.toInt n
  | _ => 0

/-- `normalize_address` of `ListView` and `TupleView`. -/
def normalizeIndex (length : Int) : KeySegment → Except ViewError KeySegment
  | .str _ => .error .typeError
  | .int n =>
    let i := if n < 0 then length + n else n
    if i < 0 ∨ length ≤ i then .error .indexError else .ok (.int i)

/-- `kh57`. -/
def kh57 : KeySegment → Except ViewError KeySegment
  | .str _ => .error .typeError
  | .int n => (Kh57View.inRange n).map fun k => .int (Kh57View.encode env.level k)

/-- The segment of a child: TypeError for a view that is not nestable. -/
def childSegment (s : Store V) (v : View) (address : KeySegment) : Except ViewError KeySegment :=
  match v.type with
  | .dict _ | .indexedDict _ | .logIndexedDict _ | .fractionalIndexedDict _ => .ok address
  | .list _ | .tuple => normalizeIndex (storedLen env v.site s) address
  | .kh57 _ => kh57 env address
  | _ => .error .typeError

/-- A step of a path: an address, and the class of the view expected there. -/
abbrev Step := KeySegment × ViewType

/-- `open_child_view`. -/
def openChildView (s : Store V) (v : View) (step : Step) : Except ViewError View :=
  (View.child v step.2 v.type.inner) <$> childSegment env s v step.1

/-! ## Creation -/

def storeError : ContainerError → ViewError
  | .containerNotFound => .containerNotFound
  | .containerType => .containerType
  | .containerExists => .containerExists
  | .valueError => .valueError

/-- An operation on the rows, as a view's. -/
def onStore {α : Type} (m : Op V α) : EStateM ViewError (Store V) α := fun s =>
  match m s with
  | .ok a s' => .ok a s'
  | .error e s' => .error (storeError e) s'

/-- `create_container`, of a node that was read before. -/
def createFound (site : Site) (marker : Marker) : Option (Row V) → Op V Unit
  | some (.primitive _) => throw .containerType
  | some (.marker m) => raiseIf (if compatible m marker then none else some .containerExists)
  | none => do
    onlyIf (decide (1 < site.length)) (validateIsContainer site.dropLast)
    putRow site (.marker marker)

/-- `_ensure_internal_layout`. -/
def ensureInternalLayout (t : ViewType) (site : Site) : Op V Unit :=
  t.layout.forM fun c => createChildContainer site c.1 c.2 false

/-- `_increment_length`. -/
def incrementLength (site : Site) : Op V Unit := do
  let n ← storedLen env site <$> get
  putMetadata site LEN (some (env.cell (.int (n + 1))))

/-- `FlatListView.append`. -/
def appendKey (site : Site) (key : KeySegment) : Op V Unit := do
  createContainer site ViewType.flatList.marker true
  let n ← storedLen env site <$> get
  putChildPrimitive site (.int n) (some (env.cell key)) true true
  putMetadata site LEN (some (env.cell (.int (n + 1))))

/-- `_append_log_key`. -/
def appendLogKey (site : Site) (key : KeySegment) : Op V Unit := do
  let logKey ← env.logKey site key <$> get
  putChildPrimitive (site ++ [KEYS]) (.str logKey) (some (env.cell key)) false false
  putChildPrimitive (site ++ [LOG]) key (some (env.cell (.str logKey))) false false

/-- A row of an order index put or deleted. -/
def IndexWrite.exec (site : Site) (w : IndexWrite) : Op V Unit :=
  match w.value with
  | some v =>
    putChildPrimitive (site ++ [if w.pos then POS else ORDER]) w.key (some (env.cell v)) false false
  | none => deleteChildPrimitiveUnsafe (site ++ [if w.pos then POS else ORDER]) w.key

/-- `_on_child_created` of `FractionalIndexedDictView`: an id with a position stays where it is. -/
def appendId (site : Site) (key : KeySegment) : EStateM ViewError (Store V) Unit := do
  let info ← onStore (getNodeInfo (site ++ [POS] ++ [key]))
  onlyIf info.isNone do
    let placed ← env.place site key <$> get
    onStore (placed.1.forM (IndexWrite.exec env site))
    raiseIf placed.2

/-- `_on_child_created`. -/
def onChildCreated (t : ViewType) (site : Site) (key : KeySegment) :
    EStateM ViewError (Store V) Unit :=
  match t with
  | .set | .frozenSet | .kh57 _ => onStore (incrementLength env site)
  | .indexedDict _ => onStore (appendKey env (site ++ [KEYS]) key)
  | .logIndexedDict _ => onStore (appendLogKey env site key)
  | .fractionalIndexedDict _ => appendId env site key
  | _ => pure ()

/-- `_ensure_child_view`; `make` is the `ensure_created` of the view itself. -/
def ensureChildView (make : EStateM ViewError (Store V) Unit) (v : View) (t : ViewType)
    (inner : Option KeySegment) (segment : KeySegment) : EStateM ViewError (Store V) Unit := do
  let info ← onStore (getNodeInfo (View.child v t inner segment).site)
  onlyIf info.isNone make
  onStore (createFound (View.child v t inner segment).site t.marker info)
  onStore (ensureInternalLayout t (View.child v t inner segment).site)
  onlyIf info.isNone (onChildCreated env v.type v.site segment)

/-- `ensure_created`: a child is created by the view it was opened from. -/
def ensureCreated : View → EStateM ViewError (Store V) Unit
  | .root t path => do
    onStore (createContainer (dataAt path) t.marker true)
    onStore (ensureInternalLayout t (dataAt path))
  | .child v t inner segment => ensureChildView env (ensureCreated v) v t inner segment

/-- `ensure_child`. -/
def ensureChild (v : View) (step : Step) : EStateM ViewError (Store V) View := do
  let s ← get
  let segment ← liftResult (childSegment env s v step.1)
  ensureChildView env (ensureCreated env v) v step.2 v.type.inner segment
  return .child v step.2 v.type.inner segment

end Virtuals.Loc
