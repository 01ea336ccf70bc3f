/-
  `_views/fractional_indexed_dict_view.py`: a dict in an order that its callers give it.

  Children live under `__data__`. `__order__` has a row for every id, under an order key that says its
  place, and `__pos__` the order key of every id. A new id gets a fresh key between those of its
  neighbours; a key that grows too long has the rows around it rewritten under short ones.

  Assumed: the storage and its codecs take the rows of `__order__` and `__pos__`, an order key with an
  id and the other way round, at sites a segment longer than that of the view.
-/
import Virtuals.FractionalIndex.OrderKey
import Virtuals.Lib.Paging
import Virtuals.Views.IndexedDictView

namespace Virtuals.Views

open Virtuals.Lib Virtuals.FractionalIndex

/-- The rows at the site of a fractional indexed dict, and the random source. -/
structure Fractional (K P S C : Type) where
  created : Bool
  /-- `__data__` -/
  data : Table K (Child P S C)
  /-- `__order__` -/
  order : Table OrderKey K
  /-- `__pos__` -/
  pos : Table K OrderKey
  coins : Coins

/-- The argument of `store`. -/
inductive Filling (K P S C : Type)
  | mapping (items : List (Address K × Value P S C))
  /-- an iterable of ids, and whether EMPTY is among them -/
  | ids (ids : List (Address K)) (empty : Bool)
  /-- neither of them -/
  | other

/-- What `store` checks before it writes. -/
def Filling.rejectEmpty {σ K P S C : Type} : Filling K P S C → EStateM ViewError σ Unit
  | .mapping items => ViewBase.rejectEmptyIn (.mapping items)
  | .ids _ empty => raiseIf (if empty then some .valueError else none)
  | .other => pure ()

/-- The items of a filling: an id by itself has the value True. -/
def Filling.items {σ K P S C : Type} (yes : P) :
    Filling K P S C → EStateM ViewError σ (List (Address K × Value P S C))
  | .mapping items => pure items
  | .ids l _ => pure (l.map (·, .primitive yes))
  | .other => throw .typeError

/-- The operations of a fractional indexed dict. -/
inductive FractionalOp (K P S C : Type)
  /-- `d[a] = v`, `set_primitive`, and `set_child_container_as` with the structure of its view class -/
  | set (address : Address K) (value : Value P S C)
  /-- a write through a child view opened at an id -/
  | nested (address : Address K) (structureId : S) (write : C → C × Option ViewError)
  | append (address : Address K) (value : Value P S C)
  | prepend (address : Address K) (value : Value P S C)
  | insertBefore (ref address : Address K) (value : Value P S C)
  | insertAfter (ref address : Address K) (value : Value P S C)
  | moveBefore (address ref : Address K)
  | moveAfter (address ref : Address K)
  | moveFirst (address : Address K)
  | moveLast (address : Address K)
  | del (address : Address K)
  | pop (address : Address K) (default : Bool)
  | clear
  | update (value : Bulk (Address K) (Value P S C)) (kwargs : List (Address K × Value P S C))
  | store (value : Filling K P S C) (replace : Bool)
  | respace
  | get (address : Address K) (default : Bool)
  | contains (address : Address K)
  | len
  /-- a method of `MutableMapping` that the view does not have: `setdefault`, `popitem` -/
  | missing

namespace FractionalIndexedDictView

def SUFFIX_LENGTH : Nat := 4

def MAX_KEY_LENGTH : Nat := 128

def RESPACE_WINDOW : Nat := 16

def RESPACE_TARGET : Nat := 64

def ALLOT_ATTEMPTS : Nat := 8

variable {K P S C X : Type} [LinearOrder K]

/-- A site never written. -/
def absent (coins : Coins) : Fractional K P S C := ⟨false, ∅, ∅, ∅, coins⟩

/-! ## The order index -/

/-- Keys from the random source; what `fractional_index` raises is a ValueError. -/
def drawn {α : Type} (m : EStateM OrderKeyError Coins α) :
    EStateM ViewError (Fractional K P S C) α := fun s =>
  match m s.coins with
  | .ok a coins => .ok a { s with coins := coins }
  | .error _ coins => .error .valueError { s with coins := coins }

variable (refusesKey : K → Option Nat)

/-- `_position_or_empty`: a key that the view cannot hold has no position. -/
def positionOrEmpty : Address K → EStateM ViewError (Fractional K P S C) (Option OrderKey)
  | .key k => do
    raiseIf ((refusesKey k).map .other)
    (fun s => s.pos.get? k) <$> get
  | .other => pure none

/-- `_require_position`. -/
def requirePosition (address : Address K) : EStateM ViewError (Fractional K P S C) OrderKey := do
  let okey ← positionOrEmpty refusesKey address
  match okey with
  | some okey => return okey
  | none => throw .keyError

/-- `_scan_order`: with `strict` an empty scan asks for the view itself. -/
def scanOrder (start : Option OrderKey) (reverse : Bool) (limit : Option Nat) (skip : List OrderKey)
    (strict : Bool) : EStateM ViewError (Fractional K P S C) (List (OrderKey × K)) := do
  let s ← get
  let rows := scanFrom reverse start (limit.map (· + skip.length)) s.order.rows
  raiseIf (if strict && rows.isEmpty && !s.created then some .containerNotFound else none)
  return handedOn skip limit rows

/-- `_edge`. -/
def edge (last strict : Bool) : EStateM ViewError (Fractional K P S C) (Option (OrderKey × K)) :=
  List.head? <$> scanOrder none last (some 1) [] strict

/-- `_neighbour`. -/
def neighbour (okey : OrderKey) (before : Bool) (skip : List OrderKey) :
    EStateM ViewError (Fractional K P S C) (Option (OrderKey × K)) :=
  List.head? <$> scanOrder (some okey) before (some 1) (okey :: skip) false

/-- `_index`. -/
def index (k : K) (okey : OrderKey) : EStateM ViewError (Fractional K P S C) Unit := do
  modify fun s => { s with pos := s.pos.put k okey }
  modify fun s => { s with order := s.order.put okey k }

/-- One id after another is recorded at the next of some keys. -/
def indexAll (ids : List K) (okeys : List OrderKey) : EStateM ViewError (Fractional K P S C) Unit :=
  (ids.zip okeys).forM fun a => index a.1 a.2

/-- The order rows are deleted. -/
def deleteRows (rows : List (OrderKey × K)) : EStateM ViewError (Fractional K P S C) Unit :=
  rows.forM fun row => modify fun s => { s with order := s.order.erase row.1 }

/-! ## Respacing -/

/-- The rows on either side of a gap, ascending, and fresh keys for them and for the gap. -/
structure Window (K : Type) where
  below : List (OrderKey × K)
  above : List (OrderKey × K)
  okeys : List OrderKey

/-- The rows of a side that are rewritten, of those read. -/
def inside (k : Option Nat) (rows : List (OrderKey × K)) : List (OrderKey × K) :=
  k.elim rows rows.take

/-- The key of the row just outside. -/
def outside (k : Option Nat) (rows : List (OrderKey × K)) : Option OrderKey :=
  k.bind fun k => rows[k]?.map Prod.fst

/-- The rows on one side of a gap, from the row next to it on: up to one more than `k`. -/
def side (start : Option OrderKey) (reverse : Bool) (k : Option Nat) :
    EStateM ViewError (Fractional K P S C) (List (OrderKey × K)) :=
  match start with
  | none => pure []
  | some okey => scanOrder (some okey) reverse (k.map (· + 1)) [] false

/-- A round of `_respace_around`: up to `k` rows on each side, all of them without a `k`. -/
def window (prev nxt : Option OrderKey) (k : Option Nat) :
    EStateM ViewError (Fractional K P S C) (Window K) := do
  let below ← side prev true k
  let above ← side nxt false k
  let okeys ← drawn (generateNSuffixedKeysBetween (outside k below) (outside k above)
    ((inside k below).length + 1 + (inside k above).length) SUFFIX_LENGTH)
  return ⟨(inside k below).reverse, inside k above, okeys⟩

/-- The loop of `_respace_around`: the window widens while its keys pass the target, up to the whole
collection. -/
def widen (prev nxt : Option OrderKey) (k : Option Nat) :
    List (Option Nat) → EStateM ViewError (Fractional K P S C) (Window K)
  | [] => window prev nxt k
  | wider :: rest => do
    let w ← window prev nxt k
    if k.isNone || w.okeys.all (·.length ≤ RESPACE_TARGET) then return w
    else widen prev nxt wider rest

/-- `_respace_around`: the rows of the window under fresh keys, and the key of the gap. -/
def respaceAround (prev nxt : Option OrderKey) : EStateM ViewError (Fractional K P S C) OrderKey := do
  let w ← widen prev nxt (some RESPACE_WINDOW) [some (4 * RESPACE_WINDOW), none]
  deleteRows (w.below ++ w.above)
  indexAll (w.below.map Prod.snd) w.okeys
  match w.okeys.drop w.below.length with
  -- `next(fresh)` when there are too few keys
  | [] => throw .runtimeError
  | gapKey :: okeys => do
    indexAll (w.above.map Prod.snd) okeys
    return gapKey

/-- The loop of `_allot`. -/
def allotIn (prev nxt : Option OrderKey) : Nat → EStateM ViewError (Fractional K P S C) OrderKey
  | 0 => throw .runtimeError
  | attempts + 1 => do
    let okey ← drawn (generateSuffixedKeyBetween prev nxt SUFFIX_LENGTH)
    if MAX_KEY_LENGTH < okey.length then respaceAround prev nxt
    else do
      let taken ← (fun s => (s.order.get? okey).isSome) <$> get
      if taken then allotIn prev nxt attempts else return okey

/-- `_allot`. -/
def allot (prev nxt : Option OrderKey) : EStateM ViewError (Fractional K P S C) OrderKey :=
  allotIn prev nxt ALLOT_ATTEMPTS

/-- `_place`. -/
def place (k : K) (prev nxt : Option OrderKey) : EStateM ViewError (Fractional K P S C) Unit := do
  let okey ← allot prev nxt
  index k okey

/-- `_relocate`. -/
def relocate (k : K) (okey : OrderKey) (prev nxt : Option OrderKey) :
    EStateM ViewError (Fractional K P S C) Unit := do
  modify fun s => { s with order := s.order.erase okey }
  place k prev nxt

/-- An id without a position is appended; its child has been written, so the key codec takes it. -/
def appendUnplaced (k : K) : EStateM ViewError (Fractional K P S C) Unit := do
  let okey ← (fun s => s.pos.get? k) <$> get
  if okey.isSome then pure () else do
    let last ← edge true false
    place k (last.map Prod.fst) none

variable (env : Env P S C X)

/-- `_on_child_created` appends a new child with no position yet. -/
def base : ViewBase (Fractional K P S C) K P S C where
  created := Fractional.created
  markCreated s := { s with created := true }
  refusesKey := refusesKey
  child s k := s.data.get? k
  putChild k c s := { s with data := s.data.put k c }
  onChildCreated := appendUnplaced

/-- `respace`. -/
def respace : EStateM ViewError (Fractional K P S C) Unit := do
  let rows ← scanOrder none false none [] false
  if rows.isEmpty then pure () else do
    deleteRows rows
    let okeys ← drawn (generateNSuffixedKeysBetween none none rows.length SUFFIX_LENGTH)
    indexAll (rows.map Prod.snd) okeys

/-! ## Reads -/

/-- `__len__`: the rows of `__pos__`, counted. -/
def len : EStateM ViewError (Fractional K P S C) Nat := do
  let s ← get
  raiseIf (if s.pos.scan.isEmpty && !s.created then some .containerNotFound else none)
  return s.pos.scan.length

/-- `__contains__`. -/
def contains (address : Address K) : EStateM ViewError (Fractional K P S C) Bool := do
  let okey ← positionOrEmpty refusesKey address
  if okey.isSome then return true else do
    (base refusesKey : ViewBase (Fractional K P S C) K P S C).requireExists
    return false

/-- `__iter__`. -/
def iter : EStateM ViewError (Fractional K P S C) (List K) :=
  List.map Prod.snd <$> scanOrder none false none [] true

/-- `__reversed__`. -/
def reversed : EStateM ViewError (Fractional K P S C) (List K) :=
  List.map Prod.snd <$> scanOrder none true none [] true

/-- `_keys_scan`, which `keys` and `keys_reverse` read their pages by. -/
def keysScan (after : Option (Address K)) (limit : Option Nat) (reverse : Bool) :
    EStateM ViewError (Fractional K P S C) (List K) :=
  match after with
  | none => List.map Prod.snd <$> scanOrder none reverse limit [] true
  | some address => do
    let cursor ← requirePosition refusesKey address
    List.map Prod.snd <$> scanOrder (some cursor) reverse limit [cursor] true

/-- `__getitem__`. -/
def getItem (address : Address K) : EStateM ViewError (Fractional K P S C) (P ⊕ X) := do
  let k ← liftResult (dictChecks.read address)
  let child ← (base refusesKey).nodeInfo k
  liftResult (ViewBase.childValue env child)

/-! ## Mutations -/

/-- `_reject_empty`: the key first, then EMPTY. -/
def rejectEmpty (address : Address K) (value : Value P S C) :
    EStateM ViewError (Fractional K P S C) K := do
  let k ← ViewBase.rejectBadKey address
  raiseIf (match value with | .empty => some .valueError | _ => none)
  return k

/-- `container.delete_child` under `__data__`, which must exist. -/
def deleteChild (k : K) : EStateM ViewError (Fractional K P S C) Unit := do
  (base refusesKey).requireExists
  modify fun s => { s with data := s.data.erase k }

/-- `__delitem__`. -/
def delItem (address : Address K) : EStateM ViewError (Fractional K P S C) Unit := do
  let k ← liftResult (dictChecks.read address)
  let okey ← positionOrEmpty refusesKey (.key k)
  match okey with
  | none => do
    let found ← (base refusesKey).existsChild k
    raiseIf (if found then none else some .keyError)
  | some okey => modify fun s => { s with
      order := s.order.erase okey
      pos := s.pos.erase k }
  deleteChild refusesKey k

/-- `pop`. -/
def pop (address : Address K) (default : Bool) :
    EStateM ViewError (Fractional K P S C) (Out P X) := do
  let x ← orDefault default (.value <$> getItem refusesKey env address)
  match x with
  | .default => return .default
  | x => do
    delItem refusesKey address
    return x

/-- `clear`: nothing is written to a view that does not exist. -/
def clear : EStateM ViewError (Fractional K P S C) Unit := do
  let made ← Fractional.created <$> get
  onlyIf made do
    (base refusesKey).ensureCreated env
    modify fun s => { s with
      data := s.data.eraseAll s.data.scan
      order := s.order.eraseAll s.order.scan
      pos := s.pos.eraseAll s.pos.scan }

/-- `move_before`. -/
def moveBefore (address ref : Address K) : EStateM ViewError (Fractional K P S C) Unit := do
  let okey ← requirePosition refusesKey address
  match address, ref with
  | .key k, .key j =>
    if k = j then pure () else do
      let refOkey ← requirePosition refusesKey (.key j)
      let prev ← neighbour refOkey true []
      if prev.map Prod.fst = some okey then pure ()
      else relocate k okey (prev.map Prod.fst) (some refOkey)
  | _, _ => throw .keyError

/-- `move_after`. -/
def moveAfter (address ref : Address K) : EStateM ViewError (Fractional K P S C) Unit := do
  let okey ← requirePosition refusesKey address
  match address, ref with
  | .key k, .key j =>
    if k = j then pure () else do
      let refOkey ← requirePosition refusesKey (.key j)
      let nxt ← neighbour refOkey false []
      if nxt.map Prod.fst = some okey then pure ()
      else relocate k okey (some refOkey) (nxt.map Prod.fst)
  | _, _ => throw .keyError

/-- `move_first`. -/
def moveFirst (address : Address K) : EStateM ViewError (Fractional K P S C) Unit := do
  let okey ← requirePosition refusesKey address
  let first ← edge false false
  match address, first with
  | .key k, some first =>
    if first.1 = okey then pure () else relocate k okey none (some first.1)
  | _, _ => pure ()

/-- `move_last`. -/
def moveLast (address : Address K) : EStateM ViewError (Fractional K P S C) Unit := do
  let okey ← requirePosition refusesKey address
  let last ← edge true false
  match address, last with
  | .key k, some last =>
    if last.1 = okey then pure () else relocate k okey (some last.1) none
  | _, _ => pure ()

variable [DecidableEq S]

/-- `__setitem__`, `set_primitive` and `set_child_container_as`: an id left without a position is
appended. -/
def setItem (address : Address K) (value : Value P S C) :
    EStateM ViewError (Fractional K P S C) Unit := do
  (base refusesKey).setChildValue env address value
  match address with
  | .key k => appendUnplaced k
  -- refused before
  | .other => pure ()

/-- `with contextlib.suppress(Exception)`. -/
def suppress (m : EStateM ViewError (Fractional K P S C) Unit) :
    EStateM ViewError (Fractional K P S C) Unit :=
  MonadExcept.tryCatch m fun _ => pure ()

/-- `_insert`: the position, then the value, then the order row. -/
def insert (k : K) (value : Value P S C) (prev nxt : Option OrderKey) :
    EStateM ViewError (Fractional K P S C) Unit := do
  let stale ← positionOrEmpty refusesKey (.key k)
  let standing ← (fun s => (stale.bind s.order.get?).isSome) <$> get
  raiseIf (if standing then some .valueError else none)
  let okey ← allot prev nxt
  modify fun s => { s with pos := s.pos.put k okey }
  MonadExcept.tryCatch ((base refusesKey).writeChild env k value) fun e => do
    modify fun s => { s with pos := s.pos.erase k }
    suppress (deleteChild refusesKey k)
    throw e
  modify fun s => { s with order := s.order.put okey k }

/-- `append`. -/
def append (address : Address K) (value : Value P S C) :
    EStateM ViewError (Fractional K P S C) Unit := do
  let k ← rejectEmpty address value
  (base refusesKey).ensureCreated env
  let last ← edge true false
  insert refusesKey env k value (last.map Prod.fst) none

/-- `prepend`. -/
def prepend (address : Address K) (value : Value P S C) :
    EStateM ViewError (Fractional K P S C) Unit := do
  let k ← rejectEmpty address value
  (base refusesKey).ensureCreated env
  let first ← edge false false
  insert refusesKey env k value none (first.map Prod.fst)

/-- `insert_before`. -/
def insertBefore (ref address : Address K) (value : Value P S C) :
    EStateM ViewError (Fractional K P S C) Unit := do
  let refOkey ← requirePosition refusesKey ref
  let k ← rejectEmpty address value
  (base refusesKey).ensureCreated env
  let prev ← neighbour refOkey true []
  insert refusesKey env k value (prev.map Prod.fst) (some refOkey)

/-- `insert_after`. -/
def insertAfter (ref address : Address K) (value : Value P S C) :
    EStateM ViewError (Fractional K P S C) Unit := do
  let refOkey ← requirePosition refusesKey ref
  let k ← rejectEmpty address value
  (base refusesKey).ensureCreated env
  let nxt ← neighbour refOkey false []
  insert refusesKey env k value (some refOkey) (nxt.map Prod.fst)

/-- `update`. -/
def update (value : Bulk (Address K) (Value P S C)) (kwargs : List (Address K × Value P S C)) :
    EStateM ViewError (Fractional K P S C) Unit := do
  ViewBase.rejectEmptyIn value
  ViewBase.rejectEmptyIn (.mapping kwargs)
  let items ← value.items
  items.forM fun a => setItem refusesKey env a.1 a.2
  kwargs.forM fun a => setItem refusesKey env a.1 a.2

/-- `store`. -/
def store (yes : P) (value : Filling K P S C) (replace : Bool) :
    EStateM ViewError (Fractional K P S C) Unit := do
  value.rejectEmpty
  (base refusesKey).ensureCreated env
  onlyIf replace do
    let first ← edge false false
    onlyIf first.isSome (clear refusesKey env)
  let items ← value.items yes
  items.forM fun a => setItem refusesKey env a.1 a.2

/-- An operation of the view. -/
def exec (yes : P) : FractionalOp K P S C → EStateM ViewError (Fractional K P S C) (Out P X)
  | .set address value => (fun _ => .unit) <$> setItem refusesKey env address value
  | .nested address structureId write => do
    let k ← liftResult (dictChecks.nested address)
    (base refusesKey).nestedWrite env k structureId write
    return .unit
  | .append address value => (fun _ => .unit) <$> append refusesKey env address value
  | .prepend address value => (fun _ => .unit) <$> prepend refusesKey env address value
  | .insertBefore ref address value =>
    (fun _ => .unit) <$> insertBefore refusesKey env ref address value
  | .insertAfter ref address value =>
    (fun _ => .unit) <$> insertAfter refusesKey env ref address value
  | .moveBefore address ref => (fun _ => .unit) <$> moveBefore refusesKey address ref
  | .moveAfter address ref => (fun _ => .unit) <$> moveAfter refusesKey address ref
  | .moveFirst address => (fun _ => .unit) <$> moveFirst refusesKey address
  | .moveLast address => (fun _ => .unit) <$> moveLast refusesKey address
  | .del address => (fun _ => .unit) <$> delItem refusesKey address
  | .pop address default => pop refusesKey env address default
  | .clear => (fun _ => .unit) <$> clear refusesKey env
  | .update value kwargs => (fun _ => .unit) <$> update refusesKey env value kwargs
  | .store value replace => (fun _ => .unit) <$> store refusesKey env yes value replace
  | .respace => (fun _ => .unit) <$> respace
  | .get address default => orDefault default (.value <$> getItem refusesKey env address)
  | .contains address => .bool <$> contains refusesKey address
  | .len => .nat <$> len
  | .missing => throw .attributeError

end FractionalIndexedDictView

end Virtuals.Views
