/-
  `_views/log_indexed_dict_view.py`: a dict with a log of its keys.

  Children live under `__data__`; every child that is created appends a row to `__keys__` under a log
  key of its own (a time, a count of the process, some random digits), and `__log__` holds the log key
  of every key. A delete looks the log key up in `__log__` and scans `__keys__` if it finds none that
  stands. `rebuild_bookkeeping` makes both indexes anew from `__data__`.

  Assumed: the storage and its codecs take the rows of `__keys__` and `__log__`, a log key with a key of
  the data and the other way round, at sites a segment longer than that of the view.
-/
import Virtuals.Lib.Inverse
import Virtuals.Lib.Numeral
import Virtuals.Views.IndexedDictView

namespace Virtuals.Views

open Virtuals.Lib

/-- The text of a log key. -/
abbrev LogKey := PyStr

/-- What the clock and the random source give, by the value of the counter at the draw. -/
structure Draws where
  /-- `int(time.time() * 1000)` -/
  ts : Nat → Nat
  /-- `uuid.uuid4().hex[:6]` -/
  uid : Nat → PyStr

/-- The log key drawn when the counter comes to `counter`:
`f"{ts:013d}-{counter:06d}-{uid}"`. -/
def Draws.logKey (draws : Draws) (counter : Nat) : LogKey :=
  (padded 13 (draws.ts counter)).map code ++
    code '-' :: ((padded 6 counter).map code ++ code '-' :: draws.uid counter)

/-- The rows at the site of a log indexed dict, and the counter of the process. -/
structure Logged (K P S C : Type) where
  created : Bool
  /-- `__data__` -/
  data : Table K (Child P S C)
  /-- `__keys__` -/
  keys : Table LogKey K
  /-- `__log__` -/
  log : Table K LogKey
  /-- `_log_key_counter` -/
  counter : Nat

/-- The operations of a log indexed dict, and what else moves the counter. -/
inductive LogOp (K P S C : Type)
  | dict (op : DictOp (Address K) P S C)
  | append (value : Value P S C)
  | rebuildBookkeeping
  /-- another view of the process draws a log key -/
  | drawnElsewhere

variable {K P S C X : Type} [LinearOrder K]

namespace LogIndexedDictView

/-- A site never written, in a process that has drawn some log keys. -/
def absent (counter : Nat) : Logged K P S C := ⟨false, ∅, ∅, ∅, counter⟩

/-- `_generate_log_key`. -/
def generateLogKey (draws : Draws) : EStateM ViewError (Logged K P S C) LogKey := do
  modify fun s => { s with counter := s.counter + 1 }
  (fun s => draws.logKey s.counter) <$> get

/-- `_append_log_key`. -/
def appendLogKey (draws : Draws) (actualKey : K) : EStateM ViewError (Logged K P S C) Unit := do
  let logKey ← generateLogKey draws
  modify fun s => { s with
    keys := s.keys.put logKey actualKey
    log := s.log.put actualKey logKey }

variable (draws : Draws) (refusesKey : K → Option Nat) (env : Env P S C X)

/-- `_on_child_created` logs the key. -/
def base : ViewBase (Logged K P S C) K P S C where
  created := Logged.created
  markCreated s := { s with created := true }
  refusesKey := refusesKey
  child s k := s.data.get? k
  putChild k c s := { s with data := s.data.put k c }
  onChildCreated := appendLogKey draws

/-- `_scan_log_keys` with no cursor: an empty scan asks for the view itself. -/
def scanLogKeys : EStateM ViewError (Logged K P S C) (List (LogKey × K)) := do
  let s ← get
  raiseIf (if s.created || !s.keys.rows.isEmpty then none else some .containerNotFound)
  return s.keys.rows

/-- The log key of a key in `__log__`, if the log row still names the key. -/
def recordedLogKey (s : Logged K P S C) (k : K) : Option LogKey :=
  (s.log.get? k).filter fun logKey => s.keys.get? logKey = some k

/-- The log key of a key in `__data__`, from `__log__` or else from a scan. -/
def findLogKey (k : K) : EStateM ViewError (Logged K P S C) (Option LogKey) := do
  let recorded ← (recordedLogKey · k) <$> get
  match recorded with
  | some logKey => return some logKey
  | none => do
    let rows ← scanLogKeys
    return (rows.find? fun row => row.2 = k).map Prod.fst

/-- The rows of a logged key deleted from both indexes. -/
def dropLogKey (k : K) : Option LogKey → EStateM ViewError (Logged K P S C) Unit
  | some logKey => modify fun s => { s with
      keys := s.keys.erase logKey
      log := s.log.erase k }
  | none => pure ()

/-- `container.delete_child` under `__data__`, which must exist. -/
def deleteChild (k : K) : EStateM ViewError (Logged K P S C) Unit := do
  (base draws refusesKey).requireExists
  modify fun s => { s with data := s.data.erase k }

/-- `__delitem__`. -/
def delItem (address : Address K) : EStateM ViewError (Logged K P S C) Unit := do
  let k ← liftResult (dictChecks.read address)
  let found ← (base draws refusesKey).existsChild k
  if found then do
    deleteChild draws refusesKey k
    let logKey ← findLogKey k
    dropLogKey k logKey
  else throw .keyError

/-- `__contains__`. -/
def contains (address : Address K) : EStateM ViewError (Logged K P S C) Bool :=
  containsKey (base draws refusesKey) dictChecks address

/-- `__len__`: the rows of the log, counted. -/
def len : EStateM ViewError (Logged K P S C) Nat := List.length <$> scanLogKeys

/-- `clear`. -/
def clear : EStateM ViewError (Logged K P S C) Unit := do
  let made ← Logged.created <$> get
  onlyIf made do
    (base draws refusesKey).ensureCreated env
    modify fun s => { s with
      data := s.data.eraseAll s.data.scan
      keys := s.keys.eraseAll s.keys.scan
      log := s.log.eraseAll s.log.scan }

/-- `LogIndexedDictView`, but for its own `store` and `append`. -/
def view : DictView (Logged K P S C) (Address K) K P S C where
  base := base draws refusesKey
  checks := dictChecks
  delItem := delItem draws refusesKey
  clear := clear draws refusesKey env
  len := len
  contains := contains draws refusesKey

/-- `next_key_after(None)`. -/
def firstKey : EStateM ViewError (Logged K P S C) (Option (LogKey × K)) := List.head? <$> scanLogKeys

/-- `__iter__`. -/
def iter : EStateM ViewError (Logged K P S C) (List K) := List.map Prod.snd <$> scanLogKeys

/-- `__reversed__`. -/
def reversed : EStateM ViewError (Logged K P S C) (List K) :=
  (fun rows => (rows.map Prod.snd).reverse) <$> scanLogKeys

/-- `_read_child_from_data` and the facet's reading of the child, for a key that the log lists. -/
def readListed (k : K) : EStateM ViewError (Logged K P S C) (P ⊕ X) := do
  let child ← (fun s => s.data.get? k) <$> get
  liftResult (ViewBase.childValue env child)

/-- `_iter_items`. -/
def iterItems : EStateM ViewError (Logged K P S C) (List (K × (P ⊕ X))) := do
  let rows ← scanLogKeys
  rows.mapM fun row => (row.2, ·) <$> readListed env row.2

/-- `_iter_values`. -/
def iterValues : EStateM ViewError (Logged K P S C) (List (P ⊕ X)) := do
  let rows ← scanLogKeys
  rows.mapM fun row => readListed env row.2

variable [DecidableEq S]

/-- `store`: one log row is enough to clear. -/
def store (value : Bulk (Address K) (Value P S C)) (replace : Bool) :
    EStateM ViewError (Logged K P S C) Unit := do
  ViewBase.rejectEmptyIn value
  (base draws refusesKey).ensureCreated env
  onlyIf replace do
    let first ← firstKey
    onlyIf first.isSome (clear draws refusesKey env)
  let items ← value.items
  items.forM fun a => (base draws refusesKey).setChildValue env a.1 a.2

/-- `append`: the value goes under a log key drawn for it. -/
def append (strKey : LogKey → K) (value : Value P S C) :
    EStateM ViewError (Logged K P S C) LogKey := do
  let logKey ← generateLogKey draws
  (view draws refusesKey env).setItem env (.key (strKey logKey)) value
  return logKey

/-! ## Rebuild -/

omit [DecidableEq S] in
/-- `rebuild_bookkeeping` of one child, by the view of its structure. -/
def rebuildChild (rebuild : S → C → C × Option ViewError) (k : K) :
    EStateM ViewError (Logged K P S C) Unit := do
  let child ← (fun s => s.data.get? k) <$> get
  match child with
  | some (.container structureId content) => do
    modify fun s => { s with
      data := s.data.put k (.container structureId (rebuild structureId content).1) }
    raiseIf (rebuild structureId content).2
  | _ => pure ()

omit [DecidableEq S] [LinearOrder K] in
/-- One row of `__keys__`: the first that names a key with data is kept, any other deleted. -/
def keepFirst [DecidableEq K] (present : K → Bool) (acc : PyDict K LogKey × Table LogKey K)
    (row : LogKey × K) : PyDict K LogKey × Table LogKey K :=
  if present row.2 && (acc.1.get? row.2).isNone then (acc.1.set row.2 row.1, acc.2)
  else (acc.1, acc.2.erase row.1)

omit [DecidableEq S] [LinearOrder K] in
/-- One row of `__log__`: without a kept log row it goes, with another one it is corrected. -/
def realign [DecidableEq K] (seen : PyDict K LogKey) (acc : List K × Table K LogKey)
    (row : K × LogKey) : List K × Table K LogKey :=
  match seen.get? row.1 with
  | none => (acc.1, acc.2.erase row.1)
  | some want => (row.1 :: acc.1, if row.2 = want then acc.2 else acc.2.put row.1 want)

omit [DecidableEq S] [LinearOrder K] in
/-- One kept log row: `__log__` gains the row it misses. -/
def addMissing [DecidableEq K] (indexed : List K) (log : Table K LogKey) (row : K × LogKey) :
    Table K LogKey :=
  if row.1 ∈ indexed then log else log.put row.1 row.2

omit [DecidableEq S] in
/-- The log rows kept, by key, and `__keys__` without the others. -/
def keptRows (s : Logged K P S C) : PyDict K LogKey × Table LogKey K :=
  s.keys.rows.foldl (keepFirst fun k => (s.data.get? k).isSome) (PyDict.empty, s.keys)

omit [DecidableEq S] in
/-- `__log__` made to agree with the log rows kept. -/
def alignedLog (seen : PyDict K LogKey) (log : Table K LogKey) : Table K LogKey :=
  let (indexed, aligned) := log.rows.foldl (realign seen) ([], log)
  seen.items.foldl (addMissing indexed) aligned

omit [DecidableEq S] in
/-- `_rebuild_bookkeeping`. -/
def rebuildIndexes : EStateM ViewError (Logged K P S C) Unit := do
  let s ← get
  let seen := (keptRows s).1
  modify fun s => { s with keys := (keptRows s).2, log := alignedLog seen s.log }
  (s.data.scan.filter fun k => (seen.get? k).isNone).forM (appendLogKey draws)

omit [DecidableEq S] in
/-- `rebuild_bookkeeping`: the children's first, and silent on a view never written. -/
def rebuildBookkeeping (rebuild : S → C → C × Option ViewError) :
    EStateM ViewError (Logged K P S C) Unit := do
  let s ← get
  onlyIf s.created do
    s.data.scan.forM (rebuildChild rebuild)
    rebuildIndexes draws

/-- An operation of the view. -/
def exec (strKey : LogKey → K) (rebuild : S → C → C × Option ViewError) :
    LogOp K P S C → EStateM ViewError (Logged K P S C) (Out P X)
  | .dict (.store value replace) => (fun _ => .unit) <$> store draws refusesKey env value replace
  | .dict op => (view draws refusesKey env).exec env op
  | .append value => (fun _ => .unit) <$> append draws refusesKey env strKey value
  | .rebuildBookkeeping => (fun _ => .unit) <$> rebuildBookkeeping draws rebuild
  | .drawnElsewhere => (fun _ => .unit) <$> generateLogKey draws

end LogIndexedDictView

end Virtuals.Views
