/-
  `LMDBTransaction`: puts and deletes that wait for the LMDB transaction, and what begins it.

  A begun LMDB write transaction is the map it reads and writes. Where a cursor goes when the map
  is written under it is LMDB's own matter: `Cursors` is what it does on a map, as a parameter.
  The calls of a transaction come one after the other; a scan is advanced one turn of its loops at a
  time, with other calls between the turns. `Op.begin` begins the LMDB transaction where no call
  needs it. LMDB's begin does not fail; its commit may (`Op.commit false`).

  Assumed of a begun transaction: its puts, gets and deletes succeed. The calls in which LMDB raises
  (a key over its limit, a full map) are left out; a pending put asks for the limit itself (`keyFits`).
-/
import Mathlib.Data.Finset.Erase
import Mathlib.Data.Finset.Insert
import Virtuals.Lib.Overlay

namespace Virtuals.Lmdb

open Lib

/-- The error classes a transaction raises. -/
inductive StorageError where
  | StorageClosedError
  | StorageOperationError
  | StorageTransactionError
  /-- an EMPTY value handed to `put` -/
  | ValueError
  deriving DecidableEq

/-- The storage's codec; `none` where it raises. -/
structure Codec (E Seg W V : Type) where
  encodeKey : List Seg → Option E
  decodeKey : E → Option (List Seg)
  upperBoundOfPrefix : List Seg → Option E
  encodeValue : V → Option W
  decodeValue : W → Option V

/-- What the cursors of a write transaction do on its map; `none` where they are on no row. -/
structure Cursors (E W : Type) where
  Pos : Type
  first : (E → Option W) → Option Pos
  last : (E → Option W) → Option Pos
  setRange : (E → Option W) → E → Option Pos
  next : (E → Option W) → Pos → Option Pos
  prev : (E → Option W) → Pos → Option Pos
  key : (E → Option W) → Pos → Option E
  value : (E → Option W) → Pos → W

/-- `StorageScanOptions`. -/
structure StorageScanOptions (E Seg : Type) where
  start : Option (List Seg)
  reverse : Bool
  limit : Option Int
  filter : Option (List Seg → Bool)
  breakFilter : Option (List Seg → Bool)
  startEncoded : Option E
  maxDepth : Option Nat

/-- Where a scan is: before its first row, at the top of its loop, looking for the next row from a
    position, past a row it has yielded, or over. -/
inductive At (Pos : Type) where
  | created
  | top (pos : Pos) (count : Nat)
  | looking (pos : Pos) (count : Nat)
  | yielded (pos : Pos) (count : Nat)
  | done

/-- `LMDBScan`, one iteration of it. -/
structure LMDBScan (E Seg Pos : Type) where
  options : StorageScanOptions E Seg
  needValues : Bool
  state : At Pos

/-- What a call returns. -/
inductive Reply (Seg V : Type) where
  | unit
  | value (v : Option V)
  | bool (b : Bool)
  | row (key : List Seg) (value : Option V)
  | stop
  | error (e : StorageError)

inductive Op (E Seg V : Type) where
  | put (key : List Seg) (value : Option V)
  | delete (key : List Seg)
  | get (key : List Seg)
  | exists (key : List Seg)
  | scan (id : Nat) (options : StorageScanOptions E Seg) (needValues : Bool)
  | turn (id : Nat)
  | begin
  | commit (ok : Bool)
  | abort

variable {E Seg W V : Type}

/-- `LMDBTransaction`, with its scans by number. -/
structure LMDBTransaction (E Seg W Pos : Type) where
  lmdbTxn : Option (E → Option W)
  pending : Option (PyDict E (List Seg × Option W))
  modifiedKeys : Finset (List Seg)
  closed : Bool
  committed : Bool
  aborted : Bool
  scans : Nat → Option (LMDBScan E Seg Pos)

/-- The environment's data, the transaction that holds the writer slot, and the sets of keys handed
    to the publisher. -/
structure LMDBStorage (E Seg W Pos : Type) where
  data : E → Option W
  txn : LMDBTransaction E Seg W Pos
  notified : List (Finset (List Seg))

variable [DecidableEq E] [DecidableEq Seg]

/-- `replay_pending`; the key beside an encoded one is not looked at. -/
def replayPending (m : E → Option W) (pending : PyDict E (List Seg × Option W)) :
    (E → Option W) × List E := replay (pending.map Prod.snd) m

/-- `_modified_keys` without the keys of deletes that found nothing. -/
def discardMissing (modified : Finset (List Seg)) (pending : PyDict E (List Seg × Option W))
    (missing : List E) : Finset (List Seg) :=
  missing.foldl (fun modified e =>
    match pending.get? e with
    | some (key, _) => modified.erase key
    | none => modified) modified

variable {cu : Cursors E W}

namespace LMDBStorage

/-- A transaction begun on `data`, its LMDB transaction pending. -/
def beginLazy (data : E → Option W) : LMDBStorage E Seg W cu.Pos :=
  ⟨data, ⟨none, some .empty, ∅, false, false, false, fun _ => none⟩, []⟩

/-- A transaction over an LMDB transaction begun before its first call. -/
def beginEager (data : E → Option W) : LMDBStorage E Seg W cu.Pos :=
  ⟨data, ⟨some data, none, ∅, false, false, false, fun _ => none⟩, []⟩

/-- `_require_active`: the map of the LMDB transaction, begun now if it is still pending. -/
def requireActive (s : LMDBStorage E Seg W cu.Pos) :
    LMDBStorage E Seg W cu.Pos × Except StorageError (E → Option W) :=
  let t := s.txn
  if t.closed = true then (s, .error .StorageClosedError)
  else match t.lmdbTxn, t.pending with
    | some m, _ => (s, .ok m)
    | none, none => (s, .error .StorageClosedError)
    | none, some pending =>
      let m := (replayPending s.data pending).1
      let missing := (replayPending s.data pending).2
      ({ s with txn := { t with
        lmdbTxn := some m
        pending := none
        modifiedKeys := discardMissing t.modifiedKeys pending missing } }, .ok m)

/-- Write through the LMDB transaction. -/
def setMap (s : LMDBStorage E Seg W cu.Pos) (m : E → Option W) : LMDBStorage E Seg W cu.Pos :=
  { s with txn := { s.txn with lmdbTxn := some m } }

def addModified (s : LMDBStorage E Seg W cu.Pos) (key : List Seg) : LMDBStorage E Seg W cu.Pos :=
  { s with txn := { s.txn with modifiedKeys := insert key s.txn.modifiedKeys } }

def setPending (s : LMDBStorage E Seg W cu.Pos) (pending : PyDict E (List Seg × Option W)) :
    LMDBStorage E Seg W cu.Pos :=
  { s with txn := { s.txn with pending := some pending } }

variable (codec : Codec E Seg W V) (keyFits : E → Bool)

/-- `put`; `none` is EMPTY. -/
def put (s : LMDBStorage E Seg W cu.Pos) (key : List Seg) (value : Option V) :
    LMDBStorage E Seg W cu.Pos × Reply Seg V :=
  match value with
  | none => (s, .error .ValueError)
  | some value =>
    match codec.encodeKey key, codec.encodeValue value with
    | some encodedKey, some encodedValue =>
      if s.txn.closed = true then (s, .error .StorageClosedError)
      else match s.txn.pending with
        | some pending =>
          if keyFits encodedKey = true then
            ((s.setPending (pending.set encodedKey (key, some encodedValue))).addModified key, .unit)
          else (s, .error .StorageOperationError)
        | none =>
          match s.requireActive with
          | (s, .error e) => (s, .error e)
          | (s, .ok m) =>
            ((s.setMap (Function.update m encodedKey (some encodedValue))).addModified key, .unit)
    | _, _ => (s, .error .StorageOperationError)

/-- `delete`. -/
def delete (s : LMDBStorage E Seg W cu.Pos) (key : List Seg) :
    LMDBStorage E Seg W cu.Pos × Reply Seg V :=
  match codec.encodeKey key with
  | none => (s, .error .StorageOperationError)
  | some encodedKey =>
    if s.txn.closed = true then (s, .error .StorageClosedError)
    else match s.txn.pending with
      | some pending =>
        if keyFits encodedKey = true then
          ((s.setPending (pending.set encodedKey (key, none))).addModified key, .unit)
        else (s, .unit)
      | none =>
        match s.requireActive with
        | (s, .error e) => (s, .error e)
        | (s, .ok m) =>
          let existed := (m encodedKey).isSome
          let s := s.setMap (Function.update m encodedKey none)
          (if existed = true then s.addModified key else s, .unit)

/-- `get`; `none` is EMPTY. -/
def get (s : LMDBStorage E Seg W cu.Pos) (key : List Seg) :
    LMDBStorage E Seg W cu.Pos × Reply Seg V :=
  match codec.encodeKey key with
  | none => (s, .error .StorageOperationError)
  | some encodedKey =>
    match s.requireActive with
    | (s, .error e) => (s, .error e)
    | (s, .ok m) =>
      match m encodedKey with
      | none => (s, .value none)
      | some encodedValue =>
        match codec.decodeValue encodedValue with
        | none => (s, .error .StorageOperationError)
        | some value => (s, .value (some value))

/-- `exists`. -/
def «exists» (s : LMDBStorage E Seg W cu.Pos) (key : List Seg) :
    LMDBStorage E Seg W cu.Pos × Reply Seg V :=
  match codec.encodeKey key with
  | none => (s, .error .StorageOperationError)
  | some encodedKey =>
    match s.requireActive with
    | (s, .error e) => (s, .error e)
    | (s, .ok m) => (s, .bool (m encodedKey).isSome)

/-! ## Scans -/

def setScan (s : LMDBStorage E Seg W cu.Pos) (id : Nat) (scan : LMDBScan E Seg cu.Pos) :
    LMDBStorage E Seg W cu.Pos :=
  { s with txn := { s.txn with scans := Function.update s.txn.scans id (some scan) } }

/-- `scan`: begins a pending transaction. -/
def scan (s : LMDBStorage E Seg W cu.Pos) (id : Nat) (options : StorageScanOptions E Seg)
    (needValues : Bool) : LMDBStorage E Seg W cu.Pos × Reply Seg V :=
  match s.requireActive with
  | (s, .error e) => (s, .error e)
  | (s, .ok _) => (s.setScan id ⟨options, needValues, .created⟩, .unit)

/-- `_seek`. -/
def seek (m : E → Option W) (reverse : Bool) (start : Option E) : Option cu.Pos :=
  match reverse, start with
  | true, none => cu.last m
  | true, some start =>
    match cu.setRange m start with
    | some pos => if cu.key m pos = some start then some pos else cu.prev m pos
    | none => cu.last m
  | false, none => cu.first m
  | false, some start => cu.setRange m start

/-- `_advance`. -/
def advance (m : E → Option W) (pos : cu.Pos) (reverse : Bool) : Option cu.Pos :=
  if reverse = true then cu.prev m pos else cu.next m pos

/-- `skip_bound`. -/
def skipBound (options : StorageScanOptions E Seg) (depth : Nat) (key : List Seg) : Option E :=
  if options.reverse = true then codec.encodeKey (key.take depth)
  else codec.upperBoundOfPrefix (key.take depth)

/-- The outcome of one turn of the loop of `_next_row`. -/
inductive Turn (Seg V Pos : Type) where
  | on (pos : Pos)
  | row (key : List Seg) (value : Option V)
  | none
  | error

/-- The row at `pos`: past the scan, to be skipped, or to be yielded. -/
def nextRow (m : E → Option W) (options : StorageScanOptions E Seg) (needValues : Bool)
    (pos : cu.Pos) : Turn Seg V cu.Pos :=
  match cu.key m pos with
  | none => .none
  | some encodedKey =>
    match codec.decodeKey encodedKey with
    | none => .error
    | some key =>
      if (options.breakFilter.all fun f => f key) = false then .none
      else match options.maxDepth.filter fun depth => depth < key.length with
        | some depth =>
          match skipBound codec options depth key with
          | none => .error
          | some bound =>
            match seek m options.reverse (some bound) with
            | none => .none
            | some pos => .on pos
        | none =>
          if (options.filter.all fun f => f key) = false then
            match advance m pos options.reverse with
            | none => .none
            | some pos => .on pos
          else if needValues = true then
            match codec.decodeValue (cu.value m pos) with
            | none => .error
            | some value => .row key (some value)
          else .row key none

/-- The encoded start bound; `none` where encoding it raises. -/
def startBound (options : StorageScanOptions E Seg) : Option (Option E) :=
  match options.startEncoded, options.start with
  | some start, _ => some (some start)
  | none, some start => (codec.encodeKey start).map some
  | none, none => some none

/-- The part of a turn that needs the LMDB transaction. -/
def withActive (s : LMDBStorage E Seg W cu.Pos) (id : Nat) (scan : LMDBScan E Seg cu.Pos)
    (f : (E → Option W) → At cu.Pos × Reply Seg V) : LMDBStorage E Seg W cu.Pos × Reply Seg V :=
  match s.requireActive with
  | (s, .error e) => (s.setScan id { scan with state := .done }, .error e)
  | (s, .ok m) => (s.setScan id { scan with state := (f m).1 }, (f m).2)

/-- One turn of `_iterate_impl`. -/
def turn (s : LMDBStorage E Seg W cu.Pos) (id : Nat) : LMDBStorage E Seg W cu.Pos × Reply Seg V :=
  match s.txn.scans id with
  | none => (s, .error .StorageOperationError)
  | some scan =>
    match scan.state with
    | .created =>
      match startBound codec scan.options with
      | none => (s.setScan id { scan with state := .done }, .error .StorageOperationError)
      | some start =>
        s.withActive id scan fun m =>
          match seek m scan.options.reverse start with
          | none => (.done, .stop)
          | some pos => (.top pos 0, .unit)
    | .top pos count =>
      if (scan.options.limit.any fun limit => limit ≤ (count : Int)) = true then
        (s.setScan id { scan with state := .done }, .stop)
      else (s.setScan id { scan with state := .looking pos count }, .unit)
    | .looking pos count =>
      s.withActive id scan fun m =>
        match nextRow codec m scan.options scan.needValues pos with
        | .on pos => (.looking pos count, .unit)
        | .row key value => (.yielded pos count, .row key value)
        | .none => (.done, .stop)
        | .error => (.done, .error .StorageOperationError)
    | .yielded pos count =>
      s.withActive id scan fun m =>
        match advance m pos scan.options.reverse with
        | none => (.done, .stop)
        | some pos => (.top pos (count + 1), .unit)
    | .done => (s, .stop)

/-! ## The end -/

/-- `_mark_closed`, with the flag of the end. -/
def finish (s : LMDBStorage E Seg W cu.Pos) (committed : Bool) : LMDBStorage E Seg W cu.Pos :=
  { s with txn := { s.txn with
    lmdbTxn := none, pending := none, closed := true, committed := committed,
    aborted := !committed } }

/-- `_notify_batch`. -/
def notifyBatch (s : LMDBStorage E Seg W cu.Pos) : LMDBStorage E Seg W cu.Pos :=
  if s.txn.modifiedKeys = ∅ then s else { s with notified := s.notified ++ [s.txn.modifiedKeys] }

/-- `commit`; `ok` is whether LMDB's commit succeeds. -/
def commit (s : LMDBStorage E Seg W cu.Pos) (ok : Bool) :
    LMDBStorage E Seg W cu.Pos × Reply Seg V :=
  if s.txn.closed = true then (s, .error .StorageClosedError)
  else match s.txn.pending with
    | some pending =>
      if ok = true then
        let m := (replayPending s.data pending).1
        let missing := (replayPending s.data pending).2
        (({ s with
          data := m
          txn := { s.txn with
            modifiedKeys := discardMissing s.txn.modifiedKeys pending missing } }.finish
              true).notifyBatch, .unit)
      else (s.finish false, .error .StorageTransactionError)
    | none =>
      match s.requireActive with
      | (s, .error e) => (s.finish false, .error e)
      | (s, .ok m) =>
        if ok = true then (({ s with data := m }.finish true).notifyBatch, .unit)
        else (s.finish false, .error .StorageTransactionError)

/-- `abort`. -/
def abort (s : LMDBStorage E Seg W cu.Pos) : LMDBStorage E Seg W cu.Pos × Reply Seg V :=
  if s.txn.closed = true then (s, .unit) else (s.finish false, .unit)

/-- One call, or a begin that no call asked for. -/
def perform (s : LMDBStorage E Seg W cu.Pos) :
    Op E Seg V → LMDBStorage E Seg W cu.Pos × Reply Seg V
  | .put key value => s.put codec keyFits key value
  | .delete key => s.delete codec keyFits key
  | .get key => s.get codec key
  | .exists key => s.exists codec key
  | .scan id options needValues => s.scan id options needValues
  | .turn id => s.turn codec id
  | .begin => (s.requireActive.1, .unit)
  | .commit ok => s.commit ok
  | .abort => s.abort

/-- The calls of a transaction, with what they return. -/
def run (s : LMDBStorage E Seg W cu.Pos) :
    List (Op E Seg V) → LMDBStorage E Seg W cu.Pos × List (Reply Seg V)
  | [] => (s, [])
  | op :: ops =>
    let a := s.perform codec keyFits op
    let b := run a.1 ops
    (b.1, a.2 :: b.2)

end LMDBStorage

end Virtuals.Lmdb
