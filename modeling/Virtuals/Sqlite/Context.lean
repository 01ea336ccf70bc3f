/-
  `SQLiteTransaction` and `SQLiteWriteBatch` (`storages/sqlite/context.py`, `transaction.py`,
  `write_batch.py`): what a unit writes, and the keys it collects for the publisher.

  A transaction writes through its connection, a batch keeps its writes until `write` applies them
  in one transaction. A statement that fails changes nothing: it reports that the database is busy,
  or something else. Scans read pages of the connection and leave the unit as it is.
-/
import Virtuals.Notify.Unit

namespace Virtuals.Sqlite

open Lib Notify
open Lmdb (Codec)

/-- How a statement ended: run, SQLITE_BUSY or SQLITE_LOCKED, or another `sqlite3.Error`. -/
inductive Statement where
  | run
  | busy
  | error
  deriving DecidableEq

variable {E Seg W V : Type}

/-- `SQLiteTransaction`: the rows its connection sees, in its transaction. -/
structure SQLiteTransaction (E Seg W : Type) where
  conn : Option (E → Option W)
  modifiedKeys : Finset (List Seg)
  closed : Bool
  committed : Bool
  aborted : Bool

/-- `SQLiteWriteBatch`: the last write of each key, `none` for a delete. -/
structure SQLiteWriteBatch (E Seg W : Type) where
  ops : PyDict E (Option W)
  modifiedKeys : Finset (List Seg)
  closed : Bool
  written : Bool
  aborted : Bool

/-- The storage of one transaction. -/
abbrev TransactionStorage (E Seg W : Type) := Storage E (List Seg) W (SQLiteTransaction E Seg W)

/-- The storage of one batch. -/
abbrev BatchStorage (E Seg W : Type) := Storage E (List Seg) W (SQLiteWriteBatch E Seg W)

namespace SQLiteTransaction

/-- `BEGIN IMMEDIATE` has run. -/
def begin (data : E → Option W) : TransactionStorage E Seg W :=
  ⟨data, ⟨some data, ∅, false, false, false⟩, []⟩

/-- `_require_active`. -/
def requireActive (t : SQLiteTransaction E Seg W) : Option (E → Option W) :=
  if t.closed = true then none else t.conn

/-- What a failed statement is raised as. -/
def raised (statement : Statement) : StorageError :=
  if statement = .busy then .StorageLockTimeoutError else .StorageOperationError

variable [DecidableEq E] [DecidableEq Seg] (codec : Codec E Seg W V)

/-- `put`; `none` is EMPTY. -/
def put (t : SQLiteTransaction E Seg W) (key : List Seg) (value : Option V)
    (statement : Statement) : SQLiteTransaction E Seg W × Except StorageError Unit :=
  match value with
  | none => (t, .error .ValueError)
  | some value =>
    match codec.encodeKey key, codec.encodeValue value with
    | some encodedKey, some encodedValue =>
      match t.requireActive with
      | none => (t, .error .StorageClosedError)
      | some conn =>
        if statement = .run then
          ({ t with
            conn := some (Function.update conn encodedKey (some encodedValue))
            modifiedKeys := insert key t.modifiedKeys }, .ok ())
        else (t, .error (raised statement))
    | _, _ => (t, .error .StorageOperationError)

/-- `delete`: the key counts where a row was deleted. -/
def delete (t : SQLiteTransaction E Seg W) (key : List Seg) (statement : Statement) :
    SQLiteTransaction E Seg W × Except StorageError Unit :=
  match codec.encodeKey key with
  | none => (t, .error .StorageOperationError)
  | some encodedKey =>
    match t.requireActive with
    | none => (t, .error .StorageClosedError)
    | some conn =>
      if statement = .run then
        let deleted := (conn encodedKey).isSome
        ({ t with
          conn := some (Function.update conn encodedKey none)
          modifiedKeys := if deleted = true then insert key t.modifiedKeys else t.modifiedKeys },
          .ok ())
      else (t, .error (raised statement))

/-- `get`; `none` is EMPTY. -/
def get (t : SQLiteTransaction E Seg W) (key : List Seg) (statement : Statement) :
    Except StorageError (Option V) :=
  match codec.encodeKey key with
  | none => .error .StorageOperationError
  | some encodedKey =>
    match t.requireActive with
    | none => .error .StorageClosedError
    | some conn =>
      if statement = .run then
        match conn encodedKey with
        | none => .ok none
        | some encodedValue =>
          match codec.decodeValue encodedValue with
          | none => .error .StorageOperationError
          | some value => .ok (some value)
      else .error .StorageOperationError

/-- `exists`. -/
def «exists» (t : SQLiteTransaction E Seg W) (key : List Seg) (statement : Statement) :
    Except StorageError Bool :=
  match codec.encodeKey key with
  | none => .error .StorageOperationError
  | some encodedKey =>
    match t.requireActive with
    | none => .error .StorageClosedError
    | some conn =>
      if statement = .run then .ok (conn encodedKey).isSome else .error .StorageOperationError

/-- `commit`: the COMMIT, then the end of the connection, which rolls back what was not committed. -/
def commit (s : TransactionStorage E Seg W) (statement : Statement) :
    TransactionStorage E Seg W × Except StorageError Unit :=
  let t := s.context
  if t.closed = true ∨ t.committed = true ∨ t.aborted = true then (s, .error .StorageClosedError)
  else match t.requireActive with
    | none => (s, .error .StorageClosedError)
    | some conn =>
      let ended := { t with conn := none, closed := true }
      match statement with
      | .run => (({ s with data := conn }.setContext { ended with committed := true }).notifyBatch
          t.modifiedKeys, .ok ())
      | .busy => (s.setContext { ended with aborted := true }, .error .StorageLockTimeoutError)
      | .error => (s.setContext { ended with aborted := true }, .error .StorageTransactionError)

/-- `abort`, and what closing the storage or dropping the transaction does to it. -/
def abort (s : TransactionStorage E Seg W) (statement : Statement) :
    TransactionStorage E Seg W × Except StorageError Unit :=
  let t := s.context
  if t.closed = true then (s, .ok ())
  else
    (s.setContext { t with conn := none, closed := true, aborted := true },
      if statement = .run then .ok () else .error .StorageTransactionAbortedError)

/-- A call on a transaction. -/
inductive Op (Seg V : Type) where
  | put (key : List Seg) (value : Option V) (statement : Statement)
  | delete (key : List Seg) (statement : Statement)
  | get (key : List Seg) (statement : Statement)
  | exists (key : List Seg) (statement : Statement)
  | commit (statement : Statement)
  | abort (statement : Statement)

/-- What a call leaves. -/
def perform (s : TransactionStorage E Seg W) : Op Seg V → TransactionStorage E Seg W
  | .put key value statement => s.setContext (s.context.put codec key value statement).1
  | .delete key statement => s.setContext (s.context.delete codec key statement).1
  | .get _ _ => s
  | .exists _ _ => s
  | .commit statement => (commit s statement).1
  | .abort statement => (abort s statement).1

/-- The calls of a transaction. -/
def run (data : E → Option W) (ops : List (Op Seg V)) : TransactionStorage E Seg W :=
  ops.foldl (perform codec) (begin data)

end SQLiteTransaction

namespace SQLiteWriteBatch

/-- An empty batch. -/
def begin (data : E → Option W) : BatchStorage E Seg W :=
  ⟨data, ⟨.empty, ∅, false, false, false⟩, []⟩

variable [DecidableEq E] [DecidableEq Seg] (codec : Codec E Seg W V)

/-- `put`; `none` is EMPTY. -/
def put (b : SQLiteWriteBatch E Seg W) (key : List Seg) (value : Option V) :
    SQLiteWriteBatch E Seg W × Except StorageError Unit :=
  if b.closed = true then (b, .error .StorageClosedError)
  else match value with
    | none => (b, .error .ValueError)
    | some value =>
      match codec.encodeKey key, codec.encodeValue value with
      | some encodedKey, some encodedValue =>
        ({ b with
          ops := b.ops.set encodedKey (some encodedValue)
          modifiedKeys := insert key b.modifiedKeys }, .ok ())
      | _, _ => (b, .error .StorageOperationError)

/-- `delete`. -/
def delete (b : SQLiteWriteBatch E Seg W) (key : List Seg) :
    SQLiteWriteBatch E Seg W × Except StorageError Unit :=
  if b.closed = true then (b, .error .StorageClosedError)
  else match codec.encodeKey key with
    | none => (b, .error .StorageOperationError)
    | some encodedKey =>
      ({ b with
        ops := b.ops.set encodedKey none
        modifiedKeys := insert key b.modifiedKeys }, .ok ())

/-- The deletes of the batch, then its puts. -/
def applied (ops : PyDict E (Option W)) (data : E → Option W) : E → Option W :=
  let puts := ops.items.filter fun op => op.2.isSome
  let deletes := ops.items.filter fun op => op.2.isNone
  let deleted : E → Option W := deletes.foldl (fun m op => Function.update m op.1 none) data
  puts.foldl (fun m op => Function.update m op.1 op.2) deleted

/-- What `_write_held` is raised as. -/
def raised (statement : Statement) : StorageError :=
  if statement = .busy then .StorageLockTimeoutError else .StorageTransactionError

/-- `write`: a statement of it that fails, the begin included, leaves the batch aborted. -/
def write (s : BatchStorage E Seg W) (statement : Statement) :
    BatchStorage E Seg W × Except StorageError Unit :=
  let b := s.context
  if b.closed = true ∨ b.written = true ∨ b.aborted = true then (s, .error .StorageClosedError)
  else
    let ended := { b with ops := .empty, closed := true }
    if b.ops.items = [] then
      ((s.setContext { ended with written := true }).notifyBatch b.modifiedKeys, .ok ())
    else if statement = .run then
      (({ s with data := applied b.ops s.data }.setContext
        { ended with written := true }).notifyBatch b.modifiedKeys, .ok ())
    else (s.setContext { ended with aborted := true }, .error (raised statement))

/-- `abort`. -/
def abort (s : BatchStorage E Seg W) : BatchStorage E Seg W × Except StorageError Unit :=
  let b := s.context
  if b.closed = true then (s, .ok ())
  else (s.setContext { b with ops := .empty, closed := true, aborted := true }, .ok ())

/-- A call on a batch. -/
inductive Op (Seg V : Type) where
  | put (key : List Seg) (value : Option V)
  | delete (key : List Seg)
  | write (statement : Statement)
  | abort

/-- What a call leaves. -/
def perform (s : BatchStorage E Seg W) : Op Seg V → BatchStorage E Seg W
  | .put key value => s.setContext (s.context.put codec key value).1
  | .delete key => s.setContext (s.context.delete codec key).1
  | .write statement => (write s statement).1
  | .abort => (abort s).1

/-- The calls of a batch. -/
def run (data : E → Option W) (ops : List (Op Seg V)) : BatchStorage E Seg W :=
  ops.foldl (perform codec) (begin data)

end SQLiteWriteBatch

end Virtuals.Sqlite
