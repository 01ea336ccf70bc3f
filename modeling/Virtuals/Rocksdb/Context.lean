/-
  `RocksDBTransaction` and `RocksDBWriteBatch` (`storages/rocksdb/context.py`, `transaction.py`,
  `write_batch.py`): what a unit writes, and the keys it collects for the publisher.

  A native transaction is the map it reads; a native batch is the list of its writes. A native call
  that raises changes nothing; `Native` is the exception as `classify_rdbpy` sees it.
-/
import Virtuals.Notify.Unit

namespace Virtuals.Rocksdb

open Lib Notify
open Lmdb (Codec)

/-- How a native call ended: run, or an rdbpy exception of one of the classes told apart. -/
inductive Native where
  | run
  /-- Busy, TryAgain, Expired -/
  | conflict
  /-- TimedOut, LockLimit -/
  | lockTimeout
  /-- RuntimeError: a handle whose parent ended -/
  | closed
  | error
  deriving DecidableEq

/-- `classify_rdbpy`. -/
def classifyRdbpy : Native → StorageError
  | .conflict => .StorageTransactionConflictError
  | .lockTimeout => .StorageLockTimeoutError
  | .closed => .StorageClosedError
  | .run | .error => .StorageOperationError

/-- What a failed commit or write raises: `_RAISE_AS_IS`, or a transaction error. -/
def raised (native : Native) : StorageError :=
  let mapped := classifyRdbpy native
  if mapped = .StorageOperationError then .StorageTransactionError else mapped

variable {E Seg W V : Type}

/-- `RocksDBTransaction`: the rows its native transaction reads. -/
structure RocksDBTransaction (E Seg W : Type) where
  rdbpyTxn : E → Option W
  modifiedKeys : Finset (List Seg)
  closed : Bool
  committed : Bool
  aborted : Bool

/-- `RocksDBWriteBatch`: the writes of its native batch, `none` for a delete. -/
structure RocksDBWriteBatch (E Seg W : Type) where
  rdbpyBatch : List (E × Option W)
  modifiedKeys : Finset (List Seg)
  closed : Bool
  written : Bool
  aborted : Bool

/-- The storage of one transaction. -/
abbrev TransactionStorage (E Seg W : Type) := Storage E (List Seg) W (RocksDBTransaction E Seg W)

/-- The storage of one batch. -/
abbrev BatchStorage (E Seg W : Type) := Storage E (List Seg) W (RocksDBWriteBatch E Seg W)

namespace RocksDBTransaction

/-- The native transaction has begun, with its snapshot. -/
def begin (data : E → Option W) : TransactionStorage E Seg W :=
  ⟨data, ⟨data, ∅, false, false, false⟩, []⟩

variable [DecidableEq E] [DecidableEq Seg] (codec : Codec E Seg W V)

/-- `put`; `none` is EMPTY. -/
def put (t : RocksDBTransaction E Seg W) (key : List Seg) (value : Option V) (native : Native) :
    RocksDBTransaction E Seg W × Except StorageError Unit :=
  if t.closed = true then (t, .error .StorageClosedError)
  else match value with
    | none => (t, .error .ValueError)
    | some value =>
      match codec.encodeKey key, codec.encodeValue value with
      | some encodedKey, some encodedValue =>
        if native = .run then
          ({ t with
            rdbpyTxn := Function.update t.rdbpyTxn encodedKey (some encodedValue)
            modifiedKeys := insert key t.modifiedKeys }, .ok ())
        else (t, .error (classifyRdbpy native))
      | _, _ => (t, .error .StorageOperationError)

/-- `delete`: the key counts whether or not something was there. -/
def delete (t : RocksDBTransaction E Seg W) (key : List Seg) (native : Native) :
    RocksDBTransaction E Seg W × Except StorageError Unit :=
  if t.closed = true then (t, .error .StorageClosedError)
  else match codec.encodeKey key with
    | none => (t, .error .StorageOperationError)
    | some encodedKey =>
      if native = .run then
        ({ t with
          rdbpyTxn := Function.update t.rdbpyTxn encodedKey none
          modifiedKeys := insert key t.modifiedKeys }, .ok ())
      else (t, .error (classifyRdbpy native))

/-- `get`; `none` is EMPTY. -/
def get (t : RocksDBTransaction E Seg W) (key : List Seg) (native : Native) :
    Except StorageError (Option V) :=
  if t.closed = true then .error .StorageClosedError
  else match codec.encodeKey key with
    | none => .error .StorageOperationError
    | some encodedKey =>
      if native = .run then
        match t.rdbpyTxn encodedKey with
        | none => .ok none
        | some encodedValue =>
          match codec.decodeValue encodedValue with
          | none => .error .StorageOperationError
          | some value => .ok (some value)
      else .error (classifyRdbpy native)

/-- `_ended`. -/
def ended (t : RocksDBTransaction E Seg W) : Bool := t.closed || t.committed || t.aborted

/-- `commit`. -/
def commit (s : TransactionStorage E Seg W) (native : Native) :
    TransactionStorage E Seg W × Except StorageError Unit :=
  let t := s.context
  if t.ended = true then (s.setContext { t with closed := true }, .error .StorageClosedError)
  else if native = .run then
    (({ s with data := t.rdbpyTxn }.setContext
      { t with closed := true, committed := true }).notifyBatch t.modifiedKeys, .ok ())
  else (s.setContext { t with closed := true, aborted := true }, .error (raised native))

/-- `abort`, and what closing the storage or dropping the transaction does to it. -/
def abort (s : TransactionStorage E Seg W) (native : Native) :
    TransactionStorage E Seg W × Except StorageError Unit :=
  let t := s.context
  if t.ended = true then (s.setContext { t with closed := true }, .ok ())
  else
    (s.setContext { t with closed := true, aborted := true },
      if native = .run then .ok () else .error .StorageTransactionAbortedError)

/-- A call on a transaction. -/
inductive Op (Seg V : Type) where
  | put (key : List Seg) (value : Option V) (native : Native)
  | delete (key : List Seg) (native : Native)
  | get (key : List Seg) (native : Native)
  | commit (native : Native)
  | abort (native : Native)

/-- What a call leaves. -/
def perform (s : TransactionStorage E Seg W) : Op Seg V → TransactionStorage E Seg W
  | .put key value native => s.setContext (s.context.put codec key value native).1
  | .delete key native => s.setContext (s.context.delete codec key native).1
  | .get _ _ => s
  | .commit native => (commit s native).1
  | .abort native => (abort s native).1

/-- The calls of a transaction. -/
def run (data : E → Option W) (ops : List (Op Seg V)) : TransactionStorage E Seg W :=
  ops.foldl (perform codec) (begin data)

end RocksDBTransaction

namespace RocksDBWriteBatch

/-- An empty batch. -/
def begin (data : E → Option W) : BatchStorage E Seg W :=
  ⟨data, ⟨[], ∅, false, false, false⟩, []⟩

variable [DecidableEq E] [DecidableEq Seg] (codec : Codec E Seg W V)

/-- `put`; `none` is EMPTY. -/
def put (b : RocksDBWriteBatch E Seg W) (key : List Seg) (value : Option V) (native : Native) :
    RocksDBWriteBatch E Seg W × Except StorageError Unit :=
  if b.closed = true then (b, .error .StorageClosedError)
  else match value with
    | none => (b, .error .ValueError)
    | some value =>
      match codec.encodeKey key, codec.encodeValue value with
      | some encodedKey, some encodedValue =>
        if native = .run then
          ({ b with
            rdbpyBatch := b.rdbpyBatch ++ [(encodedKey, some encodedValue)]
            modifiedKeys := insert key b.modifiedKeys }, .ok ())
        else (b, .error .StorageOperationError)
      | _, _ => (b, .error .StorageOperationError)

/-- `delete`. -/
def delete (b : RocksDBWriteBatch E Seg W) (key : List Seg) (native : Native) :
    RocksDBWriteBatch E Seg W × Except StorageError Unit :=
  if b.closed = true then (b, .error .StorageClosedError)
  else match codec.encodeKey key with
    | none => (b, .error .StorageOperationError)
    | some encodedKey =>
      if native = .run then
        ({ b with
          rdbpyBatch := b.rdbpyBatch ++ [(encodedKey, none)]
          modifiedKeys := insert key b.modifiedKeys }, .ok ())
      else (b, .error .StorageOperationError)

/-- `_ended`. -/
def ended (b : RocksDBWriteBatch E Seg W) : Bool := b.closed || b.written || b.aborted

/-- The data after a native write of the batch. -/
def applied (batch : List (E × Option W)) (data : E → Option W) : E → Option W :=
  batch.foldl (fun m op => Function.update m op.1 op.2) data

/-- `write`: `written` is claimed first, so a failed write is written and aborted. The slot that is
    not free in time and the native write end it alike. -/
def write (s : BatchStorage E Seg W) (storageOpen : Bool) (native : Native) :
    BatchStorage E Seg W × Except StorageError Unit :=
  let b := s.context
  if b.ended = true then (s.setContext { b with closed := true }, .error .StorageClosedError)
  else if storageOpen = false then (s, .error .StorageClosedError)
  else if native = .run then
    (({ s with data := applied b.rdbpyBatch s.data }.setContext
      { b with rdbpyBatch := [], closed := true, written := true }).notifyBatch b.modifiedKeys,
      .ok ())
  else
    (s.setContext { b with rdbpyBatch := [], closed := true, written := true, aborted := true },
      .error (raised native))

/-- `abort`. -/
def abort (s : BatchStorage E Seg W) : BatchStorage E Seg W × Except StorageError Unit :=
  let b := s.context
  if b.ended = true then (s.setContext { b with closed := true }, .ok ())
  else (s.setContext { b with rdbpyBatch := [], closed := true, aborted := true }, .ok ())

/-- Whether the write of the batch has succeeded. -/
def committed (b : RocksDBWriteBatch E Seg W) : Bool := b.written && !b.aborted

/-- A call on a batch. -/
inductive Op (Seg V : Type) where
  | put (key : List Seg) (value : Option V) (native : Native)
  | delete (key : List Seg) (native : Native)
  | write (storageOpen : Bool) (native : Native)
  | abort

/-- What a call leaves. -/
def perform (s : BatchStorage E Seg W) : Op Seg V → BatchStorage E Seg W
  | .put key value native => s.setContext (s.context.put codec key value native).1
  | .delete key native => s.setContext (s.context.delete codec key native).1
  | .write storageOpen native => (write s storageOpen native).1
  | .abort => (abort s).1

/-- The calls of a batch. -/
def run (data : E → Option W) (ops : List (Op Seg V)) : BatchStorage E Seg W :=
  ops.foldl (perform codec) (begin data)

end RocksDBWriteBatch

end Virtuals.Rocksdb
