/-
  `LMDBWriteBatch` (`storages/lmdb/write_batch.py`): puts and deletes that wait for `write`, which
  begins, replays and commits them in one job of the writer thread. The slot that is not free in
  time, a begin, a replay and a commit that fail all end the batch unwritten.
-/
import Virtuals.Lmdb.Transaction
import Virtuals.Notify.Unit

namespace Virtuals.Lmdb

open Lib

variable {E Seg W V : Type}

/-- `LMDBWriteBatch`. -/
structure LMDBWriteBatch (E Seg W : Type) where
  ops : PyDict E (List Seg × Option W)
  modifiedKeys : Finset (List Seg)
  closed : Bool
  written : Bool
  aborted : Bool

/-- The storage of one batch. -/
abbrev BatchStorage (E Seg W : Type) := Notify.Storage E (List Seg) W (LMDBWriteBatch E Seg W)

namespace LMDBWriteBatch

/-- An empty batch. -/
def begin (data : E → Option W) : BatchStorage E Seg W :=
  ⟨data, ⟨.empty, ∅, false, false, false⟩, []⟩

variable [DecidableEq E] [DecidableEq Seg] (codec : Codec E Seg W V) (keyFits : E → Bool)

/-- `put`; `none` is EMPTY. -/
def put (b : LMDBWriteBatch E Seg W) (key : List Seg) (value : Option V) :
    LMDBWriteBatch E Seg W × Except Notify.StorageError Unit :=
  match value with
  | none => (b, .error .ValueError)
  | some value =>
    match codec.encodeKey key, codec.encodeValue value with
    | some encodedKey, some encodedValue =>
      if b.closed = true then (b, .error .StorageClosedError)
      else if keyFits encodedKey = false then (b, .error .StorageOperationError)
      else
        ({ b with
          ops := b.ops.set encodedKey (key, some encodedValue)
          modifiedKeys := insert key b.modifiedKeys }, .ok ())
    | _, _ => (b, .error .StorageOperationError)

/-- `delete`: a key that LMDB cannot store cannot exist. -/
def delete (b : LMDBWriteBatch E Seg W) (key : List Seg) :
    LMDBWriteBatch E Seg W × Except Notify.StorageError Unit :=
  match codec.encodeKey key with
  | none => (b, .error .StorageOperationError)
  | some encodedKey =>
    if b.closed = true then (b, .error .StorageClosedError)
    else if keyFits encodedKey = false then (b, .ok ())
    else
      ({ b with
        ops := b.ops.set encodedKey (key, none)
        modifiedKeys := insert key b.modifiedKeys }, .ok ())

/-- `write`; `failure` is what taking the slot, the begin, the replay or the commit raises. -/
def write (s : BatchStorage E Seg W) (failure : Option Notify.StorageError) :
    BatchStorage E Seg W × Except Notify.StorageError Unit :=
  let b := s.context
  if b.closed = true ∨ b.written = true ∨ b.aborted = true then
    (s.setContext { b with closed := true }, .error .StorageClosedError)
  else
    let ended := { b with ops := .empty, closed := true }
    if b.ops.items = [] then
      ((s.setContext { ended with written := true }).notifyBatch b.modifiedKeys, .ok ())
    else match failure with
      | some e => (s.setContext { ended with aborted := true }, .error e)
      | none =>
        let replayed := replayPending s.data b.ops
        let modifiedKeys := discardMissing b.modifiedKeys b.ops replayed.2
        (({ s with data := replayed.1 }.setContext
          { ended with modifiedKeys := modifiedKeys, written := true }).notifyBatch modifiedKeys,
          .ok ())

/-- `abort`. -/
def abort (s : BatchStorage E Seg W) : BatchStorage E Seg W × Except Notify.StorageError Unit :=
  let b := s.context
  if b.closed = true ∨ b.written = true ∨ b.aborted = true then
    (s.setContext { b with closed := true }, .ok ())
  else (s.setContext { b with ops := .empty, closed := true, aborted := true }, .ok ())

/-- A call on a batch. -/
inductive Op (Seg V : Type) where
  | put (key : List Seg) (value : Option V)
  | delete (key : List Seg)
  | write (failure : Option Notify.StorageError)
  | abort

/-- What a call leaves. -/
def perform (s : BatchStorage E Seg W) : Op Seg V → BatchStorage E Seg W
  | .put key value => s.setContext (s.context.put codec keyFits key value).1
  | .delete key => s.setContext (s.context.delete codec keyFits key).1
  | .write failure => (write s failure).1
  | .abort => (abort s).1

/-- The calls of a batch. -/
def run (data : E → Option W) (ops : List (Op Seg V)) : BatchStorage E Seg W :=
  ops.foldl (perform codec keyFits) (begin data)

end LMDBWriteBatch

end Virtuals.Lmdb
