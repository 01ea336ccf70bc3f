/-
  `InMemoryStorage` (`storages/mem/storage.py`) with its contexts, as a step function
  over the calls its users make.

  The writer lock is its identity and whether it is held; `close` replaces it. A commit
  is two steps, as in the source: the claim of the end under the state lock, then the
  store's `apply` with the end of the transaction. A batch's `write` is three: claim,
  take of the slot (or its timeout), apply. Any steps of other parties may stand between.
-/
import Virtuals.Mem.Context

namespace Virtuals.Mem

open VersionedStore

/-- The storage and every context begun on it. -/
structure InMemoryStorage (Enc Key Val : Type) where
  store : VersionedStore Enc Key Val
  readOnly : Bool
  opened : Bool
  /-- identity of the current writer lock -/
  lock : Nat
  locked : Bool
  transactions : PyDict Nat (Transaction Enc Key Val)
  batches : PyDict Nat (WriteBatch Enc Key Val)
  snapshots : PyDict Nat Snapshot
  /-- key sets handed to the publisher, oldest first -/
  notified : List (Finset Key)

namespace InMemoryStorage

variable {Enc Key Val Value : Type} [LinearOrder Enc] [DecidableEq Key]

def new (readOnly : Bool) : InMemoryStorage Enc Key Val :=
  ⟨.new, readOnly, false, 0, false, .empty, .empty, .empty, []⟩

/-- What a call gives back: the storage after it, and whether it raised. -/
abbrev Reply (Enc Key Val : Type) := InMemoryStorage Enc Key Val × Except StorageError Unit

def ok (s : InMemoryStorage Enc Key Val) : Reply Enc Key Val := (s, .ok ())

def fail (s : InMemoryStorage Enc Key Val) (e : StorageError) : Reply Enc Key Val := (s, .error e)

/-- `_release_write_slot`: nothing is released when the lock is no longer the current one. -/
def releaseWriteSlot (s : InMemoryStorage Enc Key Val) (lock : Nat) : InMemoryStorage Enc Key Val :=
  if lock = s.lock then { s with locked := false } else s

/-- `_notify_batch`: the publisher gets the keys, if there are any. -/
def notifyBatch (s : InMemoryStorage Enc Key Val) (keys : Finset Key) :
    InMemoryStorage Enc Key Val :=
  if keys = ∅ then s else { s with notified := s.notified ++ [keys] }

def setTransaction (s : InMemoryStorage Enc Key Val) (id : Nat) (t : Transaction Enc Key Val) :
    InMemoryStorage Enc Key Val :=
  { s with transactions := s.transactions.set id t }

def setBatch (s : InMemoryStorage Enc Key Val) (id : Nat) (b : WriteBatch Enc Key Val) :
    InMemoryStorage Enc Key Val :=
  { s with batches := s.batches.set id b }

def setSnapshot (s : InMemoryStorage Enc Key Val) (id : Nat) (snap : Snapshot) :
    InMemoryStorage Enc Key Val :=
  { s with snapshots := s.snapshots.set id snap }

/-! ## Lifecycle -/

/-- `open`: start with empty state. -/
def «open» (s : InMemoryStorage Enc Key Val) : Reply Enc Key Val :=
  if s.opened then s.ok else { s with store := s.store.reset, opened := true }.ok

/-- A transaction as `abort` leaves it; one whose end was already claimed stays as it is. -/
def abortedTransaction (t : Transaction Enc Key Val) : Transaction Enc Key Val :=
  if t.closed then t
  else { t with closed := true, aborted := true, pendingIndex := none, pending := .empty }

/-- A batch as `abort` leaves it. -/
def abortedBatch (b : WriteBatch Enc Key Val) : WriteBatch Enc Key Val :=
  if b.closed then b else { b with closed := true, aborted := true, pending := .empty }

/-- A snapshot as `close` leaves it; its pin goes with it. -/
def closedSnapshot (snap : Snapshot) : Snapshot := { snap with closed := true, pinned := false }

/-- `close`: active contexts are aborted or closed, the writer lock is replaced, the data dropped. -/
def close (s : InMemoryStorage Enc Key Val) : Reply Enc Key Val :=
  if s.opened then
    { s with
      opened := false
      transactions := s.transactions.map abortedTransaction
      snapshots := s.snapshots.map closedSnapshot
      batches := s.batches.map abortedBatch
      lock := s.lock + 1
      locked := false
      store := s.store.reset }.ok
  else s.ok

/-! ## Transactions -/

/-- `begin_transaction`, with the slot free or the wait for it timed out. -/
def beginTransaction (s : InMemoryStorage Enc Key Val) (id : Nat) : Reply Enc Key Val :=
  if s.readOnly then s.fail .Base
  else if ¬ s.opened ∨ (s.transactions.get? id).isSome then s.fail .StorageClosedError
  else if s.locked then s.fail .StorageLockTimeoutError
  else
    ({ s with locked := true }.setTransaction id (.begin s.lock s.store.generation)).ok

/-- `put` and `delete` of a transaction: `none` stages a delete, `some none` is an EMPTY value. -/
def stageTransaction (codec : Codec Enc Key Val Value) (s : InMemoryStorage Enc Key Val) (id : Nat)
    (key : Key) (value : Option (Option Value)) : Reply Enc Key Val :=
  match s.transactions.get? id with
  | none => s.fail .StorageClosedError
  | some t =>
    if t.closed then s.fail .StorageClosedError
    else match value with
      | some none => s.fail .ValueError
      | some (some v) => match codec.encodeKey key, codec.encodeValue v with
        | some enc, some encoded =>
          (s.setTransaction id { t.stage enc key (.value encoded) with
            modified := insert key t.modified }).ok
        | _, _ => s.fail .StorageOperationError
      | none => match codec.encodeKey key with
        | none => s.fail .StorageOperationError
        | some enc => (s.setTransaction id (t.stage enc key .DELETED)).ok

/-- One page of a scan over a transaction: the only read that touches the context. -/
def pageTransaction (s : InMemoryStorage Enc Key Val) (id : Nat) (bound : Option Enc)
    (inclusive reverse : Bool) (n : Nat) (stop : Option Enc) : Reply Enc Key Val :=
  match s.transactions.get? id with
  | none => s.fail .StorageClosedError
  | some t =>
    if t.closed then s.fail .StorageClosedError
    else (s.setTransaction id (t.page s.store bound inclusive reverse n stop).1).ok

/-- `commit`, up to the claim of the transaction's end. -/
def commitClaim (s : InMemoryStorage Enc Key Val) (id : Nat) : Reply Enc Key Val :=
  match s.transactions.get? id with
  | none => s.fail .StorageClosedError
  | some t =>
    if t.closed then s.fail .StorageClosedError
    else (s.setTransaction id { t with closed := true }).ok

/-- `commit`, from the claim on: apply, end, notify. -/
def commitApply (s : InMemoryStorage Enc Key Val) (id : Nat) (faults : FaultPoint → Enc → Bool) :
    Reply Enc Key Val :=
  match s.transactions.get? id with
  | none => s.fail .StorageClosedError
  | some t =>
    if ¬ t.closed ∨ t.committed ∨ t.aborted then s.fail .StorageClosedError
    else if t.pending.items = [] then
      (((s.setTransaction id { t with committed := true }).releaseWriteSlot t.slot).notifyBatch
        t.modified).ok
    else
      match s.store.apply t.pending t.modified t.generation faults with
      | (store, modified, .ok _) =>
        ((({ s with store := store }.setTransaction id
          { t with committed := true, modified := modified }).releaseWriteSlot t.slot).notifyBatch
            modified).ok
      | (store, modified, .error e) =>
        (({ s with store := store }.setTransaction id
          { t with aborted := true, modified := modified }).releaseWriteSlot t.slot).fail
            (match e with
              | .StorageClosedError => .StorageClosedError
              | .raised _ => .StorageTransactionError)

/-- `abort`, and the finalizer of a transaction dropped without an end (`keep` its write set, which
    nothing reads any more). No-op once closed. -/
def abortTransaction (s : InMemoryStorage Enc Key Val) (id : Nat) : Reply Enc Key Val :=
  match s.transactions.get? id with
  | none => s.fail .StorageClosedError
  | some t =>
    if t.closed then s.ok
    else ((s.setTransaction id (abortedTransaction t)).releaseWriteSlot t.slot).ok

/-! ## Snapshots -/

/-- `begin_snapshot`: pinned at this moment. -/
def beginSnapshot (s : InMemoryStorage Enc Key Val) (id : Nat) : Reply Enc Key Val :=
  if ¬ s.opened ∨ (s.snapshots.get? id).isSome then s.fail .StorageClosedError
  else ({ s with store := s.store.pin.1 }.setSnapshot id ⟨s.store.pin.2, false, true⟩).ok

/-- `close` of a snapshot: the pin is released once. -/
def closeSnapshot (s : InMemoryStorage Enc Key Val) (id : Nat) : Reply Enc Key Val :=
  match s.snapshots.get? id with
  | none => s.fail .StorageClosedError
  | some snap =>
    if snap.pinned then
      ({ s with store := s.store.unpin snap.token }.setSnapshot id (closedSnapshot snap)).ok
    else (s.setSnapshot id (closedSnapshot snap)).ok

/-- A snapshot dropped without `close`: its finalizer queues the release, nothing reads it again. -/
def dropSnapshot (s : InMemoryStorage Enc Key Val) (id : Nat) : Reply Enc Key Val :=
  match s.snapshots.get? id with
  | none => s.fail .StorageClosedError
  | some snap =>
    if snap.pinned then
      ({ s with store := s.store.unpinLater snap.token }.setSnapshot id (closedSnapshot snap)).ok
    else (s.setSnapshot id (closedSnapshot snap)).ok

/-! ## Write batches -/

/-- `begin_write_batch`: takes no lock. -/
def beginWriteBatch (s : InMemoryStorage Enc Key Val) (id : Nat) : Reply Enc Key Val :=
  if s.readOnly then s.fail .Base
  else if ¬ s.opened ∨ (s.batches.get? id).isSome then s.fail .StorageClosedError
  else (s.setBatch id (.begin s.store.generation)).ok

/-- `put` and `delete` of a batch, as for a transaction. -/
def stageBatch (codec : Codec Enc Key Val Value) (s : InMemoryStorage Enc Key Val) (id : Nat)
    (key : Key) (value : Option (Option Value)) : Reply Enc Key Val :=
  match s.batches.get? id with
  | none => s.fail .StorageClosedError
  | some b =>
    if b.closed then s.fail .StorageClosedError
    else match value with
      | some none => s.fail .ValueError
      | some (some v) => match codec.encodeKey key, codec.encodeValue v with
        | some enc, some encoded =>
          (s.setBatch id { b.stage enc key (.value encoded) with
            modified := insert key b.modified }).ok
        | _, _ => s.fail .StorageOperationError
      | none => match codec.encodeKey key with
        | none => s.fail .StorageOperationError
        | some enc => (s.setBatch id (b.stage enc key .DELETED)).ok

/-- `write`, up to the claim of the batch's end. -/
def writeClaim (s : InMemoryStorage Enc Key Val) (id : Nat) : Reply Enc Key Val :=
  match s.batches.get? id with
  | none => s.fail .StorageClosedError
  | some b =>
    if b.closed then s.fail .StorageClosedError
    else (s.setBatch id { b with closed := true }).ok

/-- Whether a batch is inside `write`: claimed and not yet ended. -/
def writing (b : WriteBatch Enc Key Val) : Bool := b.closed && !b.written && !b.aborted

/-- `write` takes the slot for a batch with something to write. -/
def writeTake (s : InMemoryStorage Enc Key Val) (id : Nat) : Reply Enc Key Val :=
  match s.batches.get? id with
  | none => s.fail .StorageClosedError
  | some b =>
    if ¬ writing b ∨ b.pending.items = [] ∨ b.taken.isSome then s.fail .StorageClosedError
    else if s.locked then s.fail .StorageLockTimeoutError
    else ({ s with locked := true }.setBatch id { b with taken := some s.lock }).ok

/-- The take of the slot raised (a timeout, a close while waiting): the batch ends unwritten. -/
def writeTimeout (s : InMemoryStorage Enc Key Val) (id : Nat) : Reply Enc Key Val :=
  match s.batches.get? id with
  | none => s.fail .StorageClosedError
  | some b =>
    if ¬ writing b ∨ b.pending.items = [] ∨ b.taken.isSome then s.fail .StorageClosedError
    else (s.setBatch id { b with aborted := true, pending := .empty }).fail
      .StorageLockTimeoutError

/-- `write`, from the take on: apply, give the slot back, notify. -/
def writeApply (s : InMemoryStorage Enc Key Val) (id : Nat) (faults : FaultPoint → Enc → Bool) :
    Reply Enc Key Val :=
  match s.batches.get? id with
  | none => s.fail .StorageClosedError
  | some b =>
    if ¬ writing b then s.fail .StorageClosedError
    else if b.pending.items = [] then
      ((s.setBatch id { b with written := true }).notifyBatch b.modified).ok
    else match b.taken with
      | none => s.fail .StorageClosedError
      | some lock =>
        match s.store.apply b.pending b.modified b.generation faults with
        | (store, modified, .ok _) =>
          ((({ s with store := store }.setBatch id
            { b with written := true, pending := .empty, modified := modified, taken := none }
            ).releaseWriteSlot lock).notifyBatch modified).ok
        | (store, modified, .error e) =>
          (({ s with store := store }.setBatch id
            { b with aborted := true, pending := .empty, modified := modified, taken := none }
            ).releaseWriteSlot lock).fail
              (match e with
                | .StorageClosedError => .StorageClosedError
                | .raised _ => .StorageTransactionError)

/-- `abort` of a batch. No-op once closed. -/
def abortBatch (s : InMemoryStorage Enc Key Val) (id : Nat) : Reply Enc Key Val :=
  match s.batches.get? id with
  | none => s.fail .StorageClosedError
  | some b => if b.closed then s.ok else (s.setBatch id (abortedBatch b)).ok

/-! ## Calls -/

/-- One call, or one part of a call others may come between. -/
inductive Step (Enc Key Value : Type) where
  | «open»
  | close
  | beginTransaction (id : Nat)
  | stageTransaction (id : Nat) (key : Key) (value : Option (Option Value))
  | pageTransaction (id : Nat) (bound : Option Enc) (inclusive reverse : Bool) (n : Nat)
      (stop : Option Enc)
  | commitClaim (id : Nat)
  | commitApply (id : Nat) (faults : FaultPoint → Enc → Bool)
  | abortTransaction (id : Nat)
  | beginSnapshot (id : Nat)
  | closeSnapshot (id : Nat)
  | dropSnapshot (id : Nat)
  | beginWriteBatch (id : Nat)
  | stageBatch (id : Nat) (key : Key) (value : Option (Option Value))
  | writeClaim (id : Nat)
  | writeTake (id : Nat)
  | writeTimeout (id : Nat)
  | writeApply (id : Nat) (faults : FaultPoint → Enc → Bool)
  | abortBatch (id : Nat)

/-- Carry out one step. -/
def perform (codec : Codec Enc Key Val Value) (s : InMemoryStorage Enc Key Val) :
    Step Enc Key Value → Reply Enc Key Val
  | .open => s.open
  | .close => s.close
  | .beginTransaction id => s.beginTransaction id
  | .stageTransaction id key value => s.stageTransaction codec id key value
  | .pageTransaction id bound inclusive reverse n stop =>
    s.pageTransaction id bound inclusive reverse n stop
  | .commitClaim id => s.commitClaim id
  | .commitApply id faults => s.commitApply id faults
  | .abortTransaction id => s.abortTransaction id
  | .beginSnapshot id => s.beginSnapshot id
  | .closeSnapshot id => s.closeSnapshot id
  | .dropSnapshot id => s.dropSnapshot id
  | .beginWriteBatch id => s.beginWriteBatch id
  | .stageBatch id key value => s.stageBatch codec id key value
  | .writeClaim id => s.writeClaim id
  | .writeTake id => s.writeTake id
  | .writeTimeout id => s.writeTimeout id
  | .writeApply id faults => s.writeApply id faults
  | .abortBatch id => s.abortBatch id

end InMemoryStorage

end Virtuals.Mem
