/-
  What the write units of the SQL and RocksDB storages have in common: a storage with the one unit
  that writes to it, the errors it raises, and the publisher it hands its keys to.
-/
import Virtuals.Lib.Touched
import Virtuals.Lmdb.Transaction

namespace Virtuals.Notify

/-- The error classes a unit raises. -/
inductive StorageError where
  | StorageClosedError
  | StorageOperationError
  | StorageTransactionError
  | StorageTransactionAbortedError
  | StorageTransactionConflictError
  | StorageLockTimeoutError
  /-- an EMPTY value handed to `put` -/
  | ValueError
  deriving DecidableEq

/-- The committed data, the unit, and the sets of keys handed to the publisher. -/
structure Storage (E Key W Context : Type) where
  data : E → Option W
  context : Context
  notified : List (Finset Key)

variable {E Key W Context : Type} [DecidableEq Key]

namespace Storage

/-- `_notify_batch`: the publisher gets the keys, if there are any. -/
def notifyBatch (s : Storage E Key W Context) (keys : Finset Key) : Storage E Key W Context :=
  { s with notified := s.notified ++ Lib.handOver keys }

/-- The unit after a step. -/
def setContext (s : Storage E Key W Context) (context : Context) : Storage E Key W Context :=
  { s with context := context }

end Storage

end Virtuals.Notify
