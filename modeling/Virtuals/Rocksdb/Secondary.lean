/-
  A read-only secondary (`storages/rocksdb/storage.py`, `snapshot.py`, `context.py`, `scan.py`):
  snapshots, point reads, scans and catch-ups with the primary, by any number of threads.

  Each native call, each epoch check and each step of a section under the state lock is one act. A
  native read sees the secondary's rows as they are at its call, a native iterator those at its
  opening; either may find that the primary has compacted a file away. A catch-up's native call
  brings the rows up to whatever the primary has. Beside the source's fields stand the number of
  native catch-ups, the rows after each, and the rows that a scan has yielded.

  What a scan does with its iterator is the same whoever runs beside it (`RocksDBScan.alone`); the
  acts of the system add the checks, and where the iterator is opened.
-/
import Mathlib.Data.Finset.Insert
import Mathlib.Data.Finset.Erase
import Virtuals.Lmdb.Transaction
import Virtuals.Rocksdb.Iterators

namespace Virtuals.Rocksdb

open Lmdb (Codec StorageScanOptions)

/-- `secondary_refresh_interval` and `secondary_max_staleness`. -/
structure Config where
  refreshInterval : Option Nat
  maxStaleness : Option Nat

/-- Who is in a section under the state lock: `begin_snapshot`, a caller of
    `force_catch_up_with_primary`, or a read that lost its view. -/
inductive Who where
  | begin (id : Nat)
  | caller
  | point (id : Nat)
  | scan (id : Nat)
  deriving DecidableEq

/-- How far a section is: entered, about to catch up, after the native call, after the time stamp,
    and ready to leave. -/
inductive Stage where
  | entered
  | catching
  | native
  | stamped
  | ready
  deriving DecidableEq

/-- `RocksDBSnapshot` on a secondary. -/
structure RocksDBSnapshot where
  epoch : Nat
  closed : Bool

/-- A point read: `get` or `exists`. -/
inductive Want where
  | get
  | exists
  deriving DecidableEq

/-- What a read returns or raises; `raised` is a failure of the codec. -/
inductive Reply (Seg V : Type) where
  | value (v : Option V)
  | bool (b : Bool)
  | row (key : List Seg) (value : Option V)
  | stop
  | StorageTransactionConflictError
  | StorageClosedError
  | raised
  deriving DecidableEq

/-- Where a point read is. -/
inductive PointAt (E : Type) where
  | started
  | checked (encodedKey : E)
  | lost
  | done

structure PointRead (E Seg : Type) where
  snapshot : Nat
  key : List Seg
  want : Want
  state : PointAt E

/-- Where a scan is. -/
inductive ScanAt (E W : Type) where
  | started
  | checked (start : Option E)
  | seeking (start : Option E)
  | fetching
  | rows (rest : List (E × W))
  | lost
  | done

/-- `ScanHandle`: the rows the iterator was opened on, of the catch-up it was opened after. -/
structure ScanHandle (E W Pos : Type) where
  rows : E → Option W
  generation : Nat
  pos : Option Pos

/-- `RocksDBScan`, one iteration of it. `given` is not the source's: the rows it has yielded. -/
structure RocksDBScan (E Seg W V Pos : Type) where
  snapshot : Nat
  options : StorageScanOptions E Seg
  needValues : Bool
  handle : Option (ScanHandle E W Pos)
  count : Nat
  batchSize : Nat
  given : List (List Seg × Option V)
  state : ScanAt E W

/-- What was asked of a snapshot: a key, or what comes in a scan after the rows it has given. -/
inductive Query (E Seg V : Type) where
  | point (key : List Seg) (want : Want)
  | scan (options : StorageScanOptions E Seg) (needValues : Bool)
      (given : List (List Seg × Option V))

/-- A reply of a snapshot. -/
structure Event (E Seg V : Type) where
  snapshot : Nat
  query : Query E Seg V
  reply : Reply Seg V

/-- The secondary. `generation` and `states` are not the source's: the native catch-ups so far, and
    the rows after each. -/
structure Secondary (E Seg W V Pos : Type) where
  db : E → Option W
  generation : Nat
  states : Nat → E → Option W
  secondaryEpoch : Nat
  lastCatchup : Nat
  stateLock : Option (Who × Stage)
  snapshots : Nat → Option RocksDBSnapshot
  activeSnapshots : Finset Nat
  points : Nat → Option (PointRead E Seg)
  scans : Nat → Option (RocksDBScan E Seg W V Pos)
  log : List (Event E Seg V)

/-- One atomic act. `missing` says that the native call hit a file the primary compacted away. -/
inductive Act (E Seg W : Type) where
  | beginSnapshot (id : Nat)
  | forceCatchUp
  | viewLost (who : Who)
  | decide (now : Nat)
  | tryCatchUpWithPrimary (rows : E → Option W)
  | stamp (now : Nat)
  | bump
  | leave
  | closeSnapshot (id : Nat)
  | untrackSnapshot (id : Nat)
  | read (id snapshot : Nat) (key : List Seg) (want : Want)
  | requireActive (id : Nat)
  | getRaw (id : Nat) (missing : Bool)
  | scan (id snapshot : Nat) (options : StorageScanOptions E Seg) (needValues : Bool)
  | scanRequireActive (id : Nat)
  | iterator (id : Nat) (missing : Bool)
  | seek (id : Nat) (missing : Bool)
  | nextBatch (id : Nat) (missing : Bool)
  | row (id : Nat)

variable {E Seg W V : Type} {it : Iterators E W}

/-! ## Scans -/

/-- The encoded start bound of a scan; `none` where encoding it raises. -/
def startBound (codec : Codec E Seg W V) (options : StorageScanOptions E Seg) :
    Option (Option E) :=
  match options.startEncoded, options.start with
  | some start, _ => some (some start)
  | none, some (seg :: segs) => (codec.encodeKey (seg :: segs)).map some
  | none, _ => some none

/-- The size of the first batch. -/
def firstBatch (options : StorageScanOptions E Seg) : Nat :=
  match options.limit with
  | none => batchFirst
  | some limit => (max 1 (min (batchFirst : Int) limit)).toNat

/-- A scan after a turn, and its reply if it gave one. -/
abbrev Turned (E Seg W V Pos : Type) := RocksDBScan E Seg W V Pos × Option (Reply Seg V)

namespace RocksDBScan

/-- A scan before its first turn. -/
def begun (it : Iterators E W) (snapshot : Nat) (options : StorageScanOptions E Seg)
    (needValues : Bool) : RocksDBScan E Seg W V it.Pos :=
  ⟨snapshot, options, needValues, none, 0, 0, [], .started⟩

/-- A scan over; its iterator is closed. -/
def ended (sc : RocksDBScan E Seg W V it.Pos) : RocksDBScan E Seg W V it.Pos :=
  { sc with state := .done, handle := none }

variable (codec : Codec E Seg W V)

/-- The start bound, once the check has passed. -/
def bounded (sc : RocksDBScan E Seg W V it.Pos) : Turned E Seg W V it.Pos :=
  match startBound codec sc.options with
  | none => (sc.ended, some .raised)
  | some start => ({ sc with state := .checked start }, none)

/-- `_iterator`: a cursor on the rows as they are. -/
def opened (sc : RocksDBScan E Seg W V it.Pos) (rows : E → Option W) (generation : Nat)
    (start : Option E) : Turned E Seg W V it.Pos :=
  ({ sc with
    handle := some ⟨rows, generation, none⟩
    batchSize := firstBatch sc.options
    state := .seeking start }, none)

/-- `_seek`. -/
def sought (sc : RocksDBScan E Seg W V it.Pos) (handle : ScanHandle E W it.Pos)
    (start : Option E) : Turned E Seg W V it.Pos :=
  ({ sc with
    handle := some { handle with pos := some (seekPos it handle.rows sc.options.reverse start) }
    state := .fetching }, none)

/-- `_next_batch`: no rows end the scan. -/
def fetched (sc : RocksDBScan E Seg W V it.Pos) (handle : ScanHandle E W it.Pos) (pos : it.Pos) :
    Turned E Seg W V it.Pos :=
  let batch := it.nextBatch handle.rows sc.options.reverse pos sc.batchSize
  if batch.1 = [] then (sc.ended, some .stop)
  else
    ({ sc with
      handle := some { handle with pos := some batch.2 }
      batchSize := min (sc.batchSize * 4) batchMax
      state := .rows batch.1 }, none)

/-- A row that is yielded. -/
def yielded (sc : RocksDBScan E Seg W V it.Pos) (key : List Seg) (value : Option V)
    (rest : List (E × W)) : Turned E Seg W V it.Pos :=
  ({ sc with
    count := sc.count + 1
    given := sc.given ++ [(key, value)]
    state := .rows rest }, some (.row key value))

/-- One row of the batch, its check passed: the scan ends, seeks on, skips the row or yields it. -/
def row (sc : RocksDBScan E Seg W V it.Pos) (row : E × W) (rest : List (E × W)) :
    Turned E Seg W V it.Pos :=
  match codec.decodeKey row.1 with
  | none => (sc.ended, some .raised)
  | some key =>
    if (sc.options.breakFilter.all fun f => f key) = false then (sc.ended, some .stop)
    else match sc.options.maxDepth.filter fun depth => depth < key.length with
      | some depth =>
        match Lmdb.LMDBStorage.skipBound codec sc.options depth key with
        | none => (sc.ended, some .raised)
        | some bound =>
          ({ sc with batchSize := firstBatch sc.options, state := .seeking (some bound) }, none)
      | none =>
        if (sc.options.filter.all fun f => f key) = false then ({ sc with state := .rows rest }, none)
        else if (sc.options.limit.any fun limit => limit ≤ (sc.count : Int)) = true then
          (sc.ended, some .stop)
        else if sc.needValues = true then
          match codec.decodeValue row.2 with
          | none => (sc.ended, some .raised)
          | some value => sc.yielded key (some value) rest
        else sc.yielded key none rest

/-- What a scan does next when nobody closes its context, no file is missing and every check passes;
    its iterator is opened on given rows. -/
def alone (rows : E → Option W) (generation : Nat) (sc : RocksDBScan E Seg W V it.Pos) :
    Turned E Seg W V it.Pos :=
  match sc.state, sc.handle with
  | .started, _ => sc.bounded codec
  | .checked start, _ => sc.opened rows generation start
  | .seeking start, some handle => sc.sought handle start
  | .fetching, some ⟨view, opened, some pos⟩ => sc.fetched ⟨view, opened, some pos⟩ pos
  | .rows [], _ => ({ sc with state := .fetching }, none)
  | .rows (row :: rest), some _ => sc.row codec row rest
  | _, _ => (sc, none)

end RocksDBScan

namespace Secondary

/-- Open, with nothing begun. -/
def start (db : E → Option W) : Secondary E Seg W V it.Pos :=
  ⟨db, 0, fun _ => db, 0, 0, none, fun _ => none, ∅, fun _ => none, fun _ => none, []⟩

/-! ## Sections under the state lock -/

/-- `_catch_up_if_due`. -/
def due (config : Config) (lastCatchup now : Nat) : Bool :=
  match config.refreshInterval with
  | none => false
  | some interval => decide (interval ≤ now - lastCatchup)

/-- `_catch_up_if_stale`. -/
def stale (config : Config) (lastCatchup now : Nat) : Bool :=
  match config.maxStaleness, config.refreshInterval with
  | some bound, some _ => decide (bound ≤ now - lastCatchup)
  | _, _ => false

/-- Whether `begin_snapshot` catches up. -/
def catchesUp (config : Config) (s : Secondary E Seg W V it.Pos) (now : Nat) : Bool :=
  if s.activeSnapshots = ∅ then due config s.lastCatchup now else stale config s.lastCatchup now

def reply (s : Secondary E Seg W V it.Pos) (snapshot : Nat) (query : Query E Seg V)
    (r : Reply Seg V) : Secondary E Seg W V it.Pos :=
  { s with log := s.log ++ [⟨snapshot, query, r⟩] }

def setPoint (s : Secondary E Seg W V it.Pos) (id : Nat) (p : PointRead E Seg) :
    Secondary E Seg W V it.Pos :=
  { s with points := Function.update s.points id (some p) }

def setScan (s : Secondary E Seg W V it.Pos) (id : Nat) (sc : RocksDBScan E Seg W V it.Pos) :
    Secondary E Seg W V it.Pos :=
  { s with scans := Function.update s.scans id (some sc) }

/-- A point read over, with its reply. -/
def endPoint (s : Secondary E Seg W V it.Pos) (id : Nat) (p : PointRead E Seg) (r : Reply Seg V) :
    Secondary E Seg W V it.Pos :=
  (s.setPoint id { p with state := .done }).reply p.snapshot (.point p.key p.want) r

/-- A scan after a turn, with the reply it gave. -/
def turned (s : Secondary E Seg W V it.Pos) (id : Nat) (sc : RocksDBScan E Seg W V it.Pos) :
    Turned E Seg W V it.Pos → Secondary E Seg W V it.Pos
  | (sc', none) => s.setScan id sc'
  | (sc', some r) =>
    (s.setScan id sc').reply sc.snapshot (.scan sc.options sc.needValues sc.given) r

/-- A scan over, with its last reply. -/
def endScan (s : Secondary E Seg W V it.Pos) (id : Nat) (sc : RocksDBScan E Seg W V it.Pos)
    (r : Reply Seg V) : Secondary E Seg W V it.Pos := s.turned id sc (sc.ended, some r)

/-- The end of a section: a snapshot is registered, or the read that lost its view raises. -/
def leave (s : Secondary E Seg W V it.Pos) (who : Who) : Secondary E Seg W V it.Pos :=
  let s := { s with stateLock := none }
  match who with
  | .begin id =>
    { s with
      snapshots := Function.update s.snapshots id (some ⟨s.secondaryEpoch, false⟩)
      activeSnapshots := insert id s.activeSnapshots }
  | .caller => s
  | .point id =>
    match s.points id with
    | some p => s.endPoint id p .StorageTransactionConflictError
    | none => s
  | .scan id =>
    match s.scans id with
    | some sc => s.endScan id sc .StorageTransactionConflictError
    | none => s

/-- Whether a read waits for the catch-up that follows a missing file. -/
def isLost (s : Secondary E Seg W V it.Pos) : Who → Bool
  | .point id =>
    match s.points id with
    | some ⟨_, _, _, .lost⟩ => true
    | _ => false
  | .scan id =>
    match s.scans id with
    | some ⟨_, _, _, _, _, _, _, .lost⟩ => true
    | _ => false
  | _ => false

/-! ## Reads -/

variable (codec : Codec E Seg W V)

/-- `RocksDBSnapshot._require_active`: what it raises, if it does. -/
def requireActive (s : Secondary E Seg W V it.Pos) (snap : RocksDBSnapshot) :
    Option (Reply Seg V) :=
  if snap.closed = true then some .StorageClosedError
  else if snap.epoch = s.secondaryEpoch then none
  else some .StorageTransactionConflictError

/-- What `get` or `exists` returns of the rows a native read sees. -/
def pointReply (rows : E → Option W) (encodedKey : E) (want : Want) : Reply Seg V :=
  match want with
  | .exists => .bool (rows encodedKey).isSome
  | .get =>
    match rows encodedKey with
    | none => .value none
    | some encodedValue =>
      match codec.decodeValue encodedValue with
      | none => .raised
      | some value => .value (some value)

/-- The check of a point read, and the encoding of its key. -/
def checkPoint (s : Secondary E Seg W V it.Pos) (id : Nat) (p : PointRead E Seg)
    (snap : RocksDBSnapshot) : Secondary E Seg W V it.Pos :=
  match s.requireActive snap with
  | some r => s.endPoint id p r
  | none =>
    match codec.encodeKey p.key with
    | none => s.endPoint id p .raised
    | some encodedKey => s.setPoint id { p with state := .checked encodedKey }

/-- A turn of a scan, on the rows as they are now. -/
def turn (s : Secondary E Seg W V it.Pos) (id : Nat) (sc : RocksDBScan E Seg W V it.Pos) :
    Secondary E Seg W V it.Pos := s.turned id sc (sc.alone codec s.db s.generation)

/-- A turn that a check precedes. -/
def checkedTurn (s : Secondary E Seg W V it.Pos) (id : Nat) (sc : RocksDBScan E Seg W V it.Pos) :
    Secondary E Seg W V it.Pos :=
  match s.snapshots sc.snapshot with
  | some snap =>
    match s.requireActive snap with
    | some r => s.endScan id sc r
    | none => s.turn codec id sc
  | none => s

/-- A turn with a step of the iterator; a closed context has closed it. -/
def iteratorTurn (s : Secondary E Seg W V it.Pos) (id : Nat) (sc : RocksDBScan E Seg W V it.Pos)
    (missing : Bool) : Secondary E Seg W V it.Pos :=
  match s.snapshots sc.snapshot with
  | some snap =>
    if snap.closed = true then s.endScan id sc .StorageClosedError
    else if missing = true then s.setScan id { sc with state := .lost }
    else s.turn codec id sc
  | none => s

/-! ## Steps -/

/-- One act; one that cannot be taken changes nothing. -/
def step (config : Config) (s : Secondary E Seg W V it.Pos) :
    Act E Seg W → Secondary E Seg W V it.Pos
  | .beginSnapshot id =>
    match s.stateLock, s.snapshots id with
    | none, none => { s with stateLock := some (.begin id, .entered) }
    | _, _ => s
  | .forceCatchUp =>
    match s.stateLock with
    | none => { s with stateLock := some (.caller, .catching) }
    | some _ => s
  | .viewLost who =>
    match s.stateLock with
    | none => if s.isLost who = true then { s with stateLock := some (who, .catching) } else s
    | some _ => s
  | .decide now =>
    match s.stateLock with
    | some (who, .entered) =>
      { s with
        stateLock := some (who, if s.catchesUp config now = true then .catching else .ready) }
    | _ => s
  | .tryCatchUpWithPrimary rows =>
    match s.stateLock with
    | some (who, .catching) =>
      { s with
        db := rows
        generation := s.generation + 1
        states := Function.update s.states (s.generation + 1) rows
        stateLock := some (who, .native) }
    | _ => s
  | .stamp now =>
    match s.stateLock with
    | some (who, .native) => { s with lastCatchup := now, stateLock := some (who, .stamped) }
    | _ => s
  | .bump =>
    match s.stateLock with
    | some (who, .stamped) =>
      { s with secondaryEpoch := s.secondaryEpoch + 1, stateLock := some (who, .ready) }
    | _ => s
  | .leave =>
    match s.stateLock with
    | some (who, .ready) => s.leave who
    | _ => s
  | .closeSnapshot id =>
    match s.snapshots id with
    | some snap =>
      { s with snapshots := Function.update s.snapshots id (some { snap with closed := true }) }
    | none => s
  | .untrackSnapshot id =>
    match s.stateLock, s.snapshots id with
    | none, some ⟨_, true⟩ => { s with activeSnapshots := s.activeSnapshots.erase id }
    | _, _ => s
  | .read id snapshot key want =>
    match s.points id, s.snapshots snapshot with
    | none, some _ => s.setPoint id ⟨snapshot, key, want, .started⟩
    | _, _ => s
  | .requireActive id =>
    match s.points id with
    | some p =>
      match p.state, s.snapshots p.snapshot with
      | .started, some snap => s.checkPoint codec id p snap
      | _, _ => s
    | none => s
  | .getRaw id missing =>
    match s.points id with
    | some p =>
      match p.state with
      | .checked encodedKey =>
        if missing = true then s.setPoint id { p with state := .lost }
        else s.endPoint id p (pointReply codec s.db encodedKey p.want)
      | _ => s
    | none => s
  | .scan id snapshot options needValues =>
    match s.scans id, s.snapshots snapshot with
    | none, some _ => s.setScan id (.begun it snapshot options needValues)
    | _, _ => s
  | .scanRequireActive id =>
    match s.scans id with
    | some sc =>
      match sc.state with
      | .started => s.checkedTurn codec id sc
      | _ => s
    | none => s
  | .iterator id missing =>
    match s.scans id with
    | some sc =>
      match sc.state with
      | .checked _ =>
        if missing = true then s.setScan id { sc with state := .lost } else s.turn codec id sc
      | _ => s
    | none => s
  | .seek id missing =>
    match s.scans id with
    | some sc =>
      match sc.state with
      | .seeking _ => s.iteratorTurn codec id sc missing
      | _ => s
    | none => s
  | .nextBatch id missing =>
    match s.scans id with
    | some sc =>
      match sc.state with
      | .fetching => s.iteratorTurn codec id sc missing
      | _ => s
    | none => s
  | .row id =>
    match s.scans id with
    | some sc =>
      match sc.state with
      | .rows [] => s.turn codec id sc
      | .rows (_ :: _) => s.checkedTurn codec id sc
      | _ => s
    | none => s

/-- The acts one after the other. -/
def run (config : Config) (s : Secondary E Seg W V it.Pos) (acts : List (Act E Seg W)) :
    Secondary E Seg W V it.Pos :=
  acts.foldl (step codec config) s

/-! ## Where a view tears -/

/-- A catch-up is between its native call and its epoch. -/
def catchingUp (s : Secondary E Seg W V it.Pos) : Bool :=
  match s.stateLock with
  | some (_, .native) => true
  | some (_, .stamped) => true
  | _ => false

/-- The native read of a checked point read comes after the native call of a catch-up that its
    snapshot does not know. -/
def tornPoint (s : Secondary E Seg W V it.Pos) (id : Nat) : Bool :=
  match s.points id with
  | some p =>
    match s.snapshots p.snapshot with
    | some snap => decide (snap.epoch ≠ s.secondaryEpoch) || s.catchingUp
    | none => false
  | none => false

/-- A row passes its check before the epoch of a catch-up after whose native call its iterator was
    opened. -/
def tornRow (s : Secondary E Seg W V it.Pos) (id : Nat) : Bool :=
  match s.scans id with
  | some sc =>
    match sc.state, sc.handle, s.snapshots sc.snapshot with
    | .rows (_ :: _), some handle, some snap =>
      s.catchingUp && decide (snap.epoch = s.secondaryEpoch) &&
        decide (handle.generation ≠ s.secondaryEpoch)
    | _, _, _ => false
  | none => false

/-- The iterator of a scan, opened after the native call of a catch-up that its snapshot does not
    know, has no row left. -/
def tornEnd (s : Secondary E Seg W V it.Pos) (id : Nat) : Bool :=
  match s.scans id with
  | some sc =>
    match sc.state, sc.handle, s.snapshots sc.snapshot with
    | .fetching, some ⟨rows, generation, some pos⟩, some snap =>
      !snap.closed && decide (generation ≠ snap.epoch) &&
        (it.nextBatch rows sc.options.reverse pos sc.batchSize).1.isEmpty
    | _, _, _ => false
  | none => false

/-- The acts that can tear a view. -/
def torn (s : Secondary E Seg W V it.Pos) : Act E Seg W → Bool
  | .getRaw id false => s.tornPoint id
  | .nextBatch id false => s.tornEnd id
  | .row id => s.tornRow id
  | _ => false

/-- No act of the run tears a view. -/
def untorn (config : Config) (s : Secondary E Seg W V it.Pos) : List (Act E Seg W) → Bool
  | [] => true
  | act :: acts => !s.torn act && untorn config (s.step codec config act) acts

end Secondary

end Virtuals.Rocksdb
