/-
  The end of one `SQLiteTransaction` (`storages/sqlite/context.py`, `transaction.py`), as a step
  function.

  Three parties can end it: its owner, by `commit` and `abort`; the `abort` of the storage's `close`,
  on another thread; and `__del__`, once the owner dropped it. A step carries one party over one
  guarded section, or over one read or write of the flags outside it. What SQLite and the storage do
  in a section (`Env`) is free: a statement runs, fails, or is interrupted.
-/
import Virtuals.Sqlite.Context
import Mathlib.Tactic.ByContra
import Mathlib.Tactic.SplitIfs

namespace Virtuals.Sqlite.Ending

/-! ## The connection -/

inductive Sql where
  | COMMIT
  | ROLLBACK
  deriving DecidableEq

/-- How a statement ended. -/
inductive Outcome where
  | ran
  /-- `sqlite3.Error`: whether SQLite was busy, and whether it left the transaction -/
  | error (busy left : Bool)
  /-- an interrupt before the statement, or after it -/
  | interruptedBefore
  | interruptedAfter
  deriving DecidableEq

/-- What SQLite and the storage do in a section. -/
structure Env where
  statement : Outcome
  /-- whether the ROLLBACK of a release runs -/
  rollback : Bool
  /-- whether the storage is open with room in its pool -/
  room : Bool
  /-- whether this process is a fork of the one that opened the storage -/
  forked : Bool

/-- The transaction of the connection, as SQLite has it. -/
structure Database where
  inTransaction : Bool
  /-- whether its COMMIT took effect -/
  applied : Bool
  deriving DecidableEq

/-- `conn.execute`: a failed COMMIT applies nothing. -/
def Database.execute (d : Database) (sql : Sql) : Outcome → Database
  | .ran | .interruptedAfter => match sql with
    | .COMMIT => ⟨false, true⟩
    | .ROLLBACK => { d with inTransaction := false }
  | .error _ left => { d with inTransaction := d.inTransaction && !left }
  | .interruptedBefore => d

/-- Where a connection that was given back went. -/
inductive Fate where
  | pooled
  | shut
  | parked
  deriving DecidableEq

/-! ## The transaction -/

/-- The fields of `SQLiteTransaction` that its end is about. -/
structure Transaction (Conn Lock : Type) where
  conn : Option Conn
  holdsWriteLock : Bool
  writerLock : Option Lock
  closed : Bool
  committed : Bool
  aborted : Bool

/-- What `_end` hands back: what it returned, or how it raised. -/
inductive Ended where
  | ran (ran : Option Bool)
  | failed (busy : Bool)
  | interrupted
  deriving DecidableEq

/-- Where an `abort` is. -/
inductive AbortPlace where
  | entered
  /-- `_closed` was read as false -/
  | ending
  | ended (how : Ended)
  /-- about to untrack the transaction -/
  | leaving (how : Ended)
  | done (how : Ended)
  deriving DecidableEq

/-- Where a `commit` is. -/
inductive CommitPlace where
  | entered
  /-- the flags were read as false -/
  | checked
  /-- `_require_active` passed -/
  | ending
  | ended (how : Ended) (deferred : Bool)
  /-- `_aborted` is set; about to untrack the transaction and raise -/
  | failing (how : Ended) (deferred : Bool)
  /-- `_committed` is set; about to hand the keys to the publisher -/
  | notifying (deferred : Bool)
  | leaving (deferred : Bool)
  deriving DecidableEq

/-- Where the owner is. -/
inductive OwnerPlace where
  | idle
  | committing (p : CommitPlace)
  | aborting (p : AbortPlace)
  /-- no longer holds the transaction -/
  | dropped
  deriving DecidableEq

/-- Where the finalizer is. -/
inductive FinalPlace where
  | waiting
  /-- `_closed` was read as false -/
  | unended
  /-- `_aborted` is set; about to enter `_finalize` -/
  | marked
  | done
  deriving DecidableEq

/-- What a call of the owner came to. -/
inductive Report where
  | committed
  | abortReturned
  | StorageClosedError
  | StorageLockTimeoutError
  | StorageTransactionError
  | StorageTransactionAbortedError
  | interrupted
  deriving DecidableEq

/-- The transaction, who is ending it, and what was given back. -/
structure System (Conn Lock : Type) where
  txn : Transaction Conn Lock
  db : Database
  /-- whether the storage's active set has it -/
  tracked : Bool
  given : List (Conn × Fate)
  /-- the calls of `_release_write_slot` -/
  slots : List (Option Lock)
  /-- the hand-overs of the modified keys to the publisher -/
  notified : Nat
  owner : OwnerPlace
  closer : Option AbortPlace
  finalizer : FinalPlace
  reports : List Report

/-- One step of one party. -/
inductive Act where
  | commit
  | abort
  | drop
  | owner (e : Env)
  | close
  | closer (e : Env)
  | finalizer (e : Env)

/-! ## Steps -/

/-- What a failed `commit` raises; a deferred interrupt goes first. -/
def Ended.raised (deferred : Bool) : Ended → Report
  | .ran none => if deferred then .interrupted else .StorageClosedError
  | .ran (some _) => .interrupted
  | .failed busy =>
    if deferred then .interrupted
    else if busy then .StorageLockTimeoutError else .StorageTransactionError
  | .interrupted => .interrupted

theorem Ended.raised_ne (how : Ended) (deferred : Bool) : how.raised deferred ≠ .committed := by
  rcases how with (_ | _) | busy | _
  · cases deferred <;> exact nofun
  · exact nofun
  · cases deferred <;> cases busy <;> exact nofun
  · exact nofun

/-- Whether this `abort` ended the transaction: `rolled_back` keeps its default where `_end` raised. -/
def Ended.rolledBack : Ended → Bool
  | .ran x => x.getD false
  | _ => true

/-- What an `abort` comes to. -/
def Ended.abortReport : Ended → Report
  | .ran _ => .abortReturned
  | .failed _ => .StorageTransactionAbortedError
  | .interrupted => .interrupted

theorem Ended.abortReport_ne (how : Ended) : how.abortReport ≠ .committed := by
  cases how <;> exact nofun

namespace System

variable {Conn Lock : Type}

/-- `BEGIN IMMEDIATE` has run; a storage closed meanwhile does not track the transaction. -/
def start (conn : Conn) (lock : Lock) (tracked : Bool) : System Conn Lock where
  txn := ⟨some conn, true, some lock, false, false, false⟩
  db := ⟨true, false⟩
  tracked := tracked
  given := []
  slots := []
  notified := 0
  owner := .idle
  closer := none
  finalizer := .waiting
  reports := []

/-- `_release_connection`: rolled back and pooled, or closed. -/
def releaseConnection (s : System Conn Lock) (conn : Conn) (e : Env) : System Conn Lock :=
  let fate : Fate :=
    if s.db.inTransaction && !e.rollback then .shut else if e.room then .pooled else .shut
  { s with db := { s.db with inTransaction := false }, given := s.given ++ [(conn, fate)] }

/-- The fields are taken out of the context, which is closed. -/
def take (s : System Conn Lock) : System Conn Lock :=
  { s with
    txn := { s.txn with conn := none, holdsWriteLock := false, writerLock := none, closed := true } }

/-- The slot is released where the context held it. -/
def releaseHeld (s : System Conn Lock) (holds : Bool) (lock : Option Lock) : System Conn Lock :=
  if holds then { s with slots := s.slots ++ [lock] } else s

/-- What `_end` hands back after a statement, and whether it deferred an interrupt. -/
def handBack (d : Database) (deferring : Bool) : Outcome → Ended × Bool
  | .ran => (.ran (some true), false)
  | .error busy _ => (.failed busy, false)
  | .interruptedBefore | .interruptedAfter =>
    if deferring then (.ran (some (!d.inTransaction)), true) else (.interrupted, false)

/-- `_end`, one guarded section. -/
def «end» (s : System Conn Lock) (sql : Sql) (deferring : Bool) (e : Env) :
    System Conn Lock × Ended × Bool :=
  match s.txn.conn with
  | none =>
    (s.take.releaseHeld s.txn.holdsWriteLock s.txn.writerLock, .ran none, false)
  | some conn =>
    let db := s.db.execute sql e.statement
    ((({ s with db := db }.take).releaseConnection conn e).releaseHeld s.txn.holdsWriteLock
        s.txn.writerLock,
      handBack db deferring e.statement)

/-- `_finalize`, one guarded section: the connection is closed, which rolls it back, or parked. -/
def finalize (s : System Conn Lock) (e : Env) : System Conn Lock :=
  let taken := s.take
  let shut := match s.txn.conn with
    | none => taken
    | some conn =>
      { taken with
        db := { s.db with inTransaction := s.db.inTransaction && e.forked }
        given := s.given ++ [(conn, if e.forked then Fate.parked else Fate.shut)] }
  shut.releaseHeld s.txn.holdsWriteLock s.txn.writerLock

def setCommitted (s : System Conn Lock) : System Conn Lock :=
  { s with txn := { s.txn with committed := true } }

def setAborted (s : System Conn Lock) : System Conn Lock :=
  { s with txn := { s.txn with aborted := true } }

/-- `_untrack_transaction`. -/
def untrack (s : System Conn Lock) : System Conn Lock := { s with tracked := false }

/-- The owner's call ends. -/
def report (s : System Conn Lock) (r : Report) : System Conn Lock :=
  { s with owner := .idle, reports := r :: s.reports }

/-- The next step of `commit`. -/
def commitStep (s : System Conn Lock) (e : Env) : CommitPlace → System Conn Lock
  | .entered =>
    if s.txn.closed || s.txn.committed || s.txn.aborted then s.report .StorageClosedError
    else { s with owner := .committing .checked }
  | .checked =>
    if s.txn.closed || s.txn.conn.isNone then s.report .StorageClosedError
    else { s with owner := .committing .ending }
  | .ending =>
    let (s', how, deferred) := s.end .COMMIT true e
    { s' with owner := .committing (.ended how deferred) }
  | .ended how deferred =>
    if how = .ran (some true) then { s.setCommitted with owner := .committing (.notifying deferred) }
    else { s.setAborted with owner := .committing (.failing how deferred) }
  | .failing how deferred => s.untrack.report (how.raised deferred)
  | .notifying deferred =>
    { s with notified := s.notified + 1, owner := .committing (.leaving deferred) }
  | .leaving deferred => s.untrack.report (if deferred then .interrupted else .committed)

/-- The next step of `abort`. -/
def abortStep (s : System Conn Lock) (e : Env) : AbortPlace → System Conn Lock × AbortPlace
  | .entered => if s.txn.closed then (s, .done (.ran none)) else (s, .ending)
  | .ending =>
    let (s', how, _) := s.end .ROLLBACK false e
    (s', .ended how)
  | .ended how => (if how.rolledBack then s.setAborted else s, .leaving how)
  | .leaving how => (s.untrack, .done how)
  | .done how => (s, .done how)

/-- The next step of the owner's call. -/
def ownerStep (s : System Conn Lock) (e : Env) : System Conn Lock :=
  match s.owner with
  | .committing p => s.commitStep e p
  | .aborting p =>
    let (s', p') := s.abortStep e p
    match p' with
    | .done how => s'.report how.abortReport
    | p' => { s' with owner := .aborting p' }
  | _ => s

/-- The next step of the `abort` that `close` calls; an exception out of it is logged. -/
def closerStep (s : System Conn Lock) (e : Env) : System Conn Lock :=
  match s.closer with
  | some p =>
    let (s', p') := s.abortStep e p
    { s' with closer := some p' }
  | none => s

/-- The next step of `__del__`, which waits for the owner to drop the transaction. -/
def finalizerStep (s : System Conn Lock) (e : Env) : System Conn Lock :=
  match s.finalizer with
  | .waiting =>
    if s.owner = .dropped then
      { s with finalizer := if s.txn.closed then .done else .unended }
    else s
  | .unended => { s.setAborted with finalizer := .marked }
  | .marked => { s.finalize e with finalizer := .done }
  | .done => s

/-- One step; a step that is not enabled changes nothing. -/
def step (s : System Conn Lock) : Act → System Conn Lock
  | .commit => if s.owner = .idle then { s with owner := .committing .entered } else s
  | .abort => if s.owner = .idle then { s with owner := .aborting .entered } else s
  | .drop => if s.owner = .idle then { s with owner := .dropped } else s
  | .owner e => s.ownerStep e
  | .close =>
    -- the active set is copied and cleared under the storage's state lock
    if s.tracked then { s with tracked := false, closer := some .entered } else s
  | .closer e => s.closerStep e
  | .finalizer e => s.finalizerStep e

def run (s : System Conn Lock) (acts : List Act) : System Conn Lock := acts.foldl step s

end System

/-! ## Progress -/

/-- Who takes a step. -/
inductive Party where
  | owner
  | closer
  | finalizer
  deriving DecidableEq

/-- Whose step it is; `none` where a call begins. -/
def Act.party : Act → Option Party
  | .owner _ => some .owner
  | .closer _ => some .closer
  | .finalizer _ => some .finalizer
  | .commit | .abort | .drop | .close => none

/-- The steps that are left of a call: no party waits for another. -/
def AbortPlace.left : AbortPlace → Nat
  | .entered => 4
  | .ending => 3
  | .ended _ => 2
  | .leaving _ => 1
  | .done _ => 0

def CommitPlace.left : CommitPlace → Nat
  | .entered => 6
  | .checked => 5
  | .ending => 4
  | .ended _ _ => 3
  | .notifying _ => 2
  | .failing _ _ | .leaving _ => 1

theorem AbortPlace.left_le (p : AbortPlace) : p.left ≤ 4 := by
  cases p <;> simp [AbortPlace.left]

theorem CommitPlace.left_le (p : CommitPlace) : p.left ≤ 6 := by
  cases p <;> simp [CommitPlace.left]

def OwnerPlace.left : OwnerPlace → Nat
  | .idle | .dropped => 0
  | .committing p => p.left
  | .aborting p => p.left + 1

def FinalPlace.left : FinalPlace → Nat
  | .waiting => 3
  | .unended => 2
  | .marked => 1
  | .done => 0

/-- The turns in which a party ends what it began. -/
def Party.turns : Party → Nat
  | .owner => 6
  | .closer => 4
  | .finalizer => 3

namespace System

variable {Conn Lock : Type}

/-- What a party has left to do; the finalizer has nothing while the owner holds the transaction. -/
def left (s : System Conn Lock) : Party → Nat
  | .owner => s.owner.left
  | .closer => s.closer.elim 0 AbortPlace.left
  | .finalizer => if s.owner = .dropped then s.finalizer.left else 0

variable (s : System Conn Lock) (e : Env)

/-- No end of a context moves a party. -/
theorem end_places (sql : Sql) (deferring : Bool) :
    (s.end sql deferring e).1.owner = s.owner ∧ (s.end sql deferring e).1.closer = s.closer ∧
      (s.end sql deferring e).1.finalizer = s.finalizer := by
  unfold System.end
  cases s.txn.conn with
  | none => simp only [releaseHeld]; split_ifs <;> exact ⟨rfl, rfl, rfl⟩
  | some conn => simp only [releaseHeld]; split_ifs <;> exact ⟨rfl, rfl, rfl⟩

theorem finalize_places :
    (s.finalize e).owner = s.owner ∧ (s.finalize e).closer = s.closer := by
  unfold finalize
  cases s.txn.conn with
  | none => simp only [releaseHeld]; split_ifs <;> exact ⟨rfl, rfl⟩
  | some conn => simp only [releaseHeld]; split_ifs <;> exact ⟨rfl, rfl⟩

theorem abortStep_places (p : AbortPlace) :
    (s.abortStep e p).1.owner = s.owner ∧ (s.abortStep e p).1.closer = s.closer ∧
      (s.abortStep e p).1.finalizer = s.finalizer := by
  cases p with
  | entered => simp only [abortStep]; split_ifs <;> exact ⟨rfl, rfl, rfl⟩
  | ending => exact s.end_places e .ROLLBACK false
  | ended how => simp only [abortStep]; split_ifs <;> exact ⟨rfl, rfl, rfl⟩
  | leaving how => exact ⟨rfl, rfl, rfl⟩
  | done how => exact ⟨rfl, rfl, rfl⟩

theorem left_abortStep (p : AbortPlace) : (s.abortStep e p).2.left ≤ p.left - 1 := by
  cases p with
  | entered => simp only [abortStep]; split_ifs <;> simp [AbortPlace.left]
  | ending => exact le_rfl
  | ended how => exact le_rfl
  | leaving how => exact le_rfl
  | done how => exact le_rfl

/-- A step of `commit` moves the owner alone, and brings the call closer to its end. -/
theorem commitStep_places (p : CommitPlace) :
    (s.commitStep e p).owner ≠ .dropped ∧ (s.commitStep e p).closer = s.closer ∧
      (s.commitStep e p).finalizer = s.finalizer ∧
      (s.commitStep e p).owner.left ≤ p.left - 1 := by
  cases p with
  | entered =>
    simp only [commitStep]
    split_ifs <;> simp [report, OwnerPlace.left, CommitPlace.left]
  | checked =>
    simp only [commitStep]
    split_ifs <;> simp [report, OwnerPlace.left, CommitPlace.left]
  | ending =>
    obtain ⟨-, hcloser, hfinalizer⟩ := s.end_places e .COMMIT true
    exact ⟨nofun, hcloser, hfinalizer, le_rfl⟩
  | ended how d =>
    simp only [commitStep]
    split_ifs <;> simp [OwnerPlace.left, CommitPlace.left, setCommitted, setAborted]
  | failing how d => exact ⟨nofun, rfl, rfl, le_rfl⟩
  | notifying d => exact ⟨nofun, rfl, rfl, le_rfl⟩
  | leaving d => exact ⟨nofun, rfl, rfl, le_rfl⟩

/-- Each step of the owner brings its call closer to the end. -/
theorem ownerStep_places :
    ((s.ownerStep e).owner = .dropped ↔ s.owner = .dropped) ∧
      (s.ownerStep e).closer = s.closer ∧ (s.ownerStep e).finalizer = s.finalizer ∧
      (s.ownerStep e).owner.left ≤ s.owner.left - 1 := by
  cases howner : s.owner with
  | idle => simp [ownerStep, howner, OwnerPlace.left]
  | dropped => simp [ownerStep, howner, OwnerPlace.left]
  | committing p =>
    obtain ⟨hdropped, hcloser, hfinalizer, hleft⟩ := s.commitStep_places e p
    simp only [ownerStep, howner]
    exact ⟨iff_of_false hdropped nofun, hcloser, hfinalizer, hleft⟩
  | aborting p =>
    obtain ⟨-, hcloser, hfinalizer⟩ := s.abortStep_places e p
    have hleft := s.left_abortStep e p
    simp only [ownerStep, howner]
    cases hp' : (s.abortStep e p).2 with
    | done how => exact ⟨iff_of_false nofun nofun, hcloser, hfinalizer, Nat.zero_le _⟩
    | _ =>
      refine ⟨iff_of_false nofun nofun, hcloser, hfinalizer, ?_⟩
      rw [hp'] at hleft
      simp only [AbortPlace.left] at hleft
      simp only [OwnerPlace.left, AbortPlace.left]
      omega

theorem closerStep_places :
    (s.closerStep e).owner = s.owner ∧ (s.closerStep e).finalizer = s.finalizer ∧
      (s.closerStep e).closer.elim 0 AbortPlace.left ≤ s.closer.elim 0 AbortPlace.left - 1 := by
  unfold closerStep
  cases hp : s.closer with
  | none => exact ⟨rfl, rfl, by rw [hp]; exact le_rfl⟩
  | some p =>
    obtain ⟨howner, -, hfinalizer⟩ := s.abortStep_places e p
    exact ⟨howner, hfinalizer, s.left_abortStep e p⟩

/-- The finalizer runs to its end once the owner dropped the transaction. -/
theorem finalizerStep_places :
    (s.finalizerStep e).owner = s.owner ∧ (s.finalizerStep e).closer = s.closer ∧
      (s.owner = .dropped → (s.finalizerStep e).finalizer.left ≤ s.finalizer.left - 1) := by
  unfold finalizerStep
  cases hf : s.finalizer with
  | waiting =>
    dsimp only
    split_ifs with hdropped hclosed
    · exact ⟨rfl, rfl, fun _ => Nat.zero_le _⟩
    · exact ⟨rfl, rfl, fun _ => le_rfl⟩
    · exact ⟨rfl, rfl, fun h => absurd h hdropped⟩
  | unended => exact ⟨rfl, rfl, fun _ => le_rfl⟩
  | marked =>
    obtain ⟨howner, hcloser⟩ := s.finalize_places e
    exact ⟨howner, hcloser, fun _ => le_rfl⟩
  | done => exact ⟨rfl, rfl, fun _ => by rw [hf]; exact Nat.zero_le _⟩

theorem left_le (p : Party) : s.left p ≤ p.turns := by
  cases p with
  | owner =>
    show s.owner.left ≤ 6
    cases s.owner with
    | committing p => exact p.left_le
    | aborting p => exact (Nat.succ_le_succ p.left_le).trans (by decide)
    | idle => exact Nat.zero_le _
    | dropped => exact Nat.zero_le _
  | closer =>
    show s.closer.elim 0 AbortPlace.left ≤ 4
    cases s.closer with
    | none => exact Nat.zero_le _
    | some p => exact p.left_le
  | finalizer =>
    show (if s.owner = .dropped then s.finalizer.left else 0) ≤ 3
    split_ifs
    · cases s.finalizer <;> decide
    · exact Nat.zero_le _

/-- A turn of a party takes one step off what it has left, and adds nothing to the others. -/
theorem left_step {a : Act} {q : Party} (ha : a.party = some q) (p : Party) :
    (s.step a).left p ≤ s.left p - if q = p then 1 else 0 := by
  cases a with
  | owner e =>
    obtain rfl := Option.some.inj ha
    obtain ⟨hdropped, hcloser, hfinalizer, hleft⟩ := s.ownerStep_places e
    cases p with
    | owner => exact hleft
    | closer => simp [left, step, hcloser]
    | finalizer => simp [left, step, hdropped, hfinalizer]
  | closer e =>
    obtain rfl := Option.some.inj ha
    obtain ⟨howner, hfinalizer, hleft⟩ := s.closerStep_places e
    cases p with
    | owner => simp [left, step, howner]
    | closer => exact hleft
    | finalizer => simp [left, step, howner, hfinalizer]
  | finalizer e =>
    obtain rfl := Option.some.inj ha
    obtain ⟨howner, hcloser, hleft⟩ := s.finalizerStep_places e
    cases p with
    | owner => simp [left, step, howner]
    | closer => simp [left, step, hcloser]
    | finalizer =>
      simp only [left, step, howner, if_true]
      split_ifs with hdropped
      · exact hleft hdropped
      · exact Nat.zero_le _
  | commit => exact absurd ha nofun
  | abort => exact absurd ha nofun
  | drop => exact absurd ha nofun
  | close => exact absurd ha nofun

/-- However the turns of the parties are mixed, each has as many steps fewer left. -/
theorem left_run {acts : List Act} (hcalls : ∀ a ∈ acts, a.party ≠ none) (p : Party) :
    (s.run acts).left p ≤ s.left p - acts.countP (·.party = some p) := by
  induction acts generalizing s with
  | nil => exact le_rfl
  | cons a rest ih =>
    obtain ⟨q, hq⟩ := Option.ne_none_iff_exists'.1 (hcalls a List.mem_cons_self)
    have hrest := ih (s.step a) fun b hb => hcalls b (List.mem_cons_of_mem a hb)
    have hstep := s.left_step hq p
    have hcount : (a :: rest).countP (·.party = some p) =
        rest.countP (·.party = some p) + if q = p then 1 else 0 := by
      rw [List.countP_cons, hq]
      simp only [Option.some.injEq, decide_eq_true_eq]
    rw [hcount]
    exact hrest.trans (by omega)

end System

/-! ## One call alone -/

/-- A statement as the whole calls of `Sqlite.Context` take it. -/
def Outcome.toStatement : Outcome → Option Statement
  | .ran => some .run
  | .error busy _ => some (if busy then .busy else .error)
  | .interruptedBefore | .interruptedAfter => none

namespace System

variable {Conn Lock E Seg W : Type}

/-- The flags are those of the whole call. -/
structure Agrees (s : System Conn Lock) (t : SQLiteTransaction E Seg W) : Prop where
  closed : s.txn.closed = t.closed
  committed : s.txn.committed = t.committed
  aborted : s.txn.aborted = t.aborted

variable [DecidableEq Seg]

/-- The sections of `commit`, with no other party in between, set the flags as the whole call
    does. -/
theorem commit_alone (conn : Conn) (lock : Lock) (tracked : Bool) (data : E → Option W) (e : Env)
    {statement : Statement} (he : e.statement.toStatement = some statement) :
    ((start conn lock tracked).run (.commit :: List.replicate Party.owner.turns (.owner e))).Agrees
      (SQLiteTransaction.commit (SQLiteTransaction.begin data : TransactionStorage E Seg W)
        statement).1.context := by
  obtain ⟨how, rollback, room, forked⟩ := e
  cases how with
  | ran =>
    obtain rfl := Option.some.inj he
    exact ⟨rfl, rfl, rfl⟩
  | error busy left =>
    obtain rfl := Option.some.inj he
    cases busy <;> exact ⟨rfl, rfl, rfl⟩
  | interruptedBefore => exact absurd he nofun
  | interruptedAfter => exact absurd he nofun

omit [DecidableEq Seg] in
/-- So do those of `abort`. -/
theorem abort_alone (conn : Conn) (lock : Lock) (tracked : Bool) (data : E → Option W) (e : Env)
    {statement : Statement} (he : e.statement.toStatement = some statement) :
    ((start conn lock tracked).run (.abort :: List.replicate Party.owner.turns (.owner e))).Agrees
      (SQLiteTransaction.abort (SQLiteTransaction.begin data : TransactionStorage E Seg W)
        statement).1.context := by
  obtain ⟨how, rollback, room, forked⟩ := e
  cases how with
  | ran =>
    obtain rfl := Option.some.inj he
    exact ⟨rfl, rfl, rfl⟩
  | error busy left =>
    obtain rfl := Option.some.inj he
    exact ⟨rfl, rfl, rfl⟩
  | interruptedBefore => exact absurd he nofun
  | interruptedAfter => exact absurd he nofun

end System

end Virtuals.Sqlite.Ending
