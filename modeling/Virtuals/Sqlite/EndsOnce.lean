/-
  A `SQLiteTransaction` ends once, whoever ends it.

  Before the first end the context has its connection and its slot (`Live`); after it, each was given
  back once (`Over`). The flags follow: what COMMIT did is read off by the party that ran it, and a
  party that finds the connection gone marks nothing that contradicts it (`Inv`).
-/
import Virtuals.Sqlite.Ending

namespace Virtuals.Sqlite.Ending

namespace System

variable {Conn Lock : Type}

/-! ## What is given back -/

variable {conn : Conn} {lock : Lock} {s : System Conn Lock}

/-- Nobody ended the transaction: the context has its connection and its slot. -/
structure Live (conn : Conn) (lock : Lock) (s : System Conn Lock) : Prop where
  conn_eq : s.txn.conn = some conn
  holds : s.txn.holdsWriteLock = true
  writerLock : s.txn.writerLock = some lock
  closed : s.txn.closed = false
  db : s.db = ⟨true, false⟩
  given : s.given = []
  slots : s.slots = []

/-- Somebody ended it: the connection was given back once, and the slot once. -/
structure Over (conn : Conn) (lock : Lock) (s : System Conn Lock) : Prop where
  conn_eq : s.txn.conn = none
  holds : s.txn.holdsWriteLock = false
  writerLock : s.txn.writerLock = none
  closed : s.txn.closed = true
  given : s.given.map Prod.fst = [conn]
  slots : s.slots = [some lock]

/-- What no end of a context touches. -/
structure Apart (s s' : System Conn Lock) : Prop where
  committed : s'.txn.committed = s.txn.committed
  aborted : s'.txn.aborted = s.txn.aborted
  tracked : s'.tracked = s.tracked
  owner : s'.owner = s.owner
  closer : s'.closer = s.closer
  finalizer : s'.finalizer = s.finalizer
  reports : s'.reports = s.reports

/-- To end what is over does nothing. -/
theorem Over.take_eq (h : s.Over conn lock) : s.take = s := by
  obtain ⟨txn, db, tracked, given, slots, notified, owner, closer, finalizer, reports⟩ := s
  obtain ⟨conn', holds, writerLock, closed, committed, aborted⟩ := txn
  obtain ⟨h₁, h₂, h₃, h₄, -, -⟩ := h
  simp only at h₁ h₂ h₃ h₄
  subst h₁ h₂ h₃ h₄
  rfl

theorem Over.end_eq (h : s.Over conn lock) (sql : Sql) (deferring : Bool) (e : Env) :
    s.end sql deferring e = (s, .ran none, false) := by
  simp only [System.end, h.conn_eq, h.holds, releaseHeld, h.take_eq]
  rfl

theorem Over.finalize_eq (h : s.Over conn lock) (e : Env) : s.finalize e = s := by
  simp only [finalize, h.conn_eq, h.holds, releaseHeld, h.take_eq]
  rfl

/-- The end of a live transaction, by either statement: both are given back, whatever came of the
    statement. -/
theorem Live.end_over (h : s.Live conn lock) (sql : Sql) (deferring : Bool) (e : Env) :
    (s.end sql deferring e).1.Over conn lock ∧ Apart s (s.end sql deferring e).1 := by
  simp only [System.end, h.conn_eq, h.holds, h.writerLock, releaseHeld, releaseConnection, if_true]
  constructor
  · constructor <;> simp [take, h.given, h.slots]
  · constructor <;> rfl

theorem Live.finalize_over (h : s.Live conn lock) (e : Env) :
    (s.finalize e).Over conn lock ∧ Apart s (s.finalize e) := by
  simp only [finalize, h.conn_eq, h.holds, h.writerLock, releaseHeld, if_true]
  constructor
  · constructor <;> simp [take, h.given, h.slots]
  · constructor <;> rfl

/-- The COMMIT took effect exactly where `_end` says that it ran. -/
theorem Live.end_commit (h : s.Live conn lock) (e : Env) :
    (s.end .COMMIT true e).1.db.applied = true ↔
      (s.end .COMMIT true e).2.1 = .ran (some true) := by
  simp only [System.end, h.conn_eq, h.holds, releaseHeld, releaseConnection, h.db, if_true]
  cases e.statement <;> simp [Database.execute, handBack, take]

/-- A ROLLBACK applies nothing, and the `abort` that took the connection says so. -/
theorem Live.end_rollback (h : s.Live conn lock) (e : Env) :
    (s.end .ROLLBACK false e).1.db.applied = false ∧
      (s.end .ROLLBACK false e).2.1.rolledBack = true := by
  simp only [System.end, h.conn_eq, h.holds, releaseHeld, releaseConnection, h.db, if_true]
  cases e.statement <;> exact ⟨rfl, rfl⟩

theorem Live.finalize_applied (h : s.Live conn lock) (e : Env) :
    (s.finalize e).db.applied = false := by
  simp only [finalize, h.conn_eq, h.holds, releaseHeld, h.db]
  rfl

/-! ## The invariant -/

/-- What a step leaves of the connection and the slot. -/
structure Kept (s s' : System Conn Lock) : Prop where
  conn : s'.txn.conn = s.txn.conn
  holds : s'.txn.holdsWriteLock = s.txn.holdsWriteLock
  writerLock : s'.txn.writerLock = s.txn.writerLock
  closed : s'.txn.closed = s.txn.closed
  db : s'.db = s.db
  given : s'.given = s.given
  slots : s'.slots = s.slots

/-- Some party ended the transaction, or found it ended, and will set a flag. -/
def Marking (s : System Conn Lock) : Prop :=
  (∃ how d, s.owner = .committing (.ended how d)) ∨
  (∃ how, s.owner = .aborting (.ended how) ∧ how.rolledBack = true) ∨
  (∃ how, s.closer = some (.ended how) ∧ how.rolledBack = true) ∨ s.finalizer = .unended

/-- What an `abort` knows at its place. -/
def AbortOk (s : System Conn Lock) : AbortPlace → Prop
  | .entered | .ending => True
  | .ended how => s.txn.closed = true ∧ (how.rolledBack = true → s.db.applied = false)
  | .leaving _ | .done _ => s.txn.closed = true

/-- What a `commit` knows at its place. -/
def CommitOk (s : System Conn Lock) : CommitPlace → Prop
  | .entered => True
  | .checked | .ending => s.db.applied = false
  | .ended how _ => s.txn.closed = true ∧ (s.db.applied = true ↔ how = .ran (some true))
  | .failing _ _ => s.txn.closed = true
  | .notifying _ | .leaving _ => s.txn.closed = true ∧ s.txn.committed = true

def OwnerOk (s : System Conn Lock) : OwnerPlace → Prop
  | .committing p => s.CommitOk p
  | .aborting p => s.AbortOk p
  | .idle | .dropped => True

def FinalOk (s : System Conn Lock) : FinalPlace → Prop
  | .waiting => True
  | .unended => s.owner = .dropped ∧ s.db.applied = false
  | .marked => s.owner = .dropped ∧ s.db.applied = false ∧ s.txn.aborted = true
  | .done => s.owner = .dropped ∧ s.txn.closed = true

/-- What holds in every state of a run. -/
structure Inv (conn : Conn) (lock : Lock) (s : System Conn Lock) : Prop where
  phase : s.Live conn lock ∨ s.Over conn lock
  committed : s.txn.committed = true → s.db.applied = true
  aborted : s.txn.aborted = true → s.db.applied = false
  applied : s.db.applied = true → s.txn.closed = true ∧
    (s.txn.committed = true ∨ ∃ d, s.owner = .committing (.ended (.ran (some true)) d))
  undone : s.txn.closed = true → s.db.applied = false → s.txn.aborted = true ∨ s.Marking
  early : s.txn.closed = false → s.txn.aborted = true → s.finalizer = .marked
  owner : s.OwnerOk s.owner
  closer : ∀ p, s.closer = some p → s.AbortOk p
  finalizer : s.FinalOk s.finalizer
  reports : s.reports ≠ [] → s.txn.closed = true
  told : .committed ∈ s.reports → s.txn.committed = true
  tracked : s.tracked = true → s.closer = none

theorem inv_start (conn : Conn) (lock : Lock) (tracked : Bool) :
    (start conn lock tracked).Inv conn lock := by
  constructor <;> simp [start, OwnerOk, FinalOk]
  exact .inl ⟨rfl, rfl, rfl, rfl, rfl, rfl, rfl⟩

theorem phase_kept {s' : System Conn Lock} (h : s.Live conn lock ∨ s.Over conn lock)
    (hk : Kept s s') : s'.Live conn lock ∨ s'.Over conn lock := by
  obtain ⟨h₁, h₂, h₃, h₄, h₅, h₆, h₇⟩ := hk
  rcases h with ⟨g₁, g₂, g₃, g₄, g₅, g₆, g₇⟩ | ⟨g₁, g₂, g₃, g₄, g₆, g₇⟩
  · exact .inl ⟨h₁ ▸ g₁, h₂ ▸ g₂, h₃ ▸ g₃, h₄ ▸ g₄, h₅ ▸ g₅, h₆ ▸ g₆, h₇ ▸ g₇⟩
  · exact .inr ⟨h₁ ▸ g₁, h₂ ▸ g₂, h₃ ▸ g₃, h₄ ▸ g₄, h₆ ▸ g₆, h₇ ▸ g₇⟩

/-- The owner, whose place no longer matters to the flags, moves on. -/
theorem Inv.setOwner (h : s.Inv conn lock) {q : OwnerPlace} (hwaiting : s.finalizer = .waiting)
    (hq : s.OwnerOk q) (happlied : s.db.applied = true → s.txn.committed = true)
    (hundone : s.txn.closed = true → s.db.applied = false → s.txn.aborted = true ∨
      ∃ how, s.closer = some (.ended how) ∧ how.rolledBack = true) :
    ({ s with owner := q } : System Conn Lock).Inv conn lock :=
  { h with
    phase := phase_kept h.phase ⟨rfl, rfl, rfl, rfl, rfl, rfl, rfl⟩
    applied := fun hd => ⟨(h.applied hd).1, .inl (happlied hd)⟩
    undone := fun hc hd => (hundone hc hd).imp_right fun hm => .inr (.inr (.inl hm))
    owner := hq
    finalizer := by simp only [hwaiting, FinalOk] }

/-- The closer, whose place no longer matters to the flags, moves on. -/
theorem Inv.setCloser (h : s.Inv conn lock) {p q : AbortPlace} (hp : s.closer = some p)
    (hq : s.AbortOk q)
    (hundone : ∀ how, s.closer = some (.ended how) → how.rolledBack = true →
      s.txn.aborted = true) :
    ({ s with closer := some q } : System Conn Lock).Inv conn lock :=
  { h with
    phase := phase_kept h.phase ⟨rfl, rfl, rfl, rfl, rfl, rfl, rfl⟩
    undone := fun hc hd => by
      rcases h.undone hc hd with ha | hm | hm | ⟨how, hm, hr⟩ | hm
      · exact .inl ha
      · exact .inr (.inl hm)
      · exact .inr (.inr (.inl hm))
      · exact .inl (hundone how hm hr)
      · exact .inr (.inr (.inr (.inr hm)))
    closer := fun p hp => by
      obtain rfl : q = p := Option.some.inj hp
      exact hq
    tracked := fun ht => absurd (hp.symm.trans (h.tracked ht)) nofun }

theorem finalOk_setAborted {f : FinalPlace} (hf : s.FinalOk f) : s.setAborted.FinalOk f := by
  cases f with
  | waiting => trivial
  | unended => exact hf
  | marked => exact ⟨hf.1, hf.2.1, rfl⟩
  | done => exact hf

/-- A transaction that was rolled back is marked so. -/
theorem Inv.setAborted (h : s.Inv conn lock) (hd : s.db.applied = false)
    (hclosed : s.txn.closed = true) : s.setAborted.Inv conn lock :=
  { h with
    phase := phase_kept h.phase ⟨rfl, rfl, rfl, rfl, rfl, rfl, rfl⟩
    aborted := fun _ => hd
    undone := fun _ _ => .inl rfl
    early := fun hopen => absurd (hclosed.symm.trans hopen) (by decide)
    finalizer := finalOk_setAborted h.finalizer }

/-- A transaction whose COMMIT took effect is marked so by the `commit` that ran it. -/
theorem Inv.setCommitted (h : s.Inv conn lock) (hwaiting : s.finalizer = .waiting)
    (hd : s.db.applied = true) (deferred : Bool) :
    ({ s.setCommitted with owner := .committing (.notifying deferred) } : System Conn Lock).Inv
      conn lock :=
  { h with
    phase := phase_kept h.phase ⟨rfl, rfl, rfl, rfl, rfl, rfl, rfl⟩
    committed := fun _ => hd
    applied := fun hd => ⟨(h.applied hd).1, .inl rfl⟩
    undone := fun _ hnot => absurd (hd.symm.trans hnot) (by decide)
    owner := ⟨(h.applied hd).1, rfl⟩
    finalizer := by simp only [System.setCommitted, hwaiting, FinalOk]
    told := fun _ => rfl }

theorem Inv.untrack (h : s.Inv conn lock) : s.untrack.Inv conn lock :=
  { h with
    phase := phase_kept h.phase ⟨rfl, rfl, rfl, rfl, rfl, rfl, rfl⟩
    tracked := nofun }

theorem Inv.notify (h : s.Inv conn lock) :
    ({ s with notified := s.notified + 1 } : System Conn Lock).Inv conn lock :=
  { h with phase := phase_kept h.phase ⟨rfl, rfl, rfl, rfl, rfl, rfl, rfl⟩ }

/-- The owner's call ends, on a transaction that is over. -/
theorem Inv.report (h : s.Inv conn lock) {r : Report} (hwaiting : s.finalizer = .waiting)
    (hclosed : s.txn.closed = true) (hr : r = .committed → s.txn.committed = true)
    (happlied : s.db.applied = true → s.txn.committed = true)
    (hundone : s.txn.closed = true → s.db.applied = false → s.txn.aborted = true ∨
      ∃ how, s.closer = some (.ended how) ∧ how.rolledBack = true) :
    (s.report r).Inv conn lock :=
  { h.setOwner (q := .idle) hwaiting trivial happlied hundone with
    phase := phase_kept h.phase ⟨rfl, rfl, rfl, rfl, rfl, rfl, rfl⟩
    reports := fun _ => hclosed
    told := fun hm => (List.mem_cons.1 hm).elim (fun he => hr he.symm) h.told }

/-- An owner in a call holds the transaction: the finalizer waits. -/
theorem Inv.waiting (h : s.Inv conn lock) (howner : s.owner ≠ .dropped) :
    s.finalizer = .waiting := by
  have hfinal := h.finalizer
  cases hf : s.finalizer with
  | waiting => rfl
  | unended => exact absurd (hf ▸ hfinal : s.FinalOk .unended).1 howner
  | marked => exact absurd (hf ▸ hfinal : s.FinalOk .marked).1 howner
  | done => exact absurd (hf ▸ hfinal : s.FinalOk .done).1 howner

/-- What the flags are short of, the owner at a place that marks nothing does not owe. -/
theorem Inv.owes (h : s.Inv conn lock) (hwaiting : s.finalizer = .waiting)
    (hcommit : ∀ how d, s.owner ≠ .committing (.ended how d))
    (habort : ∀ how, s.owner = .aborting (.ended how) → how.rolledBack = false) :
    (s.db.applied = true → s.txn.committed = true) ∧
      (s.txn.closed = true → s.db.applied = false → s.txn.aborted = true ∨
        ∃ how, s.closer = some (.ended how) ∧ how.rolledBack = true) := by
  refine ⟨fun hd => ?_, fun hc hd => ?_⟩
  · rcases (h.applied hd).2 with hcommitted | ⟨d, hp⟩
    · exact hcommitted
    · exact absurd hp (hcommit _ d)
  · rcases h.undone hc hd with ha | ⟨how, d, hp⟩ | ⟨how, hp, hr⟩ | hm | hf
    · exact .inl ha
    · exact absurd hp (hcommit how d)
    · exact absurd ((habort how hp).symm.trans hr) (by decide)
    · exact .inr hm
    · exact absurd (hwaiting.symm.trans hf) (by decide)

/-- A context without its connection is closed. -/
theorem Inv.closed_of_conn (h : s.Inv conn lock) (hconn : s.txn.conn = none) :
    s.txn.closed = true := by
  rcases h.phase with hl | ho
  · exact absurd (hl.conn_eq.symm.trans hconn) (by simp)
  · exact ho.closed

/-- An `abort` on a live transaction has not ended it, and knows nothing. -/
theorem abortOk_of_open {p : AbortPlace} (hp : s.AbortOk p) (hopen : s.txn.closed = false)
    (s' : System Conn Lock) : s'.AbortOk p := by
  cases p with
  | entered => trivial
  | ending => trivial
  | ended how => exact absurd (hp.1.symm.trans hopen) (by decide)
  | leaving how => exact absurd (Eq.trans (Eq.symm hp) hopen) (by decide)
  | done how => exact absurd (Eq.trans (Eq.symm hp) hopen) (by decide)

theorem ownerOk_of_open {q : OwnerPlace} (hq : s.OwnerOk q) (hopen : s.txn.closed = false)
    {s' : System Conn Lock} (hd : s'.db.applied = false) : s'.OwnerOk q := by
  cases q with
  | idle => trivial
  | dropped => trivial
  | aborting p => exact abortOk_of_open hq hopen s'
  | committing p =>
    cases p with
    | entered => trivial
    | checked => exact hd
    | ending => exact hd
    | ended how d => exact absurd (hq.1.symm.trans hopen) (by decide)
    | failing how d => exact absurd (Eq.trans (Eq.symm hq) hopen) (by decide)
    | notifying d => exact absurd (hq.1.symm.trans hopen) (by decide)
    | leaving d => exact absurd (hq.1.symm.trans hopen) (by decide)

theorem finalOk_of_open {f : FinalPlace} (hf : s.FinalOk f) (hopen : s.txn.closed = false)
    {s' : System Conn Lock} (howner : s'.owner = s.owner)
    (haborted : s'.txn.aborted = s.txn.aborted) (hd : s'.db.applied = false) : s'.FinalOk f := by
  cases f with
  | waiting => trivial
  | unended => exact ⟨howner.trans hf.1, hd⟩
  | marked => exact ⟨howner.trans hf.1, hd, haborted.trans hf.2.2⟩
  | done => exact absurd (hf.2.symm.trans hopen) (by decide)

/-- A party ends a live transaction: what its flags are short of is up to that party. -/
theorem Inv.of_live (h : s.Inv conn lock) (hl : s.Live conn lock) (s' : System Conn Lock)
    (hover : s'.Over conn lock) (hcommitted : s'.txn.committed = s.txn.committed)
    (hreports : s'.reports = s.reports)
    (haborted : s'.txn.aborted = true → s'.db.applied = false)
    (happlied : s'.db.applied = true → ∃ d, s'.owner = .committing (.ended (.ran (some true)) d))
    (hundone : s'.txn.aborted = true ∨ s'.Marking) (howner : s'.OwnerOk s'.owner)
    (hcloser : ∀ p, s'.closer = some p → s'.AbortOk p) (hfinal : s'.FinalOk s'.finalizer)
    (htracked : s'.tracked = true → s'.closer = none) : s'.Inv conn lock where
  phase := .inr hover
  committed := fun hc => by
    have hlive := h.committed (hcommitted ▸ hc)
    rw [hl.db] at hlive
    exact absurd hlive (by decide)
  aborted := haborted
  applied := fun hd => ⟨hover.closed, .inr (happlied hd)⟩
  undone := fun _ _ => hundone
  early := fun hopen => absurd (hover.closed.symm.trans hopen) (by decide)
  owner := howner
  closer := hcloser
  finalizer := hfinal
  reports := fun _ => hover.closed
  told := fun hm => hcommitted.trans (h.told (hreports ▸ hm))
  tracked := htracked

/-- The owner ends a live transaction. -/
theorem Inv.of_live_owner (h : s.Inv conn lock) (hl : s.Live conn lock)
    (hwaiting : s.finalizer = .waiting) {s' : System Conn Lock} (hover : s'.Over conn lock)
    (hapart : Apart s s') {q : OwnerPlace}
    (happlied : s'.db.applied = true → ∃ d, q = .committing (.ended (.ran (some true)) d))
    (hundone : ({ s' with owner := q } : System Conn Lock).Marking) (hq : s'.OwnerOk q) :
    ({ s' with owner := q } : System Conn Lock).Inv conn lock := by
  refine h.of_live hl { s' with owner := q } ⟨hover.1, hover.2, hover.3, hover.4, hover.5,
    hover.6⟩ hapart.committed hapart.reports (fun ha => ?_) happlied (.inr hundone) hq
    (fun p hp => abortOk_of_open (h.closer p (hapart.closer ▸ hp)) hl.closed _) ?_ 
    fun ht => hapart.closer.trans (h.tracked (hapart.tracked ▸ ht))
  · have hmarked := h.early hl.closed (hapart.aborted ▸ ha)
    exact absurd (hwaiting.symm.trans hmarked) (by decide)
  · simp only [hapart.finalizer, hwaiting, FinalOk]

/-! ## The steps -/

/-- `commit` in its guarded section: it ends the transaction, or finds it ended. -/
theorem inv_commit_end (h : s.Inv conn lock) (e : Env) (hp : s.owner = .committing .ending) :
    (s.commitStep e .ending).Inv conn lock := by
  have hwaiting := h.waiting (by simp [hp])
  rcases h.phase with hl | ho
  · obtain ⟨hover, hapart⟩ := hl.end_over .COMMIT true e
    have hran := hl.end_commit e
    refine h.of_live_owner hl hwaiting hover hapart (fun hd => ⟨(s.end .COMMIT true e).2.2, ?_⟩)
      (.inl ⟨_, _, rfl⟩) ⟨hover.closed, hran⟩
    rw [← hran.1 hd]
    rfl
  · have hd : s.db.applied = false := (hp ▸ h.owner : s.OwnerOk (.committing .ending))
    obtain ⟨happlied, hundone⟩ := h.owes hwaiting (by simp [hp]) (by simp [hp])
    simp only [commitStep, ho.end_eq]
    exact h.setOwner hwaiting ⟨ho.closed, by simp [hd]⟩ happlied hundone

theorem inv_commitStep (h : s.Inv conn lock) (e : Env) {p : CommitPlace}
    (hp : s.owner = .committing p) : (s.commitStep e p).Inv conn lock := by
  have hwaiting := h.waiting (by simp [hp])
  have hok : s.CommitOk p := (hp ▸ h.owner : s.OwnerOk (.committing p))
  by_cases hended : ∃ how d, p = .ended how d
  · obtain ⟨how, d, rfl⟩ := hended
    simp only [commitStep]
    split_ifs with hran
    · exact h.setCommitted hwaiting (hok.2.2 hran) d
    · have hd : s.db.applied = false := by simpa using fun hd => hran (hok.2.1 hd)
      exact (h.setAborted hd hok.1).setOwner hwaiting hok.1
        (fun hd' => absurd (hd.symm.trans hd') (by decide)) fun _ _ => .inl rfl
  obtain ⟨happlied, hundone⟩ := h.owes hwaiting
    (fun how d heq => hended ⟨how, d, OwnerPlace.committing.inj (hp.symm.trans heq)⟩)
    (by simp [hp])
  cases p with
  | entered =>
    simp only [commitStep]
    split_ifs with hc
    · refine h.report hwaiting ?_ (by simp) happlied hundone
      rcases Bool.or_eq_true _ _ ▸ hc with hc | ha
      · rcases Bool.or_eq_true _ _ ▸ hc with hc | hc
        · exact hc
        · exact (h.applied (h.committed hc)).1
      · by_contra hopen
        have hmarked := h.early (by simpa using hopen) ha
        exact absurd (hwaiting.symm.trans hmarked) (by decide)
    · refine h.setOwner hwaiting ?_ happlied hundone
      show s.db.applied = false
      by_contra hd
      have hclosed := (h.applied (by simpa using hd)).1
      exact hc (by simp [hclosed])
  | checked =>
    simp only [commitStep]
    split_ifs with hc
    · refine h.report hwaiting ?_ (by simp) happlied hundone
      rcases Bool.or_eq_true _ _ ▸ hc with hc | hc
      · exact hc
      · exact h.closed_of_conn (Option.isNone_iff_eq_none.1 hc)
    · exact h.setOwner hwaiting hok happlied hundone
  | ending => exact inv_commit_end h e hp
  | ended how d => exact absurd ⟨how, d, rfl⟩ hended
  | failing how d =>
    exact h.untrack.report hwaiting hok (fun hr => absurd hr (how.raised_ne d)) happlied hundone
  | notifying d => exact h.notify.setOwner hwaiting hok happlied hundone
  | leaving d => exact h.untrack.report hwaiting hok.1 (fun _ => hok.2) happlied hundone

theorem inv_owner_abort (h : s.Inv conn lock) (e : Env) {p : AbortPlace}
    (hp : s.owner = .aborting p) : (s.ownerStep e).Inv conn lock := by
  have hwaiting := h.waiting (by simp [hp])
  have hok : s.AbortOk p := (hp ▸ h.owner : s.OwnerOk (.aborting p))
  simp only [ownerStep, hp]
  by_cases hended : ∃ how, p = .ended how
  · obtain ⟨how, rfl⟩ := hended
    simp only [abortStep]
    split_ifs with hr
    · exact (h.setAborted (hok.2 hr) hok.1).setOwner hwaiting hok.1
        (fun hd => absurd ((hok.2 hr).symm.trans hd) (by decide)) fun _ _ => .inl rfl
    · obtain ⟨happlied, hundone⟩ := h.owes hwaiting (by simp [hp]) fun how' heq => by
        rw [hp] at heq
        obtain rfl := AbortPlace.ended.inj (OwnerPlace.aborting.inj heq)
        simpa using hr
      exact h.setOwner hwaiting hok.1 happlied hundone
  obtain ⟨happlied, hundone⟩ := h.owes hwaiting (by simp [hp]) fun how heq =>
    absurd ⟨how, OwnerPlace.aborting.inj (hp.symm.trans heq)⟩ hended
  cases p with
  | entered =>
    simp only [abortStep]
    split_ifs with hc
    · exact h.report hwaiting hc (fun hr => by cases hr) happlied hundone
    · exact h.setOwner hwaiting trivial happlied hundone
  | ending =>
    simp only [abortStep]
    rcases h.phase with hl | ho
    · obtain ⟨hover, hapart⟩ := hl.end_over .ROLLBACK false e
      obtain ⟨hd, hr⟩ := hl.end_rollback e
      exact h.of_live_owner hl hwaiting hover hapart
        (fun hd' => absurd (hd.symm.trans hd') (by decide)) (.inr (.inl ⟨_, rfl, hr⟩))
        ⟨hover.closed, fun _ => hd⟩
    · simp only [ho.end_eq]
      exact h.setOwner hwaiting ⟨ho.closed, fun hr => by cases hr⟩ happlied hundone
  | ended how => exact absurd ⟨how, rfl⟩ hended
  | leaving how =>
    exact h.untrack.report hwaiting hok (fun hr => absurd hr how.abortReport_ne) happlied hundone
  | done how =>
    exact h.report hwaiting hok (fun hr => absurd hr how.abortReport_ne) happlied hundone

theorem inv_closerStep (h : s.Inv conn lock) (e : Env) : (s.closerStep e).Inv conn lock := by
  unfold closerStep
  cases hp : s.closer with
  | none => exact h
  | some p =>
    have hok := h.closer p hp
    cases p with
    | entered =>
      simp only [abortStep]
      split_ifs with hc
      · exact h.setCloser hp hc (by simp [hp])
      · exact h.setCloser hp trivial (by simp [hp])
    | ending =>
      simp only [abortStep]
      rcases h.phase with hl | ho
      · obtain ⟨hover, hapart⟩ := hl.end_over .ROLLBACK false e
        obtain ⟨hd, hr⟩ := hl.end_rollback e
        refine h.of_live hl _ ⟨hover.1, hover.2, hover.3, hover.4, hover.5, hover.6⟩
          hapart.committed hapart.reports (fun _ => hd)
          (fun hd' => absurd (hd.symm.trans hd') (by decide))
          (.inr (.inr (.inr (.inl ⟨_, rfl, hr⟩)))) ?_ (fun q hq => ?_) ?_
          fun ht => absurd (hp.symm.trans (h.tracked (hapart.tracked ▸ ht))) (by simp)
        · exact hapart.owner ▸ ownerOk_of_open h.owner hl.closed hd
        · obtain rfl := Option.some.inj hq
          exact ⟨hover.closed, fun _ => hd⟩
        · exact hapart.finalizer ▸ finalOk_of_open h.finalizer hl.closed hapart.owner
            hapart.aborted hd
      · simp only [ho.end_eq]
        exact h.setCloser hp ⟨ho.closed, fun hr => by cases hr⟩ (by simp [hp])
    | ended how =>
      simp only [abortStep]
      split_ifs with hr
      · exact (h.setAborted (hok.2 hr) hok.1).setCloser hp hok.1 fun _ _ _ => rfl
      · refine h.setCloser hp hok.1 fun how' heq hr' => ?_
        obtain rfl := AbortPlace.ended.inj (Option.some.inj (hp.symm.trans heq))
        exact absurd hr' hr
    | leaving how => exact h.untrack.setCloser hp hok (by simp [hp, System.untrack])
    | done how => exact h.setCloser hp hok (by simp [hp])

theorem inv_finalizerStep (h : s.Inv conn lock) (e : Env) : (s.finalizerStep e).Inv conn lock := by
  unfold finalizerStep
  have hok := h.finalizer
  cases hf : s.finalizer with
  | waiting =>
    dsimp only
    split_ifs with hdropped hclosed
    · exact { h with
        phase := phase_kept h.phase ⟨rfl, rfl, rfl, rfl, rfl, rfl, rfl⟩
        undone := fun hc hd => by
          rcases h.undone hc hd with ha | hm | hm | hm | hm
          · exact .inl ha
          · exact .inr (.inl hm)
          · exact .inr (.inr (.inl hm))
          · exact .inr (.inr (.inr (.inl hm)))
          · exact absurd (hf.symm.trans hm) (by decide)
        early := fun hopen => absurd (hclosed.symm.trans hopen) (by decide)
        finalizer := ⟨hdropped, hclosed⟩ }
    · have hd : s.db.applied = false := by
        by_contra hd
        exact hclosed (h.applied (by simpa using hd)).1
      exact { h with
        phase := phase_kept h.phase ⟨rfl, rfl, rfl, rfl, rfl, rfl, rfl⟩
        undone := fun _ _ => .inr (.inr (.inr (.inr rfl)))
        early := fun hopen ha => absurd (hf.symm.trans (h.early hopen ha)) (by decide)
        finalizer := ⟨hdropped, hd⟩ }
    · exact h
  | unended =>
    rw [hf] at hok
    exact { h with
      phase := phase_kept h.phase ⟨rfl, rfl, rfl, rfl, rfl, rfl, rfl⟩
      aborted := fun _ => hok.2
      undone := fun _ _ => .inl rfl
      early := fun _ _ => rfl
      finalizer := ⟨hok.1, hok.2, rfl⟩ }
  | marked =>
    rw [hf] at hok
    rcases h.phase with hl | ho
    · obtain ⟨hover, hapart⟩ := hl.finalize_over e
      have hd := hl.finalize_applied e
      exact h.of_live hl { s.finalize e with finalizer := .done }
        ⟨hover.1, hover.2, hover.3, hover.4, hover.5, hover.6⟩
        hapart.committed hapart.reports (fun _ => hd)
        (fun hd' => absurd (hd.symm.trans hd') (by decide))
        (.inl (hapart.aborted.trans hok.2.2)) (hapart.owner ▸ ownerOk_of_open h.owner hl.closed hd)
        (fun p hp => abortOk_of_open (h.closer p (hapart.closer ▸ hp)) hl.closed _)
        ⟨hapart.owner.trans hok.1, hover.closed⟩
        (fun ht => hapart.closer.trans (h.tracked (hapart.tracked ▸ ht)))
    · simp only [ho.finalize_eq]
      exact { h with
        phase := phase_kept h.phase ⟨rfl, rfl, rfl, rfl, rfl, rfl, rfl⟩
        undone := fun _ _ => .inl hok.2.2
        early := fun hopen => absurd (ho.closed.symm.trans hopen) (by decide)
        finalizer := ⟨hok.1, ho.closed⟩ }
  | done => exact h

/-- Every step of every party keeps the invariant. -/
theorem inv_step (h : s.Inv conn lock) (a : Act) : (s.step a).Inv conn lock := by
  have hbegin : s.owner = .idle → ∀ {q : OwnerPlace}, s.finalizer = .waiting → s.OwnerOk q →
      ({ s with owner := q } : System Conn Lock).Inv conn lock := fun hidle q hwaiting hq =>
    have hsettled := h.owes hwaiting (by simp [hidle]) (by simp [hidle])
    h.setOwner hwaiting hq hsettled.1 hsettled.2
  cases a with
  | commit =>
    simp only [step]
    split_ifs with hidle
    · exact hbegin hidle (h.waiting (by simp [hidle])) trivial
    · exact h
  | abort =>
    simp only [step]
    split_ifs with hidle
    · exact hbegin hidle (h.waiting (by simp [hidle])) trivial
    · exact h
  | drop =>
    simp only [step]
    split_ifs with hidle
    · exact hbegin hidle (h.waiting (by simp [hidle])) trivial
    · exact h
  | owner e =>
    simp only [step]
    cases hp : s.owner with
    | committing p =>
      have hstep := inv_commitStep h e hp
      simpa only [ownerStep, hp] using hstep
    | aborting p => exact inv_owner_abort h e hp
    | idle => simpa only [ownerStep, hp] using h
    | dropped => simpa only [ownerStep, hp] using h
  | close =>
    simp only [step]
    split_ifs with htracked
    · have hnone := h.tracked htracked
      exact { h with
        phase := phase_kept h.phase ⟨rfl, rfl, rfl, rfl, rfl, rfl, rfl⟩
        undone := fun hc hd => by
          rcases h.undone hc hd with ha | hm | hm | ⟨how, hm, -⟩ | hm
          · exact .inl ha
          · exact .inr (.inl hm)
          · exact .inr (.inr (.inl hm))
          · exact absurd (hnone.symm.trans hm) (by simp)
          · exact .inr (.inr (.inr (.inr hm)))
        closer := fun p hp => by
          obtain rfl := Option.some.inj hp
          trivial
        tracked := fun ht => by cases ht }
    · exact h
  | closer e => exact inv_closerStep h e
  | finalizer e => exact inv_finalizerStep h e

theorem inv_run (h : s.Inv conn lock) (acts : List Act) : (s.run acts).Inv conn lock := by
  induction acts generalizing s with
  | nil => exact h
  | cons a rest ih => exact ih (inv_step h a)

/-! ## The end -/

/-- No party is between its end of the transaction and the flag it sets for it. -/
def Settled (s : System Conn Lock) : Prop :=
  (∀ how d, s.owner ≠ .committing (.ended how d)) ∧ (∀ how, s.owner ≠ .aborting (.ended how)) ∧
    (∀ how, s.closer ≠ some (.ended how)) ∧ s.finalizer ≠ .unended

/-- Some party is done: a call of the owner returned or raised, the `abort` of `close` or the
    finalizer came to its end. -/
def Finished (s : System Conn Lock) : Prop :=
  s.reports ≠ [] ∨ (∃ how, s.closer = some (.done how)) ∨ s.finalizer = .done

/-- Once nobody owes a flag, the flags of a closed transaction say what the COMMIT did. -/
theorem Inv.flags (h : s.Inv conn lock) (hsettled : s.Settled) (hclosed : s.txn.closed = true) :
    (s.txn.committed = true ↔ s.db.applied = true) ∧
      (s.txn.aborted = true ↔ s.db.applied = false) := by
  refine ⟨⟨h.committed, fun hd => ?_⟩, h.aborted, fun hd => ?_⟩
  · exact (h.applied hd).2.resolve_right fun ⟨d, hp⟩ => hsettled.1 _ d hp
  · rcases h.undone hclosed hd with ha | ⟨how, d, hp⟩ | ⟨how, hp, -⟩ | ⟨how, hp, -⟩ | hf
    · exact ha
    · exact absurd hp (hsettled.1 how d)
    · exact absurd hp (hsettled.2.1 how)
    · exact absurd hp (hsettled.2.2.1 how)
    · exact absurd hf hsettled.2.2.2

theorem Inv.finished_closed (h : s.Inv conn lock) (hf : s.Finished) : s.txn.closed = true := by
  rcases hf with hr | ⟨how, hp⟩ | hf
  · exact h.reports hr
  · exact h.closer _ hp
  · exact (hf ▸ h.finalizer : s.FinalOk .done).2

/-- (PROVED) However the parties interleave and whatever comes of the statements, the connection
    and the slot are given back once, by the end of the first party that is done; the flags say what
    the COMMIT did, once they are set, and never both. -/
theorem ends_once (conn : Conn) (lock : Lock) (tracked : Bool) (acts : List Act) :
    let s := (start conn lock tracked).run acts
    (s.given.map Prod.fst = if s.txn.closed then [conn] else []) ∧
    (s.slots = if s.txn.closed then [some lock] else []) ∧
    (s.Finished → s.txn.closed = true) ∧
    ¬(s.txn.committed = true ∧ s.txn.aborted = true) ∧
    (s.txn.committed = true → s.db.applied = true) ∧
    (s.txn.aborted = true → s.db.applied = false) ∧
    (s.txn.closed = false → s.db.applied = false) ∧
    (s.Settled → s.txn.closed = true →
      (s.txn.committed = true ↔ s.db.applied = true) ∧
      (s.txn.aborted = true ↔ s.db.applied = false)) ∧
    (.committed ∈ s.reports → s.db.applied = true) := by
  intro s
  have h : s.Inv conn lock := inv_run (inv_start conn lock tracked) acts
  refine ⟨?_, ?_, h.finished_closed, fun hboth => ?_, h.committed, h.aborted, fun hopen => ?_,
    h.flags, fun hm => h.committed (h.told hm)⟩
  · rcases h.phase with hl | ho
    · simp [hl.given, hl.closed]
    · simp [ho.given, ho.closed]
  · rcases h.phase with hl | ho
    · simp [hl.slots, hl.closed]
    · simp [ho.slots, ho.closed]
  · exact absurd ((h.committed hboth.1).symm.trans (h.aborted hboth.2)) (by decide)
  · by_contra hd
    exact absurd ((h.applied (by simpa using hd)).1.symm.trans hopen) (by decide)

/-! ## Every party ends -/

/-- What nobody has left to do is done. -/
theorem Inv.done (h : s.Inv conn lock) (hleft : ∀ p, s.left p = 0) :
    (s.owner = .idle ∨ s.owner = .dropped ∧ s.finalizer = .done) ∧
      (∀ p, s.closer = some p → ∃ how, p = .done how) ∧ s.Settled := by
  have howner : s.owner.left = 0 := hleft .owner
  have hcloser : ∀ p, s.closer = some p → ∃ how, p = .done how := fun p hp => by
    have hzero : p.left = 0 := by simpa [left, hp] using hleft .closer
    cases p with
    | done how => exact ⟨how, rfl⟩
    | _ => exact absurd hzero (by simp [AbortPlace.left])
  have hfinal : s.owner = .dropped → s.finalizer = .done := fun hdropped => by
    have hzero : s.finalizer.left = 0 := by simpa [left, hdropped] using hleft .finalizer
    cases hf : s.finalizer with
    | done => rfl
    | _ => rw [hf] at hzero; exact absurd hzero (by decide)
  have hplace : s.owner = .idle ∨ s.owner = .dropped := by
    cases ho : s.owner with
    | idle => exact .inl rfl
    | dropped => exact .inr rfl
    | committing p =>
      rw [ho] at howner
      cases p <;> exact absurd howner (by simp [OwnerPlace.left, CommitPlace.left])
    | aborting p => exact absurd (ho ▸ howner) (Nat.succ_ne_zero _)
  refine ⟨hplace.imp_right fun hdropped => ⟨hdropped, hfinal hdropped⟩, hcloser, ?_⟩
  refine ⟨fun how d ho => ?_, fun how ho => ?_, fun how ho => ?_, fun hf => ?_⟩
  · exact (hplace.elim (fun h => by rw [ho] at h; cases h) fun h => by rw [ho] at h; cases h)
  · exact (hplace.elim (fun h => by rw [ho] at h; cases h) fun h => by rw [ho] at h; cases h)
  · obtain ⟨how', hdone⟩ := hcloser _ ho
    cases hdone
  · rcases hplace with hidle | hdropped
    · exact absurd ((h.waiting (by rw [hidle]; decide)).symm.trans hf) (by decide)
    · exact absurd ((hfinal hdropped).symm.trans hf) (by decide)

/-- (PROVED) However the turns of the parties are mixed, each ends what it began within its turns,
    and then the connection and the slot were given back once and the flags say what the COMMIT
    did. A call that nobody steps into ends as the whole call does. -/
theorem parties_end {E Seg W : Type} [DecidableEq Seg] (conn : Conn) (lock : Lock) (tracked : Bool)
    (acts rest : List Act) (hcalls : ∀ a ∈ rest, a.party ≠ none)
    (hturns : ∀ p : Party, p.turns ≤ rest.countP (·.party = some p)) :
    let s := (start conn lock tracked).run (acts ++ rest)
    (s.owner = .idle ∨ s.owner = .dropped ∧ s.finalizer = .done) ∧
    (∀ p, s.closer = some p → ∃ how, p = .done how) ∧
    (s.Finished → s.given.map Prod.fst = [conn] ∧ s.slots = [some lock] ∧
      (s.txn.committed = true ↔ s.db.applied = true) ∧
      (s.txn.aborted = true ↔ s.db.applied = false)) ∧
    ∀ (data : E → Option W) (e : Env) (statement : Statement),
      e.statement.toStatement = some statement →
      ((start conn lock tracked).run (.commit :: List.replicate Party.owner.turns (.owner e))).Agrees
        (SQLiteTransaction.commit (SQLiteTransaction.begin data : TransactionStorage E Seg W)
          statement).1.context ∧
      ((start conn lock tracked).run (.abort :: List.replicate Party.owner.turns (.owner e))).Agrees
        (SQLiteTransaction.abort (SQLiteTransaction.begin data : TransactionStorage E Seg W)
          statement).1.context := by
  intro s
  have hrun : s = ((start conn lock tracked).run acts).run rest := List.foldl_append
  have h : s.Inv conn lock := inv_run (inv_start conn lock tracked) _
  have hleft : ∀ p, s.left p = 0 := fun p => by
    have hrest := ((start conn lock tracked).run acts).left_run hcalls p
    have hbefore := ((start conn lock tracked).run acts).left_le p
    have hp := hturns p
    rw [hrun]
    omega
  obtain ⟨howner, hcloser, hsettled⟩ := h.done hleft
  refine ⟨howner, hcloser, fun hf => ?_, fun data e statement he =>
    ⟨commit_alone conn lock tracked data e he, abort_alone conn lock tracked data e he⟩⟩
  have hclosed := h.finished_closed hf
  have hflags := h.flags hsettled hclosed
  rcases h.phase with hl | ho
  · exact absurd (hl.closed.symm.trans hclosed) (by decide)
  · exact ⟨ho.given, ho.slots, hflags⟩

/-- Every statement runs, the storage being open. -/
def plainEnv : Env := ⟨.ran, true, true, false⟩

/-- A `commit` that the `close` of the storage overtakes. -/
def overtaken : List Act :=
  [.commit, .owner plainEnv, .close, .owner plainEnv, .closer plainEnv, .closer plainEnv]

/-- Six turns of each party, one after the other. -/
def sixTurns : List Act :=
  (List.replicate 6 [.closer plainEnv, .owner plainEnv, .finalizer plainEnv]).flatten

theorem parties_end_overtaken :
    let s := (start 7 9 true : System Nat Nat).run (overtaken ++ sixTurns)
    s.reports = [.StorageClosedError] ∧ s.given = [(7, .pooled)] ∧ s.closer ≠ none ∧
      (∀ p, s.closer = some p → ∃ how, p = .done how) ∧ s.slots = [some 9] ∧
      (s.txn.aborted = true ↔ s.db.applied = false) := by
  obtain ⟨-, hcloser, hends, -⟩ := @parties_end Nat Nat Nat Nat Nat _ 7 9 true overtaken sixTurns
    (by decide) (fun p => by cases p <;> decide)
  obtain ⟨-, hslots, -, haborted⟩ := hends (.inl (by decide))
  exact ⟨by decide, by decide, by decide, hcloser, hslots, haborted⟩

end System

end Virtuals.Sqlite.Ending
