/-
  When a snapshot of a secondary is not torn.

  The rows after the `n`-th native catch-up are the secondary's state at epoch `n`: the epoch runs
  behind the native calls by one at most, while a section is between the two (`Inv.window`). A
  snapshot begins in a section that is at rest, so its epoch's rows are its view. Every reply is right
  (`Right`) unless a point read's native call comes after a native catch-up that its check did not
  see, a row passes its check between the native call that its iterator saw and the epoch, or such an
  iterator is used up, which nothing checks. A scan's replies are those that come next when it is alone
  on its view.
-/
import Virtuals.Rocksdb.Alone

namespace Virtuals.Rocksdb

open Lmdb (Codec StorageScanOptions)

variable {E Seg W V : Type} {it : Iterators E W} {codec : Codec E Seg W V} {config : Config}

/-- A reply that a snapshot of a view may give: the retryable conflict, the refusal of a closed
    context, or the view's own reply. A scan's is what comes next when it is alone on the view; a row
    is one of the view. -/
def RightReply (it : Iterators E W) (codec : Codec E Seg W V) (view : E → Option W) (closed : Bool)
    (query : Query E Seg V) (r : Reply Seg V) : Prop :=
  r = .StorageTransactionConflictError ∨ (r = .StorageClosedError ∧ closed = true) ∨
    match query with
    | .point key want =>
      match codec.encodeKey key with
      | none => r = .raised
      | some encodedKey => r = Secondary.pointReply codec view encodedKey want
    | .scan options needValues given =>
      Next it codec view options needValues given r ∧
        ∀ key value, r = .row key value → RightRow codec view needValues key value

namespace Secondary

/-- The event is right for the state at the epoch in which its snapshot began. -/
def Right (codec : Codec E Seg W V) (s : Secondary E Seg W V it.Pos) (ev : Event E Seg V) : Prop :=
  ∃ snap, s.snapshots ev.snapshot = some snap ∧
    RightReply it codec (s.states snap.epoch) snap.closed ev.query ev.reply

/-- What is known of a point read. -/
structure PointOk (codec : Codec E Seg W V) (s : Secondary E Seg W V it.Pos)
    (p : PointRead E Seg) : Prop where
  snapshot : ∃ snap, s.snapshots p.snapshot = some snap
  encoded : ∀ e, p.state = .checked e → codec.encodeKey p.key = some e

/-- What is known of a scan: its iterator was opened after its snapshot began, and if no catch-up
    came between, the scan is where it would be alone on its view. -/
structure ScanOk (codec : Codec E Seg W V) (s : Secondary E Seg W V it.Pos)
    (sc : RocksDBScan E Seg W V it.Pos) : Prop where
  snapshot : ∃ snap, s.snapshots sc.snapshot = some snap
  opened : ∀ n, sc.openedAfter = some n → n ≤ s.generation ∧
    ∀ snap, s.snapshots sc.snapshot = some snap → snap.epoch ≤ n
  alone : ∀ snap, s.snapshots sc.snapshot = some snap → sc.state ≠ .lost →
    (sc.unopened = true ∨ sc.openedAfter = some snap.epoch) →
      Alone codec (s.states snap.epoch) sc.snapshot snap.epoch sc.options sc.needValues sc

/-- What every reachable state keeps. -/
structure Inv (codec : Codec E Seg W V) (s : Secondary E Seg W V it.Pos) : Prop where
  db : s.db = s.states s.generation
  window : s.generation = s.secondaryEpoch + if s.catchingUp = true then 1 else 0
  epochs : ∀ id snap, s.snapshots id = some snap → snap.epoch ≤ s.secondaryEpoch
  fresh : ∀ id stage, s.stateLock = some (.begin id, stage) → s.snapshots id = none
  points : ∀ id p, s.points id = some p → PointOk codec s p
  scans : ∀ id sc, s.scans id = some sc → ScanOk codec s sc
  log : ∀ ev ∈ s.log, Right codec s ev

variable {s : Secondary E Seg W V it.Pos}

theorem inv_start (codec : Codec E Seg W V) (db : E → Option W) :
    Inv codec (start db : Secondary E Seg W V it.Pos) where
  db := rfl
  window := rfl
  epochs := fun _ _ h => by cases h
  fresh := fun _ _ h => by cases h
  points := fun _ _ h => by cases h
  scans := fun _ _ h => by cases h
  log := fun _ h => by cases h

theorem Inv.epoch_le (h : Inv codec s) : s.secondaryEpoch ≤ s.generation := by
  have := h.window
  omega

/-! ## Reads and their replies -/

theorem PointOk.congr {s' : Secondary E Seg W V it.Pos} {p : PointRead E Seg} (h : PointOk codec s p)
    (hsnapshots : s'.snapshots = s.snapshots) : PointOk codec s' p :=
  ⟨by rw [hsnapshots]; exact h.snapshot, h.encoded⟩

theorem ScanOk.congr {s' : Secondary E Seg W V it.Pos} {sc : RocksDBScan E Seg W V it.Pos}
    (h : ScanOk codec s sc) (hsnapshots : s'.snapshots = s.snapshots)
    (hstates : s'.states = s.states) (hgeneration : s'.generation = s.generation) :
    ScanOk codec s' sc := by
  obtain ⟨hsnapshot, hopened, halone⟩ := h
  rw [← hsnapshots] at hsnapshot
  rw [← hsnapshots, ← hgeneration] at hopened
  rw [← hsnapshots, ← hstates] at halone
  exact ⟨hsnapshot, hopened, halone⟩

theorem Inv.setPoint (h : Inv codec s) (id : Nat) {p : PointRead E Seg} (hp : PointOk codec s p) :
    Inv codec (s.setPoint id p) :=
  ⟨h.db, h.window, h.epochs, h.fresh, fun id' p' hp' => (by
      have hget : Function.update s.points id (some p) id' = some p' := hp'
      by_cases hid : id' = id
      · subst hid
        rw [Function.update_self] at hget
        exact Option.some.inj hget ▸ hp.congr rfl
      · rw [Function.update_of_ne hid] at hget
        exact (h.points id' p' hget).congr rfl),
    fun id' sc hsc => (h.scans id' sc hsc).congr rfl rfl rfl, h.log⟩

theorem Inv.setScan (h : Inv codec s) (id : Nat) {sc : RocksDBScan E Seg W V it.Pos}
    (hsc : ScanOk codec s sc) : Inv codec (s.setScan id sc) :=
  ⟨h.db, h.window, h.epochs, h.fresh,
    fun id' p hp => (h.points id' p hp).congr rfl,
    fun id' sc' hsc' => (by
      have hget : Function.update s.scans id (some sc) id' = some sc' := hsc'
      by_cases hid : id' = id
      · subst hid
        rw [Function.update_self] at hget
        exact Option.some.inj hget ▸ hsc.congr rfl rfl rfl
      · rw [Function.update_of_ne hid] at hget
        exact (h.scans id' sc' hget).congr rfl rfl rfl), h.log⟩

theorem Inv.reply (h : Inv codec s) {snapshot : Nat} {query : Query E Seg V}
    {r : Reply Seg V} (hr : Right codec s ⟨snapshot, query, r⟩) : Inv codec (s.reply snapshot query r) :=
  ⟨h.db, h.window, h.epochs, h.fresh,
    fun id' p hp => (h.points id' p hp).congr rfl,
    fun id' sc hsc => (h.scans id' sc hsc).congr rfl rfl rfl,
    fun ev hev => by
      rcases List.mem_append.1 hev with hold | hnew
      · exact h.log ev hold
      · exact List.mem_singleton.1 hnew ▸ hr⟩

theorem Inv.endPoint (h : Inv codec s) (id : Nat) {p : PointRead E Seg} (hp : PointOk codec s p)
    {r : Reply Seg V} (hr : Right codec s ⟨p.snapshot, .point p.key p.want, r⟩) :
    Inv codec (s.endPoint id p r) :=
  (h.setPoint id (p := { p with state := .done })
    ⟨hp.snapshot, fun _ he => by cases he⟩).reply hr

theorem Inv.turned (h : Inv codec s) (id : Nat) {sc : RocksDBScan E Seg W V it.Pos}
    {t : Turned E Seg W V it.Pos} (ht : ScanOk codec s t.1)
    (hr : ∀ r, t.2 = some r → Right codec s ⟨sc.snapshot, .scan sc.options sc.needValues sc.given, r⟩) :
    Inv codec (s.turned id sc t) := by
  obtain ⟨sc', _ | r⟩ := t
  · exact h.setScan id ht
  · exact (h.setScan id ht).reply (hr r rfl)

theorem ScanOk.ended {sc : RocksDBScan E Seg W V it.Pos} (h : ScanOk codec s sc) :
    ScanOk codec s sc.ended := by
  refine ⟨h.snapshot, fun _ hn => (by cases hn), fun _ _ _ hopen => ?_⟩
  obtain hopen | hopen := hopen
  · cases hopen
  · cases hopen

theorem Inv.endScan (h : Inv codec s) (id : Nat) {sc : RocksDBScan E Seg W V it.Pos}
    (hsc : ScanOk codec s sc) {r : Reply Seg V}
    (hr : Right codec s ⟨sc.snapshot, .scan sc.options sc.needValues sc.given, r⟩) :
    Inv codec (s.endScan id sc r) :=
  h.turned id hsc.ended fun _ heq => Option.some.inj heq ▸ hr

/-- The conflict is right for every view. -/
theorem right_conflict {snapshot : Nat} {query : Query E Seg V}
    (hsnap : ∃ snap, s.snapshots snapshot = some snap) :
    Right codec s ⟨snapshot, query, .StorageTransactionConflictError⟩ := by
  obtain ⟨snap, hsnap⟩ := hsnap
  exact ⟨snap, hsnap, Or.inl rfl⟩

/-- What `requireActive` raises is right; what it passes is of the current epoch. -/
theorem requireActive_cases {snapshot : Nat} {snap : RocksDBSnapshot}
    (hsnap : s.snapshots snapshot = some snap) (query : Query E Seg V) :
    (∃ r, s.requireActive snap = some r ∧ Right codec s ⟨snapshot, query, r⟩) ∨
      (s.requireActive snap = none ∧ snap.closed = false ∧ snap.epoch = s.secondaryEpoch) := by
  unfold requireActive
  split_ifs with hclosed hepoch
  · exact Or.inl ⟨_, rfl, snap, hsnap, Or.inr (Or.inl ⟨rfl, hclosed⟩)⟩
  · exact Or.inr ⟨rfl, Bool.eq_false_iff.2 hclosed, hepoch⟩
  · exact Or.inl ⟨_, rfl, snap, hsnap, Or.inl rfl⟩

/-! ## Sections -/

/-- A step of a section that leaves the rows. -/
theorem Inv.section (h : Inv codec s) (lock : Option (Who × Stage)) (lastCatchup : Nat)
    {epoch : Nat} (active : Finset Nat) (hepoch : s.secondaryEpoch ≤ epoch)
    (hwindow : s.generation = epoch +
      if ({ s with stateLock := lock } : Secondary E Seg W V it.Pos).catchingUp = true
      then 1 else 0)
    (hfresh : ∀ id stage, lock = some (.begin id, stage) → s.snapshots id = none) :
    Inv codec { s with
      stateLock := lock, lastCatchup := lastCatchup, secondaryEpoch := epoch,
      activeSnapshots := active } :=
  ⟨h.db, hwindow, fun id snap hsnap => (h.epochs id snap hsnap).trans hepoch, hfresh,
    fun id' p hp => (h.points id' p hp).congr rfl,
    fun id' sc hsc => (h.scans id' sc hsc).congr rfl rfl rfl, h.log⟩

/-- The native call: what was seen before it stays as it was. -/
theorem Inv.catchUp (h : Inv codec s) {who : Who} (hlock : s.stateLock = some (who, .catching))
    (rows : E → Option W) :
    Inv codec { s with
      db := rows
      generation := s.generation + 1
      states := Function.update s.states (s.generation + 1) rows
      stateLock := some (who, .native) } := by
  have hwindow : s.generation = s.secondaryEpoch := by
    have := h.window
    rw [catchingUp, hlock] at this
    simpa using this
  have hold : ∀ i snap, s.snapshots i = some snap →
      Function.update s.states (s.generation + 1) rows snap.epoch = s.states snap.epoch := by
    intro i snap hsnap
    have hle := h.epochs i snap hsnap
    exact Function.update_of_ne (by omega) _ _
  refine ⟨(Function.update_self (s.generation + 1) rows s.states).symm,
    congrArg (· + 1) hwindow, h.epochs, fun id stage heq => (by
      obtain ⟨rfl, -⟩ := Prod.mk.inj (Option.some.inj heq)
      exact h.fresh id _ hlock),
    fun id' p hp => (h.points id' p hp).congr rfl,
    fun id' sc hsc => ⟨(h.scans id' sc hsc).snapshot, fun n hn => ?_,
      fun snap hsnap hlost hopen => ?_⟩, fun ev hev => ?_⟩
  · obtain ⟨hle, hbegun⟩ := (h.scans id' sc hsc).opened n hn
    exact ⟨hle.trans (Nat.le_succ _), hbegun⟩
  · dsimp only
    rw [hold _ snap hsnap]
    exact (h.scans id' sc hsc).alone snap hsnap hlost hopen
  · obtain ⟨snap, hsnap, hr⟩ := h.log ev hev
    refine ⟨snap, hsnap, ?_⟩
    dsimp only
    rw [hold _ snap hsnap]
    exact hr

theorem RightReply.closed {view : E → Option W} {closed closed' : Bool} {query : Query E Seg V}
    {r : Reply Seg V} (h : RightReply it codec view closed query r)
    (hclosed : closed = true → closed' = true) : RightReply it codec view closed' query r :=
  h.imp_right fun h => h.imp_left fun ⟨hr, hc⟩ => ⟨hr, hclosed hc⟩

/-- A snapshot that begins or closes. -/
theorem Inv.setSnapshot (h : Inv codec s) (id : Nat) (snap' : RocksDBSnapshot)
    (hepoch : snap'.epoch ≤ s.secondaryEpoch)
    (hold : ∀ snap, s.snapshots id = some snap →
      snap'.epoch = snap.epoch ∧ (snap.closed = true → snap'.closed = true))
    (hfresh : ∀ i stage, s.stateLock = some (.begin i, stage) →
      Function.update s.snapshots id (some snap') i = none) :
    Inv codec { s with snapshots := Function.update s.snapshots id (some snap') } := by
  -- every snapshot that was there still is, of the same epoch
  have hkeep : ∀ i snap, s.snapshots i = some snap →
      ∃ snap₁, Function.update s.snapshots id (some snap') i = some snap₁ ∧
        snap₁.epoch = snap.epoch ∧ (snap.closed = true → snap₁.closed = true) := by
    intro i snap hsnap
    by_cases hi : i = id
    · subst hi
      exact ⟨snap', Function.update_self _ _ _, hold snap hsnap⟩
    · exact ⟨snap, (Function.update_of_ne hi _ _).trans hsnap, rfl, fun hc => hc⟩
  refine ⟨h.db, h.window, fun i snap hsnap => ?_, hfresh, fun i p hp => ?_, fun i sc hsc => ?_,
    fun ev hev => ?_⟩
  · have hget : Function.update s.snapshots id (some snap') i = some snap := hsnap
    by_cases hi : i = id
    · subst hi
      rw [Function.update_self] at hget
      exact Option.some.inj hget ▸ hepoch
    · rw [Function.update_of_ne hi] at hget
      exact h.epochs i snap hget
  · obtain ⟨snap, hsnap⟩ := (h.points i p hp).snapshot
    obtain ⟨snap₁, hsnap₁, -⟩ := hkeep _ snap hsnap
    exact ⟨⟨snap₁, hsnap₁⟩, (h.points i p hp).encoded⟩
  · obtain ⟨snap, hsnap⟩ := (h.scans i sc hsc).snapshot
    obtain ⟨snap₁, hsnap₁, hsame, -⟩ := hkeep _ snap hsnap
    have hepoch : ∀ snap₂, Function.update s.snapshots id (some snap') sc.snapshot = some snap₂ →
        snap₂.epoch = snap.epoch := by
      intro snap₂ hsnap₂
      rw [← Option.some.inj (hsnap₁.symm.trans hsnap₂)]
      exact hsame
    refine ⟨⟨snap₁, hsnap₁⟩, fun n hn => ?_, fun snap₂ hsnap₂ => ?_⟩
    · obtain ⟨hle, hbegun⟩ := (h.scans i sc hsc).opened n hn
      refine ⟨hle, fun snap₂ hsnap₂ => ?_⟩
      rw [hepoch snap₂ hsnap₂]
      exact hbegun snap hsnap
    · rw [hepoch snap₂ hsnap₂]
      exact (h.scans i sc hsc).alone snap hsnap
  · obtain ⟨snap, hsnap, hr⟩ := h.log ev hev
    obtain ⟨snap₁, hsnap₁, hsame, hclosed⟩ := hkeep _ snap hsnap
    refine ⟨snap₁, hsnap₁, ?_⟩
    rw [hsame]
    exact RightReply.closed hr hclosed

/-- The end of a section at rest. -/
theorem inv_leave (h : Inv codec s) {who : Who} (hlock : s.stateLock = some (who, .ready)) :
    Inv codec (s.leave who) := by
  have h' : Inv codec { s with stateLock := none } := by
    have hwindow := h.window
    rw [catchingUp, hlock] at hwindow
    exact h.section none s.lastCatchup s.activeSnapshots le_rfl hwindow fun _ _ heq => by cases heq
  unfold leave
  cases who with
  | begin id =>
    have hbegun := h'.setSnapshot id ⟨s.secondaryEpoch, false⟩ le_rfl
      (fun snap hsnap => absurd ((h.fresh id _ hlock).symm.trans hsnap) (by simp))
      fun _ _ heq => by cases heq
    exact hbegun.section none s.lastCatchup (insert id s.activeSnapshots) le_rfl h'.window
      fun _ _ heq => by cases heq
  | caller => exact h'
  | point id =>
    dsimp only
    rcases hp : s.points id with _ | p
    · exact h'
    · exact h'.endPoint id (h'.points id p hp)
        (right_conflict (h'.points id p hp).snapshot)
  | scan id =>
    dsimp only
    rcases hsc : s.scans id with _ | sc
    · exact h'
    · exact h'.endScan id (h'.scans id sc hsc)
        (right_conflict (h'.scans id sc hsc).snapshot)

/-! ## One act -/

/-- A step of a section before its native call or after its epoch, or between the two. -/
theorem Inv.stage (h : Inv codec s) {who : Who} {stage stage' : Stage}
    (hlock : s.stateLock = some (who, stage))
    (hsame : ({ s with stateLock := some (who, stage') } : Secondary E Seg W V it.Pos).catchingUp =
      s.catchingUp) (lastCatchup : Nat) :
    Inv codec { s with stateLock := some (who, stage'), lastCatchup := lastCatchup } :=
  h.section _ lastCatchup s.activeSnapshots le_rfl (by rw [hsame]; exact h.window)
    fun id _ heq => by
      obtain ⟨rfl, -⟩ := Prod.mk.inj (Option.some.inj heq)
      exact h.fresh id _ hlock

/-- A section that begins. -/
theorem Inv.enter (h : Inv codec s) (hfree : s.stateLock = none) (who : Who) (stage : Stage)
    (hstage : ({ s with stateLock := some (who, stage) } :
      Secondary E Seg W V it.Pos).catchingUp = false)
    (hfresh : ∀ id, who = .begin id → s.snapshots id = none) :
    Inv codec { s with stateLock := some (who, stage) } := by
  have hwindow := h.window
  rw [catchingUp, hfree] at hwindow
  refine h.section _ s.lastCatchup s.activeSnapshots le_rfl (by rw [hstage]; exact hwindow)
    fun id _ heq => ?_
  exact hfresh id (Prod.mk.inj (Option.some.inj heq)).1

theorem inv_sections (h : Inv codec s) :
    (∀ id, Inv codec (s.step codec config (.beginSnapshot id))) ∧
      Inv codec (s.step codec config .forceCatchUp) ∧
      (∀ who, Inv codec (s.step codec config (.viewLost who))) ∧
      (∀ now, Inv codec (s.step codec config (.decide now))) ∧
      (∀ now, Inv codec (s.step codec config (.stamp now))) := by
  refine ⟨fun id => ?_, ?_, fun who => ?_, fun now => ?_, fun now => ?_⟩
  · unfold step
    dsimp only
    rcases hlock : s.stateLock with _ | _
    · rcases hsnap : s.snapshots id with _ | _
      · exact h.enter hlock (.begin id) .entered rfl fun _ heq => by
          cases heq
          exact hsnap
      · exact h
    · exact h
  · unfold step
    dsimp only
    rcases hlock : s.stateLock with _ | _
    · exact h.enter hlock .caller .catching rfl fun _ heq => by cases heq
    · exact h
  · unfold step
    dsimp only
    rcases hlock : s.stateLock with _ | _
    · dsimp only
      split_ifs with hlost
      · exact h.enter hlock who .catching rfl fun _ heq => by
          subst heq
          cases hlost
      · exact h
    · exact h
  · unfold step
    dsimp only
    rcases hlock : s.stateLock with _ | ⟨who, _ | _ | _ | _ | _⟩
    · exact h
    · dsimp only
      split_ifs
      · exact h.stage hlock (by simp [catchingUp, hlock]) s.lastCatchup
      · exact h.stage hlock (by simp [catchingUp, hlock]) s.lastCatchup
    · exact h
    · exact h
    · exact h
    · exact h
  · unfold step
    dsimp only
    rcases hlock : s.stateLock with _ | ⟨who, _ | _ | _ | _ | _⟩
    · exact h
    · exact h
    · exact h
    · exact h.stage hlock (by simp [catchingUp, hlock]) now
    · exact h
    · exact h

theorem inv_catchUp (h : Inv codec s) :
    (∀ rows, Inv codec (s.step codec config (.tryCatchUpWithPrimary rows))) ∧
      Inv codec (s.step codec config .bump) ∧ Inv codec (s.step codec config .leave) := by
  refine ⟨fun rows => ?_, ?_, ?_⟩
  · unfold step
    dsimp only
    rcases hlock : s.stateLock with _ | ⟨who, _ | _ | _ | _ | _⟩
    · exact h
    · exact h
    · exact h.catchUp hlock rows
    · exact h
    · exact h
    · exact h
  · unfold step
    dsimp only
    rcases hlock : s.stateLock with _ | ⟨who, _ | _ | _ | _ | _⟩
    · exact h
    · exact h
    · exact h
    · exact h
    · have hwindow := h.window
      rw [catchingUp, hlock] at hwindow
      refine h.section _ s.lastCatchup s.activeSnapshots (Nat.le_succ _) hwindow fun id _ heq => ?_
      obtain ⟨rfl, -⟩ := Prod.mk.inj (Option.some.inj heq)
      exact h.fresh id _ hlock
    · exact h
  · unfold step
    dsimp only
    rcases hlock : s.stateLock with _ | ⟨who, _ | _ | _ | _ | _⟩
    · exact h
    · exact h
    · exact h
    · exact h
    · exact h
    · exact inv_leave h hlock

theorem inv_closing (h : Inv codec s) (id : Nat) :
    Inv codec (s.step codec config (.closeSnapshot id)) ∧
      Inv codec (s.step codec config (.untrackSnapshot id)) := by
  unfold step
  dsimp only
  constructor
  · rcases hsnap : s.snapshots id with _ | snap
    · exact h
    · refine h.setSnapshot id { snap with closed := true } (h.epochs id snap hsnap)
        (fun snap' hsnap' => ?_) fun i stage hlock => ?_
      · obtain rfl : snap = snap' := Option.some.inj (hsnap.symm.trans hsnap')
        exact ⟨rfl, fun _ => rfl⟩
      · have hne : i ≠ id := by
          rintro rfl
          exact absurd ((h.fresh i stage hlock).symm.trans hsnap) (by simp)
        rw [Function.update_of_ne hne]
        exact h.fresh i stage hlock
  · rcases hlock : s.stateLock with _ | _
    · rcases hsnap : s.snapshots id with _ | ⟨epoch, _ | _⟩
      · exact h
      · exact h
      · have hwindow := h.window
        have := h.section s.stateLock s.lastCatchup (s.activeSnapshots.erase id) le_rfl hwindow
          h.fresh
        rw [hlock] at this
        exact this
    · exact h

/-! ## Point reads -/

theorem right_pointReply {key : List Seg} {e : E} (hkey : codec.encodeKey key = some e)
    (view : E → Option W) (closed : Bool) (want : Want) :
    RightReply it codec view closed (.point key want) (pointReply codec view e want) := by
  refine Or.inr (Or.inr ?_)
  dsimp only
  rw [hkey]

/-- The rows of the epoch a snapshot is of, seen by a native read in time. -/
theorem Inv.view (h : Inv codec s) (hquiet : s.catchingUp = false) :
    s.db = s.states s.secondaryEpoch := by
  have hwindow := h.window
  rw [hquiet] at hwindow
  rw [h.db, hwindow]
  rfl

theorem inv_points (h : Inv codec s) (id : Nat) :
    (∀ snapshot key want, Inv codec (s.step codec config (.read id snapshot key want))) ∧
      Inv codec (s.step codec config (.requireActive id)) ∧
      ∀ missing, s.torn (.getRaw id missing : Act E Seg W) = false →
        Inv codec (s.step codec config (.getRaw id missing)) := by
  refine ⟨fun snapshot key want => ?_, ?_, fun missing htorn => ?_⟩
  · unfold step
    dsimp only
    rcases s.points id with _ | _
    · rcases hsnap : s.snapshots snapshot with _ | snap
      · exact h
      · exact h.setPoint id ⟨⟨snap, hsnap⟩, fun _ he => by cases he⟩
    · exact h
  · unfold step
    dsimp only
    rcases hp : s.points id with _ | p
    · exact h
    · have hok := h.points id p hp
      obtain ⟨snap, hsnap⟩ := hok.snapshot
      dsimp only
      rw [hsnap]
      rcases hstate : p.state with _ | e | _ | _
      · dsimp only
        unfold checkPoint
        rcases requireActive_cases hsnap (.point p.key p.want) with ⟨r, heq, hr⟩ | ⟨heq, -, -⟩
        · rw [heq]
          exact h.endPoint id hok hr
        · rw [heq]
          dsimp only
          rcases hkey : codec.encodeKey p.key with _ | e
          · refine h.endPoint id hok ⟨snap, hsnap, Or.inr (Or.inr ?_)⟩
            dsimp only
            rw [hkey]
          · exact h.setPoint id ⟨hok.snapshot, fun e' he' => by
              obtain rfl : e = e' := PointAt.checked.inj he'
              exact hkey⟩
      · exact h
      · exact h
      · exact h
  · unfold step
    dsimp only
    rcases hp : s.points id with _ | p
    · exact h
    · have hok := h.points id p hp
      obtain ⟨snap, hsnap⟩ := hok.snapshot
      dsimp only
      rcases hstate : p.state with _ | e | _ | _
      · exact h
      · cases missing
        · -- the native read sees the rows of its snapshot's epoch
          have hsafe : snap.epoch = s.secondaryEpoch ∧ s.catchingUp = false := by
            unfold torn tornPoint at htorn
            dsimp only at htorn
            rw [hp] at htorn
            dsimp only at htorn
            rw [hsnap] at htorn
            simpa using htorn
          refine h.endPoint id hok ⟨snap, hsnap, ?_⟩
          rw [hsafe.1, ← h.view hsafe.2]
          exact right_pointReply (hok.encoded e hstate) _ _ _
        · exact h.setPoint id ⟨hok.snapshot, fun _ he => by cases he⟩
      · exact h
      · exact h

/-! ## Scans -/

/-- A scan that waits for the catch-up after a missing file. -/
theorem ScanOk.lost {sc : RocksDBScan E Seg W V it.Pos} (h : ScanOk codec s sc) :
    ScanOk codec s { sc with state := .lost } :=
  ⟨h.snapshot, h.opened, fun _ _ hlost => absurd rfl hlost⟩

theorem state_ne_checked {sc : RocksDBScan E Seg W V it.Pos} (h : sc.unopened = false)
    (start : Option E) : sc.state ≠ .checked start := by
  intro hstate
  rw [RocksDBScan.unopened, hstate] at h
  cases h

/-- A turn. The iterator is opened on the view's rows if no catch-up came since its snapshot began. -/
theorem ScanOk.turn (hinv : Inv codec s) {sc : RocksDBScan E Seg W V it.Pos} (h : ScanOk codec s sc)
    (hlost : sc.state ≠ .lost) : ScanOk codec s (sc.alone codec s.db s.generation).1 := by
  obtain ⟨hsame, hcases⟩ : RocksDBScan.Same sc (sc.alone codec s.db s.generation).1 ∧ _ :=
    RocksDBScan.alone_cases
  have hturn : ∀ snap, s.snapshots sc.snapshot = some snap →
      (sc.unopened = true ∨ sc.openedAfter = some snap.epoch) →
      sc.alone codec s.db s.generation = sc.alone codec (s.states snap.epoch) snap.epoch →
      Alone codec (s.states snap.epoch) sc.snapshot snap.epoch sc.options sc.needValues
        (sc.alone codec s.db s.generation).1 := by
    intro snap hsnap hopen heq
    rw [heq]
    exact (h.alone snap hsnap hlost hopen).turn
  obtain ⟨hstate, hended | ⟨start, hchecked⟩⟩ | ⟨start, hstate, hopened⟩ | ⟨hopen, hends⟩ := hcases
  · rw [hended]
    exact h.ended
  · have hunopened : sc.unopened = true := by rw [RocksDBScan.unopened, hstate]
    have hafter : (sc.alone codec s.db s.generation).1.openedAfter = sc.openedAfter := by
      rw [hchecked]
      rfl
    refine ⟨hsame.snapshot ▸ h.snapshot, ?_, fun snap hsnap _ _ => ?_⟩
    · rw [hafter, hsame.snapshot]
      exact h.opened
    · rw [hsame.snapshot] at hsnap ⊢
      rw [hsame.options, hsame.needValues]
      refine hturn snap hsnap (Or.inl hunopened) (RocksDBScan.alone_rows fun start heq => ?_)
      rw [hstate] at heq
      cases heq
  · have hunopened : sc.unopened = true := by rw [RocksDBScan.unopened, hstate]
    have hafter : (sc.alone codec s.db s.generation).1.openedAfter = some s.generation := by
      rw [hopened]
      rfl
    refine ⟨hsame.snapshot ▸ h.snapshot, ?_, fun snap hsnap _ hopen => ?_⟩
    · rw [hafter, hsame.snapshot]
      intro n hn
      obtain rfl := Option.some.inj hn
      exact ⟨le_rfl, fun snap hsnap => (hinv.epochs _ snap hsnap).trans hinv.epoch_le⟩
    · rw [hsame.snapshot] at hsnap ⊢
      rw [hsame.options, hsame.needValues]
      have hepoch : s.generation = snap.epoch := by
        rw [hafter, hopened] at hopen
        obtain hopen | hopen := hopen
        · cases hopen
        · exact Option.some.inj hopen
      refine hturn snap hsnap (Or.inl hunopened) ?_
      rw [hinv.db, hepoch]
  · obtain hended | hafter := hends.handle
    · rw [hended]
      exact h.ended
    refine ⟨hsame.snapshot ▸ h.snapshot, ?_, fun snap hsnap _ hkeeps => ?_⟩
    · rw [hafter, hsame.snapshot]
      exact h.opened
    · rw [hsame.snapshot] at hsnap ⊢
      rw [hsame.options, hsame.needValues]
      rw [hends.opened, hafter] at hkeeps
      obtain hkeeps | hkeeps := hkeeps
      · cases hkeeps
      · exact hturn snap hsnap (Or.inr hkeeps) (RocksDBScan.alone_rows (state_ne_checked hopen))

/-- What a scan replies when no catch-up came before its iterator was opened. -/
theorem ScanOk.right {sc : RocksDBScan E Seg W V it.Pos} (h : ScanOk codec s sc)
    {snap : RocksDBSnapshot} (hsnap : s.snapshots sc.snapshot = some snap) (hlost : sc.state ≠ .lost)
    (hopen : sc.unopened = true ∨ sc.openedAfter = some snap.epoch) {r : Reply Seg V}
    (hr : (sc.alone codec s.db s.generation).2 = some r) :
    Right codec s ⟨sc.snapshot, .scan sc.options sc.needValues sc.given, r⟩ := by
  have hchecked : ∀ start, sc.state ≠ .checked start := by
    intro start hstate
    obtain ⟨hs, -⟩ | ⟨_, _, _, hs, -⟩ | ⟨_, _, _, hs, -⟩ := RocksDBScan.alone_reply hr
    all_goals
      rw [hstate] at hs
      cases hs
  have hnext : Next it codec (s.states snap.epoch) sc.options sc.needValues sc.given r := by
    rw [RocksDBScan.alone_rows hchecked] at hr
    exact ⟨sc.snapshot, snap.epoch, sc, h.alone snap hsnap hlost hopen, rfl, hr⟩
  refine ⟨snap, hsnap, Or.inr (Or.inr ⟨hnext, fun key value heq => ?_⟩)⟩
  have hrow : r = .row key value := heq
  rw [hrow] at hnext
  exact next_row hnext

theorem inv_turn (h : Inv codec s) (id : Nat) {sc : RocksDBScan E Seg W V it.Pos}
    (hok : ScanOk codec s sc) (hlost : sc.state ≠ .lost)
    (hopen : ∀ r, (sc.alone codec s.db s.generation).2 = some r → ∀ snap,
      s.snapshots sc.snapshot = some snap → sc.unopened = true ∨ sc.openedAfter = some snap.epoch) :
    Inv codec (s.turn codec id sc) := by
  refine h.turned id (hok.turn h hlost) fun r hr => ?_
  obtain ⟨snap, hsnap⟩ := hok.snapshot
  exact hok.right hsnap hlost (hopen r hr snap hsnap) hr

/-- A turn that a check precedes; the check may be why a reply is in time. -/
theorem inv_checkedTurn (h : Inv codec s) (id : Nat) {sc : RocksDBScan E Seg W V it.Pos}
    (hok : ScanOk codec s sc) (hlost : sc.state ≠ .lost)
    (hopen : ∀ r, (sc.alone codec s.db s.generation).2 = some r → ∀ snap,
      s.snapshots sc.snapshot = some snap → snap.epoch = s.secondaryEpoch →
      sc.unopened = true ∨ sc.openedAfter = some snap.epoch) :
    Inv codec (s.checkedTurn codec id sc) := by
  unfold checkedTurn
  obtain ⟨snap, hsnap⟩ := hok.snapshot
  rw [hsnap]
  dsimp only
  obtain ⟨r, heq, hr⟩ | ⟨heq, -, hepoch⟩ :=
    requireActive_cases hsnap (.scan sc.options sc.needValues sc.given)
  · rw [heq]
    exact h.endScan id hok hr
  · rw [heq]
    refine inv_turn h id hok hlost fun r hr snap' hsnap' => ?_
    obtain rfl : snap = snap' := Option.some.inj (hsnap.symm.trans hsnap')
    exact hopen r hr snap hsnap hepoch

/-- A turn with a step of the iterator. -/
theorem inv_iteratorTurn (h : Inv codec s) (id : Nat) {sc : RocksDBScan E Seg W V it.Pos}
    (hok : ScanOk codec s sc) (hlost : sc.state ≠ .lost) (missing : Bool)
    (hopen : ∀ r, (sc.alone codec s.db s.generation).2 = some r → missing = false → ∀ snap,
      s.snapshots sc.snapshot = some snap → snap.closed = false →
      sc.unopened = true ∨ sc.openedAfter = some snap.epoch) :
    Inv codec (s.iteratorTurn codec id sc missing) := by
  unfold iteratorTurn
  obtain ⟨snap, hsnap⟩ := hok.snapshot
  rw [hsnap]
  dsimp only
  split_ifs with hclosed hmissing
  · exact h.endScan id hok ⟨snap, hsnap, Or.inr (Or.inl ⟨rfl, hclosed⟩)⟩
  · exact h.setScan id hok.lost
  · refine inv_turn h id hok hlost fun r hr snap' hsnap' => ?_
    obtain rfl : snap = snap' := Option.some.inj (hsnap.symm.trans hsnap')
    exact hopen r hr (Bool.eq_false_iff.2 hmissing) snap hsnap (Bool.eq_false_iff.2 hclosed)

/-- A turn in which nothing is replied. -/
theorem alone_silent {sc : RocksDBScan E Seg W V it.Pos} {rows : E → Option W} {generation : Nat}
    (hstarted : sc.state ≠ .started) (hfetching : sc.state ≠ .fetching)
    (hrows : ∀ row rest, sc.state ≠ .rows (row :: rest)) (r : Reply Seg V) :
    (sc.alone codec rows generation).2 ≠ some r := by
  intro hr
  obtain ⟨hs, -⟩ | ⟨_, _, _, hs, -⟩ | ⟨row, rest, _, hs, -⟩ := RocksDBScan.alone_reply hr
  · exact hstarted hs
  · exact hfetching hs
  · exact hrows row rest hs

theorem inv_scan (h : Inv codec s) (id snapshot : Nat) (options : StorageScanOptions E Seg)
    (needValues : Bool) : Inv codec (s.step codec config (.scan id snapshot options needValues)) := by
  unfold step
  dsimp only
  cases s.scans id with
  | some sc => exact h
  | none =>
    cases hsnap : s.snapshots snapshot with
    | none => exact h
    | some snap => exact h.setScan id ⟨⟨snap, hsnap⟩, fun _ hn => (by cases hn), fun _ _ _ _ => .begun⟩

theorem inv_scanRequireActive (h : Inv codec s) (id : Nat) :
    Inv codec (s.step codec config (.scanRequireActive id)) := by
  unfold step
  dsimp only
  cases hsc : s.scans id with
  | none => exact h
  | some sc =>
    dsimp only
    split
    · rename_i hstate
      refine inv_checkedTurn h id (h.scans id sc hsc) (by rw [hstate]; intro heq; cases heq)
        fun _ _ _ _ _ => Or.inl ?_
      rw [RocksDBScan.unopened, hstate]
    · exact h

theorem inv_iterator (h : Inv codec s) (id : Nat) (missing : Bool) :
    Inv codec (s.step codec config (.iterator id missing)) := by
  unfold step
  dsimp only
  cases hsc : s.scans id with
  | none => exact h
  | some sc =>
    dsimp only
    split
    · rename_i start hstate
      split_ifs
      · exact h.setScan id (h.scans id sc hsc).lost
      · refine inv_turn h id (h.scans id sc hsc) (by rw [hstate]; intro heq; cases heq)
          fun r hr => absurd hr (alone_silent ?_ ?_ ?_ r)
        all_goals
          intros
          rw [hstate]
          intro heq
          cases heq
    · exact h

theorem inv_seek (h : Inv codec s) (id : Nat) (missing : Bool) :
    Inv codec (s.step codec config (.seek id missing)) := by
  unfold step
  dsimp only
  cases hsc : s.scans id with
  | none => exact h
  | some sc =>
    dsimp only
    split
    · rename_i start hstate
      refine inv_iteratorTurn h id (h.scans id sc hsc) (by rw [hstate]; intro heq; cases heq) missing
        fun r hr => absurd hr (alone_silent ?_ ?_ ?_ r)
      all_goals
        intros
        rw [hstate]
        intro heq
        cases heq
    · exact h

/-- An iterator that is used up is of the view. -/
theorem inv_nextBatch (h : Inv codec s) (id : Nat) (missing : Bool)
    (htorn : s.torn (.nextBatch id missing : Act E Seg W) = false) :
    Inv codec (s.step codec config (.nextBatch id missing)) := by
  unfold step
  dsimp only
  cases hsc : s.scans id with
  | none => exact h
  | some sc =>
    dsimp only
    split
    · rename_i hstate
      refine inv_iteratorTurn h id (h.scans id sc hsc) (by rw [hstate]; intro heq; cases heq) missing
        fun r hr hmissing snap hsnap hclosed => Or.inr ?_
      obtain ⟨hs, -⟩ | ⟨view, opened, pos, -, hhandle, hempty, -⟩ | ⟨_, _, _, hs, -⟩ :=
        RocksDBScan.alone_reply hr
      · rw [hstate] at hs
        cases hs
      · unfold torn at htorn
        rw [hmissing] at htorn
        dsimp only at htorn
        unfold tornEnd at htorn
        rw [hsc] at htorn
        dsimp only at htorn
        rw [hstate, hhandle, hsnap] at htorn
        dsimp only at htorn
        rw [hclosed, hempty] at htorn
        rw [RocksDBScan.openedAfter, hhandle]
        simpa using htorn
      · rw [hstate] at hs
        cases hs
    · exact h

/-- A row that passes its check in time is of an iterator on the view. -/
theorem Inv.row_opened (h : Inv codec s) {id : Nat} {sc : RocksDBScan E Seg W V it.Pos}
    (hsc : s.scans id = some sc) {row : E × W} {rest : List (E × W)}
    (hstate : sc.state = .rows (row :: rest)) {snap : RocksDBSnapshot}
    (hsnap : s.snapshots sc.snapshot = some snap) (hepoch : snap.epoch = s.secondaryEpoch)
    {n : Nat} (hn : sc.openedAfter = some n) (htorn : s.tornRow id = false) : n = snap.epoch := by
  obtain ⟨hle, hbegun⟩ := (h.scans id sc hsc).opened n hn
  have hlow := hbegun snap hsnap
  have hwindow := h.window
  obtain ⟨handle, hhandle, hgeneration⟩ := Option.map_eq_some_iff.1 hn
  unfold tornRow at htorn
  rw [hsc] at htorn
  dsimp only at htorn
  rw [hstate, hhandle, hsnap] at htorn
  cases hcatching : s.catchingUp
  · rw [hcatching] at hwindow
    simp only [Bool.false_eq_true, if_false] at hwindow
    omega
  · rw [hcatching] at htorn
    simp only [hepoch, Bool.true_and, decide_true, decide_eq_false_iff_not, not_not] at htorn
    omega

theorem inv_row (h : Inv codec s) (id : Nat) (htorn : s.torn (.row id : Act E Seg W) = false) :
    Inv codec (s.step codec config (.row id)) := by
  unfold step
  dsimp only
  cases hsc : s.scans id with
  | none => exact h
  | some sc =>
    have hok := h.scans id sc hsc
    dsimp only
    split
    · rename_i hstate
      refine inv_turn h id hok (by rw [hstate]; intro heq; cases heq)
        fun r hr => absurd hr (alone_silent ?_ ?_ ?_ r)
      all_goals
        intros
        rw [hstate]
        intro heq
        cases heq
    · rename_i row rest hstate
      refine inv_checkedTurn h id hok (by rw [hstate]; intro heq; cases heq)
        fun r hr snap hsnap hepoch => Or.inr ?_
      obtain ⟨hs, -⟩ | ⟨_, _, _, hs, -⟩ | ⟨_, _, handle, -, hhandle, -⟩ :=
        RocksDBScan.alone_reply hr
      · rw [hstate] at hs
        cases hs
      · rw [hstate] at hs
        cases hs
      · have hn : sc.openedAfter = some handle.generation := by
          rw [RocksDBScan.openedAfter, hhandle]
          rfl
        rw [hn, h.row_opened hsc hstate hsnap hepoch hn htorn]
    · exact h

/-! ## Runs -/

theorem inv_step (h : Inv codec s) (act : Act E Seg W) (htorn : s.torn act = false) :
    Inv codec (s.step codec config act) := by
  cases act with
  | beginSnapshot id => exact (inv_sections h).1 id
  | forceCatchUp => exact (inv_sections h).2.1
  | viewLost who => exact (inv_sections h).2.2.1 who
  | decide now => exact (inv_sections h).2.2.2.1 now
  | tryCatchUpWithPrimary rows => exact (inv_catchUp h).1 rows
  | stamp now => exact (inv_sections h).2.2.2.2 now
  | bump => exact (inv_catchUp h).2.1
  | leave => exact (inv_catchUp h).2.2
  | closeSnapshot id => exact (inv_closing h id).1
  | untrackSnapshot id => exact (inv_closing h id).2
  | read id snapshot key want => exact (inv_points h id).1 snapshot key want
  | requireActive id => exact (inv_points h id).2.1
  | getRaw id missing => exact (inv_points h id).2.2 missing htorn
  | scan id snapshot options needValues => exact inv_scan h id snapshot options needValues
  | scanRequireActive id => exact inv_scanRequireActive h id
  | «iterator» id missing => exact inv_iterator h id missing
  | seek id missing => exact inv_seek h id missing
  | nextBatch id missing => exact inv_nextBatch h id missing htorn
  | row id => exact inv_row h id htorn

theorem inv_run (h : Inv codec s) (acts : List (Act E Seg W))
    (huntorn : s.untorn codec config acts = true) : Inv codec (s.run codec config acts) := by
  induction acts generalizing s with
  | nil => exact h
  | cons act acts ih =>
    obtain ⟨hact, hacts⟩ := Bool.and_eq_true_iff.1 huntorn
    exact ih (inv_step h act (by simpa using hact)) hacts

/-- (PROVED) In a run where no native point read comes after a native catch-up that its check did not
    see, no row passes its check between the native catch-up that its iterator saw and the epoch, and
    no such iterator is used up, every reply of a snapshot is its view's at the epoch in which it began,
    the retryable conflict, or the refusal of a closed context. On iterators that keep their promises,
    under a codec that keeps the order of keys, the rows of a scan are those of the walk over the view,
    in its order, and all of them when the scan ends. -/
theorem snapshot_untorn [LinearOrder E] [LinearOrder Seg] (it : Iterators E W)
    (codec : Codec E Seg W V) (config : Config) (db : E → Option W) (acts : List (Act E Seg W))
    (huntorn : (start db : Secondary E Seg W V it.Pos).untorn codec config acts = true) :
    let s := (start db : Secondary E Seg W V it.Pos).run codec config acts
    (∀ ev ∈ s.log, Right codec s ev) ∧
      ∀ (c : Scan.OrderedCodec Seg E W V) (encodeValue : V → Option W),
        codec = Lmdb.storageCodec c encodeValue →
        ∀ ev ∈ s.log, ∀ snap, s.snapshots ev.snapshot = some snap →
        ∀ (o : Scan.StorageScanOptions c) (t : Scan.IteratorType) given,
          ev.query = .scan (Lmdb.scanOptions o) (Lmdb.needValues t) given →
        ∀ (data : Scan.Data c) (ahead : Bool → it.Pos → List (E × W)),
          (∀ e w, (e, w) ∈ Scan.stored data.rows ↔ s.states snap.epoch e = some w) →
          IteratorLaws it c.empty (s.states snap.epoch) ahead →
            Walked t (Scan.items (RocksDBScan.truthy o) t data) given ev.reply := by
  intro s
  have hlog : ∀ ev ∈ s.log, Right codec s ev := (inv_run (inv_start codec db) acts huntorn).log
  refine ⟨hlog, ?_⟩
  intro c encodeValue hcodec ev hev snap hsnap o t given hquery data ahead hdata hit
  obtain ⟨snap', hsnap', hr⟩ := hlog ev hev
  obtain rfl : snap = snap' := Option.some.inj (hsnap.symm.trans hsnap')
  rw [hquery] at hr
  obtain hr | ⟨hr, -⟩ | hr := hr
  · rw [hr]
    trivial
  · rw [hr]
    trivial
  · rw [hcodec] at hr
    exact next_walks hit hdata hr.1

/-! ## Runs on the site -/

section SiteRows

open Scan (below eighth siteRows siteScan Encoding OrderedCodec)
open KeyCodec (KeySegment)

/-- Iterators on the keys of the site. -/
def siteIterators : Iterators Encoding Nat :=
  keyIterators ⟨[]⟩ ((Scan.stored siteRows.rows).map Prod.fst)

/-- The codec of the storage. -/
def siteCodec : Codec Encoding KeySegment Nat Nat := Lmdb.storageCodec (Scan.binaryCodec some) some

/-- The primary has changed the eighth child. -/
def siteLater : Encoding → Option Nat :=
  Function.update siteRows.lookup eighth.encoded (some 28)

/-- A snapshot begins, and a read of it passes its check. -/
def checkedRead : List (Act Encoding KeySegment Nat) :=
  [.beginSnapshot 0, .decide 0, .leave, .read 0 0 [.int 1, .int 8] .get, .requireActive 0]

/-- A catch-up forced by a caller. -/
def forced : List (Act Encoding KeySegment Nat) :=
  [.forceCatchUp, .tryCatchUpWithPrimary siteLater, .stamp 1, .bump, .leave]

/-- A scan, to its end. -/
def wholeScan : List (Act Encoding KeySegment Nat) :=
  [.scan 0 0 (Lmdb.scanOptions siteScan) true, .scanRequireActive 0, .iterator 0 false,
    .seek 0 false, .nextBatch 0 false, .row 0, .row 0, .row 0, .seek 0 false, .nextBatch 0 false,
    .row 0, .row 0, .row 0]

/-- The catch-up comes after the read and the scan, and before another read. -/
def readThenForced : List (Act Encoding KeySegment Nat) :=
  checkedRead ++ [.getRaw 0 false] ++ wholeScan ++ forced ++
    [.read 1 0 [.int 1, .int 8] .get, .requireActive 1]

/-- It comes between the read's check and its native call. -/
def forcedInRead : List (Act Encoding KeySegment Nat) := checkedRead ++ forced ++ [.getRaw 0 false]

theorem snapshot_untorn_read :
    let s := (start siteRows.lookup : Secondary Encoding KeySegment Nat Nat siteIterators.Pos).run
      siteCodec ⟨none, none⟩ readThenForced
    (∀ ev ∈ s.log, Right siteCodec s ev) ∧
      s.log.map Event.reply = [.value (some 18), .row [.int 1, .int 8] (some 18),
        .row [.int 1, .int 7] (some 17), .row [.int 1, .int 5] (some 15),
        .row [.int 1, .int 3] (some 13), .stop, .StorageTransactionConflictError] ∧
      s.secondaryEpoch = 1 :=
  ⟨(snapshot_untorn siteIterators siteCodec ⟨none, none⟩ siteRows.lookup readThenForced (by decide +kernel)).1,
    by decide +kernel, by decide +kernel⟩

/-- The read returns 28, which its snapshot's view does not hold. -/
theorem not_snapshot_untorn :
    ¬ ∀ acts : List (Act Encoding KeySegment Nat),
      let s := (start siteRows.lookup : Secondary Encoding KeySegment Nat Nat siteIterators.Pos).run
        siteCodec ⟨none, none⟩ acts
      ∀ ev ∈ s.log, Right siteCodec s ev := by
  intro h
  obtain ⟨snap, hsnap, hr⟩ := h forcedInRead ⟨0, .point [.int 1, .int 8] .get, .value (some 28)⟩
    List.mem_cons_self
  obtain rfl : (⟨0, false⟩ : RocksDBSnapshot) = snap := Option.some.inj hsnap
  obtain hr | ⟨hr, -⟩ | hr := hr
  · cases hr
  · cases hr
  · have hread : (Reply.value (some 28) : Reply KeySegment Nat) = .value (some 18) := hr
    cases hread

end SiteRows

end Secondary

end Virtuals.Rocksdb
