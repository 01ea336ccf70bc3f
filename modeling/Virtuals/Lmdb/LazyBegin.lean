/-
  A lazily begun transaction is one begun before its first call.

  While its LMDB transaction is pending, the map that a begun one would be on is the overlay of the
  pending writes, and whatever begins it replays them to that map (`Alike`). So every call returns
  the same, the same rows come out of a scan, and the same data is committed, wherever the begin
  lies (`lazy_begin`).
-/
import Virtuals.Lmdb.Transaction

namespace Virtuals.Lmdb

open Lib

variable {E Seg W V : Type} [DecidableEq E] [DecidableEq Seg] {cu : Cursors E W}
  {codec : Codec E Seg W V} {keyFits : E → Bool}

namespace LMDBStorage

/-- What the transaction would read, had it been begun. -/
def view (s : LMDBStorage E Seg W cu.Pos) (pending : PyDict E (List Seg × Option W)) :
    E → Option W := overlay (pending.map Prod.snd) s.data

omit [DecidableEq Seg] in
theorem view_set (s : LMDBStorage E Seg W cu.Pos) (pending : PyDict E (List Seg × Option W))
    (e : E) (a : List Seg × Option W) :
    s.view (pending.set e a) = Function.update (s.view pending) e a.2 := by
  have hmap : ∀ j, ((pending.set e a).map Prod.snd).get? j =
      ((pending.map Prod.snd).set e a.2).get? j := fun j => by
    rw [PyDict.get?_map, PyDict.get?_set, PyDict.get?_set, PyDict.get?_map]
    split_ifs <;> rfl
  unfold view
  rw [← overlay_set]
  funext j
  unfold overlay
  rw [hmap]

/-- `l` is the storage of a transaction begun lazily, `e` that of the same one begun eagerly. -/
structure Alike (l e : LMDBStorage E Seg W cu.Pos) : Prop where
  data : l.data = e.data
  closed : l.txn.closed = e.txn.closed
  committed : l.txn.committed = e.txn.committed
  aborted : l.txn.aborted = e.txn.aborted
  scans : l.txn.scans = e.txn.scans
  begun : e.txn.pending = none
  live : e.txn.closed = false → e.txn.lmdbTxn ≠ none
  map : (l.txn.pending = none ∧ l.txn.lmdbTxn = e.txn.lmdbTxn) ∨
    ∃ pending, l.txn.pending = some pending ∧ l.txn.lmdbTxn = none ∧
      e.txn.lmdbTxn = some (l.view pending)

/-- The same answer, and alike afterwards. -/
def Same (a b : LMDBStorage E Seg W cu.Pos × Reply Seg V) : Prop := a.2 = b.2 ∧ Alike a.1 b.1

variable {l e : LMDBStorage E Seg W cu.Pos}

theorem Alike.requireActive_closed (h : Alike l e) (hclosed : e.txn.closed = true) :
    l.requireActive = (l, .error .StorageClosedError) ∧
      e.requireActive = (e, .error .StorageClosedError) := by
  constructor
  · unfold requireActive
    dsimp only
    rw [h.closed, if_pos hclosed]
  · unfold requireActive
    dsimp only
    rw [if_pos hclosed]

omit [DecidableEq Seg] in
/-- The eager transaction has its map. -/
theorem Alike.eager_map (h : Alike l e) (hopen : e.txn.closed = false) :
    ∃ m, e.txn.lmdbTxn = some m :=
  Option.ne_none_iff_exists'.1 (h.live hopen)

/-- And goes on with it. -/
theorem requireActive_begun {m : E → Option W} (hopen : e.txn.closed = false)
    (hm : e.txn.lmdbTxn = some m) : e.requireActive = (e, .ok m) := by
  unfold requireActive
  dsimp only
  rw [if_neg (by simp [hopen]), hm]

omit [DecidableEq Seg] in
/-- What a replay would give is the eager transaction's map. -/
theorem Alike.pending_map (h : Alike l e) {pending : PyDict E (List Seg × Option W)}
    (hpending : l.txn.pending = some pending) {m : E → Option W} (hm : e.txn.lmdbTxn = some m) :
    (replayPending l.data pending).1 = m := by
  rcases h.map with ⟨hnone, -⟩ | ⟨pending', hpending', -, hmap⟩
  · exact absurd (hpending.symm.trans hnone) (by simp)
  · obtain rfl : pending = pending' := Option.some.inj (hpending.symm.trans hpending')
    exact (replay_fst _ _).trans (Option.some.inj (hmap.symm.trans hm))

/-- Both go on with the same map; the lazy transaction has begun now. -/
theorem Alike.requireActive_open (h : Alike l e) (hopen : e.txn.closed = false) {m : E → Option W}
    (hm : e.txn.lmdbTxn = some m) :
    ∃ l', l.requireActive = (l', .ok m) ∧ Alike l' e ∧ l'.txn.pending = none := by
  rcases h.map with ⟨hpending, hmap⟩ | ⟨pending, hpending, hnone, -⟩
  · refine ⟨l, ?_, h, hpending⟩
    unfold requireActive
    dsimp only
    rw [if_neg (by simp [h.closed, hopen]), hmap, hm]
  · refine ⟨{ l with txn := { l.txn with
      lmdbTxn := some m
      pending := none
      modifiedKeys := discardMissing l.txn.modifiedKeys pending
        (replayPending l.data pending).2 } }, ?_, ?_, rfl⟩
    · unfold requireActive
      dsimp only
      rw [if_neg (by simp [h.closed, hopen]), hnone, hpending]
      dsimp only
      rw [h.pending_map hpending hm]
    · exact ⟨h.data, h.closed, h.committed, h.aborted, h.scans, h.begun, h.live,
        Or.inl ⟨rfl, hm.symm⟩⟩

omit [DecidableEq Seg] in
/-- Both write the same map through. -/
theorem Alike.setMap (h : Alike l e) (hbegun : l.txn.pending = none) (m : E → Option W) :
    Alike (l.setMap m) (e.setMap m) :=
  ⟨h.data, h.closed, h.committed, h.aborted, h.scans, h.begun, fun _ => Option.some_ne_none m,
    Or.inl ⟨hbegun, rfl⟩⟩

theorem Alike.addModified (h : Alike l e) (k k' : List Seg) :
    Alike (l.addModified k) (e.addModified k') :=
  ⟨h.data, h.closed, h.committed, h.aborted, h.scans, h.begun, h.live, h.map⟩

theorem Alike.addModified_left (h : Alike l e) (k : List Seg) : Alike (l.addModified k) e :=
  ⟨h.data, h.closed, h.committed, h.aborted, h.scans, h.begun, h.live, h.map⟩

omit [DecidableEq Seg] in
theorem Alike.setScan (h : Alike l e) (id : Nat) (scan : LMDBScan E Seg cu.Pos) :
    Alike (l.setScan id scan) (e.setScan id scan) :=
  ⟨h.data, h.closed, h.committed, h.aborted,
    congrArg (fun scans : Nat → Option (LMDBScan E Seg cu.Pos) =>
      Function.update scans id (some scan)) h.scans, h.begun, h.live, h.map⟩

/-! ## One call -/

variable (codec : Codec E Seg W V) (keyFits : E → Bool)

omit [DecidableEq Seg] in
/-- A write waits with the one, is written through with the other. -/
theorem Alike.pend (h : Alike l e) {pending : PyDict E (List Seg × Option W)}
    (hpending : l.txn.pending = some pending) (k : E) (a : List Seg × Option W)
    (m : E → Option W) (hm : e.txn.lmdbTxn = some m) :
    Alike (l.setPending (pending.set k a)) (e.setMap (Function.update m k a.2)) := by
  rcases h.map with ⟨hnone, -⟩ | ⟨pending', hpending', hnone, hmap⟩
  · exact absurd (hpending.symm.trans hnone) (by simp)
  · obtain rfl : pending = pending' := Option.some.inj (hpending.symm.trans hpending')
    have hview : m = l.view pending := Option.some.inj (hm.symm.trans hmap)
    refine ⟨h.data, h.closed, h.committed, h.aborted, h.scans, h.begun,
      fun _ => Option.some_ne_none _, Or.inr ⟨_, rfl, hnone, ?_⟩⟩
    show some (Function.update m k a.2) = some (view _ (pending.set k a))
    rw [view_set, hview]
    rfl

/-- A step that needs the LMDB transaction, taken from both. -/
theorem Alike.active (h : Alike l e)
    (bad : LMDBStorage E Seg W cu.Pos → StorageError →
      LMDBStorage E Seg W cu.Pos × Reply Seg V)
    (good : LMDBStorage E Seg W cu.Pos → (E → Option W) →
      LMDBStorage E Seg W cu.Pos × Reply Seg V)
    (hbad : ∀ er, Same (bad l er) (bad e er))
    (hgood : ∀ l' m, Alike l' e → l'.txn.pending = none → e.txn.lmdbTxn = some m →
      Same (good l' m) (good e m)) :
    Same
      (match l.requireActive with
        | (s, .error er) => bad s er
        | (s, .ok m) => good s m)
      (match e.requireActive with
        | (s, .error er) => bad s er
        | (s, .ok m) => good s m) := by
  cases hclosed : e.txn.closed
  · obtain ⟨m, hm⟩ := h.eager_map hclosed
    obtain ⟨l', hl, halike, hpending⟩ := h.requireActive_open hclosed hm
    rw [hl, requireActive_begun hclosed hm]
    exact hgood l' m halike hpending hm
  · obtain ⟨hl, he⟩ := h.requireActive_closed hclosed
    rw [hl, he]
    exact hbad _

theorem put_alike (h : Alike l e)
    (hfits : ∀ key k, codec.encodeKey key = some k → keyFits k = true) (key : List Seg)
    (value : Option V) : Same (l.put codec keyFits key value) (e.put codec keyFits key value) := by
  unfold put
  rcases value with _ | value
  · exact ⟨rfl, h⟩
  · dsimp only
    rcases hkey : codec.encodeKey key with _ | k
    · exact ⟨rfl, h⟩
    · rcases codec.encodeValue value with _ | w
      · exact ⟨rfl, h⟩
      · dsimp only
        rw [h.closed, h.begun]
        rcases hclosed : e.txn.closed with _ | _
        · rw [if_neg (by simp), if_neg (by simp)]
          rcases hpending : l.txn.pending with _ | pending
          · exact h.active (fun s er => (s, .error er))
              (fun s m => ((s.setMap (Function.update m k (some w))).addModified key, .unit))
              (fun _ => ⟨rfl, h⟩)
              fun l' m h' hbegun _ => ⟨rfl, (h'.setMap hbegun _).addModified key key⟩
          · obtain ⟨m, hm⟩ := h.eager_map hclosed
            dsimp only
            rw [if_pos (hfits key k hkey), requireActive_begun hclosed hm]
            exact ⟨rfl, (h.pend hpending k (key, some w) m hm).addModified key key⟩
        · rw [if_pos rfl, if_pos rfl]
          exact ⟨rfl, h⟩

theorem delete_alike (h : Alike l e)
    (hfits : ∀ key k, codec.encodeKey key = some k → keyFits k = true) (key : List Seg) :
    Same (l.delete codec keyFits key) (e.delete codec keyFits key) := by
  unfold delete
  rcases hkey : codec.encodeKey key with _ | k
  · exact ⟨rfl, h⟩
  · dsimp only
    rw [h.closed, h.begun]
    rcases hclosed : e.txn.closed with _ | _
    · rw [if_neg (by simp), if_neg (by simp)]
      rcases hpending : l.txn.pending with _ | pending
      · refine h.active (fun s er => (s, .error er))
          (fun s m => (if (m k).isSome = true then
            (s.setMap (Function.update m k none)).addModified key
            else s.setMap (Function.update m k none), .unit))
          (fun _ => ⟨rfl, h⟩) fun l' m h' hbegun _ => ⟨rfl, ?_⟩
        dsimp only
        split_ifs
        · exact (h'.setMap hbegun _).addModified key key
        · exact h'.setMap hbegun _
      · obtain ⟨m, hm⟩ := h.eager_map hclosed
        dsimp only
        rw [if_pos (hfits key k hkey), requireActive_begun hclosed hm]
        -- the waiting delete counts as a change even where it finds nothing
        refine ⟨rfl, ?_⟩
        dsimp only
        split_ifs
        · exact (h.pend hpending k (key, none) m hm).addModified key key
        · exact (h.pend hpending k (key, none) m hm).addModified_left key
    · rw [if_pos rfl, if_pos rfl]
      exact ⟨rfl, h⟩

theorem get_alike (h : Alike l e) (key : List Seg) : Same (l.get codec key) (e.get codec key) := by
  unfold get
  rcases codec.encodeKey key with _ | k
  · exact ⟨rfl, h⟩
  · refine h.active (fun s er => (s, .error er)) _ (fun _ => ⟨rfl, h⟩) fun l' m h' _ _ => ?_
    rcases m k with _ | w
    · exact ⟨rfl, h'⟩
    · dsimp only
      rcases codec.decodeValue w with _ | v
      · exact ⟨rfl, h'⟩
      · exact ⟨rfl, h'⟩

theorem exists_alike (h : Alike l e) (key : List Seg) :
    Same (l.exists codec key) (e.exists codec key) := by
  unfold «exists»
  rcases codec.encodeKey key with _ | k
  · exact ⟨rfl, h⟩
  · exact h.active (fun s er => (s, .error er)) (fun s m => (s, .bool (m k).isSome))
      (fun _ => ⟨rfl, h⟩) fun l' m h' _ _ => ⟨rfl, h'⟩

theorem scan_alike (h : Alike l e) (id : Nat) (options : StorageScanOptions E Seg)
    (needValues : Bool) :
    Same (l.scan id options needValues : _ × Reply Seg V) (e.scan id options needValues) := by
  unfold scan
  exact h.active (fun s er => (s, .error er))
    (fun s _ => (s.setScan id ⟨options, needValues, .created⟩, .unit)) (fun _ => ⟨rfl, h⟩)
    fun l' m h' _ _ => ⟨rfl, h'.setScan id _⟩

theorem withActive_alike (h : Alike l e) (id : Nat) (scan : LMDBScan E Seg cu.Pos)
    (f : (E → Option W) → At cu.Pos × Reply Seg V) :
    Same (l.withActive id scan f) (e.withActive id scan f) := by
  unfold withActive
  exact h.active (fun s er => (s.setScan id { scan with state := .done }, .error er))
    (fun s m => (s.setScan id { scan with state := (f m).1 }, (f m).2))
    (fun _ => ⟨rfl, h.setScan id _⟩) fun l' m h' _ _ => ⟨rfl, h'.setScan id _⟩

theorem turn_alike (h : Alike l e) (id : Nat) : Same (l.turn codec id) (e.turn codec id) := by
  unfold turn
  rw [h.scans]
  rcases e.txn.scans id with _ | scan
  · exact ⟨rfl, h⟩
  · dsimp only
    rcases scan.state with _ | ⟨pos, count⟩ | ⟨pos, count⟩ | ⟨pos, count⟩ | _
    · dsimp only
      rcases startBound codec scan.options with _ | start
      · exact ⟨rfl, h.setScan id _⟩
      · exact withActive_alike h id scan _
    · dsimp only
      split_ifs
      · exact ⟨rfl, h.setScan id _⟩
      · exact ⟨rfl, h.setScan id _⟩
    · exact withActive_alike h id scan _
    · exact withActive_alike h id scan _
    · exact ⟨rfl, h⟩

omit [DecidableEq Seg] in
/-- However it ended, both are closed. -/
theorem Alike.finish {l e : LMDBStorage E Seg W cu.Pos} (h : Alike l e) (committed : Bool) :
    Alike (l.finish committed) (e.finish committed) :=
  ⟨h.data, rfl, rfl, rfl, h.scans, rfl, fun hopen => absurd hopen (by simp [LMDBStorage.finish]),
    Or.inl ⟨rfl, rfl⟩⟩

/-- What is handed to the publisher is not compared here. -/
theorem Alike.notifyBatch (h : Alike l e) : Alike l.notifyBatch e.notifyBatch := by
  unfold LMDBStorage.notifyBatch
  split_ifs
  · exact h
  · exact ⟨h.data, h.closed, h.committed, h.aborted, h.scans, h.begun, h.live, h.map⟩
  · exact ⟨h.data, h.closed, h.committed, h.aborted, h.scans, h.begun, h.live, h.map⟩
  · exact ⟨h.data, h.closed, h.committed, h.aborted, h.scans, h.begun, h.live, h.map⟩

omit [DecidableEq Seg] in
/-- The data of both after a commit. -/
theorem Alike.setData {l e : LMDBStorage E Seg W cu.Pos} (h : Alike l e) (m : E → Option W)
    (modified : Finset (List Seg)) :
    Alike ({ l with
      data := m
      txn := { l.txn with modifiedKeys := modified } }.finish true) ({ e with data := m }.finish true) :=
  ⟨rfl, rfl, rfl, rfl, h.scans, rfl, fun hopen => absurd hopen (by simp [LMDBStorage.finish]),
    Or.inl ⟨rfl, rfl⟩⟩

theorem commit_alike (h : Alike l e) (ok : Bool) :
    Same (l.commit ok : _ × Reply Seg V) (e.commit ok) := by
  unfold commit
  rw [h.closed, h.begun]
  cases hclosed : e.txn.closed
  · rw [if_neg (by simp), if_neg (by simp)]
    rcases hpending : l.txn.pending with _ | pending
    · refine h.active (fun s er => (s.finish false, .error er))
        (fun s m => if ok = true then (({ s with data := m }.finish true).notifyBatch, .unit)
          else (s.finish false, .error .StorageTransactionError))
        (fun _ => ⟨rfl, h.finish false⟩) fun l' m h' _ _ => ?_
      split_ifs
      · exact ⟨rfl, (h'.setData m l'.txn.modifiedKeys).notifyBatch⟩
      · exact ⟨rfl, h'.finish false⟩
    · obtain ⟨m, hm⟩ := h.eager_map hclosed
      dsimp only
      rw [requireActive_begun hclosed hm]
      dsimp only
      split_ifs
      · refine ⟨rfl, ?_⟩
        rw [h.pending_map hpending hm]
        exact (h.setData m _).notifyBatch
      · exact ⟨rfl, h.finish false⟩
  · rw [if_pos rfl, if_pos rfl]
    exact ⟨rfl, h⟩

omit [DecidableEq Seg] in
theorem abort_alike (h : Alike l e) : Same (l.abort : _ × Reply Seg V) e.abort := by
  unfold abort
  rw [h.closed]
  split_ifs
  · exact ⟨rfl, h⟩
  · exact ⟨rfl, h.finish false⟩

/-- A begin that no call needed is not seen. -/
theorem begin_alike (h : Alike l e) : Alike l.requireActive.1 e.requireActive.1 := by
  cases hclosed : e.txn.closed
  · obtain ⟨m, hm⟩ := h.eager_map hclosed
    obtain ⟨l', hl, halike, -⟩ := h.requireActive_open hclosed hm
    rw [hl, requireActive_begun hclosed hm]
    exact halike
  · obtain ⟨hl, he⟩ := h.requireActive_closed hclosed
    rw [hl, he]
    exact h

theorem perform_alike (h : Alike l e)
    (hfits : ∀ key k, codec.encodeKey key = some k → keyFits k = true) (op : Op E Seg V) :
    Same (l.perform codec keyFits op) (e.perform codec keyFits op) := by
  cases op with
  | put key value => exact put_alike codec keyFits h hfits key value
  | delete key => exact delete_alike codec keyFits h hfits key
  | get key => exact get_alike codec h key
  | «exists» key => exact exists_alike codec h key
  | scan id options needValues => exact scan_alike h id options needValues
  | turn id => exact turn_alike codec h id
  | begin => exact ⟨rfl, begin_alike h⟩
  | commit ok => exact commit_alike h ok
  | abort => exact abort_alike h

/-! ## Any calls -/

omit [DecidableEq Seg] in
theorem alike_begin (data : E → Option W) :
    Alike (beginLazy data : LMDBStorage E Seg W cu.Pos) (beginEager data) :=
  ⟨rfl, rfl, rfl, rfl, rfl, rfl, fun _ => Option.some_ne_none _, Or.inr ⟨_, rfl, rfl, rfl⟩⟩

theorem run_alike (h : Alike l e)
    (hfits : ∀ key k, codec.encodeKey key = some k → keyFits k = true) (ops : List (Op E Seg V)) :
    (l.run codec keyFits ops).2 = (e.run codec keyFits ops).2 ∧
      Alike (l.run codec keyFits ops).1 (e.run codec keyFits ops).1 := by
  induction ops generalizing l e with
  | nil => exact ⟨rfl, h⟩
  | cons op ops ih =>
    obtain ⟨hreply, halike⟩ := perform_alike codec keyFits h hfits op
    obtain ⟨hreplies, hend⟩ := ih halike
    exact ⟨congrArg₂ List.cons hreply hreplies, hend⟩

/-- (PROVED) Wherever the LMDB transaction of a lazily begun transaction is begun (at its first read
    or scan, at its commit, or at any `Op.begin` between its calls), each call returns what it
    returns on a transaction begun before its first call, and the data it leaves is the same. -/
theorem lazy_begin (codec : Codec E Seg W V) (keyFits : E → Bool) (cu : Cursors E W)
    (hfits : ∀ key k, codec.encodeKey key = some k → keyFits k = true) (data : E → Option W)
    (ops : List (Op E Seg V)) :
    let l := (beginLazy data : LMDBStorage E Seg W cu.Pos).run codec keyFits ops
    let e := (beginEager data : LMDBStorage E Seg W cu.Pos).run codec keyFits ops
    l.2 = e.2 ∧ l.1.data = e.1.data :=
  ⟨(run_alike codec keyFits (alike_begin data) hfits ops).1,
    (run_alike codec keyFits (alike_begin data) hfits ops).2.data⟩

/-! ## A run -/

/-- Keys of one number, encoded as themselves. -/
def numberCodec : Codec Nat Nat Nat Nat where
  encodeKey := fun key =>
    match key with
    | [n] => some n
    | _ => none
  decodeKey := fun n => some [n]
  upperBoundOfPrefix := fun key => key.head?.map (· + 1)
  encodeValue := some
  decodeValue := some

/-- The numbers a cursor walks over. -/
def numbers : List Nat := List.range 8

/-- Cursors on the rows below 8, in the order of the keys. -/
def numberCursors : Cursors Nat Nat where
  Pos := Nat
  first := fun m => numbers.find? fun n => (m n).isSome
  last := fun m => numbers.reverse.find? fun n => (m n).isSome
  setRange := fun m start => numbers.find? fun n => decide (start ≤ n) && (m n).isSome
  next := fun m pos => numbers.find? fun n => decide (pos < n) && (m n).isSome
  prev := fun m pos => numbers.reverse.find? fun n => decide (n < pos) && (m n).isSome
  key := fun m pos => if (m pos).isSome = true then some pos else none
  value := fun m pos => (m pos).getD 0

/-- Writes around the begin that a scan makes: the one before it waits, the one after it does not. -/
def numberOps : List (Op Nat Nat Nat) :=
  [.put [1] (some 10), .delete [1], .put [1] (some 11), .delete [2],
    .scan 0 ⟨none, false, none, none, none, none, none⟩ true, .turn 0, .turn 0, .turn 0,
    .delete [1], .put [3] (some 13), .get [1], .commit true]

theorem lazy_begin_numbers :
    let data := fun n => if n = 2 then some 20 else none
    let l := (beginLazy data : LMDBStorage Nat Nat Nat numberCursors.Pos).run numberCodec
      (fun _ => true) numberOps
    let e := (beginEager data : LMDBStorage Nat Nat Nat numberCursors.Pos).run numberCodec
      (fun _ => true) numberOps
    (l.2 = e.2 ∧ l.1.data = e.1.data) ∧ l.1.data 2 = none ∧ l.1.data 3 = some 13 ∧
      l.2.getLast? = some .unit :=
  ⟨lazy_begin numberCodec (fun _ => true) numberCursors (fun _ _ _ => rfl) _ numberOps,
    rfl, rfl, rfl⟩

end LMDBStorage

end Virtuals.Lmdb
