/-
  What an LMDB transaction or batch hands over covers what it changed.

  A pending transaction's keys cover the overlay of its pending writes. When it begins, the deletes
  that found nothing take their keys out of the set, and only those: such a key is missing in the
  data and in the overlay (`covers_replay`). From then on a put adds its key, and a delete does where
  it finds something.
-/
import Virtuals.Lmdb.LazyBegin
import Virtuals.Lmdb.WriteBatch

namespace Virtuals.Lmdb

open Lib

variable {E Seg W V : Type} [DecidableEq E] [DecidableEq Seg] {codec : Codec E Seg W V}
  {keyFits : E → Bool}

/-! ## Pending writes -/

/-- Every pending write is under the encoding of its key. -/
def Waiting (codec : Codec E Seg W V) (pending : PyDict E (List Seg × Option W)) : Prop :=
  ∀ e a, pending.get? e = some a → codec.encodeKey a.1 = some e

omit [DecidableEq Seg] in
theorem waiting_empty (codec : Codec E Seg W V) : Waiting codec .empty :=
  fun _ _ h => by cases h

omit [DecidableEq Seg] in
theorem Waiting.set {pending : PyDict E (List Seg × Option W)} (h : Waiting codec pending)
    {key : List Seg} {e : E} (hkey : codec.encodeKey key = some e) (w : Option W) :
    Waiting codec (pending.set e (key, w)) := fun e' a ha => by
  rw [PyDict.get?_set] at ha
  split_ifs at ha with he
  · rw [← Option.some.inj ha, he]
    exact hkey
  · exact h e' a ha

/-- Keys that still have their old values may be discarded. -/
theorem covers_discardMissing {pending : PyDict E (List Seg × Option W)} (h : Waiting codec pending)
    {keys : Finset (List Seg)} {m m' : E → Option W} (hcovers : Covers codec.encodeKey keys m m')
    {missing : List E} (hsame : ∀ e ∈ missing, m' e = m e) :
    Covers codec.encodeKey (discardMissing keys pending missing) m m' := by
  unfold discardMissing
  induction missing generalizing keys with
  | nil => exact hcovers
  | cons e missing ih =>
    rw [List.foldl_cons]
    refine ih ?_ fun e' he' => hsame e' (List.mem_cons_of_mem e he')
    rcases hget : pending.get? e with _ | ⟨key, w⟩
    · exact hcovers
    · exact hcovers.erase (h e _ hget) (hsame e List.mem_cons_self)

/-- (PROVED) The keys that a replay keeps cover what it changes. -/
theorem covers_replay {pending : PyDict E (List Seg × Option W)} (h : Waiting codec pending)
    {keys : Finset (List Seg)} {data m : E → Option W}
    (hcovers : Covers codec.encodeKey keys m (overlay (pending.map Prod.snd) data))
    (hdata : data = m) :
    Covers codec.encodeKey (discardMissing keys pending (replayPending data pending).2) m
      (replayPending data pending).1 := by
  have hmap : (replayPending data pending).1 = overlay (pending.map Prod.snd) data :=
    replay_fst _ _
  rw [hmap]
  refine covers_discardMissing h hcovers fun e he => ?_
  obtain ⟨hdelete, hnone⟩ := (mem_replay_snd _ _ _).1 he
  rw [← hdata, hnone]
  unfold overlay
  rw [hdelete]

/-! ## Transactions -/

variable {cu : Cursors E W}

namespace LMDBStorage

/-- A transaction begun on `data`, lazily or not. -/
structure TransactionOk (codec : Codec E Seg W V) (data : E → Option W)
    (s : LMDBStorage E Seg W cu.Pos) : Prop where
  handed : Handed codec.encodeKey data s.data s.notified s.txn.committed
  live : s.txn.closed = false → s.txn.committed = false
  waiting : ∀ pending, s.txn.pending = some pending →
    s.txn.lmdbTxn = none ∧ Waiting codec pending ∧
      Covers codec.encodeKey s.txn.modifiedKeys data (s.view pending)
  begun : ∀ m, s.txn.lmdbTxn = some m → Covers codec.encodeKey s.txn.modifiedKeys data m

variable {data : E → Option W} {s : LMDBStorage E Seg W cu.Pos}

theorem transactionOk_lazy (codec : Codec E Seg W V) (data : E → Option W) :
    TransactionOk codec data (beginLazy data : LMDBStorage E Seg W cu.Pos) where
  handed := handed_none _ _
  live := fun _ => rfl
  waiting := fun pending hpending => by
    obtain rfl : PyDict.empty = pending := Option.some.inj hpending
    exact ⟨rfl, waiting_empty codec, Covers.refl _ _⟩
  begun := fun _ hm => by cases hm

theorem transactionOk_eager (codec : Codec E Seg W V) (data : E → Option W) :
    TransactionOk codec data (beginEager data : LMDBStorage E Seg W cu.Pos) where
  handed := handed_none _ _
  live := fun _ => rfl
  waiting := fun _ hpending => by cases hpending
  begun := fun _ hm => Option.some.inj hm ▸ Covers.refl _ _

/-- A scan's state is not looked at. -/
theorem TransactionOk.setScan (h : TransactionOk codec data s) (id : Nat)
    (scan : LMDBScan E Seg cu.Pos) : TransactionOk codec data (s.setScan id scan) :=
  ⟨h.handed, h.live, h.waiting, h.begun⟩

/-- What `requireActive` leaves: an open transaction on the map it returns, or what was there. -/
theorem TransactionOk.requireActive (h : TransactionOk codec data s) :
    (∃ e, s.requireActive = (s, .error e)) ∨
      ∃ s' m, s.requireActive = (s', .ok m) ∧ TransactionOk codec data s' ∧
        s'.txn.closed = false ∧ s'.txn.pending = none ∧ s'.txn.lmdbTxn = some m := by
  unfold LMDBStorage.requireActive
  dsimp only
  split_ifs with hclosed
  · exact Or.inl ⟨_, rfl⟩
  · have hopen : s.txn.closed = false := by simpa using hclosed
    rcases hmap : s.txn.lmdbTxn with _ | m
    · rcases hpending : s.txn.pending with _ | pending
      · exact Or.inl ⟨_, rfl⟩
      · obtain ⟨-, hwaiting, hcovers⟩ := h.waiting pending hpending
        have hdata := (h.handed.untold (h.live hopen)).1
        refine Or.inr ⟨_, _, rfl, ⟨h.handed, h.live, fun _ hnone => (by cases hnone), ?_⟩, hopen,
          rfl, rfl⟩
        intro m hm
        rw [← Option.some.inj hm]
        exact covers_replay hwaiting hcovers hdata
    · refine Or.inr ⟨s, m, rfl, h, hopen, ?_, hmap⟩
      rcases hpending : s.txn.pending with _ | pending
      · rfl
      · rw [(h.waiting pending hpending).1] at hmap
        cases hmap

/-- A step that needs the LMDB transaction. -/
theorem TransactionOk.active (h : TransactionOk codec data s)
    (bad : LMDBStorage E Seg W cu.Pos → StorageError →
      LMDBStorage E Seg W cu.Pos × Reply Seg V)
    (good : LMDBStorage E Seg W cu.Pos → (E → Option W) →
      LMDBStorage E Seg W cu.Pos × Reply Seg V)
    (hbad : ∀ er, TransactionOk codec data (bad s er).1)
    (hgood : ∀ s' m, TransactionOk codec data s' → s'.txn.closed = false →
      s'.txn.pending = none → s'.txn.lmdbTxn = some m → TransactionOk codec data (good s' m).1) :
    TransactionOk codec data
      (match s.requireActive with
        | (s, .error er) => bad s er
        | (s, .ok m) => good s m).1 := by
  rcases h.requireActive with ⟨er, heq⟩ | ⟨s', m, heq, h', hopen, hpending, hm⟩
  · rw [heq]
    exact hbad er
  · rw [heq]
    exact hgood s' m h' hopen hpending hm

/-- A write through the LMDB transaction, with the keys it leaves. -/
theorem TransactionOk.write (h : TransactionOk codec data s) (hpending : s.txn.pending = none)
    {keys : Finset (List Seg)} {m : E → Option W} (hcovers : Covers codec.encodeKey keys data m) :
    TransactionOk codec data
      { s with txn := { s.txn with lmdbTxn := some m, modifiedKeys := keys } } :=
  ⟨h.handed, h.live, fun pending hsome => (by
      rw [show s.txn.pending = some pending from hsome] at hpending
      cases hpending),
    fun _ hm => Option.some.inj hm ▸ hcovers⟩

/-- One more write waits. -/
theorem TransactionOk.pend (h : TransactionOk codec data s)
    {pending : PyDict E (List Seg × Option W)} (hpending : s.txn.pending = some pending)
    {key : List Seg} {e : E} (hkey : codec.encodeKey key = some e) (w : Option W) :
    TransactionOk codec data ((s.setPending (pending.set e (key, w))).addModified key) := by
  obtain ⟨hnone, hwaiting, hcovers⟩ := h.waiting pending hpending
  refine ⟨h.handed, h.live, fun pending' hpending' => ?_, fun m hm => ?_⟩
  · obtain rfl : pending.set e (key, w) = pending' := Option.some.inj hpending'
    refine ⟨hnone, hwaiting.set hkey w, ?_⟩
    show Covers codec.encodeKey (insert key s.txn.modifiedKeys) data
      (s.view (pending.set e (key, w)))
    rw [view_set]
    exact hcovers.update hkey w
  · rw [show s.txn.lmdbTxn = some m from hm] at hnone
    cases hnone

theorem transactionOk_put (h : TransactionOk codec data s) (key : List Seg) (value : Option V) :
    TransactionOk codec data (s.put codec keyFits key value).1 := by
  unfold put
  rcases value with _ | value
  · exact h
  · dsimp only
    rcases hkey : codec.encodeKey key with _ | e
    · exact h
    · rcases codec.encodeValue value with _ | w
      · exact h
      · dsimp only
        by_cases hclosed : s.txn.closed = true
        · rw [if_pos hclosed]
          exact h
        · rw [if_neg hclosed]
          rcases hpending : s.txn.pending with _ | pending
          · exact h.active (fun s er => (s, .error er))
              (fun s m => ((s.setMap (Function.update m e (some w))).addModified key, .unit))
              (fun _ => h) fun s' m h' _ hnone hm =>
                h'.write hnone ((h'.begun m hm).update hkey (some w))
          · dsimp only
            split_ifs
            · exact h.pend hpending hkey (some w)
            · exact h

theorem transactionOk_delete (h : TransactionOk codec data s) (key : List Seg) :
    TransactionOk codec data (s.delete codec keyFits key : _ × Reply Seg V).1 := by
  unfold delete
  rcases hkey : codec.encodeKey key with _ | e
  · exact h
  · dsimp only
    by_cases hclosed : s.txn.closed = true
    · rw [if_pos hclosed]
      exact h
    · rw [if_neg hclosed]
      rcases hpending : s.txn.pending with _ | pending
      · refine h.active (fun s er => (s, .error er)) (fun s m =>
          (if (m e).isSome = true then (s.setMap (Function.update m e none)).addModified key
            else s.setMap (Function.update m e none), .unit)) (fun _ => h)
          fun s' m h' _ hnone hm => ?_
        dsimp only
        split_ifs with hexisted
        · exact h'.write hnone ((h'.begun m hm).update hkey none)
        · -- nothing was there, and the map stays as it is
          refine h'.write hnone ?_
          rw [update_absent (by simpa using hexisted)]
          exact h'.begun m hm
      · dsimp only
        split_ifs
        · exact h.pend hpending hkey none
        · exact h

theorem transactionOk_get (h : TransactionOk codec data s) (key : List Seg) :
    TransactionOk codec data (s.get codec key).1 := by
  unfold get
  rcases codec.encodeKey key with _ | e
  · exact h
  · refine h.active (fun s er => (s, .error er)) _ (fun _ => h) fun s' m h' _ _ _ => ?_
    rcases m e with _ | w
    · exact h'
    · dsimp only
      rcases codec.decodeValue w with _ | v
      · exact h'
      · exact h'

theorem transactionOk_exists (h : TransactionOk codec data s) (key : List Seg) :
    TransactionOk codec data (s.exists codec key).1 := by
  unfold «exists»
  rcases codec.encodeKey key with _ | e
  · exact h
  · exact h.active (fun s er => (s, .error er)) (fun s m => (s, .bool (m e).isSome))
      (fun _ => h) fun s' m h' _ _ _ => h'

theorem transactionOk_scan (h : TransactionOk codec data s) (id : Nat)
    (options : StorageScanOptions E Seg) (needValues : Bool) :
    TransactionOk codec data (s.scan id options needValues : _ × Reply Seg V).1 := by
  unfold scan
  exact h.active (fun s er => (s, .error er))
    (fun s _ => (s.setScan id ⟨options, needValues, .created⟩, .unit)) (fun _ => h)
    fun s' m h' _ _ _ => h'.setScan id _

theorem transactionOk_withActive (h : TransactionOk codec data s) (id : Nat)
    (scan : LMDBScan E Seg cu.Pos) (f : (E → Option W) → At cu.Pos × Reply Seg V) :
    TransactionOk codec data (s.withActive id scan f).1 := by
  unfold withActive
  exact h.active (fun s er => (s.setScan id { scan with state := .done }, .error er))
    (fun s m => (s.setScan id { scan with state := (f m).1 }, (f m).2))
    (fun _ => h.setScan id _) fun s' m h' _ _ _ => h'.setScan id _

theorem transactionOk_turn (h : TransactionOk codec data s) (id : Nat) :
    TransactionOk codec data (s.turn codec id).1 := by
  unfold turn
  rcases s.txn.scans id with _ | scan
  · exact h
  · dsimp only
    rcases scan.state with _ | ⟨pos, count⟩ | ⟨pos, count⟩ | ⟨pos, count⟩ | _
    · dsimp only
      rcases startBound codec scan.options with _ | start
      · exact h.setScan id _
      · exact transactionOk_withActive h id scan _
    · dsimp only
      split_ifs
      · exact h.setScan id _
      · exact h.setScan id _
    · exact transactionOk_withActive h id scan _
    · exact transactionOk_withActive h id scan _
    · exact h

/-- A transaction over without a commit. -/
theorem TransactionOk.failed (h : TransactionOk codec data s) (hopen : s.txn.closed = false) :
    TransactionOk codec data (s.finish false) := by
  refine ⟨?_, fun hclosed => (by cases hclosed), fun _ hpending => (by cases hpending),
    fun _ hm => by cases hm⟩
  show Handed codec.encodeKey data s.data s.notified false
  rw [← h.live hopen]
  exact h.handed

/-- A transaction over with one. -/
theorem TransactionOk.committed (h : TransactionOk codec data s) (hopen : s.txn.closed = false)
    {keys : Finset (List Seg)} {m : E → Option W} (hcovers : Covers codec.encodeKey keys data m) :
    TransactionOk codec data
      ({ s with data := m, txn := { s.txn with modifiedKeys := keys } }.finish true).notifyBatch := by
  obtain ⟨hdata, hnone⟩ := h.handed.untold (h.live hopen)
  have hnotified : ({ s with data := m, txn := { s.txn with modifiedKeys := keys } }.finish
      true).notifyBatch = { s with
        data := m
        txn := { s.txn with
          lmdbTxn := none, pending := none, modifiedKeys := keys, closed := true,
          committed := true, aborted := false }
        notified := handOver keys } := by
    unfold notifyBatch handOver finish
    dsimp only
    rw [hnone]
    split_ifs <;> rfl
  rw [hnotified]
  exact ⟨handed_commit hcovers, fun hclosed => (by cases hclosed),
    fun _ hpending => (by cases hpending), fun _ hm => by cases hm⟩

theorem transactionOk_commit (h : TransactionOk codec data s) (ok : Bool) :
    TransactionOk codec data (s.commit ok : _ × Reply Seg V).1 := by
  unfold commit
  by_cases hclosed : s.txn.closed = true
  · rw [if_pos hclosed]
    exact h
  · rw [if_neg hclosed]
    have hopen : s.txn.closed = false := by simpa using hclosed
    rcases hpending : s.txn.pending with _ | pending
    · refine h.active (fun s er => (s.finish false, .error er))
        (fun s m => if ok = true then (({ s with data := m }.finish true).notifyBatch, .unit)
          else (s.finish false, .error .StorageTransactionError))
        (fun _ => h.failed hopen) fun s' m h' hopen' _ hm => ?_
      split_ifs
      · exact h'.committed hopen' (h'.begun m hm)
      · exact h'.failed hopen'
    · obtain ⟨-, hwaiting, hcovers⟩ := h.waiting pending hpending
      dsimp only
      split_ifs
      · exact h.committed hopen
          (covers_replay hwaiting hcovers (h.handed.untold (h.live hopen)).1)
      · exact h.failed hopen

theorem transactionOk_abort (h : TransactionOk codec data s) :
    TransactionOk codec data (s.abort : _ × Reply Seg V).1 := by
  unfold abort
  split_ifs with hclosed
  · exact h
  · exact h.failed (by simpa using hclosed)

theorem transactionOk_perform (h : TransactionOk codec data s) (op : Op E Seg V) :
    TransactionOk codec data (s.perform codec keyFits op).1 := by
  cases op with
  | put key value => exact transactionOk_put h key value
  | delete key => exact transactionOk_delete h key
  | get key => exact transactionOk_get h key
  | «exists» key => exact transactionOk_exists h key
  | scan id options needValues => exact transactionOk_scan h id options needValues
  | turn id => exact transactionOk_turn h id
  | begin =>
    rcases h.requireActive with ⟨e, heq⟩ | ⟨s', m, heq, h', -⟩
    · exact (congrArg Prod.fst heq).symm ▸ h
    · exact (congrArg Prod.fst heq).symm ▸ h'
  | commit ok => exact transactionOk_commit h ok
  | abort => exact transactionOk_abort h

/-- (PROVED) The keys that a transaction has handed over cover what it changed, begun lazily or not. -/
theorem transactionOk_run (h : TransactionOk codec data s) (ops : List (Op E Seg V)) :
    TransactionOk codec data (s.run codec keyFits ops).1 := by
  induction ops generalizing s with
  | nil => exact h
  | cons op ops ih => exact ih (transactionOk_perform h op)

end LMDBStorage

/-! ## Batches -/

namespace LMDBWriteBatch

/-- A batch begun on `data`. -/
structure BatchOk (codec : Codec E Seg W V) (data : E → Option W) (s : BatchStorage E Seg W) :
    Prop where
  handed : Handed codec.encodeKey data s.data s.notified s.context.written
  live : s.context.closed = false → s.context.written = false
  waiting : Waiting codec s.context.ops
  keys : ∀ e a, s.context.ops.get? e = some a → a.1 ∈ s.context.modifiedKeys

variable {data : E → Option W} {b : BatchStorage E Seg W}

theorem batchOk_begin (codec : Codec E Seg W V) (data : E → Option W) :
    BatchOk codec data (begin data) where
  handed := handed_none _ _
  live := fun _ => rfl
  waiting := waiting_empty codec
  keys := fun _ _ hop => by cases hop

/-- One more write waits. -/
theorem BatchOk.queue (h : BatchOk codec data b) {key : List Seg} {e : E}
    (hkey : codec.encodeKey key = some e) (w : Option W) :
    BatchOk codec data (b.setContext { b.context with
      ops := b.context.ops.set e (key, w)
      modifiedKeys := insert key b.context.modifiedKeys }) := by
  refine ⟨h.handed, h.live, h.waiting.set hkey w, fun e' a ha => ?_⟩
  have hget : (b.context.ops.set e (key, w)).get? e' = some a := ha
  rw [PyDict.get?_set] at hget
  split_ifs at hget with he
  · rw [← Option.some.inj hget]
    exact Finset.mem_insert_self _ _
  · exact Finset.mem_insert_of_mem (h.keys e' a hget)

theorem batchOk_put (h : BatchOk codec data b) (key : List Seg) (value : Option V) :
    BatchOk codec data (b.setContext (b.context.put codec keyFits key value).1) := by
  unfold put
  rcases value with _ | value
  · exact h
  · dsimp only
    rcases hkey : codec.encodeKey key with _ | e
    · exact h
    · rcases codec.encodeValue value with _ | w
      · exact h
      · dsimp only
        split_ifs
        · exact h
        · exact h
        · exact h.queue hkey (some w)

theorem batchOk_delete (h : BatchOk codec data b) (key : List Seg) :
    BatchOk codec data (b.setContext (b.context.delete codec keyFits key).1) := by
  unfold delete
  rcases hkey : codec.encodeKey key with _ | e
  · exact h
  · dsimp only
    split_ifs
    · exact h
    · exact h
    · exact h.queue hkey none

/-- The keys of the waiting writes cover their overlay. -/
theorem BatchOk.covers (h : BatchOk codec data b) (m : E → Option W) :
    Covers codec.encodeKey b.context.modifiedKeys m (overlay (b.context.ops.map Prod.snd) m) :=
  fun e hne => by
    rcases hget : b.context.ops.get? e with _ | a
    · refine absurd ?_ hne
      unfold overlay
      rw [PyDict.get?_map, hget]
      rfl
    · exact ⟨a.1, h.keys e a hget, h.waiting e a hget⟩

/-- A batch over, written or not. -/
theorem BatchOk.end {data' : E → Option W} {notified : List (Finset (List Seg))}
    {keys : Finset (List Seg)} {written aborted : Bool}
    (h : Handed codec.encodeKey data data' notified written) :
    BatchOk codec data ⟨data', ⟨.empty, keys, true, written, aborted⟩, notified⟩ :=
  ⟨h, fun hclosed => (by cases hclosed), waiting_empty codec, fun _ _ hop => by cases hop⟩

theorem batchOk_write (h : BatchOk codec data b) (failure : Option Notify.StorageError) :
    BatchOk codec data (write b failure).1 := by
  unfold write
  dsimp only
  by_cases hended : b.context.closed = true ∨ b.context.written = true ∨ b.context.aborted = true
  · rw [if_pos hended]
    exact ⟨h.handed, fun hclosed => (by cases hclosed), h.waiting, h.keys⟩
  · rw [if_neg hended]
    have hopen : b.context.closed = false := by simpa using (not_or.1 hended).1
    obtain ⟨hdata, hnone⟩ := h.handed.untold (h.live hopen)
    by_cases hempty : b.context.ops.items = []
    · rw [if_pos hempty]
      refine BatchOk.end ?_
      show Handed codec.encodeKey data b.data (b.notified ++ handOver b.context.modifiedKeys) true
      rw [hnone, List.nil_append, hdata]
      exact handed_commit (Covers.refl _ _)
    · rw [if_neg hempty]
      rcases failure with _ | e
      · refine BatchOk.end ?_
        show Handed codec.encodeKey data _ (b.notified ++ handOver (discardMissing
          b.context.modifiedKeys b.context.ops (replayPending b.data b.context.ops).2)) true
        rw [hnone, List.nil_append]
        exact handed_commit (covers_replay h.waiting (hdata ▸ h.covers b.data) hdata)
      · exact BatchOk.end h.handed

theorem batchOk_abort (h : BatchOk codec data b) : BatchOk codec data (abort b).1 := by
  unfold abort
  dsimp only
  split_ifs
  · exact ⟨h.handed, fun hclosed => (by cases hclosed), h.waiting, h.keys⟩
  · exact BatchOk.end h.handed

theorem batchOk_perform (h : BatchOk codec data b) (op : Op Seg V) :
    BatchOk codec data (perform codec keyFits b op) := by
  cases op with
  | put key value => exact batchOk_put h key value
  | delete key => exact batchOk_delete h key
  | write failure => exact batchOk_write h failure
  | abort => exact batchOk_abort h

/-- (PROVED) Whatever is called on a batch, the keys it has handed over cover what it changed. -/
theorem batch_handed (codec : Codec E Seg W V) (keyFits : E → Bool) (data : E → Option W)
    (ops : List (Op Seg V)) :
    let s := run codec keyFits data ops
    Handed codec.encodeKey data s.data s.notified s.context.written := by
  suffices h : ∀ s, BatchOk codec data s →
      BatchOk codec data (ops.foldl (perform codec keyFits) s) from
    (h _ (batchOk_begin codec data)).handed
  induction ops with
  | nil => exact fun s h => h
  | cons op ops ih => exact fun s h => ih _ (batchOk_perform h op)

end LMDBWriteBatch

end Virtuals.Lmdb
