/-
  What a unit of the SQL storage hands over covers what it changed.

  While a transaction is open, its collected keys cover what its connection sees of its own
  (`TransactionOk`); those of a batch are the keys of its waiting writes (`BatchOk`). Each call keeps
  that, and the end hands the keys over with the data, or neither.
-/
import Virtuals.Sqlite.Context

namespace Virtuals.Sqlite

open Lib Notify
open Lmdb (Codec)

variable {E Seg W V : Type} [DecidableEq E] [DecidableEq Seg] {codec : Codec E Seg W V}

/-! ## Transactions -/

/-- A transaction begun on `data`. -/
structure TransactionOk (codec : Codec E Seg W V) (data : E → Option W)
    (s : TransactionStorage E Seg W) : Prop where
  handed : Handed codec.encodeKey data s.data s.notified s.context.committed
  live : s.context.closed = false → s.context.committed = false
  covers : s.context.closed = false → ∀ conn, s.context.conn = some conn →
    Covers codec.encodeKey s.context.modifiedKeys data conn

variable {data : E → Option W} {s : TransactionStorage E Seg W}

omit [DecidableEq E] in
theorem transactionOk_begin (codec : Codec E Seg W V) (data : E → Option W) :
    TransactionOk codec data (SQLiteTransaction.begin data) where
  handed := handed_none _ _
  live := fun _ => rfl
  covers := fun _ _ hconn => Option.some.inj hconn ▸ Covers.refl _ _

omit [DecidableEq E] [DecidableEq Seg] in
/-- An active transaction is open, on its connection. -/
theorem requireActive_some {t : SQLiteTransaction E Seg W} {conn : E → Option W}
    (h : t.requireActive = some conn) : t.closed = false ∧ t.conn = some conn := by
  unfold SQLiteTransaction.requireActive at h
  split_ifs at h with hclosed
  · exact ⟨by simpa using hclosed, h⟩

omit [DecidableEq E] in
/-- One more row through the connection, with its key. -/
theorem TransactionOk.write (h : TransactionOk codec data s) {conn conn' : E → Option W}
    (hactive : s.context.requireActive = some conn) {keys : Finset (List Seg)}
    (hcovers : Covers codec.encodeKey s.context.modifiedKeys data conn →
      Covers codec.encodeKey keys data conn') :
    TransactionOk codec data
      (s.setContext { s.context with conn := some conn', modifiedKeys := keys }) := by
  obtain ⟨hopen, hconn⟩ := requireActive_some hactive
  refine ⟨h.handed, h.live, fun _ m hm => ?_⟩
  obtain rfl : conn' = m := Option.some.inj hm
  exact hcovers (h.covers hopen conn hconn)

theorem transactionOk_put (h : TransactionOk codec data s) (key : List Seg) (value : Option V)
    (statement : Statement) :
    TransactionOk codec data (s.setContext (s.context.put codec key value statement).1) := by
  unfold SQLiteTransaction.put
  rcases value with _ | value
  · exact h
  · dsimp only
    rcases hkey : codec.encodeKey key with _ | e
    · exact h
    · rcases codec.encodeValue value with _ | w
      · exact h
      · dsimp only
        rcases hactive : s.context.requireActive with _ | conn
        · exact h
        · dsimp only
          split_ifs
          · exact h.write hactive fun hcovers => hcovers.update hkey (some w)
          · exact h

theorem transactionOk_delete (h : TransactionOk codec data s) (key : List Seg)
    (statement : Statement) :
    TransactionOk codec data (s.setContext (s.context.delete codec key statement).1) := by
  unfold SQLiteTransaction.delete
  rcases hkey : codec.encodeKey key with _ | e
  · exact h
  · dsimp only
    rcases hactive : s.context.requireActive with _ | conn
    · exact h
    · dsimp only
      split_ifs with hrun hdeleted
      · exact h.write hactive fun hcovers => hcovers.update hkey none
      · -- nothing was deleted, and the key does not count
        refine h.write hactive fun hcovers => ?_
        rw [update_absent (by simpa using hdeleted)]
        exact hcovers
      · exact h

omit [DecidableEq E] in
theorem transactionOk_commit (h : TransactionOk codec data s) (statement : Statement) :
    TransactionOk codec data (SQLiteTransaction.commit s statement).1 := by
  unfold SQLiteTransaction.commit
  dsimp only
  split_ifs with hended
  · exact h
  · rcases hactive : s.context.requireActive with _ | conn
    · exact h
    · obtain ⟨hopen, hconn⟩ := requireActive_some hactive
      obtain ⟨hdata, hnone⟩ := h.handed.untold (h.live hopen)
      have hfailed : TransactionOk codec data
          (s.setContext { s.context with conn := none, closed := true, aborted := true }) :=
        ⟨h.handed, fun hclosed => (by cases hclosed), fun hclosed => (by cases hclosed)⟩
      cases statement with
      | run =>
        refine ⟨?_, fun hclosed => (by cases hclosed), fun hclosed => (by cases hclosed)⟩
        show Handed codec.encodeKey data conn (s.notified ++ handOver s.context.modifiedKeys) true
        rw [hnone, List.nil_append]
        exact handed_commit (h.covers hopen conn hconn)
      | busy => exact hfailed
      | error => exact hfailed

omit [DecidableEq E] in
theorem transactionOk_abort (h : TransactionOk codec data s) (statement : Statement) :
    TransactionOk codec data (SQLiteTransaction.abort s statement).1 := by
  unfold SQLiteTransaction.abort
  dsimp only
  split_ifs
  · exact h
  · exact ⟨h.handed, fun hclosed => (by cases hclosed), fun hclosed => (by cases hclosed)⟩
  · exact ⟨h.handed, fun hclosed => (by cases hclosed), fun hclosed => (by cases hclosed)⟩

theorem transactionOk_perform (h : TransactionOk codec data s) (op : SQLiteTransaction.Op Seg V) :
    TransactionOk codec data (SQLiteTransaction.perform codec s op) := by
  cases op with
  | put key value statement => exact transactionOk_put h key value statement
  | delete key statement => exact transactionOk_delete h key statement
  | get key statement => exact h
  | «exists» key statement => exact h
  | commit statement => exact transactionOk_commit h statement
  | abort statement => exact transactionOk_abort h statement

/-- (PROVED) Whatever is called on a transaction, the keys it has handed over cover what it changed. -/
theorem transaction_handed (codec : Codec E Seg W V) (data : E → Option W)
    (ops : List (SQLiteTransaction.Op Seg V)) :
    let s := SQLiteTransaction.run codec data ops
    Handed codec.encodeKey data s.data s.notified s.context.committed := by
  suffices h : ∀ s, TransactionOk codec data s →
      TransactionOk codec data (ops.foldl (SQLiteTransaction.perform codec) s) from
    (h _ (transactionOk_begin codec data)).handed
  induction ops with
  | nil => exact fun s h => h
  | cons op ops ih => exact fun s h => ih _ (transactionOk_perform h op)

/-! ## Batches -/

/-- A batch begun on `data`. -/
structure BatchOk (codec : Codec E Seg W V) (data : E → Option W) (s : BatchStorage E Seg W) :
    Prop where
  handed : Handed codec.encodeKey data s.data s.notified s.context.written
  live : s.context.closed = false → s.context.written = false
  keys : ∀ e w, s.context.ops.get? e = some w →
    ∃ key ∈ s.context.modifiedKeys, codec.encodeKey key = some e

variable {b : BatchStorage E Seg W}

theorem batchOk_begin (codec : Codec E Seg W V) (data : E → Option W) :
    BatchOk codec data (SQLiteWriteBatch.begin data) where
  handed := handed_none _ _
  live := fun _ => rfl
  keys := fun _ _ hop => by cases hop

/-- One more write waits. -/
theorem BatchOk.queue (h : BatchOk codec data b) {key : List Seg} {e : E}
    (hkey : codec.encodeKey key = some e) (w : Option W) :
    BatchOk codec data (b.setContext { b.context with
      ops := b.context.ops.set e w
      modifiedKeys := insert key b.context.modifiedKeys }) := by
  refine ⟨h.handed, h.live, fun e' w' hop => ?_⟩
  by_cases he : e' = e
  · exact ⟨key, Finset.mem_insert_self _ _, he ▸ hkey⟩
  · obtain ⟨k, hk, hke⟩ := h.keys e' w' (by rw [← hop]; exact (PyDict.get?_set_of_ne _ _ he).symm)
    exact ⟨k, Finset.mem_insert_of_mem hk, hke⟩

theorem batchOk_put (h : BatchOk codec data b) (key : List Seg) (value : Option V) :
    BatchOk codec data (b.setContext (b.context.put codec key value).1) := by
  unfold SQLiteWriteBatch.put
  split_ifs
  · exact h
  · rcases value with _ | value
    · exact h
    · dsimp only
      rcases hkey : codec.encodeKey key with _ | e
      · exact h
      · rcases codec.encodeValue value with _ | w
        · exact h
        · exact h.queue hkey (some w)

theorem batchOk_delete (h : BatchOk codec data b) (key : List Seg) :
    BatchOk codec data (b.setContext (b.context.delete codec key).1) := by
  unfold SQLiteWriteBatch.delete
  split_ifs
  · exact h
  · rcases hkey : codec.encodeKey key with _ | e
    · exact h
    · exact h.queue hkey none

/-- The writes of a batch are covered by its keys. -/
theorem BatchOk.covers (h : BatchOk codec data b) (data : E → Option W) :
    Covers codec.encodeKey b.context.modifiedKeys data
      (SQLiteWriteBatch.applied b.context.ops data) := by
  have hkeys : ∀ op ∈ b.context.ops.items,
      ∃ key ∈ b.context.modifiedKeys, codec.encodeKey key = some op.1 := fun op hop =>
    h.keys op.1 op.2 ((PyDict.mem_items _ _ _).1 hop)
  have hdeleted : Covers codec.encodeKey b.context.modifiedKeys data
      ((b.context.ops.items.filter fun op => op.2.isNone).foldl
        (fun m op => Function.update m op.1 none) data) :=
    (Covers.refl _ data).foldl Prod.fst (fun _ => none) _
      fun op hop => hkeys op (List.mem_filter.1 hop).1
  exact hdeleted.foldl Prod.fst Prod.snd _ fun op hop => hkeys op (List.mem_filter.1 hop).1

/-- The end of a batch that was written, its keys handed over with its data. -/
theorem BatchOk.written (h : BatchOk codec data b) (hopen : b.context.closed = false)
    {data' : E → Option W}
    (hcovers : Covers codec.encodeKey b.context.modifiedKeys b.data data') :
    BatchOk codec data ((({ b with data := data' } : BatchStorage E Seg W).setContext
      { b.context with ops := .empty, closed := true, written := true }).notifyBatch
        b.context.modifiedKeys) := by
  obtain ⟨hdata, hnone⟩ := h.handed.untold (h.live hopen)
  refine ⟨?_, fun hclosed => (by cases hclosed), fun _ _ hop => by cases hop⟩
  show Handed codec.encodeKey data data' (b.notified ++ handOver b.context.modifiedKeys) true
  rw [hnone, List.nil_append]
  exact handed_commit (hdata ▸ hcovers)

theorem batchOk_write (h : BatchOk codec data b) (statement : Statement) :
    BatchOk codec data (SQLiteWriteBatch.write b statement).1 := by
  unfold SQLiteWriteBatch.write
  dsimp only
  split_ifs with hended hempty hrun
  · exact h
  · exact h.written (by simpa using (not_or.1 hended).1) (Covers.refl _ _)
  · exact h.written (by simpa using (not_or.1 hended).1) (h.covers b.data)
  · exact ⟨h.handed, fun hclosed => (by cases hclosed), fun _ _ hop => by cases hop⟩

theorem batchOk_abort (h : BatchOk codec data b) :
    BatchOk codec data (SQLiteWriteBatch.abort b).1 := by
  unfold SQLiteWriteBatch.abort
  dsimp only
  split_ifs
  · exact h
  · exact ⟨h.handed, fun hclosed => (by cases hclosed), fun _ _ hop => by cases hop⟩

theorem batchOk_perform (h : BatchOk codec data b) (op : SQLiteWriteBatch.Op Seg V) :
    BatchOk codec data (SQLiteWriteBatch.perform codec b op) := by
  cases op with
  | put key value => exact batchOk_put h key value
  | delete key => exact batchOk_delete h key
  | write statement => exact batchOk_write h statement
  | abort => exact batchOk_abort h

/-- (PROVED) The same for a batch. -/
theorem batch_handed (codec : Codec E Seg W V) (data : E → Option W)
    (ops : List (SQLiteWriteBatch.Op Seg V)) :
    let s := SQLiteWriteBatch.run codec data ops
    Handed codec.encodeKey data s.data s.notified s.context.written := by
  suffices h : ∀ s, BatchOk codec data s →
      BatchOk codec data (ops.foldl (SQLiteWriteBatch.perform codec) s) from
    (h _ (batchOk_begin codec data)).handed
  induction ops with
  | nil => exact fun s h => h
  | cons op ops ih => exact fun s h => ih _ (batchOk_perform h op)

end Virtuals.Sqlite
