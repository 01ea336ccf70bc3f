/-
  What a unit of the RocksDB storage hands over covers what it changed.

  Every put and delete adds its key, so while a unit is open its keys cover what it would write
  (`TransactionOk`, `BatchOk`); its end hands them over with the data, or neither.
-/
import Virtuals.Rocksdb.Context

namespace Virtuals.Rocksdb

open Lib Notify
open Lmdb (Codec)

variable {E Seg W V : Type} [DecidableEq E] [DecidableEq Seg] {codec : Codec E Seg W V}

/-! ## Transactions -/

/-- A transaction begun on `data`. -/
structure TransactionOk (codec : Codec E Seg W V) (data : E → Option W)
    (s : TransactionStorage E Seg W) : Prop where
  handed : Handed codec.encodeKey data s.data s.notified s.context.committed
  covers : Covers codec.encodeKey s.context.modifiedKeys data s.context.rdbpyTxn

variable {data : E → Option W} {s : TransactionStorage E Seg W}

omit [DecidableEq E] in
theorem transactionOk_begin (codec : Codec E Seg W V) (data : E → Option W) :
    TransactionOk codec data (RocksDBTransaction.begin data) where
  handed := handed_none _ _
  covers := Covers.refl _ _

theorem transactionOk_put (h : TransactionOk codec data s) (key : List Seg) (value : Option V)
    (native : Native) :
    TransactionOk codec data (s.setContext (s.context.put codec key value native).1) := by
  unfold RocksDBTransaction.put
  by_cases hclosed : s.context.closed = true
  · rw [if_pos hclosed]
    exact h
  · rw [if_neg hclosed]
    rcases value with _ | value
    · exact h
    · dsimp only
      rcases hkey : codec.encodeKey key with _ | e
      · exact h
      · rcases codec.encodeValue value with _ | w
        · exact h
        · dsimp only
          split_ifs
          · exact ⟨h.handed, h.covers.update hkey (some w)⟩
          · exact h

theorem transactionOk_delete (h : TransactionOk codec data s) (key : List Seg) (native : Native) :
    TransactionOk codec data (s.setContext (s.context.delete codec key native).1) := by
  unfold RocksDBTransaction.delete
  by_cases hclosed : s.context.closed = true
  · rw [if_pos hclosed]
    exact h
  · rw [if_neg hclosed]
    rcases hkey : codec.encodeKey key with _ | e
    · exact h
    · dsimp only
      split_ifs
      · exact ⟨h.handed, h.covers.update hkey none⟩
      · exact h

omit [DecidableEq E] in
theorem transactionOk_commit (h : TransactionOk codec data s) (native : Native) :
    TransactionOk codec data (RocksDBTransaction.commit s native).1 := by
  unfold RocksDBTransaction.commit
  dsimp only
  split_ifs with hended hrun
  · exact ⟨h.handed, h.covers⟩
  · have hlive : s.context.committed = false := by
      simp only [RocksDBTransaction.ended, Bool.or_eq_true, not_or, Bool.not_eq_true] at hended
      exact hended.1.2
    refine ⟨?_, h.covers⟩
    show Handed codec.encodeKey data s.context.rdbpyTxn
      (s.notified ++ handOver s.context.modifiedKeys) true
    rw [(h.handed.untold hlive).2, List.nil_append]
    exact handed_commit h.covers
  · exact ⟨h.handed, h.covers⟩

omit [DecidableEq E] in
theorem transactionOk_abort (h : TransactionOk codec data s) (native : Native) :
    TransactionOk codec data (RocksDBTransaction.abort s native).1 := by
  unfold RocksDBTransaction.abort
  dsimp only
  split_ifs
  · exact ⟨h.handed, h.covers⟩
  · exact ⟨h.handed, h.covers⟩
  · exact ⟨h.handed, h.covers⟩

theorem transactionOk_perform (h : TransactionOk codec data s)
    (op : RocksDBTransaction.Op Seg V) :
    TransactionOk codec data (RocksDBTransaction.perform codec s op) := by
  cases op with
  | put key value native => exact transactionOk_put h key value native
  | delete key native => exact transactionOk_delete h key native
  | get key native => exact h
  | commit native => exact transactionOk_commit h native
  | abort native => exact transactionOk_abort h native

/-- (PROVED) Whatever is called on a transaction, the keys it has handed over cover what it changed. -/
theorem transaction_handed (codec : Codec E Seg W V) (data : E → Option W)
    (ops : List (RocksDBTransaction.Op Seg V)) :
    let s := RocksDBTransaction.run codec data ops
    Handed codec.encodeKey data s.data s.notified s.context.committed := by
  suffices h : ∀ s, TransactionOk codec data s →
      TransactionOk codec data (ops.foldl (RocksDBTransaction.perform codec) s) from
    (h _ (transactionOk_begin codec data)).handed
  induction ops with
  | nil => exact fun s h => h
  | cons op ops ih => exact fun s h => ih _ (transactionOk_perform h op)

/-! ## Batches -/

/-- A batch begun on `data`. -/
structure BatchOk (codec : Codec E Seg W V) (data : E → Option W) (s : BatchStorage E Seg W) :
    Prop where
  handed : Handed codec.encodeKey data s.data s.notified s.context.committed
  keys : ∀ op ∈ s.context.rdbpyBatch,
    ∃ key ∈ s.context.modifiedKeys, codec.encodeKey key = some op.1

variable {b : BatchStorage E Seg W}

omit [DecidableEq E] in
theorem batchOk_begin (codec : Codec E Seg W V) (data : E → Option W) :
    BatchOk codec data (RocksDBWriteBatch.begin data) where
  handed := handed_none _ _
  keys := fun _ hop => by cases hop

omit [DecidableEq E] in
/-- One more write waits. -/
theorem BatchOk.queue (h : BatchOk codec data b) {key : List Seg} {e : E}
    (hkey : codec.encodeKey key = some e) (w : Option W) :
    BatchOk codec data (b.setContext { b.context with
      rdbpyBatch := b.context.rdbpyBatch ++ [(e, w)]
      modifiedKeys := insert key b.context.modifiedKeys }) := by
  refine ⟨h.handed, fun op hop => ?_⟩
  rcases List.mem_append.1 hop with hmem | hlast
  · obtain ⟨k, hk, hke⟩ := h.keys op hmem
    exact ⟨k, Finset.mem_insert_of_mem hk, hke⟩
  · rw [List.mem_singleton.1 hlast]
    exact ⟨key, Finset.mem_insert_self _ _, hkey⟩

omit [DecidableEq E] in
theorem batchOk_put (h : BatchOk codec data b) (key : List Seg) (value : Option V)
    (native : Native) :
    BatchOk codec data (b.setContext (b.context.put codec key value native).1) := by
  unfold RocksDBWriteBatch.put
  by_cases hclosed : b.context.closed = true
  · rw [if_pos hclosed]
    exact h
  · rw [if_neg hclosed]
    rcases value with _ | value
    · exact h
    · dsimp only
      rcases hkey : codec.encodeKey key with _ | e
      · exact h
      · rcases codec.encodeValue value with _ | w
        · exact h
        · dsimp only
          split_ifs
          · exact h.queue hkey (some w)
          · exact h

omit [DecidableEq E] in
theorem batchOk_delete (h : BatchOk codec data b) (key : List Seg) (native : Native) :
    BatchOk codec data (b.setContext (b.context.delete codec key native).1) := by
  unfold RocksDBWriteBatch.delete
  by_cases hclosed : b.context.closed = true
  · rw [if_pos hclosed]
    exact h
  · rw [if_neg hclosed]
    rcases hkey : codec.encodeKey key with _ | e
    · exact h
    · dsimp only
      split_ifs
      · exact h.queue hkey none
      · exact h

omit [DecidableEq E] in
/-- An ended batch has no way to be written any more. -/
theorem BatchOk.end (h : BatchOk codec data b) {b' : RocksDBWriteBatch E Seg W}
    (hcommitted : b'.committed = b.context.committed) (hbatch : b'.rdbpyBatch = []) :
    BatchOk codec data (b.setContext b') := by
  refine ⟨?_, fun op hop => ?_⟩
  · show Handed codec.encodeKey data b.data b.notified b'.committed
    rw [hcommitted]
    exact h.handed
  · exact absurd (hbatch ▸ hop : op ∈ []) List.not_mem_nil

theorem batchOk_write (h : BatchOk codec data b) (storageOpen : Bool) (native : Native) :
    BatchOk codec data (RocksDBWriteBatch.write b storageOpen native).1 := by
  unfold RocksDBWriteBatch.write
  dsimp only
  split_ifs with hended hopen hrun
  · exact ⟨h.handed, h.keys⟩
  · exact h
  · simp only [RocksDBWriteBatch.ended, Bool.or_eq_true, not_or, Bool.not_eq_true] at hended
    obtain ⟨⟨-, hwritten⟩, haborted⟩ := hended
    have hlive : b.context.committed = false := by simp [RocksDBWriteBatch.committed, hwritten]
    obtain ⟨hdata, hnone⟩ := h.handed.untold hlive
    refine ⟨?_, fun _ hop => by cases hop⟩
    show Handed codec.encodeKey data (RocksDBWriteBatch.applied b.context.rdbpyBatch b.data)
      (b.notified ++ handOver b.context.modifiedKeys) (true && !b.context.aborted)
    rw [hnone, hdata, haborted, List.nil_append]
    exact handed_commit ((Covers.refl _ data).foldl Prod.fst Prod.snd _ h.keys)
  · simp only [RocksDBWriteBatch.ended, Bool.or_eq_true, not_or, Bool.not_eq_true] at hended
    exact h.end (by simp [RocksDBWriteBatch.committed, hended]) rfl

omit [DecidableEq E] in
theorem batchOk_abort (h : BatchOk codec data b) :
    BatchOk codec data (RocksDBWriteBatch.abort b).1 := by
  unfold RocksDBWriteBatch.abort
  dsimp only
  split_ifs with hended
  · exact ⟨h.handed, h.keys⟩
  · simp only [RocksDBWriteBatch.ended, Bool.or_eq_true, not_or, Bool.not_eq_true] at hended
    exact h.end (by simp [RocksDBWriteBatch.committed, hended]) rfl

theorem batchOk_perform (h : BatchOk codec data b) (op : RocksDBWriteBatch.Op Seg V) :
    BatchOk codec data (RocksDBWriteBatch.perform codec b op) := by
  cases op with
  | put key value native => exact batchOk_put h key value native
  | delete key native => exact batchOk_delete h key native
  | write storageOpen native => exact batchOk_write h storageOpen native
  | abort => exact batchOk_abort h

/-- (PROVED) The same for a batch. -/
theorem batch_handed (codec : Codec E Seg W V) (data : E → Option W)
    (ops : List (RocksDBWriteBatch.Op Seg V)) :
    let s := RocksDBWriteBatch.run codec data ops
    Handed codec.encodeKey data s.data s.notified s.context.committed := by
  suffices h : ∀ s, BatchOk codec data s →
      BatchOk codec data (ops.foldl (RocksDBWriteBatch.perform codec) s) from
    (h _ (batchOk_begin codec data)).handed
  induction ops with
  | nil => exact fun s h => h
  | cons op ops ih => exact fun s h => ih _ (batchOk_perform h op)

end Virtuals.Rocksdb
