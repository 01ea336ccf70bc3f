/-
  Every commit tells the publisher what it changed.

  On each of the four storages, and for its transactions and its batches: a key whose committed value
  a unit changed is in a set of keys that the unit hands to the publisher, and a unit that is aborted
  or fails to commit hands over none (`notification_complete`). A codec is taken to encode different
  keys differently, as decoding what it encoded gives the key back.
-/
import Virtuals.Lmdb.Touched
import Virtuals.Mem.Touched
import Virtuals.Rocksdb.Touched
import Virtuals.Sqlite.Touched

namespace Virtuals.Notify

open Lib

/-- Different keys are encoded differently. -/
def Apart {K E : Type} (encode : K → Option E) : Prop :=
  ∀ k k' e, encode k = some e → encode k' = some e → k = k'

/-- The keys that changed from `before` to `after` are in the sets handed over; without a commit
    there are none. -/
structure Complete {K E V : Type} (encode : K → Option E) (before after : E → Option V)
    (handed : List (Finset K)) (committed : Bool) : Prop where
  changed : ∀ key e, encode key = some e → after e ≠ before e → ∃ keys ∈ handed, key ∈ keys
  untold : committed = false → handed = []

theorem complete_of_handed {K E V : Type} [DecidableEq K] {encode : K → Option E}
    (hapart : Apart encode) {before after : E → Option V} {handed : List (Finset K)}
    {committed : Bool} (h : Handed encode before after handed committed) :
    Complete encode before after handed committed :=
  ⟨fun _ _ hkey hne => h.mem hapart hkey hne, fun hfailed => (h.untold hfailed).2⟩

variable {Enc Key Val Value E Seg W V : Type} [LinearOrder Enc] [DecidableEq Key] [DecidableEq E]
  [DecidableEq Seg]

/-- (PROVED) Whatever is called on its units, a commit of any backend hands over every key it changed,
    and a unit that is aborted or fails to commit hands over none. In memory this is said of each
    step, with any parties' steps before it; `open` and `close`, which drop the data, are no
    commits. -/
theorem notification_complete (memCodec : Mem.Codec Enc Key Val Value)
    (hmem : Apart memCodec.encodeKey) (codec : Lmdb.Codec E Seg W V)
    (hcodec : Apart codec.encodeKey) :
    (∀ readOnly steps st, st ≠ .open → st ≠ .close →
      let s := (Mem.System.run memCodec readOnly steps).storage
      let r := s.perform memCodec st
      ∃ handed, r.1.notified = s.notified ++ handed ∧ Complete memCodec.encodeKey s.values
        r.1.values handed (Mem.InMemoryStorage.committed st r)) ∧
    (∀ data ops,
      let s := Sqlite.SQLiteTransaction.run codec data ops
      Complete codec.encodeKey data s.data s.notified s.context.committed) ∧
    (∀ data ops,
      let s := Sqlite.SQLiteWriteBatch.run codec data ops
      Complete codec.encodeKey data s.data s.notified s.context.written) ∧
    (∀ (cu : Lmdb.Cursors E W) keyFits (lazily : Bool) data ops,
      let begun : Lmdb.LMDBStorage E Seg W cu.Pos :=
        if lazily = true then Lmdb.LMDBStorage.beginLazy data else Lmdb.LMDBStorage.beginEager data
      let s := (begun.run codec keyFits ops).1
      Complete codec.encodeKey data s.data s.notified s.txn.committed) ∧
    (∀ keyFits data ops,
      let s := Lmdb.LMDBWriteBatch.run codec keyFits data ops
      Complete codec.encodeKey data s.data s.notified s.context.written) ∧
    (∀ data ops,
      let s := Rocksdb.RocksDBTransaction.run codec data ops
      Complete codec.encodeKey data s.data s.notified s.context.committed) ∧
    (∀ data ops,
      let s := Rocksdb.RocksDBWriteBatch.run codec data ops
      Complete codec.encodeKey data s.data s.notified s.context.committed) := by
  refine ⟨fun readOnly steps st hopen hclose => ?_, fun data ops => ?_, fun data ops => ?_,
    fun cu keyFits lazily data ops => ?_, fun keyFits data ops => ?_, fun data ops => ?_,
    fun data ops => ?_⟩
  · obtain ⟨handed, hnotified, h⟩ :=
      Mem.System.step_handed memCodec readOnly steps st hopen hclose
    exact ⟨handed, hnotified, complete_of_handed hmem h⟩
  · exact complete_of_handed hcodec (Sqlite.transaction_handed codec data ops)
  · exact complete_of_handed hcodec (Sqlite.batch_handed codec data ops)
  · cases lazily
    · exact complete_of_handed hcodec
        (Lmdb.LMDBStorage.transactionOk_run (Lmdb.LMDBStorage.transactionOk_eager codec data) ops).handed
    · exact complete_of_handed hcodec
        (Lmdb.LMDBStorage.transactionOk_run (Lmdb.LMDBStorage.transactionOk_lazy codec data) ops).handed
  · exact complete_of_handed hcodec (Lmdb.LMDBWriteBatch.batch_handed codec keyFits data ops)
  · exact complete_of_handed hcodec (Rocksdb.transaction_handed codec data ops)
  · exact complete_of_handed hcodec (Rocksdb.batch_handed codec data ops)

/-! ## A run -/

/-- Numbers, encoded as themselves. -/
def plainCodec : Mem.Codec Nat Nat Nat Nat := ⟨some, some, some⟩

theorem numberCodec_apart : Apart Lmdb.LMDBStorage.numberCodec.encodeKey := by
  intro k k' e hk hk'
  have key : ∀ l : List Nat, Lmdb.LMDBStorage.numberCodec.encodeKey l = some e → l = [e] := by
    intro l hl
    match l, hl with
    | [n], hn => exact congrArg (· :: []) (Option.some.inj hn)
  rw [key k hk, key k' hk']

/-- A key put and deleted again, one put, and one deleted that was not there. -/
def sqliteOps : List (Sqlite.SQLiteTransaction.Op Nat Nat) :=
  [.put [1] (some 10) .run, .delete [1] .run, .put [2] (some 20) .run, .delete [3] .run, .commit .run]

theorem notification_complete_numbers :
    let data : Nat → Option Nat := fun n => if n = 1 then some 5 else none
    let s := Sqlite.SQLiteTransaction.run Lmdb.LMDBStorage.numberCodec data sqliteOps
    Complete Lmdb.LMDBStorage.numberCodec.encodeKey data s.data s.notified s.context.committed ∧
      s.notified = [{[2], [1]}] ∧ s.data 1 = none ∧ s.data 2 = some 20 :=
  ⟨(notification_complete plainCodec
      (fun _ _ _ hk hk' => Option.some.inj (hk.trans hk'.symm)) Lmdb.LMDBStorage.numberCodec
      numberCodec_apart).2.1 _ sqliteOps, by decide, rfl, rfl⟩

end Virtuals.Notify
