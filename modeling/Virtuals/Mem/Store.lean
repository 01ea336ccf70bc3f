/-
  `VersionedStore` (`storages/mem/store.py`): live state, the versions open snapshots
  still need, and the commit that writes both.

  Keys are encoded keys of any linear order; an entry is a decoded key with an encoded
  value. A call that the source lets raise (`SortedKeys.add` on a key the index cannot
  compare) raises here exactly where the `faults` of the commit say so, so a theorem
  over all faults covers every point at which a commit can fail.

  Lookups the source writes as `d[k]` on a key that is always there read `none` as
  "nothing to do"; the invariant of `StoreInv` rules that out.
-/
import Virtuals.Mem.MergePages
import Virtuals.Mem.SortedKeys

namespace Virtuals.Mem

open ScanOrder

/-- A staged write: the new encoded value, or `DELETED`. -/
inductive Staged (Val : Type) where
  | value (v : Val)
  | DELETED
  deriving DecidableEq

/-- The two index calls of a commit that can raise on a given key. -/
inductive FaultPoint where
  | indexAdd
  | historyIndexAdd
  deriving DecidableEq

/-- Why a commit raised. -/
inductive ApplyError where
  /-- "Storage was closed since this write began" -/
  | StorageClosedError
  /-- what an index call raised; everything done so far was undone -/
  | raised (point : FaultPoint)
  deriving DecidableEq

/-- Live state plus the versions open snapshots still need. -/
structure VersionedStore (Enc Key Val : Type) where
  generation : Nat
  live : PyDict Enc (Key × Val)
  index : SortedKeys Enc
  seq : Nat
  /-- Versions per key in commit order: the commit's sequence, the value before it. -/
  history : PyDict Enc (List (Nat × Option (Key × Val)))
  historyIndex : SortedKeys Enc
  /-- The same records in global commit order. -/
  undoLog : List (Nat × Enc)
  /-- Open snapshots: pinned sequence and count, in the order of the sequences. -/
  pins : PyDict Nat Nat
  /-- Pins released by garbage collection, applied at the next locked operation. -/
  deferred : List (Nat × Nat)

namespace VersionedStore

variable {Enc Key Val : Type} [LinearOrder Enc] [DecidableEq Key]

/-- `VersionedStore()`: empty, at sequence 0. -/
def new : VersionedStore Enc Key Val :=
  ⟨0, .empty, .empty, 0, .empty, .empty, [], .empty, []⟩

/-- Drop everything and start a new generation. -/
def reset (s : VersionedStore Enc Key Val) : VersionedStore Enc Key Val :=
  { (new : VersionedStore Enc Key Val) with generation := s.generation + 1 }

/-! ## Live reads -/

/-- `get`: the live entry, or ABSENT. -/
def get (s : VersionedStore Enc Key Val) (enc : Enc) : Option (Key × Val) := s.live.get? enc

/-- `page`: up to `n` live rows from `bound` in scan order. -/
def page (s : VersionedStore Enc Key Val) (bound : Option Enc) (inclusive reverse : Bool)
    (n : Nat) (stop : Option Enc) : List (Enc × Key × Val) :=
  rowsOf s.live.get? (s.index.page bound inclusive reverse n stop)

/-! ## Pins -/

/-- `_release`: drop one pin; a token from before a reset is ignored. -/
def release (s : VersionedStore Enc Key Val) (token : Nat × Nat) : VersionedStore Enc Key Val :=
  if token.1 ≠ s.generation then s
  else
    let count := (s.pins.get? token.2).getD 0 - 1
    if count > 0 then { s with pins := s.pins.set token.2 count }
    else { s with pins := s.pins.erase token.2 }

/-- `_drain`: apply the deferred releases. -/
def drain (s : VersionedStore Enc Key Val) : VersionedStore Enc Key Val :=
  s.deferred.foldl release { s with deferred := [] }

/-- The records `_trim` drops: those no later than the oldest pin, all when there is none. -/
def dropCounts (records : List (Nat × Enc)) : PyDict Enc Nat :=
  records.foldl (fun drop r => drop.set r.2 ((drop.get? r.2).getD 0 + 1)) .empty

/-- Drop the `count` oldest versions of a key. -/
def dropVersions (s : VersionedStore Enc Key Val) (enc : Enc) (count : Nat) :
    VersionedStore Enc Key Val :=
  match s.history.get? enc with
  | none => s
  | some entries =>
    if count ≥ entries.length then
      { s with history := s.history.erase enc, historyIndex := (s.historyIndex.discard enc).1 }
    else { s with history := s.history.set enc (entries.drop count) }

/-- Whether a record is one no open snapshot can read, given the oldest pin. -/
def trimmable (floor : Option Nat) (r : Nat × Enc) : Bool :=
  match floor with
  | none => true
  | some f => r.1 ≤ f

/-- `_trim`: drop recorded versions no open snapshot can read. -/
def trim (s : VersionedStore Enc Key Val) : VersionedStore Enc Key Val :=
  let floor := s.pins.keys.head?
  let drop := dropCounts (s.undoLog.takeWhile (trimmable floor))
  drop.items.foldl (fun s (enc, count) => s.dropVersions enc count)
    { s with undoLog := s.undoLog.dropWhile (trimmable floor) }

/-- `pin`: register an open snapshot at the current sequence; returns its token. -/
def pin (s : VersionedStore Enc Key Val) : VersionedStore Enc Key Val × (Nat × Nat) :=
  let s := s.drain
  ({ s with pins := s.pins.set s.seq ((s.pins.get? s.seq).getD 0 + 1) }, (s.generation, s.seq))

/-- `unpin`: release a pin and drop versions nobody needs. -/
def unpin (s : VersionedStore Enc Key Val) (token : Nat × Nat) : VersionedStore Enc Key Val :=
  (s.release token).drain.trim

/-- `unpin_later`: queue the release for the next locked operation. -/
def unpinLater (s : VersionedStore Enc Key Val) (token : Nat × Nat) : VersionedStore Enc Key Val :=
  { s with deferred := s.deferred ++ [token] }

/-! ## Snapshot reads -/

/-- `_version_at`: the oldest version written after `seq` (`bisect_right` on the commit
    sequence), else LIVE. -/
def versionAt (s : VersionedStore Enc Key Val) (enc : Enc) (seq : Nat) : Version (Key × Val) :=
  match s.history.get? enc with
  | none => .LIVE
  | some entries =>
    match (entries.dropWhile fun r => r.1 ≤ seq).head? with
    | none => .LIVE
    | some (_, none) => .ABSENT
    | some (_, some entry) => .entry entry

/-- `get_at`: the entry as it stood at `seq`, or ABSENT. -/
def getAt (s : VersionedStore Enc Key Val) (enc : Enc) (seq : Nat) : Option (Key × Val) :=
  match s.versionAt enc seq with
  | .LIVE => s.live.get? enc
  | .ABSENT => none
  | .entry entry => some entry

/-- `page_at`: one page of rows as of `seq`, as `merge_pages` returns it. -/
def pageAt (s : VersionedStore Enc Key Val) (seq : Nat) (bound : Option Enc)
    (inclusive reverse : Bool) (n : Nat) (stop : Option Enc) :
    List (Enc × Key × Val) × Option Enc × Bool :=
  let base := s.page bound inclusive reverse n stop
  if s.history.items = [] then (base, fullLast base n, base.length < n)
  else
    let encs := s.historyIndex.page bound inclusive reverse n stop
    let overlay := encs.map fun e => (e, s.versionAt e seq)
    mergePages base overlay n reverse

/-! ## Commit -/

/-- A commit under way: the store so far, the touched keys, what `_undo` needs. -/
structure Progress (Enc Key Val : Type) where
  store : VersionedStore Enc Key Val
  modified : Finset Key
  /-- keys written so far, with the entry each had before -/
  done : List (Enc × Option (Key × Val))
  recorded : Nat

/-- Record the value a commit overwrites, when some open snapshot still reads the key live. -/
def recordVersion (faults : FaultPoint → Enc → Bool) (seq : Nat) (newestPin : Option Nat)
    (p : Progress Enc Key Val) (enc : Enc) (old : Option (Key × Val)) :
    Progress Enc Key Val × Option FaultPoint :=
  match newestPin with
  | none => (p, none)
  | some newest =>
    let s := p.store
    let logged (s : VersionedStore Enc Key Val) : Progress Enc Key Val :=
      { p with store := { s with undoLog := s.undoLog ++ [(seq, enc)] }, recorded := p.recorded + 1 }
    match s.history.get? enc with
    | none =>
      if faults .historyIndexAdd enc then (p, some .historyIndexAdd)
      else (logged { s with
        historyIndex := s.historyIndex.add enc
        history := s.history.set enc [(seq, old)] }, none)
    | some entries =>
      match entries.getLast? with
      | none => (p, none)
      | some (last, _) =>
        if last ≤ newest then
          (logged { s with history := s.history.set enc (entries ++ [(seq, old)]) }, none)
        else (p, none)  -- every open pin already reads an older version

/-- One turn of the loop of `apply`; the fault, when this turn raised. -/
def applyOp (faults : FaultPoint → Enc → Bool) (seq : Nat) (newestPin : Option Nat)
    (p : Progress Enc Key Val) (enc : Enc) (key : Key) (value : Staged Val) :
    Progress Enc Key Val × Option FaultPoint :=
  let s := p.store
  let old := s.live.get? enc
  match value, old with
  | .DELETED, none => (p, none)
  | .DELETED, some _ =>
    recordVersion faults seq newestPin
      { p with
        store := { s with index := (s.index.discard enc).1, live := s.live.erase enc }
        modified := insert key p.modified
        done := p.done ++ [(enc, old)] } enc old
  | .value v, none =>
    if faults .indexAdd enc then (p, some .indexAdd)
    else recordVersion faults seq newestPin
      { p with
        store := { s with index := s.index.add enc, live := s.live.set enc (key, v) }
        done := p.done ++ [(enc, old)] } enc old
  | .value v, some _ =>
    recordVersion faults seq newestPin
      { p with
        store := { s with live := s.live.set enc (key, v) }
        done := p.done ++ [(enc, old)] } enc old

/-- The loop of `apply`, stopping at the first fault. -/
def applyLoop (faults : FaultPoint → Enc → Bool) (seq : Nat) (newestPin : Option Nat) :
    List (Enc × Key × Staged Val) → Progress Enc Key Val →
      Progress Enc Key Val × Option FaultPoint
  | [], p => (p, none)
  | (enc, key, value) :: rest, p =>
    match applyOp faults seq newestPin p enc key value with
    | (p, some fault) => (p, some fault)
    | (p, none) => applyLoop faults seq newestPin rest p

/-- Put back the entry a key had before. -/
def restoreOne (s : VersionedStore Enc Key Val) (enc : Enc) (old : Option (Key × Val)) :
    VersionedStore Enc Key Val :=
  match old, s.live.get? enc with
  | none, some _ => { s with live := s.live.erase enc, index := (s.index.discard enc).1 }
  | none, none => s
  | some entry, none =>
    { s with index := s.index.add enc, live := s.live.set enc entry }
  | some entry, some _ => { s with live := s.live.set enc entry }

/-- Take back the newest version record. -/
def popRecord (s : VersionedStore Enc Key Val) : VersionedStore Enc Key Val :=
  match s.undoLog.getLast? with
  | none => s
  | some (_, enc) =>
    let s := { s with undoLog := s.undoLog.dropLast }
    match s.history.get? enc with
    | none => s
    | some entries =>
      if entries.dropLast = [] then
        { s with history := s.history.erase enc, historyIndex := (s.historyIndex.discard enc).1 }
      else { s with history := s.history.set enc entries.dropLast }

/-- `_undo`: restore entries, newest first, and drop the commit's version records. -/
def undo (s : VersionedStore Enc Key Val) (done : List (Enc × Option (Key × Val)))
    (recorded : Nat) : VersionedStore Enc Key Val :=
  popRecord^[recorded] (done.reverse.foldl (fun s (enc, old) => s.restoreOne enc old) s)

/-- `apply`: apply a write set atomically. Returns the store, the touched keys with the keys of
    deletes that removed a row, and the new sequence or the error raised. -/
def apply (s : VersionedStore Enc Key Val) (ops : PyDict Enc (Key × Staged Val))
    (modified : Finset Key) (generation : Nat) (faults : FaultPoint → Enc → Bool) :
    VersionedStore Enc Key Val × Finset Key × Except ApplyError Nat :=
  if generation ≠ s.generation then (s, modified, .error .StorageClosedError)
  else
    let s := if s.deferred = [] then s else s.drain.trim
    let seq := s.seq + 1
    let newestPin := s.pins.keys.getLast?
    match applyLoop faults seq newestPin ops.items ⟨s, modified, [], 0⟩ with
    | (p, some fault) => (p.store.undo p.done p.recorded, p.modified, .error (.raised fault))
    | (p, none) => ({ p.store with seq := seq }, p.modified, .ok seq)

end VersionedStore

end Virtuals.Mem
