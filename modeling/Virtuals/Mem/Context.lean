/-
  The contexts of the in-memory storage (`storages/mem/context.py`, `transaction.py`,
  `write_batch.py`, `snapshot.py`): what a read sees and what a write stages.

  A context answers reads through two hooks, a point lookup and one page of a scan.
  A snapshot answers them from the store as of its pin, a transaction from the live
  state under its own pending writes. The codec is a parameter: it may refuse a key or
  a value, and nothing else is asked of it.
-/
import Virtuals.Mem.Snapshots

namespace Virtuals.Mem

open ScanOrder

/-- The error classes a context raises. -/
inductive StorageError where
  /-- `StorageError` itself: a write context of a read-only storage -/
  | Base
  | StorageClosedError
  | StorageOperationError
  | StorageTransactionError
  | StorageLockTimeoutError
  /-- an EMPTY value handed to `put` -/
  | ValueError
  deriving DecidableEq

/-- The storage's codec; `none` where it raises. -/
structure Codec (Enc Key Val Value : Type) where
  encodeKey : Key → Option Enc
  encodeValue : Value → Option Val
  decodeValue : Val → Option Value

variable {Enc Key Val Value : Type}

/-! ## Reads over a lookup hook -/

/-- `ReadOperationsMixin.get`: the value at `key`, `none` for EMPTY. -/
def readGet (codec : Codec Enc Key Val Value) (closed : Bool) (lookup : Enc → Option (Key × Val))
    (key : Key) : Except StorageError (Option Value) :=
  if closed then .error .StorageClosedError
  else match codec.encodeKey key with
    | none => .error .StorageOperationError
    | some enc => match lookup enc with
      | none => .ok none
      | some (_, encoded) => match codec.decodeValue encoded with
        | none => .error .StorageOperationError
        | some value => .ok (some value)

/-- `ReadOperationsMixin.exists`. -/
def readExists (codec : Codec Enc Key Val Value) (closed : Bool)
    (lookup : Enc → Option (Key × Val)) (key : Key) : Except StorageError Bool :=
  if closed then .error .StorageClosedError
  else match codec.encodeKey key with
    | none => .error .StorageOperationError
    | some enc => .ok (lookup enc).isSome

/-! ## Transactions -/

/-- `InMemoryTransaction`. `slot` is the identity of the writer lock it was begun over. -/
structure Transaction (Enc Key Val : Type) where
  slot : Nat
  generation : Nat
  pending : PyDict Enc (Key × Staged Val)
  pendingIndex : Option (SortedKeys Enc)
  modified : Finset Key
  closed : Bool
  committed : Bool
  aborted : Bool

namespace Transaction

variable [LinearOrder Enc]

/-- `__init__`. -/
def begin (slot generation : Nat) : Transaction Enc Key Val :=
  ⟨slot, generation, .empty, none, ∅, false, false, false⟩

/-- What a staged write reads as: the entry, or ABSENT for a pending delete. -/
def stagedVersion : Key × Staged Val → Version (Key × Val)
  | (_, .DELETED) => .ABSENT
  | (key, .value v) => .entry (key, v)

/-- `_lookup`: the pending write if there is one, else the live entry. -/
def lookup (t : Transaction Enc Key Val) (store : VersionedStore Enc Key Val) (enc : Enc) :
    Option (Key × Val) :=
  match t.pending.get? enc with
  | none => store.get enc
  | some (_, .DELETED) => none
  | some (key, .value v) => some (key, v)

/-- `_page`: one page of the live state under the pending writes. The index of the pending keys is
    built on the first page that needs it. -/
def page (t : Transaction Enc Key Val) (store : VersionedStore Enc Key Val) (bound : Option Enc)
    (inclusive reverse : Bool) (n : Nat) (stop : Option Enc) :
    Transaction Enc Key Val × (List (Enc × Key × Val) × Option Enc × Bool) :=
  let base := store.page bound inclusive reverse n stop
  if t.pending.items = [] then (t, base, fullLast base n, base.length < n)
  else
    let index := t.pendingIndex.getD (.ofKeys t.pending.keys)
    let encs := index.page bound inclusive reverse n stop
    let overlay := rowsOf (fun enc => (t.pending.get? enc).map stagedVersion) encs
    ({ t with pendingIndex := some index }, mergePages base overlay n reverse)

/-- `_stage`: record one write, keeping the index of pending keys in step once it exists. -/
def stage (t : Transaction Enc Key Val) (enc : Enc) (key : Key) (value : Staged Val) :
    Transaction Enc Key Val :=
  { t with
    pendingIndex := t.pendingIndex.map fun index =>
      if (t.pending.get? enc).isSome then index else index.add enc
    pending := t.pending.set enc (key, value) }

end Transaction

/-! ## Write batches -/

/-- `InMemoryWriteBatch`. `taken` is the writer lock held while the batch is applied. -/
structure WriteBatch (Enc Key Val : Type) where
  generation : Nat
  pending : PyDict Enc (Key × Staged Val)
  modified : Finset Key
  closed : Bool
  written : Bool
  aborted : Bool
  taken : Option Nat

namespace WriteBatch

variable [LinearOrder Enc]

/-- `__init__`. -/
def begin (generation : Nat) : WriteBatch Enc Key Val :=
  ⟨generation, .empty, ∅, false, false, false, none⟩

/-- `_stage`. -/
def stage (b : WriteBatch Enc Key Val) (enc : Enc) (key : Key) (value : Staged Val) :
    WriteBatch Enc Key Val :=
  { b with pending := b.pending.set enc (key, value) }

end WriteBatch

/-! ## Snapshots -/

/-- `InMemorySnapshot`: the pin token, and whether its one release is still to come. -/
structure Snapshot where
  token : Nat × Nat
  closed : Bool
  pinned : Bool

namespace Snapshot

variable [LinearOrder Enc]

/-- `_lookup`. -/
def lookup (snap : Snapshot) (store : VersionedStore Enc Key Val) (enc : Enc) :
    Option (Key × Val) :=
  store.getAt enc snap.token.2

/-- `_page`. -/
def page (snap : Snapshot) (store : VersionedStore Enc Key Val) (bound : Option Enc)
    (inclusive reverse : Bool) (n : Nat) (stop : Option Enc) :
    List (Enc × Key × Val) × Option Enc × Bool :=
  store.pageAt snap.token.2 bound inclusive reverse n stop

end Snapshot

/-! ## A transaction's view -/

section View

variable [LinearOrder Enc]

open VersionedStore

theorem overlaid_pending (m : Enc → Option (Key × Val)) (pending : PyDict Enc (Key × Staged Val)) :
    overlaid m (fun enc => (pending.get? enc).map Transaction.stagedVersion) =
      overwrite m pending.items := by
  funext enc
  simp only [overlaid, overwrite, PyDict.get?]
  rcases PyDict.lookupItem enc pending.items with _ | ⟨key, v | _⟩ <;> rfl

theorem Transaction.lookup_eq (t : Transaction Enc Key Val) (store : VersionedStore Enc Key Val) :
    t.lookup store = overwrite store.live.get? t.pending.items := by
  funext enc
  unfold lookup overwrite PyDict.get?
  rcases PyDict.lookupItem enc t.pending.items with _ | ⟨key, v | _⟩ <;> rfl

/-- The index of the pending keys, once built, is in step with them. -/
def Transaction.IndexOk (t : Transaction Enc Key Val) : Prop :=
  ∀ index, t.pendingIndex = some index → InStep index t.pending

theorem Transaction.inStep_index {t : Transaction Enc Key Val} (h : t.IndexOk) :
    InStep (t.pendingIndex.getD (.ofKeys t.pending.keys)) t.pending := by
  rcases hi : t.pendingIndex with _ | index
  · obtain ⟨hwf, hmem⟩ := SortedKeys.wf_ofKeys t.pending.keys_nodup
    exact ⟨hwf, fun k => (hmem k).trans (PyDict.mem_keys _ _)⟩
  · exact h index hi

theorem Transaction.indexOk_stage {t : Transaction Enc Key Val} (h : t.IndexOk) (enc : Enc)
    (key : Key) (value : Staged Val) : (t.stage enc key value).IndexOk := by
  intro index hi
  rcases hold : t.pendingIndex with _ | index'
  · simp [stage, hold] at hi
  · have hstep := h index' hold
    simp only [stage, hold, Option.map_some, Option.some.injEq] at hi
    rw [← hi]
    by_cases hp : (t.pending.get? enc).isSome
    · rw [if_pos hp]
      exact hstep.set_old hp _
    · rw [if_neg hp]
      exact hstep.set_new (by simpa using hp) _

theorem Transaction.indexOk_page {t : Transaction Enc Key Val} (h : t.IndexOk)
    (store : VersionedStore Enc Key Val) (bound : Option Enc) (inclusive reverse : Bool) (n : Nat)
    (stop : Option Enc) : (t.page store bound inclusive reverse n stop).1.IndexOk := by
  unfold page
  by_cases hemp : t.pending.items = []
  · simpa only [if_pos hemp] using h
  · simp only [if_neg hemp]
    intro index hi
    obtain rfl := Option.some.inj hi
    exact inStep_index h

/-- The keys a page of a transaction can name. -/
def Transaction.knownKeys (t : Transaction Enc Key Val) (store : VersionedStore Enc Key Val) :
    Finset Enc :=
  (store.index.toList ++ t.pending.keys).toFinset

/-- (PROVED) A page of a transaction is a page of the live map under its pending writes. -/
theorem Transaction.page_isPage {t : Transaction Enc Key Val} (h : t.IndexOk)
    {store : VersionedStore Enc Key Val} (hs : InStep store.index store.live) (bound : Option Enc)
    (inclusive reverse : Bool) {n : Nat} (hn : 0 < n) (stop : Option Enc) :
    IsPage reverse (InRange reverse bound inclusive stop)
      (overwrite store.live.get? t.pending.items) (· ∈ t.knownKeys store)
      (t.page store bound inclusive reverse n stop).2 := by
  obtain ⟨rows, hrows, hpage⟩ := page_eq_take hs bound inclusive reverse n stop
  have hknown : ∀ k, (store.live.get? k).isSome → k ∈ t.knownKeys store := fun k hk => by
    simp [knownKeys, (hs.2 k).2 hk]
  unfold page
  by_cases hemp : t.pending.items = []
  · have hmap : overwrite store.live.get? t.pending.items = store.live.get? := by
      rw [hemp]; rfl
    simp only [if_pos hemp, hpage, hmap]
    exact isPage_take hrows hn hknown
  · have hstep := inStep_index h
    have hsome : ∀ k, ((t.pending.get? k).map stagedVersion).isSome ↔
        (t.pending.get? k).isSome := fun k => by simp
    have hentries := isListing_rowsOf (P := InRange reverse bound inclusive stop)
      (m := fun enc => (t.pending.get? enc).map stagedVersion)
      (SortedKeys.keysInRange_sorted hstep.1 bound inclusive reverse stop) fun k hk => by
        rw [SortedKeys.mem_keysInRange, hstep.2, and_iff_right ((hsome k).1 hk)]
    have hmerge := mergePages_isPage hn hrows hentries hknown fun k hk => by
      have : k ∈ t.pending.keys := (PyDict.mem_keys _ _).2 ((hsome k).1 hk)
      simp [knownKeys, this]
    rw [overlaid_pending, ← rowsOf_take fun k hk => (hsome k).2
      ((hstep.2 k).1 (SortedKeys.mem_keysInRange.1 hk).1)] at hmerge
    simp only [if_neg hemp, hpage, SortedKeys.page_eq hstep.1]
    exact hmerge

end View

end Virtuals.Mem
