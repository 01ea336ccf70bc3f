/-
  Serializability of the in-memory storage over whole runs.

  `System` runs `InMemoryStorage` next to what it is for: the units (transactions and write
  batches) that committed, in commit order, each with the puts and deletes it was given, and
  for every transaction and snapshot the committed map it began over. `serializable`: after any
  run of any parties' steps the live map is the serial execution of the committed units; an
  open transaction reads that map under its own writes, an open snapshot the map of its
  opening.

  Modelled: faults inside `apply`, `close` and reopening between any two steps. Not modelled:
  how the slot is waited for; a begin or a batch write gets it or is refused.
-/
import Virtuals.Mem.Storage

namespace Virtuals.Mem

open ScanOrder VersionedStore

variable {Enc Key Val Value : Type} [LinearOrder Enc] [DecidableEq Key]

/-! ## Serial execution -/

/-- One write of a unit, encoded. -/
inductive Write (Enc Key Val : Type) where
  | put (enc : Enc) (key : Key) (value : Val)
  | delete (enc : Enc)

/-- The effect of one write on a map. -/
def Write.exec (m : Enc → Option (Key × Val)) : Write Enc Key Val → Enc → Option (Key × Val)
  | .put enc key value => Function.update m enc (some (key, value))
  | .delete enc => Function.update m enc none

/-- The effect of the writes of one unit, in order. -/
def exec (m : Enc → Option (Key × Val)) (ops : List (Write Enc Key Val)) :
    Enc → Option (Key × Val) :=
  ops.foldl Write.exec m

/-- What one staged write does when its unit commits; `none` where the codec refuses. -/
def writeOf (codec : Codec Enc Key Val Value) (key : Key) :
    Option (Option Value) → Option (Write Enc Key Val)
  | none => (codec.encodeKey key).map .delete
  | some none => none
  | some (some v) => match codec.encodeKey key, codec.encodeValue v with
    | some enc, some encoded => some (.put enc key encoded)
    | _, _ => none

/-- The parties that write. -/
inductive Party where
  | transaction (id : Nat)
  | batch (id : Nat)
  deriving DecidableEq

/-- The serial execution of units on an empty map. -/
def execUnits (serial : List (Party × List (Write Enc Key Val))) : Enc → Option (Key × Val) :=
  serial.foldl (fun m unit => exec m unit.2) fun _ => none

omit [DecidableEq Key] in
theorem exec_append_singleton (m : Enc → Option (Key × Val)) (ops : List (Write Enc Key Val))
    (op : Write Enc Key Val) : exec m (ops ++ [op]) = op.exec (exec m ops) := by
  simp [exec]

omit [DecidableEq Key] in
theorem execUnits_append_singleton (serial : List (Party × List (Write Enc Key Val)))
    (unit : Party × List (Write Enc Key Val)) :
    execUnits (serial ++ [unit]) = exec (execUnits serial) unit.2 := by
  simp [execUnits]

omit [DecidableEq Key] in
theorem overwrite_setItem (m : Enc → Option (Key × Val)) (enc : Enc) (key : Key)
    (staged : Staged Val) (items : List (Enc × Key × Staged Val)) :
    overwrite m (PyDict.setItem enc (key, staged) items) =
      Function.update (overwrite m items) enc (stagedEntry key staged) := by
  funext k
  simp only [overwrite, PyDict.lookupItem_setItem, Function.update_apply]
  split_ifs <;> rfl

/-! ## The system -/

/-- The storage next to the history of what its parties did. -/
structure System (Enc Key Val : Type) where
  storage : InMemoryStorage Enc Key Val
  /-- units committed since the data was last dropped, oldest first -/
  serial : List (Party × List (Write Enc Key Val))
  /-- writes accepted by each transaction -/
  txnOps : Nat → List (Write Enc Key Val)
  /-- writes accepted by each batch -/
  batchOps : Nat → List (Write Enc Key Val)
  /-- the committed map each transaction began over -/
  base : Nat → Enc → Option (Key × Val)
  /-- the committed map each snapshot was opened over -/
  opening : Nat → Enc → Option (Key × Val)

namespace System

/-- The committed map: the committed units run one after another. -/
def committed (w : System Enc Key Val) : Enc → Option (Key × Val) := execUnits w.serial

def start (readOnly : Bool) : System Enc Key Val :=
  ⟨.new readOnly, [], fun _ => [], fun _ => [], fun _ _ => none, fun _ _ => none⟩

/-- What a step that did not raise adds to the history. -/
def record (codec : Codec Enc Key Val Value) (w : System Enc Key Val) :
    InMemoryStorage.Step Enc Key Value → System Enc Key Val
  | .open => if w.storage.opened then w else { w with serial := [] }
  | .close => if w.storage.opened then { w with serial := [] } else w
  | .beginTransaction id =>
    { w with
      txnOps := Function.update w.txnOps id []
      base := Function.update w.base id w.committed }
  | .stageTransaction id key value =>
    { w with
      txnOps := Function.update w.txnOps id (w.txnOps id ++ (writeOf codec key value).toList) }
  | .commitApply id _ => { w with serial := w.serial ++ [(.transaction id, w.txnOps id)] }
  | .beginSnapshot id => { w with opening := Function.update w.opening id w.committed }
  | .beginWriteBatch id => { w with batchOps := Function.update w.batchOps id [] }
  | .stageBatch id key value =>
    { w with
      batchOps := Function.update w.batchOps id (w.batchOps id ++ (writeOf codec key value).toList) }
  | .writeApply id _ => { w with serial := w.serial ++ [(.batch id, w.batchOps id)] }
  | _ => w

/-- The system after a call: `w'` takes its place if the call did not raise. -/
def settle (w w' : System Enc Key Val) : InMemoryStorage.Reply Enc Key Val → System Enc Key Val
  | (storage, .ok _) => { w' with storage := storage }
  | (storage, .error _) => { w with storage := storage }

/-- One step: the call on the storage, and its place in the history if it did not raise. -/
def step (codec : Codec Enc Key Val Value) (w : System Enc Key Val)
    (st : InMemoryStorage.Step Enc Key Value) : System Enc Key Val :=
  settle w (w.record codec st) (w.storage.perform codec st)

/-- The state after a run of steps, of whichever parties. -/
def run (codec : Codec Enc Key Val Value) (readOnly : Bool)
    (steps : List (InMemoryStorage.Step Enc Key Value)) : System Enc Key Val :=
  steps.foldl (step codec) (start readOnly)

/-! ## The invariant -/

/-- Who holds the writer slot. -/
def Holds (s : InMemoryStorage Enc Key Val) : Party → Prop
  | .transaction id => ∃ t, s.transactions.get? id = some t ∧ t.committed = false ∧
      t.aborted = false ∧ t.slot = s.lock
  | .batch id => ∃ b, s.batches.get? id = some b ∧ b.taken = some s.lock

/-- One holder at most, and the slot is locked while there is one. -/
structure SlotOk (s : InMemoryStorage Enc Key Val) : Prop where
  held : ∀ p, Holds s p → s.locked = true
  unique : ∀ p q, Holds s p → Holds s q → p = q

/-- What holds of a transaction, given the writes it accepted and the map it began over. -/
structure TransactionOk (s : InMemoryStorage Enc Key Val) (committed base : Enc → Option (Key × Val))
    (ops : List (Write Enc Key Val)) (t : Transaction Enc Key Val) : Prop where
  ended : t.committed = true ∨ t.aborted = true → t.closed = true
  generation : t.generation ≤ s.store.generation
  slot : t.slot ≤ s.lock
  index : t.IndexOk
  pending : t.aborted = false → ∀ m, overwrite m t.pending.items = exec m ops
  current : t.committed = false → t.aborted = false → t.generation = s.store.generation →
    t.slot = s.lock
  fresh : t.closed = false → s.opened = true ∧ t.generation = s.store.generation ∧ base = committed

/-- What holds of a batch, given the writes it accepted. -/
structure BatchOk (s : InMemoryStorage Enc Key Val) (ops : List (Write Enc Key Val))
    (b : WriteBatch Enc Key Val) : Prop where
  ended : b.written = true ∨ b.aborted = true → b.closed = true
  generation : b.generation ≤ s.store.generation
  taken : ∀ lock, b.taken = some lock →
    lock ≤ s.lock ∧ InMemoryStorage.writing b = true ∧ b.pending.items ≠ []
  pending : b.written = false → b.aborted = false → ∀ m, overwrite m b.pending.items = exec m ops
  current : ∀ lock, b.taken = some lock → b.generation = s.store.generation → lock = s.lock

/-- The open snapshots have their pins, and these the maps of their openings. -/
def SnapshotsOk (s : InMemoryStorage Enc Key Val) (committed : Enc → Option (Key × Val))
    (opening : Nat → Enc → Option (Key × Val)) : Prop :=
  ∃ pins, World.Inv ⟨s.store, committed, pins⟩ ∧
    (∀ token, s.snapshots.count (fun snap => snap.pinned && snap.token = token) ≤
      pins.countP fun p => p.token = token) ∧
    ∀ id snap, s.snapshots.get? id = some snap → (snap.closed = false → snap.pinned = true) ∧
      (snap.pinned = true → s.opened = true ∧
        ∀ p ∈ pins, p.token = snap.token → p.map = opening id)

/-- A unit of the serial history ended well, with the writes it has there. -/
def Committed (w : System Enc Key Val) : Party × List (Write Enc Key Val) → Prop
  | (.transaction id, ops) => ∃ t, w.storage.transactions.get? id = some t ∧ t.committed = true ∧
      t.aborted = false ∧ ops = w.txnOps id
  | (.batch id, ops) => ∃ b, w.storage.batches.get? id = some b ∧ b.written = true ∧
      b.aborted = false ∧ ops = w.batchOps id

/-- What every reachable state keeps. -/
structure Inv (w : System Enc Key Val) : Prop where
  reads : SnapshotsOk w.storage w.committed w.opening
  txns : ∀ id t, w.storage.transactions.get? id = some t →
    TransactionOk w.storage w.committed (w.base id) (w.txnOps id) t
  batches : ∀ id b, w.storage.batches.get? id = some b → BatchOk w.storage (w.batchOps id) b
  slot : SlotOk w.storage
  units : ∀ unit ∈ w.serial, Committed w unit
  once : (w.serial.map Prod.fst).Nodup
  txnsKept : ∀ id t, w.storage.transactions.get? id = some t → t.committed = true →
    t.generation = w.storage.store.generation → .transaction id ∈ w.serial.map Prod.fst
  batchesKept : ∀ id b, w.storage.batches.get? id = some b → b.written = true →
    b.generation = w.storage.store.generation → .batch id ∈ w.serial.map Prod.fst

/-! ## Steps that leave the other parties alone -/

omit [DecidableEq Key] in
/-- A party's invariant names of the storage the generation, the lock and whether it is open. -/
theorem TransactionOk.frame {s r : InMemoryStorage Enc Key Val}
    {c c' base : Enc → Option (Key × Val)} {ops : List (Write Enc Key Val)}
    {t : Transaction Enc Key Val} (h : TransactionOk s c base ops t)
    (hg : r.store.generation = s.store.generation) (hl : r.lock = s.lock)
    (ho : r.opened = s.opened) (hc : t.closed = false → c' = c) :
    TransactionOk r c' base ops t where
  ended := h.ended
  generation := by rw [hg]; exact h.generation
  slot := by rw [hl]; exact h.slot
  index := h.index
  pending := h.pending
  current := by rw [hg, hl]; exact h.current
  fresh := fun hcl => by
    obtain ⟨h1, h2, h3⟩ := h.fresh hcl
    exact ⟨ho.trans h1, h2.trans hg.symm, h3.trans (hc hcl).symm⟩

omit [DecidableEq Key] in
theorem TransactionOk.live {s : InMemoryStorage Enc Key Val} {c base : Enc → Option (Key × Val)}
    {ops : List (Write Enc Key Val)} {t : Transaction Enc Key Val}
    (h : TransactionOk s c base ops t) (hcl : t.closed = false) :
    t.committed = false ∧ t.aborted = false := by
  have := h.ended
  rcases hc : t.committed with _ | _ <;> rcases ha : t.aborted with _ | _ <;> simp_all

omit [DecidableEq Key] in
theorem BatchOk.frame {s r : InMemoryStorage Enc Key Val} {ops : List (Write Enc Key Val)}
    {b : WriteBatch Enc Key Val} (h : BatchOk s ops b)
    (hg : r.store.generation = s.store.generation) (hl : r.lock = s.lock) :
    BatchOk r ops b where
  ended := h.ended
  generation := by rw [hg]; exact h.generation
  taken := by rw [hl]; exact h.taken
  pending := h.pending
  current := by rw [hg, hl]; exact h.current

omit [LinearOrder Enc] [DecidableEq Key] in
/-- No new holder and the lock as it was. -/
theorem SlotOk.mono {s s' : InMemoryStorage Enc Key Val} (h : SlotOk s)
    (hh : ∀ p, Holds s' p → Holds s p) (hl : s'.locked = s.locked) : SlotOk s' :=
  ⟨fun p hp => hl.trans (h.held p (hh p hp)), fun p q hp hq => h.unique p q (hh p hp) (hh q hq)⟩

omit [LinearOrder Enc] [DecidableEq Key] in
/-- The holder gone: nobody holds the slot, locked or not. -/
theorem SlotOk.release {s s' : InMemoryStorage Enc Key Val} (h : SlotOk s) {p : Party}
    (hp : Holds s p) (hh : ∀ q, Holds s' q → Holds s q ∧ q ≠ p) : SlotOk s' :=
  ⟨fun q hq => absurd (h.unique q p (hh q hq).1 hp) (hh q hq).2,
    fun q _ hq _ => absurd (h.unique q p (hh q hq).1 hp) (hh q hq).2⟩

omit [LinearOrder Enc] [DecidableEq Key] in
/-- The slot taken by a party while it was free. -/
theorem SlotOk.take {s s' : InMemoryStorage Enc Key Val} (h : SlotOk s) (hfree : s.locked ≠ true)
    {p : Party} (hh : ∀ q, Holds s' q → Holds s q ∨ q = p) (hl : s'.locked = true) : SlotOk s' := by
  have hp : ∀ q, Holds s' q → q = p := fun q hq =>
    (hh q hq).resolve_left fun hold => hfree (h.held q hold)
  exact ⟨fun _ _ => hl, fun q r hq hr => (hp q hq).trans (hp r hr).symm⟩

omit [DecidableEq Key] in
/-- While a party holds the slot no other transaction is open. -/
theorem Inv.closed_of_holds {w : System Enc Key Val} (h : Inv w) {p : Party}
    (hp : Holds w.storage p) {id : Nat} {t : Transaction Enc Key Val}
    (ht : w.storage.transactions.get? id = some t) (hne : p ≠ .transaction id) :
    t.closed = true := by
  by_contra hcl
  have hcl : t.closed = false := by simpa using hcl
  have hok := h.txns id t ht
  obtain ⟨hc, ha⟩ := hok.live hcl
  exact hne (h.slot.unique p _ hp ⟨t, ht, hc, ha, hok.current hc ha (hok.fresh hcl).2.1⟩)

omit [LinearOrder Enc] [DecidableEq Key] in
/-- Setting a transaction moves the slot only to or from it. -/
theorem holds_setTransaction {s s' : InMemoryStorage Enc Key Val} {id : Nat}
    {t : Transaction Enc Key Val} {p : Party} (hp : Holds s' p)
    (hT : s'.transactions = s.transactions.set id t) (hB : s'.batches = s.batches)
    (hL : s'.lock = s.lock) :
    (p ≠ .transaction id ∧ Holds s p) ∨
      (p = .transaction id ∧ t.committed = false ∧ t.aborted = false ∧ t.slot = s.lock) := by
  rcases p with id' | id'
  · obtain ⟨t', ht', hc, ha, hs⟩ := hp
    rw [hT, PyDict.get?_set] at ht'
    rw [hL] at hs
    by_cases hid : id' = id
    · rw [if_pos hid] at ht'
      obtain rfl := Option.some.inj ht'
      exact Or.inr ⟨by rw [hid], hc, ha, hs⟩
    · rw [if_neg hid] at ht'
      exact Or.inl ⟨by simpa using hid, t', ht', hc, ha, hs⟩
  · obtain ⟨b, hb, htaken⟩ := hp
    rw [hB] at hb
    rw [hL] at htaken
    exact Or.inl ⟨by simp, b, hb, htaken⟩

omit [LinearOrder Enc] [DecidableEq Key] in
/-- Setting a batch moves the slot only to or from it. -/
theorem holds_setBatch {s s' : InMemoryStorage Enc Key Val} {id : Nat}
    {b : WriteBatch Enc Key Val} {p : Party} (hp : Holds s' p)
    (hT : s'.transactions = s.transactions) (hB : s'.batches = s.batches.set id b)
    (hL : s'.lock = s.lock) :
    (p ≠ .batch id ∧ Holds s p) ∨ (p = .batch id ∧ b.taken = some s.lock) := by
  rcases p with id' | id'
  · obtain ⟨t, ht, hc, ha, hs⟩ := hp
    rw [hT] at ht
    rw [hL] at hs
    exact Or.inl ⟨by simp, t, ht, hc, ha, hs⟩
  · obtain ⟨b', hb', htaken⟩ := hp
    rw [hB, PyDict.get?_set] at hb'
    rw [hL] at htaken
    by_cases hid : id' = id
    · rw [if_pos hid] at hb'
      obtain rfl := Option.some.inj hb'
      exact Or.inr ⟨by rw [hid], htaken⟩
    · rw [if_neg hid] at hb'
      exact Or.inl ⟨by simpa using hid, b', hb', htaken⟩

omit [LinearOrder Enc] [DecidableEq Key] in
/-- A transaction that goes on keeps the slot question as it was. -/
theorem SlotOk.keepTransaction {s s' : InMemoryStorage Enc Key Val} (h : SlotOk s) {id : Nat}
    {t t' : Transaction Enc Key Val} (ht : s.transactions.get? id = some t)
    (hlive : t.committed = false ∧ t.aborted = false)
    (hT : s'.transactions = s.transactions.set id t') (hB : s'.batches = s.batches)
    (hL : s'.lock = s.lock) (hl : s'.locked = s.locked) (hslot : t'.slot = t.slot) : SlotOk s' :=
  h.mono (fun p hp => by
    rcases holds_setTransaction hp hT hB hL with ⟨-, hold⟩ | ⟨rfl, -, -, hs⟩
    · exact hold
    · exact ⟨t, ht, hlive.1, hlive.2, hslot.symm.trans hs⟩) hl

omit [LinearOrder Enc] [DecidableEq Key] in
/-- A transaction that ends gives back its lock, if that is still the current one. -/
theorem SlotOk.endTransaction {s s' : InMemoryStorage Enc Key Val} (h : SlotOk s) {id : Nat}
    {t t' : Transaction Enc Key Val} (ht : s.transactions.get? id = some t)
    (hlive : t.committed = false ∧ t.aborted = false)
    (hT : s'.transactions = s.transactions.set id t') (hB : s'.batches = s.batches)
    (hL : s'.lock = s.lock) (hl : s'.locked = if t.slot = s.lock then false else s.locked)
    (hended : t'.committed = true ∨ t'.aborted = true) : SlotOk s' := by
  have hh : ∀ q, Holds s' q → Holds s q ∧ q ≠ .transaction id := fun q hq => by
    rcases holds_setTransaction hq hT hB hL with ⟨hne, hold⟩ | ⟨-, hc, ha, -⟩
    · exact ⟨hold, hne⟩
    · exact absurd hended (by simp [hc, ha])
  by_cases hs : t.slot = s.lock
  · exact h.release (p := .transaction id) ⟨t, ht, hlive.1, hlive.2, hs⟩ hh
  · exact h.mono (fun q hq => (hh q hq).1) (by rw [hl, if_neg hs])

omit [DecidableEq Key] in
/-- A step of one open transaction that changes nothing the others see. -/
theorem inv_setTransaction {w : System Enc Key Val} (h : Inv w) {id : Nat}
    {t t' : Transaction Enc Key Val} (ht : w.storage.transactions.get? id = some t)
    (hlive : t.committed = false) (locked : Bool) {ops : List (Write Enc Key Val)}
    (hok : TransactionOk w.storage w.committed (w.base id) ops t')
    (hlive' : t'.committed = false)
    (hslot : SlotOk { w.storage with
      transactions := w.storage.transactions.set id t', locked := locked }) :
    Inv { w with
      storage := { w.storage with
        transactions := w.storage.transactions.set id t', locked := locked }
      txnOps := Function.update w.txnOps id ops } where
  reads := h.reads
  txns := fun id' t₁ h₁ => by
    by_cases hid : id' = id
    · subst hid
      simp only [PyDict.get?_set_self, Option.some.injEq] at h₁
      subst h₁
      simp only [Function.update_self]
      exact hok.frame rfl rfl rfl fun _ => rfl
    · simp only [PyDict.get?_set_of_ne _ _ hid] at h₁
      simp only [Function.update_of_ne hid]
      exact (h.txns id' t₁ h₁).frame rfl rfl rfl fun _ => rfl
  batches := fun id' b hb => (h.batches id' b hb).frame rfl rfl
  slot := hslot
  units := fun unit hu => by
    rcases unit with ⟨id' | id', ops'⟩
    · obtain ⟨t₁, h₁, hc, ha, ho⟩ := h.units _ hu
      have hid : id' ≠ id := by
        rintro rfl
        rw [ht] at h₁
        obtain rfl := Option.some.inj h₁
        simp [hlive] at hc
      exact ⟨t₁, by rw [PyDict.get?_set_of_ne _ _ hid]; exact h₁, hc, ha,
        ho.trans (Function.update_of_ne hid _ _).symm⟩
    · exact h.units _ hu
  once := h.once
  txnsKept := fun id' t₁ h₁ hc hg => by
    by_cases hid : id' = id
    · subst hid
      simp only [PyDict.get?_set_self, Option.some.injEq] at h₁
      subst h₁
      simp [hlive'] at hc
    · simp only [PyDict.get?_set_of_ne _ _ hid] at h₁
      exact h.txnsKept id' t₁ h₁ hc hg
  batchesKept := h.batchesKept

omit [DecidableEq Key] in
/-- A step of one batch not yet written that changes nothing the others see. -/
theorem inv_setBatch {w : System Enc Key Val} (h : Inv w) {id : Nat}
    {b b' : WriteBatch Enc Key Val} (hb : w.storage.batches.get? id = some b)
    (hlive : b.written = false) (locked : Bool) {ops : List (Write Enc Key Val)}
    (hok : BatchOk w.storage ops b') (hlive' : b'.written = false)
    (hslot : SlotOk { w.storage with batches := w.storage.batches.set id b', locked := locked }) :
    Inv { w with
      storage := { w.storage with batches := w.storage.batches.set id b', locked := locked }
      batchOps := Function.update w.batchOps id ops } where
  reads := h.reads
  txns := fun id' t ht => (h.txns id' t ht).frame rfl rfl rfl fun _ => rfl
  batches := fun id' b₁ h₁ => by
    by_cases hid : id' = id
    · subst hid
      simp only [PyDict.get?_set_self, Option.some.injEq] at h₁
      subst h₁
      simp only [Function.update_self]
      exact hok.frame rfl rfl
    · simp only [PyDict.get?_set_of_ne _ _ hid] at h₁
      simp only [Function.update_of_ne hid]
      exact (h.batches id' b₁ h₁).frame rfl rfl
  slot := hslot
  units := fun unit hu => by
    rcases unit with ⟨id' | id', ops'⟩
    · exact h.units _ hu
    · obtain ⟨b₁, h₁, hw, ha, ho⟩ := h.units _ hu
      have hid : id' ≠ id := by
        rintro rfl
        rw [hb] at h₁
        obtain rfl := Option.some.inj h₁
        simp [hlive] at hw
      exact ⟨b₁, by rw [PyDict.get?_set_of_ne _ _ hid]; exact h₁, hw, ha,
        ho.trans (Function.update_of_ne hid _ _).symm⟩
  once := h.once
  txnsKept := h.txnsKept
  batchesKept := fun id' b₁ h₁ hw hg => by
    by_cases hid : id' = id
    · subst hid
      simp only [PyDict.get?_set_self, Option.some.injEq] at h₁
      subst h₁
      simp [hlive'] at hw
    · simp only [PyDict.get?_set_of_ne _ _ hid] at h₁
      exact h.batchesKept id' b₁ h₁ hw hg

omit [DecidableEq Key] in
/-- The store and the snapshots over it change together, the live map stays. -/
theorem inv_setReads {w : System Enc Key Val} (h : Inv w) {store : VersionedStore Enc Key Val}
    {snapshots : PyDict Nat Snapshot} {opening : Nat → Enc → Option (Key × Val)}
    (hg : store.generation = w.storage.store.generation)
    (hreads : SnapshotsOk { w.storage with store := store, snapshots := snapshots }
      w.committed opening) :
    Inv { w with
      storage := { w.storage with store := store, snapshots := snapshots }
      opening := opening } where
  reads := hreads
  txns := fun id t ht => (h.txns id t ht).frame hg rfl rfl fun _ => rfl
  batches := fun id b hb => (h.batches id b hb).frame hg rfl
  slot := h.slot.mono (fun p hp => by cases p <;> exact hp) rfl
  units := h.units
  once := h.once
  txnsKept := fun id t ht hc hgen => h.txnsKept id t ht hc (hgen.trans hg)
  batchesKept := fun id b hb hw hgen => h.batchesKept id b hb hw (hgen.trans hg)

omit [DecidableEq Key] in
/-- A transaction in the middle of `commit` ends well and joins the history. -/
theorem inv_commitTransaction {w : System Enc Key Val} (h : Inv w) {id : Nat}
    {t : Transaction Enc Key Val} (ht : w.storage.transactions.get? id = some t)
    (hcl : t.closed = true) (hlive : t.committed = false ∧ t.aborted = false)
    {store : VersionedStore Enc Key Val} (modified : Finset Key) {locked : Bool}
    (hg : store.generation = w.storage.store.generation)
    (hreads : SnapshotsOk { w.storage with store := store }
      (exec w.committed (w.txnOps id)) w.opening)
    (hbase : ∀ id' t', w.storage.transactions.get? id' = some t' → t'.closed = false →
      exec w.committed (w.txnOps id) = w.committed)
    (hlocked : locked = if t.slot = w.storage.lock then false else w.storage.locked)
    {notified : List (Finset Key)} :
    Inv { w with
      storage := { w.storage with
        store := store
        transactions := w.storage.transactions.set id
          { t with committed := true, modified := modified }
        locked := locked
        notified := notified }
      serial := w.serial ++ [(.transaction id, w.txnOps id)] } := by
  have hcom : execUnits (w.serial ++ [(Party.transaction id, w.txnOps id)]) =
      exec w.committed (w.txnOps id) := execUnits_append_singleton _ _
  refine ⟨?_, ?_, ?_, ?_, ?_, ?_, ?_, ?_⟩
  · rw [← hcom] at hreads
    exact hreads
  · intro id' t' ht'
    simp only [committed, hcom]
    by_cases hid : id' = id
    · subst hid
      simp only [PyDict.get?_set_self, Option.some.injEq] at ht'
      subst ht'
      have hok := h.txns id' t ht
      exact
        { ended := fun _ => hcl
          generation := hg ▸ hok.generation
          slot := hok.slot
          index := hok.index
          pending := hok.pending
          current := by simp
          fresh := by simp [hcl] }
    · simp only [PyDict.get?_set_of_ne _ _ hid] at ht'
      exact (h.txns id' t' ht').frame hg rfl rfl fun hopen => hbase id' t' ht' hopen
  · exact fun id' b hb => (h.batches id' b hb).frame hg rfl
  · exact h.slot.endTransaction ht hlive rfl rfl rfl hlocked (Or.inl rfl)
  · intro unit hu
    rcases List.mem_append.1 hu with hu | hu
    · rcases unit with ⟨id' | id', ops'⟩
      · obtain ⟨t₁, h₁, hc, ha, ho⟩ := h.units _ hu
        have hid : id' ≠ id := by
          rintro rfl
          rw [ht] at h₁
          obtain rfl := Option.some.inj h₁
          simp [hlive.1] at hc
        exact ⟨t₁, by rw [PyDict.get?_set_of_ne _ _ hid]; exact h₁, hc, ha, ho⟩
      · exact h.units _ hu
    · obtain rfl := List.mem_singleton.1 hu
      exact ⟨_, PyDict.get?_set_self _ _ _, rfl, hlive.2, rfl⟩
  · rw [List.map_append, List.nodup_append]
    refine ⟨h.once, by simp, fun p hp q hq => ?_⟩
    obtain ⟨⟨p, ops⟩, hu, rfl⟩ := List.mem_map.1 hp
    obtain rfl : q = .transaction id := by simpa using hq
    rintro rfl
    obtain ⟨t₁, h₁, hc, -⟩ := h.units _ hu
    rw [ht] at h₁
    obtain rfl := Option.some.inj h₁
    simp [hlive.1] at hc
  · intro id' t' ht' hc hgen
    rw [List.map_append]
    by_cases hid : id' = id
    · simp [hid]
    · simp only [PyDict.get?_set_of_ne _ _ hid] at ht'
      exact List.mem_append_left _ (h.txnsKept id' t' ht' hc (hgen.trans hg))
  · intro id' b hb hw hgen
    rw [List.map_append]
    exact List.mem_append_left _ (h.batchesKept id' b hb hw (hgen.trans hg))

omit [DecidableEq Key] in
/-- A batch in the middle of `write` ends well and joins the history. -/
theorem inv_commitBatch {w : System Enc Key Val} (h : Inv w) {id : Nat}
    {b b' : WriteBatch Enc Key Val} (hb : w.storage.batches.get? id = some b)
    (hlive : b.written = false)
    (hok : BatchOk w.storage (w.batchOps id) b') (hended : b'.written = true ∧ b'.aborted = false)
    {store : VersionedStore Enc Key Val} {locked : Bool}
    (hg : store.generation = w.storage.store.generation)
    (hreads : SnapshotsOk { w.storage with store := store }
      (exec w.committed (w.batchOps id)) w.opening)
    (hbase : ∀ id' t', w.storage.transactions.get? id' = some t' → t'.closed = false →
      exec w.committed (w.batchOps id) = w.committed)
    (hslot : SlotOk { w.storage with
      batches := w.storage.batches.set id b', locked := locked })
    {notified : List (Finset Key)} :
    Inv { w with
      storage := { w.storage with
        store := store
        batches := w.storage.batches.set id b'
        locked := locked
        notified := notified }
      serial := w.serial ++ [(.batch id, w.batchOps id)] } := by
  have hcom : execUnits (w.serial ++ [(Party.batch id, w.batchOps id)]) =
      exec w.committed (w.batchOps id) := execUnits_append_singleton _ _
  refine ⟨?_, ?_, ?_, hslot.mono (fun p hp => by cases p <;> exact hp) rfl, ?_, ?_, ?_, ?_⟩
  · rw [← hcom] at hreads
    exact hreads
  · intro id' t ht
    exact (h.txns id' t ht).frame hg rfl rfl fun hopen => hcom.trans (hbase id' t ht hopen)
  · intro id' b₁ h₁
    by_cases hid : id' = id
    · subst hid
      simp only [PyDict.get?_set_self, Option.some.injEq] at h₁
      subst h₁
      exact hok.frame hg rfl
    · simp only [PyDict.get?_set_of_ne _ _ hid] at h₁
      exact (h.batches id' b₁ h₁).frame hg rfl
  · intro unit hu
    rcases List.mem_append.1 hu with hu | hu
    · rcases unit with ⟨id' | id', ops'⟩
      · exact h.units _ hu
      · obtain ⟨b₁, h₁, hw, ha, ho⟩ := h.units _ hu
        have hid : id' ≠ id := by
          rintro rfl
          rw [hb] at h₁
          obtain rfl := Option.some.inj h₁
          simp [hlive] at hw
        exact ⟨b₁, by rw [PyDict.get?_set_of_ne _ _ hid]; exact h₁, hw, ha, ho⟩
    · obtain rfl := List.mem_singleton.1 hu
      exact ⟨_, PyDict.get?_set_self _ _ _, hended.1, hended.2, rfl⟩
  · rw [List.map_append, List.nodup_append]
    refine ⟨h.once, by simp, fun p hp q hq => ?_⟩
    obtain ⟨⟨p, ops⟩, hu, rfl⟩ := List.mem_map.1 hp
    obtain rfl : q = .batch id := by simpa using hq
    rintro rfl
    obtain ⟨b₁, h₁, hw, -⟩ := h.units _ hu
    rw [hb] at h₁
    obtain rfl := Option.some.inj h₁
    simp [hlive] at hw
  · intro id' t ht hc hgen
    rw [List.map_append]
    exact List.mem_append_left _ (h.txnsKept id' t ht hc (hgen.trans hg))
  · intro id' b₁ h₁ hw hgen
    rw [List.map_append]
    by_cases hid : id' = id
    · simp [hid]
    · simp only [PyDict.get?_set_of_ne _ _ hid] at h₁
      exact List.mem_append_left _ (h.batchesKept id' b₁ h₁ hw (hgen.trans hg))

/-- What `apply` does to the reads of a storage: all of the write set, or nothing. -/
theorem snapshotsOk_apply {s : InMemoryStorage Enc Key Val} {c : Enc → Option (Key × Val)}
    {opening : Nat → Enc → Option (Key × Val)} (h : SnapshotsOk s c opening)
    (ops : PyDict Enc (Key × Staged Val)) (modified : Finset Key) (generation : Nat)
    (faults : FaultPoint → Enc → Bool) :
    let r := s.store.apply ops modified generation faults
    r.1.generation = s.store.generation ∧
      ((∃ n, r.2.2 = .ok n ∧ generation = s.store.generation ∧
          SnapshotsOk { s with store := r.1 } (overwrite c ops.items) opening) ∨
        (∃ e, r.2.2 = .error e ∧ SnapshotsOk { s with store := r.1 } c opening)) := by
  intro r
  obtain ⟨pins, hinv, hcount, hsnaps⟩ := h
  have hstep := World.inv_apply hinv ops modified generation faults
  obtain ⟨past, hv, -, -⟩ := hinv.versions
  rcases apply_cases hv ops modified generation faults with
    ⟨hs, hr⟩ | ⟨hgen, -, -, -, ⟨fault, hr, -⟩ | ⟨hr, -⟩⟩
  · refine ⟨congrArg _ hs, Or.inr ⟨_, hr, pins, ?_, hcount, hsnaps⟩⟩
    simpa only [World.step, hr] using hstep
  · refine ⟨hgen, Or.inr ⟨_, hr, pins, ?_, hcount, hsnaps⟩⟩
    simpa only [World.step, hr] using hstep
  · refine ⟨hgen, Or.inl ⟨_, hr, ?_, pins, ?_, hcount, hsnaps⟩⟩
    · by_contra hne
      simp [VersionedStore.apply, hne] at hr
    · simpa only [World.step, hr] using hstep

omit [DecidableEq Key] in
/-- A transaction begun over a free slot. -/
theorem inv_addTransaction {w : System Enc Key Val} (h : Inv w) {id : Nat}
    (hopened : w.storage.opened = true) (hnew : w.storage.transactions.get? id = none)
    (hfree : w.storage.locked ≠ true) :
    Inv { w with
      storage := { w.storage with
        locked := true
        transactions := w.storage.transactions.set id
          (.begin w.storage.lock w.storage.store.generation) }
      txnOps := Function.update w.txnOps id []
      base := Function.update w.base id w.committed } where
  reads := h.reads
  txns := fun id' t ht => by
    by_cases hid : id' = id
    · subst hid
      simp only [PyDict.get?_set_self, Option.some.injEq] at ht
      subst ht
      simp only [Function.update_self]
      exact
        { ended := by simp [Transaction.begin]
          generation := le_refl _
          slot := le_refl _
          index := by simp [Transaction.IndexOk, Transaction.begin]
          pending := fun _ _ => rfl
          current := fun _ _ _ => rfl
          fresh := fun _ => ⟨hopened, rfl, rfl⟩ }
    · simp only [PyDict.get?_set_of_ne _ _ hid] at ht
      simp only [Function.update_of_ne hid]
      exact (h.txns id' t ht).frame rfl rfl rfl fun _ => rfl
  batches := fun id' b hb => (h.batches id' b hb).frame rfl rfl
  slot := h.slot.take hfree (p := .transaction id)
    (fun q hq => (holds_setTransaction hq rfl rfl rfl).imp And.right And.left) rfl
  units := fun unit hu => by
    rcases unit with ⟨id' | id', ops⟩
    · obtain ⟨t, ht, hc, ha, ho⟩ := h.units _ hu
      have hid : id' ≠ id := by
        rintro rfl
        simp [hnew] at ht
      exact ⟨t, (PyDict.get?_set_of_ne _ _ hid).trans ht, hc, ha,
        ho.trans (Function.update_of_ne hid _ _).symm⟩
    · exact h.units _ hu
  once := h.once
  txnsKept := fun id' t ht hc hg => by
    by_cases hid : id' = id
    · subst hid
      simp only [PyDict.get?_set_self, Option.some.injEq] at ht
      simp [← ht, Transaction.begin] at hc
    · simp only [PyDict.get?_set_of_ne _ _ hid] at ht
      exact h.txnsKept id' t ht hc hg
  batchesKept := h.batchesKept

omit [DecidableEq Key] in
/-- A batch begun. -/
theorem inv_addBatch {w : System Enc Key Val} (h : Inv w) {id : Nat}
    (hnew : w.storage.batches.get? id = none) :
    Inv { w with
      storage := { w.storage with
        batches := w.storage.batches.set id (.begin w.storage.store.generation) }
      batchOps := Function.update w.batchOps id [] } where
  reads := h.reads
  txns := fun id' t ht => (h.txns id' t ht).frame rfl rfl rfl fun _ => rfl
  batches := fun id' b hb => by
    by_cases hid : id' = id
    · subst hid
      simp only [PyDict.get?_set_self, Option.some.injEq] at hb
      subst hb
      simp only [Function.update_self]
      exact
        { ended := by simp [WriteBatch.begin]
          generation := le_refl _
          taken := by simp [WriteBatch.begin]
          pending := fun _ _ _ => rfl
          current := by simp [WriteBatch.begin] }
    · simp only [PyDict.get?_set_of_ne _ _ hid] at hb
      simp only [Function.update_of_ne hid]
      exact (h.batches id' b hb).frame rfl rfl
  slot := h.slot.mono (fun q hq => by
    rcases holds_setBatch (s := w.storage) hq rfl rfl rfl with ⟨-, hold⟩ | ⟨-, hnone⟩
    · exact hold
    · simp [WriteBatch.begin] at hnone) rfl
  units := fun unit hu => by
    rcases unit with ⟨id' | id', ops⟩
    · exact h.units _ hu
    · obtain ⟨b, hb, hw, ha, ho⟩ := h.units _ hu
      have hid : id' ≠ id := by
        rintro rfl
        simp [hnew] at hb
      exact ⟨b, (PyDict.get?_set_of_ne _ _ hid).trans hb, hw, ha,
        ho.trans (Function.update_of_ne hid _ _).symm⟩
  once := h.once
  txnsKept := h.txnsKept
  batchesKept := fun id' b hb hw hg => by
    by_cases hid : id' = id
    · subst hid
      simp only [PyDict.get?_set_self, Option.some.injEq] at hb
      simp [← hb, WriteBatch.begin] at hw
    · simp only [PyDict.get?_set_of_ne _ _ hid] at hb
      exact h.batchesKept id' b hb hw hg

/-! ## One lemma a step -/

section Steps

variable {codec : Codec Enc Key Val Value} {w : System Enc Key Val}

omit [LinearOrder Enc] [DecidableEq Key] in
theorem releaseWriteSlot_eq (s : InMemoryStorage Enc Key Val) (lock : Nat) :
    s.releaseWriteSlot lock = { s with locked := if lock = s.lock then false else s.locked } := by
  unfold InMemoryStorage.releaseWriteSlot
  split_ifs <;> rfl

omit [LinearOrder Enc] in
theorem notifyBatch_eq (s : InMemoryStorage Enc Key Val) (keys : Finset Key) :
    s.notifyBatch keys = { s with notified := s.notified ++ if keys = ∅ then [] else [keys] } := by
  unfold InMemoryStorage.notifyBatch
  split_ifs <;> simp

theorem inv_beginTransaction (h : Inv w) (id : Nat) : Inv (w.step codec (.beginTransaction id)) := by
  unfold step InMemoryStorage.perform InMemoryStorage.beginTransaction
  dsimp only
  split_ifs with hro hcl hlocked
  · exact h
  · exact h
  · exact h
  · push Not at hcl
    exact inv_addTransaction h hcl.1 (by simpa using hcl.2) hlocked

omit [DecidableEq Key] in
theorem pending_stage {s : InMemoryStorage Enc Key Val} {c base : Enc → Option (Key × Val)}
    {ops : List (Write Enc Key Val)} {t : Transaction Enc Key Val}
    (h : TransactionOk s c base ops t) (enc : Enc) (key : Key) (staged : Staged Val) {op : Write Enc Key Val}
    (hop : ∀ m, op.exec m = Function.update m enc (stagedEntry key staged)) (modified : Finset Key) :
    TransactionOk s c base (ops ++ [op]) { t.stage enc key staged with modified := modified } where
  ended := h.ended
  generation := h.generation
  slot := h.slot
  index := Transaction.indexOk_stage h.index enc key staged
  pending := fun ha m => by
    rw [exec_append_singleton, hop, ← h.pending ha m]
    exact overwrite_setItem m enc key staged t.pending.items
  current := h.current
  fresh := h.fresh

theorem inv_stageTransaction (h : Inv w) (id : Nat) (key : Key) (value : Option (Option Value)) :
    Inv (w.step codec (.stageTransaction id key value)) := by
  unfold step InMemoryStorage.perform InMemoryStorage.stageTransaction
  dsimp only
  rcases ht : w.storage.transactions.get? id with _ | t
  · exact h
  dsimp only
  split_ifs with hcl
  · exact h
  have hcl : t.closed = false := by simpa using hcl
  have hok := h.txns id t ht
  have hlive := hok.live hcl
  -- one staged write, put or delete
  have hstage : ∀ enc staged op modified,
      (∀ m, Write.exec m op = Function.update m enc (stagedEntry key staged)) →
      Inv { w with
        storage := { w.storage with
          transactions := w.storage.transactions.set id
            { t.stage enc key staged with modified := modified } }
        txnOps := Function.update w.txnOps id (w.txnOps id ++ [op]) } :=
    fun enc staged op modified hop =>
      inv_setTransaction h ht hlive.1 w.storage.locked
        (pending_stage hok enc key staged hop modified) hlive.1
        (h.slot.keepTransaction ht hlive rfl rfl rfl rfl rfl)
  rcases value with _ | _ | v <;> dsimp only
  · rcases henc : codec.encodeKey key with _ | enc
    · exact h
    · simp only [record, writeOf, henc, Option.map_some, Option.toList_some]
      exact hstage enc .DELETED (.delete enc) t.modified fun m => rfl
  · exact h
  · rcases henc : codec.encodeKey key with _ | enc
    · exact h
    · rcases hval : codec.encodeValue v with _ | encoded
      · exact h
      · simp only [record, writeOf, henc, hval, Option.toList_some]
        exact hstage enc (.value encoded) (.put enc key encoded) (insert key t.modified)
          fun m => rfl

theorem inv_pageTransaction (h : Inv w) (id : Nat) (bound : Option Enc) (inclusive reverse : Bool)
    (n : Nat) (stop : Option Enc) :
    Inv (w.step codec (.pageTransaction id bound inclusive reverse n stop)) := by
  unfold step InMemoryStorage.perform InMemoryStorage.pageTransaction
  dsimp only
  rcases ht : w.storage.transactions.get? id with _ | t
  · exact h
  dsimp only
  split_ifs with hcl
  · exact h
  have hcl : t.closed = false := by simpa using hcl
  have hok := h.txns id t ht
  have hlive := hok.live hcl
  have hix := Transaction.indexOk_page hok.index w.storage.store bound inclusive reverse n stop
  obtain ⟨index, heq⟩ : ∃ index, (t.page w.storage.store bound inclusive reverse n stop).1 =
      { t with pendingIndex := index } := by
    unfold Transaction.page
    dsimp only
    split_ifs
    · exact ⟨t.pendingIndex, rfl⟩
    · exact ⟨_, rfl⟩
  rw [heq] at hix ⊢
  have hok' : TransactionOk w.storage w.committed (w.base id) (w.txnOps id)
      { t with pendingIndex := index } := { hok with index := hix }
  have := inv_setTransaction h ht hlive.1 w.storage.locked hok' hlive.1
    (h.slot.keepTransaction ht hlive rfl rfl rfl rfl rfl)
  rwa [Function.update_eq_self] at this

theorem inv_commitClaim (h : Inv w) (id : Nat) : Inv (w.step codec (.commitClaim id)) := by
  unfold step InMemoryStorage.perform InMemoryStorage.commitClaim
  dsimp only
  rcases ht : w.storage.transactions.get? id with _ | t
  · exact h
  dsimp only
  split_ifs with hcl
  · exact h
  have hcl : t.closed = false := by simpa using hcl
  have hok := h.txns id t ht
  have hlive := hok.live hcl
  have hok' : TransactionOk w.storage w.committed (w.base id) (w.txnOps id)
      { t with closed := true } := { hok with ended := fun _ => rfl, fresh := by simp }
  have := inv_setTransaction h ht hlive.1 w.storage.locked hok' hlive.1
    (h.slot.keepTransaction ht hlive rfl rfl rfl rfl rfl)
  rwa [Function.update_eq_self] at this

theorem inv_commitApply (h : Inv w) (id : Nat) (faults : FaultPoint → Enc → Bool) :
    Inv (w.step codec (.commitApply id faults)) := by
  unfold step InMemoryStorage.perform InMemoryStorage.commitApply
  dsimp only
  rcases ht : w.storage.transactions.get? id with _ | t
  · exact h
  dsimp only
  split_ifs with hst hemp
  · exact h
  all_goals
    obtain ⟨hcl, hlive⟩ : t.closed = true ∧ t.committed = false ∧ t.aborted = false := by
      simpa using hst
    have hok := h.txns id t ht
  · have hsame : exec w.committed (w.txnOps id) = w.committed := by
      rw [← hok.pending hlive.2, hemp]
      rfl
    rw [notifyBatch_eq, releaseWriteSlot_eq]
    refine inv_commitTransaction h ht hcl hlive t.modified rfl ?_
      (fun _ _ _ _ => hsame) rfl
    rw [hsame]
    exact h.reads
  · obtain ⟨hgen, ⟨n, hr, hcur, hreads⟩ | ⟨e, hr, hreads⟩⟩ :=
      snapshotsOk_apply h.reads t.pending t.modified t.generation faults
    · rcases hap : w.storage.store.apply t.pending t.modified t.generation faults with
        ⟨store, modified, res⟩
      rw [hap] at hr hreads hgen
      obtain rfl : res = .ok n := hr
      dsimp only
      rw [notifyBatch_eq, releaseWriteSlot_eq]
      rw [hok.pending hlive.2] at hreads
      refine inv_commitTransaction h ht hcl hlive modified hgen hreads (fun id' t' ht' hopen => ?_) rfl
      have hholds : Holds w.storage (.transaction id) :=
        ⟨t, ht, hlive.1, hlive.2, hok.current hlive.1 hlive.2 hcur⟩
      have hne : Party.transaction id ≠ .transaction id' := by
        rintro hid
        obtain rfl := Party.transaction.inj hid
        rw [ht] at ht'
        simp [← Option.some.inj ht', hcl] at hopen
      simp [h.closed_of_holds hholds ht' hne] at hopen
    · rcases hap : w.storage.store.apply t.pending t.modified t.generation faults with
        ⟨store, modified, res⟩
      rw [hap] at hr hreads hgen
      obtain rfl : res = .error e := hr
      dsimp only
      rw [releaseWriteSlot_eq]
      have h' := inv_setReads h hgen hreads
      have hok' : TransactionOk { w.storage with store := store } w.committed (w.base id)
          (w.txnOps id) { t with aborted := true, modified := modified } :=
        { hok.frame (r := { w.storage with store := store }) hgen rfl rfl (fun _ => rfl) with
          ended := fun _ => hcl
          pending := by simp
          current := by simp }
      have := inv_setTransaction h' ht hlive.1
        (if t.slot = w.storage.lock then false else w.storage.locked) hok' hlive.1
        (h'.slot.endTransaction ht hlive rfl rfl rfl rfl (Or.inr rfl))
      rwa [Function.update_eq_self] at this

theorem inv_abortTransaction (h : Inv w) (id : Nat) :
    Inv (w.step codec (.abortTransaction id)) := by
  unfold step InMemoryStorage.perform InMemoryStorage.abortTransaction
  dsimp only
  rcases ht : w.storage.transactions.get? id with _ | t
  · exact h
  dsimp only
  split_ifs with hcl
  · exact h
  have hok := h.txns id t ht
  have hlive := hok.live (by simpa using hcl)
  rw [releaseWriteSlot_eq, InMemoryStorage.abortedTransaction, if_neg hcl]
  have hok' : TransactionOk w.storage w.committed (w.base id) (w.txnOps id)
      { t with closed := true, aborted := true, pendingIndex := none, pending := .empty } :=
    { hok with
      ended := fun _ => rfl
      index := by simp [Transaction.IndexOk]
      pending := by simp
      current := by simp
      fresh := by simp }
  have := inv_setTransaction h ht hlive.1
    (if t.slot = w.storage.lock then false else w.storage.locked) hok' hlive.1
    (h.slot.endTransaction ht hlive rfl rfl rfl rfl (Or.inr rfl))
  rwa [Function.update_eq_self] at this

omit [DecidableEq Key] in
/-- Pins with one token read one map. -/
theorem map_eq_of_token {v : World Enc Key Val} (h : World.Inv v) {p q : Pin Enc Key Val}
    (hp : p ∈ v.pins) (hq : q ∈ v.pins) (ht : p.token = q.token) : p.map = q.map := by
  obtain ⟨past, -, -, hmaps⟩ := h.versions
  rw [hmaps p hp, hmaps q hq, ht]

omit [LinearOrder Enc] [DecidableEq Key] in
/-- An open snapshot's pin, with the map of the snapshot's opening. -/
theorem exists_pin {s : InMemoryStorage Enc Key Val} {opening : Nat → Enc → Option (Key × Val)}
    {pins : List (Pin Enc Key Val)}
    (hcount : ∀ token, s.snapshots.count (fun snap => snap.pinned && snap.token = token) ≤
      pins.countP fun p => p.token = token)
    {id : Nat} {snap : Snapshot} (hs : s.snapshots.get? id = some snap)
    (hpinned : snap.pinned = true)
    (hmap : ∀ p ∈ pins, p.token = snap.token → p.map = opening id) :
    ∃ p ∈ pins, p.token = snap.token ∧ p.map = opening id := by
  have hpos := s.snapshots.count_pos (fun x => x.pinned && x.token = snap.token) hs
    (by simp [hpinned])
  obtain ⟨p, hp, ht⟩ := List.countP_pos_iff.1 (hpos.trans_le (hcount snap.token))
  have ht : p.token = snap.token := by simpa using ht
  exact ⟨p, hp, ht, hmap p hp ht⟩

theorem inv_beginSnapshot (h : Inv w) (id : Nat) : Inv (w.step codec (.beginSnapshot id)) := by
  unfold step InMemoryStorage.perform InMemoryStorage.beginSnapshot
  dsimp only
  split_ifs with hcl
  · exact h
  push Not at hcl
  obtain ⟨hopened, hnew⟩ := hcl
  obtain ⟨pins, hinv, hcount, hsnaps⟩ := h.reads
  obtain ⟨hgen, htoken⟩ := World.pin_generation w.storage.store
  have hinv' := World.inv_pin hinv
  refine inv_setReads h hgen ⟨_, hinv', fun token => ?_, fun id' snap hs => ?_⟩
  · have hset := PyDict.count_set w.storage.snapshots
      (fun snap => snap.pinned && snap.token = token) id ⟨w.storage.store.pin.2, false, true⟩
    have hnone : w.storage.snapshots.get? id = none := by simpa using hnew
    have hold := hcount token
    simp only [hnone, Option.toList_none, List.countP_nil, Nat.add_zero] at hset
    rw [List.countP_append]
    simp only [hset, List.countP_singleton, Bool.true_and]
    exact Nat.add_le_add_right hold _
  · by_cases hid : id' = id
    · subst hid
      simp only [PyDict.get?_set_self, Option.some.injEq] at hs
      subst hs
      refine ⟨fun _ => rfl, fun _ => ⟨hopened, fun p hp ht => ?_⟩⟩
      exact (map_eq_of_token hinv' hp (List.mem_append_right _ (List.mem_singleton_self _)) ht).trans
        (by simp [record])
    · simp only [PyDict.get?_set_of_ne _ _ hid] at hs
      obtain ⟨hop, hmap⟩ := hsnaps id' snap hs
      refine ⟨hop, fun hpinned => ⟨hopened, fun p hp ht => ?_⟩⟩
      obtain ⟨q, hq, hqt, hqm⟩ := exists_pin hcount hs hpinned (hmap hpinned).2
      exact (map_eq_of_token hinv' hp (List.mem_append_left _ hq) (ht.trans hqt.symm)).trans
        (hqm.trans (by simp [record, hid]))

omit [DecidableEq Key] in
/-- A snapshot closes: with its pin released if it still had it. -/
theorem snapshotsOk_close {s : InMemoryStorage Enc Key Val} {c : Enc → Option (Key × Val)}
    {opening : Nat → Enc → Option (Key × Val)} {pins : List (Pin Enc Key Val)}
    {store : VersionedStore Enc Key Val} {id : Nat} {snap : Snapshot}
    (hs : s.snapshots.get? id = some snap)
    (hcount : ∀ token, s.snapshots.count (fun snap => snap.pinned && snap.token = token) ≤
      pins.countP fun p => p.token = token)
    (hsnaps : ∀ id snap, s.snapshots.get? id = some snap →
      (snap.closed = false → snap.pinned = true) ∧ (snap.pinned = true → s.opened = true ∧
        ∀ p ∈ pins, p.token = snap.token → p.map = opening id))
    (hinv : World.Inv
      ⟨store, c, if snap.pinned then World.dropPin pins snap.token else pins⟩) :
    SnapshotsOk { s with
      store := store, snapshots := s.snapshots.set id (InMemoryStorage.closedSnapshot snap) }
      c opening := by
  refine ⟨_, hinv, fun token => ?_, fun id' snap' hs' => ?_⟩
  · have hset := PyDict.count_set s.snapshots (fun snap => snap.pinned && snap.token = token) id
      (InMemoryStorage.closedSnapshot snap)
    have hold := hcount token
    simp only [hs, Option.toList_some, List.countP_singleton, InMemoryStorage.closedSnapshot,
      Bool.false_and, Bool.false_eq_true, if_false, Nat.add_zero] at hset ⊢
    by_cases hp : snap.pinned = true
    · simp only [hp, Bool.true_and, decide_eq_true_eq] at hset
      rw [if_pos hp, World.countP_dropPin]
      omega
    · rw [if_neg hp]
      omega
  · by_cases hid : id' = id
    · subst hid
      simp only [PyDict.get?_set_self, Option.some.injEq] at hs'
      subst hs'
      simp [InMemoryStorage.closedSnapshot]
    · simp only [PyDict.get?_set_of_ne _ _ hid] at hs'
      obtain ⟨hop, hmap⟩ := hsnaps id' snap' hs'
      refine ⟨hop, fun hpinned => ⟨(hmap hpinned).1, fun p hp ht => ?_⟩⟩
      refine (hmap hpinned).2 p ?_ ht
      split_ifs at hp
      · exact World.mem_of_dropPin hp
      · exact hp

theorem inv_closeSnapshot (h : Inv w) (id : Nat) : Inv (w.step codec (.closeSnapshot id)) := by
  unfold step InMemoryStorage.perform InMemoryStorage.closeSnapshot
  dsimp only
  rcases hs : w.storage.snapshots.get? id with _ | snap
  · exact h
  obtain ⟨pins, hinv, hcount, hsnaps⟩ := h.reads
  dsimp only
  split_ifs with hp
  · refine inv_setReads h (hinv.unpin_generation snap.token)
      (snapshotsOk_close hs hcount hsnaps ?_)
    rw [if_pos hp]
    exact World.inv_unpin hinv snap.token
  · refine inv_setReads h rfl (snapshotsOk_close hs hcount hsnaps ?_)
    rwa [if_neg hp]

theorem inv_dropSnapshot (h : Inv w) (id : Nat) : Inv (w.step codec (.dropSnapshot id)) := by
  unfold step InMemoryStorage.perform InMemoryStorage.dropSnapshot
  dsimp only
  rcases hs : w.storage.snapshots.get? id with _ | snap
  · exact h
  obtain ⟨pins, hinv, hcount, hsnaps⟩ := h.reads
  dsimp only
  split_ifs with hp
  · refine inv_setReads h rfl (snapshotsOk_close hs hcount hsnaps ?_)
    rw [if_pos hp]
    exact World.inv_unpinLater hinv snap.token
  · refine inv_setReads h rfl (snapshotsOk_close hs hcount hsnaps ?_)
    rwa [if_neg hp]

theorem inv_beginWriteBatch (h : Inv w) (id : Nat) : Inv (w.step codec (.beginWriteBatch id)) := by
  unfold step InMemoryStorage.perform InMemoryStorage.beginWriteBatch
  dsimp only
  split_ifs with hro hcl
  · exact h
  · exact h
  · push Not at hcl
    exact inv_addBatch h (by simpa using hcl.2)

omit [LinearOrder Enc] [DecidableEq Key] in
/-- A batch that neither takes nor gives back the slot. -/
theorem SlotOk.keepBatch {s s' : InMemoryStorage Enc Key Val} (h : SlotOk s) {id : Nat}
    {b b' : WriteBatch Enc Key Val} (hb : s.batches.get? id = some b)
    (hT : s'.transactions = s.transactions) (hB : s'.batches = s.batches.set id b')
    (hL : s'.lock = s.lock) (hl : s'.locked = s.locked) (htaken : b'.taken = b.taken) :
    SlotOk s' :=
  h.mono (fun p hp => by
    rcases holds_setBatch hp hT hB hL with ⟨-, hold⟩ | ⟨rfl, hs⟩
    · exact hold
    · exact ⟨b, hb, htaken.symm.trans hs⟩) hl

omit [DecidableEq Key] in
theorem BatchOk.live {s : InMemoryStorage Enc Key Val} {ops : List (Write Enc Key Val)}
    {b : WriteBatch Enc Key Val} (h : BatchOk s ops b) (hcl : b.closed = false) :
    b.written = false ∧ b.aborted = false ∧ b.taken = none := by
  have hended := h.ended
  refine ⟨by rcases hw : b.written with _ | _ <;> simp_all,
    by rcases ha : b.aborted with _ | _ <;> simp_all, ?_⟩
  rcases ht : b.taken with _ | lock
  · rfl
  · simpa [InMemoryStorage.writing, hcl] using (h.taken lock ht).2.1

theorem inv_stageBatch (h : Inv w) (id : Nat) (key : Key) (value : Option (Option Value)) :
    Inv (w.step codec (.stageBatch id key value)) := by
  unfold step InMemoryStorage.perform InMemoryStorage.stageBatch
  dsimp only
  rcases hb : w.storage.batches.get? id with _ | b
  · exact h
  dsimp only
  split_ifs with hcl
  · exact h
  have hok := h.batches id b hb
  have hlive := hok.live (by simpa using hcl)
  have hstage : ∀ enc staged op modified,
      (∀ m, Write.exec m op = Function.update m enc (stagedEntry key staged)) →
      Inv { w with
        storage := { w.storage with
          batches := w.storage.batches.set id { b.stage enc key staged with modified := modified } }
        batchOps := Function.update w.batchOps id (w.batchOps id ++ [op]) } := by
    intro enc staged op modified hop
    have hok' : BatchOk w.storage (w.batchOps id ++ [op])
        { b.stage enc key staged with modified := modified } :=
      { hok with
        taken := by simp [WriteBatch.stage, hlive.2.2]
        pending := fun hw ha m => by
          rw [exec_append_singleton, hop, ← hok.pending hw ha m]
          exact overwrite_setItem m enc key staged b.pending.items }
    exact inv_setBatch h hb hlive.1 w.storage.locked hok' hlive.1
      (h.slot.keepBatch hb rfl rfl rfl rfl rfl)
  rcases value with _ | _ | v <;> dsimp only
  · rcases henc : codec.encodeKey key with _ | enc
    · exact h
    · simp only [record, writeOf, henc, Option.map_some, Option.toList_some]
      exact hstage enc .DELETED (.delete enc) b.modified fun m => rfl
  · exact h
  · rcases henc : codec.encodeKey key with _ | enc
    · exact h
    · rcases hval : codec.encodeValue v with _ | encoded
      · exact h
      · simp only [record, writeOf, henc, hval, Option.toList_some]
        exact hstage enc (.value encoded) (.put enc key encoded) (insert key b.modified)
          fun m => rfl

theorem inv_writeClaim (h : Inv w) (id : Nat) : Inv (w.step codec (.writeClaim id)) := by
  unfold step InMemoryStorage.perform InMemoryStorage.writeClaim
  dsimp only
  rcases hb : w.storage.batches.get? id with _ | b
  · exact h
  dsimp only
  split_ifs with hcl
  · exact h
  have hok := h.batches id b hb
  obtain ⟨hw, ha, ht⟩ := hok.live (by simpa using hcl)
  have hok' : BatchOk w.storage (w.batchOps id) { b with closed := true } :=
    { hok with
      ended := fun _ => rfl
      taken := by simp [ht] }
  have := inv_setBatch h hb hw w.storage.locked hok' hw
    (h.slot.keepBatch hb rfl rfl rfl rfl rfl)
  rwa [Function.update_eq_self] at this

omit [LinearOrder Enc] [DecidableEq Key] in
theorem writing_iff (b : WriteBatch Enc Key Val) : InMemoryStorage.writing b = true ↔
    b.closed = true ∧ b.written = false ∧ b.aborted = false := by
  simp [InMemoryStorage.writing, and_assoc]

theorem inv_writeTake (h : Inv w) (id : Nat) : Inv (w.step codec (.writeTake id)) := by
  unfold step InMemoryStorage.perform InMemoryStorage.writeTake
  dsimp only
  rcases hb : w.storage.batches.get? id with _ | b
  · exact h
  dsimp only
  split_ifs with hst hlocked
  · exact h
  · exact h
  push Not at hst
  have hwr : InMemoryStorage.writing b = true := hst.1
  have hok := h.batches id b hb
  have hok' : BatchOk w.storage (w.batchOps id) { b with taken := some w.storage.lock } :=
    { hok with
      taken := fun lock hl => ⟨(Option.some.inj hl).symm.le, hwr, hst.2.1⟩
      current := fun lock hl _ => (Option.some.inj hl).symm }
  obtain ⟨-, hw, -⟩ := (writing_iff b).1 hwr
  have := inv_setBatch h hb hw true hok' hw
    (h.slot.take hlocked (p := .batch id)
      (fun q hq => (holds_setBatch (s := w.storage) hq rfl rfl rfl).imp And.right And.left) rfl)
  rwa [Function.update_eq_self] at this

theorem inv_writeTimeout (h : Inv w) (id : Nat) : Inv (w.step codec (.writeTimeout id)) := by
  unfold step InMemoryStorage.perform InMemoryStorage.writeTimeout
  dsimp only
  rcases hb : w.storage.batches.get? id with _ | b
  · exact h
  dsimp only
  split_ifs with hst
  · exact h
  push Not at hst
  obtain ⟨hwr, -, htaken⟩ := hst
  have htaken : b.taken = none := by simpa using htaken
  obtain ⟨hcl, hw, -⟩ := (writing_iff b).1 hwr
  have hok := h.batches id b hb
  have hok' : BatchOk w.storage (w.batchOps id) { b with aborted := true, pending := .empty } :=
    { hok with
      ended := fun _ => hcl
      taken := by simp [htaken]
      pending := by simp }
  have := inv_setBatch h hb hw w.storage.locked hok' hw
    (h.slot.keepBatch hb rfl rfl rfl rfl rfl)
  rwa [Function.update_eq_self] at this

omit [LinearOrder Enc] [DecidableEq Key] in
/-- A batch that ends gives back the lock it took, if that is still the current one. -/
theorem SlotOk.endBatch {s s' : InMemoryStorage Enc Key Val} (h : SlotOk s) {id lock : Nat}
    {b b' : WriteBatch Enc Key Val} (hb : s.batches.get? id = some b) (htaken : b.taken = some lock)
    (hT : s'.transactions = s.transactions) (hB : s'.batches = s.batches.set id b')
    (hL : s'.lock = s.lock) (hl : s'.locked = if lock = s.lock then false else s.locked)
    (hnone : b'.taken = none) : SlotOk s' := by
  have hh : ∀ q, Holds s' q → Holds s q ∧ q ≠ .batch id := fun q hq => by
    rcases holds_setBatch hq hT hB hL with ⟨hne, hold⟩ | ⟨-, hs⟩
    · exact ⟨hold, hne⟩
    · simp [hnone] at hs
  by_cases hs : lock = s.lock
  · exact h.release (p := .batch id) ⟨b, hb, by rw [htaken, hs]⟩ hh
  · exact h.mono (fun q hq => (hh q hq).1) (by rw [hl, if_neg hs])

theorem inv_writeApply (h : Inv w) (id : Nat) (faults : FaultPoint → Enc → Bool) :
    Inv (w.step codec (.writeApply id faults)) := by
  unfold step InMemoryStorage.perform InMemoryStorage.writeApply
  dsimp only
  rcases hb : w.storage.batches.get? id with _ | b
  · exact h
  dsimp only
  by_cases hwr : InMemoryStorage.writing b = true
  swap
  · rw [if_pos hwr]
    exact h
  rw [if_neg (not_not.2 hwr)]
  obtain ⟨hcl, hw, ha⟩ := (writing_iff b).1 hwr
  have hok := h.batches id b hb
  by_cases hemp : b.pending.items = []
  · have hsame : exec w.committed (w.batchOps id) = w.committed := by
      rw [← hok.pending hw ha, hemp]
      rfl
    have hnone : b.taken = none := by
      rcases ht : b.taken with _ | lock
      · rfl
      · exact absurd hemp (hok.taken lock ht).2.2
    have hok' : BatchOk w.storage (w.batchOps id) { b with written := true } :=
      { hok with
        ended := fun _ => hcl
        taken := by simp [hnone]
        pending := by simp }
    rw [if_pos hemp, notifyBatch_eq]
    refine inv_commitBatch h hb hw hok' ⟨rfl, ha⟩ rfl ?_ (fun _ _ _ _ => hsame)
      (h.slot.keepBatch hb rfl rfl rfl rfl rfl)
    rw [hsame]
    exact h.reads
  rw [if_neg hemp]
  rcases htaken : b.taken with _ | lock
  · exact h
  dsimp only
  obtain ⟨hgen, ⟨n, hr, hcur, hreads⟩ | ⟨e, hr, hreads⟩⟩ :=
    snapshotsOk_apply h.reads b.pending b.modified b.generation faults
  · rcases hap : w.storage.store.apply b.pending b.modified b.generation faults with
      ⟨store, modified, res⟩
    rw [hap] at hr hreads hgen
    obtain rfl : res = .ok n := hr
    dsimp only
    rw [notifyBatch_eq, releaseWriteSlot_eq]
    rw [hok.pending hw ha] at hreads
    have hok' : BatchOk w.storage (w.batchOps id)
        { b with written := true, pending := .empty, modified := modified, taken := none } :=
      { hok with
        ended := fun _ => hcl
        taken := by simp
        pending := by simp
        current := by simp }
    refine inv_commitBatch h hb hw hok' ⟨rfl, ha⟩ hgen hreads (fun id' t ht hopen => ?_)
      (h.slot.endBatch hb htaken rfl rfl rfl rfl rfl)
    have hholds : Holds w.storage (.batch id) :=
      ⟨b, hb, by rw [htaken, hok.current lock htaken hcur]⟩
    simp [h.closed_of_holds hholds ht (by simp)] at hopen
  · rcases hap : w.storage.store.apply b.pending b.modified b.generation faults with
      ⟨store, modified, res⟩
    rw [hap] at hr hreads hgen
    obtain rfl : res = .error e := hr
    dsimp only
    rw [releaseWriteSlot_eq]
    have h' := inv_setReads h hgen hreads
    have hok' : BatchOk { w.storage with store := store } (w.batchOps id)
        { b with aborted := true, pending := .empty, modified := modified, taken := none } :=
      { hok.frame (r := { w.storage with store := store }) hgen rfl with
        ended := fun _ => hcl
        taken := by simp
        pending := by simp
        current := by simp }
    have := inv_setBatch h' hb hw
      (if lock = w.storage.lock then false else w.storage.locked) hok' hw
      (h'.slot.endBatch hb htaken rfl rfl rfl rfl rfl)
    rwa [Function.update_eq_self] at this

omit [DecidableEq Key] in
theorem BatchOk.aborted {s : InMemoryStorage Enc Key Val} {ops : List (Write Enc Key Val)}
    {b : WriteBatch Enc Key Val} (h : BatchOk s ops b) :
    BatchOk s ops (InMemoryStorage.abortedBatch b) := by
  unfold InMemoryStorage.abortedBatch
  split_ifs with hcl
  · exact h
  · have hlive := h.live (by simpa using hcl)
    exact { h with
      ended := fun _ => rfl
      taken := by simp [hlive.2.2]
      pending := by simp }

omit [LinearOrder Enc] [DecidableEq Key] in
theorem abortedBatch_frame (b : WriteBatch Enc Key Val) :
    (InMemoryStorage.abortedBatch b).closed = true ∧
      (InMemoryStorage.abortedBatch b).written = b.written ∧
      (InMemoryStorage.abortedBatch b).generation = b.generation ∧
      (InMemoryStorage.abortedBatch b).taken = b.taken := by
  unfold InMemoryStorage.abortedBatch
  split_ifs with hcl
  · exact ⟨hcl, rfl, rfl, rfl⟩
  · exact ⟨rfl, rfl, rfl, rfl⟩

theorem inv_abortBatch (h : Inv w) (id : Nat) : Inv (w.step codec (.abortBatch id)) := by
  unfold step InMemoryStorage.perform InMemoryStorage.abortBatch
  dsimp only
  rcases hb : w.storage.batches.get? id with _ | b
  · exact h
  dsimp only
  split_ifs with hcl
  · exact h
  have hok := h.batches id b hb
  obtain ⟨hw, -, -⟩ := hok.live (by simpa using hcl)
  obtain ⟨-, hw', -, htaken'⟩ := abortedBatch_frame b
  have := inv_setBatch h hb hw w.storage.locked hok.aborted (hw'.trans hw)
    (h.slot.keepBatch hb rfl rfl rfl rfl htaken')
  rwa [Function.update_eq_self] at this

omit [DecidableEq Key] in
/-- Once the data is dropped an ended or ending transaction is only a record. -/
theorem TransactionOk.reset {s s' : InMemoryStorage Enc Key Val}
    {c c' base : Enc → Option (Key × Val)} {ops : List (Write Enc Key Val)}
    {t : Transaction Enc Key Val} (h : TransactionOk s c base ops t) (hcl : t.closed = true)
    (hg : s.store.generation < s'.store.generation) (hl : s.lock ≤ s'.lock) :
    TransactionOk s' c' base ops t :=
  { h with
    generation := h.generation.trans hg.le
    slot := h.slot.trans hl
    current := fun _ _ he => absurd (he ▸ h.generation) (not_le.2 hg)
    fresh := by simp [hcl] }

omit [DecidableEq Key] in
theorem BatchOk.reset {s s' : InMemoryStorage Enc Key Val} {ops : List (Write Enc Key Val)}
    {b : WriteBatch Enc Key Val} (h : BatchOk s ops b)
    (hg : s.store.generation < s'.store.generation) (hl : s.lock ≤ s'.lock) :
    BatchOk s' ops b :=
  { h with
    generation := h.generation.trans hg.le
    taken := fun lock ht => ⟨(h.taken lock ht).1.trans hl, (h.taken lock ht).2⟩
    current := fun _ _ he => absurd (he ▸ h.generation) (not_le.2 hg) }

omit [DecidableEq Key] in
/-- Nothing stored and no snapshot pinned. -/
theorem snapshotsOk_reset {s : InMemoryStorage Enc Key Val} {store : VersionedStore Enc Key Val}
    {opening : Nat → Enc → Option (Key × Val)} (hs : s.store = store.reset)
    (hnone : ∀ id snap, s.snapshots.get? id = some snap →
      snap.closed = true ∧ snap.pinned = false) :
    SnapshotsOk s (fun _ => none) opening := by
  refine ⟨[], hs ▸ World.inv_reset ⟨store, fun _ => none, []⟩, fun token => ?_,
    fun id snap h => ?_⟩
  · refine (Nat.le_of_eq (List.countP_eq_zero.2 fun item hi => ?_)).trans (Nat.zero_le _)
    have := (hnone item.1 item.2 ((PyDict.mem_items _ _ _).1 hi)).2
    simp [this]
  · simp [hnone id snap h]

theorem inv_open (h : Inv w) : Inv (w.step codec .open) := by
  unfold step InMemoryStorage.perform InMemoryStorage.open record
  dsimp only
  split_ifs with hopened
  · exact h
  have hlt : w.storage.store.generation < w.storage.store.reset.generation := Nat.lt_succ_self _
  have hclosed : ∀ id t, w.storage.transactions.get? id = some t → t.closed = true := by
    intro id t ht
    by_contra hcl
    exact hopened ((h.txns id t ht).fresh (by simpa using hcl)).1
  obtain ⟨pins, -, -, hsnaps⟩ := h.reads
  refine ⟨snapshotsOk_reset rfl fun id snap hs => ?_, fun id t ht => ?_, fun id b hb => ?_,
    h.slot.mono (fun p hp => by cases p <;> exact hp) rfl, by simp [InMemoryStorage.ok, settle],
    by simp [InMemoryStorage.ok, settle], fun id t ht _ hg => ?_, fun id b hb _ hg => ?_⟩
  · obtain ⟨hop, hpinned⟩ := hsnaps id snap hs
    have hp : snap.pinned = false := by
      by_contra hp
      exact hopened (hpinned (by simpa using hp)).1
    exact ⟨by by_contra hcl; simp [hop (by simpa using hcl)] at hp, hp⟩
  · exact (h.txns id t ht).reset (hclosed id t ht) hlt le_rfl
  · exact (h.batches id b hb).reset hlt le_rfl
  · exact absurd (hg ▸ (h.txns id t ht).generation) (not_le.2 hlt)
  · exact absurd (hg ▸ (h.batches id b hb).generation) (not_le.2 hlt)

omit [DecidableEq Key] in
theorem TransactionOk.aborted {s : InMemoryStorage Enc Key Val} {c base : Enc → Option (Key × Val)}
    {ops : List (Write Enc Key Val)} {t : Transaction Enc Key Val}
    (h : TransactionOk s c base ops t) :
    TransactionOk s c base ops (InMemoryStorage.abortedTransaction t) ∧
      (InMemoryStorage.abortedTransaction t).closed = true := by
  unfold InMemoryStorage.abortedTransaction
  split_ifs with hcl
  · exact ⟨h, hcl⟩
  · exact ⟨{ h with
      ended := fun _ => rfl
      index := by simp [Transaction.IndexOk]
      pending := by simp
      current := by simp
      fresh := by simp }, rfl⟩

theorem inv_close (h : Inv w) : Inv (w.step codec .close) := by
  unfold step InMemoryStorage.perform InMemoryStorage.close record
  dsimp only
  split_ifs with hopened
  swap
  · exact h
  have hlt : w.storage.store.generation < w.storage.store.reset.generation := Nat.lt_succ_self _
  have htxns : ∀ id t, (w.storage.transactions.map InMemoryStorage.abortedTransaction).get? id =
      some t → TransactionOk w.storage w.committed (w.base id) (w.txnOps id) t ∧
        t.closed = true := by
    intro id t ht
    rw [PyDict.get?_map] at ht
    obtain ⟨t₀, ht₀, rfl⟩ := Option.map_eq_some_iff.1 ht
    exact (h.txns id t₀ ht₀).aborted
  have hbatches : ∀ id b, (w.storage.batches.map InMemoryStorage.abortedBatch).get? id = some b →
      BatchOk w.storage (w.batchOps id) b := by
    intro id b hb
    rw [PyDict.get?_map] at hb
    obtain ⟨b₀, hb₀, rfl⟩ := Option.map_eq_some_iff.1 hb
    exact (h.batches id b₀ hb₀).aborted
  -- every lock taken so far is older than the one that replaces the current one
  have hfree : ∀ p, ¬ Holds { w.storage with
      lock := w.storage.lock + 1
      transactions := w.storage.transactions.map InMemoryStorage.abortedTransaction
      batches := w.storage.batches.map InMemoryStorage.abortedBatch } p := by
    rintro (id | id)
    · rintro ⟨t, ht, -, -, hs⟩
      exact absurd (hs ▸ (htxns id t ht).1.slot) (Nat.not_succ_le_self _)
    · rintro ⟨b, hb, hs⟩
      exact absurd ((hbatches id b hb).taken _ hs).1 (Nat.not_succ_le_self _)
  refine ⟨snapshotsOk_reset rfl fun id snap hs => ?_, fun id t ht => ?_, fun id b hb => ?_,
    ⟨fun p hp => absurd hp (hfree p), fun p q hp _ => absurd hp (hfree p)⟩,
    by simp [InMemoryStorage.ok, settle],
    by simp [InMemoryStorage.ok, settle], fun id t ht _ hg => ?_, fun id b hb _ hg => ?_⟩
  · obtain ⟨snap₀, -, rfl⟩ := Option.map_eq_some_iff.1 ((PyDict.get?_map _ _ _).symm.trans hs)
    exact ⟨rfl, rfl⟩
  · exact (htxns id t ht).1.reset (htxns id t ht).2 hlt (Nat.le_succ _)
  · exact (hbatches id b hb).reset hlt (Nat.le_succ _)
  · exact absurd (hg ▸ (htxns id t ht).1.generation) (not_le.2 hlt)
  · exact absurd (hg ▸ (hbatches id b hb).generation) (not_le.2 hlt)

end Steps

/-! ## Runs -/

omit [DecidableEq Key] in
theorem inv_start (readOnly : Bool) : Inv (start readOnly : System Enc Key Val) where
  reads := ⟨[], World.inv_start, fun _ => le_rfl, by simp [start, InMemoryStorage.new]⟩
  txns := by simp [start, InMemoryStorage.new]
  batches := by simp [start, InMemoryStorage.new]
  slot := by
    have hfree : ∀ p, ¬ Holds (.new readOnly : InMemoryStorage Enc Key Val) p := by
      rintro (id | id) <;> simp [Holds, InMemoryStorage.new]
    exact ⟨fun p hp => absurd hp (hfree p), fun p q hp _ => absurd hp (hfree p)⟩
  units := by simp [start]
  once := by simp [start]
  txnsKept := by simp [start, InMemoryStorage.new]
  batchesKept := by simp [start, InMemoryStorage.new]

theorem inv_step (codec : Codec Enc Key Val Value) {w : System Enc Key Val} (h : Inv w)
    (st : InMemoryStorage.Step Enc Key Value) : Inv (w.step codec st) := by
  cases st with
  | «open» => exact inv_open h
  | close => exact inv_close h
  | beginTransaction id => exact inv_beginTransaction h id
  | stageTransaction id key value => exact inv_stageTransaction h id key value
  | pageTransaction id bound inclusive reverse n stop =>
    exact inv_pageTransaction h id bound inclusive reverse n stop
  | commitClaim id => exact inv_commitClaim h id
  | commitApply id faults => exact inv_commitApply h id faults
  | abortTransaction id => exact inv_abortTransaction h id
  | beginSnapshot id => exact inv_beginSnapshot h id
  | closeSnapshot id => exact inv_closeSnapshot h id
  | dropSnapshot id => exact inv_dropSnapshot h id
  | beginWriteBatch id => exact inv_beginWriteBatch h id
  | stageBatch id key value => exact inv_stageBatch h id key value
  | writeClaim id => exact inv_writeClaim h id
  | writeTake id => exact inv_writeTake h id
  | writeTimeout id => exact inv_writeTimeout h id
  | writeApply id faults => exact inv_writeApply h id faults
  | abortBatch id => exact inv_abortBatch h id

theorem inv_run (codec : Codec Enc Key Val Value) (readOnly : Bool)
    (steps : List (InMemoryStorage.Step Enc Key Value)) : Inv (run codec readOnly steps) := by
  unfold run
  have hstart := @inv_start Enc Key Val _ readOnly
  generalize start readOnly = w at hstart
  induction steps generalizing w with
  | nil => exact hstart
  | cons st rest ih => exact ih (w.step codec st) (inv_step codec hstart st)

omit [DecidableEq Key] in
theorem Inv.live {w : System Enc Key Val} (h : Inv w) :
    w.storage.store.live.get? = w.committed := by
  obtain ⟨pins, hinv, -⟩ := h.reads
  exact hinv.live

/-! ## What a context reads -/

/-- The lookups and the pages of a context show the map `m`: `get`, `exists`, every page of every
    scan, and every scan as a whole. -/
structure ReadsAs (codec : Codec Enc Key Val Value) (lookup : Enc → Option (Key × Val))
    (page : Option Enc → Bool → Bool → Nat → Option Enc →
      List (Enc × Key × Val) × Option Enc × Bool)
    (m : Enc → Option (Key × Val)) : Prop where
  gets : ∀ key, readGet codec false lookup key = readGet codec false m key
  existence : ∀ key, readExists codec false lookup key = readExists codec false m key
  pages : ∀ bound inclusive reverse n stop, 1 ≤ n →
    ∃ known, IsPage reverse (InRange reverse bound inclusive stop) m known
      (page bound inclusive reverse n stop)
  scans : ∃ size, ∀ bound inclusive reverse n stop fuel, 1 ≤ n → size < fuel →
    ∃ rows, readAll (fun b i => page b i reverse n stop) fuel bound inclusive = some rows ∧
      IsListing reverse (InRange reverse bound inclusive stop) m rows

omit [DecidableEq Key] in
theorem readsAs_of_page {codec : Codec Enc Key Val Value} {lookup m : Enc → Option (Key × Val)}
    {page : Option Enc → Bool → Bool → Nat → Option Enc →
      List (Enc × Key × Val) × Option Enc × Bool} (known : Finset Enc) (hlookup : lookup = m)
    (hpage : ∀ bound inclusive reverse n stop, 1 ≤ n →
      IsPage reverse (InRange reverse bound inclusive stop) m (· ∈ known)
        (page bound inclusive reverse n stop)) : ReadsAs codec lookup page m where
  gets := fun key => by rw [hlookup]
  existence := fun key => by rw [hlookup]
  pages := fun bound inclusive reverse n stop hn => ⟨_, hpage bound inclusive reverse n stop hn⟩
  scans := ⟨known.card, fun bound inclusive reverse n stop fuel hn hfuel =>
    readAll_isListing (fun b i => hpage b i reverse n stop hn) fuel bound inclusive
      ((Finset.card_filter_le _ _).trans_lt hfuel)⟩

omit [DecidableEq Key] in
/-- A transaction reads the committed map under its own writes. -/
theorem Inv.reads_of_transaction (codec : Codec Enc Key Val Value) {w : System Enc Key Val}
    (h : Inv w) {id : Nat} {t : Transaction Enc Key Val}
    (ht : w.storage.transactions.get? id = some t) (hcl : t.closed = false) :
    ReadsAs codec (t.lookup w.storage.store) (fun bound inclusive reverse n stop =>
      (t.page w.storage.store bound inclusive reverse n stop).2)
      (exec w.committed (w.txnOps id)) := by
  have hok := h.txns id t ht
  have hmap : overwrite w.storage.store.live.get? t.pending.items =
      exec w.committed (w.txnOps id) := by rw [h.live, hok.pending (hok.live hcl).2]
  obtain ⟨pins, hinv, -⟩ := h.reads
  obtain ⟨past, hv, -⟩ := hinv.versions
  refine readsAs_of_page (t.knownKeys w.storage.store) ((t.lookup_eq _).trans hmap)
    fun bound inclusive reverse n stop hn => ?_
  have := Transaction.page_isPage hok.index hv.live bound inclusive reverse hn stop
  rwa [hmap] at this

omit [DecidableEq Key] in
/-- A snapshot reads the committed map of its opening. -/
theorem Inv.reads_of_snapshot (codec : Codec Enc Key Val Value) {w : System Enc Key Val} (h : Inv w)
    {id : Nat} {snap : Snapshot} (hs : w.storage.snapshots.get? id = some snap)
    (hcl : snap.closed = false) :
    ReadsAs codec (snap.lookup w.storage.store) (snap.page w.storage.store) (w.opening id) := by
  obtain ⟨pins, hinv, hcount, hsnaps⟩ := h.reads
  obtain ⟨hop, hpinned⟩ := hsnaps id snap hs
  obtain ⟨p, hp, htoken, hmap⟩ := exists_pin hcount hs (hop hcl) (hpinned (hop hcl)).2
  refine readsAs_of_page w.storage.store.knownKeys ?_
    fun bound inclusive reverse n stop hn => ?_
  · funext enc
    rw [Snapshot.lookup, ← htoken, ← hmap]
    exact hinv.getAt hp enc
  · rw [Snapshot.page, ← htoken, ← hmap]
    exact hinv.pageAt hp bound inclusive reverse hn stop

/-- (PROVED) **Serializability.** After any run of steps of any transactions, batches and
    snapshots, `close` and `open` of the storage and faults inside commits included:

    * the live map is the serial execution of the committed units, in commit order;
    * each unit is there once, with all the writes it accepted, and only if it ended well; every
      unit that ended well since the data was last dropped is there;
    * an open transaction reads the committed map under its own writes, and that map is still the
      one it began over;
    * an open snapshot reads the committed map of its opening;
    * a step that raises leaves the live map as it was. -/
theorem serializable (codec : Codec Enc Key Val Value) (readOnly : Bool)
    (steps : List (InMemoryStorage.Step Enc Key Value)) :
    let w := run codec readOnly steps
    w.storage.store.live.get? = execUnits w.serial ∧
    ((w.serial.map Prod.fst).Nodup ∧ (∀ unit ∈ w.serial, Committed w unit) ∧
      (∀ id t, w.storage.transactions.get? id = some t → t.committed = true →
        t.generation = w.storage.store.generation → (.transaction id, w.txnOps id) ∈ w.serial) ∧
      ∀ id b, w.storage.batches.get? id = some b → b.written = true →
        b.generation = w.storage.store.generation → (.batch id, w.batchOps id) ∈ w.serial) ∧
    (∀ id t, w.storage.transactions.get? id = some t → t.closed = false →
      w.base id = execUnits w.serial ∧
      ReadsAs codec (t.lookup w.storage.store) (fun bound inclusive reverse n stop =>
        (t.page w.storage.store bound inclusive reverse n stop).2)
        (exec (execUnits w.serial) (w.txnOps id))) ∧
    (∀ id snap, w.storage.snapshots.get? id = some snap → snap.closed = false →
      ReadsAs codec (snap.lookup w.storage.store) (snap.page w.storage.store) (w.opening id)) ∧
    ∀ st e, (w.storage.perform codec st).2 = .error e →
      (w.step codec st).storage.store.live.get? = execUnits w.serial := by
  intro w
  have h : Inv w := inv_run codec readOnly steps
  refine ⟨h.live, ⟨h.once, h.units, fun id t ht hc hg => ?_, fun id b hb hw hg => ?_⟩,
    fun id t ht hcl => ⟨((h.txns id t ht).fresh hcl).2.2, h.reads_of_transaction codec ht hcl⟩,
    fun id snap hs hcl => h.reads_of_snapshot codec hs hcl, fun st e he => ?_⟩
  · obtain ⟨⟨party, ops⟩, hu, rfl⟩ := List.mem_map.1 (h.txnsKept id t ht hc hg)
    obtain ⟨-, -, -, -, rfl⟩ := h.units _ hu
    exact hu
  · obtain ⟨⟨party, ops⟩, hu, rfl⟩ := List.mem_map.1 (h.batchesKept id b hb hw hg)
    obtain ⟨-, -, -, -, rfl⟩ := h.units _ hu
    exact hu
  · have hlive := (inv_step codec h st).live
    rcases hp : w.storage.perform codec st with ⟨s, _ | _⟩
    · rw [hlive, committed, step, hp]
      rfl
    · simp [hp] at he

end System

end Virtuals.Mem
