/-
  Scans of the in-memory storage in any reachable state.

  Every row that gets into the storage stands under the encoding of its key (`Encoded`), so that the map
  of an open transaction or snapshot is one that a scan can be of. After any run of any parties' steps a
  scan of an open context then hands out what the walk over that map does.
-/
import Virtuals.Mem.Scan
import Virtuals.Scan.Binary

namespace Virtuals.Mem

open ScanOrder VersionedStore
open Scan (OrderedCodec StorageScanOptions Data ScanError IteratorType items)

variable {Seg E W V : Type} [LinearOrder Seg] [LinearOrder E] {c : OrderedCodec Seg E W V}

/-! ## Rows under the encoding of their keys -/

/-- The codec of the storage. -/
def storageCodec (c : OrderedCodec Seg E W V) (encodeValue : V → Option W) :
    Codec E (List Seg) W V := ⟨c.encodeKey, encodeValue, c.decodeValue⟩

/-- A write under the encoding of its key. -/
def WriteOk (c : OrderedCodec Seg E W V) : Write E (List Seg) W → Prop
  | .put enc key _ => c.encodeKey key = some enc
  | .delete _ => True

/-- Every row of a map under the encoding of its key. -/
def RowsOk (c : OrderedCodec Seg E W V) (m : E → Option (List Seg × W)) : Prop :=
  ∀ e k w, m e = some (k, w) → c.encodeKey k = some e

theorem rowsOk_exec {m : E → Option (List Seg × W)} (hm : RowsOk c m)
    {ops : List (Write E (List Seg) W)} (hops : ∀ op ∈ ops, WriteOk c op) :
    RowsOk c (exec m ops) := by
  induction ops generalizing m with
  | nil => exact hm
  | cons op ops ih =>
    have hop := hops op List.mem_cons_self
    refine ih ?_ fun op' h => hops op' (List.mem_cons_of_mem op h)
    intro e k w h
    cases op with
    | put enc key value =>
      rw [Write.exec, Function.update_apply] at h
      split_ifs at h with heq
      · cases h
        rw [heq]
        exact hop
      · exact hm e k w h
    | delete enc =>
      rw [Write.exec, Function.update_apply] at h
      split_ifs at h
      exact hm e k w h

theorem rowsOk_execUnits {serial : List (Party × List (Write E (List Seg) W))}
    (h : ∀ unit ∈ serial, ∀ op ∈ unit.2, WriteOk c op) : RowsOk c (execUnits serial) := by
  suffices hfold : ∀ m, RowsOk c m → RowsOk c (serial.foldl (fun m unit => exec m unit.2) m) from
    hfold _ (fun e k w hnone => by cases hnone)
  induction serial with
  | nil => exact fun m hm => hm
  | cons unit serial ih =>
    intro m hm
    exact ih (fun u hu => h u (List.mem_cons_of_mem unit hu)) _
      (rowsOk_exec hm (h unit List.mem_cons_self))

theorem writeOk_writeOf (encodeValue : V → Option W) (key : List Seg) (value : Option (Option V)) :
    ∀ op ∈ (writeOf (storageCodec c encodeValue) key value).toList, WriteOk c op := by
  intro op hop
  rw [Option.mem_toList] at hop
  cases value with
  | none =>
    obtain ⟨enc, -, rfl⟩ := Option.map_eq_some_iff.1 hop
    trivial
  | some value =>
    cases value with
    | none => cases hop
    | some v =>
      rw [writeOf] at hop
      cases hk : (storageCodec c encodeValue).encodeKey key with
      | none =>
        rw [hk] at hop
        cases hop
      | some enc =>
        cases hv : (storageCodec c encodeValue).encodeValue v with
        | none =>
          rw [hk, hv] at hop
          cases hop
        | some encoded =>
          rw [hk, hv] at hop
          cases hop
          exact hk

/-- Every write of a history under the encoding of its key. -/
structure Encoded (c : OrderedCodec Seg E W V) (w : System E (List Seg) W) : Prop where
  units : ∀ unit ∈ w.serial, ∀ op ∈ unit.2, WriteOk c op
  txns : ∀ id, ∀ op ∈ w.txnOps id, WriteOk c op
  batches : ∀ id, ∀ op ∈ w.batchOps id, WriteOk c op
  openings : ∀ id, RowsOk c (w.opening id)

theorem Encoded.withStorage {w : System E (List Seg) W} (h : Encoded c w)
    (storage : InMemoryStorage E (List Seg) W) : Encoded c { w with storage := storage } :=
  ⟨h.units, h.txns, h.batches, h.openings⟩

/-- A unit joins the history with writes that are well encoded. -/
theorem units_append {serial : List (Party × List (Write E (List Seg) W))}
    (h : ∀ unit ∈ serial, ∀ op ∈ unit.2, WriteOk c op) (party : Party)
    {ops : List (Write E (List Seg) W)} (hops : ∀ op ∈ ops, WriteOk c op) :
    ∀ unit ∈ serial ++ [(party, ops)], ∀ op ∈ unit.2, WriteOk c op := by
  intro unit hunit
  obtain hunit | hunit := List.mem_append.1 hunit
  · exact h unit hunit
  · rw [List.mem_singleton.1 hunit]
    exact hops

/-- What a party has written, after one of its writes is begun, accepted or refused. -/
theorem writes_update {f : Nat → List (Write E (List Seg) W)} (h : ∀ id, ∀ op ∈ f id, WriteOk c op)
    (id : Nat) {ops : List (Write E (List Seg) W)} (hops : ∀ op ∈ ops, WriteOk c op) :
    ∀ id', ∀ op ∈ Function.update f id ops id', WriteOk c op := by
  intro id' op hop
  rw [Function.update_apply] at hop
  split_ifs at hop
  · exact hops op hop
  · exact h id' op hop

theorem writes_append {ops later : List (Write E (List Seg) W)} (h : ∀ op ∈ ops, WriteOk c op)
    (hlater : ∀ op ∈ later, WriteOk c op) : ∀ op ∈ ops ++ later, WriteOk c op := by
  intro op hop
  obtain hop | hop := List.mem_append.1 hop
  · exact h op hop
  · exact hlater op hop

theorem encoded_record {w : System E (List Seg) W} (h : Encoded c w) (encodeValue : V → Option W)
    (st : InMemoryStorage.Step E (List Seg) V) :
    Encoded c (w.record (storageCodec c encodeValue) st) := by
  have hnone : ∀ op ∈ ([] : List (Write E (List Seg) W)), WriteOk c op := fun op hop => by cases hop
  have hempty : ∀ unit ∈ ([] : List (Party × List (Write E (List Seg) W))),
      ∀ op ∈ unit.2, WriteOk c op := fun unit hunit => by cases hunit
  cases st with
  | «open» =>
    rw [System.record]
    split_ifs
    · exact h
    · exact ⟨hempty, h.txns, h.batches, h.openings⟩
  | close =>
    rw [System.record]
    split_ifs
    · exact ⟨hempty, h.txns, h.batches, h.openings⟩
    · exact h
  | beginTransaction id => exact ⟨h.units, writes_update h.txns id hnone, h.batches, h.openings⟩
  | stageTransaction id key value =>
    exact ⟨h.units, writes_update h.txns id
      (writes_append (h.txns id) (writeOk_writeOf encodeValue key value)), h.batches, h.openings⟩
  | commitApply id faults =>
    exact ⟨units_append h.units (.transaction id) (h.txns id), h.txns, h.batches, h.openings⟩
  | beginSnapshot id =>
    refine ⟨h.units, h.txns, h.batches, fun id' e k v hv => ?_⟩
    rw [System.record] at hv
    dsimp only at hv
    rw [Function.update_apply] at hv
    split_ifs at hv
    · exact rowsOk_execUnits h.units e k v hv
    · exact h.openings id' e k v hv
  | beginWriteBatch id => exact ⟨h.units, h.txns, writes_update h.batches id hnone, h.openings⟩
  | stageBatch id key value =>
    exact ⟨h.units, h.txns, writes_update h.batches id
      (writes_append (h.batches id) (writeOk_writeOf encodeValue key value)), h.openings⟩
  | writeApply id faults =>
    exact ⟨units_append h.units (.batch id) (h.batches id), h.txns, h.batches, h.openings⟩
  | pageTransaction id bound inclusive reverse n stop => exact h
  | commitClaim id => exact h
  | abortTransaction id => exact h
  | closeSnapshot id => exact h
  | dropSnapshot id => exact h
  | writeClaim id => exact h
  | writeTake id => exact h
  | writeTimeout id => exact h
  | abortBatch id => exact h

theorem encoded_step {w : System E (List Seg) W} (h : Encoded c w) (encodeValue : V → Option W)
    (st : InMemoryStorage.Step E (List Seg) V) :
    Encoded c (w.step (storageCodec c encodeValue) st) := by
  rw [System.step]
  cases hr : w.storage.perform (storageCodec c encodeValue) st with
  | mk storage reply =>
    cases reply with
    | ok a => exact (encoded_record h encodeValue st).withStorage storage
    | error e => exact h.withStorage storage

theorem encoded_run (encodeValue : V → Option W) (readOnly : Bool)
    (steps : List (InMemoryStorage.Step E (List Seg) V)) :
    Encoded c (System.run (storageCodec c encodeValue) readOnly steps) := by
  have hstart : Encoded c (System.start readOnly : System E (List Seg) W) := by
    refine ⟨fun unit hunit => ?_, fun id op hop => ?_, fun id op hop => ?_, fun id e k w h => ?_⟩
    · cases hunit
    · cases hop
    · cases hop
    · cases h
  rw [System.run]
  generalize System.start readOnly = w at hstart
  induction steps generalizing w with
  | nil => exact hstart
  | cons st steps ih =>
    exact ih (w.step (storageCodec c encodeValue) st) (encoded_step hstart encodeValue st)

/-! ## Scans -/

/-- The rows of a map whose pages can be read. -/
theorem exists_data {m : E → Option (List Seg × W)} (hm : RowsOk c m) {known : Finset E}
    {pageOf : PageOf Seg E W} (hpages : PagesOf m known pageOf) : ∃ data : Data c, ∀ e k w,
      m e = some (k, w) ↔ ∃ a ∈ data.rows, (a.1.encoded, a.1.key, a.2) = (e, k, w) := by
  have hpage := fun bound inclusive => hpages bound inclusive false 1 none (Nat.le_refl 1)
  obtain ⟨rows, -, hrows⟩ := readAll_isListing hpage _ none true (Nat.lt_succ_self _)
  have hmem : ∀ e v, (e, v) ∈ rows ↔ m e = some v := by
    intro e v
    rw [hrows.mem, and_iff_left]
    exact ⟨trivial, trivial⟩
  have hall : ∀ r ∈ rows, c.encodeKey r.2.1 = some r.1 := by
    intro r hr
    exact hm r.1 r.2.1 r.2.2 ((hmem r.1 r.2).1 hr)
  refine ⟨⟨rows.pmap (fun r h => (⟨r.2.1, r.1, h⟩, r.2.2)) hall, ?_⟩, ?_⟩
  · refine hrows.ascending.pmap hall ?_
    intro a ha b hb hab
    exact (c.encode_lt ha hb).2 hab
  · intro e k w
    rw [← hmem]
    constructor
    · intro hr
      exact ⟨_, List.mem_pmap.2 ⟨(e, k, w), hr, rfl⟩, rfl⟩
    · intro hr
      obtain ⟨a, ha, heq⟩ := hr
      obtain ⟨r, hr, rfl⟩ := List.mem_pmap.1 ha
      rw [← heq]
      exact hr

/-- The scans of a context hand out what the walk over the rows of a map does. -/
def ScansAs (c : OrderedCodec Seg E W V) (pageOf : PageOf Seg E W)
    (m : E → Option (List Seg × W)) : Prop :=
  ∃ data : Data c,
    (∀ e k w, m e = some (k, w) ↔ ∃ a ∈ data.rows, (a.1.encoded, a.1.key, a.2) = (e, k, w)) ∧
    ∃ size, ∀ (o : StorageScanOptions c) (t : IteratorType) (fuel : Nat), size < fuel →
      iterateImpl o t pageOf fuel = some
        (if o.limit.any (fun limit => decide (limit ≤ 0)) = true then ([], none)
        else items o t data)

theorem scansAs {m : E → Option (List Seg × W)} (hm : RowsOk c m) {known : Finset E}
    {pageOf : PageOf Seg E W} (hpages : PagesOf m known pageOf) : ScansAs c pageOf m := by
  obtain ⟨data, hdata⟩ := exists_data hm hpages
  exact ⟨data, hdata, known.card + data.rows.length, iterateImpl_kept hpages data hdata⟩

omit [LinearOrder Seg] in
theorem pages_of_transaction {w : System E (List Seg) W} (h : w.Inv) {id : Nat}
    {t : Transaction E (List Seg) W} (ht : w.storage.transactions.get? id = some t)
    (hopen : t.closed = false) :
    PagesOf (exec w.committed (w.txnOps id)) (t.knownKeys w.storage.store)
      fun bound inclusive reverse n stop =>
        (t.page w.storage.store bound inclusive reverse n stop).2 := by
  have hok := h.txns id t ht
  have hmap : overwrite w.storage.store.live.get? t.pending.items =
      exec w.committed (w.txnOps id) := by
    rw [h.live, hok.pending (hok.live hopen).2]
  obtain ⟨pins, hinv, -⟩ := h.reads
  obtain ⟨past, hv, -⟩ := hinv.versions
  intro bound inclusive reverse n stop hn
  have hpage := Transaction.page_isPage hok.index hv.live bound inclusive reverse hn stop
  rwa [hmap] at hpage

omit [LinearOrder Seg] in
theorem pages_of_snapshot {w : System E (List Seg) W} (h : w.Inv) {id : Nat} {snap : Snapshot}
    (hs : w.storage.snapshots.get? id = some snap) (hopen : snap.closed = false) :
    PagesOf (w.opening id) w.storage.store.knownKeys (snap.page w.storage.store) := by
  obtain ⟨pins, hinv, hcount, hsnaps⟩ := h.reads
  obtain ⟨hop, hpinned⟩ := hsnaps id snap hs
  obtain ⟨p, hp, htoken, hmap⟩ := System.exists_pin hcount hs (hop hopen) (hpinned (hop hopen)).2
  intro bound inclusive reverse n stop hn
  rw [Snapshot.page, ← htoken, ← hmap]
  exact hinv.pageAt hp bound inclusive reverse hn stop

/-- **Scans after any run** (PROVED): a scan of an open transaction hands out, in key order, the rows of
the committed map under the transaction's own writes; a scan of an open snapshot those of the map it was
opened over; each as its options say, and each ends. -/
theorem scans_of_run (c : OrderedCodec Seg E W V) (encodeValue : V → Option W) (readOnly : Bool)
    (steps : List (InMemoryStorage.Step E (List Seg) V)) :
    let w := System.run (storageCodec c encodeValue) readOnly steps
    (∀ id t, w.storage.transactions.get? id = some t → t.closed = false →
      ScansAs c (fun bound inclusive reverse n stop =>
          (t.page w.storage.store bound inclusive reverse n stop).2)
        (exec (execUnits w.serial) (w.txnOps id))) ∧
    ∀ id snap, w.storage.snapshots.get? id = some snap → snap.closed = false →
      ScansAs c (snap.page w.storage.store) (w.opening id) := by
  intro w
  have h : w.Inv := System.inv_run (storageCodec c encodeValue) readOnly steps
  have hencoded : Encoded c w := encoded_run encodeValue readOnly steps
  refine ⟨fun id t ht hopen => ?_, fun id snap hs hopen => ?_⟩
  · exact scansAs (rowsOk_exec (rowsOk_execUnits hencoded.units) (hencoded.txns id))
      (pages_of_transaction h ht hopen)
  · exact scansAs (hencoded.openings id) (pages_of_snapshot h hs hopen)

/-- A storage that can be written to, after some steps. -/
abbrev after (c : OrderedCodec Seg E W V) (encodeValue : V → Option W)
    (steps : List (InMemoryStorage.Step E (List Seg) V)) : System E (List Seg) W :=
  System.run (storageCodec c encodeValue) false steps

section SiteRows

open Scan (Encoding binaryCodec below siteRows siteScan)
open KeyCodec (KeySegment)

/-- The calls of a transaction that puts rows and deletes others, up to its commit. -/
def stage (id : Nat) (puts : List (List KeySegment × Nat)) (deletes : List (List KeySegment)) :
    List (InMemoryStorage.Step Encoding (List KeySegment) Nat) :=
  puts.map (fun a => .stageTransaction id a.1 (some (some a.2))) ++
    deletes.map fun key => .stageTransaction id key none

/-- The rows of the site committed, a snapshot of them, and a transaction that has put a child, put one
anew and deleted one with children of its own. -/
def siteSteps : List (InMemoryStorage.Step Encoding (List KeySegment) Nat) :=
  [.open, .beginTransaction 0] ++ stage 0 (siteRows.rows.map fun a => (a.1.key, a.2)) [] ++
    [.commitClaim 0, .commitApply 0 fun _ _ => false, .beginSnapshot 0, .beginTransaction 1] ++
    stage 1 [([.int 1, .int 6], 16), ([.int 1, .int 7], 77)] [[.int 1, .int 5]]

/-- The storage after them. -/
def siteSystem : System Encoding (List KeySegment) Nat :=
  after (binaryCodec some) some siteSteps

/-- What the transaction sees: the committed rows under its own writes. -/
def siteView : Encoding → Option (List KeySegment × Nat) :=
  exec (execUnits siteSystem.serial) (siteSystem.txnOps 1)

/-- The transaction's scans are of the committed rows under its own writes, the snapshot's of the rows of
its beginning. -/
theorem scans_of_run_siteSteps : ∃ t snap,
    siteSystem.storage.transactions.get? 1 = some t ∧ siteSystem.storage.snapshots.get? 0 = some snap ∧
    ScansAs (binaryCodec (some : Nat → Option Nat))
      (fun bound inclusive reverse n stop =>
        (Transaction.page t siteSystem.storage.store bound inclusive reverse n stop).2) siteView ∧
    siteView (below [.int 5] (by decide)).encoded = none ∧
    siteView (below [.int 5, .int 2] (by decide)).encoded = some ([.int 1, .int 5, .int 2], 52) ∧
    siteView (below [.int 6] (by decide)).encoded = some ([.int 1, .int 6], 16) ∧
    siteView (below [.int 7] (by decide)).encoded = some ([.int 1, .int 7], 77) ∧
    ScansAs (binaryCodec (some : Nat → Option Nat)) (Snapshot.page snap siteSystem.storage.store)
      (siteSystem.opening 0) ∧
    iterateImpl siteScan .items (Snapshot.page snap siteSystem.storage.store) 36 =
      some ([.pair [.int 1, .int 8] 18, .pair [.int 1, .int 7] 17, .pair [.int 1, .int 5] 15,
        .pair [.int 1, .int 3] 13], none) := by
  have htxn : (siteSystem.storage.transactions.get? 1).map (fun t => t.closed) = some false := by
    decide +kernel
  have hsnap : (siteSystem.storage.snapshots.get? 0).map (fun snap => (snap.closed,
      iterateImpl siteScan .items (Snapshot.page snap siteSystem.storage.store) 36)) =
      some (false, some ([.pair [.int 1, .int 8] 18, .pair [.int 1, .int 7] 17,
        .pair [.int 1, .int 5] 15, .pair [.int 1, .int 3] 13], none)) := by decide +kernel
  obtain ⟨t, ht, hopen⟩ := Option.map_eq_some_iff.1 htxn
  obtain ⟨snap, hs, hread⟩ := Option.map_eq_some_iff.1 hsnap
  have h := scans_of_run (binaryCodec some) (some : Nat → Option Nat) false siteSteps
  change (∀ id t, siteSystem.storage.transactions.get? id = some t → _) ∧
    ∀ id snap, siteSystem.storage.snapshots.get? id = some snap → _ at h
  refine ⟨t, snap, ht, hs, h.1 1 t ht hopen, ?_, ?_, ?_, ?_, h.2 0 snap hs (congrArg Prod.fst hread),
    congrArg Prod.snd hread⟩
  · decide +kernel
  · decide +kernel
  · decide +kernel
  · decide +kernel

end SiteRows

end Virtuals.Mem
