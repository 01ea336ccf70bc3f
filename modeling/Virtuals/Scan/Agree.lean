/-
  The scans of the four backends agree.

  Over the binary codec, the pages of SQLite and of the in-memory storage, the batches of RocksDB and the
  cursor of LMDB hand out the items of one walk over the keys, whatever the sizes of the pages. Of the
  native cursors only the order of bytes is used, and no write happens during a scan.
-/
import Virtuals.Lmdb.Scan
import Virtuals.Mem.ScanRuns
import Virtuals.Rocksdb.Scan
import Virtuals.Sqlite.Scan

namespace Virtuals.Scan

open ScanOrder
open KeyCodec (KeySegment)

variable {Seg E W V : Type} [LinearOrder Seg] [LinearOrder E] {c : OrderedCodec Seg E W V}

/-- A scan that ends with a result once it has fuel enough. -/
def Gives {A : Type} (scan : Nat → Option A) (result : A) : Prop :=
  ∃ size, ∀ fuel, size < fuel → scan fuel = some result

/-! ## The rows that a backend shows -/

/-- A map of encoded keys that has the rows, and no others. -/
def Shows (m : E → Option W) (data : Data c) : Prop :=
  ∀ e w, (e, w) ∈ stored data.rows ↔ m e = some w

/-- A map of the in-memory storage, with the keys beside their encodings. -/
def Keeps (m : E → Option (List Seg × W)) (data : Data c) : Prop :=
  ∀ e k w, m e = some (k, w) ↔ ∃ a ∈ data.rows, (a.1.encoded, a.1.key, a.2) = (e, k, w)

/-- A transaction of LMDB that reads a map, or begins to at its first call. -/
def Active {cu : Lmdb.Cursors E W} (s : Lmdb.LMDBStorage E Seg W cu.Pos) (m : E → Option W) : Prop :=
  ∃ s', s.requireActive = (s', .ok m)

/-- After some steps, the pages of an open context of the in-memory storage, and the map it reads. -/
inductive OpenContext (c : OrderedCodec Seg E W V) (encodeValue : V → Option W) (readOnly : Bool)
    (steps : List (Mem.InMemoryStorage.Step E (List Seg) V)) :
    Mem.PageOf Seg E W → (E → Option (List Seg × W)) → Prop
  | transaction {w : Mem.System E (List Seg) W} {id : Nat} {t : Mem.Transaction E (List Seg) W}
      (hrun : Mem.System.run (Mem.storageCodec c encodeValue) readOnly steps = w)
      (ht : w.storage.transactions.get? id = some t) (hopen : t.closed = false) :
      OpenContext c encodeValue readOnly steps
        (fun bound inclusive reverse n stop =>
          (t.page w.storage.store bound inclusive reverse n stop).2)
        (Mem.exec (Mem.execUnits w.serial) (w.txnOps id))
  | snapshot {w : Mem.System E (List Seg) W} {id : Nat} {snap : Mem.Snapshot}
      (hrun : Mem.System.run (Mem.storageCodec c encodeValue) readOnly steps = w)
      (hs : w.storage.snapshots.get? id = some snap) (hopen : snap.closed = false) :
      OpenContext c encodeValue readOnly steps (snap.page w.storage.store) (w.opening id)

/-- Their pages keep the promise of pages. -/
theorem OpenContext.pages {encodeValue : V → Option W} {readOnly : Bool}
    {steps : List (Mem.InMemoryStorage.Step E (List Seg) V)} {pageOf : Mem.PageOf Seg E W}
    {m : E → Option (List Seg × W)} (h : OpenContext c encodeValue readOnly steps pageOf m) :
    ∃ known, Mem.PagesOf m known pageOf := by
  have hinv := Mem.System.inv_run (Mem.storageCodec c encodeValue) readOnly steps
  cases h with
  | transaction hrun ht hopen =>
    rw [hrun] at hinv
    exact ⟨_, Mem.pages_of_transaction hinv ht hopen⟩
  | snapshot hrun hs hopen =>
    rw [hrun] at hinv
    exact ⟨_, Mem.pages_of_snapshot hinv hs hopen⟩

/-- A scan of LMDB, opened and drained. -/
def lmdbScan (encodeValue : V → Option W) {cu : Lmdb.Cursors E W}
    (s : Lmdb.LMDBStorage E Seg W cu.Pos) (o : StorageScanOptions c) (t : IteratorType)
    (id fuel : Nat) : Option (Items (Item Seg V) Lmdb.StorageError) :=
  Lmdb.drain (Lmdb.storageCodec c encodeValue) t id fuel
    (s.scan id (Lmdb.scanOptions o) (Lmdb.needValues t) : _ × Lmdb.Reply Seg V).1

/-! ## The start and the limit -/

variable {o : StorageScanOptions c}

/-- A start that is not empty is not read as none. -/
theorem truthy_eq (hstart : o.start ≠ some []) (hencoded : o.startEncoded ≠ some c.empty) :
    Rocksdb.RocksDBScan.truthy o = o := by
  rw [Rocksdb.RocksDBScan.truthy]
  cases he : o.startEncoded with
  | none => exact if_neg hstart
  | some e =>
    refine if_neg ?_
    intro h
    rw [he, h] at hencoded
    exact hencoded rfl

/-- A limit of none or fewer items hands out nothing. -/
theorem items_of_limit (hlimit : o.limit.any (fun limit => decide (limit ≤ 0)) = true)
    (t : IteratorType) (data : Data c) : (items o t data).1 = [] := by
  have hleft : o.left = some 0 := by
    rw [← o.leftAfter_zero]
    exact (o.reached_iff 0).1 hlimit
  rw [items]
  cases o.startBound with
  | error e => rfl
  | ok bound =>
    dsimp only
    cases (facing o.reverse data.rows).filter fun a => o.reaches a.1 with
    | nil => rfl
    | cons row rows =>
      rw [walkKeys, if_neg (fun h => by cases h.2), if_pos hleft]

/-- What the in-memory storage yields: it looks at the limit before the start. -/
theorem memItems_eq (t : IteratorType) (data : Data c) :
    (if o.limit.any (fun limit => decide (limit ≤ 0)) = true then ([], none) else items o t data) =
      ((items o t data).1,
        if o.limit.any (fun limit => decide (limit ≤ 0)) = true then none
        else (items o t data).2) := by
  by_cases hlimit : o.limit.any (fun limit => decide (limit ≤ 0)) = true
  · rw [if_pos hlimit, if_pos hlimit, items_of_limit hlimit]
  · rw [if_neg hlimit, if_neg hlimit]

/-! ## Each backend -/

/-- The pages of SQLite, -/
theorem sqlite_gives (sizes : PageSizes) (o : StorageScanOptions c) (t : IteratorType)
    (data : Data c) : Gives (Sqlite.iterate sizes o t data) (items o t data) :=
  ⟨data.rows.length, fun fuel => Sqlite.iterate_items sizes o t data fuel⟩

/-- the batches of RocksDB, -/
theorem rocksdb_gives (sizes : PageSizes) {it : Rocksdb.Iterators E W} {m : E → Option W}
    {ahead : Bool → it.Pos → List (E × W)} (hit : Rocksdb.IteratorLaws it c.empty m ahead)
    {data : Data c} (hshows : Shows m data) (hstart : o.start ≠ some [])
    (hencoded : o.startEncoded ≠ some c.empty) (t : IteratorType) :
    Gives (Rocksdb.RocksDBScan.scanBy sizes it m o t) (items o t data) := by
  refine ⟨data.rows.length, fun fuel hfuel => ?_⟩
  rw [Rocksdb.RocksDBScan.scanBy_items sizes hit data hshows o t fuel hfuel,
    truthy_eq hstart hencoded]

/-- the cursor of LMDB -/
theorem lmdb_gives (encodeValue : V → Option W) {cu : Lmdb.Cursors E W} {m : E → Option W}
    (hcu : Lmdb.CursorLaws cu m) {data : Data c} (hshows : Shows m data)
    {s : Lmdb.LMDBStorage E Seg W cu.Pos} (hactive : Active s m) (o : StorageScanOptions c)
    (t : IteratorType) (id : Nat) :
    Gives (lmdbScan encodeValue s o t id) (Lmdb.raising (items o t data)) := by
  obtain ⟨s', hactive⟩ := hactive
  obtain ⟨hclosed, hlive⟩ := Lmdb.requireActive_live hactive
  have hcreated := Lmdb.scanning_setScan o t id hclosed hlive .created
  refine ⟨3 * data.rows.length + 2, fun fuel hfuel => ?_⟩
  rw [lmdbScan, Lmdb.LMDBStorage.scan, hactive]
  exact Lmdb.drain_created encodeValue hcu data hshows hcreated fuel hfuel

/-- and the pages of the in-memory storage. -/
theorem mem_gives (sizes : PageSizes) {encodeValue : V → Option W} {readOnly : Bool}
    {steps : List (Mem.InMemoryStorage.Step E (List Seg) V)} {pageOf : Mem.PageOf Seg E W}
    {m : E → Option (List Seg × W)} (hopen : OpenContext c encodeValue readOnly steps pageOf m)
    {data : Data c} (hkeeps : Keeps m data) (o : StorageScanOptions c) (t : IteratorType) :
    Gives (Mem.iterate sizes o t pageOf) ((items o t data).1,
      if o.limit.any (fun limit => decide (limit ≤ 0)) = true then none
      else (items o t data).2) := by
  obtain ⟨known, hpages⟩ := hopen.pages
  refine ⟨known.card + data.rows.length, fun fuel hfuel => ?_⟩
  rw [Mem.iterate_kept sizes hpages data hkeeps o t fuel hfuel, memItems_eq]

/-! ## Agreement -/

section Agree

variable {decodeValue : W → Option V}

/-- **Scan agreement** (PROVED): whatever the keys, the options with a start that is not empty, and the
sizes of the pages, each backend hands out the items of the walk in key order, and ends. A start that
cannot be encoded and a value that cannot be decoded are raised where the walk raises them; only the
in-memory storage raises nothing under a limit of none or fewer items. -/
theorem scans_agree (data : Data (binaryCodec decodeValue))
    (o : StorageScanOptions (binaryCodec decodeValue)) (t : IteratorType)
    (hstart : o.start ≠ some []) (hencoded : o.startEncoded ≠ some ⟨[]⟩) (sizes : PageSizes) :
    Gives (Sqlite.iterate sizes o t data) (items o t data) ∧
    (∀ (it : Rocksdb.Iterators Encoding W) (m : Encoding → Option W)
      (ahead : Bool → it.Pos → List (Encoding × W)),
      Rocksdb.IteratorLaws it ⟨[]⟩ m ahead → Shows m data →
      Gives (Rocksdb.RocksDBScan.scanBy sizes it m o t) (items o t data)) ∧
    (∀ (encodeValue : V → Option W) (cu : Lmdb.Cursors Encoding W) (m : Encoding → Option W)
      (s : Lmdb.LMDBStorage Encoding KeySegment W cu.Pos) (id : Nat),
      Lmdb.CursorLaws cu m → Shows m data → Active s m →
      Gives (lmdbScan encodeValue s o t id) (Lmdb.raising (items o t data))) ∧
    ∀ (encodeValue : V → Option W) (readOnly : Bool)
      (steps : List (Mem.InMemoryStorage.Step Encoding (List KeySegment) V))
      (pageOf : Mem.PageOf KeySegment Encoding W) (m : Encoding → Option (List KeySegment × W)),
      OpenContext (binaryCodec decodeValue) encodeValue readOnly steps pageOf m → Keeps m data →
      Gives (Mem.iterate sizes o t pageOf) ((items o t data).1,
        if o.limit.any (fun limit => decide (limit ≤ 0)) = true then none
        else (items o t data).2) := by
  refine ⟨sqlite_gives sizes o t data, ?_, ?_, ?_⟩
  · intro it m ahead hit hshows
    exact rocksdb_gives sizes hit hshows hstart hencoded t
  · intro encodeValue cu m s id hcu hshows hactive
    exact lmdb_gives encodeValue hcu hshows hactive o t id
  · intro encodeValue readOnly steps pageOf m hopen hkeeps
    exact mem_gives sizes hopen hkeeps o t

end Agree

/-! ## The site, in pages of one or two rows -/

/-- Small pages. -/
def smallPages : PageSizes := ⟨1, 2, 1, Nat.one_pos, Nat.two_pos, Nat.one_pos⟩

/-- What the scan of the site hands out. -/
def siteItems : List (Item KeySegment Nat) :=
  [.pair [.int 1, .int 8] 18, .pair [.int 1, .int 7] 17, .pair [.int 1, .int 5] 15,
    .pair [.int 1, .int 3] 13]

/-- The puts of rows. -/
def puts (rows : List (c.Key × W)) : List (Mem.Write E (List Seg) W) :=
  rows.map fun a => .put a.1.encoded a.1.key a.2

/-- The map after puts of rows with distinct keys. -/
theorem exec_puts {rows : List (c.Key × W)}
    (hsorted : rows.Pairwise fun a b => a.1.encoded < b.1.encoded)
    (m : E → Option (List Seg × W)) (e : E) (k : List Seg) (w : W) :
    Mem.exec m (puts rows) e = some (k, w) ↔
      (∃ a ∈ rows, (a.1.encoded, a.1.key, a.2) = (e, k, w)) ∨
        m e = some (k, w) ∧ ∀ a ∈ rows, a.1.encoded ≠ e := by
  induction rows generalizing m with
  | nil => simp [puts, Mem.exec]
  | cons row rows ih =>
    obtain ⟨hlater, hrest⟩ := List.pairwise_cons.1 hsorted
    have hcons : Mem.exec m (puts (row :: rows)) =
        Mem.exec (Function.update m row.1.encoded (some (row.1.key, row.2))) (puts rows) := rfl
    rw [hcons, ih hrest, Function.update_apply]
    by_cases he : e = row.1.encoded
    · have hne : ∀ a ∈ rows, a.1.encoded ≠ e := by
        intro a ha
        rw [he]
        exact (hlater a ha).ne'
      rw [if_pos he]
      constructor
      · rintro (⟨a, ha, heq⟩ | ⟨heq, -⟩)
        · exact Or.inl ⟨a, List.mem_cons_of_mem row ha, heq⟩
        · refine Or.inl ⟨row, List.mem_cons_self, ?_⟩
          rw [← he, Option.some.inj heq]
      · rintro (⟨a, ha, heq⟩ | ⟨-, hnot⟩)
        · obtain rfl | ha := List.mem_cons.1 ha
          · exact Or.inr ⟨congrArg some (congrArg Prod.snd heq), hne⟩
          · exact Or.inl ⟨a, ha, heq⟩
        · exact absurd he.symm (hnot row List.mem_cons_self)
    · rw [if_neg he]
      constructor
      · rintro (⟨a, ha, heq⟩ | ⟨heq, hnot⟩)
        · exact Or.inl ⟨a, List.mem_cons_of_mem row ha, heq⟩
        · exact Or.inr ⟨heq, List.forall_mem_cons.2 ⟨fun h => he h.symm, hnot⟩⟩
      · rintro (⟨a, ha, heq⟩ | ⟨heq, hnot⟩)
        · obtain rfl | ha := List.mem_cons.1 ha
          · exact absurd (congrArg Prod.fst heq).symm he
          · exact Or.inl ⟨a, ha, heq⟩
        · exact Or.inr ⟨heq, (List.forall_mem_cons.1 hnot).2⟩

/-- Puts of all rows, in two goes, keep them. -/
theorem keeps_puts (data : Data c) (n : Nat) : Keeps
    (Mem.exec (Mem.exec (fun _ => none) (puts (data.rows.take n))) (puts (data.rows.drop n))) data := by
  intro e k w
  have hall : Mem.exec (Mem.exec (fun _ => none) (puts (data.rows.take n)))
      (puts (data.rows.drop n)) = Mem.exec (fun _ => none) (puts data.rows) := by
    rw [Mem.exec, Mem.exec, ← List.foldl_append, puts, puts, ← List.map_append,
      List.take_append_drop]
    rfl
  rw [hall, exec_puts (data.sorted.imp fun h => OrderedCodec.Key.encoded_lt.1 h)]
  exact or_iff_left fun h => by cases h.1

/-- The rows of the site in part committed, in part put by an open transaction. -/
def sitePutSteps : List (Mem.InMemoryStorage.Step Encoding (List KeySegment) Nat) :=
  [.open, .beginTransaction 0] ++
    Mem.stage 0 ((siteRows.rows.take 6).map fun a => (a.1.key, a.2)) [] ++
    [.commitClaim 0, .commitApply 0 fun _ _ => false, .beginTransaction 1] ++
    Mem.stage 1 ((siteRows.rows.drop 6).map fun a => (a.1.key, a.2)) []

/-- The storage after them. -/
def sitePut : Mem.System Encoding (List KeySegment) Nat :=
  Mem.after (binaryCodec some) some sitePutSteps

theorem sitePut_keeps :
    Keeps (Mem.exec (Mem.execUnits sitePut.serial) (sitePut.txnOps 1)) siteRows :=
  keeps_puts siteRows 6

/-- The scan from past the last child of the site: it passes over a subtree, and ends at its limit. -/
theorem scans_agree_siteRows : ∃ pageOf : Mem.PageOf KeySegment Encoding Nat,
    Gives (Sqlite.iterate smallPages siteScan .items siteRows) (siteItems, none) ∧
    Gives (Rocksdb.RocksDBScan.scanBy smallPages
      (Rocksdb.keyIterators ⟨[]⟩ ((stored siteRows.rows).map Prod.fst)) siteRows.lookup siteScan
      .items) (siteItems, none) ∧
    Gives (lmdbScan some Lmdb.sitePending siteScan .items 0) (siteItems, none) ∧
    Gives (Mem.iterate smallPages siteScan .items pageOf) (siteItems, none) := by
  obtain ⟨t, ht, hopen⟩ : ∃ t, sitePut.storage.transactions.get? 1 = some t ∧ t.closed = false := by
    have htxn : (sitePut.storage.transactions.get? 1).map (fun t => t.closed) = some false := by
      decide +kernel
    obtain ⟨t, ht, hopen⟩ := Option.map_eq_some_iff.1 htxn
    exact ⟨t, ht, hopen⟩
  obtain ⟨hsqlite, hrocksdb, hlmdb, hmem⟩ :=
    scans_agree siteRows siteScan .items (by decide) (by decide) smallPages
  refine ⟨_, hsqlite, ?_, ?_, hmem some false sitePutSteps _ _ (.transaction rfl ht hopen)
    sitePut_keeps⟩
  · exact hrocksdb _ _ _ (Rocksdb.keyIterators_laws ⟨[]⟩ siteRows.pairwise_encoded
      siteRows.mem_encoded) fun _ _ => siteRows.mem_stored
  · exact hlmdb some _ _ _ 0 (Lmdb.keyCursors_laws 0 siteRows.pairwise_encoded siteRows.mem_encoded)
      (fun _ _ => siteRows.mem_stored) ⟨_, Lmdb.sitePending_requireActive⟩

end Virtuals.Scan
