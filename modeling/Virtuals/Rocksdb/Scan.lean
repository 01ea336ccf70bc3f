/-
  `RocksDBScan` (`storages/rocksdb/scan.py`): rows in native batches.

  A batch that meets a deep key is dropped from there on: the iterator seeks over the subtree, and
  batches start small again. Of the native iterator only what rdbpy promises is used (`IteratorLaws`).
  The native calls do not fail here, and the context stays open.
-/
import Virtuals.Rocksdb.Iterators
import Virtuals.Scan.Binary

namespace Virtuals.Rocksdb.RocksDBScan

open ScanOrder Scan

variable {Seg E W V : Type} [LinearOrder Seg] [LinearOrder E] {c : OrderedCodec Seg E W V}

/-! ## The scan -/

/-- How the rows of a batch ended. -/
inductive BatchEnd (E : Type)
  /-- the batch is used up -/
  | exhausted
  /-- `return` -/
  | returned
  /-- `break`, after a seek -/
  | sought (bound : E)
  | raised (e : ScanError)

/-- The loop over the rows of a batch, with how many items were handed out. -/
def batchRows (o : StorageScanOptions c) (t : IteratorType) :
    Nat → List (E × W) → List (Item Seg V) × Nat × BatchEnd E
  | count, [] => ([], count, .exhausted)
  | count, row :: rows =>
    match c.decodeKey row.1 with
    | none => ([], count, .raised .StorageOperationError)
    | some key =>
      if o.breaks key then ([], count, .returned)
      else if o.deep key then
        match o.skipBound key with
        | none => ([], count, .raised .codecError)
        | some bound => ([], count, .sought bound)
      else if o.drops key then batchRows o t count rows
      else if o.reached count then ([], count, .returned)
      else match itemOf c t key row.2 with
        | .error e => ([], count, .raised e)
        | .ok item =>
          let later := batchRows o t (count + 1) rows
          (item :: later.1, later.2)

theorem batchFirst_pos : 0 < batchFirst := by decide

theorem batchMax_pos : 0 < batchMax := by decide

/-- The sizes of the batches; one after a seek has the first size again. -/
def batchSizes : PageSizes :=
  ⟨batchFirst, batchMax, batchFirst, batchFirst_pos, batchMax_pos, batchFirst_pos⟩

/-- The size of the first batch, and of the one after a seek. -/
def firstBatch (sizes : PageSizes) (o : StorageScanOptions c) : Nat :=
  match o.limit with
  | none => sizes.first
  | some limit => (max 1 (min (sizes.first : Int) limit)).toNat

/-- `while True`, for as many batches as there is fuel. -/
def batches (sizes : PageSizes) (it : Iterators E W) (m : E → Option W) (o : StorageScanOptions c)
    (t : IteratorType) : Nat → it.Pos → Nat → Nat → Option (Items (Item Seg V) ScanError)
  | 0, _, _, _ => none
  | fuel + 1, pos, batchSize, count =>
    let (rows, pos) := it.nextBatch m o.reverse pos batchSize
    if rows.isEmpty then some ([], none)
    else
      let (items, count, ending) := batchRows o t count rows
      match ending with
      | .returned => some (items, none)
      | .raised e => some (items, some e)
      | .exhausted =>
        (batches sizes it m o t fuel pos (min (batchSize * 4) sizes.most) count).map
          (Items.after items)
      | .sought bound =>
        (batches sizes it m o t fuel (seekPos it m o.reverse (some bound)) (firstBatch sizes o)
          count).map (Items.after items)

/-- `start_key_encoded`. -/
def startKeyEncoded (o : StorageScanOptions c) : Except ScanError (Option E) :=
  match o.startEncoded with
  | some e => .ok (some e)
  | none =>
    match o.start with
    | none | some [] => .ok none
    | some (a :: k) =>
      match c.encodeKey (a :: k) with
      | none => .error .StorageOperationError
      | some e => .ok (some e)

/-- `_scan_once`, of an iterator opened on a map, with batches of any sizes. -/
def scanBy (sizes : PageSizes) (it : Iterators E W) (m : E → Option W) (o : StorageScanOptions c)
    (t : IteratorType) (fuel : Nat) : Option (Items (Item Seg V) ScanError) :=
  match startKeyEncoded o with
  | .error e => some ([], some e)
  | .ok start =>
    batches sizes it m o t fuel (seekPos it m o.reverse start) (firstBatch sizes o) 0

/-- `_scan_once`. -/
def scanOnce (it : Iterators E W) (m : E → Option W) (o : StorageScanOptions c) (t : IteratorType)
    (fuel : Nat) : Option (Items (Item Seg V) ScanError) := scanBy batchSizes it m o t fuel

/-! ## The rows of a batch -/

theorem firstBatch_pos (sizes : PageSizes) (o : StorageScanOptions c) :
    0 < firstBatch sizes o := by
  rw [firstBatch]
  cases o.limit with
  | none => exact sizes.first_pos
  | some limit =>
    show 0 < (max 1 (min (sizes.first : Int) limit)).toNat
    omega

theorem nextBatch_pos (sizes : PageSizes) {batchSize : Nat} (h : 0 < batchSize) :
    0 < min (batchSize * 4) sizes.most := by
  have := sizes.most_pos
  omega

/-- What is still to come after the rows of a batch. -/
def resume (o : StorageScanOptions c) (t : IteratorType) (all rest : List (E × W)) :
    List (Item Seg V) × Nat × BatchEnd E → Items (Item Seg V) ScanError
  | (items, count, .exhausted) =>
    (walk o.reverse (rowVerdict o t) none (o.leftAfter count) rest).after items
  | (items, count, .sought bound) =>
    (walk o.reverse (rowVerdict o t) none (o.leftAfter count)
      (all.filter fun r => !behind o.reverse (some bound) r.1)).after items
  | (items, _, .returned) => (items, none)
  | (items, _, .raised e) => (items, some e)

theorem resume_cons (o : StorageScanOptions c) (t : IteratorType) (all rest : List (E × W))
    (item : Item Seg V) (later : List (Item Seg V) × Nat × BatchEnd E) :
    resume o t all rest (item :: later.1, later.2) = (resume o t all rest later).after [item] := by
  obtain ⟨items, count, ending⟩ := later
  cases ending <;> rfl

variable {sizes : PageSizes} {o : StorageScanOptions c} {t : IteratorType}
  {all pre rest : List (E × W)}

/-- A seek out of a subtree never has an empty bound. -/
theorem skipBound_ne_empty {k : c.Key} (h : o.deep k.key = true) {b : E}
    (hb : o.skipBound k.key = some b) : b ≠ c.empty := by
  obtain ⟨b', hb', hahead⟩ := skipBound_ahead h
  rw [hb, Option.some.injEq] at hb'
  rw [StorageScanOptions.skipBound] at hb
  rw [← hb'] at hahead
  have hpos := c.empty_lt k.encode_eq
  cases hrev : o.reverse with
  | true =>
    rw [hrev, if_pos rfl] at hb
    exact (c.empty_lt hb).ne'
  | false =>
    rw [hrev] at hahead
    exact (lt_trans hpos hahead).ne'

/-- Seeking over a subtree, from a row of it, leaves the rows ahead that are not in it. -/
theorem filter_skipBound (row : c.Key × W) {rows : List (E × W)} (h : Ascending o.reverse all)
    (hall : all = pre ++ (row.1.encoded, row.2) :: rows) (hdeep : o.deep row.1.key = true) {b : E}
    (hb : o.skipBound row.1.key = some b) :
    all.filter (fun r => !behind o.reverse (some b) r.1) =
      rows.filter fun r => !behind o.reverse (some b) r.1 := by
  obtain ⟨b', hb', hahead⟩ := skipBound_ahead hdeep
  rw [hb, Option.some.injEq] at hb'
  rw [← hb'] at hahead
  rw [filter_from_rest h hall List.mem_cons_self hahead, List.filter_cons_of_neg]
  rw [behind_some.2 hahead]
  decide

/-- **The rows of a batch** (PROVED): they do what the walk does, up to where the batch ends. -/
theorem batchRows_walk (hsorted : Ascending o.reverse all) (rows : List (c.Key × W)) (count : Nat)
    (hall : ∃ pre, all = pre ++ (stored rows ++ rest)) :
    walk o.reverse (rowVerdict o t) none (o.leftAfter count) (stored rows ++ rest) =
      resume o t all rest (batchRows o t count (stored rows)) := by
  induction rows generalizing count with
  | nil => exact (Items.after_nil _).symm
  | cons row rows ih =>
    obtain ⟨pre, hall⟩ := hall
    have hcons : stored (row :: rows) = (row.1.encoded, row.2) :: stored rows := rfl
    have hnone := behind_none o.reverse row.1.encoded
    have hverdict := rowVerdict_encoded o t row
    rw [hcons, List.cons_append] at hall
    have hahead : ∃ pre, all = pre ++ (stored rows ++ rest) :=
      ⟨pre ++ [(row.1.encoded, row.2)], by rw [hall, List.append_assoc, List.singleton_append]⟩
    rw [hcons, List.cons_append, batchRows, c.decode_encode row.1.encode_eq]
    rw [verdict] at hverdict
    dsimp only
    by_cases hbreaks : o.breaks row.1.key = true
    · rw [if_pos hbreaks] at hverdict
      rw [if_pos hbreaks, walk_stop hnone hverdict]
      rfl
    rw [if_neg hbreaks] at hverdict
    rw [if_neg hbreaks]
    by_cases hdeep : o.deep row.1.key = true
    · obtain ⟨b, hb, -⟩ := skipBound_ahead hdeep
      rw [if_pos hdeep, hb] at hverdict
      rw [if_pos hdeep, hb, walk_seek hnone hverdict]
      have hrest : Ascending o.reverse (stored rows ++ rest) := by
        rw [hall] at hsorted
        exact (List.pairwise_cons.1 (List.pairwise_append.1 hsorted).2.1).2
      exact (walk_sought hrest (some b) _).trans
        (congrArg (walk o.reverse (rowVerdict o t) none (o.leftAfter count))
          (filter_skipBound _ hsorted hall hdeep hb).symm)
    rw [if_neg hdeep] at hverdict
    rw [if_neg hdeep]
    by_cases hdrops : o.drops row.1.key = true
    · rw [if_pos hdrops] at hverdict
      rw [if_pos hdrops, walk_pass hnone hverdict]
      exact ih count hahead
    rw [if_neg hdrops] at hverdict
    rw [if_neg hdrops]
    by_cases hcount : o.reached count = true
    · rw [if_pos hcount, (o.reached_iff count).1 hcount, walk_done]
      rfl
    have hleft : o.leftAfter count ≠ some 0 := fun h => hcount ((o.reached_iff count).2 h)
    rw [if_neg hcount, walk_next hnone hleft, hverdict]
    cases itemOf c t row.1.key row.2 with
    | error e => rfl
    | ok item =>
      dsimp only
      rw [resume_cons, ← ih (count + 1) hahead, o.leftAfter_succ]

/-- A batch that ends with a seek met a deep key. -/
theorem batchRows_sought {rows : List (c.Key × W)} {count n : Nat} {items : List (Item Seg V)}
    {b : E} (h : batchRows o t count (stored rows) = (items, n, .sought b)) :
    ∃ row ∈ rows, o.deep row.1.key = true ∧ o.skipBound row.1.key = some b := by
  induction rows generalizing count items n with
  | nil => cases h
  | cons row rows ih =>
    have hlater : ∀ {count n items}, batchRows o t count (stored rows) = (items, n, .sought b) →
        ∃ r ∈ row :: rows, o.deep r.1.key = true ∧ o.skipBound r.1.key = some b := by
      intro count n items h
      obtain ⟨r, hr, hdeep⟩ := ih h
      exact ⟨r, List.mem_cons_of_mem row hr, hdeep⟩
    have hcons : stored (row :: rows) = (row.1.encoded, row.2) :: stored rows := rfl
    rw [hcons, batchRows, c.decode_encode row.1.encode_eq] at h
    dsimp only at h
    by_cases hbreaks : o.breaks row.1.key = true
    · rw [if_pos hbreaks] at h
      cases h
    rw [if_neg hbreaks] at h
    by_cases hdeep : o.deep row.1.key = true
    · obtain ⟨b', hb, -⟩ := skipBound_ahead hdeep
      rw [if_pos hdeep, hb] at h
      cases h
      exact ⟨row, List.mem_cons_self, hdeep, hb⟩
    rw [if_neg hdeep] at h
    by_cases hdrops : o.drops row.1.key = true
    · rw [if_pos hdrops] at h
      exact hlater h
    rw [if_neg hdrops] at h
    by_cases hcount : o.reached count = true
    · rw [if_pos hcount] at h
      cases h
    rw [if_neg hcount] at h
    cases hitem : itemOf c t row.1.key row.2 with
    | error e =>
      rw [hitem] at h
      cases h
    | ok item =>
      rw [hitem] at h
      dsimp only at h
      have hending : (batchRows o t (count + 1) (stored rows)).2 = (n, .sought b) :=
        congrArg Prod.snd h
      exact hlater (Prod.ext rfl hending)

/-! ## Batches -/

/-- A seek out of a batch leaves fewer rows ahead. -/
theorem seek_shorter (hsorted : Ascending o.reverse all) {rows : List (c.Key × W)}
    (hall : ∃ pre, all = pre ++ (stored rows ++ rest)) {row : c.Key × W} (hrow : row ∈ rows)
    (hdeep : o.deep row.1.key = true) {b : E} (hb : o.skipBound row.1.key = some b) :
    (all.filter fun r => !behind o.reverse (some b) r.1).length < (stored rows ++ rest).length := by
  obtain ⟨before, after, rfl⟩ := List.append_of_mem hrow
  obtain ⟨pre, hall⟩ := hall
  have hsplit : stored (before ++ row :: after) ++ rest =
      stored before ++ (row.1.encoded, row.2) :: (stored after ++ rest) := by
    rw [stored, List.map_append, List.map_cons, List.append_assoc, List.cons_append]
    rfl
  rw [hsplit, ← List.append_assoc] at hall
  have hseek := filter_skipBound _ hsorted hall hdeep hb
  rw [hseek, hsplit, List.length_append, List.length_cons]
  have hle := List.length_filter_le (fun r => !behind o.reverse (some b) r.1) (stored after ++ rest)
  omega

section Batches

variable {it : Iterators E W} {m : E → Option W} {ahead : Bool → it.Pos → List (E × W)}
  (hit : IteratorLaws it c.empty m ahead)
include hit

/-- Where a seek out of a subtree leaves the iterator. -/
theorem ahead_skipBound (hall : IsListing o.reverse (fun _ => True) m all) {k : c.Key}
    (hdeep : o.deep k.key = true) {b : E} (hb : o.skipBound k.key = some b) :
    ahead o.reverse (seekPos it m o.reverse (some b)) =
      all.filter fun r => !behind o.reverse (some b) r.1 := by
  have htruthy : (some b).filter (fun e => decide (e ≠ c.empty)) = some b := by
    rw [Option.filter_some, if_pos (decide_eq_true (skipBound_ne_empty hdeep hb))]
  rw [hit.seekPos_filter hall, htruthy]
  refine List.filter_congr ?_
  intro r _
  exact (not_behind (some b) r.1).symm

/-- **Batches** (PROVED): whatever their sizes, they hand out what the walk over the rows ahead does,
and each brings the scan closer to its end. -/
theorem batches_walk (hall : IsListing o.reverse (fun _ => True) m all)
    {known : List (c.Key × W)} (hknown : all = stored known) (fuel : Nat) (pos : it.Pos)
    (batchSize count : Nat) (hpos : ahead o.reverse pos <:+ all)
    (hfuel : (ahead o.reverse pos).length < fuel) (hsize : 0 < batchSize) :
    batches sizes it m o t fuel pos batchSize count =
      some (walk o.reverse (rowVerdict o t) none (o.leftAfter count) (ahead o.reverse pos)) := by
  induction fuel generalizing pos batchSize count with
  | zero => omega
  | succ fuel ih =>
    have htaken := hit.nextBatch o.reverse pos batchSize
    have hrest := hit.rest o.reverse pos batchSize
    rw [batches]
    dsimp only
    rw [htaken]
    obtain ⟨rows, hrows⟩ : ∃ rows : List (c.Key × W), ahead o.reverse pos = stored rows := by
      rw [List.suffix_iff_eq_drop, hknown] at hpos
      exact ⟨known.drop _, hpos.trans List.map_drop.symm⟩
    cases rows with
    | nil =>
      have hnil : ahead o.reverse pos = [] := hrows
      rw [hnil, List.take_nil, if_pos List.isEmpty_nil, walk]
    | cons row rows =>
      have hne : ((ahead o.reverse pos).take batchSize).isEmpty = false := by
        rw [List.isEmpty_eq_false_iff, ne_eq, List.take_eq_nil_iff, hrows]
        intro h
        obtain h | h := h
        · omega
        · cases h
      have htake : (ahead o.reverse pos).take batchSize = stored ((row :: rows).take batchSize) := by
        rw [hrows]
        exact List.map_take.symm
      have hsplit : ahead o.reverse pos =
          stored ((row :: rows).take batchSize) ++ (ahead o.reverse pos).drop batchSize := by
        rw [← htake, List.take_append_drop]
      obtain ⟨pre, hpre⟩ := hpos
      have hpart : ∃ pre, all = pre ++
          (stored ((row :: rows).take batchSize) ++ (ahead o.reverse pos).drop batchSize) :=
        ⟨pre, by rw [← hsplit, hpre]⟩
      have hwalk := batchRows_walk (t := t) hall.ascending _ count hpart
      rw [if_neg (by rw [hne]; exact Bool.false_ne_true), htake]
      rw [← hsplit] at hwalk
      rw [hwalk]
      cases hbatch : batchRows o t count (stored ((row :: rows).take batchSize)) with
      | mk items later =>
        obtain ⟨n, ending⟩ := later
        cases ending with
        | returned => rfl
        | raised e => rfl
        | exhausted =>
          have hless : ((ahead o.reverse pos).drop batchSize).length < fuel := by
            have hpos : 0 < (ahead o.reverse pos).length := by
              rw [hrows]
              exact Nat.succ_pos _
            rw [List.length_drop]
            omega
          have hsuffix : (ahead o.reverse pos).drop batchSize <:+ all :=
            (List.drop_suffix batchSize _).trans ⟨pre, hpre⟩
          rw [← hrest] at hless hsuffix
          dsimp only
          rw [ih _ _ n hsuffix hless (nextBatch_pos sizes hsize), hrest]
          rfl
        | sought b =>
          obtain ⟨r, hr, hdeep, hb⟩ := batchRows_sought hbatch
          have hseek := ahead_skipBound hit hall hdeep hb
          have hshort := seek_shorter hall.ascending hpart hr hdeep hb
          have hsuffix := filter_from_suffix hall.ascending (some b)
          rw [← hsplit, ← hseek] at hshort
          rw [← hseek] at hsuffix
          dsimp only
          rw [ih _ _ n hsuffix (by omega) (firstBatch_pos sizes o), hseek]
          rfl

end Batches

/-! ## The whole scan -/

/-- The options as this backend reads them: an empty start is none. -/
def truthy (o : StorageScanOptions c) : StorageScanOptions c :=
  match o.startEncoded with
  | some e => if e = c.empty then { o with startEncoded := none, start := none } else o
  | none => if o.start = some [] then { o with start := none } else o

/-- The start of a scan, as its options are read. -/
theorem startBound_truthy (o : StorageScanOptions c) :
    (truthy o).startBound = (startKeyEncoded o).map fun b => b.filter (· ≠ c.empty) := by
  rw [startKeyEncoded, truthy]
  cases he : o.startEncoded with
  | some e =>
    dsimp only
    by_cases hempty : e = c.empty
    · rw [if_pos hempty, hempty]
      simp [StorageScanOptions.startBound, Except.map, Option.filter]
    · rw [if_neg hempty]
      simp [StorageScanOptions.startBound, Except.map, Option.filter, he, hempty]
  | none =>
    dsimp only
    cases hs : o.start with
    | none => simp [StorageScanOptions.startBound, Except.map, he, hs]
    | some k =>
      cases k with
      | nil => simp [StorageScanOptions.startBound, Except.map]
      | cons a k =>
        rw [if_neg (by intro h; cases h)]
        rw [StorageScanOptions.startBound, he, hs]
        dsimp only
        cases hc : c.encodeKey (a :: k) with
        | none => rfl
        | some e => simp [Except.map, Option.filter, (c.empty_lt hc).ne']

theorem truthy_same (o : StorageScanOptions c) : ∃ start startEncoded,
    truthy o = { o with start := start, startEncoded := startEncoded } := by
  rw [truthy]
  split
  · split
    · exact ⟨none, none, rfl⟩
    · exact ⟨o.start, o.startEncoded, rfl⟩
  · split
    · exact ⟨none, o.startEncoded, rfl⟩
    · exact ⟨o.start, o.startEncoded, rfl⟩

/-- The rows of a storage, listed in the direction of a scan. -/
theorem facing_listing {m : E → Option W} {data : Data c}
    (hdata : ∀ e w, (e, w) ∈ stored data.rows ↔ m e = some w) :
    IsListing o.reverse (fun _ => True) m (facing o.reverse (stored data.rows)) := by
  refine ⟨facing_ascending data, fun e w => ?_⟩
  rw [mem_facing, hdata, and_true]

/-- A start that cannot be encoded. -/
theorem items_of_startError {e : ScanError} (h : startKeyEncoded o = .error e) (t : IteratorType)
    (data : Data c) : items (truthy o) t data = ([], some e) := by
  refine items_of_error ?_ t data
  rw [startBound_truthy, h]
  rfl

section Start

variable {it : Iterators E W} {m : E → Option W} {ahead : Bool → it.Pos → List (E × W)}
  (hit : IteratorLaws it c.empty m ahead) {data : Data c}
  (hdata : ∀ e w, (e, w) ∈ stored data.rows ↔ m e = some w) {start : Option E}
include hit hdata

/-- What a scan yields, from where it first seeks. -/
theorem items_of_start (h : startKeyEncoded o = .ok start) (t : IteratorType) :
    items (truthy o) t data = walk o.reverse (rowVerdict o t) none (o.leftAfter 0)
      (ahead o.reverse (seekPos it m o.reverse start)) := by
  have hbound := startBound_truthy o
  rw [h] at hbound
  obtain ⟨s, e, hsame⟩ := truthy_same o
  rw [items_eq_walk hbound, hsame, hit.seekPos_filter (facing_listing hdata) start, o.leftAfter_zero]
  rfl

theorem start_suffix (start : Option E) : ahead o.reverse (seekPos it m o.reverse start) <:+
    facing o.reverse (stored data.rows) := by
  have hall : IsListing o.reverse (fun _ => True) m (facing o.reverse (stored data.rows)) :=
    facing_listing hdata
  rw [hit.seekPos_filter hall start]
  exact suffix_of_bound hall.ascending _

end Start

/-- Batches of any sizes hand out the items of the walk, and end. -/
theorem scanBy_items (sizes : PageSizes) {it : Iterators E W} {m : E → Option W}
    {ahead : Bool → it.Pos → List (E × W)} (hit : IteratorLaws it c.empty m ahead) (data : Data c)
    (hdata : ∀ e w, (e, w) ∈ stored data.rows ↔ m e = some w) (o : StorageScanOptions c)
    (t : IteratorType) (fuel : Nat) (hfuel : data.rows.length < fuel) :
    scanBy sizes it m o t fuel = some (items (truthy o) t data) := by
  rw [scanBy]
  cases hstart : startKeyEncoded o with
  | error e => rw [items_of_startError hstart]
  | ok start =>
    have hsuffix := start_suffix (o := o) hit hdata start
    have hless : (ahead o.reverse (seekPos it m o.reverse start)).length < fuel := by
      refine lt_of_le_of_lt hsuffix.length_le ?_
      rw [length_facing, stored, List.length_map]
      exact hfuel
    dsimp only
    rw [items_of_start hit hdata hstart]
    exact batches_walk hit (facing_listing hdata) (stored_facing o.reverse data.rows).symm fuel _ _ 0
      hsuffix hless (firstBatch_pos sizes o)

/-- **RocksDB scans** (PROVED): on iterators that keep what rdbpy promises, whatever the limit, the
filters, the depth and the rows, the batches of a scan hand out the items of the walk in key order,
and end. -/
theorem scanOnce_items {it : Iterators E W} {m : E → Option W}
    {ahead : Bool → it.Pos → List (E × W)} (hit : IteratorLaws it c.empty m ahead) (data : Data c)
    (hdata : ∀ e w, (e, w) ∈ stored data.rows ↔ m e = some w) (o : StorageScanOptions c)
    (t : IteratorType) (fuel : Nat) (hfuel : data.rows.length < fuel) :
    scanOnce it m o t fuel = some (items (truthy o) t data) :=
  scanBy_items batchSizes hit data hdata o t fuel hfuel

/-- The first batch of four rows ends at a deep key, the second one at the limit. -/
theorem scanOnce_items_siteRows :
    scanOnce (keyIterators ⟨[]⟩ ((stored siteRows.rows).map Prod.fst)) siteRows.lookup siteScan
        .items 12 =
      some ([.pair [.int 1, .int 8] 18, .pair [.int 1, .int 7] 17, .pair [.int 1, .int 5] 15,
        .pair [.int 1, .int 3] 13], none) :=
  (scanOnce_items (keyIterators_laws ⟨[]⟩ siteRows.pairwise_encoded siteRows.mem_encoded) siteRows
    (fun _ _ => siteRows.mem_stored) siteScan .items 12 (by decide)).trans
    (congrArg some items_siteScan)

end Virtuals.Rocksdb.RocksDBScan
