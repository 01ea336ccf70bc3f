/-
  A scan that is alone on its rows.

  Between two turns of a scan other threads may do anything: what a turn does depends on the scan only,
  but for the rows that its iterator is opened on (`alone_rows`). So a scan whose iterator has the rows
  of a view is where it would be if it ran alone on the view (`Alone`), and what it replies is what
  comes next there (`Next`). On iterators that keep their promises, under a codec that keeps the order
  of keys, that is the walk over the view's rows in key order (`next_walks`).
-/
import Virtuals.Lmdb.Scan
import Virtuals.Rocksdb.Scan
import Virtuals.Rocksdb.Secondary

namespace Virtuals.Rocksdb

open Lmdb (Codec StorageScanOptions)

section

variable {E Seg W V : Type} {it : Iterators E W}

/-- A scan after some of its turns, alone on a view. -/
inductive Alone (codec : Codec E Seg W V) (view : E → Option W) (snapshot epoch : Nat)
    (options : StorageScanOptions E Seg) (needValues : Bool) : RocksDBScan E Seg W V it.Pos → Prop
  | begun : Alone codec view snapshot epoch options needValues (.begun it snapshot options needValues)
  | turn {sc : RocksDBScan E Seg W V it.Pos} : Alone codec view snapshot epoch options needValues sc →
      Alone codec view snapshot epoch options needValues (sc.alone codec view epoch).1

/-- What a scan alone on a view replies after the rows it has given. -/
def Next (it : Iterators E W) (codec : Codec E Seg W V) (view : E → Option W)
    (options : StorageScanOptions E Seg) (needValues : Bool) (given : List (List Seg × Option V))
    (r : Reply Seg V) : Prop :=
  ∃ snapshot epoch, ∃ sc : RocksDBScan E Seg W V it.Pos,
    Alone codec view snapshot epoch options needValues sc ∧ sc.given = given ∧
      (sc.alone codec view epoch).2 = some r

variable {codec : Codec E Seg W V} {sc : RocksDBScan E Seg W V it.Pos} {rows rows' : E → Option W}
  {generation generation' : Nat}

/-! ## One turn -/

namespace RocksDBScan

/-- What the turns leave as it is. -/
structure Same (sc sc' : RocksDBScan E Seg W V it.Pos) : Prop where
  snapshot : sc'.snapshot = sc.snapshot
  options : sc'.options = sc.options
  needValues : sc'.needValues = sc.needValues

/-- The iterator is not opened yet. -/
def unopened (sc : RocksDBScan E Seg W V it.Pos) : Bool :=
  match sc.state with
  | .started => true
  | .checked _ => true
  | _ => false

/-- The catch-up that the iterator was opened after. -/
def openedAfter (sc : RocksDBScan E Seg W V it.Pos) : Option Nat := sc.handle.map ScanHandle.generation

/-- A turn with an open iterator ends the scan, or keeps the iterator. -/
structure Ends (sc sc' : RocksDBScan E Seg W V it.Pos) : Prop where
  same : Same sc sc'
  opened : sc'.unopened = false
  handle : sc' = sc.ended ∨ sc'.openedAfter = sc.openedAfter

theorem Ends.ended (sc : RocksDBScan E Seg W V it.Pos) : Ends sc sc.ended :=
  ⟨⟨rfl, rfl, rfl⟩, rfl, Or.inl rfl⟩

theorem row_ends (row : E × W) (rest : List (E × W)) : Ends sc (sc.row codec row rest).1 := by
  unfold RocksDBScan.row
  split
  · exact Ends.ended sc
  split
  · exact Ends.ended sc
  split
  · split
    · exact Ends.ended sc
    · exact ⟨⟨rfl, rfl, rfl⟩, rfl, Or.inr rfl⟩
  split
  · exact ⟨⟨rfl, rfl, rfl⟩, rfl, Or.inr rfl⟩
  split
  · exact Ends.ended sc
  split
  · split
    · exact Ends.ended sc
    · exact ⟨⟨rfl, rfl, rfl⟩, rfl, Or.inr rfl⟩
  · exact ⟨⟨rfl, rfl, rfl⟩, rfl, Or.inr rfl⟩

theorem fetched_ends {handle : ScanHandle E W it.Pos} (h : sc.handle = some handle) (pos : it.Pos) :
    Ends sc (sc.fetched handle pos).1 := by
  unfold fetched
  dsimp only
  split
  · exact Ends.ended sc
  · refine ⟨⟨rfl, rfl, rfl⟩, rfl, Or.inr ?_⟩
    rw [openedAfter, openedAfter, h]
    rfl

/-- The turns of a scan. -/
theorem alone_cases : Same sc (sc.alone codec rows generation).1 ∧
    (sc.state = .started ∧ ((sc.alone codec rows generation).1 = sc.ended ∨
        ∃ start, (sc.alone codec rows generation).1 = { sc with state := .checked start }) ∨
      (∃ start, sc.state = .checked start ∧
        sc.alone codec rows generation = sc.opened rows generation start) ∨
      sc.unopened = false ∧ Ends sc (sc.alone codec rows generation).1) := by
  have hidle : sc.unopened = false → Same sc sc ∧ Ends sc sc := fun h =>
    ⟨⟨rfl, rfl, rfl⟩, ⟨rfl, rfl, rfl⟩, h, Or.inr rfl⟩
  unfold alone
  cases hstate : sc.state with
  | started =>
    dsimp only
    unfold bounded
    split
    · exact ⟨⟨rfl, rfl, rfl⟩, Or.inl ⟨rfl, Or.inl rfl⟩⟩
    · exact ⟨⟨rfl, rfl, rfl⟩, Or.inl ⟨rfl, Or.inr ⟨_, rfl⟩⟩⟩
  | checked start => exact ⟨⟨rfl, rfl, rfl⟩, Or.inr (Or.inl ⟨start, rfl, rfl⟩)⟩
  | seeking start =>
    have hopened : sc.unopened = false := by rw [unopened, hstate]
    cases hhandle : sc.handle with
    | none => exact ⟨(hidle hopened).1, Or.inr (Or.inr ⟨hopened, (hidle hopened).2⟩)⟩
    | some handle =>
      refine ⟨⟨rfl, rfl, rfl⟩, Or.inr (Or.inr ⟨hopened, ⟨rfl, rfl, rfl⟩, rfl, Or.inr ?_⟩)⟩
      rw [openedAfter, openedAfter, hhandle]
      rfl
  | fetching =>
    have hopened : sc.unopened = false := by rw [unopened, hstate]
    cases hhandle : sc.handle with
    | none => exact ⟨(hidle hopened).1, Or.inr (Or.inr ⟨hopened, (hidle hopened).2⟩)⟩
    | some handle =>
      obtain ⟨view, opened, _ | pos⟩ := handle
      · exact ⟨(hidle hopened).1, Or.inr (Or.inr ⟨hopened, (hidle hopened).2⟩)⟩
      · have hends := fetched_ends hhandle pos
        exact ⟨hends.same, Or.inr (Or.inr ⟨hopened, hends⟩)⟩
  | rows batch =>
    have hopened : sc.unopened = false := by rw [unopened, hstate]
    cases batch with
    | nil =>
      exact ⟨⟨rfl, rfl, rfl⟩, Or.inr (Or.inr ⟨hopened, ⟨rfl, rfl, rfl⟩, rfl, Or.inr rfl⟩)⟩
    | cons row rest =>
      cases sc.handle with
      | none => exact ⟨(hidle hopened).1, Or.inr (Or.inr ⟨hopened, (hidle hopened).2⟩)⟩
      | some handle =>
        have hends : Ends sc (sc.row codec row rest).1 := row_ends row rest
        exact ⟨hends.same, Or.inr (Or.inr ⟨hopened, hends⟩)⟩
  | lost =>
    have hopened : sc.unopened = false := by rw [unopened, hstate]
    exact ⟨(hidle hopened).1, Or.inr (Or.inr ⟨hopened, (hidle hopened).2⟩)⟩
  | done =>
    have hopened : sc.unopened = false := by rw [unopened, hstate]
    exact ⟨(hidle hopened).1, Or.inr (Or.inr ⟨hopened, (hidle hopened).2⟩)⟩

/-- Only the turn that opens the iterator looks at the rows. -/
theorem alone_rows (h : ∀ start, sc.state ≠ .checked start) :
    sc.alone codec rows generation = sc.alone codec rows' generation' := by
  unfold alone
  cases hstate : sc.state with
  | checked start => exact absurd hstate (h start)
  | started => rfl
  | seeking start => cases sc.handle <;> rfl
  | fetching =>
    cases sc.handle with
    | none => rfl
    | some handle =>
      obtain ⟨view, opened, _ | pos⟩ := handle
      · rfl
      · rfl
  | rows batch => cases batch <;> cases sc.handle <;> rfl
  | lost => rfl
  | done => rfl

/-- A reply is given before the iterator is opened, by a batch without rows, or at a row. -/
theorem alone_reply {r : Reply Seg V} (h : (sc.alone codec rows generation).2 = some r) :
    (sc.state = .started ∧ r = .raised) ∨
      (∃ view opened pos, sc.state = .fetching ∧ sc.handle = some ⟨view, opened, some pos⟩ ∧
        (it.nextBatch view sc.options.reverse pos sc.batchSize).1 = [] ∧ r = .stop) ∨
      ∃ row rest handle, sc.state = .rows (row :: rest) ∧ sc.handle = some handle ∧
        (sc.row codec row rest).2 = some r := by
  unfold alone at h
  cases hstate : sc.state with
  | started =>
    rw [hstate] at h
    dsimp only at h
    unfold bounded at h
    split at h
    · exact Or.inl ⟨rfl, (Option.some.inj h).symm⟩
    · cases h
  | checked start =>
    rw [hstate] at h
    cases h
  | seeking start =>
    rw [hstate] at h
    cases hhandle : sc.handle with
    | none =>
      rw [hhandle] at h
      cases h
    | some handle =>
      rw [hhandle] at h
      cases h
  | fetching =>
    rw [hstate] at h
    cases hhandle : sc.handle with
    | none =>
      rw [hhandle] at h
      cases h
    | some handle =>
      rw [hhandle] at h
      obtain ⟨view, opened, _ | pos⟩ := handle
      · cases h
      · dsimp only at h
        unfold fetched at h
        dsimp only at h
        split at h
        · rename_i hempty
          exact Or.inr (Or.inl ⟨view, opened, pos, rfl, rfl, hempty, (Option.some.inj h).symm⟩)
        · cases h
  | rows batch =>
    rw [hstate] at h
    cases batch with
    | nil => cases h
    | cons row rest =>
      cases hhandle : sc.handle with
      | none =>
        rw [hhandle] at h
        cases h
      | some handle =>
        rw [hhandle] at h
        exact Or.inr (Or.inr ⟨row, rest, handle, rfl, rfl, h⟩)
  | lost =>
    rw [hstate] at h
    cases h
  | done =>
    rw [hstate] at h
    cases h

end RocksDBScan

/-! ## Rows of the view -/

/-- A row that a scan may return of a view. -/
def RightRow (codec : Codec E Seg W V) (view : E → Option W) (needValues : Bool) (key : List Seg)
    (value : Option V) : Prop :=
  ∃ e w, view e = some w ∧ codec.decodeKey e = some key ∧
    if needValues = true then ∃ v, value = some v ∧ codec.decodeValue w = some v else value = none

/-- A scan whose iterator, and whose batch, are on a view. -/
structure OnView (view : E → Option W) (sc : RocksDBScan E Seg W V it.Pos) : Prop where
  handle : ∀ h, sc.handle = some h → h.rows = view
  batch : ∀ rest, sc.state = .rows rest → ∀ r ∈ rest, view r.1 = some r.2

variable {view : E → Option W}

theorem OnView.ended (view : E → Option W) (sc : RocksDBScan E Seg W V it.Pos) :
    OnView view sc.ended := ⟨fun _ h => (by cases h), fun _ h => by cases h⟩

theorem OnView.row (h : OnView view sc) {row : E × W} {rest : List (E × W)}
    (hstate : sc.state = .rows (row :: rest)) : OnView view (sc.row codec row rest).1 := by
  have hrest : ∀ rest', ScanAt.rows rest = .rows rest' → ∀ r ∈ rest', view r.1 = some r.2 := by
    intro rest' heq r hr
    rw [← ScanAt.rows.inj heq] at hr
    exact h.batch _ hstate r (List.mem_cons_of_mem row hr)
  unfold RocksDBScan.row
  split
  · exact OnView.ended view sc
  split
  · exact OnView.ended view sc
  split
  · split
    · exact OnView.ended view sc
    · exact ⟨h.handle, fun _ h => by cases h⟩
  split
  · exact ⟨h.handle, hrest⟩
  split
  · exact OnView.ended view sc
  split
  · split
    · exact OnView.ended view sc
    · exact ⟨h.handle, hrest⟩
  · exact ⟨h.handle, hrest⟩

theorem OnView.alone (h : OnView view sc) : OnView view (sc.alone codec view generation).1 := by
  unfold RocksDBScan.alone
  cases hstate : sc.state with
  | started =>
    dsimp only
    unfold RocksDBScan.bounded
    split
    · exact OnView.ended view sc
    · exact ⟨h.handle, fun _ h => by cases h⟩
  | checked start =>
    refine ⟨fun h' heq => ?_, fun _ h => by cases h⟩
    rw [← Option.some.inj heq]
  | seeking start =>
    cases hhandle : sc.handle with
    | none => exact h
    | some handle =>
      refine ⟨fun h' heq => ?_, fun _ h => by cases h⟩
      rw [← Option.some.inj heq]
      exact h.handle handle hhandle
  | fetching =>
    cases hhandle : sc.handle with
    | none => exact h
    | some handle =>
      have hview := h.handle handle hhandle
      obtain ⟨rows, opened, _ | pos⟩ := handle
      · exact h
      · dsimp only
        unfold RocksDBScan.fetched
        dsimp only
        split
        · exact OnView.ended view sc
        · refine ⟨fun h' heq => ?_, fun rest heq r hr => ?_⟩
          · rw [← Option.some.inj heq]
            exact hview
          · rw [← ScanAt.rows.inj heq] at hr
            rw [← hview]
            exact it.nextBatch_rows _ _ _ _ r hr
  | rows batch =>
    cases batch with
    | nil => exact ⟨h.handle, fun _ h => by cases h⟩
    | cons row rest =>
      cases sc.handle with
      | none => exact h
      | some handle => exact h.row hstate
  | lost => exact h
  | done => exact h

theorem Alone.onView {snapshot epoch : Nat} {options : StorageScanOptions E Seg} {needValues : Bool}
    (h : Alone codec view snapshot epoch options needValues sc) : OnView view sc := by
  induction h with
  | begun => exact ⟨fun _ h => (by cases h), fun _ h => by cases h⟩
  | turn _ ih => exact ih.alone

theorem Alone.same {snapshot epoch : Nat} {options : StorageScanOptions E Seg} {needValues : Bool}
    (h : Alone codec view snapshot epoch options needValues sc) :
    (RocksDBScan.begun it snapshot options needValues).Same sc := by
  induction h with
  | begun => exact ⟨rfl, rfl, rfl⟩
  | turn _ ih =>
    obtain ⟨hsame, -⟩ := RocksDBScan.alone_cases
    exact ⟨hsame.snapshot.trans ih.snapshot, hsame.options.trans ih.options,
      hsame.needValues.trans ih.needValues⟩

/-- A row is yielded of the row whose turn it is. -/
theorem row_yields {row : E × W} {rest : List (E × W)} {key : List Seg} {value : Option V}
    (h : (sc.row codec row rest).2 = some (.row key value)) (hview : view row.1 = some row.2) :
    RightRow codec view sc.needValues key value := by
  unfold RocksDBScan.row at h
  split at h
  · cases h
  rename_i k hk
  split at h
  · cases h
  split at h
  · split at h
    · cases h
    · cases h
  split at h
  · cases h
  split at h
  · cases h
  split at h
  · rename_i hvalues
    split at h
    · cases h
    · rename_i v hv
      obtain ⟨rfl, rfl⟩ := Reply.row.inj (Option.some.inj h)
      exact ⟨row.1, row.2, hview, hk, by rw [if_pos hvalues]; exact ⟨v, rfl, hv⟩⟩
  · rename_i hvalues
    obtain ⟨rfl, rfl⟩ := Reply.row.inj (Option.some.inj h)
    exact ⟨row.1, row.2, hview, hk, by rw [if_neg hvalues]⟩

/-- Only a row of the view is yielded. -/
theorem next_row {options : StorageScanOptions E Seg} {needValues : Bool}
    {given : List (List Seg × Option V)} {key : List Seg} {value : Option V}
    (h : Next it codec view options needValues given (.row key value)) :
    RightRow codec view needValues key value := by
  obtain ⟨snapshot, epoch, sc, halone, -, hreply⟩ := h
  have hneed : sc.needValues = needValues := halone.same.needValues
  rw [← hneed]
  obtain ⟨-, hraised⟩ | ⟨-, -, -, -, -, -, hstop⟩ | ⟨row, rest, -, hstate, -, hrow⟩ :=
    RocksDBScan.alone_reply hreply
  · cases hraised
  · cases hstop
  · exact row_yields hrow (halone.onView.batch _ hstate row List.mem_cons_self)

end

/-! ## The walk over the view -/

section Walk

open ScanOrder
open Scan (OrderedCodec Data Item ScanError IteratorType itemOf stored facing items rowVerdict)
open Lmdb (scanOptions storageCodec needValues handOut)
open RocksDBScan (startKeyEncoded)

variable {Seg E W V : Type} [LinearOrder Seg] [LinearOrder E] {c : OrderedCodec Seg E W V}
  {o : Scan.StorageScanOptions c} {t : IteratorType} {encodeValue : V → Option W}
  {it : Iterators E W} {sc : RocksDBScan E Seg W V it.Pos}

/-- What the consumer of a scan has of its rows. -/
def handed (t : IteratorType) (given : List (List Seg × Option V)) : List (Item Seg V) :=
  given.filterMap fun row => handOut t row.1 row.2

omit [LinearOrder Seg] in
theorem handed_append {given : List (List Seg × Option V)} {key : List Seg} {value : Option V}
    {item : Item Seg V} (h : handOut t key value = some item) :
    handed t (given ++ [(key, value)]) = handed t given ++ [item] := by
  rw [handed, List.filterMap_append, handed]
  simp [h]

/-- A reply that goes on with the items of a scan, those of the given rows behind it. -/
def Walked (t : IteratorType) (r : Items (Item Seg V) ScanError)
    (given : List (List Seg × Option V)) : Reply Seg V → Prop
  | .row key value => ∃ item, ∃ later : Items (Item Seg V) ScanError,
      handOut t key value = some item ∧ r = later.after (handed t given ++ [item])
  | .stop => r = (handed t given, none)
  | .raised => ∃ e, r = (handed t given, some e)
  | .StorageTransactionConflictError => True
  | .StorageClosedError => True
  | .value _ => False
  | .bool _ => False

theorem startBound_eq (o : Scan.StorageScanOptions c) (encodeValue : V → Option W) :
    startBound (storageCodec c encodeValue) (scanOptions o) = (startKeyEncoded o).toOption := by
  rw [startBound, startKeyEncoded, scanOptions, storageCodec]
  dsimp only
  cases o.startEncoded with
  | some e => rfl
  | none =>
    cases o.start with
    | none => rfl
    | some k =>
      cases k with
      | nil => rfl
      | cons a k =>
        dsimp only
        cases c.encodeKey (a :: k) <;> rfl

/-- The value that is yielded with a key. -/
def yieldedValue (c : OrderedCodec Seg E W V) (t : IteratorType) (encoded : W) : Option V :=
  if needValues t = true then c.decodeValue encoded else none

theorem handOut_of_ok {key : List Seg} {w : W} {item : Item Seg V}
    (h : itemOf c t key w = .ok item) : handOut t key (yieldedValue c t w) = some item := by
  rw [yieldedValue]
  cases t with
  | keys =>
    cases h
    rfl
  | values =>
    rw [itemOf] at h
    rw [needValues, if_pos rfl]
    cases hv : c.decodeValue w with
    | none =>
      rw [hv] at h
      cases h
    | some value =>
      rw [hv] at h
      cases h
      rfl
  | items =>
    rw [itemOf] at h
    rw [needValues, if_pos rfl]
    cases hv : c.decodeValue w with
    | none =>
      rw [hv] at h
      cases h
    | some value =>
      rw [hv] at h
      cases h
      rfl

/-- A row that no filter turns away. -/
theorem row_yielded (hneed : sc.needValues = needValues t) (key : List Seg) (w : W)
    (rest : List (E × W)) :
    (if sc.needValues = true then
      match c.decodeValue w with
      | none => (sc.ended, some .raised)
      | some value => sc.yielded key (some value) rest
    else sc.yielded key none rest) =
      match itemOf c t key w with
      | .error _ => (sc.ended, some .raised)
      | .ok _ => sc.yielded key (yieldedValue c t w) rest := by
  rw [hneed, yieldedValue]
  cases t with
  | keys => rfl
  | values =>
    rw [itemOf, needValues, if_pos rfl, if_pos rfl]
    cases c.decodeValue w <;> rfl
  | items =>
    rw [itemOf, needValues, if_pos rfl, if_pos rfl]
    cases c.decodeValue w <;> rfl

/-- The turn at a row, by the key of the row. -/
theorem row_eq (hoptions : sc.options = scanOptions o) (hneed : sc.needValues = needValues t)
    (k : c.Key) (w : W) (rest : List (E × W)) :
    sc.row (storageCodec c encodeValue) (k.encoded, w) rest =
      if o.breaks k.key then (sc.ended, some .stop)
      else if o.deep k.key then
        match o.skipBound k.key with
        | none => (sc.ended, some .raised)
        | some b =>
          ({ sc with batchSize := firstBatch sc.options, state := .seeking (some b) }, none)
      else if o.drops k.key then ({ sc with state := .rows rest }, none)
      else if o.reached sc.count then (sc.ended, some .stop)
      else match itemOf c t k.key w with
        | .error _ => (sc.ended, some .raised)
        | .ok _ => sc.yielded k.key (yieldedValue c t w) rest := by
  have hdecode : (storageCodec c encodeValue).decodeKey k.encoded = some k.key :=
    c.decode_encode k.encode_eq
  have hbreak : (sc.options.breakFilter.all fun f => f k.key) = !o.breaks k.key := by
    rw [hoptions]
    exact Lmdb.all_matches o.breakFilter k.key
  have hdrop : (sc.options.filter.all fun f => f k.key) = !o.drops k.key := by
    rw [hoptions]
    exact Lmdb.all_matches o.filter k.key
  have hdeep : sc.options.maxDepth.filter (fun depth => decide (depth < k.key.length)) =
      if o.deep k.key = true then o.maxDepth.map Subtype.val else none := by
    rw [hoptions]
    exact Lmdb.maxDepth_filter k.key
  unfold RocksDBScan.row
  rw [hdecode]
  dsimp only
  rw [hbreak, hdrop, hdeep]
  cases hbreaks : o.breaks k.key with
  | true => rfl
  | false =>
    simp only [Bool.not_false, Bool.true_eq_false, Bool.false_eq_true, reduceIte]
    cases hdeeper : o.deep k.key with
    | true =>
      cases hd : o.maxDepth with
      | none =>
        rw [Scan.StorageScanOptions.deep, hd] at hdeeper
        cases hdeeper
      | some d =>
        have hskip : Lmdb.LMDBStorage.skipBound (Lmdb.storageCodec c encodeValue) (Lmdb.scanOptions o)
            d.1 k.key = o.skipBound k.key := Lmdb.skipBound_scanOptions d hd k.key
        rw [← hoptions] at hskip
        cases hb : o.skipBound k.key <;> simp only [reduceIte, Option.map_some, hskip, hb]
    | false =>
      simp only [Bool.false_eq_true, reduceIte]
      cases hdrops : o.drops k.key with
      | true => rfl
      | false =>
        simp only [Bool.not_false, Bool.true_eq_false, Bool.false_eq_true, reduceIte]
        rw [show (sc.options.limit.any fun limit => decide (limit ≤ (sc.count : Int))) =
          o.reached sc.count by rw [hoptions]; rfl]
        exact congrArg _ (row_yielded hneed k.key w rest)

omit [LinearOrder Seg] [LinearOrder E] in
theorem firstBatch_pos (options : StorageScanOptions E Seg) : 0 < firstBatch options := by
  rw [firstBatch]
  cases options.limit with
  | none => decide
  | some limit =>
    show 0 < (max 1 (min (batchFirst : Int) limit)).toNat
    omega

/-- A scan owes the walk over the rows that are left, behind the items of those it has given. -/
structure Owes (o : Scan.StorageScanOptions c) (t : IteratorType) (data : Data c) (count : Nat)
    (given : List (List Seg × Option V)) (left : List (E × W)) : Prop where
  suffix : left <:+ facing o.reverse (stored data.rows)
  items : items (RocksDBScan.truthy o) t data =
    (walk o.reverse (rowVerdict o t) none (o.leftAfter count) left).after (handed t given)

/-- Where a scan is in the walk. -/
inductive WalkingAt (view : E → Option W) (ahead : Bool → it.Pos → List (E × W))
    (o : Scan.StorageScanOptions c) (t : IteratorType) (data : Data c) :
    ScanAt E W → Option (ScanHandle E W it.Pos) → Nat → Nat → List (List Seg × Option V) → Prop
  | started : WalkingAt view ahead o t data .started none 0 0 []
  | checked {start : Option E} (h : startKeyEncoded o = .ok start) :
      WalkingAt view ahead o t data (.checked start) none 0 0 []
  | seeking {start : Option E} {generation count size : Nat} {pos : Option it.Pos}
      {given : List (List Seg × Option V)} (hsize : 0 < size)
      (howes : Owes o t data count given (ahead o.reverse (seekPos it view o.reverse start))) :
      WalkingAt view ahead o t data (.seeking start) (some ⟨view, generation, pos⟩) count size given
  | fetching {generation count size : Nat} {pos : it.Pos} {given : List (List Seg × Option V)}
      (hsize : 0 < size) (howes : Owes o t data count given (ahead o.reverse pos)) :
      WalkingAt view ahead o t data .fetching (some ⟨view, generation, some pos⟩) count size given
  | rows {rest : List (E × W)} {generation count size : Nat} {pos : it.Pos}
      {given : List (List Seg × Option V)} (hsize : 0 < size)
      (howes : Owes o t data count given (rest ++ ahead o.reverse pos)) :
      WalkingAt view ahead o t data (.rows rest) (some ⟨view, generation, some pos⟩) count size given
  | done {count size : Nat} {given : List (List Seg × Option V)} :
      WalkingAt view ahead o t data .done none count size given

/-- A scan in the walk. -/
structure Walking (view : E → Option W) (ahead : Bool → it.Pos → List (E × W))
    (o : Scan.StorageScanOptions c) (t : IteratorType) (data : Data c)
    (sc : RocksDBScan E Seg W V it.Pos) : Prop where
  options : sc.options = scanOptions o
  needValues : sc.needValues = needValues t
  walking : WalkingAt view ahead o t data sc.state sc.handle sc.count sc.batchSize sc.given

/-- A turn that goes on in the walk. -/
def GoesOn (view : E → Option W) (ahead : Bool → it.Pos → List (E × W))
    (o : Scan.StorageScanOptions c) (t : IteratorType) (data : Data c)
    (given : List (List Seg × Option V)) (r : Turned E Seg W V it.Pos) : Prop :=
  Walking view ahead o t data r.1 ∧ ∀ reply, r.2 = some reply →
    Walked t (items (RocksDBScan.truthy o) t data) given reply

variable {view : E → Option W} {ahead : Bool → it.Pos → List (E × W)} {data : Data c}

theorem GoesOn.silent {given : List (List Seg × Option V)} (h : Walking view ahead o t data sc) :
    GoesOn view ahead o t data given (sc, none) := ⟨h, fun _ heq => by cases heq⟩

theorem GoesOn.ended (hoptions : sc.options = scanOptions o) (hneed : sc.needValues = needValues t)
    {given : List (List Seg × Option V)} {reply : Reply Seg V}
    (h : Walked t (items (RocksDBScan.truthy o) t data) given reply) :
    GoesOn view ahead o t data given (sc.ended, some reply) :=
  ⟨⟨hoptions, hneed, .done⟩, fun _ heq => Option.some.inj heq ▸ h⟩

section Turns

variable (hit : IteratorLaws it c.empty view ahead)
  (hdata : ∀ e w, (e, w) ∈ stored data.rows ↔ view e = some w)
  (hoptions : sc.options = scanOptions o) (hneed : sc.needValues = needValues t)
include hoptions hneed

theorem bounded_goesOn (hhandle : sc.handle = none) (hcount : sc.count = 0)
    (hsize : sc.batchSize = 0) (hgiven : sc.given = []) :
    GoesOn view ahead o t data sc.given (sc.bounded (storageCodec c encodeValue)) := by
  have hbound : startBound (storageCodec c encodeValue) sc.options =
      (startKeyEncoded o).toOption := by
    rw [hoptions]
    exact startBound_eq o encodeValue
  unfold RocksDBScan.bounded
  rw [hbound]
  cases hstart : startKeyEncoded o with
  | error e =>
    refine GoesOn.ended hoptions hneed ⟨e, ?_⟩
    rw [hgiven]
    exact RocksDBScan.items_of_startError hstart t data
  | ok start =>
    refine GoesOn.silent ⟨hoptions, hneed, ?_⟩
    dsimp only
    rw [hhandle, hcount, hsize, hgiven]
    exact .checked hstart

include hit hdata in
theorem opened_goesOn {start : Option E} (hstart : startKeyEncoded o = .ok start) (generation : Nat)
    (hcount : sc.count = 0) (hgiven : sc.given = []) :
    GoesOn view ahead o t data sc.given (sc.opened view generation start) := by
  refine GoesOn.silent ⟨hoptions, hneed, .seeking (firstBatch_pos _) ⟨?_, ?_⟩⟩
  · exact RocksDBScan.start_suffix hit hdata start
  · rw [hcount, hgiven]
    exact RocksDBScan.items_of_start hit hdata hstart t

include hit in
/-- A batch: no rows end the walk, others are the next ones. -/
theorem fetched_goesOn {generation : Nat} {pos : it.Pos} (hsize : 0 < sc.batchSize)
    (howes : Owes o t data sc.count sc.given (ahead o.reverse pos)) :
    GoesOn view ahead o t data sc.given (sc.fetched ⟨view, generation, some pos⟩ pos) := by
  have hreverse : sc.options.reverse = o.reverse := by rw [hoptions]; rfl
  have htaken := hit.nextBatch o.reverse pos sc.batchSize
  have hrest := hit.rest o.reverse pos sc.batchSize
  unfold RocksDBScan.fetched
  dsimp only
  rw [hreverse]
  split
  · rename_i hempty
    have hnone : ahead o.reverse pos = [] := by
      rw [htaken, List.take_eq_nil_iff] at hempty
      exact hempty.resolve_left (by omega)
    refine GoesOn.ended hoptions hneed ?_
    rw [howes.items, hnone, walk]
    exact Items.after_end _ none
  · refine GoesOn.silent ⟨hoptions, hneed,
      .rows (RocksDBScan.nextBatch_pos RocksDBScan.batchSizes hsize) ?_⟩
    rw [hrest, htaken, List.take_append_drop]
    exact howes

include hit hdata in
/-- A row: the walk's verdict on it. -/
theorem row_goesOn {k : c.Key} {w : W} {rest : List (E × W)} {generation : Nat} {pos : it.Pos}
    (hhandle : sc.handle = some ⟨view, generation, some pos⟩) (hsize : 0 < sc.batchSize)
    (howes : Owes o t data sc.count sc.given ((k.encoded, w) :: rest ++ ahead o.reverse pos)) :
    GoesOn view ahead o t data sc.given (sc.row (storageCodec c encodeValue) (k.encoded, w) rest) := by
  have hall : IsListing o.reverse (fun _ => True) view (facing o.reverse (stored data.rows)) :=
    RocksDBScan.facing_listing hdata
  have hnone := behind_none o.reverse k.encoded
  have hverdict := Scan.rowVerdict_encoded o t (k, w)
  have hsuffix : rest ++ ahead o.reverse pos <:+ facing o.reverse (stored data.rows) :=
    (List.suffix_cons _ _).trans howes.suffix
  have hitems := howes.items
  have hstop : walk o.reverse (rowVerdict o t) none (o.leftAfter sc.count)
      ((k.encoded, w) :: (rest ++ ahead o.reverse pos)) = ([], none) →
        GoesOn view ahead o t data sc.given (sc.ended, some .stop) := by
    intro h
    refine GoesOn.ended hoptions hneed ?_
    rw [hitems, List.cons_append, h]
    exact Items.after_end _ none
  rw [Scan.verdict] at hverdict
  rw [row_eq hoptions hneed]
  by_cases hbreaks : o.breaks k.key = true
  · rw [if_pos hbreaks] at hverdict ⊢
    exact hstop (walk_stop hnone hverdict _ _)
  rw [if_neg hbreaks] at hverdict ⊢
  by_cases hdeep : o.deep k.key = true
  · obtain ⟨b, hb, hbefore⟩ := Scan.skipBound_ahead hdeep
    rw [if_pos hdeep, hb] at hverdict
    rw [if_pos hdeep, hb]
    refine GoesOn.silent ⟨hoptions, hneed, ?_⟩
    dsimp only
    rw [hhandle]
    refine .seeking (firstBatch_pos _) ⟨RocksDBScan.start_suffix hit hdata (some b), ?_⟩
    obtain ⟨pre, hpre⟩ : ∃ pre, facing o.reverse (stored data.rows) =
        pre ++ (k.encoded, w) :: (rest ++ ahead o.reverse pos) := by
      obtain ⟨pre, hpre⟩ := howes.suffix
      exact ⟨pre, hpre.symm⟩
    have hrest : ScanOrder.Ascending o.reverse (rest ++ ahead o.reverse pos) := by
      have hsorted := hall.ascending
      rw [hpre] at hsorted
      exact (List.pairwise_cons.1 (List.pairwise_append.1 hsorted).2.1).2
    rw [hitems, List.cons_append, walk_seek hnone hverdict, walk_sought hrest,
      RocksDBScan.ahead_skipBound hit hall hdeep hb,
      RocksDBScan.filter_skipBound (k, w) hall.ascending hpre hdeep hb]
  rw [if_neg hdeep] at hverdict ⊢
  by_cases hdrops : o.drops k.key = true
  · rw [if_pos hdrops] at hverdict ⊢
    refine GoesOn.silent ⟨hoptions, hneed, ?_⟩
    dsimp only
    rw [hhandle]
    refine .rows hsize ⟨hsuffix, ?_⟩
    rw [hitems, List.cons_append, walk_pass hnone hverdict]
  rw [if_neg hdrops] at hverdict ⊢
  by_cases hcount : o.reached sc.count = true
  · rw [if_pos hcount]
    refine hstop ?_
    rw [(o.reached_iff sc.count).1 hcount, walk_done]
  have hleft : o.leftAfter sc.count ≠ some 0 := fun h => hcount ((o.reached_iff sc.count).2 h)
  rw [if_neg hcount]
  cases hitem : itemOf c t k.key w with
  | error e =>
    rw [hitem] at hverdict
    refine GoesOn.ended hoptions hneed ⟨e, ?_⟩
    rw [hitems, List.cons_append, walk_next hnone hleft, hverdict]
    exact Items.after_end _ (some e)
  | ok item =>
    rw [hitem] at hverdict
    have hvalue := handOut_of_ok hitem
    have hlater : items (RocksDBScan.truthy o) t data =
        (walk o.reverse (rowVerdict o t) none (o.leftAfter (sc.count + 1))
          (rest ++ ahead o.reverse pos)).after (handed t sc.given ++ [item]) := by
      rw [hitems, List.cons_append, walk_next hnone hleft, hverdict, Items.after_after,
        o.leftAfter_succ]
    refine ⟨⟨hoptions, hneed, ?_⟩, fun reply heq => ?_⟩
    · show WalkingAt view ahead o t data (.rows rest) sc.handle (sc.count + 1) sc.batchSize
        (sc.given ++ [(k.key, yieldedValue c t w)])
      rw [hhandle]
      exact .rows hsize ⟨hsuffix, by rw [handed_append hvalue]; exact hlater⟩
    · rw [← Option.some.inj heq]
      exact ⟨item, _, hvalue, hlater⟩

end Turns

/-- **A turn** (PROVED): the scan goes on in the walk. -/
theorem alone_goesOn (hit : IteratorLaws it c.empty view ahead)
    (hdata : ∀ e w, (e, w) ∈ stored data.rows ↔ view e = some w)
    (h : Walking view ahead o t data sc) (generation : Nat) :
    GoesOn view ahead o t data sc.given
      (sc.alone (storageCodec c encodeValue) view generation) := by
  obtain ⟨hoptions, hneed, hwalking⟩ := h
  obtain ⟨snapshot, options, need, handle, count, size, given, state⟩ := sc
  dsimp only at hoptions hneed hwalking
  cases hwalking with
  | started => exact bounded_goesOn hoptions hneed rfl rfl rfl rfl
  | checked hstart => exact opened_goesOn hit hdata hoptions hneed hstart generation rfl rfl
  | seeking hsize howes =>
    have hreverse : options.reverse = o.reverse := by rw [hoptions]; rfl
    refine GoesOn.silent ⟨hoptions, hneed, ?_⟩
    dsimp only
    rw [hreverse]
    exact .fetching hsize howes
  | fetching hsize howes => exact fetched_goesOn hit hoptions hneed hsize howes
  | rows hsize howes =>
    rename_i rest generation pos
    cases rest with
    | nil => exact GoesOn.silent ⟨hoptions, hneed, .fetching hsize howes⟩
    | cons row rest =>
      obtain ⟨a, -, rfl⟩ : ∃ a ∈ data.rows, (a.1.encoded, a.2) = row :=
        List.mem_map.1 (Scan.mem_facing.1 (howes.suffix.subset List.mem_cons_self))
      exact row_goesOn hit hdata hoptions hneed rfl hsize howes
  | done => exact GoesOn.silent ⟨hoptions, hneed, .done⟩

theorem alone_walking (hit : IteratorLaws it c.empty view ahead)
    (hdata : ∀ e w, (e, w) ∈ stored data.rows ↔ view e = some w) {snapshot epoch : Nat}
    (h : Alone (storageCodec c encodeValue) view snapshot epoch (scanOptions o) (needValues t) sc) :
    Walking view ahead o t data sc := by
  induction h with
  | begun => exact ⟨rfl, rfl, .started⟩
  | turn _ ih => exact (alone_goesOn hit hdata ih epoch).1

/-- **What comes next is the walk** (PROVED): a row is the next item of the walk over the view, and
when a scan ends, the rows it has given are all of them. -/
theorem next_walks (hit : IteratorLaws it c.empty view ahead)
    (hdata : ∀ e w, (e, w) ∈ stored data.rows ↔ view e = some w)
    {given : List (List Seg × Option V)} {reply : Reply Seg V}
    (h : Next it (storageCodec c encodeValue) view (scanOptions o) (needValues t) given reply) :
    Walked t (items (RocksDBScan.truthy o) t data) given reply := by
  obtain ⟨snapshot, epoch, sc, halone, hgiven, hreply⟩ := h
  rw [← hgiven]
  exact (alone_goesOn hit hdata (alone_walking hit hdata halone) epoch).2 reply hreply

end Walk

end Virtuals.Rocksdb
