/-
  `LMDBScan` (`storages/lmdb/scan.py`), advanced to its end.

  A cursor stands on a row. What LMDB documents of `first`, `last`, `set_range`, `next` and `prev` is
  one shape each, the first row in a direction of those that qualify (`FirstOf`). A reverse seek is put
  together from three of them. `drain` advances a scan turn by turn, with no other call in between.
-/
import Virtuals.Lmdb.Transaction
import Virtuals.Scan.Binary

namespace Virtuals.Lmdb

open ScanOrder
open Scan (OrderedCodec Data Item ScanError IteratorType itemOf stored facing verdict
  rowVerdict items)

variable {Seg E W V : Type} [LinearOrder Seg] [LinearOrder E]

/-! ## Cursors -/

/-- A cursor on a row of the map. -/
def Stands (cu : Cursors E W) (m : E → Option W) (p : cu.Pos) (row : E × W) : Prop :=
  cu.key m p = some row.1 ∧ cu.value m p = row.2 ∧ m row.1 = some row.2

/-- A move to the first row, in a direction, of those with a key in `P`; `none` where there is none. -/
def FirstOf (cu : Cursors E W) (m : E → Option W) (rev : Bool) (P : E → Prop) :
    Option cu.Pos → Prop
  | none => ∀ e, (m e).isSome → ¬ P e
  | some p => ∃ row, Stands cu m p row ∧ P row.1 ∧ ∀ e, (m e).isSome → P e → ¬ Before rev e row.1

/-- What LMDB promises of its cursors. -/
structure CursorLaws (cu : Cursors E W) (m : E → Option W) : Prop where
  first : FirstOf cu m false (fun _ => True) (cu.first m)
  last : FirstOf cu m true (fun _ => True) (cu.last m)
  setRange : ∀ b, FirstOf cu m false (b ≤ ·) (cu.setRange m b)
  next : ∀ {p row}, Stands cu m p row → FirstOf cu m false (row.1 < ·) (cu.next m p)
  prev : ∀ {p row}, Stands cu m p row → FirstOf cu m true (· < row.1) (cu.prev m p)

variable {cu : Cursors E W} {m : E → Option W}

theorem FirstOf.congr {rev : Bool} {P Q : E → Prop} {p : Option cu.Pos}
    (h : FirstOf cu m rev P p) (hPQ : ∀ e, (m e).isSome → (P e ↔ Q e)) : FirstOf cu m rev Q p := by
  cases p with
  | none =>
    intro e he hq
    exact h e he ((hPQ e he).2 hq)
  | some p =>
    obtain ⟨row, hrow, hp, hfirst⟩ := h
    have hin : (m row.1).isSome := by rw [hrow.2.2]; rfl
    refine ⟨row, hrow, (hPQ row.1 hin).1 hp, ?_⟩
    intro e he hq
    exact hfirst e he ((hPQ e he).2 hq)

/-- `_seek` goes to the first row from its bound, in either direction. -/
theorem seek_first (h : CursorLaws cu m) (rev : Bool) (bound : Option E) :
    FirstOf cu m rev (FromBound rev bound true) (LMDBStorage.seek m rev bound) := by
  cases rev with
  | false =>
    cases bound with
    | none => exact h.first
    | some b => exact (h.setRange b).congr fun e _ => not_lt.symm
  | true =>
    cases bound with
    | none => exact h.last
    | some b =>
      have hrange := h.setRange b
      rw [LMDBStorage.seek]
      cases hpos : cu.setRange m b with
      | none =>
        rw [hpos] at hrange
        refine h.last.congr ?_
        intro e he
        exact iff_of_true trivial (fun hbe => hrange e he (le_of_lt hbe))
      | some p =>
        rw [hpos] at hrange
        obtain ⟨row, hrow, hle, hfirst⟩ := hrange
        dsimp only
        rw [hrow.1]
        by_cases heq : some row.1 = some b
        · rw [if_pos heq]
          have heq : row.1 = b := Option.some.inj heq
          refine ⟨row, hrow, ?_, ?_⟩
          · rw [heq]
            exact lt_irrefl b
          · intro e _ he hbefore
            rw [heq] at hbefore
            exact he hbefore
        · rw [if_neg heq]
          have hlt : b < row.1 := lt_of_le_of_ne hle (fun h => heq (congrArg some h.symm))
          -- no row lies from the bound to where `set_range` landed
          refine (h.prev hrow).congr ?_
          intro e he
          constructor
          · intro hbelow hbe
            exact hfirst e he (le_of_lt hbe) hbelow
          · intro hfrom
            exact lt_of_le_of_lt (not_lt.1 hfrom) hlt

/-- `_advance` goes to the first row after its own, in either direction. -/
theorem advance_first (h : CursorLaws cu m) (rev : Bool) {p : cu.Pos} {row : E × W}
    (hp : Stands cu m p row) :
    FirstOf cu m rev (Before rev row.1) (LMDBStorage.advance m p rev) := by
  cases rev with
  | false => exact h.next hp
  | true => exact h.prev hp

/-! ## The rows ahead -/

/-- A cursor on the first of the rows ahead; none where there are none. -/
def Ahead (cu : Cursors E W) (m : E → Option W) : Option cu.Pos → List (E × W) → Prop
  | none, rows => rows = []
  | some p, rows => ∃ row later, rows = row :: later ∧ Stands cu m p row

/-- The rows that qualify, from the first of them. -/
theorem FirstOf.ahead {rev : Bool} {all : List (E × W)} (hsorted : Ascending rev all)
    (hall : ∀ e w, (e, w) ∈ all ↔ m e = some w) {P : E → Prop} [DecidablePred P] {p : Option cu.Pos}
    (h : FirstOf cu m rev P p) : Ahead cu m p (all.filter fun r => decide (P r.1)) := by
  have hin : ∀ r ∈ all, (m r.1).isSome := by
    intro r hr
    rw [(hall r.1 r.2).1 hr]
    rfl
  cases p with
  | none =>
    refine List.filter_eq_nil_iff.2 ?_
    intro r hr hP
    exact h r.1 (hin r hr) (of_decide_eq_true hP)
  | some p =>
    obtain ⟨row, hrow, hP, hfirst⟩ := h
    have hmem : row ∈ all.filter fun r => decide (P r.1) :=
      List.mem_filter.2 ⟨(hall row.1 row.2).2 hrow.2.2, decide_eq_true hP⟩
    cases hrows : all.filter fun r => decide (P r.1) with
    | nil =>
      rw [hrows] at hmem
      cases hmem
    | cons head later =>
      have hhead : head ∈ all.filter fun r => decide (P r.1) := by
        rw [hrows]
        exact List.mem_cons_self
      obtain ⟨hheadall, hheadP⟩ := List.mem_filter.1 hhead
      have hasc : Ascending rev (head :: later) := by
        rw [← hrows]
        exact hsorted.filter _
      rw [hrows] at hmem
      obtain heq | hlater := List.mem_cons.1 hmem
      · exact ⟨head, later, rfl, heq ▸ hrow⟩
      · exact absurd ((List.pairwise_cons.1 hasc).1 row hlater)
          (hfirst head.1 (hin head hheadall) (of_decide_eq_true hheadP))

/-! ## One turn -/

variable {c : OrderedCodec Seg E W V}

/-- The options of a scan, as the transaction reads them. -/
def scanOptions (o : Scan.StorageScanOptions c) : StorageScanOptions E Seg where
  start := o.start
  reverse := o.reverse
  limit := o.limit
  filter := o.filter.map Scan.Filter.matches
  breakFilter := o.breakFilter.map Scan.Filter.matches
  startEncoded := o.startEncoded
  maxDepth := o.maxDepth.map Subtype.val

/-- The codec of the storage. -/
def storageCodec (c : OrderedCodec Seg E W V) (encodeValue : V → Option W) : Codec E Seg W V where
  encodeKey := c.encodeKey
  decodeKey := c.decodeKey
  upperBoundOfPrefix := c.upperBoundOfPrefix
  encodeValue := encodeValue
  decodeValue := c.decodeValue

/-- `need_values`. -/
def needValues : IteratorType → Bool
  | .keys => false
  | .values | .items => true

/-- What is yielded of a row. -/
def handOut : IteratorType → List Seg → Option V → Option (Item Seg V)
  | .keys, key, _ => some (.key key)
  | .values, _, some value => some (.value value)
  | .items, key, some value => some (.pair key value)
  | .values, _, none => none
  | .items, _, none => none

variable {o : Scan.StorageScanOptions c} {t : IteratorType} {encodeValue : V → Option W}

theorem all_matches (f : Option (Scan.Filter Seg)) (key : List Seg) :
    ((f.map Scan.Filter.matches).all fun f => f key) = !(f.any fun f => !f.matches key) := by
  cases f with
  | none => rfl
  | some f => exact (Bool.not_not _).symm

theorem skipBound_scanOptions (d : { n : Nat // 1 ≤ n }) (hd : o.maxDepth = some d)
    (key : List Seg) : LMDBStorage.skipBound (storageCodec c encodeValue) (scanOptions o) d.1 key =
      o.skipBound key := by
  rw [LMDBStorage.skipBound, Scan.StorageScanOptions.skipBound, Scan.StorageScanOptions.ancestor, hd]
  rfl

theorem maxDepth_filter (key : List Seg) :
    (scanOptions o).maxDepth.filter (fun depth => decide (depth < key.length)) =
      if o.deep key = true then o.maxDepth.map Subtype.val else none := by
  rw [Scan.StorageScanOptions.deep, scanOptions]
  dsimp only
  cases o.maxDepth with
  | none => rfl
  | some d => rfl

/-- The row that is yielded at a key that no filter turns away. -/
def rowTurn (c : OrderedCodec Seg E W V) (t : IteratorType) (key : List Seg) (encoded : W) :
    LMDBStorage.Turn Seg V cu.Pos :=
  if needValues t = true then
    match c.decodeValue encoded with
    | none => .error
    | some value => .row key (some value)
  else .row key none

/-- A turn of `_next_row` does what the verdict on its row says. -/
theorem nextRow_eq {p : cu.Pos} {k : c.Key} {w : W} (hp : Stands cu m p (k.encoded, w)) :
    LMDBStorage.nextRow (storageCodec c encodeValue) m (scanOptions o) (needValues t) p =
      match verdict o t k.key w with
      | .stop => .none
      | .seek bound =>
        match LMDBStorage.seek m o.reverse (some bound) with
        | none => .none
        | some p => .on p
      | .pass =>
        match LMDBStorage.advance m p o.reverse with
        | none => .none
        | some p => .on p
      | .give _ | .fail _ => rowTurn c t k.key w := by
  have hdecode : (storageCodec c encodeValue).decodeKey k.encoded = some k.key :=
    c.decode_encode k.encode_eq
  have hbreak : ((scanOptions o).breakFilter.all fun f => f k.key) = !o.breaks k.key :=
    all_matches o.breakFilter k.key
  have hdrop : ((scanOptions o).filter.all fun f => f k.key) = !o.drops k.key :=
    all_matches o.filter k.key
  rw [LMDBStorage.nextRow, hp.1]
  dsimp only
  rw [hdecode, verdict]
  dsimp only
  rw [hbreak, hdrop, maxDepth_filter, hp.2.1]
  cases hbreaks : o.breaks k.key with
  | true => rfl
  | false =>
    simp only [Bool.not_false, Bool.true_eq_false, Bool.false_eq_true, reduceIte]
    cases hdeep : o.deep k.key with
    | true =>
      obtain ⟨b, hb, -⟩ := Scan.skipBound_ahead hdeep
      cases hd : o.maxDepth with
      | none =>
        rw [Scan.StorageScanOptions.deep, hd] at hdeep
        cases hdeep
      | some d =>
        simp only [reduceIte, Option.map_some, skipBound_scanOptions d hd, hb]
        rfl
    | false =>
      simp only [Bool.false_eq_true, reduceIte]
      cases hdrops : o.drops k.key with
      | true => rfl
      | false =>
        simp only [Bool.not_false, Bool.true_eq_false, Bool.false_eq_true, reduceIte]
        cases itemOf c t k.key w <;> rfl

theorem rowTurn_of_ok (cu : Cursors E W) {key : List Seg} {w : W} {item : Item Seg V}
    (h : itemOf c t key w = .ok item) : ∃ value,
      (rowTurn c t key w : LMDBStorage.Turn Seg V cu.Pos) = .row key value ∧
        handOut t key value = some item := by
  cases t with
  | keys =>
    cases h
    exact ⟨none, rfl, rfl⟩
  | values =>
    rw [itemOf] at h
    rw [rowTurn, needValues, if_pos rfl]
    cases hv : c.decodeValue w with
    | none =>
      rw [hv] at h
      cases h
    | some value =>
      rw [hv] at h
      cases h
      exact ⟨some value, rfl, rfl⟩
  | items =>
    rw [itemOf] at h
    rw [rowTurn, needValues, if_pos rfl]
    cases hv : c.decodeValue w with
    | none =>
      rw [hv] at h
      cases h
    | some value =>
      rw [hv] at h
      cases h
      exact ⟨some value, rfl, rfl⟩

theorem rowTurn_of_error {key : List Seg} {w : W} {e : ScanError}
    (h : itemOf c t key w = .error e) :
    (rowTurn c t key w : LMDBStorage.Turn Seg V cu.Pos) = .error := by
  cases t with
  | keys => cases h
  | values =>
    rw [itemOf] at h
    rw [rowTurn, needValues, if_pos rfl]
    cases hv : c.decodeValue w with
    | none => rfl
    | some value =>
      rw [hv] at h
      cases h
  | items =>
    rw [itemOf] at h
    rw [rowTurn, needValues, if_pos rfl]
    cases hv : c.decodeValue w with
    | none => rfl
    | some value =>
      rw [hv] at h
      cases h

/-! ## The turns of a scan -/

/-- A scan of an open transaction on a map. -/
structure Scanning (cu : Cursors E W) (m : E → Option W) (o : Scan.StorageScanOptions c)
    (t : IteratorType) (id : Nat) (s : LMDBStorage E Seg W cu.Pos) (state : At cu.Pos) : Prop where
  closed : s.txn.closed = false
  live : s.txn.lmdbTxn = some m
  scan : s.txn.scans id = some ⟨scanOptions o, needValues t, state⟩

variable {id : Nat} {s s' : LMDBStorage E Seg W cu.Pos} {state : At cu.Pos}

theorem requireActive_live (h : s.requireActive = (s', .ok m)) :
    s'.txn.closed = false ∧ s'.txn.lmdbTxn = some m := by
  rw [LMDBStorage.requireActive] at h
  dsimp only at h
  by_cases hclosed : s.txn.closed = true
  · rw [if_pos hclosed] at h
    cases h
  rw [if_neg hclosed] at h
  have hopen : s.txn.closed = false := Bool.eq_false_iff.2 hclosed
  cases hlive : s.txn.lmdbTxn with
  | some m' =>
    rw [hlive] at h
    cases h
    exact ⟨hopen, hlive⟩
  | none =>
    rw [hlive] at h
    cases hpending : s.txn.pending with
    | none =>
      rw [hpending] at h
      cases h
    | some pending =>
      rw [hpending] at h
      cases h
      exact ⟨hopen, rfl⟩

theorem Scanning.requireActive (h : Scanning cu m o t id s state) :
    s.requireActive = (s, .ok m) := by
  rw [LMDBStorage.requireActive]
  dsimp only
  rw [h.closed, h.live]
  rfl

theorem scanning_setScan (o : Scan.StorageScanOptions c) (t : IteratorType) (id : Nat)
    (hclosed : s.txn.closed = false) (hlive : s.txn.lmdbTxn = some m) (state : At cu.Pos) :
    Scanning cu m o t id (s.setScan id ⟨scanOptions o, needValues t, state⟩) state :=
  ⟨hclosed, hlive, Function.update_self id _ s.txn.scans⟩

theorem Scanning.withActive (h : Scanning cu m o t id s state)
    (f : (E → Option W) → At cu.Pos × Reply Seg V) :
    s.withActive id ⟨scanOptions o, needValues t, state⟩ f =
      (s.setScan id ⟨scanOptions o, needValues t, (f m).1⟩, (f m).2) := by
  rw [LMDBStorage.withActive, h.requireActive]

/-- The items of a scan, with the error that this backend raises. -/
def raising (r : Items (Item Seg V) ScanError) : Items (Item Seg V) StorageError :=
  (r.1, r.2.map fun _ => .StorageOperationError)

/-- What a scan has still to hand out, and in how many turns at most. -/
inductive Owes (cu : Cursors E W) (m : E → Option W) (o : Scan.StorageScanOptions c)
    (t : IteratorType) (all : List (E × W)) :
    At cu.Pos → Nat → Items (Item Seg V) ScanError → Prop
  | top {p : cu.Pos} {count : Nat} {rows : List (E × W)} (hsuffix : rows <:+ all)
      (hp : Ahead cu m (some p) rows) :
      Owes cu m o t all (.top p count) (3 * rows.length + 1)
        (walk o.reverse (rowVerdict o t) none (o.leftAfter count) rows)
  | looking {p : cu.Pos} {count : Nat} {rows : List (E × W)} (hsuffix : rows <:+ all)
      (hp : Ahead cu m (some p) rows) (hleft : o.leftAfter count ≠ some 0) :
      Owes cu m o t all (.looking p count) (3 * rows.length)
        (walk o.reverse (rowVerdict o t) none (o.leftAfter count) rows)
  | yielded {p : cu.Pos} {count : Nat} {row : E × W} {later : List (E × W)}
      (hsuffix : row :: later <:+ all) (hp : Stands cu m p row) :
      Owes cu m o t all (.yielded p count) (3 * later.length + 2)
        (walk o.reverse (rowVerdict o t) none (o.leftAfter (count + 1)) later)

/-- A turn of a scan that owes items: it hands one out, or owes the same in fewer turns, or ends. -/
def Delivers (cu : Cursors E W) (m : E → Option W) (o : Scan.StorageScanOptions c)
    (t : IteratorType) (id : Nat) (all : List (E × W)) (n : Nat)
    (owed : Items (Item Seg V) ScanError) : LMDBStorage E Seg W cu.Pos × Reply Seg V → Prop
  | (s, .row key value) => ∃ item state n' later, handOut t key value = some item ∧ n' < n ∧
      Scanning cu m o t id s state ∧ Owes cu m o t all state n' later ∧ owed = later.after [item]
  | (s, .unit) => ∃ state n', n' < n ∧ Scanning cu m o t id s state ∧ Owes cu m o t all state n' owed
  | (_, .stop) => owed = ([], none)
  | (_, .error e) => e = .StorageOperationError ∧ ∃ e', owed = ([], some e')
  | (_, .value _) => False
  | (_, .bool _) => False

theorem Scanning.turn_top {p : cu.Pos} {count : Nat} (h : Scanning cu m o t id s (.top p count))
    (codec : Codec E Seg W V) : s.turn codec id =
      if o.reached count = true then
        (s.setScan id ⟨scanOptions o, needValues t, .done⟩, .stop)
      else (s.setScan id ⟨scanOptions o, needValues t, .looking p count⟩, .unit) := by
  rw [LMDBStorage.turn, h.scan]
  rfl

/-- What a turn in `_next_row` comes to. -/
def looked (count : Nat) (p : cu.Pos) : LMDBStorage.Turn Seg V cu.Pos → At cu.Pos × Reply Seg V
  | .on pos => (.looking pos count, .unit)
  | .row key value => (.yielded p count, .row key value)
  | .none => (.done, .stop)
  | .error => (.done, .error .StorageOperationError)

theorem Scanning.turn_looking {p : cu.Pos} {count : Nat}
    (h : Scanning cu m o t id s (.looking p count)) (codec : Codec E Seg W V) :
    let r := looked count p (LMDBStorage.nextRow codec m (scanOptions o) (needValues t) p)
    s.turn codec id = (s.setScan id ⟨scanOptions o, needValues t, r.1⟩, r.2) := by
  rw [LMDBStorage.turn, h.scan]
  dsimp only
  rw [h.withActive]
  cases LMDBStorage.nextRow codec m (scanOptions o) (needValues t) p <;> rfl

/-- What a move to the next row comes to. -/
def moved (count : Nat) : Option cu.Pos → At cu.Pos × Reply Seg V
  | none => (.done, .stop)
  | some pos => (.top pos count, .unit)

theorem Scanning.turn_yielded {p : cu.Pos} {count : Nat}
    (h : Scanning cu m o t id s (.yielded p count)) (codec : Codec E Seg W V) :
    let r := moved (count + 1) (LMDBStorage.advance m p o.reverse)
    s.turn codec id = (s.setScan id ⟨scanOptions o, needValues t, r.1⟩, r.2) := by
  rw [LMDBStorage.turn, h.scan]
  dsimp only
  rw [h.withActive]
  show _ = (s.setScan id ⟨_, _, (moved (count + 1) (LMDBStorage.advance m p o.reverse)).1⟩, _)
  cases hmove : LMDBStorage.advance m p o.reverse <;> simp [scanOptions, hmove, moved]

theorem startBound_eq (o : Scan.StorageScanOptions c) (encodeValue : V → Option W) :
    LMDBStorage.startBound (storageCodec c encodeValue) (scanOptions o) =
      o.startBound.toOption := by
  rw [LMDBStorage.startBound, Scan.StorageScanOptions.startBound, scanOptions, storageCodec]
  dsimp only
  cases o.startEncoded with
  | some e => rfl
  | none =>
    cases o.start with
    | none => rfl
    | some k =>
      dsimp only
      cases c.encodeKey k <;> rfl

theorem Scanning.turn_created (h : Scanning cu m o t id s .created) {bound : Option E}
    (hbound : o.startBound = .ok bound) :
    let r := moved 0 (LMDBStorage.seek m o.reverse bound)
    s.turn (storageCodec c encodeValue) id =
      (s.setScan id ⟨scanOptions o, needValues t, r.1⟩, r.2) := by
  rw [LMDBStorage.turn, h.scan]
  dsimp only
  rw [startBound_eq, hbound]
  dsimp only [Except.toOption]
  rw [h.withActive]
  cases hseek : LMDBStorage.seek m o.reverse bound <;> simp [scanOptions, hseek, moved]

/-- A scan whose start cannot be encoded. -/
theorem Scanning.turn_failed (h : Scanning cu m o t id s .created) {e : ScanError}
    (hbound : o.startBound = .error e) : s.turn (storageCodec c encodeValue) id =
      (s.setScan id ⟨scanOptions o, needValues t, .done⟩, .error .StorageOperationError) := by
  rw [LMDBStorage.turn, h.scan]
  dsimp only
  rw [startBound_eq, hbound]
  rfl

section Turns

variable {all : List (E × W)} (hcu : CursorLaws cu m) (hsorted : Ascending o.reverse all)
  (hlisted : ∀ e w, (e, w) ∈ all ↔ m e = some w)
include hcu hsorted hlisted

/-- Moving past a row leaves the rows after it. -/
theorem advance_ahead {p : cu.Pos} {row : E × W} {later : List (E × W)}
    (hsuffix : row :: later <:+ all) (hp : Stands cu m p row) :
    Ahead cu m (LMDBStorage.advance m p o.reverse) later := by
  obtain ⟨pre, hpre⟩ := hsuffix
  have hahead := (advance_first hcu o.reverse hp).ahead hsorted hlisted
  rw [filter_past hsorted hpre.symm] at hahead
  exact hahead

/-- Seeking past a row leaves the rows from the bound on, fewer than before. -/
theorem seek_ahead {row : E × W} {later : List (E × W)} (hsuffix : row :: later <:+ all) {b : E}
    (hb : Before o.reverse row.1 b) : ∃ rows, Ahead cu m (LMDBStorage.seek m o.reverse (some b)) rows ∧
      rows <:+ all ∧ rows.length ≤ later.length ∧ ∀ left,
        walk o.reverse (rowVerdict o t) (some b) left later =
          walk o.reverse (rowVerdict o t) none left rows := by
  obtain ⟨pre, hpre⟩ := hsuffix
  have hrest := filter_from_rest hsorted hpre.symm List.mem_cons_self hb
  rw [List.filter_cons_of_neg (by rw [behind_some.2 hb]; decide)] at hrest
  have hlater : Ascending o.reverse later := by
    rw [← hpre] at hsorted
    exact (List.pairwise_cons.1 (List.pairwise_append.1 hsorted).2.1).2
  have hahead := (seek_first hcu o.reverse (some b)).ahead hsorted hlisted
  simp only [← not_behind] at hahead
  refine ⟨_, hahead, filter_from_suffix hsorted (some b), ?_, ?_⟩
  · rw [hrest]
    exact List.length_filter_le _ _
  · intro left
    rw [walk_sought hlater, hrest]

/-- **A turn** (PROVED): the scan hands out the next item it owes, or comes closer to it, or ends as the
walk does. -/
theorem turn_delivers (encodeValue : V → Option W) {known : List (c.Key × W)}
    (hknown : all = Scan.stored known) {n : Nat}
    {owed : Items (Item Seg V) ScanError} (h : Scanning cu m o t id s state)
    (howes : Owes cu m o t all state n owed) :
    Delivers cu m o t id all n owed (s.turn (storageCodec c encodeValue) id) := by
  have hscan := fun state => scanning_setScan o t id h.closed h.live state
  cases howes with
  | top hsuffix hp =>
    rename_i p count rows
    rw [h.turn_top]
    by_cases hreached : o.reached count = true
    · rw [if_pos hreached, (o.reached_iff count).1 hreached, walk_done]
      rfl
    · rw [if_neg hreached]
      have hleft : o.leftAfter count ≠ some 0 := fun hleft => hreached ((o.reached_iff count).2 hleft)
      exact ⟨_, _, Nat.lt_succ_self _, hscan _, .looking hsuffix hp hleft⟩
  | yielded hsuffix hp =>
    rename_i p count row later
    have hahead := advance_ahead hcu hsorted hlisted hsuffix hp
    have hlater : later <:+ all := (List.suffix_cons row later).trans hsuffix
    rw [h.turn_yielded]
    cases hmove : LMDBStorage.advance m p o.reverse with
    | none =>
      rw [hmove] at hahead
      rw [show later = [] from hahead, walk]
      rfl
    | some q =>
      rw [hmove] at hahead
      exact ⟨_, _, Nat.lt_succ_self _, hscan _, .top hlater hahead⟩
  | looking hsuffix hp hleft =>
    rename_i p count rows
    obtain ⟨row, later, rfl, hrow⟩ := hp
    obtain ⟨a, ha, rfl⟩ : ∃ a ∈ known, (a.1.encoded, a.2) = row := by
      have hmem := hsuffix.subset List.mem_cons_self
      rw [hknown] at hmem
      exact List.mem_map.1 hmem
    have hlater : later <:+ all := (List.suffix_cons _ later).trans hsuffix
    rw [h.turn_looking, nextRow_eq hrow, walk_next (behind_none o.reverse a.1.encoded) hleft,
      Scan.rowVerdict_encoded]
    cases hv : verdict o t a.1.key a.2 with
    | stop => rfl
    | fail e =>
      dsimp only
      rw [rowTurn_of_error (Scan.verdict_fail hv)]
      exact ⟨rfl, e, rfl⟩
    | give item =>
      obtain ⟨value, hturn, hitem⟩ := rowTurn_of_ok cu (Scan.verdict_give hv)
      dsimp only
      rw [hturn, o.leftAfter_succ]
      refine ⟨item, _, _, _, hitem, ?_, hscan _, .yielded hsuffix hrow, rfl⟩
      rw [List.length_cons]
      omega
    | seek b =>
      obtain ⟨rows, hahead, hrows, hshort, hwalk⟩ :=
        seek_ahead (t := t) hcu hsorted hlisted hsuffix (Scan.verdict_seek hv)
      dsimp only
      rw [hwalk]
      cases hseek : LMDBStorage.seek m o.reverse (some b) with
      | none =>
        rw [hseek] at hahead
        rw [show rows = [] from hahead, walk]
        rfl
      | some q =>
        rw [hseek] at hahead
        refine ⟨_, _, ?_, hscan _, .looking hrows hahead hleft⟩
        rw [List.length_cons]
        omega
    | pass =>
      have hahead := advance_ahead hcu hsorted hlisted hsuffix hrow
      dsimp only
      cases hmove : LMDBStorage.advance m p o.reverse with
      | none =>
        rw [hmove] at hahead
        rw [show later = [] from hahead, walk]
        rfl
      | some q =>
        rw [hmove] at hahead
        refine ⟨_, _, ?_, hscan _, .looking hlater hahead hleft⟩
        rw [List.length_cons]
        omega

end Turns

/-! ## The whole scan -/

/-- The iteration of a scan to its end, for as many turns as there is fuel. -/
def drain (codec : Codec E Seg W V) (t : IteratorType) (id : Nat) :
    Nat → LMDBStorage E Seg W cu.Pos → Option (Items (Item Seg V) StorageError)
  | 0, _ => none
  | fuel + 1, s =>
    match s.turn codec id with
    | (s, .row key value) =>
      (drain codec t id fuel s).map (Items.after (handOut t key value).toList)
    | (_, .stop) => some ([], none)
    | (_, .error e) => some ([], some e)
    | (s, .unit) | (s, .value _) | (s, .bool _) => drain codec t id fuel s

theorem drain_owed {all : List (E × W)} (hcu : CursorLaws cu m) (hsorted : Ascending o.reverse all)
    (hlisted : ∀ e w, (e, w) ∈ all ↔ m e = some w) {known : List (c.Key × W)}
    (hknown : all = Scan.stored known) (fuel : Nat) {n : Nat} (hfuel : n < fuel)
    {owed : Items (Item Seg V) ScanError} (h : Scanning cu m o t id s state)
    (howes : Owes cu m o t all state n owed) :
    drain (storageCodec c encodeValue) t id fuel s = some (raising owed) := by
  induction fuel generalizing n owed s state with
  | zero => omega
  | succ fuel ih =>
    have hturn := turn_delivers hcu hsorted hlisted encodeValue hknown h howes
    rw [drain]
    cases hr : s.turn (storageCodec c encodeValue) id with
    | mk s' reply =>
      rw [hr] at hturn
      cases reply with
      | unit =>
        obtain ⟨state', n', hless, h', howes'⟩ := hturn
        exact ih (by omega) h' howes'
      | row key value =>
        obtain ⟨item, state', n', later, hitem, hless, h', howes', rfl⟩ := hturn
        dsimp only
        rw [ih (by omega) h' howes', hitem]
        rfl
      | stop =>
        rw [show owed = ([], none) from hturn]
        rfl
      | error e =>
        obtain ⟨rfl, e', rfl⟩ := hturn
        rfl
      | value v => exact hturn.elim
      | bool b => exact hturn.elim

/-- A scan that has just been created hands out the items of the walk. -/
theorem drain_created (encodeValue : V → Option W) (hcu : CursorLaws cu m) (data : Data c)
    (hdata : ∀ e w, (e, w) ∈ stored data.rows ↔ m e = some w)
    (hcreated : Scanning cu m o t id s .created) (fuel : Nat)
    (hfuel : 3 * data.rows.length + 2 < fuel) :
    drain (storageCodec c encodeValue) t id fuel s = some (raising (items o t data)) := by
  obtain ⟨fuel, rfl⟩ : ∃ n, fuel = n + 1 := ⟨fuel - 1, by omega⟩
  have hsorted : Ascending o.reverse (facing o.reverse (stored data.rows)) :=
    Scan.facing_ascending data
  have hlisted : ∀ e w, (e, w) ∈ facing o.reverse (stored data.rows) ↔ m e = some w := by
    intro e w
    rw [Scan.mem_facing, hdata]
  rw [drain]
  cases hbound : o.startBound with
  | error e =>
    rw [hcreated.turn_failed hbound, Scan.items_of_error hbound]
    rfl
  | ok bound =>
    have hahead := (seek_first hcu o.reverse bound).ahead hsorted hlisted
    rw [hcreated.turn_created hbound, Scan.items_eq_walk hbound]
    cases hseek : LMDBStorage.seek m o.reverse bound with
    | none =>
      rw [hseek] at hahead
      have hnone : Scan.range o bound (stored data.rows) = [] := hahead
      rw [hnone]
      rfl
    | some p =>
      rw [hseek] at hahead
      have howes : Owes cu m o t _ (.top p 0) _ _ :=
        .top (suffix_of_bound hsorted bound) hahead
      have hshort := (suffix_of_bound hsorted bound).length_le
      rw [Scan.length_facing, stored, List.length_map] at hshort
      dsimp only [moved]
      rw [drain_owed hcu hsorted hlisted (Scan.stored_facing o.reverse data.rows).symm fuel
        (by rw [stored]; omega) (scanning_setScan o t id hcreated.closed hcreated.live _) howes,
        o.leftAfter_zero]
      rfl

/-- **LMDB scans** (PROVED): on cursors that keep what LMDB promises, a scan hands out the items of the
walk in key order, and ends, whether the transaction had begun or was pending. -/
theorem drain_items (encodeValue : V → Option W) {cu : Cursors E W} {m : E → Option W}
    (hcu : CursorLaws cu m) (data : Data c)
    (hdata : ∀ e w, (e, w) ∈ stored data.rows ↔ m e = some w)
    {s s' : LMDBStorage E Seg W cu.Pos} (hactive : s.requireActive = (s', .ok m))
    (o : Scan.StorageScanOptions c) (t : IteratorType) (id fuel : Nat)
    (hfuel : 3 * data.rows.length + 2 < fuel) :
    drain (storageCodec c encodeValue) t id fuel
        (s.scan id (scanOptions o) (needValues t) : _ × Reply Seg V).1 =
      some (raising (items o t data)) := by
  obtain ⟨hclosed, hlive⟩ := requireActive_live hactive
  rw [LMDBStorage.scan, hactive]
  exact drain_created encodeValue hcu data hdata (scanning_setScan o t id hclosed hlive .created)
    fuel hfuel

/-! ## Cursors on given keys -/

/-- Cursors that find the rows of a map by given keys, in the order of the keys. -/
def keyCursors (keys : List E) (value : W) : Cursors E W where
  Pos := E
  first := fun m => keys.find? fun e => (m e).isSome
  last := fun m => keys.reverse.find? fun e => (m e).isSome
  setRange := fun m b => keys.find? fun e => decide (b ≤ e) && (m e).isSome
  next := fun m p => keys.find? fun e => decide (p < e) && (m e).isSome
  prev := fun m p => keys.reverse.find? fun e => decide (e < p) && (m e).isSome
  key := fun _ p => some p
  value := fun m p => (m p).getD value

theorem keyCursors_firstOf {keys sorted : List E} {value : W} (rev : Bool)
    (hsorted : sorted.Pairwise (Before rev)) (hkeys : ∀ e, (m e).isSome → e ∈ sorted)
    (P : E → Prop) [DecidablePred P] : FirstOf (keyCursors keys value) m rev P
      (sorted.find? fun e : E => decide (P e) && (m e).isSome : Option E) := by
  cases hfind : sorted.find? (fun e => decide (P e) && (m e).isSome) with
  | none =>
    intro e he hP
    have hnot := List.find?_eq_none.1 hfind e (hkeys e he)
    rw [he, decide_eq_true hP] at hnot
    exact hnot rfl
  | some p =>
    obtain ⟨hp, before, after, hsplit, hbefore⟩ := List.find?_eq_some_iff_append.1 hfind
    rw [Bool.and_eq_true, decide_eq_true_iff] at hp
    obtain ⟨w, hw⟩ := Option.isSome_iff_exists.1 hp.2
    have hvalue : (keyCursors keys value).value m p = w := by
      show (m p).getD value = w
      rw [hw, Option.getD_some]
    refine ⟨(p, w), ⟨rfl, hvalue, hw⟩, hp.1, ?_⟩
    intro e he hP hfirst
    have hmem := hkeys e he
    rw [hsplit, List.mem_append, List.mem_cons] at hmem
    rw [hsplit, List.pairwise_append] at hsorted
    obtain hmem | heq | hmem := hmem
    · have hnot := hbefore e hmem
      rw [he, decide_eq_true hP] at hnot
      cases hnot
    · rw [heq] at hfirst
      exact before_irrefl rev p hfirst
    · exact before_asymm hfirst ((List.pairwise_cons.1 hsorted.2.1).1 e hmem)

/-- They keep the promises. -/
theorem keyCursors_laws {keys : List E} (value : W) (hsorted : keys.Pairwise (· < ·))
    (hkeys : ∀ e, (m e).isSome → e ∈ keys) : CursorLaws (keyCursors keys value) m := by
  have hreverse : keys.reverse.Pairwise (Before true) := List.pairwise_reverse.2 hsorted
  have hmem : ∀ e, (m e).isSome → e ∈ keys.reverse := fun e he => List.mem_reverse.2 (hkeys e he)
  refine ⟨?_, ?_, fun b => ?_, fun {p row} hp => ?_, fun {p row} hp => ?_⟩
  · exact keyCursors_firstOf false hsorted hkeys fun _ => True
  · exact keyCursors_firstOf true hreverse hmem fun _ => True
  · exact keyCursors_firstOf false hsorted hkeys (b ≤ ·)
  · obtain rfl : p = row.1 := Option.some.inj hp.1
    exact keyCursors_firstOf false hsorted hkeys (row.1 < ·)
  · obtain rfl : p = row.1 := Option.some.inj hp.1
    exact keyCursors_firstOf true hreverse hmem (· < row.1)

section SiteRows

open Scan (below eighth siteRows siteScan Encoding)
open KeyCodec (KeySegment)

/-- The eighth child of the site is not there yet, and there is a ninth. -/
def siteBase : Encoding → Option Nat :=
  Function.update (Function.update siteRows.lookup eighth.encoded none)
    (below [.int 9] (by decide)).encoded (some 19)

/-- A pending transaction that puts the one and deletes the other. -/
def sitePending :
    LMDBStorage Encoding KeySegment Nat (keyCursors ((stored siteRows.rows).map Prod.fst) 0).Pos :=
  let codec := storageCodec (Scan.binaryCodec (some : Nat → Option Nat)) some
  let s := (LMDBStorage.beginLazy siteBase).put codec (fun _ => true) [.int 1, .int 8] (some 18)
  (s.1.delete codec (fun _ => true) [.int 1, .int 9]).1

theorem sitePending_requireActive :
    sitePending.requireActive = (sitePending.requireActive.1, .ok siteRows.lookup) := by
  refine Prod.ext rfl (congrArg Except.ok (funext fun e => ?_))
  show Function.update (Function.update siteBase eighth.encoded (some 18))
    (below [.int 9] (by decide)).encoded none e = siteRows.lookup e
  by_cases hninth : e = (below [.int 9] (by decide)).encoded
  · rw [hninth, Function.update_self]
    rfl
  rw [Function.update_of_ne hninth]
  by_cases heighth : e = eighth.encoded
  · rw [heighth, Function.update_self]
    rfl
  rw [Function.update_of_ne heighth, siteBase, Function.update_of_ne hninth,
    Function.update_of_ne heighth]

/-- The scan begins the transaction, passes over a subtree, and ends at its limit. -/
theorem drain_items_siteRows :
    drain (storageCodec (Scan.binaryCodec some) some) .items 0 36
        (sitePending.scan 0 (scanOptions siteScan) (needValues .items) : _ × Reply KeySegment Nat).1 =
      some ([.pair [.int 1, .int 8] 18, .pair [.int 1, .int 7] 17, .pair [.int 1, .int 5] 15,
        .pair [.int 1, .int 3] 13], none) :=
  (drain_items some (keyCursors_laws 0 siteRows.pairwise_encoded siteRows.mem_encoded) siteRows
    (fun _ _ => siteRows.mem_stored) sitePending_requireActive siteScan .items 0 36 (by decide)).trans
    (congrArg (fun r => some (raising r)) Scan.items_siteScan)

end SiteRows

end Virtuals.Lmdb
