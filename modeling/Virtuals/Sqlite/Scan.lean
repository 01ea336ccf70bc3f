/-
  `SQLiteScan` (`storages/sqlite/scan.py`): pages of a table, each a statement of its own.

  A page starts from a bound or after it, ends before the pushed-down stop, and holds so many rows at
  most. Inside a page a deep key is skipped by bisection; past its end the scan asks for the page at the
  bound. The statements do not fail here, and the context stays open.
-/
import Virtuals.Lib.Halving
import Virtuals.Scan.Binary

namespace Virtuals.Sqlite

open ScanOrder Scan Halving

variable {Seg E W V : Type} [LinearOrder Seg] [LinearOrder E] {c : OrderedCodec Seg E W V}

/-! ## The scan -/

def firstPage : Nat := 32

def maxPage : Nat := 1024

def seekPage : Nat := 4

theorem firstPage_pos : 0 < firstPage := by decide

theorem maxPage_pos : 0 < maxPage := by decide

theorem seekPage_pos : 0 < seekPage := by decide

/-- The sizes of the pages. -/
def pageSizes : PageSizes :=
  ⟨firstPage, maxPage, seekPage, firstPage_pos, maxPage_pos, seekPage_pos⟩

/-- `_fetch_page`, over all rows in the direction of the scan. -/
def fetchPage (o : StorageScanOptions c) (all : List (E × W)) (bound : Option E) (inclusive : Bool)
    (far : Option E) (page : Nat) : List (E × W) :=
  (all.filter fun r => decide (InRange o.reverse bound inclusive far r.1)).take page

/-- The test that `_first_past` bisects by. -/
def past (rows : List (E × W)) (bound : E) (reverse : Bool) (mid : Nat) : Bool :=
  rows[mid]?.any fun row => if reverse then decide (row.1 ≤ bound) else decide (bound ≤ row.1)

/-- `_first_past`. -/
def firstPast (rows : List (E × W)) (lo : Nat) (bound : E) (reverse : Bool) : Nat :=
  search (past rows bound reverse) (rows.length - lo) lo rows.length

/-- How the rows of a page ended. -/
inductive PageEnd (E : Type)
  /-- the loop ran to the end of the page -/
  | finished
  /-- `return` -/
  | returned
  /-- `break`: the bound lies past the page; with the rows that were walked -/
  | jumped (skip : E) (walked : Nat)
  | raised (e : ScanError)

/-- The loop over the rows of a page. -/
def pageRows (o : StorageScanOptions c) (t : IteratorType) (rows : List (E × W)) :
    Nat → Nat → Nat → Nat → List (Item Seg V) × Nat × PageEnd E
  | 0, _, _, count => ([], count, .finished)
  | fuel + 1, i, walked, count =>
    match rows[i]? with
    | none => ([], count, .finished)
    | some row =>
      match c.decodeKey row.1 with
      | none => ([], count, .raised .StorageOperationError)
      | some key =>
        if o.breaks key then ([], count, .returned)
        else if o.deep key then
          match o.skipBound key with
          | none => ([], count, .raised .codecError)
          | some skip =>
            let i := firstPast rows (i + 1) skip o.reverse
            if i < rows.length then pageRows o t rows fuel i walked count
            else ([], count, .jumped skip walked)
        else if o.drops key then pageRows o t rows fuel (i + 1) (walked + 1) count
        else if o.reached count then ([], count, .returned)
        else match itemOf c t key row.2 with
          | .error e => ([], count, .raised e)
          | .ok item =>
            let later := pageRows o t rows fuel (i + 1) (walked + 1) (count + 1)
            (item :: later.1, later.2)

/-- `while True`, for as many pages as there is fuel. -/
def pages (sizes : PageSizes) (o : StorageScanOptions c) (t : IteratorType) (all : List (E × W))
    (far : Option E) : Nat → Option E → Bool → Nat → Nat → Option (Items (Item Seg V) ScanError)
  | 0, _, _, _, _ => none
  | fuel + 1, bound, inclusive, page, count =>
    let rows := fetchPage o all bound inclusive far page
    if rows.isEmpty then some ([], none)
    else
      let (items, count, ending) := pageRows o t rows (rows.length + 1) 0 0 count
      match ending with
      | .returned => some (items, none)
      | .raised e => some (items, some e)
      | .jumped skip walked =>
        if rows.length < page then some (items, none)
        else
          let page := if walked ≤ 1 then sizes.seek else min (page * 2) sizes.most
          (pages sizes o t all far fuel (some skip) true page count).map (Items.after items)
      | .finished =>
        if rows.length < page then some (items, none)
        else
          let last := rows.getLast?.map Prod.fst
          (pages sizes o t all far fuel last false (min (page * 2) sizes.most) count).map
            (Items.after items)

/-- `_encoded_bounds`. -/
def encodedBounds (o : StorageScanOptions c) : Except ScanError (Option E × Option E) :=
  o.startBound.map fun start => (start, o.prefixStop)

/-- The size of the first page. -/
def pageSize (sizes : PageSizes) (o : StorageScanOptions c) : Nat :=
  match o.limit, o.filter with
  | some limit, none => (max 1 (min (sizes.first : Int) limit)).toNat
  | _, _ => sizes.first

/-- `_iterate_impl`, with pages of any sizes. -/
def iterate (sizes : PageSizes) (o : StorageScanOptions c) (t : IteratorType) (data : Data c)
    (fuel : Nat) : Option (Items (Item Seg V) ScanError) :=
  match encodedBounds o with
  | .error e => some ([], some e)
  | .ok (bound, far) =>
    pages sizes o t (facing o.reverse (stored data.rows)) far fuel bound true (pageSize sizes o) 0

/-- `_iterate_impl`. -/
def iterateImpl (o : StorageScanOptions c) (t : IteratorType) (data : Data c) (fuel : Nat) :
    Option (Items (Item Seg V) ScanError) := iterate pageSizes o t data fuel

/-! ## Bisection -/

theorem pageSize_pos (sizes : PageSizes) (o : StorageScanOptions c) : 0 < pageSize sizes o := by
  rw [pageSize]
  split
  · rename_i limit _ _
    show 0 < (max 1 (min (sizes.first : Int) limit)).toNat
    omega
  · exact sizes.first_pos

theorem nextPage_pos (sizes : PageSizes) {page : Nat} (h : 0 < page) :
    0 < min (page * 2) sizes.most := by
  have := sizes.most_pos
  omega

variable {sizes : PageSizes} {o : StorageScanOptions c} {t : IteratorType} {rows rest : List (E × W)}

theorem past_eq {bound : E} {reverse : Bool} {i : Nat} {row : E × W} (h : rows[i]? = some row) :
    past rows bound reverse i = !behind reverse (some bound) row.1 := by
  rw [past, h, not_behind, Option.any_some]
  cases reverse with
  | false =>
    rw [if_neg Bool.false_ne_true]
    exact decide_eq_decide.2 not_lt.symm
  | true =>
    rw [if_pos rfl]
    exact decide_eq_decide.2 not_lt.symm

/-- Bisection finds the rows of a page from a bound on. -/
theorem firstPast_spec (h : Ascending o.reverse rows) (lo : Nat) (hlo : lo ≤ rows.length)
    (bound : E) :
    lo ≤ firstPast rows lo bound o.reverse ∧ firstPast rows lo bound o.reverse ≤ rows.length ∧
      rows.drop (firstPast rows lo bound o.reverse) =
        (rows.drop lo).filter fun r => !behind o.reverse (some bound) r.1 := by
  have hfirst : FirstFrom (past rows bound o.reverse) lo rows.length
      (firstPast rows lo bound o.reverse) := by
    refine search_first hlo (Nat.le_refl _) ?_
    intro i j _ hij hj hpast
    have hi : i < rows.length := by omega
    rw [past_eq (List.getElem?_eq_getElem hi), Bool.not_eq_true'] at hpast
    rw [past_eq (List.getElem?_eq_getElem hj), Bool.not_eq_true', Bool.eq_false_iff]
    intro hbehind
    obtain heq | hlt := Nat.eq_or_lt_of_le hij
    · subst heq
      rw [hbehind] at hpast
      cases hpast
    · rw [behind_of_before (List.pairwise_iff_getElem.1 h i j hi hj hlt) hbehind] at hpast
      cases hpast
  exact ⟨hfirst.from_lo, hfirst.to_hi, hfirst.drop_eq fun i x hx => past_eq hx⟩

/-! ## The rows of a page -/

/-- What is still to come after the rows of a page. -/
def resume (o : StorageScanOptions c) (t : IteratorType) (rest : List (E × W)) :
    List (Item Seg V) × Nat × PageEnd E → Items (Item Seg V) ScanError
  | (items, count, .finished) =>
    (walk o.reverse (rowVerdict o t) none (o.leftAfter count) rest).after items
  | (items, count, .jumped skip _) =>
    (walk o.reverse (rowVerdict o t) none (o.leftAfter count)
      (rest.filter fun r => !behind o.reverse (some skip) r.1)).after items
  | (items, _, .returned) => (items, none)
  | (items, _, .raised e) => (items, some e)

theorem resume_cons (o : StorageScanOptions c) (t : IteratorType) (rest : List (E × W))
    (item : Item Seg V) (later : List (Item Seg V) × Nat × PageEnd E) :
    resume o t rest (item :: later.1, later.2) = (resume o t rest later).after [item] := by
  obtain ⟨items, count, ending⟩ := later
  cases ending <;> rfl

/-- A bisection that lands inside a page leaves the rows there, and all rows past the page. -/
theorem filter_jump (hsorted : Ascending o.reverse (rows ++ rest)) {i : Nat} (hi : i < rows.length)
    (skip : E) : (rows.drop (i + 1) ++ rest).filter (fun r => !behind o.reverse (some skip) r.1) =
      rows.drop (firstPast rows (i + 1) skip o.reverse) ++
        if firstPast rows (i + 1) skip o.reverse < rows.length then rest
        else rest.filter fun r => !behind o.reverse (some skip) r.1 := by
  obtain ⟨hrows, -, hrest⟩ := List.pairwise_append.1 hsorted
  obtain ⟨-, -, hdrop⟩ := firstPast_spec hrows (i + 1) hi skip
  rw [List.filter_append, ← hdrop]
  refine congrArg _ ?_
  by_cases hin : firstPast rows (i + 1) skip o.reverse < rows.length
  · rw [if_pos hin]
    refine List.filter_eq_self.2 ?_
    intro r hr
    have hmem : rows[firstPast rows (i + 1) skip o.reverse] ∈
        (rows.drop (i + 1)).filter fun r => !behind o.reverse (some skip) r.1 := by
      rw [← hdrop, List.drop_eq_getElem_cons hin]
      exact List.mem_cons_self
    obtain ⟨hrow, hfrom⟩ := List.mem_filter.1 hmem
    rw [Bool.not_eq_true'] at hfrom ⊢
    rw [Bool.eq_false_iff]
    intro hbehind
    rw [behind_of_before (hrest _ (List.mem_of_mem_drop hrow) r hr) hbehind] at hfrom
    cases hfrom
  · rw [if_neg hin]

/-- **The rows of a page** (PROVED): from any of them on they do what the walk does. -/
theorem pageRows_walk (hknown : ∀ row ∈ rows, ∃ a : c.Key × W, row = (a.1.encoded, a.2))
    (hsorted : Ascending o.reverse (rows ++ rest)) (fuel i walked count : Nat)
    (hfuel : rows.length - i < fuel) :
    walk o.reverse (rowVerdict o t) none (o.leftAfter count) (rows.drop i ++ rest) =
      resume o t rest (pageRows o t rows fuel i walked count) := by
  induction fuel generalizing i walked count with
  | zero => omega
  | succ fuel ih =>
    rw [pageRows]
    by_cases hi : i < rows.length
    swap
    · rw [List.getElem?_eq_none (Nat.le_of_not_lt hi), List.drop_eq_nil_of_le (Nat.le_of_not_lt hi)]
      exact (Items.after_nil _).symm
    obtain ⟨a, ha⟩ := hknown _ (List.getElem_mem hi)
    have hnone := behind_none o.reverse a.1.encoded
    have hverdict := rowVerdict_encoded o t a
    rw [verdict] at hverdict
    rw [List.getElem?_eq_getElem hi, List.drop_eq_getElem_cons hi, ha, List.cons_append]
    dsimp only
    rw [c.decode_encode a.1.encode_eq]
    dsimp only
    by_cases hbreaks : o.breaks a.1.key = true
    · rw [if_pos hbreaks] at hverdict
      rw [if_pos hbreaks, walk_stop hnone hverdict]
      rfl
    rw [if_neg hbreaks] at hverdict
    rw [if_neg hbreaks]
    by_cases hdeep : o.deep a.1.key = true
    · obtain ⟨b, hb, -⟩ := skipBound_ahead hdeep
      rw [if_pos hdeep, hb] at hverdict
      have hlater : Ascending o.reverse (rows.drop (i + 1) ++ rest) :=
        hsorted.sublist ((List.drop_sublist _ rows).append_right rest)
      have hspec := firstPast_spec (List.pairwise_append.1 hsorted).1 (i + 1) hi b
      rw [if_pos hdeep, hb, walk_seek hnone hverdict, walk_sought hlater, filter_jump hsorted hi b]
      dsimp only
      by_cases hin : firstPast rows (i + 1) b o.reverse < rows.length
      · rw [if_pos hin, if_pos hin]
        exact ih _ walked count (by omega)
      · rw [if_neg hin, if_neg hin, List.drop_eq_nil_of_le (Nat.le_of_not_lt hin)]
        rfl
    rw [if_neg hdeep] at hverdict
    rw [if_neg hdeep]
    by_cases hdrops : o.drops a.1.key = true
    · rw [if_pos hdrops] at hverdict
      rw [if_pos hdrops, walk_pass hnone hverdict]
      exact ih (i + 1) (walked + 1) count (by omega)
    rw [if_neg hdrops] at hverdict
    rw [if_neg hdrops]
    by_cases hcount : o.reached count = true
    · rw [if_pos hcount, (o.reached_iff count).1 hcount, walk_done]
      rfl
    have hleft : o.leftAfter count ≠ some 0 := fun h => hcount ((o.reached_iff count).2 h)
    rw [if_neg hcount, walk_next hnone hleft, hverdict]
    cases itemOf c t a.1.key a.2 with
    | error e => rfl
    | ok item =>
      dsimp only
      rw [resume_cons, ← ih (i + 1) (walked + 1) (count + 1) (by omega), o.leftAfter_succ]

/-- A page that a jump leaves lies before the bound as a whole. -/
theorem pageRows_jumped (hknown : ∀ row ∈ rows, ∃ a : c.Key × W, row = (a.1.encoded, a.2))
    (hsorted : Ascending o.reverse rows) {fuel i walked count n w : Nat}
    {items : List (Item Seg V)} {skip : E}
    (h : pageRows o t rows fuel i walked count = (items, n, .jumped skip w)) :
    (∃ row ∈ rows, Before o.reverse row.1 skip) ∧
      ∀ row ∈ rows, behind o.reverse (some skip) row.1 = true := by
  induction fuel generalizing i walked count items n with
  | zero => cases h
  | succ fuel ih =>
    rw [pageRows] at h
    by_cases hi : i < rows.length
    swap
    · rw [List.getElem?_eq_none (Nat.le_of_not_lt hi)] at h
      cases h
    obtain ⟨a, ha⟩ := hknown _ (List.getElem_mem hi)
    rw [List.getElem?_eq_getElem hi, ha] at h
    dsimp only at h
    rw [c.decode_encode a.1.encode_eq] at h
    dsimp only at h
    by_cases hbreaks : o.breaks a.1.key = true
    · rw [if_pos hbreaks] at h
      cases h
    rw [if_neg hbreaks] at h
    by_cases hdeep : o.deep a.1.key = true
    · obtain ⟨b, hb, hahead⟩ := skipBound_ahead hdeep
      rw [if_pos hdeep, hb] at h
      dsimp only at h
      obtain ⟨-, -, hdrop⟩ := firstPast_spec hsorted (i + 1) hi b
      by_cases hin : firstPast rows (i + 1) b o.reverse < rows.length
      · rw [if_pos hin] at h
        exact ih h
      rw [if_neg hin] at h
      cases h
      rw [List.drop_eq_nil_of_le (Nat.le_of_not_lt hin), eq_comm, List.filter_eq_nil_iff] at hdrop
      have hrow : Before o.reverse rows[i].1 skip := by
        rw [ha]
        exact hahead
      refine ⟨⟨rows[i], List.getElem_mem hi, hrow⟩, ?_⟩
      intro r hr
      obtain ⟨j, hj, rfl⟩ := List.mem_iff_getElem.1 hr
      obtain hlt | hle := Nat.lt_or_ge i j
      · have hmem : rows[j] ∈ rows.drop (i + 1) := by
          refine List.mem_iff_getElem.2 ⟨j - (i + 1), by rw [List.length_drop]; omega, ?_⟩
          rw [List.getElem_drop]
          congr 1
          omega
        have hbehind := hdrop _ hmem
        rw [Bool.not_eq_true', Bool.not_eq_false] at hbehind
        exact hbehind
      · refine behind_some.2 ?_
        obtain heq | hlt := Nat.eq_or_lt_of_le hle
        · subst heq
          exact hrow
        · exact before_trans (List.pairwise_iff_getElem.1 hsorted j i hj hi hlt) hrow
    rw [if_neg hdeep] at h
    by_cases hdrops : o.drops a.1.key = true
    · rw [if_pos hdrops] at h
      exact ih h
    rw [if_neg hdrops] at h
    by_cases hcount : o.reached count = true
    · rw [if_pos hcount] at h
      cases h
    rw [if_neg hcount] at h
    cases hitem : itemOf c t a.1.key a.2 with
    | error e =>
      rw [hitem] at h
      cases h
    | ok item =>
      rw [hitem] at h
      dsimp only at h
      have hending : (pageRows o t rows fuel (i + 1) (walked + 1) (count + 1)).2 =
          (n, .jumped skip w) := congrArg Prod.snd h
      exact ih (Prod.ext rfl hending)

/-! ## Pages -/

/-- **Pages** (PROVED): whatever their sizes, they hand out what the walk over the rows ahead does, and
each brings the scan closer to its end. -/
theorem pages_walk {all : List (E × W)} (hsorted : Ascending o.reverse all)
    (hknown : ∀ row ∈ all, ∃ a : c.Key × W, row = (a.1.encoded, a.2)) {far : Option E}
    (fuel : Nat) (bound : Option E) (inclusive : Bool) (page count : Nat)
    (hfuel : (ahead o.reverse all bound inclusive far).length < fuel) (hpage : 0 < page) :
    pages sizes o t all far fuel bound inclusive page count =
      some (walk o.reverse (rowVerdict o t) none (o.leftAfter count)
        (ahead o.reverse all bound inclusive far)) := by
  induction fuel generalizing bound inclusive page count with
  | zero => omega
  | succ fuel ih =>
    obtain ⟨rows, hrows⟩ : ∃ rows, rows = fetchPage o all bound inclusive far page := ⟨_, rfl⟩
    obtain ⟨rest, hrest⟩ : ∃ rest, rest = (ahead o.reverse all bound inclusive far).drop page := ⟨_, rfl⟩
    have hsplit : ahead o.reverse all bound inclusive far = rows ++ rest := by
      rw [hrows, hrest]
      exact (List.take_append_drop page _).symm
    have hpageRows : Ascending o.reverse (rows ++ rest) := by
      rw [← hsplit]
      exact hsorted.filter _
    have hshort : rows.length < page → rest = [] := by
      intro h
      rw [hrows, fetchPage, List.length_take] at h
      rw [hrest]
      refine List.drop_eq_nil_of_le ?_
      rw [ahead]
      omega
    have hstored : ∀ row ∈ rows, ∃ a : c.Key × W, row = (a.1.encoded, a.2) := by
      intro row hrow
      rw [hrows] at hrow
      exact hknown row (List.mem_of_mem_filter (List.mem_of_mem_take hrow))
    rw [pages, ← hrows]
    dsimp only
    by_cases hempty : rows = []
    · have hnone : ahead o.reverse all bound inclusive far = [] := by
        rw [hsplit, hempty, hshort (by rw [hempty]; exact hpage)]
        rfl
      rw [hempty, if_pos List.isEmpty_nil, hnone, walk]
    have hwalk := pageRows_walk (t := t) hstored hpageRows (rows.length + 1) 0 0 count (by omega)
    rw [List.drop_zero] at hwalk
    rw [if_neg (by rw [List.isEmpty_iff]; exact hempty), hsplit, hwalk]
    cases hpr : pageRows o t rows (rows.length + 1) 0 0 count with
    | mk items later =>
      obtain ⟨n, ending⟩ := later
      cases ending with
      | returned => rfl
      | raised e => rfl
      | finished =>
        dsimp only
        by_cases hlast : rows.length < page
        · rw [if_pos hlast, resume, hshort hlast, walk, Items.after, List.append_nil]
        · obtain ⟨before, row, hconcat⟩ := (List.eq_nil_or_concat' rows).resolve_left hempty
          have hahead : ahead o.reverse all bound inclusive far = before ++ row :: rest := by
            rw [hsplit, hconcat, List.append_assoc, List.singleton_append]
          have hasc : Ascending o.reverse (ahead o.reverse all bound inclusive far) :=
            hsorted.filter _
          have hlastin : row ∈ ahead o.reverse all bound inclusive far := by
            rw [hahead]
            exact List.mem_append_right before List.mem_cons_self
          have hpast := ahead_after all (mem_ahead.1 hlastin).2
          rw [filter_past hasc hahead] at hpast
          have hless : (ahead o.reverse all (some row.1) false far).length < fuel := by
            rw [hahead, List.length_append, List.length_cons] at hfuel
            rw [hpast]
            omega
          rw [if_neg hlast, hconcat, List.getLast?_concat, Option.map_some,
            ih _ _ _ n hless (nextPage_pos sizes hpage), hpast]
          rfl
      | jumped skip w =>
        obtain ⟨⟨row, hrow, hskip⟩, hall⟩ :=
          pageRows_jumped hstored (List.pairwise_append.1 hpageRows).1 hpr
        dsimp only
        by_cases hlast : rows.length < page
        · rw [if_pos hlast, resume, hshort hlast, List.filter_nil, walk, Items.after,
            List.append_nil]
        · have hin : row ∈ ahead o.reverse all bound inclusive far := by
            rw [hsplit]
            exact List.mem_append_left rest hrow
          have hfrom := ahead_from all (mem_ahead.1 hin).2 hskip
          have hnone : rows.filter (fun r => !behind o.reverse (some skip) r.1) = [] := by
            refine List.filter_eq_nil_iff.2 ?_
            intro r hr
            rw [hall r hr]
            decide
          have hless : (ahead o.reverse all (some skip) true far).length < fuel := by
            rw [hfrom]
            have := length_filter_from hin hskip
            omega
          rw [hsplit, List.filter_append, hnone, List.nil_append] at hfrom
          rw [if_neg hlast, ih _ _ _ n hless, hfrom]
          · rfl
          · split
            · exact sizes.seek_pos
            · exact nextPage_pos sizes hpage

/-! ## The whole scan -/

/-- Pages of any sizes hand out the items of the walk, and end. -/
theorem iterate_items (sizes : PageSizes) (o : StorageScanOptions c) (t : IteratorType)
    (data : Data c) (fuel : Nat) (hfuel : data.rows.length < fuel) :
    iterate sizes o t data fuel = some (items o t data) := by
  rw [iterate, encodedBounds]
  cases hbound : o.startBound with
  | error e =>
    rw [items_of_error hbound]
    rfl
  | ok bound =>
    have hsorted : Ascending o.reverse (facing o.reverse (stored data.rows)) := facing_ascending data
    have hknown : ∀ row ∈ facing o.reverse (stored data.rows),
        ∃ a : c.Key × W, row = (a.1.encoded, a.2) := by
      intro row hrow
      obtain ⟨a, -, ha⟩ := List.mem_map.1 (mem_facing.1 hrow)
      exact ⟨a, ha.symm⟩
    have hless : (ahead o.reverse (facing o.reverse (stored data.rows)) bound true o.prefixStop).length <
        fuel := by
      refine lt_of_le_of_lt length_ahead_le ?_
      rw [length_facing, stored, List.length_map]
      exact hfuel
    rw [items_eq_walk hbound]
    dsimp only [Except.map]
    -- the rows beyond the stop are those at which the walk would end
    have hwithin := walk_within (range_ascending o bound data)
      (fun row => stop_of_beyond (t := t)) none o.left
    rw [pages_walk hsorted hknown fuel bound true _ 0 hless (pageSize_pos sizes o), ahead_eq,
      o.leftAfter_zero]
    exact congrArg some hwithin

/-- **SQLite scans** (PROVED): whatever the limit, the filters, the depth and the rows, the pages of a
scan hand out the items of the walk in key order, and end. -/
theorem iterateImpl_items (o : StorageScanOptions c) (t : IteratorType) (data : Data c) (fuel : Nat)
    (hfuel : data.rows.length < fuel) : iterateImpl o t data fuel = some (items o t data) :=
  iterate_items pageSizes o t data fuel hfuel

/-- A page of four rows ends below a deep key; the next one starts at the key above it. -/
theorem iterateImpl_items_siteRows :
    siteRows.rows.length < 12 ∧
      iterateImpl siteScan .items siteRows 12 =
        some ([.pair [.int 1, .int 8] 18, .pair [.int 1, .int 7] 17, .pair [.int 1, .int 5] 15,
          .pair [.int 1, .int 3] 13], none) :=
  ⟨by decide, (iterateImpl_items siteScan .items siteRows 12 (by decide)).trans
    (congrArg some items_siteScan)⟩

end Virtuals.Sqlite
