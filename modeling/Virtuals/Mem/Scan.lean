/-
  `InMemoryScan` (`storages/mem/scan.py`): pages of a context's view.

  A page is what `_page` of the context returns: rows up to a cover, from which the scan reads on. A row
  carries its key beside its encoding. A deep key ends a page, and the next one starts at the bound of
  its subtree. The context stays open.
-/
import Virtuals.Mem.Serial
import Virtuals.Scan.Options

namespace Virtuals.Mem

open ScanOrder
open Scan (OrderedCodec StorageScanOptions PageSizes Data Item ScanError IteratorType itemOf stored
  facing verdict rowVerdict items)

variable {Seg E W V : Type} [LinearOrder Seg] [LinearOrder E] {c : OrderedCodec Seg E W V}

/-! ## The scan -/

def firstPage : Nat := 32

def maxPage : Nat := 1024

theorem firstPage_pos : 0 < firstPage := by decide

theorem maxPage_pos : 0 < maxPage := by decide

/-- The sizes of the pages; a seek does not change them. -/
def pageSizes : PageSizes :=
  ⟨firstPage, maxPage, firstPage, firstPage_pos, maxPage_pos, firstPage_pos⟩

/-- `_page` of a context: from a bound, inclusive, reverse, so many rows, up to a stop. -/
abbrev PageOf (Seg E W : Type) := Option E → Bool → Bool → Nat → Option E →
  List (E × List Seg × W) × Option E × Bool

/-- How the rows of a page ended. -/
inductive PageEnd (E : Type)
  /-- the loop ran to the end of the page -/
  | finished
  /-- `return` -/
  | returned
  /-- `break`, with `skip_to` -/
  | skipTo (bound : E)
  | raised (e : ScanError)

/-- The loop over the rows of a page, with how many items were handed out. -/
def pageRows (o : StorageScanOptions c) (t : IteratorType) :
    Nat → List (E × List Seg × W) → List (Item Seg V) × Nat × PageEnd E
  | count, [] => ([], count, .finished)
  | count, row :: rows =>
    let key := row.2.1
    if o.breaks key then ([], count, .returned)
    else if o.deep key then
      match o.skipBound key with
      | none => ([], count, .raised .codecError)
      | some bound => ([], count, .skipTo bound)
    else if o.drops key then pageRows o t count rows
    else match itemOf c t key row.2.2 with
      | .error e => ([], count, .raised e)
      | .ok item =>
        if o.limit = some ((count + 1 : Nat) : Int) then ([item], count + 1, .returned)
        else
          let later := pageRows o t (count + 1) rows
          (item :: later.1, later.2)

/-- `while True`, for as many pages as there is fuel. -/
def pages (sizes : PageSizes) (o : StorageScanOptions c) (t : IteratorType)
    (pageOf : PageOf Seg E W) (stop : Option E) :
    Nat → Option E → Bool → Nat → Nat → Option (Items (Item Seg V) ScanError)
  | 0, _, _, _, _ => none
  | fuel + 1, bound, inclusive, page, count =>
    let (rows, cover, done) := pageOf bound inclusive o.reverse page stop
    let (items, count, ending) := pageRows o t count rows
    match ending with
    | .returned => some (items, none)
    | .raised e => some (items, some e)
    | .skipTo bound =>
      (pages sizes o t pageOf stop fuel (some bound) true page count).map (Items.after items)
    | .finished =>
      if done then some (items, none)
      else (pages sizes o t pageOf stop fuel cover false (min (page * 2) sizes.most) count).map
        (Items.after items)

/-- `_bounds`. -/
def bounds (o : StorageScanOptions c) : Except ScanError (Option E × Option E) :=
  o.startBound.map fun start => (start, o.prefixStop)

/-- The size of the first page. -/
def pageSize (sizes : PageSizes) (o : StorageScanOptions c) : Nat :=
  match o.limit, o.filter with
  | some limit, none => (max 1 (min (sizes.first : Int) limit)).toNat
  | _, _ => sizes.first

/-- `_iterate_impl`, with pages of any sizes. -/
def iterate (sizes : PageSizes) (o : StorageScanOptions c) (t : IteratorType)
    (pageOf : PageOf Seg E W) (fuel : Nat) : Option (Items (Item Seg V) ScanError) :=
  if o.limit.any (fun limit => decide (limit ≤ 0)) then some ([], none)
  else match bounds o with
    | .error e => some ([], some e)
    | .ok (bound, stop) => pages sizes o t pageOf stop fuel bound true (pageSize sizes o) 0

/-- `_iterate_impl`. -/
def iterateImpl (o : StorageScanOptions c) (t : IteratorType) (pageOf : PageOf Seg E W)
    (fuel : Nat) : Option (Items (Item Seg V) ScanError) := iterate pageSizes o t pageOf fuel

/-! ## The rows of a page -/

variable {sizes : PageSizes} {o : StorageScanOptions c} {t : IteratorType}

theorem pageSize_pos (sizes : PageSizes) (o : StorageScanOptions c) : 0 < pageSize sizes o := by
  rw [pageSize]
  split
  · rename_i limit _ _
    show 0 < (max 1 (min (sizes.first : Int) limit)).toNat
    omega
  · exact sizes.first_pos

theorem nextPage_pos (sizes : PageSizes) {page : Nat} (h : 0 < page) :
    0 < min (page * 2) sizes.most := by
  have := sizes.most_pos
  omega

/-- What a scan does at a row. -/
def memVerdict (o : StorageScanOptions c) (t : IteratorType) (row : E × List Seg × W) :
    Verdict E (Item Seg V) ScanError := verdict o t row.2.1 row.2.2

/-- The rows of a page, and how they ended, against what the walk over the rows ahead hands out. -/
def PageOk (o : StorageScanOptions c) (t : IteratorType) (ahead rest : List (E × List Seg × W))
    (owed : Items (Item Seg V) ScanError) : List (Item Seg V) × Nat × PageEnd E → Prop
  | (items, count, .finished) => o.reached count = false ∧
      owed = (walk o.reverse (memVerdict o t) none (o.leftAfter count) rest).after items
  | (items, count, .skipTo bound) => o.reached count = false ∧
      (∃ row ∈ ahead, Before o.reverse row.1 bound) ∧
      owed = (walk o.reverse (memVerdict o t) none (o.leftAfter count)
        (ahead.filter fun r => !behind o.reverse (some bound) r.1)).after items
  | (items, _, .returned) => owed = (items, none)
  | (items, _, .raised e) => owed = (items, some e)

theorem PageOk.cons {ahead rest : List (E × List Seg × W)} {owed : Items (Item Seg V) ScanError}
    {later : List (Item Seg V) × Nat × PageEnd E} (h : PageOk o t ahead rest owed later)
    (item : Item Seg V) : PageOk o t ahead rest (owed.after [item]) (item :: later.1, later.2) := by
  obtain ⟨items, count, ending⟩ := later
  cases ending with
  | finished => exact ⟨h.1, congrArg (Items.after [item]) h.2⟩
  | returned => exact congrArg (Items.after [item]) h
  | skipTo bound => exact ⟨h.1, h.2.1, congrArg (Items.after [item]) h.2.2⟩
  | raised e => exact congrArg (Items.after [item]) h

/-- Handing out one more, unless that was the last, leaves the limit out of reach. -/
theorem reached_succ {count : Nat} (h : o.reached count = false) :
    o.limit = some ((count + 1 : Nat) : Int) ∧ o.reached (count + 1) = true ∨
      o.limit ≠ some ((count + 1 : Nat) : Int) ∧ o.reached (count + 1) = false := by
  rw [StorageScanOptions.reached] at h ⊢
  cases hl : o.limit with
  | none => exact Or.inr ⟨(fun h => by cases h), rfl⟩
  | some limit =>
    rw [hl, Option.any_some, decide_eq_false_iff_not] at h
    rw [Option.any_some, decide_eq_true_iff, decide_eq_false_iff_not, ne_eq, Option.some.injEq]
    omega

/-- **The rows of a page** (PROVED): they do what the walk does, up to where the page ends. -/
theorem pageRows_ok {ahead rest rows : List (E × List Seg × W)} {count : Nat}
    (hsorted : Ascending o.reverse ahead) (hahead : ∃ pre, ahead = pre ++ (rows ++ rest))
    (hkeys : ∀ row ∈ rows, ∃ k : c.Key, k.key = row.2.1 ∧ k.encoded = row.1)
    (hcount : o.reached count = false) :
    PageOk o t ahead rest
      (walk o.reverse (memVerdict o t) none (o.leftAfter count) (rows ++ rest))
      (pageRows o t count rows) := by
  induction rows generalizing count with
  | nil => exact ⟨hcount, (Items.after_nil _).symm⟩
  | cons row rows ih =>
    obtain ⟨pre, hpre⟩ := hahead
    obtain ⟨k, hk, hencoded⟩ := hkeys row List.mem_cons_self
    have hnone := behind_none o.reverse row.1
    have hkeys : ∀ r ∈ rows, ∃ k : c.Key, k.key = r.2.1 ∧ k.encoded = r.1 :=
      fun r hr => hkeys r (List.mem_cons_of_mem row hr)
    have hlater : ∃ pre, ahead = pre ++ (rows ++ rest) :=
      ⟨pre ++ [row], by rw [hpre, List.append_assoc, List.singleton_append, List.cons_append]⟩
    have hleft : o.leftAfter count ≠ some 0 := by
      intro hleft
      rw [(o.reached_iff count).2 hleft] at hcount
      cases hcount
    have hverdict : memVerdict o t row = verdict o t k.key row.2.2 := by rw [memVerdict, hk]
    rw [pageRows, ← hk, List.cons_append]
    dsimp only
    rw [verdict] at hverdict
    by_cases hbreaks : o.breaks k.key = true
    · rw [if_pos hbreaks] at hverdict
      rw [if_pos hbreaks, walk_stop hnone hverdict]
      rfl
    rw [if_neg hbreaks] at hverdict
    rw [if_neg hbreaks]
    by_cases hdeep : o.deep k.key = true
    · obtain ⟨b, hb, hskip⟩ := Scan.skipBound_ahead hdeep
      rw [hencoded] at hskip
      rw [if_pos hdeep, hb] at hverdict
      rw [if_pos hdeep, hb, walk_seek hnone hverdict]
      rw [List.cons_append] at hpre
      have hrest := filter_from_rest hsorted hpre List.mem_cons_self hskip
      rw [List.filter_cons_of_neg (by rw [behind_some.2 hskip]; decide)] at hrest
      have hin : row ∈ ahead := by
        rw [hpre]
        exact List.mem_append_right pre List.mem_cons_self
      have hasc : Ascending o.reverse (rows ++ rest) := by
        rw [hpre] at hsorted
        exact (List.pairwise_cons.1 (List.pairwise_append.1 hsorted).2.1).2
      refine ⟨hcount, ⟨row, hin, hskip⟩, ?_⟩
      rw [walk_sought hasc, ← hrest]
      rfl
    rw [if_neg hdeep] at hverdict
    rw [if_neg hdeep]
    by_cases hdrops : o.drops k.key = true
    · rw [if_pos hdrops] at hverdict
      rw [if_pos hdrops, walk_pass hnone hverdict]
      exact ih hlater hkeys hcount
    rw [if_neg hdrops] at hverdict
    rw [if_neg hdrops, walk_next hnone hleft, hverdict]
    cases itemOf c t k.key row.2.2 with
    | error e => rfl
    | ok item =>
      dsimp only
      rw [o.leftAfter_succ]
      obtain ⟨hlast, hreached⟩ | ⟨hmore, hreached⟩ := reached_succ hcount
      · rw [if_pos hlast, (o.reached_iff _).1 hreached, walk_done]
        rfl
      · rw [if_neg hmore]
        exact (ih hlater hkeys hreached).cons item

/-! ## Pages -/

/-- What the pages of a context promise, for the map `m` it shows. -/
def PagesOf (m : E → Option (List Seg × W)) (known : Finset E) (pageOf : PageOf Seg E W) : Prop :=
  ∀ bound inclusive reverse n stop, 1 ≤ n → IsPage reverse (InRange reverse bound inclusive stop) m
    (· ∈ known) (pageOf bound inclusive reverse n stop)

section Pages

variable {m : E → Option (List Seg × W)} {known : Finset E} {pageOf : PageOf Seg E W}
  {all : List (E × List Seg × W)} {bound stop : Option E} {inclusive : Bool}

/-- The rows of a page, and past its cover the rest. -/
theorem page_split (hsorted : Ascending o.reverse all) (hm : ∀ e v, (e, v) ∈ all ↔ m e = some v)
    {page : List (E × List Seg × W) × Option E × Bool}
    (hpage : IsPage o.reverse (InRange o.reverse bound inclusive stop) m (· ∈ known) page) :
    ahead o.reverse all bound inclusive stop = page.1 ++
      match page.2.1 with
      | none => []
      | some cover => ahead o.reverse all (some cover) false stop := by
  have hasc : Ascending o.reverse (ahead o.reverse all bound inclusive stop) := hsorted.filter _
  cases hcover : page.2.1 with
  | none =>
    have hlisting : IsListing o.reverse (InRange o.reverse bound inclusive stop) m
        (ahead o.reverse all bound inclusive stop) := by
      refine ⟨hasc, fun k v => ?_⟩
      rw [mem_ahead, hm]
    have hrows : IsListing o.reverse (InRange o.reverse bound inclusive stop) m page.1 := by
      refine hpage.listing.congr ?_
      intro k v
      rw [hcover]
      simp
    rw [hlisting.unique hrows]
    exact (List.append_nil _).symm
  | some cover =>
    have hin := (hpage.cover_mem cover hcover).1
    have hlisting : IsListing o.reverse
        (fun k => InRange o.reverse bound inclusive stop k ∧ ¬ Before o.reverse cover k) m
        ((ahead o.reverse all bound inclusive stop).filter
          fun r => decide ¬ Before o.reverse cover r.1) := by
      refine ⟨hasc.filter _, fun k v => ?_⟩
      rw [List.mem_filter, mem_ahead, hm, decide_eq_true_iff, and_assoc]
    have hrows : IsListing o.reverse
        (fun k => InRange o.reverse bound inclusive stop k ∧ ¬ Before o.reverse cover k) m
        page.1 := by
      refine hpage.listing.congr ?_
      intro k v
      rw [hcover]
      simp
    dsimp only
    rw [← hlisting.unique hrows, ahead_after _ hin]
    exact split_past hasc cover

/-- Fewer keys are known in the range past one of them. -/
theorem known_less {a : E} (ha : InRange o.reverse bound inclusive stop a) (hknown : a ∈ known) :
    (known.filter (InRange o.reverse (some a) false stop)).card <
      (known.filter (InRange o.reverse bound inclusive stop)).card := by
  refine Finset.card_lt_card ((Finset.ssubset_iff_of_subset ?_).2 ⟨a, ?_, ?_⟩)
  · intro k hk
    obtain ⟨hk, hin⟩ := Finset.mem_filter.1 hk
    exact Finset.mem_filter.2 ⟨hk, ((inRange_past ha k).1 hin).1⟩
  · exact Finset.mem_filter.2 ⟨hknown, ha⟩
  · intro hk
    exact before_irrefl o.reverse a ((inRange_past ha a).1 (Finset.mem_filter.1 hk).2).2

/-- No more are known in the range from a place past one of its keys. -/
theorem known_le (known : Finset E) {a b : E} (ha : InRange o.reverse bound inclusive stop a)
    (hb : Before o.reverse a b) : (known.filter (InRange o.reverse (some b) true stop)).card ≤
      (known.filter (InRange o.reverse bound inclusive stop)).card := by
  refine Finset.card_le_card ?_
  intro k hk
  obtain ⟨hk, hin⟩ := Finset.mem_filter.1 hk
  exact Finset.mem_filter.2 ⟨hk, ((inRange_from ha hb k).1 hin).1⟩

/-- **Pages** (PROVED): whatever their sizes, they hand out what the walk over the rows ahead does, and
each brings the scan closer to its end. -/
theorem pages_walk (hpages : PagesOf m known pageOf) (hsorted : Ascending o.reverse all)
    (hm : ∀ e v, (e, v) ∈ all ↔ m e = some v)
    (hkeys : ∀ row ∈ all, ∃ k : c.Key, k.key = row.2.1 ∧ k.encoded = row.1) (fuel : Nat)
    (bound : Option E) (inclusive : Bool) (page count : Nat)
    (hfuel : (known.filter (InRange o.reverse bound inclusive stop)).card +
      (ahead o.reverse all bound inclusive stop).length < fuel) (hpage : 0 < page)
    (hcount : o.reached count = false) :
    pages sizes o t pageOf stop fuel bound inclusive page count =
      some (walk o.reverse (memVerdict o t) none (o.leftAfter count)
        (ahead o.reverse all bound inclusive stop)) := by
  induction fuel generalizing bound inclusive page count with
  | zero => omega
  | succ fuel ih =>
    have hcontract := hpages bound inclusive o.reverse page stop hpage
    have hsplit := page_split hsorted hm hcontract
    rw [pages]
    cases hpg : pageOf bound inclusive o.reverse page stop with
    | mk rows later =>
      obtain ⟨cover, done⟩ := later
      rw [hpg] at hcontract hsplit
      dsimp only at hsplit ⊢
      obtain ⟨rest, hrest⟩ : ∃ rest, rest = match cover with
        | none => []
        | some cover => ahead o.reverse all (some cover) false stop := ⟨_, rfl⟩
      rw [← hrest] at hsplit
      have hin : ∀ row ∈ rows, row ∈ all := by
        intro row hrow
        have hahead : row ∈ ahead o.reverse all bound inclusive stop := by
          rw [hsplit]
          exact List.mem_append_left rest hrow
        exact (mem_ahead.1 hahead).1
      have hasc : Ascending o.reverse (ahead o.reverse all bound inclusive stop) :=
        hsorted.filter _
      have hok := pageRows_ok (t := t) hasc ⟨[], hsplit⟩
        (fun row hrow => hkeys row (hin row hrow)) hcount
      rw [← hsplit] at hok
      cases hpr : pageRows o t count rows with
      | mk items later =>
        obtain ⟨n, ending⟩ := later
        rw [hpr] at hok
        cases ending with
        | returned => exact congrArg some hok.symm
        | raised e => exact congrArg some hok.symm
        | finished =>
          obtain ⟨hn, hwalk⟩ := hok
          have hdone : done = cover.isNone := hcontract.done
          rw [hwalk, hdone]
          cases cover with
          | none =>
            rw [hrest]
            exact congrArg some (Prod.ext (List.append_nil items).symm rfl)
          | some cover =>
            have hcover := hcontract.cover_mem cover rfl
            have hless := known_less hcover.1 hcover.2
            have hshort : (ahead o.reverse all (some cover) false stop).length ≤
                (ahead o.reverse all bound inclusive stop).length := by
              rw [ahead_after _ hcover.1]
              exact List.length_filter_le _ _
            dsimp only [Option.isNone_some]
            rw [if_neg Bool.false_ne_true, ih _ _ _ n (by omega) (nextPage_pos sizes hpage) hn, hrest]
            rfl
        | skipTo b =>
          obtain ⟨hn, ⟨row, hrow, hskip⟩, hwalk⟩ := hok
          have hfrom := ahead_from all (mem_ahead.1 hrow).2 hskip
          have hless := length_filter_from hrow hskip
          have hle := known_le known (mem_ahead.1 hrow).2 hskip
          rw [← hfrom] at hwalk hless
          dsimp only
          rw [ih _ _ page n (by omega) hpage hn, hwalk]
          rfl

end Pages

/-! ## The whole scan -/

/-- Rows by their encoded keys. -/
def keyed (rows : List (c.Key × W)) : List (E × c.Key × W) := rows.map fun a => (a.1.encoded, a)

/-- The rows as this storage keeps them. -/
def kept (rows : List (c.Key × W)) : List (E × List Seg × W) :=
  (keyed rows).map fun r => (r.1, (r.2.1.key, r.2.2))

theorem stored_keyed (rows : List (c.Key × W)) :
    stored rows = (keyed rows).map fun r => (r.1, r.2.2) := by
  rw [stored, keyed, List.map_map]
  rfl

theorem mem_kept {rows : List (c.Key × W)} {row : E × List Seg × W} :
    row ∈ kept rows ↔ ∃ a ∈ rows, (a.1.encoded, a.1.key, a.2) = row := by
  rw [kept, keyed, List.map_map, List.mem_map]
  rfl

/-- The walk over the rows of this storage is the walk over the rows of any. -/
theorem walk_kept (o : StorageScanOptions c) (t : IteratorType) (data : Data c) {bound : Option E} :
    walk o.reverse (memVerdict o t) none o.left
        (ahead o.reverse (kept (facing o.reverse data.rows)) bound true o.prefixStop) =
      walk o.reverse (rowVerdict o t) none o.left
        (Scan.range o bound (stored data.rows)) := by
  have hrange : ahead o.reverse (stored (facing o.reverse data.rows)) bound true o.prefixStop =
      (Scan.range o bound (stored data.rows)).filter fun r =>
        decide (WithinStop o.reverse o.prefixStop r.1) := by
    rw [ahead_eq, Scan.stored_facing]
    rfl
  have hverdict : ∀ row ∈ ahead o.reverse (keyed (facing o.reverse data.rows)) bound true
      o.prefixStop, rowVerdict o t (row.1, row.2.2) = verdict o t row.2.1.key row.2.2 := by
    intro row hrow
    obtain ⟨a, -, rfl⟩ := List.mem_map.1 (mem_ahead.1 hrow).1
    exact Scan.rowVerdict_encoded o t a
  rw [← walk_within (Scan.range_ascending o bound data) fun row => Scan.stop_of_beyond (t := t),
    ← hrange, kept, stored_keyed, ahead_map, ahead_map, walk_map _ hverdict]
  exact walk_map _ (fun row _ => rfl) none o.left

/-- Pages of any sizes hand out the items of the walk, and end; a limit of none or fewer items is looked
at before the start. -/
theorem iterate_kept (sizes : PageSizes) {m : E → Option (List Seg × W)} {known : Finset E}
    {pageOf : PageOf Seg E W} (hpages : PagesOf m known pageOf) (data : Data c)
    (hdata : ∀ e k w, m e = some (k, w) ↔ ∃ a ∈ data.rows, (a.1.encoded, a.1.key, a.2) = (e, k, w))
    (o : StorageScanOptions c) (t : IteratorType) (fuel : Nat)
    (hfuel : known.card + data.rows.length < fuel) :
    iterate sizes o t pageOf fuel = some
      (if o.limit.any (fun limit => decide (limit ≤ 0)) = true then ([], none) else items o t data) := by
  rw [iterate]
  by_cases hlimit : o.limit.any (fun limit => decide (limit ≤ 0)) = true
  · rw [if_pos hlimit, if_pos hlimit]
  have hcount : o.reached 0 = false := Bool.eq_false_iff.2 hlimit
  rw [if_neg hlimit, if_neg hlimit, bounds]
  cases hbound : o.startBound with
  | error e =>
    rw [Scan.items_of_error hbound]
    rfl
  | ok bound =>
    have hm : ∀ e v, (e, v) ∈ kept (facing o.reverse data.rows) ↔ m e = some v := by
      intro e v
      obtain ⟨k, w⟩ := v
      rw [mem_kept, hdata]
      refine exists_congr fun a => and_congr_left fun _ => Scan.mem_facing
    have hkeys : ∀ row ∈ kept (facing o.reverse data.rows),
        ∃ k : c.Key, k.key = row.2.1 ∧ k.encoded = row.1 := by
      intro row hrow
      obtain ⟨a, -, rfl⟩ := mem_kept.1 hrow
      exact ⟨a.1, rfl, rfl⟩
    have hsorted : Ascending o.reverse (kept (facing o.reverse data.rows)) := by
      rw [kept, keyed, List.map_map, Ascending, List.pairwise_map]
      exact (Scan.facing_pairwise data).imp fun h => OrderedCodec.Key.before_encoded.1 h
    have hless : (known.filter (InRange o.reverse bound true o.prefixStop)).card +
        (ahead o.reverse (kept (facing o.reverse data.rows)) bound true o.prefixStop).length <
          fuel := by
      have hcard := Finset.card_filter_le known (InRange o.reverse bound true o.prefixStop)
      have hlen : (ahead o.reverse (kept (facing o.reverse data.rows)) bound true
          o.prefixStop).length ≤ (kept (facing o.reverse data.rows)).length := length_ahead_le
      rw [kept, keyed, List.map_map, List.length_map, Scan.length_facing] at hlen
      rw [kept, keyed, List.map_map]
      omega
    rw [Scan.items_eq_walk hbound, ← walk_kept, ← o.leftAfter_zero]
    exact pages_walk hpages hsorted hm hkeys fuel bound true _ 0 hless (pageSize_pos sizes o) hcount

/-- **Scans of the in-memory storage** (PROVED): on pages that keep their promise, whatever the limit,
the filters, the depth and the rows, a scan hands out the items of the walk in key order, and ends. A
limit of none or fewer items is looked at before the start. -/
theorem iterateImpl_kept {m : E → Option (List Seg × W)} {known : Finset E}
    {pageOf : PageOf Seg E W} (hpages : PagesOf m known pageOf) (data : Data c)
    (hdata : ∀ e k w, m e = some (k, w) ↔ ∃ a ∈ data.rows, (a.1.encoded, a.1.key, a.2) = (e, k, w))
    (o : StorageScanOptions c) (t : IteratorType) (fuel : Nat)
    (hfuel : known.card + data.rows.length < fuel) :
    iterateImpl o t pageOf fuel = some
      (if o.limit.any (fun limit => decide (limit ≤ 0)) = true then ([], none) else items o t data) :=
  iterate_kept pageSizes hpages data hdata o t fuel hfuel

end Virtuals.Mem
