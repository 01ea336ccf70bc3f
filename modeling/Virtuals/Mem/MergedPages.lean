/-
  Paging through `merge_pages`: the loop that takes one merged page after the other,
  each seeking past the cover of the one before.

  A `PageSource` is what `merge_pages` is fed from: a finite map and the pages of `n`
  rows it answers, cut from the listing of the range asked for. `readAll_merged`: over
  any two sources the loop ends and yields the listing of the overlaid map. The pages
  of a transaction are such merged pages (`readAll_staged`), whatever it staged.
-/
import Virtuals.Mem.Context
import Virtuals.Mem.SortedSet
import Mathlib

namespace Virtuals.Mem

open ScanOrder VersionedStore

/-- A finite map that answers pages of `n` rows from any bound, each the first rows of the range. -/
structure PageSource (K A : Type) [LinearOrder K] (reverse : Bool) (n : Nat)
    (stop : Option K) where
  map : K → Option A
  keys : Finset K
  mem_keys : ∀ k, (map k).isSome → k ∈ keys
  page : Option K → Bool → List (K × A)
  page_spec : ∀ bound inclusive, ∃ rows,
    IsListing reverse (InRange reverse bound inclusive stop) map rows ∧
      page bound inclusive = rows.take n

section Paging

variable {K A E : Type} [LinearOrder K] {reverse : Bool} {n : Nat} {stop : Option K}

/-- A map with finitely many keys is a source. -/
def PageSource.ofMap (m : K → Option A) (keys : Finset K)
    (h : ∀ k, (m k).isSome → k ∈ keys) : PageSource K A reverse n stop where
  map := m
  keys := keys
  mem_keys := h
  page := fun bound inclusive =>
    (rowsOf m (SortedKeys.scanKeys keys bound inclusive reverse stop)).take n
  page_spec := fun bound inclusive => ⟨_, isListing_rowsOf
    (SortedKeys.scanKeys_sorted keys bound inclusive reverse stop) fun k hk => by
      rw [SortedKeys.mem_scanKeys, and_iff_right (h k hk)], rfl⟩

/-- One page of the base merged with one page of the overlay. -/
def mergedPage (base : PageSource K E reverse n stop)
    (overlay : PageSource K (Version E) reverse n stop) (bound : Option K) (inclusive : Bool) :
    List (K × E) × Option K × Bool :=
  mergePages (base.page bound inclusive) (overlay.page bound inclusive) n reverse

theorem mergedPage_isPage (hn : 0 < n) (base : PageSource K E reverse n stop)
    (overlay : PageSource K (Version E) reverse n stop) (bound : Option K) (inclusive : Bool) :
    IsPage reverse (InRange reverse bound inclusive stop) (overlaid base.map overlay.map)
      (· ∈ base.keys ∪ overlay.keys) (mergedPage base overlay bound inclusive) := by
  obtain ⟨rows, hrows, hbase⟩ := base.page_spec bound inclusive
  obtain ⟨entries, hentries, hover⟩ := overlay.page_spec bound inclusive
  rw [mergedPage, hbase, hover]
  exact mergePages_isPage hn hrows hentries
    (fun k hk => Finset.mem_union_left _ (base.mem_keys k hk))
    fun k hk => Finset.mem_union_right _ (overlay.mem_keys k hk)

/-- Pages that keep the contract are read to the same listing whatever fuel is enough. -/
theorem exists_readAll {m : K → Option E} {known : Finset K}
    {page : Option K → Bool → List (K × E) × Option K × Bool}
    (hpage : ∀ bound inclusive,
      IsPage reverse (InRange reverse bound inclusive stop) m (· ∈ known) (page bound inclusive))
    (bound : Option K) (inclusive : Bool) :
    ∃ rows, IsListing reverse (InRange reverse bound inclusive stop) m rows ∧
      ∀ fuel, known.card < fuel → readAll page fuel bound inclusive = some rows := by
  have hread : ∀ fuel, known.card < fuel → ∃ rows,
      readAll page fuel bound inclusive = some rows ∧
        IsListing reverse (InRange reverse bound inclusive stop) m rows := fun fuel hfuel =>
    readAll_isListing hpage fuel bound inclusive ((Finset.card_filter_le _ _).trans_lt hfuel)
  obtain ⟨rows, -, hrows⟩ := hread _ (Nat.lt_succ_self _)
  refine ⟨rows, hrows, fun fuel hfuel => ?_⟩
  obtain ⟨rows', hread', hrows'⟩ := hread fuel hfuel
  rw [hread', hrows'.unique hrows]

theorem readAll_merged (hn : 0 < n) (base : PageSource K E reverse n stop)
    (overlay : PageSource K (Version E) reverse n stop) (bound : Option K) (inclusive : Bool) :
    ∃ rows, IsListing reverse (InRange reverse bound inclusive stop)
        (overlaid base.map overlay.map) rows ∧
      ∀ fuel, (base.keys ∪ overlay.keys).card < fuel →
        readAll (mergedPage base overlay) fuel bound inclusive = some rows :=
  exists_readAll (mergedPage_isPage hn base overlay) bound inclusive

end Paging

/-! ## A transaction's pages -/

section Staged

variable {Enc Key Val : Type} [LinearOrder Enc]

/-- The transaction after staging `writes`, in order. -/
def Transaction.staged (slot generation : Nat) (writes : List (Enc × Key × Staged Val)) :
    Transaction Enc Key Val :=
  writes.foldl (fun t (enc, key, value) => t.stage enc key value) (.begin slot generation)

theorem Transaction.indexOk_staged (slot generation : Nat)
    (writes : List (Enc × Key × Staged Val)) : (staged slot generation writes).IndexOk := by
  have hbegin : (begin slot generation : Transaction Enc Key Val).IndexOk := by
    intro index hi
    simp [begin] at hi
  unfold staged
  generalize begin slot generation = t at hbegin
  induction writes generalizing t with
  | nil => exact hbegin
  | cons w writes ih => exact ih _ (indexOk_stage hbegin _ _ _)

/-- The pages of a transaction read the live rows under its writes. -/
theorem readAll_staged {store : VersionedStore Enc Key Val} (hs : InStep store.index store.live)
    (slot generation : Nat) (writes : List (Enc × Key × Staged Val)) (reverse : Bool) {n : Nat}
    (hn : 0 < n) (stop bound : Option Enc) (inclusive : Bool) :
    ∃ rows, IsListing reverse (InRange reverse bound inclusive stop)
        (overwrite store.live.get? (Transaction.staged slot generation writes).pending.items)
        rows ∧
      ∀ fuel, ((Transaction.staged slot generation writes).knownKeys store).card < fuel →
        readAll (fun b i => ((Transaction.staged slot generation writes).page store b i reverse n
          stop).2) fuel bound inclusive = some rows :=
  exists_readAll (fun b i => Transaction.page_isPage
    (Transaction.indexOk_staged slot generation writes) hs b i reverse hn stop) bound inclusive

end Staged

/-- (PROVED) Merged pages of any size read, in order and each once, exactly the rows of the base
    overlaid by the puts and without the deletions, and there are finitely many of them. The same
    of the pages of a transaction over a store whose index is in step. -/
theorem merged_paging {Enc Key Val E : Type} [LinearOrder Enc] (reverse : Bool) (n : Nat)
    (hn : 1 ≤ n) (stop bound : Option Enc) (inclusive : Bool) :
    (∀ (base : PageSource Enc E reverse n stop)
        (overlay : PageSource Enc (Version E) reverse n stop),
      ∃ rows, IsListing reverse (InRange reverse bound inclusive stop)
          (overlaid base.map overlay.map) rows ∧
        ∀ fuel, (base.keys ∪ overlay.keys).card < fuel →
          readAll (mergedPage base overlay) fuel bound inclusive = some rows) ∧
    ∀ (store : VersionedStore Enc Key Val), InStep store.index store.live →
      ∀ (slot generation : Nat) (writes : List (Enc × Key × Staged Val)),
        ∃ rows, IsListing reverse (InRange reverse bound inclusive stop)
            (overwrite store.live.get? (Transaction.staged slot generation writes).pending.items)
            rows ∧
          ∀ fuel, ((Transaction.staged slot generation writes).knownKeys store).card < fuel →
            readAll (fun b i => ((Transaction.staged slot generation writes).page store b i reverse
              n stop).2) fuel bound inclusive = some rows :=
  ⟨fun base overlay => readAll_merged hn base overlay bound inclusive,
    fun _ hs slot generation writes =>
      readAll_staged hs slot generation writes reverse hn stop bound inclusive⟩

/-- Pages of one row, over two base rows that the overlay deletes and one row it puts. -/
theorem merged_paging_deleted :
    let base : PageSource Nat Nat false 1 none :=
      .ofMap (fun k => if k < 2 then some k else none) {0, 1} (by simp; omega)
    let overlay : PageSource Nat (Version Nat) false 1 none :=
      .ofMap (fun k => if k < 2 then some .ABSENT else if k = 5 then some (.entry 9) else none)
        {0, 1, 5} (by intro k; split_ifs <;> simp <;> omega)
    ∃ rows, IsListing false (InRange false none true none) (overlaid base.map overlay.map) rows ∧
      ∀ fuel, (base.keys ∪ overlay.keys).card < fuel →
        readAll (mergedPage base overlay) fuel none true = some rows :=
  (@merged_paging Nat Nat Nat _ _ false 1 (le_refl 1) none none true).1 _ _

end Virtuals.Mem
