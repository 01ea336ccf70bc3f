/-
  Tables of rows by key, scanned in the order of the keys.

  The rows are Mathlib's finite maps; what is added is the scan. A row put under a key above all
  others comes last in it, a row put over another keeps its place, an erased row leaves the others
  as they were.
-/
import Mathlib.Data.Finmap
import Mathlib.Data.Finset.Sort
import Mathlib.Tactic.SplitIfs

namespace Virtuals.Lib

/-- Rows by key. -/
def Table (K V : Type) : Type := Finmap fun _ : K => V

namespace Table

variable {K V : Type}

/-- No rows. -/
def empty : Table K V := (∅ : Finmap fun _ : K => V)

instance : Inhabited (Table K V) := ⟨empty⟩

instance : EmptyCollection (Table K V) := ⟨empty⟩

/-- The keys that have a row. -/
def keys (t : Table K V) : Finset K := Finmap.keys t

/-- How many rows there are. -/
def size (t : Table K V) : Nat := t.keys.card

variable [DecidableEq K]

/-- The row under a key. -/
def get? (t : Table K V) (k : K) : Option V := Finmap.lookup k t

/-- Write the row under a key. -/
def put (t : Table K V) (k : K) (v : V) : Table K V := Finmap.insert k v t

/-- Delete the row under a key, if there is one. -/
def erase (t : Table K V) (k : K) : Table K V := Finmap.erase k t

/-! ## Rows by key -/

@[simp] theorem get?_empty (k : K) : (∅ : Table K V).get? k = none := Finmap.lookup_empty k

theorem get?_put (t : Table K V) (k j : K) (v : V) :
    (t.put k v).get? j = if j = k then some v else t.get? j := by
  by_cases h : j = k
  · subst h
    rw [if_pos rfl]
    exact Finmap.lookup_insert t
  · rw [if_neg h]
    exact Finmap.lookup_insert_of_ne t h

@[simp] theorem get?_put_self (t : Table K V) (k : K) (v : V) : (t.put k v).get? k = some v := by
  simp [get?_put]

theorem get?_erase (t : Table K V) (k j : K) :
    (t.erase k).get? j = if j = k then none else t.get? j := by
  by_cases h : j = k
  · subst h
    rw [if_pos rfl]
    exact Finmap.lookup_erase j t
  · rw [if_neg h]
    exact Finmap.lookup_erase_ne h

theorem ext {t u : Table K V} (h : ∀ k, t.get? k = u.get? k) : t = u := Finmap.ext_lookup h

/-- A row put and deleted. -/
theorem erase_put (t : Table K V) (k : K) (v : V) : (t.put k v).erase k = t.erase k := by
  refine ext fun j => ?_
  rw [get?_erase, get?_erase, get?_put]
  split_ifs <;> rfl

/-- A row put over another. -/
theorem put_put (t : Table K V) (k : K) (v w : V) : (t.put k v).put k w = t.put k w := by
  refine ext fun j => ?_
  rw [get?_put, get?_put, get?_put]
  split_ifs <;> rfl

theorem mem_keys (t : Table K V) (k : K) : k ∈ t.keys ↔ (t.get? k).isSome :=
  Finmap.mem_keys.trans Finmap.lookup_isSome.symm

theorem get?_eq_none (t : Table K V) (k : K) : t.get? k = none ↔ k ∉ t.keys := by
  rw [mem_keys, Option.not_isSome_iff_eq_none]

omit [DecidableEq K] in
@[simp] theorem keys_empty : (∅ : Table K V).keys = ∅ := rfl

theorem keys_put (t : Table K V) (k : K) (v : V) : (t.put k v).keys = insert k t.keys := by
  ext j
  by_cases h : j = k <;> simp [mem_keys, get?_put, h]

theorem keys_put_of_mem (t : Table K V) {k : K} (v : V) (h : k ∈ t.keys) :
    (t.put k v).keys = t.keys := by
  rw [keys_put, Finset.insert_eq_of_mem h]

theorem keys_erase (t : Table K V) (k : K) : (t.erase k).keys = t.keys.erase k := by
  ext j
  by_cases h : j = k <;> simp [mem_keys, get?_erase, h]

theorem eq_empty_iff (t : Table K V) : t = ∅ ↔ t.keys = ∅ := by
  refine ⟨fun h => by simp [h], fun h => ext fun k => ?_⟩
  rw [get?_empty, get?_eq_none, h]
  exact Finset.notMem_empty k

/-! ## How many -/

theorem size_put_of_none (t : Table K V) {k : K} (v : V) (h : t.get? k = none) :
    (t.put k v).size = t.size + 1 := by
  rw [size, keys_put, Finset.card_insert_of_notMem ((get?_eq_none t k).1 h), size]

theorem size_put_of_some (t : Table K V) {k : K} {w : V} (v : V) (h : t.get? k = some w) :
    (t.put k v).size = t.size := by
  rw [size, keys_put_of_mem t v ((mem_keys t k).2 (by simp [h])), size]

theorem size_erase_of_some (t : Table K V) {k : K} {w : V} (h : t.get? k = some w) :
    (t.erase k).size + 1 = t.size := by
  rw [size, keys_erase, Finset.card_erase_add_one ((mem_keys t k).2 (by simp [h])), size]

theorem size_pos (t : Table K V) {k : K} {w : V} (h : t.get? k = some w) : 0 < t.size :=
  Finset.card_pos.2 ⟨k, (mem_keys t k).2 (by simp [h])⟩

/-! ## The scan -/

/-- Erase one row after another. -/
def eraseAll (t : Table K V) (l : List K) : Table K V := l.foldl erase t

theorem get?_eraseAll (l : List K) (t : Table K V) (j : K) :
    (t.eraseAll l).get? j = if j ∈ l then none else t.get? j := by
  induction l generalizing t with
  | nil => simp [eraseAll]
  | cons k l ih =>
    rw [eraseAll, List.foldl_cons, ← eraseAll, ih, get?_erase]
    by_cases hl : j ∈ l
    · simp [hl]
    · simp [hl, List.mem_cons]

variable [LinearOrder K]

/-- The keys in order, as a scan of the rows meets them. -/
def scan (t : Table K V) : List K := t.keys.sort

omit [DecidableEq K] in
@[simp] theorem mem_scan (t : Table K V) (k : K) : k ∈ t.scan ↔ k ∈ t.keys :=
  Finset.mem_sort _

omit [DecidableEq K] in
theorem nodup_scan (t : Table K V) : t.scan.Nodup := Finset.sort_nodup _ _

omit [DecidableEq K] in
theorem length_scan (t : Table K V) : t.scan.length = t.size := Finset.length_sort _

/-- Erasing all that a scan meets leaves nothing. -/
theorem eraseAll_scan (t : Table K V) : t.eraseAll t.scan = ∅ :=
  ext fun k => by
    rw [get?_eraseAll, get?_empty]
    by_cases h : k ∈ t.scan
    · rw [if_pos h]
    · rw [if_neg h, (get?_eq_none t k).2 ((mem_scan t k).not.1 h)]

omit [LinearOrder K] in
/-- Rows by index, one more at the end. -/
theorem get?_put_append {t : Table Nat V} {l : List V} (h : ∀ i, t.get? i = l[i]?) (v : V)
    (i : Nat) : (t.put l.length v).get? i = (l ++ [v])[i]? := by
  rw [get?_put]
  by_cases hi : i = l.length
  · simp [hi]
  · rw [if_neg hi, h, List.getElem?_append]
    by_cases hlt : i < l.length
    · rw [if_pos hlt]
    · rw [if_neg hlt, List.getElem?_eq_none (by omega), List.getElem?_eq_none (by simp; omega)]

omit [DecidableEq K] in
theorem scan_sorted (t : Table K V) : t.scan.Pairwise (· < ·) := (Finset.sortedLT_sort _).pairwise

omit [DecidableEq K] in
/-- The scan is the one ascending list of the keys. -/
theorem scan_eq_of_sorted {t : Table K V} {l : List K} (hl : l.Pairwise (· < ·))
    (hmem : ∀ k, k ∈ l ↔ k ∈ t.keys) : t.scan = l := by
  have hperm : t.scan.Perm l := by
    refine (List.perm_ext_iff_of_nodup t.nodup_scan (hl.imp fun h => ne_of_lt h)).2 fun k => ?_
    rw [mem_scan, hmem]
  exact hperm.eq_of_pairwise (fun a b _ _ hab hba => absurd hba (lt_asymm hab)) t.scan_sorted hl

omit [LinearOrder K] [DecidableEq K] in
/-- The scan of rows by index meets them in order. -/
theorem scan_of_lists {t : Table Nat V} {l : List V} (h : ∀ i, t.get? i = l[i]?) :
    t.scan = List.range l.length := by
  refine scan_eq_of_sorted List.pairwise_lt_range fun i => ?_
  rw [List.mem_range, mem_keys, h]
  simp

/-! ## Rows -/

/-- The rows, as a scan meets them. -/
def rows (t : Table K V) : List (K × V) := t.scan.filterMap fun k => (t.get? k).map (k, ·)

theorem mem_rows {t : Table K V} {k : K} {v : V} : (k, v) ∈ t.rows ↔ t.get? k = some v := by
  simp only [rows, List.mem_filterMap, Option.map_eq_some_iff, Prod.mk.injEq]
  constructor
  · rintro ⟨j, -, w, hw, rfl, rfl⟩
    exact hw
  · intro hv
    exact ⟨k, (mem_scan t k).2 ((mem_keys t k).2 (by simp [hv])), v, hv, rfl, rfl⟩

theorem rows_map_fst (t : Table K V) : t.rows.map Prod.fst = t.scan := by
  have hrow : ∀ k ∈ t.scan, ((t.get? k).map (k, ·)).map Prod.fst = some k := by
    intro k hk
    obtain ⟨v, hv⟩ := Option.isSome_iff_exists.1 ((mem_keys t k).1 ((mem_scan t k).1 hk))
    rw [hv]
    rfl
  rw [rows, List.map_filterMap]
  refine (List.filterMap_congr hrow).trans ?_
  exact List.filterMap_some

theorem nodup_rows (t : Table K V) : (t.rows.map Prod.fst).Nodup := by
  rw [rows_map_fst]
  exact t.nodup_scan

theorem length_rows (t : Table K V) : t.rows.length = t.size := by
  rw [← List.length_map (f := Prod.fst), rows_map_fst, length_scan]

@[simp] theorem rows_empty : (∅ : Table K V).rows = [] :=
  List.eq_nil_of_length_eq_zero (length_rows ∅)

omit [DecidableEq K] [LinearOrder K] in
theorem fst_lt_iff {V : Type} [LT K] {l : List (K × V)} :
    (l.map Prod.fst).Pairwise (· < ·) ↔ l.Pairwise fun a b => a.1 < b.1 := List.pairwise_map

theorem rows_sorted (t : Table K V) : t.rows.Pairwise fun a b => a.1 < b.1 := by
  rw [← fst_lt_iff, rows_map_fst]
  exact t.scan_sorted

/-- The rows are the one list of them in ascending order. -/
theorem rows_eq_of_sorted {t : Table K V} {l : List (K × V)} (hl : l.Pairwise fun a b => a.1 < b.1)
    (hmem : ∀ k v, (k, v) ∈ l ↔ t.get? k = some v) : t.rows = l := by
  have hne : ∀ {l : List (K × V)}, (l.Pairwise fun a b => a.1 < b.1) → l.Nodup := fun h =>
    h.imp fun {a b} hab (he : a = b) => absurd hab (by rw [he]; exact lt_irrefl _)
  have hperm : t.rows.Perm l := by
    refine (List.perm_ext_iff_of_nodup (hne t.rows_sorted) (hne hl)).2 fun a => ?_
    rw [mem_rows (k := a.1) (v := a.2), hmem]
  exact hperm.eq_of_pairwise (fun a b _ _ hab hba => absurd hba (lt_asymm hab)) t.rows_sorted hl

/-- A row put between the others stands between them. -/
theorem rows_put_between {t : Table K V} {l r : List (K × V)} {k : K} (v : V)
    (h : t.rows = l ++ r) (hl : ∀ a ∈ l, a.1 < k) (hr : ∀ a ∈ r, k < a.1) :
    (t.put k v).rows = l ++ (k, v) :: r := by
  have hsorted := t.rows_sorted
  rw [h, List.pairwise_append] at hsorted
  refine rows_eq_of_sorted ?_ fun j w => ?_
  · refine List.pairwise_append.2 ⟨hsorted.1, List.pairwise_cons.2 ⟨hr, hsorted.2.1⟩, ?_⟩
    intro a ha b hb
    rcases List.mem_cons.1 hb with rfl | hb
    · exact hl a ha
    · exact hsorted.2.2 a ha b hb
  · have hj : (j, w) ∈ l ++ r ↔ t.get? j = some w := by rw [← h, mem_rows]
    have hk : ∀ w, (k, w) ∉ l ++ r := by
      intro w hw
      rcases List.mem_append.1 hw with hw | hw
      · exact lt_irrefl k (hl _ hw)
      · exact lt_irrefl k (hr _ hw)
    rw [get?_put]
    split_ifs with he
    · obtain ⟨hwl, hwr⟩ := not_or.1 (List.mem_append.not.1 (hk w))
      rw [he, List.mem_append, List.mem_cons, Prod.mk.injEq, Option.some.injEq]
      simp only [hwl, hwr, true_and, false_or, or_false]
      exact eq_comm
    · rw [← hj, List.mem_append, List.mem_append, List.mem_cons, Prod.mk.injEq]
      simp only [he, false_and, false_or]

/-- A row under a key above all others comes last. -/
theorem rows_put_last (t : Table K V) {k : K} (v : V) (h : ∀ a ∈ t.rows, a.1 < k) :
    (t.put k v).rows = t.rows ++ [(k, v)] :=
  rows_put_between v (List.append_nil _).symm h nofun

/-- An erased row leaves the others as they were. -/
theorem rows_erase (t : Table K V) (k : K) :
    (t.erase k).rows = t.rows.filter fun a => a.1 ≠ k := by
  refine rows_eq_of_sorted (t.rows_sorted.filter _) fun j w => ?_
  rw [List.mem_filter, mem_rows, get?_erase]
  split_ifs with he
  · simp [he]
  · simp [he]

/-! ## Rows rewritten -/

omit [LinearOrder K] in
/-- Put one row after another. -/
def putAll (t : Table K V) (l : List (K × V)) : Table K V := l.foldl (fun t a => t.put a.1 a.2) t

omit [LinearOrder K] in
theorem putAll_append (t : Table K V) (l m : List (K × V)) :
    t.putAll (l ++ m) = (t.putAll l).putAll m := List.foldl_append

omit [LinearOrder K] in
theorem get?_putAll {l : List (K × V)} (hl : (l.map Prod.fst).Nodup) (t : Table K V) (k : K) (v : V) :
    (t.putAll l).get? k = some v ↔
      (k, v) ∈ l ∨ k ∉ l.map Prod.fst ∧ t.get? k = some v := by
  induction l generalizing t with
  | nil => simp [putAll]
  | cons a l ih =>
    obtain ⟨j, w⟩ := a
    obtain ⟨hj, hl⟩ := List.nodup_cons.1 hl
    have hstep : t.putAll ((j, w) :: l) = (t.put j w).putAll l := rfl
    rw [hstep, ih hl, get?_put]
    by_cases hk : k = j
    · subst hk
      have hnot : ∀ w, (k, w) ∉ l := fun w hw => hj (List.mem_map.2 ⟨_, hw, rfl⟩)
      simp [hnot, hj, eq_comm]
    · simp [hk]

/-- Rows erased, and others put in their place. -/
theorem rows_rewrite {t : Table K V} {l w n r : List (K × V)} (h : t.rows = l ++ w ++ r)
    (hn : (l ++ n ++ r).Pairwise fun a b => a.1 < b.1) :
    ((t.eraseAll (w.map Prod.fst)).putAll n).rows = l ++ n ++ r := by
  have hsorted := t.rows_sorted
  rw [h] at hsorted
  have hmem : ∀ j v, t.get? j = some v ↔ (j, v) ∈ l ++ w ++ r := fun j v => by rw [← h, mem_rows]
  -- what stands on either side has neither a key erased nor one put
  have hapart : ∀ {m : List (K × V)}, ((l ++ m ++ r).Pairwise fun a b => a.1 < b.1) →
      ∀ a, a ∈ l ∨ a ∈ r → a.1 ∉ m.map Prod.fst := by
    intro m hm a ha hin
    rw [List.pairwise_append, List.pairwise_append] at hm
    obtain ⟨b, hb, he⟩ := List.mem_map.1 hin
    rcases ha with ha | ha
    · exact absurd (hm.1.2.2 a ha b hb) (he ▸ lt_irrefl _)
    · exact absurd (hm.2.2 b (List.mem_append_right _ hb) a ha) (he ▸ lt_irrefl _)
  have hnodup : (n.map Prod.fst).Nodup := by
    rw [List.pairwise_append, List.pairwise_append] at hn
    exact (List.pairwise_map.2 hn.1.2.1).imp fun h => ne_of_lt h
  refine rows_eq_of_sorted hn fun j v => ?_
  rw [get?_putAll hnodup, get?_eraseAll, List.mem_append, List.mem_append]
  constructor
  · rintro ((hl | hn') | hr)
    · refine Or.inr ⟨hapart hn _ (Or.inl hl), ?_⟩
      rw [if_neg (hapart hsorted _ (Or.inl hl)), hmem]
      exact List.mem_append_left _ (List.mem_append_left _ hl)
    · exact Or.inl hn'
    · refine Or.inr ⟨hapart hn _ (Or.inr hr), ?_⟩
      rw [if_neg (hapart hsorted _ (Or.inr hr)), hmem]
      exact List.mem_append_right _ hr
  · rintro (hn' | ⟨-, hget⟩)
    · exact Or.inl (Or.inr hn')
    · split_ifs at hget with hw
      rw [hmem, List.mem_append, List.mem_append] at hget
      rcases hget with (hl | hw') | hr
      · exact Or.inl (Or.inl hl)
      · exact absurd (List.mem_map.2 ⟨_, hw', rfl⟩) hw
      · exact Or.inr hr

end Table

end Virtuals.Lib
