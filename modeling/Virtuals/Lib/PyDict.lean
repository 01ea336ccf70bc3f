/-
  Insertion-ordered dictionaries, as Python's `dict`: a list of items with
  distinct keys. Setting a present key keeps its place, setting an absent one
  appends, so the first and the last key are the oldest and the newest.

  `get?` is what most proofs use; `keys` matters only where the order does.
-/
import Mathlib.Data.List.Basic
import Mathlib.Data.List.Nodup

structure PyDict (K V : Type) where
  items : List (K × V)
  nodup : (items.map Prod.fst).Nodup

namespace PyDict

variable {K V : Type} [DecidableEq K]

/-! ## Raw item lists -/

/-- `items[k] = v`: in place when `k` is present, at the end otherwise. -/
def setItem (k : K) (v : V) : List (K × V) → List (K × V)
  | [] => [(k, v)]
  | (k', v') :: rest => if k' = k then (k, v) :: rest else (k', v') :: setItem k v rest

/-- The first value stored under `k`. -/
def lookupItem (k : K) : List (K × V) → Option V
  | [] => none
  | (k', v') :: rest => if k' = k then some v' else lookupItem k rest

theorem map_fst_setItem (k : K) (v : V) (l : List (K × V)) :
    (setItem k v l).map Prod.fst =
      if k ∈ l.map Prod.fst then l.map Prod.fst else l.map Prod.fst ++ [k] := by
  induction l with
  | nil => simp [setItem]
  | cons a rest ih =>
    obtain ⟨k', v'⟩ := a
    by_cases h : k' = k
    · simp [setItem, h]
    · simp only [setItem, if_neg h, List.map_cons, ih, List.mem_cons, Ne.symm h, false_or]
      split_ifs <;> simp

theorem nodup_setItem (k : K) (v : V) (l : List (K × V)) (h : (l.map Prod.fst).Nodup) :
    ((setItem k v l).map Prod.fst).Nodup := by
  rw [map_fst_setItem]
  split_ifs with hk
  · exact h
  · exact List.Nodup.append h (List.nodup_singleton k) (by simpa using hk)

theorem lookupItem_setItem (k : K) (v : V) (l : List (K × V)) (j : K) :
    lookupItem j (setItem k v l) = if j = k then some v else lookupItem j l := by
  induction l with
  | nil => simp [setItem, lookupItem, eq_comm]
  | cons a rest ih =>
    obtain ⟨k', v'⟩ := a
    by_cases h : k' = k
    · subst h
      by_cases hj : j = k' <;> simp [setItem, lookupItem, hj, eq_comm (a := k')]
    · by_cases hj : k' = j
      · subst hj; simp [setItem, lookupItem, h]
      · simp [setItem, lookupItem, h, hj, ih]

theorem lookupItem_eq_none (k : K) (l : List (K × V)) :
    lookupItem k l = none ↔ k ∉ l.map Prod.fst := by
  induction l with
  | nil => simp [lookupItem]
  | cons a rest ih =>
    obtain ⟨k', v'⟩ := a
    by_cases h : k' = k
    · simp [lookupItem, h]
    · simp only [lookupItem, if_neg h, ih, List.map_cons, List.mem_cons, Ne.symm h, false_or]

theorem lookupItem_filter_ne (k : K) (l : List (K × V)) (j : K) :
    lookupItem j (l.filter fun a => a.1 ≠ k) = if j = k then none else lookupItem j l := by
  induction l with
  | nil => simp [lookupItem]
  | cons a rest ih =>
    obtain ⟨k', v'⟩ := a
    by_cases h : k' = k
    · subst h
      by_cases hj : j = k' <;> simp_all [lookupItem, eq_comm (a := k')]
    · by_cases hj : k' = j
      · subst hj; simp [lookupItem, h]
      · simp [lookupItem, h, hj] at ih ⊢
        exact ih

theorem mem_iff_lookupItem (l : List (K × V)) (h : (l.map Prod.fst).Nodup) (k : K) (v : V) :
    (k, v) ∈ l ↔ lookupItem k l = some v := by
  induction l with
  | nil => simp [lookupItem]
  | cons a rest ih =>
    obtain ⟨k', v'⟩ := a
    simp only [List.map_cons, List.nodup_cons] at h
    by_cases hk : k' = k
    · subst hk
      have hrest : (k', v) ∉ rest := fun hm => h.1 (List.mem_map_of_mem (f := Prod.fst) hm)
      simp [lookupItem, hrest, eq_comm]
    · simp [lookupItem, hk, Ne.symm hk, ih h.2]

theorem lookupItem_map {W : Type} (f : V → W) (k : K) (l : List (K × V)) :
    lookupItem k (l.map fun a => (a.1, f a.2)) = (lookupItem k l).map f := by
  induction l with
  | nil => rfl
  | cons a rest ih =>
    obtain ⟨k', v'⟩ := a
    by_cases h : k' = k <;> simp [lookupItem, h, ih]

/-- Counting items by value: an item set in or over changes the count by its own value only. -/
theorem countP_setItem (p : V → Bool) (k : K) (v : V) (l : List (K × V)) :
    (setItem k v l).countP (fun a => p a.2) + ((lookupItem k l).toList.countP p) =
      l.countP (fun a => p a.2) + [v].countP p := by
  induction l with
  | nil => simp [setItem, lookupItem]
  | cons a rest ih =>
    obtain ⟨k', v'⟩ := a
    by_cases h : k' = k
    · simp only [setItem, lookupItem, if_pos h, List.countP_cons, Option.toList_some,
        List.countP_nil]
      omega
    · simp only [setItem, lookupItem, if_neg h, List.countP_cons] at ih ⊢
      omega

/-! ## Operations -/

/-- `{}`. -/
def empty : PyDict K V := ⟨[], List.nodup_nil⟩

/-- `d.get(k)`, with `none` for an absent key. -/
def get? (d : PyDict K V) (k : K) : Option V := lookupItem k d.items

/-- `d[k] = v`. -/
def set (d : PyDict K V) (k : K) (v : V) : PyDict K V :=
  ⟨setItem k v d.items, nodup_setItem k v d.items d.nodup⟩

/-- `d.pop(k, None)`. -/
def erase (d : PyDict K V) (k : K) : PyDict K V :=
  ⟨d.items.filter fun a => a.1 ≠ k, (List.filter_sublist.map Prod.fst).nodup d.nodup⟩

/-- `{k: f(v) for k, v in d.items()}`. -/
def map {W : Type} (f : V → W) (d : PyDict K V) : PyDict K W :=
  ⟨d.items.map fun a => (a.1, f a.2), by simpa [Function.comp_def] using d.nodup⟩

/-- The keys, oldest first. -/
def keys (d : PyDict K V) : List K := d.items.map Prod.fst

instance : EmptyCollection (PyDict K V) := ⟨empty⟩

instance : Inhabited (PyDict K V) := ⟨empty⟩

@[simp] theorem get?_empty (k : K) : (empty : PyDict K V).get? k = none := rfl

omit [DecidableEq K] in
@[simp] theorem keys_empty : (empty : PyDict K V).keys = [] := rfl

theorem get?_set (d : PyDict K V) (k : K) (v : V) (j : K) :
    (d.set k v).get? j = if j = k then some v else d.get? j :=
  lookupItem_setItem k v d.items j

@[simp] theorem get?_set_self (d : PyDict K V) (k : K) (v : V) : (d.set k v).get? k = some v := by
  simp [get?_set]

theorem get?_set_of_ne (d : PyDict K V) {k j : K} (v : V) (h : j ≠ k) :
    (d.set k v).get? j = d.get? j := by
  simp [get?_set, h]

theorem get?_erase (d : PyDict K V) (k j : K) :
    (d.erase k).get? j = if j = k then none else d.get? j :=
  lookupItem_filter_ne k d.items j

@[simp] theorem get?_erase_self (d : PyDict K V) (k : K) : (d.erase k).get? k = none := by
  simp [get?_erase]

theorem get?_erase_of_ne (d : PyDict K V) {k j : K} (h : j ≠ k) :
    (d.erase k).get? j = d.get? j := by
  simp [get?_erase, h]

@[simp] theorem get?_map {W : Type} (f : V → W) (d : PyDict K V) (k : K) :
    (d.map f).get? k = (d.get? k).map f :=
  lookupItem_map f k d.items

/-- How many items have a value that passes. -/
def count (d : PyDict K V) (p : V → Bool) : Nat := d.items.countP fun a => p a.2

theorem count_set (d : PyDict K V) (p : V → Bool) (k : K) (v : V) :
    (d.set k v).count p + (d.get? k).toList.countP p = d.count p + [v].countP p :=
  countP_setItem p k v d.items

theorem count_pos (d : PyDict K V) (p : V → Bool) {k : K} {v : V} (h : d.get? k = some v)
    (hp : p v = true) : 0 < d.count p :=
  List.countP_pos_iff.2 ⟨(k, v), (mem_iff_lookupItem d.items d.nodup k v).2 h, hp⟩

theorem mem_items (d : PyDict K V) (k : K) (v : V) : (k, v) ∈ d.items ↔ d.get? k = some v :=
  mem_iff_lookupItem d.items d.nodup k v

theorem get?_eq_none (d : PyDict K V) (k : K) : d.get? k = none ↔ k ∉ d.keys :=
  lookupItem_eq_none k d.items

theorem mem_keys (d : PyDict K V) (k : K) : k ∈ d.keys ↔ (d.get? k).isSome := by
  rw [← not_iff_not, ← get?_eq_none, Option.not_isSome_iff_eq_none]

omit [DecidableEq K] in
theorem keys_nodup (d : PyDict K V) : d.keys.Nodup := d.nodup

theorem keys_set (d : PyDict K V) (k : K) (v : V) :
    (d.set k v).keys = if k ∈ d.keys then d.keys else d.keys ++ [k] :=
  map_fst_setItem k v d.items

theorem keys_erase (d : PyDict K V) (k : K) : (d.erase k).keys = d.keys.filter (· ≠ k) := by
  simp [keys, erase, List.filter_map, Function.comp_def]

end PyDict
