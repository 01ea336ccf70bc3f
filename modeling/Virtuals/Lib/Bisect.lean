/-
  `bisect` and in-place list edits: Python's `bisect_left`, `bisect_right` and
  `insort` on a sorted list, and the reads and writes of one slot of a list given
  as a prefix, the slot and a suffix.
-/
import Mathlib.Data.List.Sort
import Mathlib.Data.List.TakeWhile
import Mathlib.Tactic.Common

namespace Bisect

variable {K : Type} [LinearOrder K]

/-- The first slot of the sorted list `xs` whose key is `≥ k`. -/
def bisectLeft (xs : List K) (k : K) : Nat := (xs.takeWhile (· < k)).length

/-- The first slot of the sorted list `xs` whose key is `> k`. -/
def bisectRight (xs : List K) (k : K) : Nat := (xs.takeWhile (· ≤ k)).length

/-- `insort`: insert after the keys `≤ k`. -/
def insort (xs : List K) (k : K) : List K := xs.orderedInsert (· < ·) k

theorem mem_insort {xs : List K} {k a : K} : a ∈ insort xs k ↔ a = k ∨ a ∈ xs :=
  List.mem_orderedInsert _

theorem insort_length (xs : List K) (k : K) : (insort xs k).length = xs.length + 1 :=
  List.orderedInsert_length _ xs k

theorem pairwise_insort {xs : List K} {k : K} (h : xs.Pairwise (· < ·)) (hk : k ∉ xs) :
    (insort xs k).Pairwise (· < ·) := by
  induction xs with
  | nil => simp [insort]
  | cons b rest ih =>
    obtain ⟨hb, hrest⟩ := List.pairwise_cons.1 h
    simp only [List.mem_cons, not_or] at hk
    by_cases hkb : k < b
    · rw [insort, List.orderedInsert_cons_of_le _ _ hkb]
      refine List.pairwise_cons.2 ⟨fun a ha => ?_, h⟩
      rcases List.mem_cons.1 ha with rfl | ha
      · exact hkb
      · exact hkb.trans (hb a ha)
    · rw [insort, List.orderedInsert_of_not_le _ _ hkb]
      refine List.pairwise_cons.2 ⟨fun a ha => ?_, ih hrest hk.2⟩
      rcases mem_insort.1 ha with rfl | ha
      · exact lt_of_le_of_ne (not_lt.1 hkb) (Ne.symm hk.1)
      · exact hb a ha

/-! ## Cutting a sorted list at a monotone test -/

omit [LinearOrder K] in
theorem takeWhile_eq_filter {xs : List K} {p : K → Bool} {r : K → K → Prop} (h : xs.Pairwise r)
    (hp : ∀ a b, r a b → p b = true → p a = true) : xs.takeWhile p = xs.filter p := by
  induction xs with
  | nil => rfl
  | cons a rest ih =>
    obtain ⟨ha, hrest⟩ := List.pairwise_cons.1 h
    by_cases hpa : p a = true
    · rw [List.takeWhile_cons_of_pos hpa, List.filter_cons_of_pos hpa, ih hrest]
    · rw [List.takeWhile_cons_of_neg hpa, List.filter_cons_of_neg hpa, eq_comm,
        List.filter_eq_nil_iff]
      exact fun b hb hpb => hpa (hp a b (ha b hb) hpb)

omit [LinearOrder K] in
theorem drop_takeWhile_length {xs : List K} (p : K → Bool) :
    xs.drop (xs.takeWhile p).length = xs.dropWhile p := by
  have h := @List.drop_left _ (xs.takeWhile p) (xs.dropWhile p)
  rwa [List.takeWhile_append_dropWhile] at h

omit [LinearOrder K] in
theorem take_takeWhile_length {xs : List K} (p : K → Bool) :
    xs.take (xs.takeWhile p).length = xs.takeWhile p := by
  have h := @List.take_left _ (xs.takeWhile p) (xs.dropWhile p)
  rwa [List.takeWhile_append_dropWhile] at h

omit [LinearOrder K] in
theorem dropWhile_eq_filter {xs : List K} {p : K → Bool} {r : K → K → Prop} (h : xs.Pairwise r)
    (hp : ∀ a b, r a b → p b = true → p a = true) :
    xs.dropWhile p = xs.filter fun a => !p a := by
  induction xs with
  | nil => rfl
  | cons a rest ih =>
    obtain ⟨ha, hrest⟩ := List.pairwise_cons.1 h
    by_cases hpa : p a = true
    · rw [List.dropWhile_cons_of_pos hpa, List.filter_cons_of_neg (by simp [hpa]), ih hrest]
    · rw [List.dropWhile_cons_of_neg hpa, eq_comm, List.filter_eq_self]
      intro b hb
      rcases List.mem_cons.1 hb with rfl | hb
      · simp [hpa]
      · simp only [Bool.not_eq_true', Bool.not_eq_true] at hpa ⊢
        by_contra hpb
        simp [hp a b (ha b hb) (by simpa using hpb)] at hpa

omit [LinearOrder K] in
/-- Cutting at a monotone test commutes with keeping the first `n`. -/
theorem filter_take_of_monotone {xs : List K} {p : K → Bool} {r : K → K → Prop}
    (h : xs.Pairwise r) (hp : ∀ a b, r a b → p b = true → p a = true) (n : Nat) :
    (xs.take n).filter p = (xs.filter p).take n := by
  rw [← takeWhile_eq_filter h hp, ← takeWhile_eq_filter (h.sublist (List.take_sublist n xs)) hp]
  induction xs generalizing n with
  | nil => simp
  | cons a rest ih =>
    cases n with
    | zero => simp
    | succ n =>
      by_cases hpa : p a = true
      · simp [List.takeWhile_cons_of_pos, hpa, ih (List.pairwise_cons.1 h).2 n]
      · simp [List.takeWhile_cons_of_neg, hpa]

theorem drop_bisectLeft {xs : List K} (h : xs.Pairwise (· < ·)) (k : K) :
    xs.drop (bisectLeft xs k) = xs.filter (k ≤ ·) := by
  rw [bisectLeft, drop_takeWhile_length, dropWhile_eq_filter h]
  · exact List.filter_congr fun a _ => by simp [← decide_not]
  · intro a b hab hb
    simp only [decide_eq_true_eq] at hb ⊢
    exact hab.trans hb

theorem take_bisectLeft {xs : List K} (h : xs.Pairwise (· < ·)) (k : K) :
    xs.take (bisectLeft xs k) = xs.filter (· < k) := by
  rw [bisectLeft, take_takeWhile_length, takeWhile_eq_filter h]
  intro a b hab hb
  simp only [decide_eq_true_eq] at hb ⊢
  exact hab.trans hb

theorem drop_bisectRight {xs : List K} (h : xs.Pairwise (· < ·)) (k : K) :
    xs.drop (bisectRight xs k) = xs.filter (k < ·) := by
  rw [bisectRight, drop_takeWhile_length, dropWhile_eq_filter h]
  · exact List.filter_congr fun a _ => by simp [← decide_not]
  · intro a b hab hb
    simp only [decide_eq_true_eq] at hb ⊢
    exact hab.le.trans hb

theorem take_bisectRight {xs : List K} (h : xs.Pairwise (· < ·)) (k : K) :
    xs.take (bisectRight xs k) = xs.filter (· ≤ k) := by
  rw [bisectRight, take_takeWhile_length, takeWhile_eq_filter h]
  intro a b hab hb
  simp only [decide_eq_true_eq] at hb ⊢
  exact hab.le.trans hb

/-- The key found at `bisect_left`, when there is one, is the least key `≥ k`. -/
theorem getElem?_bisectLeft {xs : List K} (h : xs.Pairwise (· < ·)) (k : K) :
    xs[bisectLeft xs k]? = some k ↔ k ∈ xs := by
  have hd := drop_bisectLeft h k
  have hhead : xs[bisectLeft xs k]? = (xs.filter (k ≤ ·)).head? := by
    rw [← hd, List.head?_drop]
  rw [hhead]
  constructor
  · intro hk
    exact (List.mem_filter.1 (List.mem_of_mem_head? hk)).1
  · intro hk
    have hmem : k ∈ xs.filter (k ≤ ·) := List.mem_filter.2 ⟨hk, by simp⟩
    have hsort : (xs.filter (k ≤ ·)).Pairwise (· < ·) := h.filter _
    cases hl : xs.filter (k ≤ ·) with
    | nil => rw [hl] at hmem; simp at hmem
    | cons a rest =>
      rw [hl] at hmem hsort
      have ha : k ≤ a := by
        have : a ∈ xs.filter (k ≤ ·) := by rw [hl]; simp
        simpa using (List.mem_filter.1 this).2
      rcases List.mem_cons.1 hmem with rfl | hm
      · rfl
      · exact absurd ((List.pairwise_cons.1 hsort).1 k hm) (not_lt.2 ha)

theorem eraseIdx_bisectLeft {xs : List K} (h : xs.Pairwise (· < ·)) {k : K} (hk : k ∈ xs) :
    xs.eraseIdx (bisectLeft xs k) = xs.filter (· ≠ k) := by
  induction xs with
  | nil => simp at hk
  | cons a rest ih =>
    obtain ⟨ha, hrest⟩ := List.pairwise_cons.1 h
    rcases List.mem_cons.1 hk with rfl | hk
    · have hall : rest.filter (· ≠ k) = rest :=
        List.filter_eq_self.2 fun b hb => by simpa using (ha b hb).ne'
      simp only [bisectLeft, lt_irrefl, decide_false, Bool.false_eq_true, not_false_eq_true,
        List.takeWhile_cons_of_neg, List.length_nil, List.eraseIdx_cons_zero, ne_eq, not_true_eq_false,
        List.filter_cons_of_neg]
      exact hall.symm
    · have hlt := ha k hk
      have := ih hrest hk
      simp only [bisectLeft] at this ⊢
      simp [hlt, hlt.ne, this]

/-! ## One slot of a list -/

section Slot

variable {A : Type}

theorem getD_middle (l r : List A) (x d : A) : (l ++ x :: r).getD l.length d = x := by
  simp

theorem set_middle (l r : List A) (x y : A) : (l ++ x :: r).set l.length y = l ++ y :: r := by
  simp

theorem insertIdx_middle (l r : List A) (x y : A) :
    (l ++ x :: r).insertIdx (l.length + 1) y = l ++ x :: y :: r := by
  induction l with
  | nil => simp
  | cons a l ih => simpa using ih

theorem eraseIdx_middle (l r : List A) (x : A) : (l ++ x :: r).eraseIdx l.length = l ++ r := by
  simp [List.eraseIdx_append_of_length_le]

theorem eraseIdx_middle_succ (l r : List A) (x y : A) :
    (l ++ x :: y :: r).eraseIdx (l.length + 1) = l ++ x :: r := by
  have := eraseIdx_middle (l ++ [x]) r y
  simpa using this

theorem getD_middle_succ (l r : List A) (x y d : A) :
    (l ++ x :: y :: r).getD (l.length + 1) d = y := by
  simp

end Slot

end Bisect
