/-
  `SortedKeys` (`storages/mem/sorted_keys.py`): a sorted set of keys kept as sorted
  sublists with the list of their maxima beside it.

  `add`, `discard` and `page` are the source's, sublist by sublist. `WF` is the shape
  they keep: sublists non-empty and bounded, keys ascending across sublists, the
  maxima in step. On a well-formed index `add` and `discard` insert and remove one
  key (`mem_add`, `mem_discard`) and `page` is the first `n` keys of the range in
  scan order (`page_eq`).
-/
import Virtuals.Lib.Bisect
import Virtuals.Lib.ScanOrder
import Mathlib.Data.List.DropRight

namespace Virtuals.Mem

open Bisect ScanOrder

/-- Chunked sorted set of mutually comparable keys. -/
structure SortedKeys (K : Type) where
  lists : List (List K)
  maxes : List K
  len : Nat

namespace SortedKeys

variable {K : Type} [LinearOrder K]

/-- Sublists split at twice this and merge with a neighbour below half of it. -/
def LOAD : Nat := 1000

def empty : SortedKeys K := ⟨[], [], 0⟩

/-- Consecutive sublists of the load's length. -/
def chunks (values : List K) : List (List K) :=
  if values = [] then [] else values.take LOAD :: chunks (values.drop LOAD)
termination_by values.length
decreasing_by
  rename_i h
  have := List.length_pos_of_ne_nil h
  have hL : LOAD = 1000 := rfl
  rw [List.length_drop]
  omega

/-- `SortedKeys(keys)`: the index bulk-loaded with `keys`. -/
def ofKeys (keys : List K) : SortedKeys K :=
  let values := keys.mergeSort (· ≤ ·)
  ⟨chunks values, (chunks values).filterMap List.getLast?, values.length⟩

/-- `__iter__`: the keys in order. -/
def toList (s : SortedKeys K) : List K := s.lists.flatten

/-- Split sublist `pos` in two when it grew past twice the load (`key` stands for the
    maximum of an empty half, which does not occur). -/
def splitSub (s : SortedKeys K) (pos : Nat) (key : K) : SortedKeys K :=
  let sub := s.lists.getD pos []
  if sub.length > 2 * LOAD then
    let half := sub.length / 2
    { s with
      lists := (s.lists.set pos (sub.take half)).insertIdx (pos + 1) (sub.drop half)
      maxes := (s.maxes.set pos ((sub.take half).getLastD key)).insertIdx (pos + 1)
        ((sub.drop half).getLastD key) }
  else s

/-- Insert `key`, which must not be present. -/
def add (s : SortedKeys K) (key : K) : SortedKeys K :=
  if s.maxes = [] then ⟨s.lists ++ [[key]], s.maxes ++ [key], 1⟩
  else
    let pos := bisectLeft s.maxes key
    let pos := if pos = s.maxes.length then pos - 1 else pos
    let sub := insort (s.lists.getD pos []) key
    splitSub ⟨s.lists.set pos sub, s.maxes.set pos (sub.getLastD key), s.len + 1⟩ pos key

/-- (sublist, slot) of the first key `≥ key`; the sublist is past the end when there is none. -/
def locateLeft (s : SortedKeys K) (key : K) : Nat × Nat :=
  let pos := bisectLeft s.maxes key
  if pos = s.maxes.length then (pos, 0) else (pos, bisectLeft (s.lists.getD pos []) key)

/-- (sublist, slot) of the first key `> key`; the sublist is past the end when there is none. -/
def locateRight (s : SortedKeys K) (key : K) : Nat × Nat :=
  let pos := bisectRight s.maxes key
  if pos = s.maxes.length then (pos, 0) else (pos, bisectRight (s.lists.getD pos []) key)

/-- Fold the thin sublist `pos` into a neighbour, and split the result when it is too long. -/
def foldThin (s : SortedKeys K) (pos : Nat) (key : K) : SortedKeys K :=
  let sub := s.lists.getD pos []
  if sub.length < LOAD / 2 ∧ s.lists.length > 1 then
    let lo := if pos + 1 < s.lists.length then pos else pos - 1
    let both := s.lists.getD lo [] ++ s.lists.getD (lo + 1) []
    splitSub { s with
      lists := (s.lists.set lo both).eraseIdx (lo + 1)
      maxes := (s.maxes.eraseIdx (lo + 1)).set lo (both.getLastD key) } lo key
  else s

/-- Remove `key` if present; the flag says whether it was. -/
def discard (s : SortedKeys K) (key : K) : SortedKeys K × Bool :=
  let (pos, idx) := s.locateLeft key
  if pos = s.lists.length then (s, false)
  else
    let sub := s.lists.getD pos []
    if sub[idx]? ≠ some key then (s, false)
    else
      let sub := sub.eraseIdx idx
      if sub = [] then
        (⟨s.lists.eraseIdx pos, s.maxes.eraseIdx pos, s.len - 1⟩, true)
      else
        (foldThin ⟨s.lists.set pos sub, s.maxes.set pos (sub.getLastD key), s.len - 1⟩ pos key,
          true)

/-- The forward loop of `page`: the sublists left, the slot in the first one, the keys so far. -/
def takeForward (n : Nat) : List (List K) → Nat → List K → List K
  | [], _, out => out
  | sub :: rest, idx, out =>
    if out.length < n then
      takeForward n rest 0 (out ++ (sub.drop idx).take (n - out.length))
    else out

/-- The reverse loop of `page`: `left` sublists are left, the last of them up to slot `idx`. -/
def takeBackward (lists : List (List K)) (n : Nat) : Nat → Nat → List K → List K
  | 0, _, out => out
  | left + 1, idx, out =>
    if out.length < n then
      let sub := lists.getD left []
      let lo := idx - (n - out.length)
      let out := out ++ ((sub.take idx).drop lo).reverse
      takeBackward lists n left (if left = 0 then idx else (lists.getD (left - 1) []).length) out
    else out

/-- Up to `n` keys from `bound` in scan order: forward below `stop`, in reverse at or above it. -/
def page (s : SortedKeys K) (bound : Option K) (inclusive reverse : Bool) (n : Nat)
    (stop : Option K) : List K :=
  if n = 0 ∨ s.lists = [] then []
  else if !reverse then
    let (pos, idx) := match bound with
      | none => (0, 0)
      | some b => if inclusive then s.locateLeft b else s.locateRight b
    let out := takeForward n (s.lists.drop pos) idx []
    match stop with
    | none => out
    | some st =>
      match out.getLast? with
      | none => out
      | some l => if l ≥ st then out.take (bisectLeft out st) else out
  else
    let (pos, idx) := match bound with
      | none => (s.lists.length - 1, (s.lists.getD (s.lists.length - 1) []).length)
      | some b => if inclusive then s.locateRight b else s.locateLeft b
    let (pos, idx) :=
      if pos = s.lists.length then (pos - 1, (s.lists.getD (pos - 1) []).length) else (pos, idx)
    let out := takeBackward s.lists n (pos + 1) idx []
    match stop with
    | none => out
    | some st => out.rdropWhile (· < st)

/-! ## Well-formedness -/

/-- The shape `add` and `discard` keep. -/
structure WF (s : SortedKeys K) : Prop where
  nonempty : ∀ sub ∈ s.lists, sub ≠ []
  bounded : ∀ sub ∈ s.lists, sub.length ≤ 2 * LOAD
  sorted : s.toList.Pairwise (· < ·)
  maxes : s.maxes.map some = s.lists.map List.getLast?
  len : s.len = s.toList.length

theorem wf_empty : (empty : SortedKeys K).WF :=
  ⟨by simp [empty], by simp [empty], by simp [empty, toList], rfl, rfl⟩

omit [LinearOrder K] in
@[simp] theorem toList_empty : (empty : SortedKeys K).toList = [] := rfl

theorem WF.length_maxes {s : SortedKeys K} (h : s.WF) : s.maxes.length = s.lists.length := by
  simpa using congrArg List.length h.maxes

theorem WF.lists_sorted {s : SortedKeys K} (h : s.WF) : ∀ sub ∈ s.lists, sub.Pairwise (· < ·) :=
  (List.pairwise_flatten.1 h.sorted).1

omit [LinearOrder K] in
theorem getLast?_eq_some_getLastD {l : List K} (h : l ≠ []) (d : K) :
    l.getLast? = some (l.getLastD d) := by
  rw [List.getLast?_eq_getLast_of_ne_nil h, List.getLastD_eq_getLast?,
    List.getLast?_eq_getLast_of_ne_nil h]
  rfl

theorem le_getLast {l : List K} (h : l.Pairwise (· < ·)) {m : K} (hm : l.getLast? = some m)
    {x : K} (hx : x ∈ l) : x ≤ m := by
  obtain ⟨l', rfl⟩ := List.getLast?_eq_some_iff.1 hm
  rcases List.mem_append.1 hx with hx | hx
  · exact ((List.pairwise_append.1 h).2.2 x hx m (by simp)).le
  · simp only [List.mem_singleton] at hx
    exact hx.le

/-- Bisecting the maxima by a downward closed test `p` cuts the keys in two: those before the
    sublist found satisfy `p`, its maximum and so all keys after it do not. -/
theorem exists_cut {lists : List (List K)} {maxes : List K} (p : K → Bool)
    (hp : ∀ a b, a < b → p b = true → p a = true)
    (hs : lists.flatten.Pairwise (· < ·)) (hm : maxes.map some = lists.map List.getLast?) :
    ∃ A B, lists = A ++ B ∧ A.length = (maxes.takeWhile p).length ∧
      (∀ x ∈ A.flatten, p x = true) ∧
      (∀ sub B', B = sub :: B' → ∀ x ∈ B'.flatten, p x = false) ∧
      (∀ sub B', B = sub :: B' → ∃ m, sub.getLast? = some m ∧ p m = false) := by
  induction lists generalizing maxes with
  | nil =>
    obtain rfl : maxes = [] := by simpa using hm
    exact ⟨[], [], by simp⟩
  | cons sub rest ih =>
    rcases maxes with _ | ⟨m, ms⟩
    · simp at hm
    simp only [List.map_cons, List.cons.injEq] at hm
    rw [List.flatten_cons, List.pairwise_append] at hs
    by_cases hpm : p m = true
    · obtain ⟨A, B, hAB, hlen, hA, hB, hB'⟩ := ih hs.2.1 hm.2
      refine ⟨sub :: A, B, by simp [hAB], by simp [hpm, hlen], ?_, hB, hB'⟩
      intro x hx
      rw [List.flatten_cons, List.mem_append] at hx
      rcases hx with hx | hx
      · rcases (le_getLast hs.1 hm.1.symm hx).eq_or_lt with rfl | hlt
        · exact hpm
        · exact hp _ _ hlt hpm
      · exact hA x hx
    · refine ⟨[], sub :: rest, rfl, by simp [hpm], by simp, ?_, ?_⟩
      · intro sub' B' hB x hx
        obtain ⟨rfl, rfl⟩ := List.cons.inj hB
        by_contra hpx
        have hmem : m ∈ sub := List.mem_of_getLast? hm.1.symm
        exact hpm (hp _ _ (hs.2.2 m hmem x hx) (by simpa using hpx))
      · intro sub' B' hB
        obtain ⟨rfl, rfl⟩ := List.cons.inj hB
        exact ⟨m, hm.1.symm, by simpa using hpm⟩

/-! ## Insertion and removal -/

/-- Well-formed but for the length of one sublist, which `splitSub` mends. -/
theorem splitSub_wf (A B : List (List K)) (sub : List K) (MA MB : List K) (m : K) (len : Nat)
    (key : K) (hA : MA.length = A.length)
    (hne : ∀ x ∈ A ++ sub :: B, x ≠ []) (hb : ∀ x ∈ A ++ B, x.length ≤ 2 * LOAD)
    (hsub : sub.length ≤ 4 * LOAD) (hs : (A ++ sub :: B).flatten.Pairwise (· < ·))
    (hm : (MA ++ m :: MB).map some = (A ++ sub :: B).map List.getLast?)
    (hlen : len = (A ++ sub :: B).flatten.length) :
    (splitSub ⟨A ++ sub :: B, MA ++ m :: MB, len⟩ A.length key).WF ∧
      (splitSub ⟨A ++ sub :: B, MA ++ m :: MB, len⟩ A.length key).toList =
        (A ++ sub :: B).flatten := by
  have hL : LOAD = 1000 := rfl
  by_cases hlong : sub.length > 2 * LOAD
  · have hflat : (A ++ sub.take (sub.length / 2) :: sub.drop (sub.length / 2) :: B).flatten =
        (A ++ sub :: B).flatten := by
      simp only [List.flatten_append, List.flatten_cons, ← List.append_assoc]
      rw [List.append_assoc A.flatten, List.take_append_drop]
    have hne1 : sub.take (sub.length / 2) ≠ [] := by
      rw [Ne, List.take_eq_nil_iff]
      rintro (h | h)
      · omega
      · simp [h] at hlong
    have hne2 : sub.drop (sub.length / 2) ≠ [] := by
      rw [Ne, List.drop_eq_nil_iff]
      omega
    have heq : splitSub ⟨A ++ sub :: B, MA ++ m :: MB, len⟩ A.length key =
        ⟨A ++ sub.take (sub.length / 2) :: sub.drop (sub.length / 2) :: B,
          MA ++ (sub.take (sub.length / 2)).getLastD key ::
            (sub.drop (sub.length / 2)).getLastD key :: MB, len⟩ := by
      simp only [splitSub, getD_middle, if_pos hlong, set_middle, insertIdx_middle]
      rw [← hA, set_middle, insertIdx_middle]
    rw [heq]
    refine ⟨⟨?_, ?_, ?_, ?_, ?_⟩, hflat⟩
    · intro x hx
      simp only [List.mem_append, List.mem_cons] at hx hne
      rcases hx with hx | rfl | rfl | hx
      · exact hne x (Or.inl hx)
      · exact hne1
      · exact hne2
      · exact hne x (Or.inr (Or.inr hx))
    · intro x hx
      simp only [List.mem_append, List.mem_cons] at hx hb
      rcases hx with hx | rfl | rfl | hx
      · exact hb x (Or.inl hx)
      · simp only [List.length_take]; omega
      · simp only [List.length_drop]; omega
      · exact hb x (Or.inr hx)
    · simpa only [toList, hflat] using hs
    · have hparts : MA.map some = A.map List.getLast? ∧ MB.map some = B.map List.getLast? := by
        simp only [List.map_append, List.map_cons] at hm
        have := List.append_inj hm (by simp [hA])
        exact ⟨this.1, (List.cons.inj this.2).2⟩
      simp only [List.map_append, List.map_cons, hparts.1, hparts.2,
        ← getLast?_eq_some_getLastD hne1, ← getLast?_eq_some_getLastD hne2]
    · simpa only [toList, hflat] using hlen
  · have heq : splitSub ⟨A ++ sub :: B, MA ++ m :: MB, len⟩ A.length key =
        ⟨A ++ sub :: B, MA ++ m :: MB, len⟩ := by
      simp only [splitSub, getD_middle, if_neg hlong]
    rw [heq]
    refine ⟨⟨hne, ?_, hs, hm, hlen⟩, rfl⟩
    intro x hx
    simp only [List.mem_append, List.mem_cons] at hx hb
    rcases hx with hx | rfl | hx
    · exact hb x (Or.inl hx)
    · omega
    · exact hb x (Or.inr hx)

/-- The sublist `add` inserts into: keys before it are below the key, keys after it above. -/
theorem exists_add_slot {s : SortedKeys K} (h : s.WF) {key : K} (hne : s.maxes ≠ [])
    (hk : key ∉ s.toList) :
    ∃ A sub B, s.lists = A ++ sub :: B ∧
      A.length = (if bisectLeft s.maxes key = s.maxes.length then bisectLeft s.maxes key - 1
        else bisectLeft s.maxes key) ∧
      (∀ x ∈ A.flatten, x < key) ∧ (∀ x ∈ B.flatten, key < x) := by
  obtain ⟨A, B, hAB, hlen, hA, hB, -⟩ := exists_cut (· < key)
    (fun a b hab hb => by simpa using hab.trans (by simpa using hb)) h.sorted h.maxes
  simp only [decide_eq_true_eq, decide_eq_false_iff_not, not_lt] at hA hB
  have hpos : A.length = bisectLeft s.maxes key := hlen
  rcases B with _ | ⟨sub, B⟩
  · -- every key is below: the last sublist takes it
    have hfull : bisectLeft s.maxes key = s.maxes.length := by
      rw [← hpos, h.length_maxes, hAB]; simp
    have hA0 : A ≠ [] := by
      rintro rfl
      have : s.maxes.length = 0 := by rw [← hfull, ← hpos]; rfl
      exact hne (List.length_eq_zero_iff.1 this)
    obtain ⟨A', sub, rfl⟩ := List.eq_nil_or_concat A |>.resolve_left hA0
    refine ⟨A', sub, [], by simp [hAB], ?_, ?_, by simp⟩
    · rw [if_pos hfull, ← hpos]; simp
    · intro x hx
      exact hA x (by simp at hx ⊢; exact Or.inl hx)
  · refine ⟨A, sub, B, hAB, ?_, hA, ?_⟩
    · have : bisectLeft s.maxes key ≠ s.maxes.length := by
        rw [← hpos, h.length_maxes, hAB]; simp
      rw [if_neg this, hpos]
    · intro x hx
      refine lt_of_le_of_ne (hB sub B rfl x hx) ?_
      rintro rfl
      exact hk (by rw [toList, hAB]; simp at hx ⊢; tauto)

/-- Replacing one sublist keeps the maxima in step. -/
theorem exists_maxes_slot {s : SortedKeys K} (h : s.WF) {A B : List (List K)} {sub : List K}
    (hs : s.lists = A ++ sub :: B) :
    ∃ MA m MB, s.maxes = MA ++ m :: MB ∧ MA.length = A.length ∧
      MA.map some = A.map List.getLast? ∧ some m = sub.getLast? ∧
      MB.map some = B.map List.getLast? := by
  have hm := h.maxes
  rw [hs, List.map_append, List.map_cons] at hm
  obtain ⟨MA, M, hM, h1, h2⟩ := List.map_eq_append_iff.1 hm
  obtain ⟨m, MB, rfl, h3, h4⟩ := List.map_eq_cons_iff.1 h2
  exact ⟨MA, m, MB, hM, by simpa using congrArg List.length h1, h1, h3, h4⟩

/-- (PROVED) `add` of an absent key keeps the shape and inserts exactly that key. -/
theorem wf_add {s : SortedKeys K} (h : s.WF) (key : K) (hk : key ∉ s.toList) :
    (s.add key).WF ∧ ∀ x, x ∈ (s.add key).toList ↔ x = key ∨ x ∈ s.toList := by
  have hL : LOAD = 1000 := rfl
  by_cases hne : s.maxes = []
  · have hl : s.lists = [] := by
      have := h.length_maxes
      rw [hne] at this
      exact List.length_eq_zero_iff.1 this.symm
    have heq : s.add key = ⟨[[key]], [key], 1⟩ := by simp [add, hne, hl]
    rw [heq]
    refine ⟨⟨by simp, by simp [hL], by simp [toList], rfl, rfl⟩, ?_⟩
    simp [toList, hl]
  · obtain ⟨A, sub, B, hs, hpos, hA, hB⟩ := exists_add_slot h hne hk
    obtain ⟨MA, m, MB, hM, hMA, hm1, hm2, hm3⟩ := exists_maxes_slot h hs
    have hksub : key ∉ sub := fun hm => hk (by rw [toList, hs]; simp [hm])
    have hins : insort sub key ≠ [] := by
      intro he
      have := insort_length sub key
      simp [he] at this
    have hsort := h.sorted
    rw [toList, hs, List.flatten_append, List.flatten_cons] at hsort
    obtain ⟨hs1, hs2, hs12⟩ := List.pairwise_append.1 hsort
    obtain ⟨hs3, hs4, hs34⟩ := List.pairwise_append.1 hs2
    have heq : s.add key = splitSub ⟨A ++ insort sub key :: B,
        MA ++ (insort sub key).getLastD key :: MB, s.len + 1⟩ A.length key := by
      simp only [add, if_neg hne, ← hpos]
      rw [hs, getD_middle, set_middle, hM, ← hMA, set_middle]
    have hwf := splitSub_wf A B (insort sub key) MA MB ((insort sub key).getLastD key)
      (s.len + 1) key hMA ?_ ?_ ?_ ?_ ?_ ?_
    · rw [← heq] at hwf
      refine ⟨hwf.1, fun x => ?_⟩
      rw [hwf.2, toList, hs]
      simp only [List.flatten_append, List.flatten_cons, List.mem_append, mem_insort]
      tauto
    · intro x hx
      have hx' := h.nonempty x
      rw [hs] at hx'
      simp only [List.mem_append, List.mem_cons] at hx hx'
      rcases hx with hx | rfl | hx
      · exact hx' (Or.inl hx)
      · exact hins
      · exact hx' (Or.inr (Or.inr hx))
    · intro x hx
      exact h.bounded x (by rw [hs]; simp at hx ⊢; tauto)
    · have := h.bounded sub (by rw [hs]; simp)
      rw [insort_length]; omega
    · simp only [List.flatten_append, List.flatten_cons]
      refine List.pairwise_append.2 ⟨hs1, List.pairwise_append.2
        ⟨pairwise_insort hs3 hksub, hs4, ?_⟩, ?_⟩
      · intro a ha b hb
        rcases mem_insort.1 ha with rfl | ha
        · exact hB b hb
        · exact hs34 a ha b hb
      · intro a ha b hb
        rcases List.mem_append.1 hb with hb | hb
        · rcases mem_insort.1 hb with rfl | hb
          · exact hA a ha
          · exact hs12 a ha b (by simp [hb])
        · exact hs12 a ha b (by simp only [List.mem_append]; exact Or.inr hb)
    · simp only [List.map_append, List.map_cons, hm1, hm3, getLast?_eq_some_getLastD hins key]
    · have := h.len
      rw [toList, hs] at this
      simp only [List.flatten_append, List.flatten_cons, List.length_append,
        insort_length] at this ⊢
      omega

/-- Merging two neighbours and splitting what came out keeps the shape and the keys. -/
theorem fold_pair_wf (A B : List (List K)) (x y : List K) (MA MB : List K) (m m' : K) (len : Nat)
    (key : K) (hA : MA.length = A.length)
    (h : (⟨A ++ x :: y :: B, MA ++ m :: m' :: MB, len⟩ : SortedKeys K).WF)
    (hxy : x.length + y.length ≤ 4 * LOAD) :
    (splitSub ⟨A ++ (x ++ y) :: B, MA ++ (x ++ y).getLastD key :: MB, len⟩ A.length key).WF ∧
      (splitSub ⟨A ++ (x ++ y) :: B, MA ++ (x ++ y).getLastD key :: MB, len⟩ A.length key).toList =
        (A ++ x :: y :: B).flatten := by
  have hflat : (A ++ (x ++ y) :: B).flatten = (A ++ x :: y :: B).flatten := by simp
  have hx : x ≠ [] := h.nonempty x (by simp)
  have hxy0 : x ++ y ≠ [] := by simp [hx]
  have hm := h.maxes
  simp only [List.map_append, List.map_cons] at hm
  obtain ⟨hm1, hm2⟩ := List.append_inj hm (by simp [hA])
  have hm3 := (List.cons.inj (List.cons.inj hm2).2).2
  have hres := splitSub_wf A B (x ++ y) MA MB ((x ++ y).getLastD key) len key hA ?_ ?_ ?_ ?_ ?_ ?_
  · exact ⟨hres.1, hres.2.trans hflat⟩
  · intro z hz
    simp only [List.mem_append, List.mem_cons] at hz
    rcases hz with hz | rfl | hz
    · exact h.nonempty z (by simp [hz])
    · exact hxy0
    · exact h.nonempty z (by simp [hz])
  · intro z hz
    exact h.bounded z (by simp at hz ⊢; tauto)
  · rw [List.length_append]; exact hxy
  · rw [hflat]; exact h.sorted
  · simp only [List.map_append, List.map_cons, hm1, hm3, getLast?_eq_some_getLastD hxy0 key]
  · rw [hflat]; exact h.len

theorem foldThin_wf {A B : List (List K)} {sub : List K} {MA MB : List K} {m : K} {len : Nat}
    (key : K) (hA : MA.length = A.length)
    (h : (⟨A ++ sub :: B, MA ++ m :: MB, len⟩ : SortedKeys K).WF) :
    (foldThin ⟨A ++ sub :: B, MA ++ m :: MB, len⟩ A.length key).WF ∧
      (foldThin ⟨A ++ sub :: B, MA ++ m :: MB, len⟩ A.length key).toList =
        (A ++ sub :: B).flatten := by
  have hL : LOAD = 1000 := rfl
  by_cases hthin : sub.length < LOAD / 2 ∧ (A ++ sub :: B).length > 1
  · have hlenM := h.length_maxes
    rcases B with _ | ⟨sub', B⟩
    · -- the last sublist folds into the one before it
      have hA0 : A ≠ [] := by
        rintro rfl
        simp at hthin
      obtain ⟨A, x, rfl⟩ := List.eq_nil_or_concat A |>.resolve_left hA0
      have hMB : MB = [] := by
        rw [← List.length_eq_zero_iff]
        simp at hlenM hA
        omega
      obtain ⟨MA, m₀, rfl⟩ := List.eq_nil_or_concat MA |>.resolve_left
        (by rintro rfl; simp at hA)
      subst hMB
      have hA' : MA.length = A.length := by simpa using hA
      have hb := h.bounded x (by simp)
      have := fold_pair_wf A [] x sub MA [] m₀ m len key hA' (by simpa using h) (by omega)
      have heq : foldThin ⟨A.concat x ++ [sub], MA.concat m₀ ++ [m], len⟩ (A.concat x).length key =
          splitSub ⟨A ++ [x ++ sub], MA ++ [(x ++ sub).getLastD key], len⟩ A.length key := by
        have h1 : (A.concat x ++ [sub]).getD (A.concat x).length [] = sub := getD_middle _ _ _ _
        have h2 : A.concat x ++ [sub] = A ++ x :: sub :: [] := by simp
        have h3 : MA.concat m₀ ++ [m] = MA ++ m₀ :: m :: [] := by simp
        have h4 : ¬ (A.concat x).length + 1 < (A.concat x ++ [sub]).length := by simp
        have h5 : (A.concat x).length - 1 = A.length := by simp
        simp only [foldThin, h1, if_pos hthin, if_neg h4, h5]
        rw [h2, h3, getD_middle, getD_middle_succ, set_middle, eraseIdx_middle_succ, ← hA',
          eraseIdx_middle_succ, set_middle]
      rw [heq]
      simpa using this
    · obtain ⟨m', MB, rfl⟩ : ∃ m' MB', MB = m' :: MB' := by
        rcases MB with _ | ⟨m', MB⟩
        · simp at hlenM hA
          omega
        · exact ⟨m', MB, rfl⟩
      have hb := h.bounded sub' (by simp)
      have := fold_pair_wf A B sub sub' MA MB m m' len key hA h (by omega)
      have heq : foldThin ⟨A ++ sub :: sub' :: B, MA ++ m :: m' :: MB, len⟩ A.length key =
          splitSub ⟨A ++ (sub ++ sub') :: B, MA ++ (sub ++ sub').getLastD key :: MB, len⟩
            A.length key := by
        have h4 : A.length + 1 < (A ++ sub :: sub' :: B).length := by simp
        simp only [foldThin, getD_middle, if_pos hthin, if_pos h4]
        rw [getD_middle_succ, set_middle, eraseIdx_middle_succ, ← hA, eraseIdx_middle_succ,
          set_middle]
      rw [heq]
      exact this
  · have heq : foldThin ⟨A ++ sub :: B, MA ++ m :: MB, len⟩ A.length key =
        ⟨A ++ sub :: B, MA ++ m :: MB, len⟩ := by
      simp only [foldThin, getD_middle, if_neg hthin]
    rw [heq]
    exact ⟨h, rfl⟩

/-- Where `discard` looks: past every key, or in the one sublist that can hold the key. -/
theorem locateLeft_cases {s : SortedKeys K} (h : s.WF) (key : K) :
    ((s.locateLeft key).1 = s.lists.length ∧ key ∉ s.toList) ∨
      ∃ A sub B, s.lists = A ++ sub :: B ∧ s.locateLeft key = (A.length, bisectLeft sub key) ∧
        key ∉ A.flatten ∧ key ∉ B.flatten := by
  obtain ⟨A, B, hAB, hlen, hA, hB, hmax⟩ := exists_cut (· < key)
    (fun a b hab hb => by simpa using hab.trans (by simpa using hb)) h.sorted h.maxes
  simp only [decide_eq_true_eq, decide_eq_false_iff_not, not_lt] at hA hB hmax
  have hpos : A.length = bisectLeft s.maxes key := hlen
  have hkA : key ∉ A.flatten := fun hk => lt_irrefl _ (hA key hk)
  rcases B with _ | ⟨sub, B⟩
  · have hfull : bisectLeft s.maxes key = s.maxes.length := by
      rw [← hpos, h.length_maxes, hAB]; simp
    refine Or.inl ⟨by simp [locateLeft, hfull, h.length_maxes], ?_⟩
    rwa [toList, hAB, List.append_nil]
  · have hlt : bisectLeft s.maxes key ≠ s.maxes.length := by
      rw [← hpos, h.length_maxes, hAB]; simp
    refine Or.inr ⟨A, sub, B, hAB, ?_, hkA, fun hk => ?_⟩
    · simp only [locateLeft, if_neg hlt]
      rw [← hpos, hAB, getD_middle]
    · -- a key past the sublist is above its maximum, which is at least the key
      obtain ⟨m, hm, hkm⟩ := hmax sub B rfl
      have hs := h.sorted
      rw [toList, hAB, List.flatten_append, List.flatten_cons] at hs
      exact absurd ((List.pairwise_append.1 (List.pairwise_append.1 hs).2.1).2.2 m
        (List.mem_of_getLast? hm) key hk) (not_lt.2 hkm)

section Replace

variable {s : SortedKeys K} {A B : List (List K)} {sub sub' : List K} {MA MB : List K} {m : K}

/-- Dropping keys from one sublist, none left empty, keeps the shape. -/
theorem wf_replace (MA MB : List K) (len : Nat) (h : s.WF) (hs : s.lists = A ++ sub :: B) (key : K)
    (h1 : MA.map some = A.map List.getLast?) (h3 : MB.map some = B.map List.getLast?)
    (hsub : sub'.Sublist sub) (hne : sub' ≠ [])
    (hlen : len = (A ++ sub' :: B).flatten.length) :
    (⟨A ++ sub' :: B, MA ++ sub'.getLastD key :: MB, len⟩ : SortedKeys K).WF := by
  have hnon := h.nonempty
  have hbou := h.bounded
  have hsor := h.sorted
  rw [hs] at hnon hbou
  rw [toList, hs] at hsor
  refine ⟨?_, ?_, ?_, ?_, hlen⟩
  · intro x hx
    simp only [List.mem_append, List.mem_cons] at hx hnon
    rcases hx with hx | rfl | hx
    · exact hnon x (Or.inl hx)
    · exact hne
    · exact hnon x (Or.inr (Or.inr hx))
  · intro x hx
    simp only [List.mem_append, List.mem_cons] at hx hbou
    rcases hx with hx | rfl | hx
    · exact hbou x (Or.inl hx)
    · exact hsub.length_le.trans (hbou sub (Or.inr (Or.inl rfl)))
    · exact hbou x (Or.inr (Or.inr hx))
  · rw [toList, List.flatten_append, List.flatten_cons]
    rw [List.flatten_append, List.flatten_cons] at hsor
    exact hsor.sublist ((List.Sublist.refl _).append (hsub.append (List.Sublist.refl _)))
  · simp only [List.map_append, List.map_cons, h1, h3, getLast?_eq_some_getLastD hne key]

/-- Dropping a whole sublist keeps the shape. -/
theorem wf_remove (h : s.WF) (hs : s.lists = A ++ sub :: B)
    (h1 : MA.map some = A.map List.getLast?) (h3 : MB.map some = B.map List.getLast?) {len : Nat}
    (hlen : len = (A ++ B).flatten.length) :
    (⟨A ++ B, MA ++ MB, len⟩ : SortedKeys K).WF := by
  have hsl : (A ++ B).Sublist (A ++ sub :: B) :=
    (List.Sublist.refl A).append (List.sublist_cons_self sub B)
  have hsor := h.sorted
  rw [toList, hs, List.flatten_append, List.flatten_cons] at hsor
  refine ⟨fun x hx => h.nonempty x (hs ▸ hsl.subset hx),
    fun x hx => h.bounded x (hs ▸ hsl.subset hx), ?_, by simp [h1, h3], hlen⟩
  rw [toList, List.flatten_append]
  exact hsor.sublist ((List.Sublist.refl _).append (List.sublist_append_right _ _))

/-- What `discard` does with the sublist that holds the key. -/
theorem discard_present (h : s.WF) {key : K} (hs : s.lists = A ++ sub :: B)
    (hloc : s.locateLeft key = (A.length, bisectLeft sub key)) (hk : key ∈ sub) :
    (s.discard key).2 = true ∧ (s.discard key).1.WF ∧
      (s.discard key).1.toList = (A ++ sub.filter (· ≠ key) :: B).flatten := by
  have hsub : sub.Pairwise (· < ·) := h.lists_sorted sub (by rw [hs]; simp)
  have hidx : sub[bisectLeft sub key]? = some key := (getElem?_bisectLeft hsub key).2 hk
  obtain ⟨MA, m, MB, hM, hMA, hm1, hm2, hm3⟩ := exists_maxes_slot h hs
  have herase := eraseIdx_bisectLeft hsub hk
  have hpos : A.length ≠ s.lists.length := by rw [hs]; simp
  have hcount : (sub.filter (· ≠ key)).length + 1 = sub.length := by
    have hi := (List.getElem?_eq_some_iff.1 hidx).1
    rw [← herase, List.length_eraseIdx_of_lt hi]; omega
  have hlen := h.len
  rw [toList, hs, List.flatten_append, List.flatten_cons, List.length_append,
    List.length_append] at hlen
  have hunfold : s.discard key =
      if sub.filter (· ≠ key) = [] then
        (⟨s.lists.eraseIdx A.length, s.maxes.eraseIdx A.length, s.len - 1⟩, true)
      else (foldThin ⟨s.lists.set A.length (sub.filter (· ≠ key)),
        s.maxes.set A.length ((sub.filter (· ≠ key)).getLastD key), s.len - 1⟩ A.length key,
        true) := by
    have hslot : s.lists.getD A.length [] = sub := by rw [hs, getD_middle]
    simp only [discard, hloc, if_neg hpos, hslot, hidx, not_true_eq_false, if_false, herase, ne_eq]
  by_cases hnil : sub.filter (· ≠ key) = []
  · rw [if_pos hnil, hs, eraseIdx_middle, hM, ← hMA, eraseIdx_middle] at hunfold
    rw [hunfold]
    refine ⟨rfl, wf_remove h hs hm1 hm3 ?_, by rw [hnil]; simp [toList]⟩
    rw [hnil] at hcount
    simp only [List.flatten_append, List.length_append, List.length_nil] at hcount ⊢
    omega
  · rw [if_neg hnil, hs, set_middle, hM, ← hMA, set_middle, hMA] at hunfold
    have hwf := wf_replace MA MB (s.len - 1) h hs key hm1 hm3
      List.filter_sublist hnil (by
        simp only [List.flatten_append, List.flatten_cons, List.length_append]
        omega)
    obtain ⟨h1, h2⟩ := foldThin_wf key hMA hwf
    rw [hunfold]
    exact ⟨rfl, h1, h2⟩

end Replace

/-- (PROVED) `discard` keeps the shape, removes exactly the key, and says whether it was there. -/
theorem wf_discard {s : SortedKeys K} (h : s.WF) (key : K) :
    (s.discard key).1.WF ∧ (∀ x, x ∈ (s.discard key).1.toList ↔ x ≠ key ∧ x ∈ s.toList) ∧
      ((s.discard key).2 = true ↔ key ∈ s.toList) := by
  have habsent : key ∉ s.toList → s.discard key = (s, false) →
      (s.discard key).1.WF ∧ (∀ x, x ∈ (s.discard key).1.toList ↔ x ≠ key ∧ x ∈ s.toList) ∧
        ((s.discard key).2 = true ↔ key ∈ s.toList) := by
    intro hk heq
    rw [heq]
    exact ⟨h, fun x => ⟨fun hx => ⟨fun he => hk (he ▸ hx), hx⟩, fun hx => hx.2⟩, by simp [hk]⟩
  rcases locateLeft_cases h key with ⟨hloc, hk⟩ | ⟨A, sub, B, hs, hloc, hkA, hkB⟩
  · refine habsent hk ?_
    rw [discard]
    simp only [hloc, if_true]
  · have hmem : key ∈ s.toList ↔ key ∈ sub := by
      rw [toList, hs, List.flatten_append, List.flatten_cons, List.mem_append, List.mem_append]
      tauto
    by_cases hk : key ∈ sub
    · obtain ⟨h1, h2, h3⟩ := discard_present h hs hloc hk
      refine ⟨h2, fun x => ?_, by simp [h1, hmem, hk]⟩
      rw [h3, toList, hs]
      simp only [List.flatten_append, List.flatten_cons, List.mem_append, List.mem_filter,
        decide_eq_true_eq]
      constructor
      · rintro (hx | hx | hx)
        · exact ⟨fun he => hkA (he ▸ hx), Or.inl hx⟩
        · exact ⟨hx.2, Or.inr (Or.inl hx.1)⟩
        · exact ⟨fun he => hkB (he ▸ hx), Or.inr (Or.inr hx)⟩
      · rintro ⟨hne, hx | hx | hx⟩
        · exact Or.inl hx
        · exact Or.inr (Or.inl ⟨hx, hne⟩)
        · exact Or.inr (Or.inr hx)
    · have hsub : sub.Pairwise (· < ·) := h.lists_sorted sub (by rw [hs]; simp)
      have hidx : sub[bisectLeft sub key]? ≠ some key :=
        fun he => hk ((getElem?_bisectLeft hsub key).1 he)
      refine habsent (mt hmem.1 hk) ?_
      have hslot : s.lists.getD A.length [] = sub := by rw [hs, getD_middle]
      have hpos : A.length ≠ s.lists.length := by rw [hs]; simp
      simp only [discard, hloc, if_neg hpos, hslot, if_pos hidx]

/-! ## Bulk load -/

omit [LinearOrder K] in
theorem chunks_spec (values : List K) : (chunks values).flatten = values ∧
    ∀ sub ∈ chunks values, sub ≠ [] ∧ sub.length ≤ LOAD := by
  fun_induction chunks values with
  | case1 => simp
  | case2 values hne ih =>
    have hL : LOAD = 1000 := rfl
    refine ⟨by rw [List.flatten_cons, ih.1, List.take_append_drop], fun sub hsub => ?_⟩
    rcases List.mem_cons.1 hsub with rfl | hsub
    · refine ⟨?_, by rw [List.length_take]; omega⟩
      rw [Ne, List.take_eq_nil_iff]
      rintro (h | h)
      · omega
      · exact hne h
    · exact ih.2 sub hsub

/-- (PROVED) The bulk-loaded index is well-formed and holds exactly the keys given. -/
theorem wf_ofKeys {keys : List K} (h : keys.Nodup) :
    (ofKeys keys).WF ∧ ∀ x, x ∈ (ofKeys keys).toList ↔ x ∈ keys := by
  have hL : LOAD = 1000 := rfl
  obtain ⟨hflat, hsub⟩ := chunks_spec (keys.mergeSort (· ≤ ·))
  have hlist : (ofKeys keys).toList = keys.mergeSort (· ≤ ·) := hflat
  refine ⟨⟨fun sub hs => (hsub sub hs).1, fun sub hs => ?_, ?_, ?_, by rw [hlist]; rfl⟩,
    fun x => by rw [hlist, List.mem_mergeSort]⟩
  · have := (hsub sub hs).2
    omega
  · have hle : (keys.mergeSort (· ≤ ·)).Pairwise (· ≤ ·) := by
      simpa using @List.pairwise_mergeSort K (fun a b => decide (a ≤ b))
        (fun a b c => by simpa using le_trans) (fun a b => by simpa using le_total a b) keys
    have hnd : (keys.mergeSort (· ≤ ·)).Nodup := (List.mergeSort_perm _ _).nodup_iff.2 h
    rw [hlist]
    exact (hle.and hnd).imp fun hab => lt_of_le_of_ne hab.1 hab.2
  · change ((chunks (keys.mergeSort (· ≤ ·))).filterMap List.getLast?).map some = _
    change _ = (chunks (keys.mergeSort (· ≤ ·))).map List.getLast?
    have hsome : ∀ sub ∈ chunks (keys.mergeSort (· ≤ ·)), sub ≠ [] := fun sub hs => (hsub sub hs).1
    generalize chunks (keys.mergeSort (· ≤ ·)) = l at hsome
    induction l with
    | nil => rfl
    | cons sub rest ih =>
      rw [List.filterMap_cons_some (List.getLast?_eq_getLast_of_ne_nil (hsome sub (by simp)))]
      simp only [List.map_cons, ih fun s hs => hsome s (by simp [hs]),
        List.getLast?_eq_getLast_of_ne_nil (hsome sub (by simp))]

/-! ## Pages -/

omit [LinearOrder K] in
theorem takeForward_eq (n : Nat) (subs : List (List K)) (idx : Nat) (out : List K)
    (hout : out.length ≤ n) :
    takeForward n subs idx out =
      out ++ (((subs.headD []).drop idx) ++ subs.tail.flatten).take (n - out.length) := by
  induction subs generalizing idx out with
  | nil => simp [takeForward]
  | cons sub rest ih =>
    by_cases h : out.length < n
    · simp only [takeForward, if_pos h, List.headD_cons, List.tail_cons]
      rw [ih 0 _ (by simp; omega), List.drop_zero, List.append_assoc]
      congr 1
      have hrest : rest.headD [] ++ rest.tail.flatten = rest.flatten := by cases rest <;> simp
      rw [hrest, List.take_append, List.length_append, List.length_take]
      congr 2
      omega
    · have : n - out.length = 0 := by omega
      simp [takeForward, h, this]

omit [LinearOrder K] in
theorem takeBackward_eq (lists : List (List K)) (n left idx : Nat) (out : List K)
    (hout : out.length ≤ n) (hidx : ∀ j, left = j + 1 → idx ≤ (lists.getD j []).length) :
    takeBackward lists n left idx out =
      out ++ ((lists.take (left - 1)).flatten ++
        (if left = 0 then [] else (lists.getD (left - 1) []).take idx)).reverse.take
          (n - out.length) := by
  induction left generalizing idx out with
  | zero => simp [takeBackward]
  | succ left ih =>
    have hi := hidx left rfl
    by_cases h : out.length < n
    · set sub := lists.getD left [] with hsub
      have hpiece : ((sub.take idx).drop (idx - (n - out.length))).reverse =
          (sub.take idx).reverse.take (n - out.length) := by
        rw [List.take_reverse, List.length_take, Nat.min_eq_left hi]
      have hprev : (lists.take (left - 1)).flatten ++
          (if left = 0 then [] else (lists.getD (left - 1) []).take
            (if left = 0 then idx else (lists.getD (left - 1) []).length)) =
          (lists.take left).flatten := by
        rcases left with _ | j
        · simp
        · simp only [Nat.add_sub_cancel, Nat.add_eq_zero_iff, one_ne_zero, and_false, if_false,
            List.take_length]
          rw [List.take_add_one, List.flatten_append]
          congr 1
          rw [List.getD_eq_getElem?_getD]
          cases lists[j]? <;> simp
      simp only [takeBackward, if_pos h, hpiece, ← hsub]
      rw [ih _ _ (by simp; omega) (by rintro j rfl; simp), hprev]
      simp only [Nat.add_sub_cancel, Nat.add_eq_zero_iff, one_ne_zero, and_false, if_false,
        List.reverse_append, List.append_assoc, ← hsub]
      congr 1
      rw [List.take_append, List.length_append, List.length_take]
      congr 2
      omega
    · have : n - out.length = 0 := by omega
      simp [takeBackward, h, this]

/-- Slot `(pos, idx)` cuts the keys into those a downward closed test accepts and the rest. -/
structure CutAt (s : SortedKeys K) (slot : Nat × Nat) (p : K → Bool) : Prop where
  before : (s.lists.take slot.1).flatten ++ (s.lists.getD slot.1 []).take slot.2 =
    s.toList.filter p
  after : ((s.lists.drop slot.1).headD []).drop slot.2 ++ (s.lists.drop slot.1).tail.flatten =
    s.toList.filter fun k => !p k
  slot_le : slot.2 ≤ (s.lists.getD slot.1 []).length
  pos_le : slot.1 ≤ s.lists.length

theorem cutAt_of_bisect {s : SortedKeys K} (h : s.WF) (p : K → Bool)
    (hp : ∀ a b, a < b → p b = true → p a = true) (cut : List K → Nat)
    (hcut : ∀ sub : List K, sub.Pairwise (· < ·) →
      cut sub ≤ sub.length ∧ sub.take (cut sub) = sub.filter p ∧
        sub.drop (cut sub) = sub.filter fun k => !p k)
    (hmax : cut s.maxes = (s.maxes.takeWhile p).length) :
    CutAt s (if cut s.maxes = s.maxes.length then (cut s.maxes, 0)
      else (cut s.maxes, cut (s.lists.getD (cut s.maxes) []))) p := by
  obtain ⟨A, B, hAB, hlen, hA, hB, -⟩ := exists_cut p hp h.sorted h.maxes
  have hpos : A.length = cut s.maxes := hlen.trans hmax.symm
  have hfA : A.flatten.filter p = A.flatten := List.filter_eq_self.2 hA
  have hfA' : A.flatten.filter (fun k => !p k) = [] :=
    List.filter_eq_nil_iff.2 fun x hx => by simp [hA x hx]
  have hlists : s.lists.length = A.length + B.length := by rw [hAB, List.length_append]
  rcases B with _ | ⟨sub, B⟩
  · have hfull : cut s.maxes = s.maxes.length := by
      rw [← hpos, h.length_maxes, hAB]; simp
    rw [if_pos hfull, ← hpos]
    rw [List.append_nil] at hAB
    refine ⟨?_, ?_, by simp, by simp [hAB]⟩
    · simp [toList, hAB, hfA]
    · simp [toList, hAB, hfA']
  · have hlt : cut s.maxes ≠ s.maxes.length := by
      rw [← hpos, h.length_maxes, hAB]; simp
    have hsub : sub.Pairwise (· < ·) := h.lists_sorted sub (by rw [hAB]; simp)
    obtain ⟨hc1, hc2, hc3⟩ := hcut sub hsub
    have hfB : B.flatten.filter p = [] :=
      List.filter_eq_nil_iff.2 fun x hx => by simp [hB sub B rfl x hx]
    have hfB' : B.flatten.filter (fun k => !p k) = B.flatten :=
      List.filter_eq_self.2 fun x hx => by simp [hB sub B rfl x hx]
    rw [if_neg hlt, ← hpos]
    have hget : s.lists.getD A.length [] = sub := by rw [hAB, getD_middle]
    refine ⟨?_, ?_, by simpa only [hget] using hc1, by omega⟩
    · simp only [hget, hc2]
      simp [toList, hAB, hfA, hfB]
    · simp only [hget]
      simp only [toList, hAB, List.drop_left, List.headD_cons, List.tail_cons, hc3,
        List.flatten_append, List.flatten_cons, List.filter_append, hfA', hfB', List.nil_append]

theorem cutAt_locateLeft {s : SortedKeys K} (h : s.WF) (key : K) :
    CutAt s (s.locateLeft key) fun k => decide (k < key) := by
  refine cutAt_of_bisect h (fun k => decide (k < key))
    (fun a b hab hb => by simpa using hab.trans (by simpa using hb)) (bisectLeft · key)
    (fun sub hsub => ⟨(List.takeWhile_prefix _).length_le, take_bisectLeft hsub key, ?_⟩) rfl
  rw [drop_bisectLeft hsub]
  exact List.filter_congr fun a _ => by simp [← decide_not]

theorem cutAt_locateRight {s : SortedKeys K} (h : s.WF) (key : K) :
    CutAt s (s.locateRight key) fun k => decide (k ≤ key) := by
  refine cutAt_of_bisect h (fun k => decide (k ≤ key))
    (fun a b hab hb => by simpa using hab.le.trans (by simpa using hb)) (bisectRight · key)
    (fun sub hsub => ⟨(List.takeWhile_prefix _).length_le, take_bisectRight hsub key, ?_⟩) rfl
  rw [drop_bisectRight hsub]
  exact List.filter_congr fun a _ => by simp [← decide_not]

/-- The keys a scan from `bound` meets, in scan order. -/
def fromBound (s : SortedKeys K) (bound : Option K) (inclusive reverse : Bool) : List K :=
  let keys := s.toList.filter (FromBound reverse bound inclusive)
  if reverse then keys.reverse else keys

theorem fromBound_sorted {s : SortedKeys K} (h : s.WF) (bound : Option K)
    (inclusive reverse : Bool) :
    (s.fromBound bound inclusive reverse).Pairwise (Before reverse) := by
  cases reverse
  · exact h.sorted.filter _
  · exact List.pairwise_reverse.2 (h.sorted.filter _)

/-- The forward loop reads the first `n` keys from the bound. -/
theorem takeForward_fromBound {s : SortedKeys K} (h : s.WF) (bound : Option K)
    (inclusive : Bool) (n : Nat) :
    takeForward n (s.lists.drop (match bound with
      | none => (0, 0)
      | some b => if inclusive then s.locateLeft b else s.locateRight b).1) (match bound with
      | none => (0, 0)
      | some b => if inclusive then s.locateLeft b else s.locateRight b).2 [] =
      (s.fromBound bound inclusive false).take n := by
  rw [takeForward_eq _ _ _ _ (by simp)]
  simp only [List.nil_append, List.length_nil, Nat.sub_zero, fromBound, Bool.false_eq_true,
    if_false]
  congr 1
  rcases bound with _ | b
  · have : s.lists.headD [] ++ s.lists.tail.flatten = s.lists.flatten := by
      cases s.lists <;> simp
    simp only [List.drop_zero, this]
    exact (List.filter_eq_self.2 fun _ _ => decide_eq_true trivial).symm
  · cases inclusive
    · simp only [Bool.false_eq_true, if_false, (cutAt_locateRight h b).after]
      exact List.filter_congr fun a _ => by simp [FromBound, Before, ← decide_not]
    · simp only [if_true, (cutAt_locateLeft h b).after]
      exact List.filter_congr fun a _ => by simp [FromBound, Before, ← decide_not]

omit [LinearOrder K] in
/-- Walking back from the slot a downward closed test cuts at reads what the test accepts. -/
theorem takeBackward_cut {s : SortedKeys K} (hl : s.lists ≠ []) {slot : Nat × Nat} {p : K → Bool}
    (h : CutAt s slot p) (n : Nat) :
    takeBackward s.lists n
      ((if slot.1 = s.lists.length then (slot.1 - 1, (s.lists.getD (slot.1 - 1) []).length)
        else slot).1 + 1)
      (if slot.1 = s.lists.length then (slot.1 - 1, (s.lists.getD (slot.1 - 1) []).length)
        else slot).2 [] = (s.toList.filter p).reverse.take n := by
  have hpos : 0 < s.lists.length := List.length_pos_of_ne_nil hl
  by_cases hend : slot.1 = s.lists.length
  · have hget : s.lists.getD s.lists.length [] = [] := by simp
    have hbefore := h.before
    rw [hend, List.take_length, hget, List.take_nil, List.append_nil] at hbefore
    rw [if_pos hend, takeBackward_eq _ _ _ _ _ (by simp) (by
      intro j hj
      obtain rfl : slot.1 - 1 = j := by simpa using hj
      exact le_refl _)]
    have hlast : (s.lists.take (s.lists.length - 1)).flatten ++
        s.lists.getD (s.lists.length - 1) [] = s.lists.flatten := by
      conv_rhs => rw [← List.take_length (l := s.lists),
        show s.lists.length = s.lists.length - 1 + 1 by omega, List.take_add_one]
      rw [List.flatten_append, List.getD_eq_getElem?_getD]
      congr 1
      rw [List.getElem?_eq_getElem (by omega)]
      simp
    simp only [Nat.add_sub_cancel, Nat.add_eq_zero_iff, one_ne_zero, and_false, if_false,
      List.take_length, List.nil_append, List.length_nil, Nat.sub_zero, hend, hlast]
    rw [← hbefore]
  · rw [if_neg hend, takeBackward_eq _ _ _ _ _ (by simp) (by
      intro j hj
      obtain rfl : slot.1 = j := by simpa using hj
      exact h.slot_le)]
    simp only [Nat.add_sub_cancel, Nat.add_eq_zero_iff, one_ne_zero, and_false, if_false,
      List.nil_append, List.length_nil, Nat.sub_zero, h.before]

/-- The reverse loop reads the first `n` keys from the bound, downwards. -/
theorem takeBackward_fromBound {s : SortedKeys K} (h : s.WF) (hl : s.lists ≠ [])
    (bound : Option K) (inclusive : Bool) (n : Nat) :
    ∃ slot, slot = (match bound with
        | none => (s.lists.length - 1, (s.lists.getD (s.lists.length - 1) []).length)
        | some b => if inclusive then s.locateRight b else s.locateLeft b) ∧
      takeBackward s.lists n
        ((if slot.1 = s.lists.length then (slot.1 - 1, (s.lists.getD (slot.1 - 1) []).length)
          else slot).1 + 1)
        (if slot.1 = s.lists.length then (slot.1 - 1, (s.lists.getD (slot.1 - 1) []).length)
          else slot).2 [] = (s.fromBound bound inclusive true).take n := by
  refine ⟨_, rfl, ?_⟩
  have hpos : 0 < s.lists.length := List.length_pos_of_ne_nil hl
  rcases bound with _ | b
  · have hcut : CutAt s (s.lists.length, 0) fun _ => true := by
      refine ⟨?_, ?_, by simp, le_refl _⟩
      · rw [List.filter_eq_self.2 fun _ _ => rfl]
        simp [toList]
      · simp
    have := takeBackward_cut hl hcut n
    have hne : s.lists.length - 1 ≠ s.lists.length := by omega
    simp only [if_true] at this
    simp only [if_neg hne, this, fromBound, if_true]
    rw [List.filter_eq_self.2 fun _ _ => rfl]
    congr 2
    exact (List.filter_eq_self.2 fun _ _ => decide_eq_true trivial).symm
  · cases inclusive
    · simp only [Bool.false_eq_true, if_false, takeBackward_cut hl (cutAt_locateLeft h b)]
      simp [fromBound, FromBound, Before]
    · simp only [if_true, takeBackward_cut hl (cutAt_locateRight h b)]
      simp [fromBound, FromBound, Before]

theorem trim_forward {out : List K} (h : out.Pairwise (· < ·)) (stop : Option K) :
    (match stop with
      | none => out
      | some st =>
        match out.getLast? with
        | none => out
        | some l => if l ≥ st then out.take (bisectLeft out st) else out) =
      out.filter (WithinStop false stop) := by
  rcases stop with _ | st
  · exact (List.filter_eq_self.2 fun _ _ => decide_eq_true trivial).symm
  · rcases hl : out.getLast? with _ | l
    · obtain rfl := List.getLast?_eq_none_iff.1 hl
      rfl
    · by_cases hls : l ≥ st
      · simp only [if_pos hls, take_bisectLeft h]
        simp [WithinStop]
      · simp only [if_neg hls]
        rw [eq_comm, List.filter_eq_self]
        intro a ha
        simpa [WithinStop] using (le_getLast h hl ha).trans_lt (not_le.1 hls)

theorem trim_backward {out : List K} (h : out.Pairwise (· > ·)) (stop : Option K) :
    (match stop with
      | none => out
      | some st => out.rdropWhile (· < st)) = out.filter (WithinStop true stop) := by
  rcases stop with _ | st
  · exact (List.filter_eq_self.2 fun _ _ => decide_eq_true trivial).symm
  · have hrev : out.reverse.Pairwise (· < ·) := List.pairwise_reverse.2 h
    simp only [List.rdropWhile]
    rw [dropWhile_eq_filter hrev fun a b hab hb => by simpa using hab.trans (by simpa using hb),
      ← List.filter_reverse, List.reverse_reverse]
    exact List.filter_congr fun a _ => by simp [WithinStop, ← decide_not]

/-- (PROVED) `page` is the first `n` keys of the range, in scan order. -/
theorem page_eq {s : SortedKeys K} (h : s.WF) (bound : Option K) (inclusive reverse : Bool)
    (n : Nat) (stop : Option K) :
    s.page bound inclusive reverse n stop =
      ((s.fromBound bound inclusive reverse).filter (WithinStop reverse stop)).take n := by
  by_cases hn : n = 0 ∨ s.lists = []
  · simp only [page, if_pos hn]
    rcases hn with rfl | hl
    · simp
    · have : s.toList = [] := by simp [toList, hl]
      cases reverse <;> simp [fromBound, this]
  · simp only [page, if_neg hn]
    have hsort := fromBound_sorted h bound inclusive reverse
    cases reverse
    · simp only [Bool.not_false, if_true, takeForward_fromBound h bound inclusive n]
      rw [trim_forward (hsort.sublist (List.take_sublist _ _))]
      exact filter_take_of_monotone hsort
        (fun a b hab hb => by simpa using withinStop_of_before (by simpa using hb) hab) n
    · obtain ⟨slot, hslot, hout⟩ := takeBackward_fromBound h (not_or.1 hn).2 bound inclusive n
      simp only [Bool.not_true, Bool.false_eq_true, if_false, ← hslot, hout]
      rw [trim_backward (hsort.sublist (List.take_sublist _ _))]
      exact filter_take_of_monotone hsort
        (fun a b hab hb => by simpa using withinStop_of_before (by simpa using hb) hab) n

/-- The keys of a range, in scan order. -/
def keysInRange (s : SortedKeys K) (bound : Option K) (inclusive reverse : Bool)
    (stop : Option K) : List K :=
  (s.fromBound bound inclusive reverse).filter (WithinStop reverse stop)

theorem keysInRange_sorted {s : SortedKeys K} (h : s.WF) (bound : Option K)
    (inclusive reverse : Bool) (stop : Option K) :
    (s.keysInRange bound inclusive reverse stop).Pairwise (Before reverse) :=
  (fromBound_sorted h bound inclusive reverse).filter _

theorem mem_keysInRange {s : SortedKeys K} {bound : Option K} {inclusive reverse : Bool}
    {stop : Option K} {k : K} :
    k ∈ s.keysInRange bound inclusive reverse stop ↔
      k ∈ s.toList ∧ InRange reverse bound inclusive stop k := by
  cases reverse <;>
    simp only [keysInRange, fromBound, InRange, Bool.false_eq_true, if_false, if_true,
      List.mem_filter, List.mem_reverse, decide_eq_true_eq, and_assoc]

end SortedKeys

end Virtuals.Mem
