/-
  `Kh57View.range`, `items` and iteration: what a range of keys is read as.

  A range is 64 scans, one a level, merged by the original key. `entriesIn` says which rows it is for:
  the items of the dict in the range, by ascending key. Within a level the order of the scan is that of
  the keys (`iterLevelItems_ascending`), so the merge ascends; `range_merged`: the merged scans are
  these rows, whatever the level of each key is. The reads of single keys answer from the same dict
  (`reads_exact`).
-/
import Virtuals.Views.Kh57Refines

namespace Virtuals.Views.Kh57View

open Virtuals.Lib

variable {P S C X : Type} (level : Key → Nat) (env : Env P S C X)

/-! ## The reads -/

/-- `_iter_level_items`: the rows of a level with a key in `[lo, hi)`. -/
def iterLevelItems (s : Site P S C) (lo hi l : Nat) : List (Nat × Child P S C) :=
  (scanEncodedRange s (l * 2 ^ 57 + lo) (l * 2 ^ 57 + hi)).filterMap fun e =>
    (s.children.get? e).map (e % 2 ^ 57, ·)

/-- The value of a row: a primitive as it is, a container as the facet reads it. -/
def readItem (a : Nat × Child P S C) : Except ViewError (Nat × (P ⊕ X)) :=
  (a.1, ·) <$> ViewBase.childValue env (some a.2)

/-- The rows of `[lo, hi)` of all levels, `_or_absent`, then each value. -/
def levelItems (lo hi : Nat) : EStateM ViewError (Site P S C) (List (Nat × (P ⊕ X))) := do
  let s ← get
  let rows := HeapMerge.merge Prod.fst ((List.range 64).map (iterLevelItems s lo hi))
  raiseIf (if s.created || !rows.isEmpty then none else some .containerNotFound)
  liftResult (rows.mapM (readItem env))

/-- `range`, read to its end. -/
def range (lo hi : Int) : EStateM ViewError (Site P S C) (List (Nat × (P ⊕ X))) :=
  if lo < 0 then throw .valueError
  else if 2 ^ 57 < hi then throw .valueError
  else if hi ≤ lo then pure []
  else levelItems env lo.toNat hi.toNat

/-- `items`, read to its end. -/
def items : EStateM ViewError (Site P S C) (List (Nat × (P ⊕ X))) := levelItems env 0 (2 ^ 57)

/-! ## What they are for -/

/-- The items of a dict with a key in `[lo, hi)`, by ascending key. -/
def entriesIn (m : DictModel Key (Child P S C)) (lo hi : Nat) : List (Nat × Child P S C) :=
  ((m.dict.items.filter fun a => lo ≤ a.1.val ∧ a.1.val < hi).map fun a =>
    (a.1.val, a.2)).mergeSort fun a b => a.1 ≤ b.1

theorem sortedByKey {V : Type} (l : List (Nat × V)) :
    (l.mergeSort fun a b => a.1 ≤ b.1).Pairwise fun a b => a.1 ≤ b.1 := by
  have hsorted := @List.pairwise_mergeSort (Nat × V) (fun a b => decide (a.1 ≤ b.1))
    (fun a b c hab hbc => by simp only [decide_eq_true_iff] at *; omega)
    (fun a b => by simp only [Bool.or_eq_true, decide_eq_true_iff]; omega) l
  exact hsorted.imp fun hab => of_decide_eq_true hab

variable {level env} {s : Site P S C} {m : DictModel Key (Child P S C)} {lo hi : Nat}

theorem mem_entriesIn {n : Nat} {c : Child P S C} :
    (n, c) ∈ entriesIn m lo hi ↔
      ∃ k : Key, k.val = n ∧ m.dict.get? k = some c ∧ lo ≤ n ∧ n < hi := by
  rw [entriesIn, List.mem_mergeSort, List.mem_map]
  constructor
  · rintro ⟨⟨k, c'⟩, ha, he⟩
    obtain ⟨rfl, rfl⟩ := Prod.mk.inj he
    rw [List.mem_filter, PyDict.mem_items, decide_eq_true_iff] at ha
    exact ⟨k, rfl, ha.1, ha.2⟩
  · rintro ⟨k, rfl, hk, hlo, hhi⟩
    refine ⟨(k, c), List.mem_filter.2 ⟨(PyDict.mem_items _ _ _).2 hk, ?_⟩, rfl⟩
    exact decide_eq_true ⟨hlo, hhi⟩

/-- Rows under one key are one row. -/
theorem entriesIn_unique {a b : Nat × Child P S C} (ha : a ∈ entriesIn m lo hi)
    (hb : b ∈ entriesIn m lo hi) (h : a.1 = b.1) : a = b := by
  obtain ⟨k, hk, hc, -⟩ := mem_entriesIn.1 ha
  obtain ⟨j, hj, hd, -⟩ := mem_entriesIn.1 hb
  obtain rfl : k = j := Fin.ext (hk.trans (h.trans hj.symm))
  exact Prod.ext h (Option.some.inj (hc.symm.trans hd))

theorem entries_perm (m : DictModel Key (Child P S C)) (lo hi : Nat) :
    (entriesIn m lo hi).Perm ((m.dict.items.filter fun a => lo ≤ a.1.val ∧ a.1.val < hi).map
      fun a => (a.1.val, a.2)) := List.mergeSort_perm _ _

theorem keyed_nodup (m : DictModel Key (Child P S C)) (p : Key × Child P S C → Bool) :
    ((m.dict.items.filter p).map fun a => a.1.val).Nodup := by
  have hkeys : ((m.dict.items.filter p).map Prod.fst).Nodup :=
    m.dict.nodup.sublist (List.filter_sublist.map _)
  have hval := hkeys.map Fin.val_injective
  rwa [List.map_map] at hval

/-- The rows of a range ascend, and no key comes twice. -/
theorem entriesIn_ascending (m : DictModel Key (Child P S C)) (lo hi : Nat) :
    (entriesIn m lo hi).Pairwise fun a b => a.1 < b.1 := by
  have hnd : (entriesIn m lo hi).Pairwise fun a b => a.1 ≠ b.1 := by
    have hkeys := (((entries_perm m lo hi).map Prod.fst).nodup_iff).2
      (by rw [List.map_map]; exact keyed_nodup m _)
    exact List.pairwise_map.1 hkeys
  exact ((sortedByKey _).and hnd).imp fun hab => lt_of_le_of_ne hab.1 hab.2

/-! ## The scans of the levels -/

theorem mem_iterLevelItems {l n : Nat} {c : Child P S C} :
    (n, c) ∈ iterLevelItems s lo hi l ↔
      ∃ e, s.children.get? e = some c ∧ e % 2 ^ 57 = n ∧ l * 2 ^ 57 + lo ≤ e ∧
        e < l * 2 ^ 57 + hi ∧ e < 2 ^ 63 := by
  simp only [iterLevelItems, scanEncodedRange, List.mem_filterMap, List.mem_filter,
    Table.mem_scan, decide_eq_true_iff, Option.map_eq_some_iff, Prod.mk.injEq]
  constructor
  · rintro ⟨e, ⟨-, hlo, hhi⟩, c', hc, rfl, rfl⟩
    exact ⟨e, hc, rfl, hlo, by omega, by omega⟩
  · rintro ⟨e, hc, rfl, hlo, hhi, hmax⟩
    refine ⟨e, ⟨?_, hlo, by omega⟩, c, hc, rfl, rfl⟩
    exact (Table.mem_keys _ _).2 (by rw [hc]; rfl)

/-- The row of a key is in the scan of its level, and in no other. -/
theorem mem_level (h : Rel level s m) (hlevel : ∀ k, level k < 64) (hhi : hi ≤ 2 ^ 57) {l n : Nat}
    {c : Child P S C} :
    (n, c) ∈ iterLevelItems s lo hi l ↔
      ∃ k : Key, k.val = n ∧ level k = l ∧ m.dict.get? k = some c ∧ lo ≤ n ∧ n < hi := by
  rw [mem_iterLevelItems]
  constructor
  · rintro ⟨e, hc, rfl, hlo, hhi', -⟩
    obtain ⟨k, rfl⟩ := h.encoded e ((Table.mem_keys _ _).2 (by rw [hc]; rfl))
    rw [h.rows] at hc
    have hk := k.isLt
    rw [encode_mod]
    have hl : level k = l := by
      unfold encode at hlo hhi'
      omega
    subst hl
    refine ⟨k, rfl, rfl, hc, ?_, ?_⟩
    · unfold encode at hlo
      omega
    · unfold encode at hhi'
      omega
  · rintro ⟨k, rfl, rfl, hc, hlo, hhi'⟩
    have hk := k.isLt
    have hl := hlevel k
    refine ⟨encode level k, (h.rows k).trans hc, encode_mod k, ?_, ?_, ?_⟩ <;>
      · unfold encode
        omega

theorem iterLevelItems_nodup (h : Rel level s m) (l : Nat) :
    (iterLevelItems s lo hi l).Nodup := by
  refine List.Nodup.filterMap ?_ ((Table.nodup_scan _).filter _)
  intro e e' a ha ha'
  obtain ⟨c, hc, rfl⟩ := Option.map_eq_some_iff.1 ha
  obtain ⟨c', hc', he⟩ := Option.map_eq_some_iff.1 ha'
  obtain ⟨k, rfl⟩ := h.encoded e ((Table.mem_keys _ _).2 (by rw [hc]; rfl))
  obtain ⟨j, rfl⟩ := h.encoded e' ((Table.mem_keys _ _).2 (by rw [hc']; rfl))
  have hkj := (Prod.mk.inj he).1
  rw [encode_mod, encode_mod] at hkj
  rw [Fin.ext hkj]

/-- The levels hold the rows of the range, each once. -/
theorem levels_entries (h : Rel level s m) (hlevel : ∀ k, level k < 64) (hhi : hi ≤ 2 ^ 57) :
    ((List.range 64).map (iterLevelItems s lo hi)).flatten.Perm (entriesIn m lo hi) := by
  have hnodup : ((List.range 64).map (iterLevelItems s lo hi)).flatten.Nodup := by
    refine List.nodup_flatten.2 ⟨fun rows hrows => ?_, ?_⟩
    · obtain ⟨l, -, rfl⟩ := List.mem_map.1 hrows
      exact iterLevelItems_nodup h l
    · refine List.pairwise_map.2 (List.nodup_range.imp fun {l l'} hne => ?_)
      rintro ⟨n, c⟩ hl hl'
      obtain ⟨k, hk, rfl, -⟩ := (mem_level h hlevel hhi).1 hl
      obtain ⟨j, hj, rfl, -⟩ := (mem_level h hlevel hhi).1 hl'
      exact hne (congrArg level (Fin.ext (hk.trans hj.symm)))
  have hentries : (entriesIn m lo hi).Nodup :=
    (entriesIn_ascending m lo hi).imp fun {a b} hab he => absurd hab (by rw [he]; exact lt_irrefl _)
  refine (List.perm_ext_iff_of_nodup hnodup hentries).2 fun ⟨n, c⟩ => ?_
  rw [mem_entriesIn, List.mem_flatten]
  constructor
  · rintro ⟨rows, hrows, hn⟩
    obtain ⟨l, -, rfl⟩ := List.mem_map.1 hrows
    obtain ⟨k, hk, -, hc, hrange⟩ := (mem_level h hlevel hhi).1 hn
    exact ⟨k, hk, hc, hrange⟩
  · rintro ⟨k, hk, hc, hrange⟩
    refine ⟨_, List.mem_map.2 ⟨level k, List.mem_range.2 (hlevel k), rfl⟩, ?_⟩
    exact (mem_level h hlevel hhi).2 ⟨k, hk, rfl, hc, hrange⟩

/-- The rows of a level ascend by key. -/
theorem iterLevelItems_ascending (s : Site P S C) (hhi : hi ≤ 2 ^ 57) (l : Nat) :
    HeapMerge.Ascending Prod.fst (iterLevelItems s lo hi l) := by
  refine List.Pairwise.filterMap _ (fun e e' hlt a ha a' ha' => ?_)
    (scanEncodedRange_mod s l (Nat.le_add_right _ _) (by omega))
  obtain ⟨c, -, rfl⟩ := Option.map_eq_some_iff.1 ha
  obtain ⟨c', -, rfl⟩ := Option.map_eq_some_iff.1 ha'
  exact le_of_lt hlt

/-- (PROVED) The merged scans are the rows of the range. -/
theorem range_merged (h : Rel level s m) (hlevel : ∀ k, level k < 64) (hhi : hi ≤ 2 ^ 57) :
    HeapMerge.merge Prod.fst ((List.range 64).map (iterLevelItems s lo hi)) = entriesIn m lo hi := by
  have hperm := (HeapMerge.perm Prod.fst ((List.range 64).map (iterLevelItems s lo hi))).trans
    (levels_entries h hlevel hhi)
  have hascending : HeapMerge.Ascending Prod.fst
      (HeapMerge.merge Prod.fst ((List.range 64).map (iterLevelItems s lo hi))) := by
    refine HeapMerge.ascending fun rows hrows => ?_
    obtain ⟨l, -, rfl⟩ := List.mem_map.1 hrows
    exact iterLevelItems_ascending s hhi l
  refine hperm.eq_of_pairwise (fun a b ha hb hab hba => ?_) hascending (sortedByKey _)
  exact entriesIn_unique (hperm.mem_iff.1 ha) hb (le_antisymm hab hba)

/-! ## A range read to its end -/

/-- A view never written has no rows. -/
theorem entriesIn_absent (h : Rel level s m) (hs : s.created = false) :
    entriesIn m lo hi = [] := by
  refine List.Perm.eq_nil ((entries_perm m lo hi).trans ?_)
  rw [h.items_absent hs]
  exact List.Perm.nil

theorem levelItems_eq (h : Rel level s m) (hlevel : ∀ k, level k < 64) (hhi : hi ≤ 2 ^ 57) :
    levelItems env lo hi s =
      if s.created then liftResult ((entriesIn m lo hi).mapM (readItem env)) s
      else .error .containerNotFound s := by
  unfold levelItems
  refine (bind_of_ok (get_apply s)).trans ?_
  simp only [range_merged h hlevel hhi]
  cases hs : s.created with
  | true =>
    simp only [Bool.true_or, if_true]
    rfl
  | false =>
    simp only [entriesIn_absent h hs, List.isEmpty_nil, Bool.not_true, Bool.or_self,
      Bool.false_eq_true, if_false]
    rfl

theorem iterLevelKeys_nil (hs : s.children = ∅) (l : Nat) : iterLevelKeys s l = [] := by
  have hscan : s.children.scan = [] := by
    refine List.eq_nil_of_length_eq_zero ?_
    rw [Table.length_scan, hs]
    rfl
  rw [iterLevelKeys, scanEncodedRange, hscan]
  rfl

/-- Iteration yields the keys of the whole range. -/
theorem iter_eq (h : Rel level s m) (hlevel : ∀ k, level k < 64) :
    iter s = if s.created then .ok ((entriesIn m 0 (2 ^ 57)).map Prod.fst) s
      else .error .containerNotFound s := by
  cases hs : s.created with
  | true =>
    obtain ⟨ks, hiter, hsorted, hperm⟩ := iter_keys h hs hlevel
    rw [hiter, if_pos rfl]
    refine congrArg (EStateM.Result.ok · s) ?_
    have hentries : ((entriesIn m 0 (2 ^ 57)).map Prod.fst).Perm (m.dict.keys.map Fin.val) := by
      refine ((entries_perm m 0 (2 ^ 57)).map Prod.fst).trans ?_
      have hall : (m.dict.items.filter fun a => 0 ≤ a.1.val ∧ a.1.val < 2 ^ 57) =
          m.dict.items :=
        List.filter_eq_self.2 fun a _ => decide_eq_true ⟨Nat.zero_le _, a.1.isLt⟩
      rw [hall, PyDict.keys, List.map_map, List.map_map]
      exact List.Perm.refl _
    refine (hperm.trans hentries.symm).eq_of_pairwise (fun a b _ _ => le_antisymm) hsorted ?_
    exact List.pairwise_map.2 (sortedByKey _)
  | false =>
    have hrows : (List.range 64).map (iterLevelKeys s) = List.replicate 64 [] := by
      rw [List.eq_replicate_iff]
      refine ⟨by rw [List.length_map, List.length_range], fun b hb => ?_⟩
      obtain ⟨l, -, rfl⟩ := List.mem_map.1 hb
      exact iterLevelKeys_nil (h.counts.absent hs).1 l
    unfold iter
    refine (bind_of_ok (get_apply s)).trans ?_
    have hmerge : HeapMerge.merge id (List.replicate 64 ([] : List Nat)) = [] :=
      List.Perm.eq_nil (by rw [← List.flatten_replicate_nil (n := 64)]; exact HeapMerge.perm id _)
    simp only [hrows, hmerge, hs]
    rfl

theorem range_eq (h : Rel level s m) (hlevel : ∀ k, level k < 64) (lo hi : Int) :
    range env lo hi s =
      if lo < 0 ∨ 2 ^ 57 < hi then .error .valueError s
      else if hi ≤ lo then .ok [] s
      else if s.created then
        liftResult ((entriesIn m lo.toNat hi.toNat).mapM (readItem env)) s
      else .error .containerNotFound s := by
  unfold range
  by_cases hlo : lo < 0
  · rw [if_pos hlo, if_pos (Or.inl hlo)]
    rfl
  by_cases hmax : 2 ^ 57 < hi
  · rw [if_neg hlo, if_pos hmax, if_pos (Or.inr hmax)]
    rfl
  rw [if_neg hlo, if_neg hmax, if_neg (not_or.2 ⟨hlo, hmax⟩)]
  by_cases hempty : hi ≤ lo
  · rw [if_pos hempty, if_pos hempty]
    rfl
  · rw [if_neg hempty, if_neg hempty]
    exact levelItems_eq h hlevel (by omega)

theorem contains_eq (h : Rel level s m) (address : Kh57Address) :
    contains level address s =
      match readKey address with
      | .error _ => .ok false s
      | .ok k =>
        if (m.dict.get? k).isSome then .ok true s
        else if s.created then .ok false s else .error .containerNotFound s := by
  have hread : (encoded level).read address = (readKey address).map (encode level) := rfl
  rw [contains, containsKey, hread]
  cases hk : readKey address with
  | error e => rfl
  | ok k =>
    have hfound : (base : ViewBase (Site P S C) Nat P S C).existsChild (encode level k) s =
        .ok (m.dict.get? k).isSome s := by
      rw [← h.rows k]
      rfl
    refine (bind_of_ok hfound).trans ?_
    cases hc : (m.dict.get? k).isSome with
    | true => simp only [hc, if_true]; rfl
    | false =>
      simp only [hc, Bool.false_eq_true, if_false]
      have hreq := ViewBase.requireExists_apply (base : ViewBase (Site P S C) Nat P S C) s
      have hmade : (base : ViewBase (Site P S C) Nat P S C).created s = s.created := rfl
      rw [hmade] at hreq
      cases hs : s.created with
      | true =>
        rw [hs, if_pos rfl] at hreq
        exact bind_of_ok hreq
      | false =>
        rw [hs, if_neg Bool.false_ne_true] at hreq
        exact bind_of_error hreq

theorem getItem_eq (h : Rel level s m) (address : Kh57Address) :
    getItem level env address s =
      match readKey address with
      | .error e => .error e s
      | .ok k => liftResult (ViewBase.childValue env (m.dict.get? k)) s := by
  have hread : (view level env : DictView (Site P S C) _ _ _ _ _).checks.read address =
      (readKey address).map (encode level) := rfl
  rw [getItem, DictView.getItem, hread]
  cases hk : readKey address with
  | error e => rfl
  | ok k =>
    have hchild : (base : ViewBase (Site P S C) Nat P S C).nodeInfo (encode level k) s =
        .ok (m.dict.get? k) s := congrArg (EStateM.Result.ok · s) (h.rows k)
    have hkey : (liftResult ((Except.ok k).map (encode level)) :
        EStateM ViewError (Site P S C) Nat) s = .ok (encode level k) s := rfl
    exact (bind_of_ok hkey).trans (bind_of_ok hchild)

/-- What the reads of a site answer, against the dict it stores. -/
structure ReadsExact (level : Key → Nat) (env : Env P S C X) (s : Site P S C)
    (m : DictModel Key (Child P S C)) : Prop where
  /-- iteration: the keys, ascending -/
  iter : iter s = if m.created then .ok ((entriesIn m 0 (2 ^ 57)).map Prod.fst) s
    else .error .containerNotFound s
  /-- `items`: the keys with their values -/
  items : items env s =
    if m.created then liftResult ((entriesIn m 0 (2 ^ 57)).mapM (readItem env)) s
    else .error .containerNotFound s
  /-- `range`: the rows in the range; bounds that the view cannot hold are refused -/
  range : ∀ lo hi : Int, range env lo hi s =
    if lo < 0 ∨ 2 ^ 57 < hi then .error .valueError s
    else if hi ≤ lo then .ok [] s
    else if m.created then
      liftResult ((entriesIn m lo.toNat hi.toNat).mapM (readItem env)) s
    else .error .containerNotFound s
  /-- membership: of a key the view can hold, that there is a row under it -/
  contains : ∀ address, contains level address s =
    match readKey address with
    | .error _ => .ok false s
    | .ok k =>
      if (m.dict.get? k).isSome then .ok true s
      else if m.created then .ok false s else .error .containerNotFound s
  /-- `[]`: the value of that row, KeyError without one -/
  getItem : ∀ address, getItem level env address s =
    match readKey address with
    | .error e => .error e s
    | .ok k => liftResult (ViewBase.childValue env (m.dict.get? k)) s

theorem Rel.readsExact (h : Rel level s m) (hlevel : ∀ k, level k < 64) :
    ReadsExact level env s m where
  iter := by rw [iter_eq h hlevel, h.created]
  items := by rw [Kh57View.items, levelItems_eq h hlevel (le_refl _), h.created]
  range lo hi := by rw [range_eq h hlevel, h.created]
  contains address := by rw [contains_eq h, h.created]
  getItem address := getItem_eq h address

/-- (PROVED) **Ranges are exact.** After any run of operations on a view never written, beside the
    same run of a dict: iteration, `items` and every `range` read exactly the dict's items in the
    range, by ascending key, each once; membership and `[]` answer from the same items. -/
theorem ranges_exact [DecidableEq S] (level : Key → Nat) (hlevel : ∀ k, level k < 64)
    (env : Env P S C X) (ops : List (DictOp Kh57Address P S C)) :
    let s := (outcomes (ops.map ((view level env).exec env)) Counted.absent).2
    let m := (outcomes (ops.map ((DictModel.view checks refusesKey).exec env)) DictModel.absent).2
    ReadsExact level env s m ∧
      ∀ lo hi : Nat, (entriesIn m lo hi).Pairwise (fun a b => a.1 < b.1) ∧
        ∀ (n : Nat) (c : Child P S C), (n, c) ∈ entriesIn m lo hi ↔
          ∃ k : Key, k.val = n ∧ m.dict.get? k = some c ∧ lo ≤ n ∧ n < hi := by
  intro s m
  have h : Rel level s m :=
    (Sim.outcomes ops (fun op _ => simulates.exec env op) rel_absent).2
  exact ⟨h.readsExact hlevel, fun lo hi =>
    ⟨entriesIn_ascending m lo hi, fun _ _ => mem_entriesIn⟩⟩

/-- A store that creates and takes everything. -/
def openEnv : Env Nat Unit Unit Unit := ⟨none, fun _ => none, fun _ _ => (), fun _ _ => .ok ()⟩

/-- Two keys of different levels: 7 on level 3, 5 on level 0. -/
theorem ranges_exact_levels :
    let level : Key → Nat := fun k => if k.val = 7 then 3 else 0
    let ops : List (DictOp Kh57Address Nat Unit Unit) :=
      [.set (.int 7) (.primitive 70), .set (.int 5) (.primitive 50)]
    ReadsExact level openEnv
      (outcomes (ops.map ((view level openEnv).exec openEnv)) Counted.absent).2
      (outcomes (ops.map ((DictModel.view checks refusesKey).exec openEnv)) DictModel.absent).2 :=
  (ranges_exact (fun k => if k.val = 7 then 3 else 0) (fun k => by split_ifs <;> omega) openEnv
    [.set (.int 7) (.primitive 70), .set (.int 5) (.primitive 50)]).1

end Virtuals.Views.Kh57View
