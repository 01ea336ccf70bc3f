/-
  `rebuild_bookkeeping` of a fractional indexed dict.

  A sweep over `__order__` keeps the first row of every id with data; a sweep over `__pos__` corrects
  or deletes each row; ids with data and no order row are appended. A position row is never added for
  an id whose order row was kept. So the areas come to agree if each such id had a position row,
  whatever that said (`rebuild_repairs`).
-/
import Mathlib.Data.List.Dedup
import Virtuals.Lib.PyDict
import Virtuals.Views.FractionalRows

namespace Virtuals.Views.FractionalIndexedDictView

open Virtuals.Lib Virtuals.FractionalIndex

variable {K P S C : Type} [LinearOrder K]

/-- `rebuild_bookkeeping` of one child, by the view of its structure. -/
def rebuildChild (rebuild : S → C → C × Option ViewError) (k : K) :
    EStateM ViewError (Fractional K P S C) Unit := do
  let child ← (fun s => s.data.get? k) <$> get
  match child with
  | some (.container structureId content) => do
    modify fun s => { s with
      data := s.data.put k (.container structureId (rebuild structureId content).1) }
    raiseIf (rebuild structureId content).2
  | _ => pure ()

omit [LinearOrder K] in
/-- One row of `__order__`: the first that names an id with data is kept, any other deleted. -/
def keepFirst [DecidableEq K] (present : K → Bool) (acc : PyDict K OrderKey × Table OrderKey K)
    (row : OrderKey × K) : PyDict K OrderKey × Table OrderKey K :=
  if present row.2 && (acc.1.get? row.2).isNone then (acc.1.set row.2 row.1, acc.2)
  else (acc.1, acc.2.erase row.1)

omit [LinearOrder K] in
/-- One row of `__pos__`: without a kept order row it goes, with another one it is corrected. -/
def realign [DecidableEq K] (seen : PyDict K OrderKey) (pos : Table K OrderKey)
    (row : K × OrderKey) : Table K OrderKey :=
  match seen.get? row.1 with
  | none => pos.erase row.1
  | some want => if row.2 = want then pos else pos.put row.1 want

/-- Whether an id has data. -/
def present (s : Fractional K P S C) (k : K) : Bool := (s.data.get? k).isSome

/-- The order rows kept, by id, and `__order__` without the others. -/
def keptRows (s : Fractional K P S C) : PyDict K OrderKey × Table OrderKey K :=
  s.order.rows.foldl (keepFirst (present s)) (PyDict.empty, s.order)

/-- `__pos__` made to agree with the order rows kept. -/
def realigned (seen : PyDict K OrderKey) (pos : Table K OrderKey) : Table K OrderKey :=
  pos.rows.foldl (realign seen) pos

/-- An id that the index never recorded is appended. -/
def appendLast (k : K) : EStateM ViewError (Fractional K P S C) Unit := do
  let last ← edge true false
  place k (last.map Prod.fst) none

/-- `_rebuild_bookkeeping`. -/
def rebuildIndexes : EStateM ViewError (Fractional K P S C) Unit := do
  let s ← get
  let seen := (keptRows s).1
  modify fun s => { s with order := (keptRows s).2, pos := realigned seen s.pos }
  (s.data.scan.filter fun k => (seen.get? k).isNone).forM appendLast

/-- `rebuild_bookkeeping`: the children's first, and silent on a view never written. -/
def rebuildBookkeeping (rebuild : S → C → C × Option ViewError) :
    EStateM ViewError (Fractional K P S C) Unit := do
  let s ← get
  onlyIf s.created do
    s.data.scan.forM (rebuildChild rebuild)
    rebuildIndexes

/-! ## The order rows kept -/

/-- The ids of some rows that count, each at its first row. -/
def firstIds (p : K → Bool) (rows : List (OrderKey × K)) : List K :=
  ((rows.map Prod.snd).filter p).reverse.dedup.reverse

theorem mem_firstIds {p : K → Bool} {rows : List (OrderKey × K)} {k : K} :
    k ∈ firstIds p rows ↔ k ∈ rows.map Prod.snd ∧ p k = true := by
  rw [firstIds, List.mem_reverse, List.mem_dedup, List.mem_reverse, List.mem_filter]

theorem nodup_firstIds (p : K → Bool) (rows : List (OrderKey × K)) : (firstIds p rows).Nodup :=
  List.nodup_reverse.2 (List.nodup_dedup _)

theorem firstIds_concat (p : K → Bool) (rows : List (OrderKey × K)) (row : OrderKey × K) :
    firstIds p (rows ++ [row]) =
      if p row.2 = true ∧ row.2 ∉ firstIds p rows then firstIds p rows ++ [row.2]
      else firstIds p rows := by
  by_cases hp : p row.2 = true
  · have hfilter : ((rows ++ [row]).map Prod.snd).filter p =
        (rows.map Prod.snd).filter p ++ [row.2] := by
      rw [List.map_append, List.filter_append]
      simp [hp]
    rw [firstIds, hfilter, List.reverse_concat]
    by_cases hmem : row.2 ∈ firstIds p rows
    · rw [if_neg fun h => h.2 hmem, List.dedup_cons_of_mem]
      · rfl
      · rwa [firstIds, List.mem_reverse, List.mem_dedup] at hmem
    · rw [if_pos ⟨hp, hmem⟩, List.dedup_cons_of_notMem, List.reverse_cons]
      · rfl
      · rwa [firstIds, List.mem_reverse, List.mem_dedup] at hmem
  · have hfilter : ((rows ++ [row]).map Prod.snd).filter p = (rows.map Prod.snd).filter p := by
      rw [List.map_append, List.filter_append]
      simp [hp]
    rw [if_neg fun h => hp h.1, firstIds, hfilter]
    rfl

/-- The sweep of `__order__` between the rows `done` and `rest`: of the first, those kept stand, and
    are seen. -/
structure Swept (p : K → Bool) (done rest : List (OrderKey × K))
    (acc : PyDict K OrderKey × Table OrderKey K) (kept : List (OrderKey × K)) : Prop where
  rows : acc.2.rows = kept ++ rest
  ids : kept.map Prod.snd = firstIds p done
  seen : ∀ k okey, acc.1.get? k = some okey ↔ (okey, k) ∈ kept

theorem Swept.step {p : K → Bool} {done rest kept : List (OrderKey × K)} {row : OrderKey × K}
    {acc : PyDict K OrderKey × Table OrderKey K} (h : Swept p done (row :: rest) acc kept) :
    ∃ kept', Swept p (done ++ [row]) rest (keepFirst p acc row) kept' ∧ kept'.Sublist (kept ++ [row]) := by
  obtain ⟨okey, k⟩ := row
  have hunseen : acc.1.get? k = none ↔ k ∉ firstIds p done := by
    rw [← h.ids, Option.eq_none_iff_forall_ne_some]
    constructor
    · intro hne hmem
      obtain ⟨⟨o, j⟩, hrow, rfl⟩ := List.mem_map.1 hmem
      exact hne o ((h.seen j o).2 hrow)
    · exact fun hmem o ho => hmem (List.mem_map.2 ⟨_, (h.seen k o).1 ho, rfl⟩)
  rw [keepFirst]
  split_ifs with hc
  · rw [Bool.and_eq_true, Option.isNone_iff_eq_none] at hc
    refine ⟨kept ++ [(okey, k)], ⟨?_, ?_, fun j o => ?_⟩, List.Sublist.refl _⟩
    · rw [h.rows, List.append_assoc]
      rfl
    · rw [firstIds_concat, if_pos ⟨hc.1, hunseen.1 hc.2⟩, List.map_append, h.ids]
      rfl
    · rw [PyDict.get?_set, List.mem_append, ← h.seen, List.mem_singleton, Prod.mk.injEq]
      split_ifs with hj
      · subst hj
        simp [hc.2, eq_comm]
      · simp [hj]
  · refine ⟨kept, ⟨?_, ?_, h.seen⟩, List.sublist_append_left _ _⟩
    · have hsorted := acc.2.rows_sorted
      rw [h.rows, List.pairwise_append, List.pairwise_cons] at hsorted
      obtain ⟨-, ⟨hafter, -⟩, hbefore⟩ := hsorted
      have hkept : kept.filter (fun a => a.1 ≠ okey) = kept := List.filter_eq_self.2 fun a ha =>
        decide_eq_true (ne_of_lt (hbefore a ha _ List.mem_cons_self))
      have hrest : rest.filter (fun a => a.1 ≠ okey) = rest := List.filter_eq_self.2 fun a ha =>
        decide_eq_true (ne_of_gt (hafter a ha))
      rw [Table.rows_erase, h.rows, List.filter_append, List.filter_cons_of_neg (by simp), hkept,
        hrest]
    · rw [firstIds_concat, if_neg, h.ids]
      rintro ⟨hp, hmem⟩
      refine hc ?_
      rw [Bool.and_eq_true, Option.isNone_iff_eq_none]
      exact ⟨hp, hunseen.2 hmem⟩

theorem Swept.foldl {p : K → Bool} {done rest kept : List (OrderKey × K)}
    {acc : PyDict K OrderKey × Table OrderKey K} (h : Swept p done rest acc kept) :
    ∃ kept', Swept p (done ++ rest) [] (rest.foldl (keepFirst p) acc) kept' ∧
      kept'.Sublist (kept ++ rest) := by
  induction rest generalizing done acc kept with
  | nil => exact ⟨kept, by rwa [List.append_nil], by rw [List.append_nil]⟩
  | cons row rest ih =>
    obtain ⟨kept₁, h₁, hsub₁⟩ := h.step
    obtain ⟨kept', h', hsub'⟩ := ih h₁
    refine ⟨kept', by rwa [List.append_assoc] at h', hsub'.trans ?_⟩
    rw [List.append_cons]
    exact hsub₁.append_right rest

variable {s : Fractional K P S C}

/-- (PROVED) The rows kept are first rows of ids with data, and they are seen. -/
theorem keptRows_spec (s : Fractional K P S C) :
    Swept (present s) s.order.rows [] (keptRows s) (keptRows s).2.rows ∧
      (keptRows s).2.rows.Sublist s.order.rows := by
  have hstart : Swept (present s) [] s.order.rows (PyDict.empty, s.order) [] :=
    ⟨rfl, rfl, fun k okey => by simp⟩
  obtain ⟨kept, h, hsub⟩ := hstart.foldl
  have hrows : (keptRows s).2.rows = kept := by
    have := h.rows
    rwa [List.append_nil] at this
  rw [hrows]
  exact ⟨h, hsub⟩

/-! ## The position rows -/

theorem realign_get? {seen : PyDict K OrderKey} {pos : Table K OrderKey} {k : K} {okey : OrderKey}
    (h : pos.get? k = some okey) (j : K) :
    (realign seen pos (k, okey)).get? j = if j = k then seen.get? k else pos.get? j := by
  simp only [realign]
  cases hk : seen.get? k with
  | none => exact Table.get?_erase _ _ _
  | some want =>
    show (if okey = want then pos else pos.put k want).get? j = _
    by_cases hw : okey = want
    · rw [if_pos hw]
      split_ifs with hj
      · rw [hj, h, hw]
      · rfl
    · rw [if_neg hw]
      exact Table.get?_put _ _ _ _

theorem realign_foldl {seen : PyDict K OrderKey} {l : List (K × OrderKey)}
    (hl : (l.map Prod.fst).Nodup) {pos : Table K OrderKey}
    (h : ∀ row ∈ l, pos.get? row.1 = some row.2) (j : K) :
    (l.foldl (realign seen) pos).get? j =
      if j ∈ l.map Prod.fst then seen.get? j else pos.get? j := by
  induction l generalizing pos with
  | nil => rfl
  | cons row l ih =>
    obtain ⟨hrow, hl⟩ := List.nodup_cons.1 hl
    have hget : ∀ j, (realign seen pos row).get? j = if j = row.1 then seen.get? row.1 else pos.get? j :=
      realign_get? (h row List.mem_cons_self)
    have hne : ∀ other ∈ l, other.1 ≠ row.1 := fun other ho he =>
      hrow (List.mem_map.2 ⟨other, ho, he⟩)
    have hlater : ∀ other ∈ l, (realign seen pos row).get? other.1 = some other.2 := by
      intro other ho
      rw [hget, if_neg (hne other ho)]
      exact h other (List.mem_cons_of_mem _ ho)
    rw [List.foldl_cons, ih hl hlater, hget]
    by_cases hj : j = row.1
    · rw [if_pos hj, ← hj, ite_self, if_pos (hj ▸ List.mem_cons_self)]
    · rw [if_neg hj]
      simp only [List.map_cons, List.mem_cons, hj, false_or]

/-- (PROVED) A position row stays if its id has an order row, and then names it. -/
theorem realigned_get? (seen : PyDict K OrderKey) (pos : Table K OrderKey) (k : K) :
    (realigned seen pos).get? k = if (pos.get? k).isSome then seen.get? k else none := by
  rw [realigned, realign_foldl pos.nodup_rows fun row hrow => Table.mem_rows.1 hrow,
    Table.rows_map_fst]
  cases hk : pos.get? k with
  | none => rw [if_neg (by rw [Table.mem_scan, Table.mem_keys, hk]; decide)]; rfl
  | some okey => rw [if_pos (by rw [Table.mem_scan, Table.mem_keys, hk]; rfl)]; rfl

/-! ## The sweeps -/

/-- The rows after both sweeps. -/
def swept (s : Fractional K P S C) : Fractional K P S C :=
  { s with order := (keptRows s).2, pos := realigned (keptRows s).1 s.pos }

theorem swept_ids (s : Fractional K P S C) :
    (swept s).order.rows.map Prod.snd = firstIds (present s) s.order.rows :=
  (keptRows_spec s).1.ids

theorem swept_pos (s : Fractional K P S C) (k : K) (okey : OrderKey) :
    (swept s).pos.get? k = some okey ↔
      (s.pos.get? k).isSome ∧ (swept s).order.get? okey = some k := by
  have hseen := (keptRows_spec s).1.seen k okey
  rw [Table.mem_rows] at hseen
  show (realigned _ _).get? k = _ ↔ _
  rw [realigned_get?, ← show _ ↔ (swept s).order.get? okey = some k from hseen]
  split_ifs with hk
  · simp [hk]
  · simp [hk]

/-- The sweeps leave valid keys, one for each id, which its position row names. -/
theorem swept_sound (h : ∀ okey k, s.order.get? okey = some k → Valid okey) : Sound (swept s) where
  valid okey k hk := h okey k (Table.mem_rows.1 ((keptRows_spec s).2.subset (Table.mem_rows.2 hk)))
  points k okey hk _ := ((swept_pos s k okey).1 hk).2
  once := by
    rw [swept_ids]
    exact nodup_firstIds _ _

/-! ## The ids appended -/

/-- Every id that has data and an order row has a position row, whatever it names. -/
def Recorded (s : Fractional K P S C) : Prop :=
  ∀ k okey, s.order.get? okey = some k → (s.data.get? k).isSome → (s.pos.get? k).isSome

/-- The areas while some ids are still to be appended. -/
structure Appending (s : Fractional K P S C) (placed todo : List K) (s' : Fractional K P S C) :
    Prop where
  data : s'.data = s.data
  sound : Sound s'
  ids : s'.order.rows.map Prod.snd = placed
  missing : ∀ k ∈ todo, k ∉ placed
  once : todo.Nodup
  /-- every id with an order row has a position row, and no other -/
  recorded : Recorded s → ∀ k, (s'.pos.get? k).isSome ↔ k ∈ placed

theorem Appending.step {placed todo : List K} {k : K} {s₁ : Fractional K P S C}
    (h : Appending s placed (k :: todo) s₁) :
    ∃ s₂, appendLast k s₁ = .ok () s₂ ∧ Appending s (placed ++ [k]) todo s₂ := by
  have hk : k ∉ s₁.order.rows.map Prod.snd := by
    rw [h.ids]
    exact h.missing k List.mem_cons_self
  obtain ⟨hnot, htodo⟩ := List.nodup_cons.1 h.once
  obtain ⟨s₂, hrun, hplaced⟩ := place_last h.sound hk
  have hids : s₂.order.rows.map Prod.snd = placed ++ [k] := by
    rw [hplaced.ids, h.ids]
    rfl
  refine ⟨s₂, hrun, ⟨hplaced.data.trans h.data, hplaced.sound, hids, fun j hj hmem => ?_, htodo,
    fun hs j => ?_⟩⟩
  · rcases List.mem_append.1 hmem with hmem | hmem
    · exact h.missing j (List.mem_cons_of_mem _ hj) hmem
    · exact hnot (List.mem_singleton.1 hmem ▸ hj)
  · rw [List.mem_append, List.mem_singleton]
    constructor
    · intro hj
      rcases hplaced.only j hj with hj | hj | hj
      · exact Or.inr hj
      · exact Or.inl ((h.recorded hs j).1 hj)
      · exact Or.inl (h.ids ▸ hj)
    · rintro (hj | hj)
      · exact hplaced.recorded j (Or.inr ((h.recorded hs j).2 hj))
      · exact hplaced.recorded j (Or.inl hj)

theorem Appending.forM {placed todo : List K} {s₁ : Fractional K P S C}
    (h : Appending s placed todo s₁) :
    ∃ s', todo.forM appendLast s₁ = .ok PUnit.unit s' ∧ Appending s (placed ++ todo) [] s' := by
  induction todo generalizing placed s₁ with
  | nil => exact ⟨s₁, rfl, by rwa [List.append_nil]⟩
  | cons k todo ih =>
    obtain ⟨s₂, hrun, h₂⟩ := h.step
    obtain ⟨s', hrest, h'⟩ := ih h₂
    exact ⟨s', (bind_of_ok hrun).trans hrest, by rwa [List.append_assoc] at h'⟩

/-! ## The repair -/

/-- The areas are in bijection over the ids with data, and the ids that had an order row come first,
    in the order of the first one that each had. -/
structure Repaired (s s' : Fractional K P S C) : Prop where
  /-- an id has an order row exactly if it has data -/
  covers : ∀ k, k ∈ s'.order.rows.map Prod.snd ↔ (s.data.get? k).isSome
  /-- it has one order row -/
  once : (s'.order.rows.map Prod.snd).Nodup
  /-- the position row of an id names its order row, and there is no other position row -/
  inverse : ∀ k okey, s'.pos.get? k = some okey ↔ s'.order.get? okey = some k
  /-- no data is lost or made -/
  data : ∀ k, (s'.data.get? k).isSome ↔ (s.data.get? k).isSome
  /-- the ids with a usable order row keep their relative order -/
  ordered : ∃ added, s'.order.rows.map Prod.snd = firstIds (present s) s.order.rows ++ added

theorem Recorded.swept (h : Recorded s) (k : K) :
    ((swept s).pos.get? k).isSome ↔ k ∈ firstIds (present s) s.order.rows := by
  rw [← swept_ids, Option.isSome_iff_exists, List.mem_map]
  constructor
  · rintro ⟨okey, hk⟩
    exact ⟨_, Table.mem_rows.2 ((swept_pos s k okey).1 hk).2, rfl⟩
  · rintro ⟨⟨okey, j⟩, hrow, rfl⟩
    have hids : j ∈ (FractionalIndexedDictView.swept s).order.rows.map Prod.snd :=
      List.mem_map.2 ⟨_, hrow, rfl⟩
    rw [swept_ids, mem_firstIds] at hids
    have hold := Table.mem_rows.1 ((keptRows_spec s).2.subset hrow)
    exact ⟨okey, (swept_pos s j okey).2 ⟨h j okey hold hids.2, Table.mem_rows.1 hrow⟩⟩

/-- The id of an order row has no other. -/
theorem Sound.unique (h : Sound s) {k : K} {o o' : OrderKey} (ho : s.order.get? o = some k)
    (ho' : s.order.get? o' = some k) : o = o' :=
  congrArg Prod.fst (List.inj_on_of_nodup_map h.once (Table.mem_rows.2 ho) (Table.mem_rows.2 ho')
    rfl)

theorem appending_start (h : ∀ okey k, s.order.get? okey = some k → Valid okey) :
    Appending s (firstIds (present s) s.order.rows)
      (s.data.scan.filter fun k => ((keptRows s).1.get? k).isNone) (swept s) where
  data := rfl
  sound := swept_sound h
  ids := swept_ids s
  missing k hk hmem := by
    have hnone := (List.mem_filter.1 hk).2
    rw [← (keptRows_spec s).1.ids] at hmem
    obtain ⟨⟨okey, j⟩, hrow, rfl⟩ := List.mem_map.1 hmem
    rw [((keptRows_spec s).1.seen j okey).2 hrow] at hnone
    cases hnone
  once := s.data.nodup_scan.filter _
  recorded hs := hs.swept

/-- An id with data is kept or appended. -/
theorem covers_split (s : Fractional K P S C) (k : K) :
    k ∈ firstIds (present s) s.order.rows ++
        (s.data.scan.filter fun k => ((keptRows s).1.get? k).isNone) ↔
      (s.data.get? k).isSome := by
  rw [List.mem_append, List.mem_filter, Table.mem_scan, Table.mem_keys]
  constructor
  · rintro (hk | hk)
    · exact (mem_firstIds.1 hk).2
    · exact hk.1
  · intro hk
    cases hseen : (keptRows s).1.get? k with
    | none => exact Or.inr ⟨hk, rfl⟩
    | some okey =>
      refine Or.inl ?_
      rw [← (keptRows_spec s).1.ids]
      exact List.mem_map.2 ⟨_, ((keptRows_spec s).1.seen k okey).1 hseen, rfl⟩

/-- Once all are placed, the areas are repaired, if each id kept had a position row. -/
theorem Appending.repaired {todo : List K} {s' : Fractional K P S C}
    (h : Appending s (firstIds (present s) s.order.rows ++ todo) [] s')
    (htodo : todo = s.data.scan.filter fun k => ((keptRows s).1.get? k).isNone)
    (hs : Recorded s) : Repaired s s' where
  covers k := by rw [h.ids, htodo, covers_split]
  once := h.sound.once
  inverse k okey := by
    constructor
    · intro hk
      refine h.sound.points k okey hk ?_
      rw [h.ids]
      exact (h.recorded hs k).1 (by rw [hk]; rfl)
    · intro hk
      have hmem : k ∈ s'.order.rows.map Prod.snd := List.mem_map.2 ⟨_, Table.mem_rows.2 hk, rfl⟩
      obtain ⟨o, ho⟩ := Option.isSome_iff_exists.1 ((h.recorded hs k).2 (h.ids ▸ hmem))
      rw [ho, h.sound.unique (h.sound.points k o ho hmem) hk]
  data k := by rw [h.data]
  ordered := ⟨todo, h.ids⟩

/-- (PROVED) `_rebuild_bookkeeping` does not raise, and repairs the areas if each id that has data
    and an order row has a position row. If there is nothing to append, it does so only then. -/
theorem rebuildIndexes_spec (h : ∀ okey k, s.order.get? okey = some k → Valid okey) :
    ∃ s', rebuildIndexes s = .ok PUnit.unit s' ∧ (Recorded s → Repaired s s') ∧
      ((∀ k, (s.data.get? k).isSome → k ∈ s.order.rows.map Prod.snd) →
        Repaired s s' → Recorded s) := by
  obtain ⟨s', hrun, hend⟩ := (appending_start h).forM
  refine ⟨s', (bind_of_ok (get_apply s)).trans ((bind_of_ok rfl).trans hrun),
    hend.repaired rfl, fun hall hrep k okey hk hdata => ?_⟩
  -- all ids are kept, so the position rows are those that the sweep left
  have hnil : (s.data.scan.filter fun k => ((keptRows s).1.get? k).isNone) = [] := by
    refine List.filter_eq_nil_iff.2 fun j hj hnone => ?_
    rw [Table.mem_scan, Table.mem_keys] at hj
    have hmem : j ∈ firstIds (present s) s.order.rows := mem_firstIds.2 ⟨hall j hj, hj⟩
    rw [← (keptRows_spec s).1.ids] at hmem
    obtain ⟨⟨o, i⟩, hrow, rfl⟩ := List.mem_map.1 hmem
    rw [((keptRows_spec s).1.seen i o).2 hrow] at hnone
    cases hnone
  rw [hnil] at hrun
  obtain rfl : swept s = s' := (EStateM.Result.ok.inj hrun).2
  obtain ⟨⟨o, j⟩, hrow, rfl⟩ := List.mem_map.1 ((hrep.covers k).2 hdata)
  exact ((swept_pos s j o).1 ((hrep.inverse j o).2 (Table.mem_rows.1 hrow))).1

/-! ## The children first -/

/-- The same but for the contents of children. -/
structure SameAreas (s s' : Fractional K P S C) : Prop where
  order : s'.order = s.order
  pos : s'.pos = s.pos
  data : ∀ k, (s'.data.get? k).isSome = (s.data.get? k).isSome

/-- A child's rebuild only rewrites a child. -/
theorem rebuildChild_same (rebuild : S → C → C × Option ViewError) (k : K) :
    Keeps (SameAreas s) (rebuildChild rebuild k) := by
  intro s₁ h
  have hget : ((fun s => s.data.get? k) <$> get : EStateM ViewError (Fractional K P S C) _) s₁ =
      .ok (s₁.data.get? k) s₁ := rfl
  rw [rebuildChild, bind_of_ok hget]
  match hk : s₁.data.get? k with
  | none => exact h
  | some (.primitive value) => exact h
  | some (.container structureId content) =>
    have hput : SameAreas s { s₁ with
        data := s₁.data.put k (.container structureId (rebuild structureId content).1) } := by
      refine ⟨h.order, h.pos, fun j => ?_⟩
      rw [Table.get?_put, ← h.data]
      split_ifs with hj
      · rw [hj, hk]
        rfl
      · rfl
    cases hr : (rebuild structureId content).2 with
    | none =>
      simp only [hr]
      exact hput
    | some e =>
      simp only [hr]
      exact hput

theorem SameAreas.present {s₁ : Fractional K P S C} (h : SameAreas s s₁) : present s₁ = present s :=
  funext h.data

theorem SameAreas.recorded {s₁ : Fractional K P S C} (h : SameAreas s s₁) :
    Recorded s₁ ↔ Recorded s := by
  simp only [Recorded, h.order, h.pos, h.data]

theorem SameAreas.repaired {s₁ s' : Fractional K P S C} (h : SameAreas s s₁) :
    Repaired s₁ s' ↔ Repaired s s' := by
  constructor
  · intro hr
    refine ⟨fun k => (hr.covers k).trans (by rw [h.data]), hr.once, hr.inverse,
      fun k => (hr.data k).trans (by rw [h.data]), ?_⟩
    rw [← h.present, ← h.order]
    exact hr.ordered
  · intro hr
    refine ⟨fun k => (hr.covers k).trans (by rw [h.data]), hr.once, hr.inverse,
      fun k => (hr.data k).trans (by rw [h.data]), ?_⟩
    rw [h.present, h.order]
    exact hr.ordered

/-- (PROVED) **A rebuild repairs the areas** of an existing view whose order keys are valid, whatever
    else they hold, if every id that has data and an order row has a position row; and if every id
    with data has an order row, only then. Only a child's own rebuild can make it raise. -/
theorem rebuild_repairs (rebuild : S → C → C × Option ViewError) (s : Fractional K P S C)
    (hs : s.created = true) (hvalid : ∀ okey k, s.order.get? okey = some k → Valid okey) :
    (∃ e s', s.data.scan.forM (rebuildChild rebuild) s = .error e s' ∧
      rebuildBookkeeping rebuild s = .error e s') ∨
    ∃ s', rebuildBookkeeping rebuild s = .ok PUnit.unit s' ∧ (Recorded s → Repaired s s') ∧
      ((∀ k, (s.data.get? k).isSome → k ∈ s.order.rows.map Prod.snd) →
        Repaired s s' → Recorded s) := by
  have hsame := Keeps.forM s.data.scan (fun k _ => rebuildChild_same (s := s) rebuild k) s
    ⟨rfl, rfl, fun _ => rfl⟩
  have hstart : rebuildBookkeeping rebuild s =
      (s.data.scan.forM (rebuildChild rebuild) >>= fun _ => rebuildIndexes) s := by
    rw [rebuildBookkeeping, bind_of_ok (get_apply s), hs]
    rfl
  cases hc : s.data.scan.forM (rebuildChild rebuild) s with
  | error e s₁ => exact Or.inl ⟨e, s₁, rfl, hstart.trans (bind_of_error hc)⟩
  | ok a s₁ =>
    rw [hc] at hsame
    replace hsame : SameAreas s s₁ := hsame
    obtain ⟨s', hrun, hrep, honly⟩ := rebuildIndexes_spec (s := s₁) (by rwa [hsame.order])
    refine Or.inr ⟨s', hstart.trans ((bind_of_ok hc).trans hrun), ?_, ?_⟩
    · exact fun hrec => hsame.repaired.1 (hrep (hsame.recorded.2 hrec))
    · intro hall hr
      refine hsame.recorded.1 (honly (fun k hk => ?_) (hsame.repaired.2 hr))
      rw [hsame.order]
      exact hall k (by rw [← hsame.data, hk])

/-! ## An id without a position row -/

/-- An id with data under the first order key, and some position rows. -/
def oneRow (pos : Table Nat OrderKey) : Fractional Nat Unit Unit Unit where
  created := true
  data := Table.put ∅ 7 (.primitive ())
  order := Table.put ∅ INTEGER_ZERO 7
  pos := pos
  coins := fun _ => 0

theorem oneRow_valid (pos : Table Nat OrderKey) (okey : OrderKey) (k : Nat)
    (h : (oneRow pos).order.get? okey = some k) : Valid okey := by
  have hget : (oneRow pos).order.get? okey = if okey = INTEGER_ZERO then some 7 else none :=
    (Table.get?_put _ _ _ _).trans (by rw [Table.get?_empty])
  rw [hget] at h
  split_ifs at h with hokey
  rw [hokey]
  rfl

theorem oneRow_mem (pos : Table Nat OrderKey) (k : Nat) : k ∈ [7] ↔ k ∈ (oneRow pos).data.keys := by
  rw [show (oneRow pos).data = Table.put ∅ 7 (.primitive ()) from rfl, Table.keys_put]
  simp

/-- The one child is no container: nothing is rebuilt in it. -/
theorem oneRow_children (pos : Table Nat OrderKey) :
    (oneRow pos).data.scan.forM (rebuildChild fun _ c => (c, none)) (oneRow pos) =
      .ok PUnit.unit (oneRow pos) := by
  rw [Table.scan_eq_of_sorted (by simp) (oneRow_mem pos)]
  rfl

theorem rebuild_repairs_stale :
    ∃ s', rebuildBookkeeping (fun _ c => (c, none)) (oneRow (Table.put ∅ 7 [])) =
      .ok PUnit.unit s' ∧ Repaired (oneRow (Table.put ∅ 7 [])) s' := by
  rcases rebuild_repairs (fun _ c => (c, none)) (oneRow (Table.put ∅ 7 [])) rfl
    (oneRow_valid _) with ⟨e, s', hraise, -⟩ | ⟨s', hrun, hrep, -⟩
  · rw [oneRow_children] at hraise
    cases hraise
  · refine ⟨s', hrun, hrep fun k okey _ hdata => ?_⟩
    have hget : (oneRow (Table.put ∅ 7 [])).data.get? k =
        if k = 7 then some (.primitive ()) else none :=
      (Table.get?_put _ _ _ _).trans (by rw [Table.get?_empty])
    rw [hget] at hdata
    split_ifs at hdata with hk
    · rw [hk]
      decide
    · cases hdata

/-- With no position row for the one id, the rebuild adds none. -/
theorem position_not_rebuilt :
    ¬ ∀ s : Fractional Nat Unit Unit Unit, s.created = true →
      (∀ okey k, s.order.get? okey = some k → Valid okey) →
      ∀ s', rebuildBookkeeping (fun _ c => (c, none)) s = .ok PUnit.unit s' → Repaired s s' := by
  intro h
  have hstart : rebuildBookkeeping (fun _ c => (c, none)) (oneRow ∅) = rebuildIndexes (oneRow ∅) :=
    (bind_of_ok (get_apply _)).trans (bind_of_ok (oneRow_children ∅))
  obtain ⟨s', hrun, -, honly⟩ := rebuildIndexes_spec (oneRow_valid ∅)
  have hall : ∀ k, ((oneRow ∅).data.get? k).isSome → k ∈ (oneRow ∅).order.rows.map Prod.snd := by
    intro k hk
    have hk7 : k = 7 := by simpa using (oneRow_mem ∅ k).2 ((Table.mem_keys _ _).2 hk)
    rw [hk7]
    exact List.mem_map.2 ⟨(INTEGER_ZERO, 7), Table.mem_rows.2 (Table.get?_put_self _ _ _), rfl⟩
  have hrec := honly hall (h _ rfl (oneRow_valid ∅) s' (hstart.trans hrun))
  exact absurd (hrec 7 INTEGER_ZERO (Table.get?_put_self _ _ _) (by decide)) (by decide)

end Virtuals.Views.FractionalIndexedDictView
