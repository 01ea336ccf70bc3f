/-
  The operations of a fractional indexed dict, one by one, against the ordered collection.

  A position is looked up where the collection asks whether it lists an id (`position_cases`). A move
  and an insertion name a gap by the keys of two rows; `Rel.relocate` and `Rel.insert` say what comes of
  any gap, and the operations find theirs from the row of the id they are told.
-/
import Virtuals.Views.FractionalIndexedDict

namespace Virtuals.Views.FractionalIndexedDictView

open Virtuals.Lib Virtuals.FractionalIndex

variable {K P S C X : Type} [LinearOrder K]
variable {refusesKey : K → Option Nat} {env : Env P S C X}
variable {s s' : Fractional K P S C} {m : Ordered K P S C} {l r : List (OrderKey × K)}
variable {k : K} {okey : OrderKey}

/-! ## Positions -/

theorem positionOrEmpty_apply (hk : refusesKey k = none) :
    positionOrEmpty refusesKey (.key k) s = .ok (s.pos.get? k) s := by
  rw [positionOrEmpty, hk]
  rfl

theorem positionOrEmpty_refused {kind : Nat} (hk : refusesKey k = some kind) :
    positionOrEmpty refusesKey (.key k) s = .error (.other kind) s := by
  rw [positionOrEmpty, hk]
  rfl

/-- What a position is looked up for: both sides raise, or both have the id. -/
theorem position_cases (refusesKey : K → Option Nat) (h : Rel s m) (address : Address K) :
    (∃ e, requirePosition refusesKey address s = .error e s ∧
      Ordered.listed refusesKey address m = .error e m) ∨
    ∃ k okey, address = .key k ∧ requirePosition refusesKey address s = .ok okey s ∧
      Ordered.listed refusesKey address m = .ok k m ∧ s.pos.get? k = some okey ∧ k ∈ m.ids := by
  cases address with
  | other => exact Or.inl ⟨.keyError, rfl, rfl⟩
  | key k =>
    cases hk : refusesKey k with
    | some kind =>
      refine Or.inl ⟨.other kind, bind_of_error (positionOrEmpty_refused hk), ?_⟩
      show (raiseIf ((refusesKey k).map ViewError.other) >>= _) m = _
      rw [hk]
      rfl
    | none =>
      have hpos := positionOrEmpty_apply (s := s) hk
      have hlisted : Ordered.listed refusesKey (.key k) m =
          (raiseIf (if k ∈ m.ids then none else some .keyError) >>= fun _ => pure k :
            EStateM ViewError (Ordered K P S C) K) m := by
        show (raiseIf ((refusesKey k).map ViewError.other) >>= _) m = _
        rw [hk]
        rfl
      by_cases hin : k ∈ m.ids
      · obtain ⟨okey, hget⟩ := Option.isSome_iff_exists.1 ((h.listing.placed k).2 hin)
        refine Or.inr ⟨k, okey, rfl, ?_, ?_, hget, hin⟩
        · rw [requirePosition, bind_of_ok hpos, hget]
          rfl
        · rw [hlisted, if_pos hin]
          rfl
      · refine Or.inl ⟨.keyError, ?_, ?_⟩
        · rw [requirePosition, bind_of_ok hpos, h.pos_none hin]
          rfl
        · rw [hlisted, if_neg hin]
          rfl

theorem Rel.created_of_mem (h : Rel s m) (hin : k ∈ m.ids) : m.created = true := by
  cases hm : m.created with
  | true => rfl
  | false =>
    rw [h.absent hm] at hin
    cases hin

/-! ## Moves -/

/-- The rows but for one. -/
def without (okey : OrderKey) (rows : List (OrderKey × K)) : List (OrderKey × K) :=
  rows.filter fun row => row.1 ≠ okey

omit [LinearOrder K] in
theorem lastKey_without (h : lastKey l ≠ some okey) : lastKey (without okey l) = lastKey l := by
  cases l using List.reverseRecOn with
  | nil => rfl
  | append_singleton init row =>
    have hne : row.1 ≠ okey := by
      rw [lastKey, List.getLast?_concat] at h
      exact fun he => h (congrArg some he)
    rw [without, List.filter_append, List.filter_cons_of_pos (by simpa using hne), List.filter_nil,
      lastKey, lastKey, List.getLast?_concat, List.getLast?_concat]

omit [LinearOrder K] in
theorem firstKey_without (h : firstKey r ≠ some okey) : firstKey (without okey r) = firstKey r := by
  cases r with
  | nil => rfl
  | cons row rest =>
    have hne : row.1 ≠ okey := fun he => h (congrArg some he)
    rw [without, List.filter_cons_of_pos (by simpa using hne)]
    rfl

/-- An id moved into any gap of the other rows. -/
theorem Rel.relocate (h : Rel s m) (hk : s.pos.get? k = some okey)
    (hrows : without okey s.order.rows = l ++ r) :
    ∃ s', relocate k okey (lastKey l) (firstKey r) s = .ok () s' ∧
      Rel s' { m with ids := l.map Prod.snd ++ k :: r.map Prod.snd } := by
  have hin : k ∈ m.ids := (h.listing.placed k).1 (by rw [hk]; rfl)
  have horder : s.order.get? okey = some k :=
    h.listing.sound.points k okey hk (h.listing.mem_iff.2 hin)
  have hsound : Sound { s with order := s.order.erase okey } :=
    h.listing.sound.erase horder fun _ _ hj => hj
  have herase : (s.order.erase okey).rows = l ++ r := (Table.rows_erase _ _).trans hrows
  have hids := h.listing.sound.erase_ids horder
  have hnot : k ∉ (s.order.erase okey).rows.map Prod.snd := by
    rw [hids]
    simp
  obtain ⟨s', hrun, hp⟩ := place_spec hsound herase hnot
  refine ⟨s', hrun, ?_⟩
  have hmem : ∀ j, j ∈ l.map Prod.snd ++ k :: r.map Prod.snd ↔ j ∈ m.ids := fun j => by
    rw [herase, h.listing.lists, List.map_append] at hids
    rw [List.perm_middle.mem_iff, List.mem_cons, hids, List.mem_filter, decide_eq_true_eq]
    by_cases hj : j = k
    · simp [hj, hin]
    · simp [hj]
  exact
    { listing := h.listing.moved hk herase hp
      created := hp.created.trans h.created
      data := hp.data.trans h.data
      covers := fun j => (hmem j).trans (h.covers j)
      absent := fun hm => by rw [h.created_of_mem hin] at hm; cases hm }

/-- The row of another id, and the rows on both its sides. -/
theorem Rel.split (h : Rel s m) (hk : s.pos.get? k = some okey) :
    ∃ l r, s.order.rows = l ++ (okey, k) :: r ∧ m.ids = l.map Prod.snd ++ k :: r.map Prod.snd := by
  obtain ⟨l, r, hrows⟩ := h.listing.split hk
  refine ⟨l, r, hrows, ?_⟩
  rw [← h.listing.lists, hrows, List.map_append, List.map_cons]

omit [LinearOrder K] in
theorem without_append (okey : OrderKey) (l r : List (OrderKey × K)) :
    without okey (l ++ r) = without okey l ++ without okey r := List.filter_append ..

omit [LinearOrder K] in
theorem without_cons {row : OrderKey × K} (h : row.1 ≠ okey) (r : List (OrderKey × K)) :
    without okey (row :: r) = row :: without okey r := List.filter_cons_of_pos (by simpa using h)

omit [LinearOrder K] in
theorem firstKey_cons (row : OrderKey × K) (r : List (OrderKey × K)) :
    firstKey (row :: r) = some row.1 := rfl

omit [LinearOrder K] in
theorem lastKey_concat (l : List (OrderKey × K)) (row : OrderKey × K) :
    lastKey (l ++ [row]) = some row.1 := by
  rw [lastKey, List.getLast?_concat]
  rfl

/-- The ids without one of them, from the rows without its own. -/
theorem Rel.without_ids (h : Rel s m) (hk : s.pos.get? k = some okey) (hin : k ∈ m.ids) :
    (without okey s.order.rows).map Prod.snd = m.ids.filter (· ≠ k) := by
  have horder : s.order.get? okey = some k :=
    h.listing.sound.points k okey hk (h.listing.mem_iff.2 hin)
  rw [← h.listing.lists, ← h.listing.sound.erase_ids horder, Table.rows_erase]
  rfl

theorem Rel.nodup (h : Rel s m) : m.ids.Nodup := h.listing.lists ▸ h.listing.sound.once

/-- Two positions name two rows. -/
theorem Rel.pos_ne (h : Rel s m) {j : K} {other : OrderKey} (hk : s.pos.get? k = some okey)
    (hj : s.pos.get? j = some other) (hne : k ≠ j) : other ≠ okey := by
  rintro rfl
  have hmem : ∀ i, s.pos.get? i = some other → s.order.get? other = some i := fun i hi =>
    h.listing.sound.points i other hi (h.listing.mem_iff.2 ((h.listing.placed i).1 (by rw [hi]; rfl)))
  exact hne (Option.some.inj ((hmem k hk).symm.trans (hmem j hj)))

/-- The id whose row is under a key. -/
theorem Rel.id_of_row (h : Rel s m) {row : OrderKey × K} (hrow : row ∈ s.order.rows)
    (hk : s.pos.get? k = some row.1) : row.2 = k := by
  have hin : k ∈ m.ids := (h.listing.placed k).1 (by rw [hk]; rfl)
  have horder := h.listing.sound.points k row.1 hk (h.listing.mem_iff.2 hin)
  exact Option.some.inj ((Table.mem_rows.1 hrow).symm.trans horder)

omit [LinearOrder K] in
/-- What is left of the rows around one that stays. -/
theorem without_split {row : OrderKey × K} (hrows : s.order.rows = l ++ row :: r)
    (hne : row.1 ≠ okey) :
    without okey s.order.rows = without okey l ++ row :: without okey r := by
  rw [hrows, without_append, without_cons hne]

omit [LinearOrder K] in
/-- An id that is left of a list without repetition, on one side only. -/
theorem not_mem_without {row : OrderKey × K} (hnodup : ((l ++ row :: r).map Prod.snd).Nodup) :
    row.2 ∉ (without okey l).map Prod.snd := by
  intro hmem
  obtain ⟨other, hother, he⟩ := List.mem_map.1 hmem
  rw [List.map_append, List.map_cons, List.nodup_append] at hnodup
  exact hnodup.2.2 row.2 (he ▸ List.mem_map.2 ⟨other, (List.mem_filter.1 hother).1, rfl⟩) row.2
    List.mem_cons_self rfl

/-- An id moved directly before another. -/
theorem Rel.moveBefore (h : Rel s m) {j : K} {refOkey : OrderKey} (hk : s.pos.get? k = some okey)
    (hj : s.pos.get? j = some refOkey) (hne : k ≠ j) :
    ∃ s', (do
      let prev ← neighbour refOkey true []
      if prev.map Prod.fst = some okey then pure ()
      else FractionalIndexedDictView.relocate k okey (prev.map Prod.fst) (some refOkey) :
        EStateM ViewError (Fractional K P S C) Unit) s = .ok () s' ∧
      Rel s' { m with ids := (Spot.before j).move k m.ids } := by
  have hin : k ∈ m.ids := (h.listing.placed k).1 (by rw [hk]; rfl)
  obtain ⟨l, r, hrows, hids⟩ := h.split hj
  rw [bind_of_ok (neighbour_before hrows)]
  show ∃ s', (if lastKey l = some okey then pure ()
    else FractionalIndexedDictView.relocate k okey (lastKey l) (some refOkey) :
      EStateM ViewError (Fractional K P S C) Unit) s = .ok () s' ∧ _
  by_cases hprev : lastKey l = some okey
  · -- it stands there already
    rw [if_pos hprev]
    refine ⟨s, rfl, ?_⟩
    obtain ⟨row, hlast, rfl⟩ := Option.map_eq_some_iff.1 hprev
    obtain ⟨init, rfl⟩ := List.getLast?_eq_some_iff.1 hlast
    have hrow : row ∈ s.order.rows := by
      rw [hrows]
      simp
    have hnodup := h.nodup
    have hsame : m.ids = init.map Prod.snd ++ k :: j :: r.map Prod.snd := by
      rw [hids, ← h.id_of_row hrow hk]
      simp
    rw [hsame] at hnodup ⊢
    rw [Spot.move_before_self hnodup, ← hsame]
    exact h
  · rw [if_neg hprev]
    have hgap := without_split hrows (h.pos_ne hk hj hne)
    obtain ⟨s', hrun, hrel⟩ := h.relocate hk hgap
    rw [lastKey_without hprev, firstKey_cons] at hrun
    refine ⟨s', hrun, ?_⟩
    have hnodup : ((l ++ (refOkey, j) :: r).map Prod.snd).Nodup := hrows ▸ h.listing.sound.once
    rw [Spot.move, ← h.without_ids hk hin, hgap, List.map_append, List.map_cons,
      Spot.put_before k (not_mem_without hnodup)]
    exact hrel

/-- An id moved directly after another. -/
theorem Rel.moveAfter (h : Rel s m) {j : K} {refOkey : OrderKey} (hk : s.pos.get? k = some okey)
    (hj : s.pos.get? j = some refOkey) (hne : k ≠ j) :
    ∃ s', (do
      let nxt ← neighbour refOkey false []
      if nxt.map Prod.fst = some okey then pure ()
      else FractionalIndexedDictView.relocate k okey (some refOkey) (nxt.map Prod.fst) :
        EStateM ViewError (Fractional K P S C) Unit) s = .ok () s' ∧
      Rel s' { m with ids := (Spot.after j).move k m.ids } := by
  have hin : k ∈ m.ids := (h.listing.placed k).1 (by rw [hk]; rfl)
  obtain ⟨l, r, hrows, hids⟩ := h.split hj
  rw [bind_of_ok (neighbour_after hrows)]
  show ∃ s', (if firstKey r = some okey then pure ()
    else FractionalIndexedDictView.relocate k okey (some refOkey) (firstKey r) :
      EStateM ViewError (Fractional K P S C) Unit) s = .ok () s' ∧ _
  by_cases hnext : firstKey r = some okey
  · -- it stands there already
    rw [if_pos hnext]
    refine ⟨s, rfl, ?_⟩
    obtain ⟨row, hfirst, rfl⟩ := Option.map_eq_some_iff.1 hnext
    obtain ⟨rest, rfl⟩ := List.head?_eq_some_iff.1 hfirst
    have hrow : row ∈ s.order.rows := by
      rw [hrows]
      simp
    have hnodup := h.nodup
    have hsame : m.ids = l.map Prod.snd ++ j :: k :: rest.map Prod.snd := by
      rw [hids, ← h.id_of_row hrow hk]
      simp
    rw [hsame] at hnodup ⊢
    rw [Spot.move_after_self hnodup, ← hsame]
    exact h
  · rw [if_neg hnext]
    have hgap := without_split hrows (h.pos_ne hk hj hne)
    have hsplit : without okey s.order.rows = (without okey l ++ [(refOkey, j)]) ++ without okey r := by
      rw [hgap, List.append_assoc, List.singleton_append]
    obtain ⟨s', hrun, hrel⟩ := h.relocate hk hsplit
    rw [firstKey_without hnext, lastKey_concat] at hrun
    refine ⟨s', hrun, ?_⟩
    have hnodup : ((l ++ (refOkey, j) :: r).map Prod.snd).Nodup := hrows ▸ h.listing.sound.once
    rw [List.map_append, List.map_singleton, List.append_assoc, List.singleton_append] at hrel
    rw [Spot.move, ← h.without_ids hk hin, hgap, List.map_append, List.map_cons,
      Spot.put_after k (not_mem_without hnodup)]
    exact hrel

/-- An id moved to the start. -/
theorem Rel.moveFirst (h : Rel s m) (hk : s.pos.get? k = some okey) {row : OrderKey × K}
    (hrows : s.order.rows = row :: r) :
    ∃ s', (if row.1 = okey then pure ()
      else FractionalIndexedDictView.relocate k okey none (some row.1) :
        EStateM ViewError (Fractional K P S C) Unit) s = .ok () s' ∧
      Rel s' { m with ids := Spot.first.move k m.ids } := by
  have hin : k ∈ m.ids := (h.listing.placed k).1 (by rw [hk]; rfl)
  have hrow : row ∈ s.order.rows := hrows ▸ List.mem_cons_self
  by_cases hfirst : row.1 = okey
  · rw [if_pos hfirst]
    refine ⟨s, rfl, ?_⟩
    have hsame : m.ids = k :: r.map Prod.snd := by
      rw [← h.listing.lists, hrows, List.map_cons, h.id_of_row hrow (hfirst ▸ hk)]
    have hnodup := h.nodup
    rw [hsame] at hnodup ⊢
    rw [Spot.move_first_self hnodup, ← hsame]
    exact h
  · rw [if_neg hfirst]
    have hgap : without okey s.order.rows = [] ++ row :: without okey r := by
      rw [hrows, without_cons hfirst, List.nil_append]
    obtain ⟨s', hrun, hrel⟩ := h.relocate hk hgap
    refine ⟨s', hrun, ?_⟩
    rw [Spot.move, ← h.without_ids hk hin, hgap]
    exact hrel

/-- An id moved to the end. -/
theorem Rel.moveLast (h : Rel s m) (hk : s.pos.get? k = some okey) {row : OrderKey × K}
    (hrows : s.order.rows = l ++ [row]) :
    ∃ s', (if row.1 = okey then pure ()
      else FractionalIndexedDictView.relocate k okey (some row.1) none :
        EStateM ViewError (Fractional K P S C) Unit) s = .ok () s' ∧
      Rel s' { m with ids := Spot.last.move k m.ids } := by
  have hin : k ∈ m.ids := (h.listing.placed k).1 (by rw [hk]; rfl)
  have hrow : row ∈ s.order.rows := hrows ▸ List.mem_append_right _ List.mem_cons_self
  by_cases hlast : row.1 = okey
  · rw [if_pos hlast]
    refine ⟨s, rfl, ?_⟩
    have hsame : m.ids = l.map Prod.snd ++ [k] := by
      rw [← h.listing.lists, hrows, List.map_append, List.map_singleton,
        h.id_of_row hrow (hlast ▸ hk)]
    have hnodup := h.nodup
    rw [hsame] at hnodup ⊢
    rw [Spot.move_last_self hnodup, ← hsame]
    exact h
  · rw [if_neg hlast]
    have hgap : without okey s.order.rows = (without okey l ++ [row]) ++ [] := by
      rw [hrows, without_append, without_cons hlast, List.append_nil]
      rfl
    obtain ⟨s', hrun, hrel⟩ := h.relocate hk hgap
    rw [lastKey_concat] at hrun
    refine ⟨s', hrun, ?_⟩
    rw [Spot.move, ← h.without_ids hk hin, hgap, List.append_nil]
    exact hrel

/-- Both ids are looked up, the same id twice only once. -/
theorem moveNextTo_sim (spot : K → Spot K)
    (next : K → OrderKey → OrderKey → EStateM ViewError (Fractional K P S C) Unit)
    (hnext : ∀ {s m k j okey refOkey}, Rel s m → s.pos.get? k = some okey →
      s.pos.get? j = some refOkey → k ≠ j →
      ∃ s', next k okey refOkey s = .ok () s' ∧ Rel s' { m with ids := (spot j).move k m.ids })
    (address ref : Address K) :
    Sim Rel (do
      let okey ← requirePosition refusesKey address
      match address, ref with
      | .key k, .key j =>
        if k = j then pure () else do
          let refOkey ← requirePosition refusesKey (.key j)
          next k okey refOkey
      | _, _ => throw .keyError) (Ordered.moveNextTo refusesKey spot address ref) := by
  intro s m h
  rcases position_cases refusesKey h address with
    ⟨e, hv, hm⟩ | ⟨k, okey, rfl, hv, hm, hk, -⟩
  · exact Agree.of_error (bind_of_error hv) (bind_of_error hm) h
  · rw [bind_of_ok hv, Ordered.moveNextTo, bind_of_ok hm]
    cases ref with
    | other => exact ⟨rfl, h⟩
    | key j =>
      by_cases hkj : k = j
      · simp only [if_pos hkj]
        exact ⟨rfl, h⟩
      · simp only [if_neg hkj]
        rcases position_cases refusesKey h (.key j) with
          ⟨e, hv, hm⟩ | ⟨j', refOkey, hj', hv, hm, hj, -⟩
        · exact Agree.of_error (bind_of_error hv) (bind_of_error hm) h
        · obtain rfl := Address.key.inj hj'
          obtain ⟨s', hrun, hrel⟩ := hnext h hk hj hkj
          exact Agree.of_ok ((bind_of_ok hv).trans hrun) ((bind_of_ok hm).trans rfl) hrel

theorem moveBefore_sim (address ref : Address K) :
    Sim (Rel (P := P) (S := S) (C := C)) (moveBefore refusesKey address ref)
      (Ordered.moveNextTo refusesKey .before address ref) :=
  moveNextTo_sim .before _ (fun h hk hj hne => h.moveBefore hk hj hne) address ref

theorem moveAfter_sim (address ref : Address K) :
    Sim (Rel (P := P) (S := S) (C := C)) (moveAfter refusesKey address ref)
      (Ordered.moveNextTo refusesKey .after address ref) :=
  moveNextTo_sim .after _ (fun h hk hj hne => h.moveAfter hk hj hne) address ref

/-- An id of the collection stands in a row, so there is a first and a last. -/
theorem Rel.rows_ne_nil (h : Rel s m) (hin : k ∈ m.ids) : s.order.rows ≠ [] := by
  intro hnil
  rw [← h.listing.lists, hnil] at hin
  cases hin

theorem moveFirst_sim (address : Address K) :
    Sim (Rel (P := P) (S := S) (C := C)) (moveFirst refusesKey address)
      (Ordered.moveToEnd refusesKey .first address) := by
  intro s m h
  rcases position_cases refusesKey h address with
    ⟨e, hv, hm⟩ | ⟨k, okey, rfl, hv, hm, hk, hin⟩
  · exact Agree.of_error (bind_of_error hv) (bind_of_error hm) h
  · obtain ⟨row, r, hrows⟩ := List.exists_cons_of_ne_nil (h.rows_ne_nil hin)
    obtain ⟨s', hrun, hrel⟩ := h.moveFirst hk hrows
    refine Agree.of_ok ((bind_of_ok hv).trans ((bind_of_ok (edge_first s)).trans ?_))
      ((bind_of_ok hm).trans rfl) hrel
    rw [hrows]
    exact hrun

theorem moveLast_sim (address : Address K) :
    Sim (Rel (P := P) (S := S) (C := C)) (moveLast refusesKey address)
      (Ordered.moveToEnd refusesKey .last address) := by
  intro s m h
  rcases position_cases refusesKey h address with
    ⟨e, hv, hm⟩ | ⟨k, okey, rfl, hv, hm, hk, hin⟩
  · exact Agree.of_error (bind_of_error hv) (bind_of_error hm) h
  · obtain ⟨l, row, hrows⟩ : ∃ l row, s.order.rows = l ++ [row] :=
      ⟨_, _, (List.dropLast_append_getLast (h.rows_ne_nil hin)).symm⟩
    obtain ⟨s', hrun, hrel⟩ := h.moveLast hk hrows
    refine Agree.of_ok ((bind_of_ok hv).trans ((bind_of_ok (edge_last s)).trans ?_))
      ((bind_of_ok hm).trans rfl) hrel
    rw [hrows, List.getLast?_concat]
    exact hrun

end Virtuals.Views.FractionalIndexedDictView
