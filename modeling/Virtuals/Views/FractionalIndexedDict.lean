/-
  A fractional indexed dict is an ordered collection.

  `Listing s ids peak`: the order rows list the ids, every id has its position row and no other has
  one. `Rel` adds the data. Every operation of the view simulates that of the collection, whether it
  returns or raises: an insertion finds the rows on both sides of its gap, a failed one takes back what
  it wrote, a move deletes its row and opens another gap.
-/
import Virtuals.Views.FractionalRows
import Virtuals.Views.OrderedModel

namespace Virtuals.Views.FractionalIndexedDictView

open Virtuals.Lib Virtuals.FractionalIndex

variable {K P S C X : Type} [LinearOrder K]
variable {refusesKey : K → Option Nat} {env : Env P S C X}
variable {s s' : Fractional K P S C} {m : Ordered K P S C} {l r : List (OrderKey × K)}
variable {ids : List K} {n : Nat} {k : K} {okey : OrderKey}

/-! ## The listing -/

/-- The order rows list the ids, and the position rows are theirs. -/
structure Listing (s : Fractional K P S C) (ids : List K) (peak : Nat) : Prop where
  sound : Sound s
  lists : s.order.rows.map Prod.snd = ids
  placed : ∀ k, (s.pos.get? k).isSome ↔ k ∈ ids
  room : ids.length ≤ peak
  /-- keys stay short while there is room for short ones -/
  short : peak < CAPACITY → ∀ row ∈ s.order.rows, row.1.length ≤ MAX_KEY_LENGTH

theorem Listing.length_rows (h : Listing s ids n) : s.order.rows.length = ids.length := by
  rw [← h.lists, List.length_map]

theorem Listing.mem_iff (h : Listing s ids n) : k ∈ s.order.rows.map Prod.snd ↔ k ∈ ids := by
  rw [h.lists]

/-- An id of the listing stands in one row, under its position. -/
theorem Listing.split (h : Listing s ids n) (hk : s.pos.get? k = some okey) :
    ∃ l r, s.order.rows = l ++ (okey, k) :: r := by
  have hin : k ∈ s.order.rows.map Prod.snd := by
    rw [h.lists, ← h.placed, hk]
    rfl
  exact List.append_of_mem (Table.mem_rows.2 (h.sound.points k okey hk hin))

theorem Listing.opened (h : Listing s ids n) (hrows : s.order.rows = l ++ r)
    (ho : Opened s l r okey s') : Listing s' ids n where
  sound := ho.sound
  lists := by
    obtain ⟨l', r', hrows', hl, hr, -⟩ := ho.split
    rw [hrows', List.map_append, hl, hr, ← List.map_append, ← hrows, h.lists]
  placed j := by
    rw [← h.placed]
    refine ⟨fun hj => ?_, ho.recorded j⟩
    rcases ho.only j hj with hj | hj
    · exact hj
    · exact (h.placed j).2 (h.mem_iff.1 hj)
  room := h.room
  short hroom row hrow := by
    have hlt : s.order.rows.length < CAPACITY := by
      rw [h.length_rows]
      exact Nat.lt_of_le_of_lt h.room hroom
    rcases (ho.short hlt).2 row hrow with hold | hshort
    · exact h.short hroom row hold
    · exact hshort

/-- An id placed among those listed. -/
theorem Listing.grown (h : Listing s ids n) (hp : Placed s l r k s')
    (hrows : s.order.rows = l ++ r) :
    Listing s' (l.map Prod.snd ++ k :: r.map Prod.snd) (max n (ids.length + 1)) := by
  have hids : ids = l.map Prod.snd ++ r.map Prod.snd := by
    rw [← h.lists, hrows, List.map_append]
  have hmem : ∀ j, j ∈ l.map Prod.snd ++ k :: r.map Prod.snd ↔ j = k ∨ j ∈ ids := fun j => by
    rw [hids, List.perm_middle.mem_iff, List.mem_cons]
  exact
    { sound := hp.sound
      lists := hp.ids
      placed := fun j => by
        rw [hmem]
        constructor
        · intro hj
          rcases hp.only j hj with hj | hj | hj
          · exact Or.inl hj
          · exact Or.inr ((h.placed j).1 hj)
          · exact Or.inr (h.mem_iff.1 hj)
        · exact fun hj => hp.recorded j (hj.imp_right (h.placed j).2)
      room := by
        rw [hids, List.length_append, List.length_append, List.length_cons]
        exact Nat.le_max_right _ _
      short := fun hroom row hrow => by
        have hpeak := (Nat.max_lt.1 hroom).1
        have hlt : s.order.rows.length < CAPACITY := by
          rw [h.length_rows]
          exact Nat.lt_of_le_of_lt h.room hpeak
        rcases hp.short hlt row hrow with hold | hshort
        · exact h.short hpeak row hold
        · exact hshort }

/-! ## A row deleted -/

/-- The row of an id deleted: the others keep their order. -/
theorem Sound.erase_ids (hs : Sound s) (hk : s.order.get? okey = some k) :
    (s.order.erase okey).rows.map Prod.snd =
      (s.order.rows.map Prod.snd).filter (· ≠ k) := by
  have hiff : ∀ row ∈ s.order.rows, (decide (row.1 ≠ okey)) = decide (row.2 ≠ k) := by
    intro row hrow
    have hget : s.order.get? row.1 = some row.2 := Table.mem_rows.1 hrow
    refine decide_eq_decide.2 (not_congr ⟨fun he => ?_, fun he => ?_⟩)
    · rw [he, hk] at hget
      exact (Option.some.inj hget).symm
    · have hpair := List.inj_on_of_nodup_map hs.once hrow (Table.mem_rows.2 hk) he
      exact congrArg Prod.fst hpair
  rw [Table.rows_erase, List.filter_map, List.filter_congr hiff]
  rfl

theorem Sound.erase (hs : Sound s) (hk : s.order.get? okey = some k) {p : Table K OrderKey}
    (hp : ∀ j o, p.get? j = some o → s.pos.get? j = some o) :
    Sound { s with order := s.order.erase okey, pos := p } where
  valid o j hj := by
    rw [Table.get?_erase] at hj
    split_ifs at hj
    exact hs.valid o j hj
  points j o hj hin := by
    rw [hs.erase_ids hk, List.mem_filter, decide_eq_true_eq] at hin
    have hold := hs.points j o (hp j o hj) hin.1
    have hne : o ≠ okey := by
      rintro rfl
      exact hin.2 (Option.some.inj (hold.symm.trans hk))
    rw [Table.get?_erase, if_neg hne, hold]
  once := by
    rw [hs.erase_ids hk]
    exact hs.once.filter _

/-- An id deleted with its rows. -/
theorem Listing.erase (h : Listing s ids n) (hk : s.pos.get? k = some okey) :
    Listing { s with order := s.order.erase okey, pos := s.pos.erase k }
      (ids.filter (· ≠ k)) n := by
  obtain ⟨l, r, hrows⟩ := h.split hk
  have horder : s.order.get? okey = some k := by
    rw [← Table.mem_rows, hrows]
    exact List.mem_append_right _ List.mem_cons_self
  exact
    { sound := h.sound.erase horder fun j o hj => by
        rw [Table.get?_erase] at hj
        split_ifs at hj
        exact hj
      lists := by rw [h.sound.erase_ids horder, h.lists]
      placed := fun j => by
        rw [Table.get?_erase, List.mem_filter, decide_eq_true_eq]
        split_ifs with hj
        · simp [hj]
        · rw [h.placed]
          exact (and_iff_left hj).symm
      room := (List.length_filter_le _ _).trans h.room
      short := fun hroom row hrow => by
        rw [Table.rows_erase] at hrow
        exact h.short hroom row (List.mem_filter.1 hrow).1 }

/-- An id taken out and placed elsewhere. -/
theorem Listing.moved (h : Listing s ids n) (hk : s.pos.get? k = some okey)
    (hrows : (s.order.erase okey).rows = l ++ r)
    (hp : Placed { s with order := s.order.erase okey } l r k s') :
    Listing s' (l.map Prod.snd ++ k :: r.map Prod.snd) n := by
  have hlisting := h.erase hk
  have hids : ids.filter (· ≠ k) = l.map Prod.snd ++ r.map Prod.snd := by
    rw [← hlisting.lists, hrows, List.map_append]
  have hmem : k ∈ ids := (h.placed k).1 (by rw [hk]; rfl)
  have hin : ∀ j, j ∈ l.map Prod.snd ++ k :: r.map Prod.snd ↔ j ∈ ids := fun j => by
    rw [List.perm_middle.mem_iff, List.mem_cons, ← hids, List.mem_filter, decide_eq_true_eq]
    by_cases hj : j = k
    · simp [hj, hmem]
    · simp [hj]
  exact
    { sound := hp.sound
      lists := hp.ids
      placed := fun j => by
        rw [hin]
        constructor
        · intro hj
          rcases hp.only j hj with rfl | hj | hj
          · exact hmem
          · exact (h.placed j).1 hj
          · rw [show ({ s with order := s.order.erase okey } : Fractional K P S C).order.rows =
              l ++ r from hrows, List.map_append, ← hids] at hj
            exact (List.mem_filter.1 hj).1
        · exact fun hj => hp.recorded j (Or.inr ((h.placed j).2 hj))
      room := by
        have hlt : (ids.filter (· ≠ k)).length < ids.length := by
          refine List.length_filter_lt_length_iff_exists.2 ⟨k, hmem, by simp⟩
        have hroom := h.room
        rw [hids, List.length_append] at hlt
        rw [List.length_append, List.length_cons]
        omega
      short := fun hroom row hrow => by
        have hlt : (s.order.erase okey).rows.length < CAPACITY := by
          have hlen := hlisting.length_rows
          have hroom' := hlisting.room
          exact Nat.lt_of_le_of_lt (hlen ▸ hroom') hroom
        rcases hp.short hlt row hrow with hold | hshort
        · exact hlisting.short hroom row hold
        · exact hshort }

/-! ## The relation -/

/-- The view lists the ids of the collection and holds its data. -/
structure Rel (s : Fractional K P S C) (m : Ordered K P S C) : Prop where
  listing : Listing s m.ids m.peak
  created : s.created = m.created
  data : s.data = m.data
  covers : ∀ k, k ∈ m.ids ↔ (m.data.get? k).isSome
  absent : m.created = false → m.ids = []

theorem rel_absent (coins : Coins) : Rel (absent coins : Fractional K P S C) Ordered.absent where
  listing :=
    { sound :=
        { valid := fun okey k hk => by simp [absent] at hk
          points := fun k okey hk => by simp [absent] at hk
          once := by simp [absent] }
      lists := by simp [absent, Ordered.absent]
      placed := fun k => by simp [absent, Ordered.absent]
      room := Nat.le_refl _
      short := fun _ row hrow => by simp [absent] at hrow }
  created := rfl
  data := rfl
  covers k := by simp [Ordered.absent]
  absent _ := rfl

/-- A row of `__pos__` for exactly the ids. -/
theorem Rel.pos_none (h : Rel s m) (hk : k ∉ m.ids) : s.pos.get? k = none := by
  rw [← Option.not_isSome_iff_eq_none, h.listing.placed]
  exact hk

/-- The data does not matter to the listing. -/
theorem Listing.of_data (h : Listing s ids n) (hs : s'.order = s.order ∧ s'.pos = s.pos) :
    Listing s' ids n := by
  obtain ⟨created, data, order, pos, coins⟩ := s'
  obtain ⟨rfl, rfl⟩ := hs
  exact ⟨⟨h.sound.valid, h.sound.points, h.sound.once⟩, h.lists, h.placed, h.room, h.short⟩

/-- A child rewritten. -/
theorem Rel.overwrite (h : Rel s m) {c : Child P S C} (c' : Child P S C)
    (hk : m.data.get? k = some c) :
    Rel { s with data := s.data.put k c' } { m with data := m.data.put k c' } where
  listing := h.listing.of_data ⟨rfl, rfl⟩
  created := h.created
  data := congrArg (Table.put · k c') h.data
  covers j := by
    rw [h.covers, Table.get?_put]
    split_ifs with hj
    · simp [hj, hk]
    · rfl
  absent := h.absent

/-- A new child, appended. -/
theorem Rel.record (h : Rel s m) (hs : s.created = true) (c : Child P S C)
    (hk : m.data.get? k = none) :
    ∃ s', appendUnplaced k { s with data := s.data.put k c } = .ok () s' ∧
      Rel s' { m with
        data := m.data.put k c
        ids := m.ids ++ [k]
        peak := max m.peak (m.ids.length + 1) } := by
  have hnot : k ∉ m.ids := by
    rw [h.covers, hk]
    exact Bool.false_ne_true
  have hlisting : Listing { s with data := s.data.put k c } m.ids m.peak :=
    h.listing.of_data ⟨rfl, rfl⟩
  obtain ⟨s', hrun, hp⟩ := place_last hlisting.sound (hlisting.mem_iff.not.2 hnot)
  have hget : ((fun s => s.pos.get? k) <$> get : EStateM ViewError (Fractional K P S C) _)
      { s with data := s.data.put k c } = .ok none { s with data := s.data.put k c } :=
    congrArg (EStateM.Result.ok · _) (h.pos_none hnot)
  refine ⟨s', (bind_of_ok hget).trans hrun, ?_⟩
  exact
    { listing := by
        have hgrown := hlisting.grown hp (List.append_nil _).symm
        rwa [hlisting.lists] at hgrown
      created := hp.created.trans h.created
      data := hp.data.trans (congrArg (Table.put · k c) h.data)
      covers := fun j => by
        rw [List.mem_append, List.mem_singleton, h.covers, Table.get?_put]
        split_ifs with hj
        · simp [hj]
        · exact or_iff_left hj
      absent := fun hm => by
        rw [h.created, show m.created = false from hm] at hs
        cases hs }

theorem refines : Refines (base refusesKey : ViewBase (Fractional K P S C) K P S C)
    (Ordered.base refusesKey) id Rel where
  created h := h.created
  markCreated h _ :=
    { listing := h.listing.of_data ⟨rfl, rfl⟩
      created := rfl
      data := h.data
      covers := h.covers
      absent := fun hm => nomatch hm }
  marked _ := rfl
  childMarked _ _ := rfl
  refusesKey _ := rfl
  child h j := congrArg (Table.get? · j) h.data
  overwrite h j c c' hc := h.overwrite c' ((congrArg (Table.get? · j) h.data).symm.trans hc)
  record h hs j c hc := by
    obtain ⟨s', hrun, hrel⟩ := h.record hs c ((congrArg (Table.get? · j) h.data).symm.trans hc)
    exact Agree.of_ok hrun rfl hrel

end Virtuals.Views.FractionalIndexedDictView
