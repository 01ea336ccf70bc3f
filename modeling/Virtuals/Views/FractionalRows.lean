/-
  The order rows of a fractional indexed dict: scans, gaps and respaces.

  `Sound s`: order keys are valid, no id has two of them, and the position row of an id with an order row
  names that row. A fresh key of a gap is made between its two neighbours, hence no row has it; a respace rewrites
  the rows on either side under keys that come in the same order, and changes nothing else. Neither
  raises (`allot_spec`).
-/
import Mathlib.Data.List.Zip
import Virtuals.FractionalIndex.Length
import Virtuals.Views.FractionalIndexedDictView

namespace Virtuals.Views.FractionalIndexedDictView

open Virtuals.Lib Virtuals.FractionalIndex

variable {K P S C X : Type}
variable {s : Fractional K P S C} {l r : List (OrderKey × K)}

/-! ## Scans -/

/-- The key of the last of the rows below a gap. -/
def lastKey (l : List (OrderKey × K)) : Option OrderKey := l.getLast?.map Prod.fst

/-- The key of the first of the rows above a gap. -/
def firstKey (r : List (OrderKey × K)) : Option OrderKey := r.head?.map Prod.fst

/-- A scan that does not ask for the view, and may find a row. -/
theorem scanOrder_apply (start : Option OrderKey) (reverse : Bool) (limit : Option Nat)
    (s : Fractional K P S C) :
    scanOrder start reverse (limit.map (· + 1)) [] false s =
      .ok (limit.elim (scanFrom reverse start none s.order.rows) fun n =>
        (scanFrom reverse start none s.order.rows).take (n + 1)) s := by
  show EStateM.Result.ok (handedOn [] _ _) s = _
  rw [handedOn_nil]
  cases limit with
  | none => rfl
  | some n =>
    show EStateM.Result.ok (List.take (max (n + 1) 1) (List.take (n + 1) _)) s = _
    rw [List.take_take, Nat.max_eq_left (Nat.succ_pos n), Nat.min_self]
    rfl

/-- A scan down from the last row below a gap. -/
theorem scanFrom_below (h : s.order.rows = l ++ r) (hl : l ≠ []) :
    scanFrom true (lastKey l) none s.order.rows = l.reverse := by
  obtain ⟨init, row, rfl⟩ : ∃ init row, l = init ++ [row] :=
    ⟨l.dropLast, l.getLast hl, (List.dropLast_append_getLast hl).symm⟩
  have hsplit : inDirection true s.order.rows = r.reverse ++ row :: init.reverse := by
    rw [h]
    simp [inDirection]
  have hfrom := (past_of_split s.order.rows_sorted hsplit).2
  rw [lastKey, List.getLast?_concat, Option.map_some, List.reverse_concat]
  exact hfrom

/-- A scan up from the first row above a gap. -/
theorem scanFrom_above (h : s.order.rows = l ++ r) (hr : r ≠ []) :
    scanFrom false (firstKey r) none s.order.rows = r := by
  obtain ⟨row, rest, rfl⟩ := List.exists_cons_of_ne_nil hr
  have hsplit : inDirection false s.order.rows = l ++ row :: rest := h
  exact (past_of_split s.order.rows_sorted hsplit).2

theorem neighbour_apply {row : OrderKey × K} (h : s.order.rows = l ++ row :: r) (before : Bool) :
    neighbour row.1 before [] s =
      .ok ((past before (some row.1) s.order.rows).take 1).head? s := by
  have hrow : row ∈ s.order.rows := by
    rw [h]
    exact List.mem_append_right _ List.mem_cons_self
  have hpage := page_of_mem s.order.rows_sorted before hrow (some 1)
  exact map_of_ok (congrArg (EStateM.Result.ok · s) hpage)

/-- The row before a row. -/
theorem neighbour_before {row : OrderKey × K} (h : s.order.rows = l ++ row :: r) :
    neighbour row.1 true [] s = .ok l.getLast? s := by
  have hsplit : inDirection true s.order.rows = r.reverse ++ row :: l.reverse := by
    rw [h]
    simp [inDirection]
  rw [neighbour_apply h, (past_of_split s.order.rows_sorted hsplit).1]
  cases l using List.reverseRecOn <;> simp

/-- The row after a row. -/
theorem neighbour_after {row : OrderKey × K} (h : s.order.rows = l ++ row :: r) :
    neighbour row.1 false [] s = .ok r.head? s := by
  have hsplit : inDirection false s.order.rows = l ++ row :: r := h
  rw [neighbour_apply h, (past_of_split s.order.rows_sorted hsplit).1]
  cases r <;> rfl

theorem edge_apply (last : Bool) (s : Fractional K P S C) :
    edge last false s = .ok (inDirection last s.order.rows).head? s := by
  have hscan := scanOrder_apply none last (some 0) s
  refine (map_of_ok hscan).trans ?_
  rw [scanFrom_none]
  show EStateM.Result.ok (List.take 1 _).head? s = _
  cases inDirection last s.order.rows <;> rfl

theorem edge_last (s : Fractional K P S C) : edge true false s = .ok s.order.rows.getLast? s := by
  rw [edge_apply, inDirection, if_pos rfl, List.head?_reverse]

theorem edge_first (s : Fractional K P S C) : edge false false s = .ok s.order.rows.head? s :=
  edge_apply false s

/-! ## Gaps -/

/-- What the rows of `__order__` and `__pos__` say together, whatever else they miss. -/
structure Sound [DecidableEq K] (s : Fractional K P S C) : Prop where
  valid : ∀ okey k, s.order.get? okey = some k → Valid okey
  /-- the position row of an id names its order row, if it has one -/
  points : ∀ k okey, s.pos.get? k = some okey → k ∈ s.order.rows.map Prod.snd →
    s.order.get? okey = some k
  /-- no id has two order rows -/
  once : (s.order.rows.map Prod.snd).Nodup

/-- Valid keys, the lower ones below the upper ones, are bounds. -/
theorem bounds_of_rows (h : (l ++ r).Pairwise fun a b => a.1 < b.1)
    (hvalid : ∀ a ∈ l ++ r, Valid a.1) : Bounds (lastKey l) (firstKey r) where
  lower x hx := by
    obtain ⟨row, hrow, rfl⟩ := Option.map_eq_some_iff.1 hx
    exact hvalid row (List.mem_append_left _ (List.mem_of_getLast? hrow))
  upper y hy := by
    obtain ⟨row, hrow, rfl⟩ := Option.map_eq_some_iff.1 hy
    exact hvalid row (List.mem_append_right _ (List.mem_of_head? hrow))
  ordered x hx y hy := by
    obtain ⟨a, ha, rfl⟩ := Option.map_eq_some_iff.1 hx
    obtain ⟨b, hb, rfl⟩ := Option.map_eq_some_iff.1 hy
    exact (List.pairwise_append.1 h).2.2 a (List.mem_of_getLast? ha) b (List.mem_of_head? hb)

/-- All that is below the last key is below a key above it. -/
theorem lt_of_lastKey {okey : OrderKey} (h : l.Pairwise fun a b => a.1 < b.1)
    (hlast : ∀ x ∈ lastKey l, x < okey) : ∀ a ∈ l, a.1 < okey := by
  intro a ha
  obtain ⟨init, row, rfl⟩ : ∃ init row, l = init ++ [row] :=
    ⟨l.dropLast, l.getLast (List.ne_nil_of_mem ha), (List.dropLast_append_getLast _).symm⟩
  have hrow : row.1 < okey := hlast row.1 (by rw [lastKey, List.getLast?_concat]; rfl)
  rcases List.mem_append.1 ha with ha | ha
  · exact lt_trans ((List.pairwise_append.1 h).2.2 a ha row List.mem_cons_self) hrow
  · exact List.mem_singleton.1 ha ▸ hrow

/-- All that is above the first key is above a key below it. -/
theorem lt_of_firstKey {okey : OrderKey} (h : r.Pairwise fun a b => a.1 < b.1)
    (hfirst : ∀ y ∈ firstKey r, okey < y) : ∀ a ∈ r, okey < a.1 := by
  intro a ha
  obtain ⟨row, rest, rfl⟩ := List.exists_cons_of_ne_nil (List.ne_nil_of_mem ha)
  have hrow : okey < row.1 := hfirst row.1 rfl
  rcases List.mem_cons.1 ha with rfl | ha
  · exact hrow
  · exact lt_trans hrow ((List.pairwise_cons.1 h).1 a ha)

/-! ## Windows -/

theorem inside_read (k : Option Nat) (rows : List (OrderKey × K)) :
    inside k (k.elim rows fun n => rows.take (n + 1)) = inside k rows := by
  cases k with
  | none => rfl
  | some n =>
    show (rows.take (n + 1)).take n = rows.take n
    rw [List.take_take, Nat.min_eq_left (Nat.le_succ n)]

theorem outside_read (k : Option Nat) (rows : List (OrderKey × K)) :
    outside k (k.elim rows fun n => rows.take (n + 1)) = outside k rows := by
  cases k with
  | none => rfl
  | some n =>
    show (rows.take (n + 1))[n]?.map Prod.fst = rows[n]?.map Prod.fst
    rw [List.getElem?_take_of_lt (Nat.lt_succ_self n)]

/-- The rows above a gap, those inside a window and those outside. -/
theorem split_above (k : Option Nat) (r : List (OrderKey × K)) :
    ∃ b, r = inside k r ++ b ∧ outside k r = firstKey b := by
  cases k with
  | none => exact ⟨[], (List.append_nil r).symm, rfl⟩
  | some n =>
    refine ⟨r.drop n, (List.take_append_drop n r).symm, ?_⟩
    rw [firstKey, List.head?_drop]
    rfl

/-- The rows below a gap. -/
theorem split_below (k : Option Nat) (l : List (OrderKey × K)) :
    ∃ a, l = a ++ (inside k l.reverse).reverse ∧ outside k l.reverse = lastKey a := by
  obtain ⟨b, hb, hout⟩ := split_above k l.reverse
  refine ⟨b.reverse, ?_, ?_⟩
  · rw [← List.reverse_append, ← hb, List.reverse_reverse]
  · rw [hout, lastKey, List.getLast?_reverse]
    rfl

/-- A window of the rows around a gap, and keys for it between the rows outside. -/
structure Opens (l r : List (OrderKey × K)) (w : Window K) : Prop where
  split : ∃ a b, l = a ++ w.below ∧ r = w.above ++ b ∧
    Spread (lastKey a) (firstKey b) (w.below.length + 1 + w.above.length) w.okeys

/-- Key lengths up to which a window is taken. -/
def Short (okeys : List OrderKey) : Prop := ∀ okey ∈ okeys, okey.length ≤ RESPACE_TARGET

theorem drawn_of_ok {α : Type} {m : EStateM OrderKeyError Coins α} {a : α} {coins : Coins}
    (h : m s.coins = .ok a coins) : drawn m s = .ok a { s with coins := coins } := by
  rw [drawn, h]

theorem side_below (h : s.order.rows = l ++ r) (k : Option Nat) :
    side (lastKey l) true k s = .ok (k.elim l.reverse fun n => l.reverse.take (n + 1)) s := by
  cases hl : lastKey l with
  | none =>
    obtain rfl : l = [] := List.getLast?_eq_none_iff.1 (Option.map_eq_none_iff.1 hl)
    cases k <;> rfl
  | some okey =>
    have hne : l ≠ [] := by
      rintro rfl
      cases hl
    rw [side, scanOrder_apply, ← hl, scanFrom_below h hne]

theorem side_above (h : s.order.rows = l ++ r) (k : Option Nat) :
    side (firstKey r) false k s = .ok (k.elim r fun n => r.take (n + 1)) s := by
  cases hr : firstKey r with
  | none =>
    obtain rfl : r = [] := List.head?_eq_none_iff.1 (Option.map_eq_none_iff.1 hr)
    cases k <;> rfl
  | some okey =>
    have hne : r ≠ [] := by
      rintro rfl
      cases hr
    rw [side, scanOrder_apply, ← hr, scanFrom_above h hne]

/-- (PROVED) A round of `_respace_around` finds a window, with short keys if it takes all rows. -/
theorem window_spec (h : s.order.rows = l ++ r) (hvalid : ∀ a ∈ l ++ r, Valid a.1)
    (k : Option Nat) :
    ∃ w coins, window (lastKey l) (firstKey r) k s = .ok w { s with coins := coins } ∧
      Opens l r w ∧ (k = none → l.length + r.length < CAPACITY → Short w.okeys) := by
  obtain ⟨a, ha, houta⟩ := split_below k l
  obtain ⟨b, hb, houtb⟩ := split_above k r
  have hsub : (a ++ b).Sublist (l ++ r) := by
    refine List.Sublist.append ?_ ?_
    · rw [ha]
      exact List.sublist_append_left a _
    · rw [hb]
      exact List.sublist_append_right _ b
  have hbounds : Bounds (lastKey a) (firstKey b) :=
    bounds_of_rows (List.Pairwise.sublist hsub (h ▸ s.order.rows_sorted)) fun x hx =>
      hvalid x (hsub.subset hx)
  obtain ⟨okeys, coins, hrun, hspread⟩ := n_suffixed_spec (by decide : 1 ≤ SUFFIX_LENGTH) hbounds
    ((inside k l.reverse).length + 1 + (inside k r).length) s.coins
  refine ⟨⟨(inside k l.reverse).reverse, inside k r, okeys⟩, coins, ?_, ⟨a, b, ha, hb, ?_⟩, ?_⟩
  · rw [window, bind_of_ok (side_below h k), bind_of_ok (side_above h k), inside_read, inside_read,
      outside_read, outside_read, houta, houtb]
    exact (bind_of_ok (drawn_of_ok hrun)).trans rfl
  · rw [List.length_reverse]
    exact hspread
  · rintro rfl hroom okey hokey
    rw [← houta, ← houtb] at hrun
    have hn : (inside none l.reverse).length + 1 + (inside none r).length ≤ CAPACITY := by
      show l.reverse.length + 1 + r.length ≤ CAPACITY
      rw [List.length_reverse]
      omega
    exact (n_suffixed_short (by decide) hn hrun okey hokey).trans (by decide)

theorem widen_spec (h : s.order.rows = l ++ r) (hvalid : ∀ a ∈ l ++ r, Valid a.1)
    (k : Option Nat) (rest : List (Option Nat)) (hlast : (k :: rest).getLast? = some none) :
    ∃ w coins, widen (lastKey l) (firstKey r) k rest s = .ok w { s with coins := coins } ∧
      Opens l r w ∧ (l.length + r.length < CAPACITY → Short w.okeys) := by
  induction rest generalizing k s with
  | nil =>
    obtain ⟨w, coins, hrun, hopens, hshort⟩ := window_spec h hvalid k
    exact ⟨w, coins, hrun, hopens, hshort (Option.some.inj hlast)⟩
  | cons wider rest ih =>
    obtain ⟨w, coins, hrun, hopens, hshort⟩ := window_spec h hvalid k
    rw [widen, bind_of_ok hrun]
    split_ifs with hc
    · refine ⟨w, coins, rfl, hopens, fun hroom okey hokey => ?_⟩
      rcases Bool.or_eq_true_iff.1 hc with hk | hk
      · exact hshort (Option.isNone_iff_eq_none.1 hk) hroom okey hokey
      · exact of_decide_eq_true (List.all_eq_true.1 hk okey hokey)
    · rw [List.getLast?_cons_cons] at hlast
      exact ih (s := { s with coins := coins }) h wider hlast

/-! ## Rows rewritten -/

section Rewriting

variable [LinearOrder K]

/-- The state after some rows came under other keys. -/
def rewritten (s : Fractional K P S C) (w n : List (OrderKey × K)) (coins : Coins) :
    Fractional K P S C :=
  { s with
    order := (s.order.eraseAll (w.map Prod.fst)).putAll n
    pos := s.pos.putAll (n.map Prod.swap)
    coins := coins }

omit [LinearOrder K] in
theorem deleteRows_apply (w : List (OrderKey × K)) (s : Fractional K P S C) :
    deleteRows w s = .ok () { s with order := s.order.eraseAll (w.map Prod.fst) } := by
  induction w generalizing s with
  | nil => rfl
  | cons row w ih => exact ih { s with order := s.order.erase row.1 }

theorem indexAll_apply (ids : List K) (okeys : List OrderKey) (s : Fractional K P S C) :
    indexAll ids okeys s = .ok () { s with
      order := s.order.putAll (okeys.zip ids)
      pos := s.pos.putAll (ids.zip okeys) } := by
  induction ids generalizing okeys s with
  | nil => cases okeys <;> rfl
  | cons k ids ih =>
    cases okeys with
    | nil => rfl
    | cons okey okeys =>
      exact ih okeys { s with pos := s.pos.put k okey, order := s.order.put okey k }

/-- Rows of a table, and others for the same ids in the same order that fit in their place. -/
structure Fits (s : Fractional K P S C) (a w n b : List (OrderKey × K)) : Prop where
  rows : s.order.rows = a ++ w ++ b
  ids : n.map Prod.snd = w.map Prod.snd
  ascending : (a ++ n ++ b).Pairwise fun x y => x.1 < y.1
  valid : ∀ x ∈ n, Valid x.1

variable {a w n b : List (OrderKey × K)} {coins : Coins}

theorem Fits.rows_rewritten (h : Fits s a w n b) (coins : Coins) :
    (rewritten s w n coins).order.rows = a ++ n ++ b :=
  Table.rows_rewrite h.rows h.ascending

theorem Fits.nodup (h : Fits s a w n b) (hs : Sound s) : ((n.map Prod.swap).map Prod.fst).Nodup := by
  have hids := hs.once
  rw [h.rows, List.map_append, List.map_append, ← h.ids] at hids
  have hn := (List.nodup_append.1 (List.nodup_append.1 hids).1).2.1
  rw [List.map_map]
  exact hn

/-- (PROVED) Rewriting rows keeps the order rows and the position rows sound. -/
theorem Fits.sound (h : Fits s a w n b) (hs : Sound s) : Sound (rewritten s w n coins) where
  valid okey k hk := by
    have hmem : (okey, k) ∈ a ++ n ++ b := h.rows_rewritten coins ▸ Table.mem_rows.2 hk
    have hold : (okey, k) ∈ a ∨ (okey, k) ∈ b → Valid okey := fun hab => by
      refine hs.valid okey k (Table.mem_rows.1 ?_)
      rw [h.rows, List.mem_append, List.mem_append]
      exact hab.imp_left Or.inl
    rcases List.mem_append.1 hmem with hmem | hb
    · rcases List.mem_append.1 hmem with ha | hn
      · exact hold (Or.inl ha)
      · exact h.valid _ hn
    · exact hold (Or.inr hb)
  points k okey hk hin := by
    have hin' : k ∈ s.order.rows.map Prod.snd := by
      rwa [h.rows_rewritten, List.map_append, List.map_append, h.ids, ← List.map_append,
        ← List.map_append, ← h.rows] at hin
    rw [← Table.mem_rows, h.rows_rewritten, List.mem_append, List.mem_append]
    have hget := (Table.get?_putAll (h.nodup hs) s.pos k okey).1 hk
    rcases hget with hn | ⟨hnot, hpos⟩
    · obtain ⟨row, hrow, he⟩ := List.mem_map.1 hn
      obtain ⟨rfl, rfl⟩ := Prod.mk.inj he
      exact Or.inl (Or.inr hrow)
    · have hold := Table.mem_rows.2 (hs.points k okey hpos hin')
      rw [h.rows, List.mem_append, List.mem_append] at hold
      rcases hold with (ha | hw) | hb
      · exact Or.inl (Or.inl ha)
      · refine absurd ?_ hnot
        have hkw : k ∈ w.map Prod.snd := List.mem_map.2 ⟨_, hw, rfl⟩
        rw [← h.ids] at hkw
        rw [List.map_map]
        exact hkw
      · exact Or.inr hb
  once := by
    have hids := hs.once
    rw [h.rows, List.map_append, List.map_append, ← h.ids] at hids
    rw [h.rows_rewritten, List.map_append, List.map_append]
    exact hids

/-- Position rows stay, and only ids of rewritten rows gain one. -/
theorem Fits.recorded (h : Fits s a w n b) (hs : Sound s) (k : K) :
    ((rewritten s w n coins).pos.get? k).isSome ↔
      (s.pos.get? k).isSome ∨ k ∈ w.map Prod.snd := by
  have hids : (n.map Prod.swap).map Prod.fst = w.map Prod.snd := by
    rw [List.map_map, ← h.ids]
    rfl
  have hget := Table.get?_putAll (h.nodup hs) s.pos k
  rw [Option.isSome_iff_exists, Option.isSome_iff_exists, ← hids]
  constructor
  · rintro ⟨okey, hk⟩
    rcases (hget okey).1 hk with hn | ⟨-, hpos⟩
    · exact Or.inr (List.mem_map.2 ⟨_, hn, rfl⟩)
    · exact Or.inl ⟨okey, hpos⟩
  · rintro (⟨okey, hpos⟩ | hmem)
    · by_cases hin : k ∈ (n.map Prod.swap).map Prod.fst
      · obtain ⟨⟨j, o⟩, hrow, rfl⟩ := List.mem_map.1 hin
        exact ⟨o, (hget o).2 (Or.inl hrow)⟩
      · exact ⟨okey, (hget okey).2 (Or.inr ⟨hin, hpos⟩)⟩
    · obtain ⟨⟨j, o⟩, hrow, rfl⟩ := List.mem_map.1 hmem
      exact ⟨o, (hget o).2 (Or.inl hrow)⟩

/-! ## A fresh key -/

/-- A gap opened between the rows `l` and `r`: a fresh key, in rows of the same ids. -/
structure Opened (s : Fractional K P S C) (l r : List (OrderKey × K)) (okey : OrderKey)
    (s' : Fractional K P S C) : Prop where
  created : s'.created = s.created
  data : s'.data = s.data
  sound : Sound s'
  split : ∃ l' r', s'.order.rows = l' ++ r' ∧ l'.map Prod.snd = l.map Prod.snd ∧
    r'.map Prod.snd = r.map Prod.snd ∧ (∀ a ∈ l', a.1 < okey) ∧ ∀ a ∈ r', okey < a.1
  valid : Valid okey
  recorded : ∀ k, (s.pos.get? k).isSome → (s'.pos.get? k).isSome
  only : ∀ k, (s'.pos.get? k).isSome → (s.pos.get? k).isSome ∨ k ∈ s.order.rows.map Prod.snd
  /-- no key gets longer than the bound while there is room for short ones -/
  short : s.order.rows.length < CAPACITY → okey.length ≤ MAX_KEY_LENGTH ∧
    ∀ row ∈ s'.order.rows, row ∈ s.order.rows ∨ row.1.length ≤ MAX_KEY_LENGTH

/-- What is over of the longer list is left out. -/
theorem zip_over {A B : Type} {l extra : List A} {m : List B} (h : l.length = m.length) :
    (l ++ extra).zip m = l.zip m := by
  have hzip : (l ++ extra).zip (m ++ []) = l.zip m ++ extra.zip [] := List.zip_append h
  rwa [List.append_nil, List.zip_nil_right, List.append_nil] at hzip

/-- Fresh keys in the place of the rows of a window: below its gap, and above. -/
def fresh (w : Window K) (kl kr : List OrderKey) : List (OrderKey × K) :=
  kl.zip (w.below.map Prod.snd) ++ kr.zip (w.above.map Prod.snd)

omit [LinearOrder K] in
/-- The rows of a window, under some of its keys in their order. -/
theorem fits_fresh {w : Window K} {m : Nat} {kl kr : List OrderKey}
    (h : s.order.rows = a ++ (w.below ++ w.above) ++ b)
    (hspread : Spread (lastKey a) (firstKey b) m w.okeys) (hsub : (kl ++ kr).Sublist w.okeys)
    (hkl : kl.length = w.below.length) (hkr : kr.length = w.above.length) :
    Fits s a (w.below ++ w.above) (fresh w kl kr) b where
  rows := h
  ids := by
    rw [fresh, List.map_append, List.map_append,
      List.map_snd_zip (by rw [List.length_map, hkl]), List.map_snd_zip (by rw [List.length_map, hkr])]
  ascending := by
    have hsorted := s.order.rows_sorted
    rw [h, List.pairwise_append, List.pairwise_append] at hsorted
    obtain ⟨⟨ha, -, -⟩, hb, hab⟩ := hsorted
    have hkeys : (fresh w kl kr).map Prod.fst = kl ++ kr := by
      rw [fresh, List.map_append, List.map_fst_zip (by rw [List.length_map, hkl]),
        List.map_fst_zip (by rw [List.length_map, hkr])]
    have hmem : ∀ y ∈ fresh w kl kr, y.1 ∈ w.okeys := fun y hy =>
      hsub.subset (hkeys ▸ List.mem_map.2 ⟨y, hy, rfl⟩)
    refine List.pairwise_append.2 ⟨List.pairwise_append.2 ⟨ha, ?_, fun x hx y hy => ?_⟩, hb, ?_⟩
    · rw [← Table.fst_lt_iff, hkeys]
      exact hspread.ascending.sublist hsub
    · exact lt_of_lastKey ha (hspread.between y.1 (hmem y hy)).above x hx
    · intro x hx y hy
      rcases List.mem_append.1 hx with hx | hx
      · exact hab x (List.mem_append_left _ hx) y hy
      · exact lt_of_firstKey hb (hspread.between x.1 (hmem x hx)).below y hy
  valid x hx := by
    refine hspread.valid x.1 (hsub.subset ?_)
    rcases List.mem_append.1 hx with hx | hx
    · exact List.mem_append_left _ (List.of_mem_zip hx).1
    · exact List.mem_append_right _ (List.of_mem_zip hx).1

/-- (PROVED) `_respace_around` opens the gap. -/
theorem respaceAround_spec (hs : Sound s) (h : s.order.rows = l ++ r) :
    ∃ okey s', respaceAround (lastKey l) (firstKey r) s = .ok okey s' ∧ Opened s l r okey s' := by
  have hvalid : ∀ a ∈ l ++ r, Valid a.1 := fun a ha =>
    hs.valid a.1 a.2 (Table.mem_rows.1 (h ▸ ha))
  obtain ⟨w, coins, hrun, ⟨a, b, hl, hr, hspread⟩, hshort⟩ := widen_spec h hvalid
    (some RESPACE_WINDOW) [some (4 * RESPACE_WINDOW), none] rfl
  -- the keys below the gap, that of the gap, and those above it
  obtain ⟨kl, gap, kr, hokeys, hkl⟩ : ∃ kl gap kr, w.okeys = kl ++ gap :: kr ∧
      kl.length = w.below.length := by
    have hlt : w.below.length < w.okeys.length := by
      rw [hspread.length]
      omega
    refine ⟨w.okeys.take w.below.length, w.okeys[w.below.length],
      w.okeys.drop (w.below.length + 1), ?_, ?_⟩
    · rw [List.getElem_cons_drop, List.take_append_drop]
    · rw [List.length_take, Nat.min_eq_left (Nat.le_of_lt hlt)]
  have hkr : kr.length = w.above.length := by
    have hlen := hspread.length
    rw [hokeys, List.length_append, List.length_cons] at hlen
    omega
  have hsub : (kl ++ kr).Sublist w.okeys := by
    rw [hokeys]
    exact (List.Sublist.refl kl).append (List.sublist_cons_self gap kr)
  have hrows : s.order.rows = a ++ (w.below ++ w.above) ++ b := by
    rw [h, hl, hr]
    simp only [List.append_assoc]
  have hfits := fits_fresh hrows hspread hsub hkl hkr
  have hfinal : respaceAround (lastKey l) (firstKey r) s =
      .ok gap (rewritten s (w.below ++ w.above) (fresh w kl kr) coins) := by
    rw [respaceAround, bind_of_ok hrun, bind_of_ok (deleteRows_apply _ _),
      bind_of_ok (indexAll_apply _ _ _)]
    have hdrop : w.okeys.drop w.below.length = gap :: kr := by
      rw [hokeys, ← hkl, List.drop_left]
    simp only [hdrop]
    have hbelow : w.okeys.zip (w.below.map Prod.snd) = kl.zip (w.below.map Prod.snd) := by
      rw [hokeys, zip_over (by rw [List.length_map, hkl])]
    have hswap : (fresh w kl kr).map Prod.swap =
        (w.below.map Prod.snd).zip w.okeys ++ (w.above.map Prod.snd).zip kr := by
      rw [fresh, List.map_append, ← hbelow, List.zip_swap, List.zip_swap]
    rw [bind_of_ok (indexAll_apply _ _ _), rewritten, hswap, Table.putAll_append, fresh, ← hbelow,
      Table.putAll_append]
    rfl
  refine ⟨gap, _, hfinal, ?_⟩
  have hgap : gap ∈ w.okeys := hokeys ▸ List.mem_append_right _ List.mem_cons_self
  have hsorted := s.order.rows_sorted
  rw [hrows, List.pairwise_append, List.pairwise_append] at hsorted
  have hokeysSorted := hspread.ascending
  rw [hokeys, List.pairwise_append, List.pairwise_cons] at hokeysSorted
  obtain ⟨-, ⟨habove, -⟩, hbelow⟩ := hokeysSorted
  have hrewritten := hfits.rows_rewritten coins
  refine
    { created := rfl
      data := rfl
      sound := hfits.sound hs
      split := ⟨a ++ kl.zip (w.below.map Prod.snd), kr.zip (w.above.map Prod.snd) ++ b, ?_, ?_, ?_,
        ?_, ?_⟩
      valid := hspread.valid gap hgap
      recorded := fun k hk => (hfits.recorded hs k).2 (Or.inl hk)
      only := fun k hk => ((hfits.recorded hs k).1 hk).imp_right fun hw => ?_
      short := fun hroom => ⟨?_, fun row hrow => ?_⟩ }
  · rw [hrewritten, fresh]
    simp only [List.append_assoc]
  · rw [hl, List.map_append, List.map_append, List.map_snd_zip (by rw [List.length_map, hkl])]
  · rw [hr, List.map_append, List.map_append, List.map_snd_zip (by rw [List.length_map, hkr])]
  · intro x hx
    rcases List.mem_append.1 hx with hx | hx
    · exact lt_of_lastKey hsorted.1.1 (hspread.between gap hgap).above x hx
    · exact hbelow x.1 (List.of_mem_zip hx).1 gap List.mem_cons_self
  · intro x hx
    rcases List.mem_append.1 hx with hx | hx
    · exact habove x.1 (List.of_mem_zip hx).1
    · exact lt_of_firstKey hsorted.2.1 (hspread.between gap hgap).below x hx
  · rw [hrows, List.map_append, List.map_append]
    exact List.mem_append_left _ (List.mem_append_right _ hw)
  · have hshort' := hshort (by rw [← List.length_append, ← h]; exact hroom)
    exact (hshort' gap hgap).trans (by decide)
  · have hshort' := hshort (by rw [← List.length_append, ← h]; exact hroom)
    rw [hrewritten, List.mem_append, List.mem_append] at hrow
    rw [hrows, List.mem_append, List.mem_append]
    rcases hrow with (ha | hn) | hb
    · exact Or.inl (Or.inl (Or.inl ha))
    · refine Or.inr ((hshort' row.1 (hsub.subset ?_)).trans (by decide))
      rcases List.mem_append.1 hn with hn | hn
      · exact List.mem_append_left _ (List.of_mem_zip hn).1
      · exact List.mem_append_right _ (List.of_mem_zip hn).1
    · exact Or.inl (Or.inr hb)

/-- The random source does not matter. -/
theorem Opened.of_drawn {okey : OrderKey} {s' : Fractional K P S C}
    (h : Opened { s with coins := coins } l r okey s') : Opened s l r okey s' where
  created := h.created
  data := h.data
  sound := h.sound
  split := h.split
  valid := h.valid
  recorded := h.recorded
  only := h.only
  short := h.short

theorem Sound.drawn (h : Sound s) (coins : Coins) : Sound { s with coins := coins } where
  valid := h.valid
  points := h.points
  once := h.once

/-- (PROVED) `_allot` opens the gap: its first draw is of a key that no row has. -/
theorem allot_spec (hs : Sound s) (h : s.order.rows = l ++ r) :
    ∃ okey s', allot (lastKey l) (firstKey r) s = .ok okey s' ∧ Opened s l r okey s' := by
  have hsorted := s.order.rows_sorted
  rw [h] at hsorted
  have hbounds : Bounds (lastKey l) (firstKey r) := bounds_of_rows hsorted fun a ha =>
    hs.valid a.1 a.2 (Table.mem_rows.1 (h ▸ ha))
  obtain ⟨okey, coins, hrun, hvalid, hbt⟩ :=
    suffixed_key_between hbounds (by decide : 1 ≤ SUFFIX_LENGTH) s.coins
  rw [allot, ALLOT_ATTEMPTS, allotIn, bind_of_ok (drawn_of_ok hrun)]
  split_ifs with hlong
  · obtain ⟨gap, s', hgap, hopened⟩ := respaceAround_spec (hs.drawn coins) h
    exact ⟨gap, s', hgap, hopened.of_drawn⟩
  · obtain ⟨hl, hr, -⟩ := List.pairwise_append.1 hsorted
    have hbelow := lt_of_lastKey hl hbt.above
    have habove := lt_of_firstKey hr hbt.below
    have hfree : s.order.get? okey = none := by
      refine Option.eq_none_iff_forall_ne_some.2 fun k hk => ?_
      have hmem : (okey, k) ∈ l ++ r := h ▸ Table.mem_rows.2 hk
      rcases List.mem_append.1 hmem with hmem | hmem
      · exact lt_irrefl _ (hbelow _ hmem)
      · exact lt_irrefl _ (habove _ hmem)
    have hget : ((fun s => (s.order.get? okey).isSome) <$> get :
        EStateM ViewError (Fractional K P S C) Bool) { s with coins := coins } =
        .ok false { s with coins := coins } := by
      show EStateM.Result.ok (s.order.get? okey).isSome _ = _
      rw [hfree]
      rfl
    rw [bind_of_ok hget]
    refine ⟨okey, _, rfl, ?_⟩
    exact
      { created := rfl
        data := rfl
        sound := hs.drawn coins
        split := ⟨l, r, h, rfl, rfl, hbelow, habove⟩
        valid := hvalid
        recorded := fun _ hk => hk
        only := fun _ hk => Or.inl hk
        short := fun _ => ⟨not_lt.1 hlong, fun _ hrow => Or.inl hrow⟩ }

/-- The state after an id was placed in a gap. -/
structure Placed (s : Fractional K P S C) (l r : List (OrderKey × K)) (k : K)
    (s' : Fractional K P S C) : Prop where
  created : s'.created = s.created
  data : s'.data = s.data
  sound : Sound s'
  ids : s'.order.rows.map Prod.snd = l.map Prod.snd ++ k :: r.map Prod.snd
  recorded : ∀ j, j = k ∨ (s.pos.get? j).isSome → (s'.pos.get? j).isSome
  only : ∀ j, (s'.pos.get? j).isSome →
    j = k ∨ (s.pos.get? j).isSome ∨ j ∈ s.order.rows.map Prod.snd
  short : s.order.rows.length < CAPACITY →
    ∀ row ∈ s'.order.rows, row ∈ s.order.rows ∨ row.1.length ≤ MAX_KEY_LENGTH

/-- (PROVED) An id without an order row, recorded at the key of an opened gap. -/
theorem Opened.place {okey : OrderKey} {s' : Fractional K P S C} (h : Opened s l r okey s')
    (hrows : s.order.rows = l ++ r) {k : K} (hk : k ∉ s.order.rows.map Prod.snd) :
    Placed s l r k { s' with pos := s'.pos.put k okey, order := s'.order.put okey k } := by
  obtain ⟨l', r', hrows', hl, hr, hbelow, habove⟩ := h.split
  have hput := Table.rows_put_between k hrows' hbelow habove
  have hids : s'.order.rows.map Prod.snd = s.order.rows.map Prod.snd := by
    rw [hrows, hrows', List.map_append, List.map_append, hl, hr]
  have hfree : s'.order.get? okey = none := by
    refine Option.eq_none_iff_forall_ne_some.2 fun j hj => ?_
    rcases List.mem_append.1 (hrows' ▸ Table.mem_rows.2 hj : (okey, j) ∈ l' ++ r') with hmem | hmem
    · exact lt_irrefl _ (hbelow _ hmem)
    · exact lt_irrefl _ (habove _ hmem)
  have hnew : (s'.order.put okey k).rows.map Prod.snd = l.map Prod.snd ++ k :: r.map Prod.snd := by
    rw [hput, List.map_append, List.map_cons, hl, hr]
  exact
    { created := h.created
      data := h.data
      sound :=
        { valid := fun o j hj => by
            rw [Table.get?_put] at hj
            split_ifs at hj with ho
            · exact ho ▸ h.valid
            · exact h.sound.valid o j hj
          points := fun j o hj hin => by
            rw [Table.get?_put] at hj
            rw [Table.get?_put]
            split_ifs at hj with hjk
            · obtain rfl := Option.some.inj hj
              rw [if_pos rfl, hjk]
            · have hin' : j ∈ s'.order.rows.map Prod.snd := by
                rw [hids, hrows, List.map_append, List.mem_append]
                rw [hnew, List.mem_append, List.mem_cons] at hin
                exact hin.imp_right fun hin => hin.resolve_left hjk
              have hold := h.sound.points j o hj hin'
              have hne : o ≠ okey := by
                rintro rfl
                rw [hfree] at hold
                cases hold
              rw [if_neg hne, hold]
          once := by
            have hnodup := h.sound.once
            rw [hids] at hnodup
            rw [hnew]
            rw [hrows, List.map_append] at hnodup hk
            exact (List.nodup_middle.2 (List.nodup_cons.2 ⟨hk, hnodup⟩)) }
      ids := hnew
      recorded := fun j hj => by
        rw [Table.get?_put]
        split_ifs with hjk
        · rfl
        · exact h.recorded j (hj.resolve_left hjk)
      only := fun j hj => by
        rw [Table.get?_put] at hj
        split_ifs at hj with hjk
        · exact Or.inl hjk
        · exact Or.inr (h.only j hj)
      short := fun hroom row hrow => by
        obtain ⟨hokey, hrest⟩ := h.short hroom
        rw [hput] at hrow
        rcases List.mem_append.1 hrow with hrow | hrow
        · exact hrest row (hrows' ▸ List.mem_append_left _ hrow)
        · rcases List.mem_cons.1 hrow with rfl | hrow
          · exact Or.inr hokey
          · exact hrest row (hrows' ▸ List.mem_append_right _ hrow) }

/-- (PROVED) `_place`. -/
theorem place_spec (hs : Sound s) (h : s.order.rows = l ++ r) {k : K}
    (hk : k ∉ s.order.rows.map Prod.snd) :
    ∃ s', place k (lastKey l) (firstKey r) s = .ok () s' ∧ Placed s l r k s' := by
  obtain ⟨okey, s', hrun, hopened⟩ := allot_spec hs h
  exact ⟨_, (bind_of_ok hrun).trans rfl, hopened.place h hk⟩

/-- An id without an order row, appended. -/
theorem place_last (hs : Sound s) {k : K} (hk : k ∉ s.order.rows.map Prod.snd) :
    ∃ s', (do
      let last ← edge true false
      place k (last.map Prod.fst) none : EStateM ViewError (Fractional K P S C) Unit) s =
        .ok () s' ∧ Placed s s.order.rows [] k s' := by
  obtain ⟨s', hrun, hplaced⟩ := place_spec hs (List.append_nil _).symm hk
  exact ⟨s', (bind_of_ok (edge_last s)).trans hrun, hplaced⟩

end Rewriting

end Virtuals.Views.FractionalIndexedDictView
