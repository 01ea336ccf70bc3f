/-
  Pages of a log indexed dict and of a fractional indexed dict.

  A reader asks for the ids past a cursor, up to a limit. A log view pages by log keys, and the row of
  its cursor may be gone; a fractional view pages by ids, and looks the position of its cursor up. A
  page has the first ids past the cursor (`page_exact_iff`), so pages of one id or more, each from where
  the last one ended, make up the listing (`chain_eq`).
-/
import Virtuals.Views.FractionalRuns
import Virtuals.Views.Invariants
import Virtuals.Views.LogIndexedOrder

namespace Virtuals.Views

open Virtuals.Lib

variable {K P S C X : Type} [LinearOrder K]

/-! ## The log view -/

namespace LogIndexedDictView

variable {s : Logged K P S C}

/-- `_scan_log_keys`, to a limit: the row of the cursor is read and dropped, if it is still there. -/
def scanLogKeysPast (reverse : Bool) (cursor : Option LogKey) (limit : Option Nat) :
    EStateM ViewError (Logged K P S C) (List (LogKey × K)) := do
  let s ← get
  let rows := scanFrom reverse cursor (limit.map (· + cursor.toList.length)) s.keys.rows
  raiseIf (if s.created || !rows.isEmpty then none else some .containerNotFound)
  return handedOn cursor.toList limit rows

/-- `_keys_scan` with `after`, and `keys_reverse` with `before`. -/
def keysPast (reverse : Bool) (cursor : Option LogKey) (limit : Option Nat) :
    EStateM ViewError (Logged K P S C) (List K) :=
  List.map Prod.snd <$> scanLogKeysPast reverse cursor limit

omit [LinearOrder K] in
theorem scanLogKeysPast_made (hs : s.created = true) (reverse : Bool) (cursor : Option LogKey)
    (limit : Option Nat) : scanLogKeysPast reverse cursor limit s =
      .ok (page reverse cursor limit s.keys.rows) s := by
  refine (bind_of_ok (get_apply s)).trans ((bind_of_ok (a := ()) ?_).trans rfl)
  rw [hs]
  rfl

/-- How an existing log view is paged: by the ids that it iterates over. -/
structure Paged (s : Logged K P S C) : Prop where
  iterates : iter s = .ok (s.keys.rows.map Prod.snd) s
  /-- a page has the first ids past the cursor, unless it is to have none, the cursor has no row and
  there is an id past it -/
  exact_iff : ∀ reverse cursor limit,
    keysPast reverse cursor (some limit) s =
        .ok (((past reverse cursor s.keys.rows).take limit).map Prod.snd) s ↔
      1 ≤ limit ∨ (∀ c ∈ cursor, (s.keys.get? c).isSome) ∨ past reverse cursor s.keys.rows = []
  /-- pages that follow one another have the whole log -/
  chained : ∀ reverse sizes, (∀ n ∈ sizes, 1 ≤ n) → s.keys.rows.length ≤ sizes.sum →
    chain (fun cursor n => scanLogKeysPast reverse cursor (some n)) Prod.fst sizes none s =
      .ok (inDirection reverse s.keys.rows) s

omit [LinearOrder K] in
theorem mem_log_iff {c : LogKey} : c ∈ s.keys.rows.map Prod.fst ↔ (s.keys.get? c).isSome := by
  rw [Table.rows_map_fst, Table.mem_scan, Table.mem_keys]

/-- What is left past a cursor. -/
def Left (reverse : Bool) (s : Logged K P S C) (cursor : Option LogKey) (l : List (LogKey × K)) :
    Prop := past reverse cursor s.keys.rows = l

omit [LinearOrder K] in
theorem left_read (hs : s.created = true) (reverse : Bool) (cursor : Option LogKey)
    (l : List (LogKey × K)) (n : Nat) (hn : 1 ≤ n) (hl : Left reverse s cursor l) :
    scanLogKeysPast reverse cursor (some n) s = .ok (l.take n) s := by
  rw [scanLogKeysPast_made hs, page_eq s.keys.rows_sorted, pageSize, Nat.max_eq_left hn, ite_self,
    show past reverse cursor s.keys.rows = l from hl]

omit [LinearOrder K] in
theorem left_next (reverse : Bool) (cursor : Option LogKey) (l : List (LogKey × K))
    (row : LogKey × K) (r : List (LogKey × K)) (hl : Left reverse s cursor (l ++ row :: r)) :
    Left reverse s (some row.1) r :=
  past_of_past s.keys.rows_sorted hl

omit [LinearOrder K] in
theorem paged_of_made (hs : s.created = true) : Paged s where
  iterates := map_of_ok (scanLogKeys_made hs)
  exact_iff reverse cursor limit := by
    have hpage := page_exact_iff s.keys.rows_sorted reverse cursor limit
    have hmem : (∀ c ∈ cursor, c ∈ s.keys.rows.map Prod.fst) ↔
        ∀ c ∈ cursor, (s.keys.get? c).isSome := forall₂_congr fun _ _ => mem_log_iff
    rw [hmem] at hpage
    rw [← hpage, keysPast, map_of_ok (scanLogKeysPast_made hs reverse cursor (some limit))]
    exact ⟨fun he => (EStateM.Result.ok.inj he).1, fun he => congrArg (EStateM.Result.ok · s) he⟩
  chained reverse sizes hsizes hsum := by
    have hchain := chain_eq (left_read hs reverse) (left_next reverse) sizes hsizes
      (past_none reverse s.keys.rows)
    rw [hchain, List.take_of_length_le]
    rwa [length_inDirection]

end LogIndexedDictView

/-! ## Listed ids can be held -/

namespace Ordered

variable [DecidableEq S]

/-- The key codec takes every id of the collection. -/
def Held (refusesKey : K → Option Nat) (m : Ordered K P S C) : Prop :=
  ∀ k ∈ m.ids, refusesKey k = none

variable {refusesKey : K → Option Nat} {env : Env P S C X}

omit [DecidableEq S] in
theorem base_preserves (k : K) : (base refusesKey : ViewBase (Ordered K P S C) K P S C).Preserves k
    (Held refusesKey) where
  marked _ h := h
  put _ _ _ h := h
  hook hk := Keeps.modify fun m h j hj => by
    rcases List.mem_append.1 hj with hj | hj
    · exact h j hj
    · exact List.mem_singleton.1 hj ▸ hk

omit [DecidableEq S] in
theorem children_preserves (k : K) :
    (children refusesKey : ViewBase (Ordered K P S C) K P S C).Preserves k (Held refusesKey) where
  marked _ h := h
  put _ _ _ h := h
  hook _ := Keeps.pure ()

omit [DecidableEq S] in
theorem nodeInfo_keeps (k : K) :
    Keeps (Held refusesKey) ((children refusesKey : ViewBase (Ordered K P S C) K P S C).nodeInfo k) :=
  Keeps.bind (Keeps.raiseIf _) fun _ => Keeps.get_bind fun _ _ => Keeps.pure _

omit [DecidableEq S] in
/-- An id that is listed is looked up; the codec took it before. -/
theorem listed_bind {α : Type} {address : Address K} {f : K → EStateM ViewError (Ordered K P S C) α}
    (hf : ∀ k, refusesKey k = none → Keeps (Held refusesKey) (f k)) :
    Keeps (Held refusesKey) (listed refusesKey address >>= f) := by
  intro m h
  cases address with
  | other => exact h
  | key k =>
    cases hk : refusesKey k with
    | some kind =>
      have hlisted : listed refusesKey (.key k) m = .error (.other kind) m := by
        show (raiseIf ((refusesKey k).map ViewError.other) >>= fun _ => _) m = _
        rw [hk]
        rfl
      rw [bind_of_error hlisted]
      exact h
    | none =>
      by_cases hin : k ∈ m.ids
      · rw [bind_of_ok (FractionalIndexedDictView.listed_of_mem hk hin)]
        exact hf k hk m h
      · rw [bind_of_error (FractionalIndexedDictView.listed_missing hk hin)]
        exact h

omit [DecidableEq S] in
theorem move_keeps {k : K} (hk : refusesKey k = none) (spot : Spot K) :
    Keeps (Held refusesKey) (move k spot : EStateM ViewError (Ordered K P S C) Unit) :=
  Keeps.modify fun m h j hj => by
    rcases Spot.mem_put.1 hj with rfl | hj
    · exact hk
    · exact h j (List.mem_filter.1 hj).1

omit [DecidableEq S] in
theorem moveNextTo_keeps (spot : K → Spot K) (address ref : Address K) : Keeps (Held refusesKey)
    (moveNextTo refusesKey spot address ref : EStateM ViewError (Ordered K P S C) Unit) := by
  refine listed_bind fun k hk => ?_
  cases ref with
  | other => exact Keeps.throw _
  | key j =>
    by_cases hkj : k = j
    · simp only [if_pos hkj]
      exact Keeps.pure ()
    · simp only [if_neg hkj]
      exact listed_bind fun j _ => move_keeps hk (spot j)

omit [DecidableEq S] in
theorem delItem_keeps (address : Address K) : Keeps (Held refusesKey)
    (delItem refusesKey address : EStateM ViewError (Ordered K P S C) Unit) :=
  listed_bind fun _ _ => Keeps.modify fun _ h j hj => h j (List.mem_filter.1 hj).1

omit [DecidableEq S] in
theorem getItem_keeps (address : Address K) :
    Keeps (Held refusesKey) (getItem refusesKey env address) :=
  Keeps.bind (Keeps.liftResult _) fun k => Keeps.bind (nodeInfo_keeps k) fun _ => Keeps.liftResult _

theorem insert_keeps (k : K) (value : Value P S C) (spot : Spot K) :
    Keeps (Held refusesKey) (insert refusesKey env k value spot) := by
  cases hk : refusesKey k with
  | some kind =>
    rw [insert, hk]
    exact fun _ h => h
  | none =>
    rw [insert, hk]
    refine Keeps.bind (Keeps.raiseIf _) fun _ => Keeps.get_bind fun m₀ h₀ => ?_
    refine Keeps.bind (Keeps.raiseIf _) fun _ => Keeps.bind (Keeps.tryCatch ?_ fun e => ?_) fun _ => ?_
    · exact (children_preserves k).writeChild env value
    · exact Keeps.bind (m := set m₀) (fun _ _ => h₀) fun _ => Keeps.throw e
    · exact Keeps.modify fun m h j hj => (Spot.mem_put.1 hj).elim (fun he => he ▸ hk) (h j)

omit [LinearOrder K] [DecidableEq S] in
theorem offered_keeps {I : Ordered K P S C → Prop} (address : Address K) (value : Value P S C) :
    Keeps I (offered address value) := by
  cases address with
  | other => exact Keeps.throw _
  | key k =>
    cases value with
    | empty => exact Keeps.throw _
    | primitive value => exact Keeps.pure k
    | compound structureId store => exact Keeps.pure k

theorem insertAtEnd_keeps (spot : Spot K) (address : Address K) (value : Value P S C) :
    Keeps (Held refusesKey) (insertAtEnd refusesKey env spot address value) :=
  Keeps.bind (offered_keeps address value) fun k =>
    Keeps.bind ((children_preserves k).ensureCreated env) fun _ => insert_keeps k value spot

theorem insertNextTo_keeps (spot : K → Spot K) (ref address : Address K) (value : Value P S C) :
    Keeps (Held refusesKey) (insertNextTo refusesKey env spot ref address value) :=
  listed_bind fun j _ => insertAtEnd_keeps (spot j) address value

omit [LinearOrder K] [DecidableEq S] in
theorem orDefault_keeps {I : Ordered K P S C → Prop} (default : Bool)
    {m : EStateM ViewError (Ordered K P S C) (Out P X)} (h : Keeps I m) :
    Keeps I (orDefault default m) := by
  refine Keeps.tryCatch h fun e => ?_
  cases (e.isKeyError && default)
  · exact Keeps.throw e
  · exact Keeps.pure _

omit [DecidableEq S] in
theorem pop_keeps (address : Address K) (default : Bool) :
    Keeps (Held refusesKey) (pop refusesKey env address default) := by
  refine Keeps.bind (orDefault_keeps default (Keeps.map _ (getItem_keeps address))) fun x => ?_
  cases x with
  | default => exact Keeps.pure _
  | _ => exact Keeps.bind (delItem_keeps address) fun _ => Keeps.pure _

omit [DecidableEq S] in
theorem contains_keeps (address : Address K) : Keeps (Held refusesKey)
    (contains refusesKey address : EStateM ViewError (Ordered K P S C) Bool) := by
  refine Keeps.get_bind fun m _ => ?_
  cases address with
  | other => exact Keeps.bind (Keeps.raiseIf _) fun _ => Keeps.pure _
  | key k =>
    exact Keeps.bind (Keeps.raiseIf _) fun _ => Keeps.bind (Keeps.raiseIf _) fun _ => Keeps.pure _

theorem setItem_keeps (address : Address K) (value : Value P S C) :
    Keeps (Held refusesKey) (setItem refusesKey env address value) := by
  cases address with
  | other => exact Keeps.throw _
  | key k => exact (base_preserves k).setChildValue env value

omit [LinearOrder K] [DecidableEq S] in
theorem clear_keeps :
    Keeps (Held refusesKey) (clear : EStateM ViewError (Ordered K P S C) Unit) :=
  Keeps.modify fun _ _ _ hj => nomatch hj

theorem update_keeps (value : Bulk (Address K) (Value P S C))
    (kwargs : List (Address K × Value P S C)) :
    Keeps (Held refusesKey) (update refusesKey env value kwargs) := by
  refine Keeps.bind (rejectEmptyIn_keeps value) fun _ =>
    Keeps.bind (rejectEmptyIn_keeps (.mapping kwargs)) fun _ => Keeps.bind (items_keeps value) fun items => ?_
  exact Keeps.bind (Keeps.forM items fun a _ => setItem_keeps a.1 a.2) fun _ =>
    Keeps.forM kwargs fun a _ => setItem_keeps a.1 a.2

omit [LinearOrder K] [DecidableEq S] in
theorem filling_keeps {I : Ordered K P S C → Prop} (yes : P) (value : Filling K P S C) :
    Keeps I value.rejectEmpty ∧ Keeps I (value.items yes) := by
  cases value with
  | mapping items => exact ⟨rejectEmptyIn_keeps (.mapping items), Keeps.pure items⟩
  | ids ids empty => exact ⟨Keeps.raiseIf _, Keeps.pure _⟩
  | other => exact ⟨Keeps.pure (), Keeps.throw _⟩

theorem store_keeps (yes : P) (value : Filling K P S C) (replace : Bool) :
    Keeps (Held refusesKey) (store refusesKey env yes value replace) := by
  have hcreate : Keeps (Held refusesKey) ((base refusesKey).ensureCreated env) :=
    ViewBase.ensureCreated_keeps _ env fun _ h => h
  obtain ⟨hreject, hitems⟩ := filling_keeps yes value
  exact Keeps.bind hreject fun _ => Keeps.bind hcreate fun _ =>
    Keeps.bind (Keeps.onlyIf _ clear_keeps) fun _ => Keeps.bind hitems fun items =>
    Keeps.forM items fun a _ => setItem_keeps a.1 a.2

theorem exec_keeps (yes : P) (op : FractionalOp K P S C) :
    Keeps (Held refusesKey) (exec refusesKey env yes op) := by
  cases op with
  | set address value => exact Keeps.map _ (setItem_keeps address value)
  | nested address structureId write =>
    exact Keeps.bind (Keeps.liftResult _) fun k =>
      Keeps.bind ((base_preserves k).nestedWrite env structureId write) fun _ => Keeps.pure _
  | moveBefore address ref => exact Keeps.map _ (moveNextTo_keeps .before address ref)
  | moveAfter address ref => exact Keeps.map _ (moveNextTo_keeps .after address ref)
  | moveFirst address => exact Keeps.map _ (listed_bind fun _ hk => move_keeps hk _)
  | moveLast address => exact Keeps.map _ (listed_bind fun _ hk => move_keeps hk _)
  | append address value => exact Keeps.map _ (insertAtEnd_keeps .last address value)
  | prepend address value => exact Keeps.map _ (insertAtEnd_keeps .first address value)
  | insertBefore ref address value => exact Keeps.map _ (insertNextTo_keeps .before ref address value)
  | insertAfter ref address value => exact Keeps.map _ (insertNextTo_keeps .after ref address value)
  | del address => exact Keeps.map _ (delItem_keeps address)
  | pop address default => exact pop_keeps address default
  | clear => exact Keeps.map _ clear_keeps
  | update value kwargs => exact Keeps.map _ (update_keeps value kwargs)
  | store value replace => exact Keeps.map _ (store_keeps yes value replace)
  | respace => exact Keeps.pure _
  | get address default => exact orDefault_keeps default (Keeps.map _ (getItem_keeps address))
  | contains address => exact Keeps.map _ (contains_keeps address)
  | len =>
    exact Keeps.map _ (Keeps.get_bind fun _ _ => Keeps.bind (Keeps.raiseIf _) fun _ => Keeps.pure _)
  | missing => exact Keeps.throw _

end Ordered

/-! ## The fractional view -/

namespace FractionalIndexedDictView

variable {refusesKey : K → Option Nat} {s : Fractional K P S C} {m : Ordered K P S C}

/-- A list in the direction of a reader. -/
def facing (reverse : Bool) (l : List K) : List K := if reverse then l.reverse else l

omit [LinearOrder K] in
theorem facing_rows (reverse : Bool) (rows : List (FractionalIndex.OrderKey × K)) :
    (inDirection reverse rows).map Prod.snd = facing reverse (rows.map Prod.snd) := by
  cases reverse
  · rfl
  · exact List.map_reverse

omit [LinearOrder K] in
theorem length_facing (reverse : Bool) (l : List K) : (facing reverse l).length = l.length := by
  cases reverse
  · rfl
  · exact List.length_reverse

/-- How an existing view that lists `ids` is paged. -/
structure Paged (refusesKey : K → Option Nat) (s : Fractional K P S C) (ids : List K) : Prop where
  iterates : iter s = .ok ids s
  reverses : reversed s = .ok ids.reverse s
  first : ∀ reverse limit, keysScan refusesKey none (some limit) reverse s =
    .ok ((facing reverse ids).take limit) s
  /-- past an id come those that follow it in the direction of the reader -/
  past : ∀ reverse limit l k r, facing reverse ids = l ++ k :: r →
    keysScan refusesKey (some (.key k)) (some limit) reverse s = .ok (r.take limit) s
  /-- pages that follow one another have the whole listing -/
  chained : ∀ reverse sizes, (∀ n ∈ sizes, 1 ≤ n) → ids.length ≤ sizes.sum →
    chain (fun cursor n => keysScan refusesKey (cursor.map .key) (some n) reverse) id sizes none s =
      .ok (facing reverse ids) s

omit [LinearOrder K] in
/-- What a scan hands on of an existing view is a page of its order rows. -/
theorem scanOrder_page (hs : s.created = true) (reverse : Bool)
    (cursor : Option FractionalIndex.OrderKey) (limit : Nat) :
    scanOrder cursor reverse (some limit) cursor.toList true s =
      .ok (page reverse cursor (some limit) s.order.rows) s := by
  refine (bind_of_ok (get_apply s)).trans ((bind_of_ok (a := ()) ?_).trans rfl)
  rw [hs, Bool.not_true, Bool.and_false]
  rfl

theorem Rel.page_first (h : Rel s m) (hs : s.created = true) (reverse : Bool) (limit : Nat) :
    keysScan refusesKey none (some limit) reverse s =
      .ok ((facing reverse m.ids).take limit) s := by
  have hscan := map_of_ok (f := List.map Prod.snd) (scanOrder_page hs reverse none limit)
  rwa [page_of_none, past_none, List.map_take, facing_rows, h.listing.lists] at hscan

theorem Rel.page_past (h : Rel s m) (hheld : Ordered.Held refusesKey m) (reverse : Bool)
    (limit : Nat) {l r : List K} {k : K} (hids : facing reverse m.ids = l ++ k :: r) :
    keysScan refusesKey (some (.key k)) (some limit) reverse s = .ok (r.take limit) s := by
  have hin : k ∈ m.ids := by
    have hmem : k ∈ facing reverse m.ids := by
      rw [hids]
      exact List.mem_append_right _ List.mem_cons_self
    cases reverse
    · exact hmem
    · exact List.mem_reverse.1 hmem
  obtain ⟨okey, hpos⟩ := Option.isSome_iff_exists.1 ((h.listing.placed k).2 hin)
  have hcursor : requirePosition refusesKey (.key k) s = .ok okey s := by
    rw [requirePosition, bind_of_ok (positionOrEmpty_apply (hheld k hin)), hpos]
    rfl
  have hs := h.created.trans (h.created_of_mem hin)
  -- the row of the cursor, and what follows it
  rw [← h.listing.lists, ← facing_rows] at hids
  obtain ⟨rl, rest, hrows, -, hrest⟩ := List.map_eq_append_iff.1 hids
  obtain ⟨row, rr, rfl, hk, hrr⟩ := List.map_eq_cons_iff.1 hrest
  have hrow : row ∈ s.order.rows := mem_inDirection.1 (by
    rw [hrows]
    exact List.mem_append_right _ List.mem_cons_self)
  have hokey : row.1 = okey := by
    have horder := h.listing.sound.points k okey hpos (h.listing.mem_iff.2 hin)
    have hpair := List.inj_on_of_nodup_map h.listing.sound.once hrow (Table.mem_rows.2 horder) hk
    exact congrArg Prod.fst hpair
  have hpage := page_of_mem s.order.rows_sorted reverse hrow (some limit)
  rw [(past_of_split s.order.rows_sorted hrows).1, hokey] at hpage
  have hscan := map_of_ok (f := List.map Prod.snd) (scanOrder_page hs reverse (some okey) limit)
  rw [hpage] at hscan
  refine (bind_of_ok hcursor).trans (hscan.trans ?_)
  rw [← hrr, ← List.map_take]
  rfl

/-- What is left past an id, or of the whole listing. -/
def Left (reverse : Bool) (ids : List K) (cursor : Option K) (l : List K) : Prop :=
  match cursor with
  | none => facing reverse ids = l
  | some k => ∃ a, facing reverse ids = a ++ k :: l

omit [LinearOrder K] in
theorem left_next (reverse : Bool) (ids : List K) (cursor : Option K) (l : List K) (k : K)
    (r : List K) (hl : Left reverse ids cursor (l ++ k :: r)) : Left reverse ids (some (id k)) r := by
  cases cursor with
  | none => exact ⟨l, hl⟩
  | some j =>
    obtain ⟨a, ha⟩ := hl
    exact ⟨a ++ j :: l, by rw [ha, List.append_assoc, List.cons_append, id]⟩

theorem Rel.left_read (h : Rel s m) (hs : s.created = true) (hheld : Ordered.Held refusesKey m)
    (reverse : Bool) (cursor : Option K) (l : List K) (n : Nat) (_ : 1 ≤ n)
    (hl : Left reverse m.ids cursor l) :
    keysScan refusesKey (cursor.map .key) (some n) reverse s = .ok (l.take n) s := by
  cases cursor with
  | none =>
    rw [← show facing reverse m.ids = l from hl]
    exact h.page_first hs reverse n
  | some k =>
    obtain ⟨a, ha⟩ := hl
    exact h.page_past hheld reverse n ha

theorem Rel.paged (h : Rel s m) (hs : s.created = true) (hheld : Ordered.Held refusesKey m) :
    Paged refusesKey s m.ids where
  iterates := h.shows.iterates hs
  reverses := h.shows.reverses hs
  first := h.page_first hs
  past reverse limit _ _ _ hids := h.page_past hheld reverse limit hids
  chained reverse sizes hsizes hsum := by
    have hstart : Left reverse m.ids none (facing reverse m.ids) := rfl
    have hchain := chain_eq (h.left_read hs hheld reverse) (left_next reverse m.ids) sizes hsizes
      hstart
    rw [hchain, List.take_of_length_le]
    rwa [length_facing]

end FractionalIndexedDictView

/-! ## The law -/

variable [DecidableEq S]

/-- **Pages of the indexed views** (PROVED), in every state of an existing view that a run of its
operations reaches. A fractional view pages exactly, from any id that it lists. A log view does so from
any cursor, except that a page of none from a cursor without a row has the next id if there is one. Pages
of one id or more chain to the whole listing of either. -/
theorem indexed_pages (refusesKey : K → Option Nat) (env : Env P S C X) (yes : P) (draws : Draws)
    (strKey : LogKey → K) (rebuild : S → C → C × Option ViewError) :
    (∀ counter (ops : List (LogOp K P S C)) s,
      (outcomes (ops.map (LogIndexedDictView.exec draws refusesKey env strKey rebuild))
        (LogIndexedDictView.absent counter)).2 = s →
      s.created = true → LogIndexedDictView.Paged s) ∧
    ∀ coins (ops : List (FractionalOp K P S C)) s,
      (outcomes (ops.map (FractionalIndexedDictView.exec refusesKey env yes))
        (FractionalIndexedDictView.absent coins)).2 = s →
      s.created = true → ∃ ids, FractionalIndexedDictView.Paged refusesKey s ids := by
  refine ⟨fun _ _ s _ hs => LogIndexedDictView.paged_of_made hs, ?_⟩
  rintro coins ops s rfl hs
  obtain ⟨-, hrel⟩ := FractionalIndexedDictView.run_rel refusesKey env yes ops coins
  have hheld : Ordered.Held refusesKey
      (outcomes (ops.map (Ordered.exec refusesKey env yes)) Ordered.absent).2 :=
    Keeps.outcomes (Ordered.exec_keeps yes) ops fun _ hk => nomatch hk
  exact ⟨_, hrel.paged hs hheld⟩

/-! ## A page of none -/

namespace PageOfNone

open LogIndexedDictView.OneMillisecond (draws env)

/-- Two ids set, the first of them deleted. -/
def ops : List (LogOp Nat Unit Unit Unit) :=
  [.dict (.set (.key 1) (.primitive ())), .dict (.set (.key 2) (.primitive ())),
    .dict (.del (.key 1))]

/-- The state after them. -/
def site : Logged Nat Unit Unit Unit :=
  (outcomes (ops.map (LogIndexedDictView.exec draws (fun _ => none) env
    List.length fun _ c => (c, none))) (LogIndexedDictView.absent 0)).2

end PageOfNone

namespace PageOfNone

open LogIndexedDictView.OneMillisecond (draws)

theorem logKey_lt : draws.logKey 1 < draws.logKey 2 := by decide +kernel

theorem created_site : site.created = true := rfl

theorem keys_site : site.keys =
    ((Table.put ∅ (draws.logKey 1) 1).put (draws.logKey 2) 2).erase (draws.logKey 1) := rfl

/-- The row of the second id is left. -/
theorem rows_site : site.keys.rows = [(draws.logKey 2, 2)] := by
  have hone : (Table.put ∅ (draws.logKey 1) 1).rows = [(draws.logKey 1, 1)] :=
    (Table.rows_put_last ∅ 1 fun row hrow => by
      rw [Table.rows_empty] at hrow
      cases hrow).trans (by rw [Table.rows_empty, List.nil_append])
  have htwo : ((Table.put ∅ (draws.logKey 1) 1).put (draws.logKey 2) 2).rows =
      [(draws.logKey 1, 1), (draws.logKey 2, 2)] := by
    rw [Table.rows_put_last, hone, List.singleton_append]
    rw [hone]
    exact fun row hrow => List.mem_singleton.1 hrow ▸ logKey_lt
  rw [keys_site, Table.rows_erase, htwo, List.filter_cons_of_neg (by simp),
    List.filter_cons_of_pos (by simpa using logKey_lt.ne'), List.filter_nil]

end PageOfNone

open PageOfNone LogIndexedDictView.OneMillisecond in
/-- A page of none, past a log key whose row was deleted: the next id comes all the same. -/
theorem page_of_none_yields : site.created = true ∧
    LogIndexedDictView.keysPast false (some (draws.logKey 1)) (some 0) site = .ok [2] site ∧
    ¬ LogIndexedDictView.keysPast false (some (draws.logKey 1)) (some 0) site =
      .ok (((past false (some (draws.logKey 1)) site.keys.rows).take 0).map Prod.snd) site := by
  have hpage : LogIndexedDictView.keysPast false (some (draws.logKey 1)) (some 0) site =
      .ok [2] site := by
    refine (map_of_ok (LogIndexedDictView.scanLogKeysPast_made created_site false _ _)).trans ?_
    have hpast : past false (some (draws.logKey 1)) [(draws.logKey 2, 2)] =
        [(draws.logKey 2, 2)] :=
      List.filter_cons_of_pos (decide_eq_true (p := draws.logKey 1 < draws.logKey 2) logKey_lt)
    rw [page_of_absent, rows_site, hpast]
    · rfl
    · rw [rows_site]
      exact fun row hrow => List.mem_singleton.1 hrow ▸ logKey_lt.ne'
  refine ⟨created_site, hpage, fun h => ?_⟩
  rw [hpage] at h
  cases (EStateM.Result.ok.inj h).1

namespace PageOfNone

open LogIndexedDictView.OneMillisecond (env)

/-- Four ids, put where they come first, last and between two others. -/
def placings : List (FractionalOp Nat Unit Unit Unit) :=
  [.set (.key 1) (.primitive ()), .append (.key 2) (.primitive ()), .prepend (.key 3) (.primitive ()),
    .insertAfter (.key 1) (.key 4) (.primitive ())]

/-- The state after them. -/
def placed : Fractional Nat Unit Unit Unit :=
  (outcomes (placings.map (FractionalIndexedDictView.exec (fun _ => none) env ()))
    (FractionalIndexedDictView.absent fun _ => 0)).2

/-- The order that they give. -/
def order : Ordered Nat Unit Unit Unit :=
  (outcomes (placings.map (Ordered.exec (fun _ => none) env ())) Ordered.absent).2

theorem rel_placed : FractionalIndexedDictView.Rel placed order :=
  (FractionalIndexedDictView.run_rel (fun _ => none) env () placings fun _ => 0).2

theorem created_placed : placed.created = true := by
  have hmade : order.created = true := by decide +kernel
  exact rel_placed.created.trans hmade

theorem page_placed : FractionalIndexedDictView.keysScan (fun _ => none) (some (.key 3)) (some 2) false
    placed = .ok [1, 4] placed := by
  have hids : FractionalIndexedDictView.facing false order.ids = [] ++ 3 :: [1, 4, 2] := by decide +kernel
  exact rel_placed.page_past (fun _ _ => rfl) false 2 hids

end PageOfNone

open PageOfNone LogIndexedDictView.OneMillisecond in
/-- The state of that run, and a fractional view of four ids. -/
theorem indexed_pages_site : LogIndexedDictView.Paged site ∧
    (∃ ids, FractionalIndexedDictView.Paged (fun _ => none) placed ids) ∧
    FractionalIndexedDictView.keysScan (fun _ => none) (some (.key 3)) (some 2) false placed =
      .ok [1, 4] placed := by
  have h := indexed_pages (fun _ : Nat => none) env () draws List.length fun _ c => (c, none)
  exact ⟨h.1 0 ops site rfl created_site,
    h.2 (fun _ => 0) placings placed rfl created_placed, page_placed⟩

end Virtuals.Views
