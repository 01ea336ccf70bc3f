/-
  Runs of a fractional indexed dict and of the ordered collection side by side.

  Every operation of the view simulates that of the collection (`exec_sim`): writes of the base class by
  the hook that appends, a delete and a clear by what they leave of the rows, a respace by the fresh keys
  that come in the order of the rows. So a run ends in rows that list the ids of the collection.
-/
import Mathlib.Data.Finset.Option
import Mathlib.Data.Fintype.BigOperators
import Virtuals.Lib.Inverse
import Virtuals.Views.FractionalInsert

namespace Virtuals.Views

open Virtuals.Lib

/-- A value that was set is there. -/
theorem ViewBase.Stores.setChildValue {σ K P S C X : Type} [DecidableEq S] {V : ViewBase σ K P S C}
    {k : K} {s s' : σ} (h : V.Stores) (env : Env P S C X) {value : Value P S C}
    (hrun : V.setChildValue env (.key k) value s = .ok () s') : (V.child s' k).isSome := by
  obtain ⟨j, s₁, hkey, hrest⟩ := ok_of_bind hrun
  obtain ⟨rfl, rfl⟩ := EStateM.Result.ok.inj hkey
  obtain ⟨_, s₂, hempty, hrest⟩ := ok_of_bind hrest
  obtain ⟨_, s₃, -, hwrite⟩ := ok_of_bind hrest
  refine h.writeChild env ?_ hwrite
  rintro rfl
  cases hempty

namespace FractionalIndexedDictView

open Virtuals.FractionalIndex

variable {K P S C X : Type} [LinearOrder K]
variable {refusesKey : K → Option Nat} {env : Env P S C X}
variable {s s' : Fractional K P S C} {m : Ordered K P S C} {k : K} {okey : OrderKey}

/-! ## Reads -/

theorem nodeInfo_sim (k : K) : Coupled (Rel (P := P) (S := S) (C := C))
    ((base refusesKey).nodeInfo k) ((Ordered.children refusesKey).nodeInfo k)
    (fun info s m => Rel s m ∧ s.data.get? k = info) Rel :=
  refines.nodeInfo k fun _ _ h => h

theorem getItem_sim (address : Address K) :
    Sim Rel (getItem refusesKey env address) (Ordered.getItem refusesKey env address) :=
  Sim.bind (Sim.liftResult _) fun k => Coupled.bind (nodeInfo_sim k) fun _ =>
    (Sim.liftResult _).mono (fun _ _ h => h.1) fun _ _ _ h => h

/-- What a view says of a key without a position. -/
theorem requireExists_sim : Sim (Rel (P := P) (S := S) (C := C)) (base refusesKey).requireExists
    (do
      let m ← get
      raiseIf (if m.created then none else some .containerNotFound)) := by
  intro s m h
  rw [ViewBase.requireExists_apply]
  show Agree _ _ _ ((raiseIf (if m.created then none else some ViewError.containerNotFound) :
    EStateM ViewError (Ordered K P S C) Unit) m)
  rw [show (base refusesKey).created s = m.created from h.created]
  cases m.created with
  | true => exact ⟨rfl, h⟩
  | false => exact ⟨rfl, h⟩

theorem ordered_contains (hk : refusesKey k = none) :
    Ordered.contains refusesKey (.key k) m =
      (raiseIf (if k ∈ m.ids || m.created then none else some .containerNotFound) >>= fun _ =>
        pure (decide (k ∈ m.ids)) : EStateM ViewError (Ordered K P S C) Bool) m := by
  refine (bind_of_ok (get_apply m)).trans (bind_of_ok (a := ()) ?_)
  rw [hk]
  rfl

theorem contains_sim (address : Address K) : Sim (Rel (P := P) (S := S) (C := C))
    (contains refusesKey address) (Ordered.contains refusesKey address) := by
  intro s m h
  cases address with
  | other =>
    exact Sim.bind requireExists_sim (fun _ => Sim.pure false) s m h
  | key k =>
    cases hk : refusesKey k with
    | some kind =>
      refine Agree.of_error (bind_of_error (positionOrEmpty_refused hk)) ?_ h
      refine (bind_of_ok (get_apply m)).trans (bind_of_error ?_)
      rw [hk]
      rfl
    | none =>
      rw [contains, bind_of_ok (positionOrEmpty_apply hk), ordered_contains hk]
      by_cases hin : k ∈ m.ids
      · rw [(h.listing.placed k).2 hin, if_pos rfl]
        simp only [hin, decide_true, Bool.true_or]
        exact ⟨rfl, h⟩
      · rw [h.pos_none hin]
        simp only [hin, decide_false, Bool.false_or]
        exact Sim.bind requireExists_sim (fun _ => Sim.pure false) s m h

/-- As many position rows as ids. -/
theorem Rel.length_pos (h : Rel s m) : s.pos.scan.length = m.ids.length := by
  rw [Table.length_scan, Table.size, ← List.toFinset_card_of_nodup h.nodup]
  refine congrArg Finset.card (Finset.ext fun k => ?_)
  rw [Table.mem_keys, List.mem_toFinset, h.listing.placed]

theorem len_sim : Sim (Rel (P := P) (S := S) (C := C)) len (Ordered.len (K := K)) := by
  intro s m h
  have hempty : s.pos.scan.isEmpty = m.ids.isEmpty := by
    rw [Bool.eq_iff_iff, List.isEmpty_iff_length_eq_zero, List.isEmpty_iff_length_eq_zero,
      h.length_pos]
  rw [len, Ordered.len, bind_of_ok (get_apply s), bind_of_ok (get_apply m), hempty, h.created,
    h.length_pos]
  exact Sim.bind (Sim.raiseIf _) (fun _ => Sim.pure _) s m h

/-! ## Deletes -/

theorem Rel.erase (h : Rel s m) (hk : s.pos.get? k = some okey) :
    Rel { s with
      data := s.data.erase k
      order := s.order.erase okey
      pos := s.pos.erase k } { m with
      ids := m.ids.filter (· ≠ k)
      data := m.data.erase k } where
  listing := (h.listing.erase hk).of_data ⟨rfl, rfl⟩
  created := h.created
  data := congrArg (Table.erase · k) h.data
  covers j := by
    rw [List.mem_filter, decide_eq_true_eq, h.covers, Table.get?_erase]
    split_ifs with hj
    · simp [hj]
    · exact and_iff_left hj
  absent hm := by
    rw [h.absent hm]
    rfl

theorem listed_of_mem (hk : refusesKey k = none) (hin : k ∈ m.ids) :
    Ordered.listed refusesKey (.key k) m = .ok k m := by
  show (raiseIf ((refusesKey k).map ViewError.other) >>= fun _ => _) m = _
  rw [hk]
  refine (bind_of_ok rfl).trans ((bind_of_ok (get_apply m)).trans ?_)
  rw [if_pos hin]
  rfl

theorem listed_missing (hk : refusesKey k = none) (hin : k ∉ m.ids) :
    Ordered.listed refusesKey (.key k) m = .error .keyError m := by
  show (raiseIf ((refusesKey k).map ViewError.other) >>= fun _ => _) m = _
  rw [hk]
  refine (bind_of_ok rfl).trans ((bind_of_ok (get_apply m)).trans ?_)
  rw [if_neg hin]
  rfl

theorem delItem_sim (address : Address K) : Sim (Rel (P := P) (S := S) (C := C))
    (delItem refusesKey address) (Ordered.delItem refusesKey address) := by
  intro s m h
  cases address with
  | other => exact ⟨rfl, h⟩
  | key k =>
    cases hk : refusesKey k with
    | some kind =>
      refine Agree.of_error ((bind_of_ok rfl).trans (bind_of_error (positionOrEmpty_refused hk)))
        (bind_of_error ((bind_of_ok rfl).trans (bind_of_error (e := ViewError.other kind) ?_))) h
      rw [hk]
      rfl
    | none =>
      by_cases hin : k ∈ m.ids
      · obtain ⟨okey, hpos⟩ := Option.isSome_iff_exists.1 ((h.listing.placed k).2 hin)
        have hs := h.created.trans (h.created_of_mem hin)
        refine Agree.of_ok ((bind_of_ok rfl).trans ((bind_of_ok (positionOrEmpty_apply hk)).trans ?_))
          ((bind_of_ok (listed_of_mem hk hin)).trans rfl) (h.erase hpos)
        rw [hpos]
        exact (bind_of_ok rfl).trans (deleteChild_made hs)
      · have hnone : s.data.get? k = none := by
          rw [h.data, ← Option.not_isSome_iff_eq_none, ← h.covers]
          exact hin
        have hcheck : raiseIf ((refusesKey k).map ViewError.other) s = .ok () s := by
          rw [hk]
          rfl
        have hinfo : (base refusesKey).nodeInfo k s = .ok none s :=
          (bind_of_ok hcheck).trans (congrArg (EStateM.Result.ok · s) hnone)
        have hfound : (base refusesKey).existsChild k s = .ok false s := bind_of_ok hinfo
        refine Agree.of_error ((bind_of_ok rfl).trans
          ((bind_of_ok (positionOrEmpty_apply hk)).trans ?_))
          (bind_of_error (listed_missing hk hin)) h
        rw [h.pos_none hin]
        exact (bind_of_ok hfound).trans (bind_of_error rfl)

theorem pop_sim (address : Address K) (default : Bool) :
    Sim Rel (pop refusesKey env address default) (Ordered.pop refusesKey env address default) := by
  refine Sim.bind (orDefault_sim default (Sim.map _ (getItem_sim address))) fun x => ?_
  cases x with
  | default => exact Sim.pure _
  | _ => exact Sim.bind (delItem_sim address) fun _ => Sim.pure _

/-! ## Clearing -/

/-- Nothing is left. -/
def emptied (s : Fractional K P S C) : Fractional K P S C := { s with data := ∅, order := ∅, pos := ∅ }

theorem Rel.emptied (h : Rel s m) :
    Rel (FractionalIndexedDictView.emptied s) { m with ids := [], data := ∅ } where
  listing :=
    { sound :=
        { valid := fun okey k hk => by simp [FractionalIndexedDictView.emptied] at hk
          points := fun k okey hk => by simp [FractionalIndexedDictView.emptied] at hk
          once := by simp [FractionalIndexedDictView.emptied] }
      lists := by simp [FractionalIndexedDictView.emptied]
      placed := fun k => by simp [FractionalIndexedDictView.emptied]
      room := Nat.zero_le _
      short := fun _ row hrow => by simp [FractionalIndexedDictView.emptied] at hrow }
  created := h.created
  data := rfl
  covers k := by simp
  absent _ := rfl

theorem emptied_eq (s : Fractional K P S C) :
    { s with
      data := s.data.eraseAll s.data.scan
      order := s.order.eraseAll s.order.scan
      pos := s.pos.eraseAll s.pos.scan } = emptied s := by
  rw [emptied, Table.eraseAll_scan, Table.eraseAll_scan, Table.eraseAll_scan]

theorem clear_made (hs : s.created = true) :
    clear refusesKey env s = .ok () (emptied s) := by
  have hget : (Fractional.created <$> get : EStateM ViewError (Fractional K P S C) Bool) s =
      .ok true s := congrArg (EStateM.Result.ok · s) hs
  refine (bind_of_ok hget).trans
    ((bind_of_ok (ViewBase.ensureCreated_made (base refusesKey) env hs)).trans ?_)
  exact congrArg (EStateM.Result.ok ()) (emptied_eq s)

/-- Without ids there is nothing to clear. -/
theorem Rel.clear_empty (h : Rel s m) (hids : m.ids = []) :
    Ordered.clear m = .ok () m := by
  have hdata : m.data = ∅ := by
    refine Table.ext fun k => ?_
    rw [Table.get?_empty, ← Option.not_isSome_iff_eq_none, ← h.covers, hids]
    exact List.not_mem_nil
  obtain ⟨created, ids, data, peak⟩ := m
  cases hids
  cases hdata
  rfl

theorem clear_sim : Sim Rel (clear refusesKey env) (Ordered.clear (K := K)) := by
  intro s m h
  cases hs : s.created with
  | true => exact Agree.of_ok (clear_made hs) rfl h.emptied
  | false =>
    have hget : (Fractional.created <$> get : EStateM ViewError (Fractional K P S C) Bool) s =
        .ok false s := congrArg (EStateM.Result.ok · s) hs
    exact Agree.of_ok (bind_of_ok hget) (h.clear_empty (h.absent (h.created ▸ hs))) h

/-- `store` clears a view that has an id. -/
theorem clearStored_sim : Coupled (Refines.Made (base refusesKey) Rel)
    (do
      let first ← edge false false
      onlyIf first.isSome (clear refusesKey env))
    (Ordered.clear (K := K)) (fun _ => Rel) Rel := by
  intro s m ⟨h, hs⟩
  have hfirst : s.order.rows.head?.isSome = !m.ids.isEmpty := by
    rw [← h.listing.lists]
    cases s.order.rows <;> rfl
  rw [bind_of_ok (edge_first s), hfirst]
  cases hids : m.ids.isEmpty with
  | true => exact Agree.of_ok rfl (h.clear_empty (List.isEmpty_iff.1 hids)) h
  | false => exact clear_sim s m h

/-! ## Respacing -/

/-- The whole collection under fresh keys. -/
theorem Rel.respace (h : Rel s m) :
    ∃ s', FractionalIndexedDictView.respace s = .ok () s' ∧ Rel s' m := by
  have hscan := scanOrder_apply none false none s
  rw [Option.map_none] at hscan
  rw [FractionalIndexedDictView.respace, bind_of_ok hscan]
  rw [show none.elim (scanFrom false none none s.order.rows) _ = s.order.rows from
    scanFrom_none false none s.order.rows]
  by_cases hempty : s.order.rows.isEmpty = true
  · rw [if_pos hempty]
    exact ⟨s, rfl, h⟩
  · rw [if_neg hempty]
    obtain ⟨okeys, coins, hrun, hspread⟩ := n_suffixed_spec (by decide : 1 ≤ SUFFIX_LENGTH)
      (bounds_of_rows (l := []) (r := ([] : List (OrderKey × K))) List.Pairwise.nil nofun)
      s.order.rows.length s.coins
    have hlen : okeys.length = (s.order.rows.map Prod.snd).length := by
      rw [hspread.length, List.length_map]
    have hfits : Fits s [] s.order.rows (okeys.zip (s.order.rows.map Prod.snd)) [] :=
      { rows := by rw [List.nil_append, List.append_nil]
        ids := List.map_snd_zip (Nat.le_of_eq hlen.symm)
        ascending := by
          rw [List.nil_append, List.append_nil, ← Table.fst_lt_iff,
            List.map_fst_zip (Nat.le_of_eq hlen)]
          exact hspread.ascending
        valid := fun x hx => hspread.valid x.1 (List.of_mem_zip hx).1 }
    have hrows := hfits.rows_rewritten coins
    rw [List.nil_append, List.append_nil] at hrows
    refine ⟨rewritten s s.order.rows (okeys.zip (s.order.rows.map Prod.snd)) coins, ?_, ?_⟩
    · have hdrawn : drawn (generateNSuffixedKeysBetween none none s.order.rows.length SUFFIX_LENGTH)
          { s with order := s.order.eraseAll (s.order.rows.map Prod.fst) } = .ok okeys
          { s with order := s.order.eraseAll (s.order.rows.map Prod.fst), coins := coins } :=
        drawn_of_ok hrun
      rw [bind_of_ok (deleteRows_apply _ _), bind_of_ok hdrawn, indexAll_apply, rewritten,
        List.zip_swap]
    · exact
        { listing :=
            { sound := hfits.sound h.listing.sound
              lists := by rw [hrows, hfits.ids, h.listing.lists]
              placed := fun k => by
                rw [hfits.recorded h.listing.sound, h.listing.placed, h.listing.lists, or_self]
              room := h.listing.room
              short := fun hroom row hrow => by
                rw [hrows] at hrow
                have hn : s.order.rows.length ≤ CAPACITY := by
                  rw [h.listing.length_rows]
                  exact h.listing.room.trans (Nat.le_of_lt hroom)
                exact (n_suffixed_short (by decide) hn hrun row.1 (List.of_mem_zip hrow).1).trans
                  (by decide) }
          created := h.created
          data := h.data
          covers := h.covers
          absent := h.absent }

theorem respace_sim : Sim (Rel (P := P) (S := S) (C := C)) ((fun _ => Out.unit) <$> respace)
    (pure (Out.unit : Out P X) : EStateM ViewError (Ordered K P S C) (Out P X)) := by
  intro s m h
  obtain ⟨s', hrun, hrel⟩ := h.respace
  exact Agree.of_ok (map_of_ok hrun) rfl hrel

/-! ## Writes -/

variable [DecidableEq S]

/-- After a write of the base class the id has its position. -/
theorem setItem_sim (address : Address K) (value : Value P S C) :
    Sim Rel (setItem refusesKey env address value) (Ordered.setItem refusesKey env address value) := by
  cases address with
  | other => exact Sim.throw _
  | key k =>
    intro s m h
    have hset : Agree (fun _ => Rel) Rel ((base refusesKey).setChildValue env (.key k) value s)
        ((Ordered.base refusesKey).setChildValue env (.key k) value m) :=
      refines.setChildValue env (.key k) value s m h
    rw [setItem, Ordered.setItem]
    cases hv : (base refusesKey).setChildValue env (.key k) value s with
    | error e s' =>
      cases hm : (Ordered.base refusesKey).setChildValue env (.key k) value m with
      | ok a m' =>
        rw [hv, hm] at hset
        exact hset.elim
      | error e' m' =>
        rw [hv, hm] at hset
        rw [bind_of_error hv]
        exact hset
    | ok a s' =>
      cases hm : (Ordered.base refusesKey).setChildValue env (.key k) value m with
      | error e' m' =>
        rw [hv, hm] at hset
        exact hset.elim
      | ok b m' =>
        rw [hv, hm] at hset
        obtain ⟨-, hrel⟩ := hset
        have hsome := base_stores.setChildValue env hm
        obtain ⟨okey, hpos⟩ := Option.isSome_iff_exists.1
          ((hrel.listing.placed k).2 ((hrel.covers k).2 hsome))
        have hget : ((fun s => s.pos.get? k) <$> get : EStateM ViewError (Fractional K P S C) _) s' =
            .ok (some okey) s' := congrArg (EStateM.Result.ok · s') hpos
        exact Agree.of_ok ((bind_of_ok hv).trans (bind_of_ok hget)) rfl hrel

theorem update_sim (value : Bulk (Address K) (Value P S C))
    (kwargs : List (Address K × Value P S C)) :
    Sim Rel (update refusesKey env value kwargs) (Ordered.update refusesKey env value kwargs) := by
  refine Sim.bind (rejectEmptyIn_sim value) fun _ => ?_
  refine Sim.bind (rejectEmptyIn_sim (.mapping kwargs)) fun _ => ?_
  refine Sim.bind (items_sim value) fun items => ?_
  exact Sim.bind (Sim.forM items fun a => setItem_sim a.1 a.2) fun _ =>
    Sim.forM kwargs fun a => setItem_sim a.1 a.2

omit [LinearOrder K] [DecidableEq S] in
theorem filling_sim {σ τ : Type} {R : σ → τ → Prop} (value : Filling K P S C) :
    Sim R value.rejectEmpty value.rejectEmpty := by
  cases value with
  | mapping items => exact rejectEmptyIn_sim (.mapping items)
  | ids ids empty => exact Sim.raiseIf _
  | other => exact Sim.pure ()

omit [LinearOrder K] [DecidableEq S] in
theorem fillingItems_sim {σ τ : Type} {R : σ → τ → Prop} (yes : P) (value : Filling K P S C) :
    Sim R (value.items yes) (value.items yes) := by
  cases value with
  | mapping items => exact Sim.pure _
  | ids ids empty => exact Sim.pure _
  | other => exact Sim.throw _

theorem store_sim (yes : P) (value : Filling K P S C) (replace : Bool) :
    Sim Rel (store refusesKey env yes value replace)
      (Ordered.store refusesKey env yes value replace) := by
  refine Sim.bind (filling_sim value) fun _ => ?_
  refine Coupled.bind (refines.ensureCreated env) fun _ => ?_
  refine Coupled.bind (Q := fun _ => Rel) ?_ fun _ => ?_
  · cases replace with
    | true => exact clearStored_sim
    | false => exact (Sim.pure ()).mono (fun _ _ h => h.1) fun _ _ _ h => h
  · exact Sim.bind (fillingItems_sim yes value) fun items =>
      Sim.forM items fun a => setItem_sim a.1 a.2

/-- **Every operation of the view simulates that of the collection** (PROVED). -/
theorem exec_sim (yes : P) (op : FractionalOp K P S C) :
    Sim Rel (exec refusesKey env yes op) (Ordered.exec refusesKey env yes op) := by
  cases op with
  | set address value => exact Sim.map _ (setItem_sim address value)
  | nested address structureId write =>
    exact Sim.bind (Sim.liftResult _) fun k =>
      Sim.bind (refines.nestedWrite env k structureId write) fun _ => Sim.pure Out.unit
  | append address value => exact Sim.map _ (append_sim address value)
  | prepend address value => exact Sim.map _ (prepend_sim address value)
  | insertBefore ref address value => exact Sim.map _ (insertBefore_sim ref address value)
  | insertAfter ref address value => exact Sim.map _ (insertAfter_sim ref address value)
  | moveBefore address ref => exact Sim.map _ (moveBefore_sim address ref)
  | moveAfter address ref => exact Sim.map _ (moveAfter_sim address ref)
  | moveFirst address => exact Sim.map _ (moveFirst_sim address)
  | moveLast address => exact Sim.map _ (moveLast_sim address)
  | del address => exact Sim.map _ (delItem_sim address)
  | pop address default => exact pop_sim address default
  | clear => exact Sim.map _ clear_sim
  | update value kwargs => exact Sim.map _ (update_sim value kwargs)
  | store value replace => exact Sim.map _ (store_sim yes value replace)
  | respace => exact respace_sim
  | get address default => exact orDefault_sim default (Sim.map _ (getItem_sim address))
  | contains address => exact Sim.map _ (contains_sim address)
  | len => exact Sim.map _ len_sim
  | missing => exact Sim.throw _
/-! ## Runs -/

/-- A view and the collection that it shows. -/
structure Shows (s : Fractional K P S C) (m : Ordered K P S C) : Prop where
  created : s.created = m.created
  /-- an order row for every position row, and a position row for every order row -/
  inverse : Inverse s.order s.pos
  /-- an id has its rows exactly if it has data -/
  covers : ∀ k, (s.pos.get? k).isSome ↔ (s.data.get? k).isSome
  data : s.data = m.data
  valid : ∀ okey k, s.order.get? okey = some k → Valid okey
  short : m.peak < CAPACITY →
    ∀ okey k, s.order.get? okey = some k → okey.length ≤ MAX_KEY_LENGTH
  iterates : s.created = true → iter s = .ok m.ids s
  reverses : s.created = true → reversed s = .ok m.ids.reverse s
  /-- nothing is listed in a view never written -/
  unwritten : s.created = false → m.ids = []

omit [LinearOrder K] [DecidableEq S] in
theorem scanOrder_made (reverse : Bool) (hs : s.created = true) :
    scanOrder none reverse none [] true s = .ok (inDirection reverse s.order.rows) s := by
  have hrows : handedOn [] none (scanFrom reverse none none s.order.rows) =
      inDirection reverse s.order.rows := by
    rw [handedOn_nil, scanFrom_none]
    rfl
  refine (bind_of_ok (get_apply s)).trans ((bind_of_ok (a := ()) ?_).trans
    (congrArg (EStateM.Result.ok · s) hrows))
  rw [hs, Bool.not_true, Bool.and_false]
  rfl

omit [DecidableEq S] in
theorem Rel.shows (h : Rel s m) : Shows s m where
  created := h.created
  inverse okey k := by
    refine ⟨fun horder => ?_, fun hpos => ?_⟩
    · have hin : k ∈ s.order.rows.map Prod.snd := List.mem_map.2 ⟨_, Table.mem_rows.2 horder, rfl⟩
      obtain ⟨o, ho⟩ := Option.isSome_iff_exists.1
        ((h.listing.placed k).2 (h.listing.mem_iff.1 hin))
      have hrow := h.listing.sound.points k o ho hin
      have hpair := List.inj_on_of_nodup_map h.listing.sound.once (Table.mem_rows.2 horder)
        (Table.mem_rows.2 hrow) rfl
      exact ho.trans (congrArg (some ·.1) hpair.symm)
    · refine h.listing.sound.points k okey hpos (h.listing.mem_iff.2 ?_)
      rw [← h.listing.placed, hpos]
      rfl
  covers k := by rw [h.listing.placed, h.covers, h.data]
  data := h.data
  valid := h.listing.sound.valid
  short hroom okey k hk := h.listing.short hroom (okey, k) (Table.mem_rows.2 hk)
  iterates hs := by
    rw [← h.listing.lists]
    exact map_of_ok (scanOrder_made false hs)
  reverses hs := by
    rw [← h.listing.lists, ← List.map_reverse]
    exact map_of_ok (scanOrder_made true hs)
  unwritten hs := h.absent (h.created ▸ hs)

theorem run_rel (refusesKey : K → Option Nat) (env : Env P S C X) (yes : P)
    (ops : List (FractionalOp K P S C)) (coins : Coins) :
    (outcomes (ops.map (exec refusesKey env yes)) (absent coins)).1 =
        (outcomes (ops.map (Ordered.exec refusesKey env yes)) Ordered.absent).1 ∧
      Rel (outcomes (ops.map (exec refusesKey env yes)) (absent coins)).2
        (outcomes (ops.map (Ordered.exec refusesKey env yes)) Ordered.absent).2 :=
  Sim.outcomes ops (fun op _ => exec_sim yes op) (rel_absent coins)

/-- **The view is an ordered collection** (PROVED): over every run of the public operations, from a view
never written, each operation returns or raises what the collection's does; order rows, position rows
and data rows belong to the same ids, one each, under valid order keys that are short as long as
`CAPACITY` ids were never there at once, and the keys iterate in the order of the collection. -/
theorem shows_collection (refusesKey : K → Option Nat) (env : Env P S C X) (yes : P)
    (ops : List (FractionalOp K P S C)) (coins : Coins) :
    (outcomes (ops.map (exec refusesKey env yes)) (absent coins)).1 =
        (outcomes (ops.map (Ordered.exec refusesKey env yes)) Ordered.absent).1 ∧
      Shows (outcomes (ops.map (exec refusesKey env yes)) (absent coins)).2
        (outcomes (ops.map (Ordered.exec refusesKey env yes)) Ordered.absent).2 := by
  obtain ⟨hout, hrel⟩ := run_rel refusesKey env yes ops coins
  exact ⟨hout, hrel.shows⟩

/-! ## More ids than short keys -/

omit [DecidableEq S] in
/-- A text up to a length, by what it has at every place. -/
theorem length_le_of_short {l : List OrderKey} (hl : l.Nodup) {n : Nat}
    (hlen : ∀ x ∈ l, x.length ≤ n) (hdigits : ∀ x ∈ l, IsDigits x) : l.length ≤ 63 ^ n := by
  have hinj : Set.InjOn (fun (x : OrderKey) (i : Fin n) => x[i.val]?) l.toFinset := by
    intro x hx y hy hxy
    have hx' := hlen x (List.mem_toFinset.1 (Finset.mem_coe.1 hx))
    have hy' := hlen y (List.mem_toFinset.1 (Finset.mem_coe.1 hy))
    refine List.ext_getElem? fun i => ?_
    by_cases hi : i < n
    · exact congrFun hxy ⟨i, hi⟩
    · rw [List.getElem?_eq_none (hx'.trans (Nat.le_of_not_lt hi)),
        List.getElem?_eq_none (hy'.trans (Nat.le_of_not_lt hi))]
  have hmaps : ∀ x ∈ l.toFinset, (fun (i : Fin n) => x[i.val]?) ∈
      Fintype.piFinset fun _ : Fin n => BASE_62_DIGITS.toFinset.insertNone := by
    intro x hx
    refine Fintype.mem_piFinset.2 fun i => Finset.mem_insertNone.2 fun c hc => ?_
    exact List.mem_toFinset.2 (hdigits x (List.mem_toFinset.1 hx) c (List.mem_of_getElem? hc))
  have hcard := Finset.card_le_card_of_injOn _ hmaps hinj
  rw [List.toFinset_card_of_nodup hl, Fintype.card_piFinset_const, Finset.card_insertNone] at hcard
  exact hcard.trans (Nat.pow_le_pow_left (Nat.succ_le_succ (List.toFinset_card_le _)) n)

omit [DecidableEq S] in
/-- Ids that all have short keys. -/
theorem Rel.length_ids_le (h : Rel s m)
    (hshort : ∀ okey k, s.order.get? okey = some k → okey.length ≤ MAX_KEY_LENGTH) :
    m.ids.length ≤ 63 ^ MAX_KEY_LENGTH := by
  have hrow : ∀ okey ∈ s.order.rows.map Prod.fst, ∃ k, s.order.get? okey = some k := by
    intro okey hokey
    obtain ⟨row, hrow, rfl⟩ := List.mem_map.1 hokey
    exact ⟨row.2, Table.mem_rows.1 hrow⟩
  have hle : (s.order.rows.map Prod.fst).length ≤ 63 ^ MAX_KEY_LENGTH := by
    refine length_le_of_short s.order.nodup_rows (fun okey hokey => ?_) fun okey hokey => ?_
    · obtain ⟨k, hk⟩ := hrow okey hokey
      exact hshort okey k hk
    · obtain ⟨k, hk⟩ := hrow okey hokey
      obtain ⟨⟨i, f, rfl, hi, hf⟩, -⟩ := (h.listing.sound.valid okey k hk).formed
      intro c hc
      exact (List.mem_append.1 hc).elim (hi.digits c) (hf.digits c)
  rwa [List.length_map, h.listing.length_rows] at hle

/-- A site that takes every key and value. -/
def openEnv : Env Unit Unit Unit Unit where
  blocked := none
  refusesValue _ := none
  layout _ _ := ()
  read _ _ := .ok ()

/-- Ids appended one after the other. -/
def appends (n : Nat) : List (FractionalOp Nat Unit Unit Unit) :=
  (List.range n).map fun i => .append (.key i) (.primitive ())

/-- A new id appended to the collection. -/
theorem append_new {m : Ordered Nat Unit Unit Unit} {n : Nat} (hids : n ∉ m.ids)
    (hdata : m.data.get? n = none) :
    Ordered.exec (fun _ => none) openEnv () (.append (.key n) (.primitive ())) m =
      .ok .unit ⟨true, m.ids ++ [n], m.data.put n (.primitive ()),
        max m.peak (m.ids.length + 1)⟩ := by
  have hcreate : (Ordered.children fun _ => none).ensureCreated openEnv m =
      .ok () { m with created := true } := by
    obtain ⟨created, ids, data, peak⟩ := m
    cases created <;> rfl
  have hwrite : (Ordered.children fun _ => none).writeChild openEnv n (.primitive ())
      { m with created := true } =
      .ok () { m with created := true, data := m.data.put n (.primitive ()) } := by
    have hinfo : (Ordered.children fun _ => none).nodeInfo n { m with created := true } =
        .ok none { m with created := true } := congrArg (EStateM.Result.ok · _) hdata
    exact bind_of_ok hinfo
  have hinsert : Ordered.insert (fun _ => none) openEnv n (.primitive ()) .last
      { m with created := true } = _ :=
    ordered_insert_ok rfl (show n ∉ ({ m with created := true } : Ordered _ _ _ _).ids from hids) hwrite
  exact map_of_ok ((bind_of_ok rfl).trans ((bind_of_ok hcreate).trans hinsert))

/-- The collection lists all that was appended. -/
theorem appends_ids (n : Nat) :
    (outcomes ((appends n).map (Ordered.exec (fun _ => none) openEnv ())) Ordered.absent).2.ids =
      List.range n ∧ ∀ k, n ≤ k →
      (outcomes ((appends n).map (Ordered.exec (fun _ => none) openEnv ()))
        Ordered.absent).2.data.get? k = none := by
  induction n with
  | zero => exact ⟨rfl, fun k _ => Table.get?_empty k⟩
  | succ n ih =>
    rw [appends, List.range_succ, List.map_append, List.map_append, List.map_singleton,
      List.map_singleton, outcomes_concat, ← appends]
    generalize (outcomes ((appends n).map (Ordered.exec (fun _ => none) openEnv ()))
      Ordered.absent).2 = m at ih ⊢
    obtain ⟨hids, hdata⟩ := ih
    have hnew : n ∉ m.ids := by
      rw [hids]
      exact List.not_mem_range_self
    rw [append_new hnew (hdata n (Nat.le_refl n))]
    refine ⟨congrArg (· ++ [n]) hids, fun k hk => ?_⟩
    show (m.data.put n (.primitive ())).get? k = none
    rw [Table.get?_put, if_neg (Nat.ne_of_gt hk)]
    exact hdata k (Nat.le_of_succ_le hk)

/-- More ids than there are short keys: one of them has a long key. -/
theorem crowded_long_key : ¬ ∀ okey k,
    (outcomes ((appends (63 ^ MAX_KEY_LENGTH + 1)).map (exec (fun _ => none) openEnv ()))
      (absent fun _ => 0)).2.order.get? okey = some k → okey.length ≤ MAX_KEY_LENGTH := by
  intro hshort
  obtain ⟨-, hrel⟩ := run_rel (fun _ => none) openEnv () (appends (63 ^ MAX_KEY_LENGTH + 1))
    fun _ => 0
  have hle := hrel.length_ids_le hshort
  rw [(appends_ids _).1, List.length_range] at hle
  exact Nat.not_succ_le_self _ hle

end FractionalIndexedDictView

end Virtuals.Views
