/-
  An insertion into a fractional indexed dict, against one into the ordered collection.

  It writes the position, then the value, then the order row. While the value is written the position
  keeps the hook from placing the id (`Writing`); if the write raises, position and value are taken back
  (`Rel.takenBack`).
-/
import Virtuals.Views.FractionalRefines

namespace Virtuals.Views

open Virtuals.Lib

/-! ## What a write leaves -/

/-- A write of a base class that returned has left a child, where the hook and the marker leave the
    children alone. -/
structure ViewBase.Stores {σ K P S C : Type} (V : ViewBase σ K P S C) : Prop where
  put : ∀ s k c, V.child (V.putChild k c s) k = some c
  marked : ∀ s k, V.child (V.markCreated s) k = V.child s k
  hook : ∀ s k s', V.onChildCreated k s = .ok () s' → V.child s' k = V.child s k

namespace ViewBase.Stores

variable {σ K P S C X : Type} {V : ViewBase σ K P S C} {k : K} {s s' : σ}

theorem createChild (h : V.Stores) {c : Child P S C} (hrun : V.createChild k c s = .ok () s') :
    V.child s' k = some c := by
  obtain ⟨_, s₁, hput, hhook⟩ := ok_of_bind hrun
  obtain rfl : V.putChild k c s = s₁ := (EStateM.Result.ok.inj hput).2
  rw [h.hook _ k s' hhook, h.put]

theorem putChildPrimitive (h : V.Stores) (env : Env P S C X) {value : P}
    (hrun : V.putChildPrimitive env k value s = .ok () s') :
    V.child s' k = some (.primitive value) := by
  obtain ⟨info, s₁, -, hrest⟩ := ok_of_bind hrun
  match info with
  | some (.container _ _) => cases hrest
  | some (.primitive _) =>
    obtain ⟨_, s₂, -, hput⟩ := ok_of_bind hrest
    obtain rfl : V.putChild k (.primitive value) s₂ = s' := (EStateM.Result.ok.inj hput).2
    exact h.put s₂ k _
  | none =>
    obtain ⟨_, s₂, -, hcreate⟩ := ok_of_bind hrest
    exact h.createChild hcreate

variable [DecidableEq S]

theorem ensureChildView (h : V.Stores) (env : Env P S C X) {structureId : S} {made : Bool}
    (hrun : V.ensureChildView env k structureId s = .ok made s') :
    (V.child s' k).isSome := by
  obtain ⟨info, s₁, -, hrest⟩ := ok_of_bind hrun
  match info with
  | some (.primitive _) => cases hrest
  | none =>
    obtain ⟨_, s₂, -, hrest⟩ := ok_of_bind hrest
    obtain ⟨_, s₃, hcreate, hret⟩ := ok_of_bind hrest
    obtain rfl : s₃ = s' := (EStateM.Result.ok.inj hret).2
    rw [h.createChild hcreate]
    rfl
  | some (.container found content) =>
    simp only at hrest
    split_ifs at hrest with hs
    · obtain ⟨_, s₂, hput, hret⟩ := ok_of_bind hrest
      obtain rfl : V.putChild k (.container found (env.layout found (some content))) s₁ = s₂ :=
        (EStateM.Result.ok.inj hput).2
      obtain rfl := (EStateM.Result.ok.inj hret).2
      rw [h.put]
      rfl
    · cases hrest

omit [DecidableEq S] in
theorem writeInside (h : V.Stores) {write : C → C × Option ViewError} (hs : (V.child s k).isSome)
    (hrun : V.writeInside k write s = .ok () s') : (V.child s' k).isSome := by
  have hget : ((V.child · k) <$> get : EStateM ViewError σ _) s = .ok (V.child s k) s := rfl
  rw [ViewBase.writeInside, bind_of_ok hget] at hrun
  match hc : V.child s k with
  | none =>
    rw [hc] at hs
    cases hs
  | some (.primitive _) =>
    rw [hc] at hrun
    obtain rfl := (EStateM.Result.ok.inj hrun).2
    exact hs
  | some (.container found content) =>
    rw [hc] at hrun
    obtain ⟨_, s₁, hput, hraise⟩ := ok_of_bind hrun
    obtain rfl : V.putChild k (.container found (write content).1) s = s₁ :=
      (EStateM.Result.ok.inj hput).2
    obtain rfl := raiseIf_ok hraise
    rw [h.put]
    rfl

/-- (PROVED) A value that was written is there. -/
theorem writeChild (h : V.Stores) (env : Env P S C X) {value : Value P S C}
    (hv : value ≠ .empty) (hrun : V.writeChild env k value s = .ok () s') :
    (V.child s' k).isSome := by
  cases value with
  | empty => exact absurd rfl hv
  | primitive value =>
    rw [h.putChildPrimitive env hrun]
    rfl
  | compound structureId store =>
    obtain ⟨made, s₁, hensure, hwrite⟩ := ok_of_bind hrun
    exact h.writeInside (h.ensureChildView env hensure) hwrite

end ViewBase.Stores

namespace FractionalIndexedDictView

open Virtuals.FractionalIndex

variable {K P S C X : Type} [LinearOrder K]
variable {refusesKey : K → Option Nat} {env : Env P S C X}
variable {s s' : Fractional K P S C} {m : Ordered K P S C} {l r : List (OrderKey × K)}
variable {k : K} {okey : OrderKey}

theorem children_stores : (Ordered.children refusesKey : ViewBase (Ordered K P S C) K P S C).Stores where
  put s k c := Table.get?_put_self s.data k c
  marked _ _ := rfl
  hook s k s' h := by
    obtain rfl := (EStateM.Result.ok.inj h).2
    rfl

theorem base_stores : (Ordered.base refusesKey : ViewBase (Ordered K P S C) K P S C).Stores where
  put s k c := Table.get?_put_self s.data k c
  marked _ _ := rfl
  hook s k s' h := by
    obtain rfl := (EStateM.Result.ok.inj h).2
    rfl

/-! ## The write of an inserted value -/

/-- The children of the collection, but for one key. -/
def childAt (refusesKey : K → Option Nat) (k : K) : ViewBase (Ordered K P S C) Unit P S C where
  created := Ordered.created
  markCreated m := { m with created := true }
  refusesKey _ := refusesKey k
  child m _ := m.data.get? k
  putChild _ c m := { m with data := m.data.put k c }
  onChildCreated _ := pure ()

/-- The states while the value is written, with the position of its id already there: only data
    changes, and only that of the id. -/
def Writing (s₀ : Fractional K P S C) (m₀ : Ordered K P S C) (k : K) (okey : OrderKey)
    (s : Fractional K P S C) (m : Ordered K P S C) : Prop :=
  ∃ d, s = { s₀ with pos := s₀.pos.put k okey, data := d } ∧ m = { m₀ with data := d } ∧
    d.erase k = m₀.data.erase k

theorem writing_refines {s₀ : Fractional K P S C} {m₀ : Ordered K P S C}
    (hc : s₀.created = m₀.created) (hmade : s₀.created = true) :
    Refines (base refusesKey : ViewBase (Fractional K P S C) K P S C) (childAt refusesKey k)
      (fun _ => k) (Writing s₀ m₀ k okey) where
  created := by
    rintro s m ⟨d, rfl, rfl, -⟩
    exact hc
  markCreated := by
    rintro s m ⟨d, rfl, rfl, -⟩ hs
    exact absurd (hmade.symm.trans hs) (by decide)
  marked _ := rfl
  childMarked _ _ := rfl
  refusesKey _ := rfl
  child := by
    rintro s m ⟨d, rfl, rfl, -⟩ _
    rfl
  overwrite := by
    rintro s m ⟨d, rfl, rfl, hd⟩ _ c c' -
    exact ⟨d.put k c', rfl, rfl, (Table.erase_put d k c').trans hd⟩
  record := by
    rintro s m ⟨d, rfl, rfl, hd⟩ - _ c -
    -- the id has its position, so the hook leaves it alone
    have hget : ((fun s => s.pos.get? k) <$> get : EStateM ViewError (Fractional K P S C) _)
        { s₀ with pos := s₀.pos.put k okey, data := d.put k c } =
        .ok (some okey) { s₀ with pos := s₀.pos.put k okey, data := d.put k c } :=
      congrArg (EStateM.Result.ok · _) (Table.get?_put_self _ _ _)
    exact Agree.of_ok (bind_of_ok hget) rfl ⟨d.put k c, rfl, rfl, (Table.erase_put d k c).trans hd⟩

variable [DecidableEq S]

theorem childAt_writeChild (value : Value P S C) :
    (childAt refusesKey k : ViewBase (Ordered K P S C) Unit P S C).writeChild env () value =
      (Ordered.children refusesKey).writeChild env k value := by
  cases value <;> rfl

theorem write_agrees {s₀ : Fractional K P S C} (hc : s₀.created = m.created)
    (hmade : s₀.created = true) (hdata : s₀.data = m.data) (value : Value P S C) :
    Agree (fun _ => Writing s₀ m k okey) (Writing s₀ m k okey)
      ((base refusesKey).writeChild env k value { s₀ with pos := s₀.pos.put k okey })
      ((Ordered.children refusesKey).writeChild env k value m) := by
  rw [← childAt_writeChild]
  refine (writing_refines hc hmade).writeChild env () value _ _ ⟨⟨m.data, ?_, rfl, rfl⟩, hmade⟩
  rw [← hdata]

/-! ## Insertions -/

omit [DecidableEq S] in
/-- The view and the collection after an insertion that returned. -/
theorem Rel.inserted (h : Rel s m) {s₁ : Fractional K P S C} (hrows : s.order.rows = l ++ r)
    (ho : Opened s l r okey s₁) (hk : k ∉ m.ids) {d : Table K (Child P S C)}
    (hd : d.erase k = m.data.erase k) (hsome : (d.get? k).isSome) (hs : s.created = true) :
    Rel { s₁ with pos := s₁.pos.put k okey, data := d, order := s₁.order.put okey k }
      { m with
        data := d
        ids := l.map Prod.snd ++ k :: r.map Prod.snd
        peak := max m.peak (m.ids.length + 1) } where
  listing := by
    have hp := ho.place hrows (h.listing.mem_iff.not.2 hk)
    exact (h.listing.grown hp hrows).of_data ⟨rfl, rfl⟩
  created := ho.created.trans h.created
  data := rfl
  covers j := by
    have hids : m.ids = l.map Prod.snd ++ r.map Prod.snd := by
      rw [← h.listing.lists, hrows, List.map_append]
    show j ∈ l.map Prod.snd ++ k :: r.map Prod.snd ↔ (d.get? j).isSome
    rw [List.perm_middle.mem_iff, List.mem_cons, ← hids, h.covers]
    by_cases hj : j = k
    · simp [hj, hsome]
    · have hget := congrArg (Table.get? · j) hd
      simp only [Table.get?_erase, if_neg hj] at hget
      simp [hj, hget]
  absent hm := by
    rw [h.created, show m.created = false from hm] at hs
    cases hs

omit [DecidableEq S] in
/-- A failed insertion takes back what it wrote. -/
theorem Rel.takenBack (h : Rel s m) {s₁ : Fractional K P S C} (hrows : s.order.rows = l ++ r)
    (ho : Opened s l r okey s₁) (hk : k ∉ m.ids) {d : Table K (Child P S C)}
    (hd : d.erase k = m.data.erase k) :
    Rel { s₁ with pos := (s₁.pos.put k okey).erase k, data := d.erase k } m := by
  have hlisting := h.listing.opened hrows ho
  have hpos : (s₁.pos.put k okey).erase k = s₁.pos := by
    refine Table.ext fun j => ?_
    rw [Table.erase_put, Table.get?_erase]
    split_ifs with hj
    · rw [hj, eq_comm, ← Option.not_isSome_iff_eq_none, hlisting.placed]
      exact hk
    · rfl
  have hdata : d.erase k = m.data := by
    rw [hd]
    refine Table.ext fun j => ?_
    rw [Table.get?_erase]
    split_ifs with hj
    · rw [hj, eq_comm, ← Option.not_isSome_iff_eq_none, ← h.covers]
      exact hk
    · rfl
  rw [hpos, hdata]
  exact
    { listing := hlisting.of_data ⟨rfl, rfl⟩
      created := ho.created.trans h.created
      data := rfl
      covers := h.covers
      absent := h.absent }

omit [DecidableEq S] in
theorem deleteChild_made (hs : s.created = true) :
    deleteChild refusesKey k s = .ok () { s with data := s.data.erase k } := by
  have hreq := ViewBase.requireExists_apply (base refusesKey) s
  rw [show (base refusesKey).created s = true from hs, if_pos rfl] at hreq
  exact bind_of_ok hreq

/-! ### The ends of an insertion -/

theorem ordered_insert_ok {value : Value P S C} {spot : Spot K} {m₁ : Ordered K P S C}
    (hrefuse : refusesKey k = none) (hk : k ∉ m.ids)
    (hw : (Ordered.children refusesKey).writeChild env k value m = .ok () m₁) :
    Ordered.insert refusesKey env k value spot m =
      .ok () { m₁ with
        ids := spot.put k m₁.ids
        peak := max m₁.peak (m₁.ids.length + 1) } := by
  rw [Ordered.insert, hrefuse]
  refine (bind_of_ok rfl).trans ((bind_of_ok (get_apply m)).trans ?_)
  rw [if_neg hk]
  exact (bind_of_ok rfl).trans ((bind_of_ok (tryCatch_of_ok hw)).trans rfl)

theorem ordered_insert_error {value : Value P S C} {spot : Spot K} {m₁ : Ordered K P S C}
    {e : ViewError} (hrefuse : refusesKey k = none) (hk : k ∉ m.ids)
    (hw : (Ordered.children refusesKey).writeChild env k value m = .error e m₁) :
    Ordered.insert refusesKey env k value spot m = .error e m := by
  rw [Ordered.insert, hrefuse]
  refine (bind_of_ok rfl).trans ((bind_of_ok (get_apply m)).trans ?_)
  rw [if_neg hk]
  exact (bind_of_ok rfl).trans (bind_of_error ((tryCatch_of_error hw).trans rfl))

theorem ordered_insert_listed {value : Value P S C} {spot : Spot K}
    (hrefuse : refusesKey k = none) (hk : k ∈ m.ids) :
    Ordered.insert refusesKey env k value spot m = .error .valueError m := by
  rw [Ordered.insert, hrefuse]
  refine (bind_of_ok rfl).trans ((bind_of_ok (get_apply m)).trans ?_)
  rw [if_pos hk]
  rfl

section

variable {prev nxt : Option OrderKey} {s₁ s₂ : Fractional K P S C} {value : Value P S C}

theorem insert_start (hrefuse : refusesKey k = none) (hpos : s.pos.get? k = none)
    (hallot : allot prev nxt s = .ok okey s₁) :
    insert refusesKey env k value prev nxt s = (do
      MonadExcept.tryCatch ((base refusesKey).writeChild env k value) fun e => do
        modify fun s => { s with pos := s.pos.erase k }
        suppress (deleteChild refusesKey k)
        throw e
      modify fun s => { s with order := s.order.put okey k } :
      EStateM ViewError (Fractional K P S C) Unit) { s₁ with pos := s₁.pos.put k okey } := by
  rw [insert, bind_of_ok (positionOrEmpty_apply hrefuse), hpos]
  exact (bind_of_ok (a := false) rfl).trans ((bind_of_ok rfl).trans ((bind_of_ok hallot).trans
    (bind_of_ok rfl)))

theorem insert_ok (hrefuse : refusesKey k = none) (hpos : s.pos.get? k = none)
    (hallot : allot prev nxt s = .ok okey s₁)
    (hw : (base refusesKey).writeChild env k value { s₁ with pos := s₁.pos.put k okey } =
      .ok () s₂) :
    insert refusesKey env k value prev nxt s =
      .ok () { s₂ with order := s₂.order.put okey k } := by
  rw [insert_start hrefuse hpos hallot]
  exact (bind_of_ok (tryCatch_of_ok hw)).trans rfl

theorem insert_error {e : ViewError} (hrefuse : refusesKey k = none) (hpos : s.pos.get? k = none)
    (hallot : allot prev nxt s = .ok okey s₁) (hs : s₂.created = true)
    (hw : (base refusesKey).writeChild env k value { s₁ with pos := s₁.pos.put k okey } =
      .error e s₂) :
    insert refusesKey env k value prev nxt s =
      .error e { s₂ with pos := s₂.pos.erase k, data := s₂.data.erase k } := by
  rw [insert_start hrefuse hpos hallot]
  have hdelete : suppress (deleteChild refusesKey k) { s₂ with pos := s₂.pos.erase k } =
      .ok () { s₂ with pos := s₂.pos.erase k, data := s₂.data.erase k } :=
    tryCatch_of_ok (deleteChild_made (s := { s₂ with pos := s₂.pos.erase k }) hs)
  exact bind_of_error ((tryCatch_of_error hw).trans
    ((bind_of_ok rfl).trans ((bind_of_ok hdelete).trans rfl)))

theorem insert_standing {other : OrderKey} (hrefuse : refusesKey k = none)
    (hpos : s.pos.get? k = some other) (horder : (s.order.get? other).isSome) :
    insert refusesKey env k value prev nxt s = .error .valueError s := by
  rw [insert, bind_of_ok (positionOrEmpty_apply hrefuse), hpos]
  refine (bind_of_ok (a := true) ?_).trans rfl
  exact congrArg (EStateM.Result.ok · s) horder

end

/-- (PROVED) An insertion into a gap of the rows, and into the ids: both refuse an id that is there,
    and a failed write leaves both as they were. -/
theorem Rel.insert (h : Rel s m) (hs : s.created = true) (hrows : s.order.rows = l ++ r)
    {value : Value P S C} (hv : value ≠ .empty) {spot : Spot K}
    (hspot : spot.put k m.ids = l.map Prod.snd ++ k :: r.map Prod.snd) :
    Agree (fun _ => Rel) Rel
      (FractionalIndexedDictView.insert refusesKey env k value (lastKey l) (firstKey r) s)
      (Ordered.insert refusesKey env k value spot m) := by
  cases hrefuse : refusesKey k with
  | some kind =>
    refine Agree.of_error (bind_of_error (positionOrEmpty_refused hrefuse)) (bind_of_error ?_) h
    rw [hrefuse]
    rfl
  | none =>
    by_cases hk : k ∈ m.ids
    · obtain ⟨o, ho⟩ := Option.isSome_iff_exists.1 ((h.listing.placed k).2 hk)
      have horder := h.listing.sound.points k o ho (h.listing.mem_iff.2 hk)
      exact Agree.of_error (insert_standing hrefuse ho (by rw [horder]; rfl))
        (ordered_insert_listed hrefuse hk) h
    · obtain ⟨okey, s₁, hallot, ho⟩ := allot_spec h.listing.sound hrows
      have hagree : Agree (fun _ => Writing s₁ m k okey) (Writing s₁ m k okey)
          ((base refusesKey).writeChild env k value { s₁ with pos := s₁.pos.put k okey })
          ((Ordered.children refusesKey).writeChild env k value m) :=
        write_agrees (ho.created.trans h.created) (ho.created.trans hs) (ho.data.trans h.data) value
      cases hvw : (base refusesKey).writeChild env k value
          { s₁ with pos := s₁.pos.put k okey } with
      | ok a s₂ =>
        cases hmw : (Ordered.children refusesKey).writeChild env k value m with
        | error e m₂ =>
          rw [hvw, hmw] at hagree
          exact hagree.elim
        | ok b m₂ =>
          rw [hvw, hmw] at hagree
          obtain ⟨-, d, rfl, rfl, hd⟩ := hagree
          have hsome := children_stores.writeChild env hv hmw
          refine Agree.of_ok (insert_ok hrefuse (h.pos_none hk) hallot hvw)
            (ordered_insert_ok hrefuse hk hmw) ?_
          rw [hspot]
          exact h.inserted hrows ho hk hd hsome hs
      | error e s₂ =>
        cases hmw : (Ordered.children refusesKey).writeChild env k value m with
        | ok b m₂ =>
          rw [hvw, hmw] at hagree
          exact hagree.elim
        | error e' m₂ =>
          rw [hvw, hmw] at hagree
          obtain ⟨rfl, d, rfl, rfl, hd⟩ := hagree
          have hview := insert_error hrefuse (h.pos_none hk) hallot
            (show ({ s₁ with pos := s₁.pos.put k okey, data := d } : Fractional K P S C).created =
              true from ho.created.trans hs) hvw
          exact Agree.of_error hview (ordered_insert_error hrefuse hk hmw)
            (h.takenBack hrows ho hk hd)

/-! ## The operations that insert -/

omit [DecidableEq S] in
/-- The key and the value are checked before anything is read. -/
theorem offered_sim {I : Fractional K P S C → Ordered K P S C → Prop} (hI : ∀ s m, I s m → Rel s m)
    (address : Address K) (value : Value P S C) :
    Coupled I (rejectEmpty address value) (Ordered.offered address value)
      (fun _ s m => I s m ∧ value ≠ .empty) Rel := by
  cases address with
  | other => exact Coupled.throw _ hI
  | key k =>
    cases value with
    | empty => exact Coupled.throw _ hI
    | primitive value => exact fun _ _ h => ⟨rfl, h, nofun⟩
    | compound structureId store => exact fun _ _ h => ⟨rfl, h, nofun⟩

/-- An insertion, by what the creation of the view makes of the states and what follows it. -/
theorem insert_sim {I J : Fractional K P S C → Ordered K P S C → Prop} {address : Address K}
    {value : Value P S C} {spot : Spot K} {next : K → EStateM ViewError (Fractional K P S C) Unit}
    (hI : ∀ s m, I s m → Rel s m)
    (hcreate : Coupled I ((base refusesKey).ensureCreated env)
      ((Ordered.children refusesKey).ensureCreated env) (fun _ => J) Rel)
    (hnext : ∀ k, value ≠ .empty →
      Coupled J (next k) (Ordered.insert refusesKey env k value spot) (fun _ => Rel) Rel) :
    Coupled I (do
      let k ← rejectEmpty address value
      (base refusesKey).ensureCreated env
      next k) (do
      let k ← Ordered.offered address value
      (Ordered.children refusesKey).ensureCreated env
      Ordered.insert refusesKey env k value spot) (fun _ => Rel) Rel :=
  Coupled.bind (offered_sim hI address value) fun k s m h =>
    Coupled.bind hcreate (fun _ => hnext k h.2) s m h.1

theorem append_sim (address : Address K) (value : Value P S C) :
    Sim Rel (append refusesKey env address value)
      (Ordered.insertAtEnd refusesKey env .last address value) := by
  refine insert_sim (fun _ _ h => h) (refines.ensureCreated env) fun k hv s m h => ?_
  rw [bind_of_ok (edge_last s)]
  refine h.1.insert h.2 (List.append_nil _).symm hv ?_
  rw [h.1.listing.lists]
  rfl

theorem prepend_sim (address : Address K) (value : Value P S C) :
    Sim Rel (prepend refusesKey env address value)
      (Ordered.insertAtEnd refusesKey env .first address value) := by
  refine insert_sim (fun _ _ h => h) (refines.ensureCreated env) fun k hv s m h => ?_
  rw [bind_of_ok (edge_first s)]
  refine h.1.insert h.2 (List.nil_append _).symm hv ?_
  rw [h.1.listing.lists]
  rfl

/-- An id of the collection is looked up first, and names the gap. -/
theorem insertNextTo_sim (spot : K → Spot K)
    {next : OrderKey → K → EStateM ViewError (Fractional K P S C) Unit} {value : Value P S C}
    (hnext : ∀ {s m j refOkey} k, Rel s m → s.created = true → s.pos.get? j = some refOkey →
      value ≠ .empty → Agree (fun _ => Rel) Rel (next refOkey k s)
        (Ordered.insert refusesKey env k value (spot j) m)) (ref address : Address K) :
    Sim Rel (do
      let refOkey ← requirePosition refusesKey ref
      let k ← rejectEmpty address value
      (base refusesKey).ensureCreated env
      next refOkey k) (Ordered.insertNextTo refusesKey env spot ref address value) := by
  intro s m h
  rcases position_cases refusesKey h ref with ⟨e, hv, hm⟩ | ⟨j, refOkey, rfl, hv, hm, hj, hin⟩
  · exact Agree.of_error (bind_of_error hv) (bind_of_error hm) h
  · rw [bind_of_ok hv, Ordered.insertNextTo, bind_of_ok hm]
    -- the view exists, so its creation leaves the states as they are
    have hmade := h.created_of_mem hin
    refine insert_sim (I := fun s' m' => s' = s ∧ m' = m) (J := fun s' m' => s' = s ∧ m' = m)
      ?_ ?_ ?_ s m ⟨rfl, rfl⟩
    · rintro s' m' ⟨rfl, rfl⟩
      exact h
    · rintro s' m' ⟨rfl, rfl⟩
      exact Agree.of_ok (ViewBase.ensureCreated_made _ env (h.created.trans hmade))
        (ViewBase.ensureCreated_made _ env hmade) ⟨rfl, rfl⟩
    · rintro k hvalue s' m' ⟨rfl, rfl⟩
      exact hnext k h (h.created.trans hmade) hj hvalue

theorem insertBefore_sim (ref address : Address K) (value : Value P S C) :
    Sim Rel (insertBefore refusesKey env ref address value)
      (Ordered.insertNextTo refusesKey env .before ref address value) := by
  refine insertNextTo_sim .before (fun {s m j refOkey} k h hs hj hv => ?_) ref address
  obtain ⟨l, r, hrows, hids⟩ := h.split hj
  rw [bind_of_ok (neighbour_before hrows)]
  refine h.insert hs hrows hv ?_
  have hnodup := h.nodup
  rw [hids] at hnodup ⊢
  exact Spot.put_before k (List.nodup_append.1 hnodup |>.2.2 j · j List.mem_cons_self rfl)

theorem insertAfter_sim (ref address : Address K) (value : Value P S C) :
    Sim Rel (insertAfter refusesKey env ref address value)
      (Ordered.insertNextTo refusesKey env .after ref address value) := by
  refine insertNextTo_sim .after (fun {s m j refOkey} k h hs hj hv => ?_) ref address
  obtain ⟨l, r, hrows, hids⟩ := h.split hj
  rw [bind_of_ok (neighbour_after hrows)]
  have hsplit : s.order.rows = (l ++ [(refOkey, j)]) ++ r := by
    rw [hrows, List.append_assoc, List.singleton_append]
  have hspot : (Spot.after j).put k m.ids =
      (l ++ [(refOkey, j)]).map Prod.snd ++ k :: r.map Prod.snd := by
    have hnodup := h.nodup
    rw [hids] at hnodup ⊢
    rw [Spot.put_after k (List.nodup_append.1 hnodup |>.2.2 j · j List.mem_cons_self rfl)]
    simp
  have hlast : lastKey (l ++ [(refOkey, j)]) = some refOkey := lastKey_concat _ _
  exact hlast ▸ h.insert hs hsplit hv hspot

end FractionalIndexedDictView

end Virtuals.Views
