/-
  What creating a view and its ancestors writes.

  Creation goes up the parents first and down again, and every class records the new child in its own
  way: a count in the metadata, an index in inner containers. None of it touches the stored length of
  the view created or of anything below it (`kept_len_ensureCreated`), so an index that was read before
  is read alike after it; and a view that stands is not created again (`ensureCreated_of_stands`).
-/
import Virtuals.Loc.ViewTree

namespace Virtuals.Loc

open Lib KeyCodec Container Views

variable {V : Type} {α : Type} {env : Env V}

/-! ## Rows left as they are -/

/-- The computation leaves a row as it is. -/
def Kept (x : Site) (m : EStateM ViewError (Store V) α) : Prop :=
  ∀ r, Keeps (fun s : Store V => s.get? x = r) m

/-- The operation leaves a row as it is. -/
def OpKept (x : Site) (m : Op V α) : Prop := ∀ r, Keeps (fun s : Store V => s.get? x = r) m

theorem Kept.eq {x : Site} {m : EStateM ViewError (Store V) α} (h : Kept x m) {s s' : Store V} {a : α}
    (hm : m s = .ok a s') : s'.get? x = s.get? x := by
  have hend := h (s.get? x) s rfl
  rw [hm] at hend
  exact hend

theorem endState_onStore (m : Op V α) (s : Store V) : endState (onStore m s) = endState (m s) := by
  rw [onStore]
  cases m s <;> rfl

theorem OpKept.onStore {x : Site} {m : Op V α} (h : OpKept x m) : Kept x (onStore m) := by
  intro r s hs
  rw [endState_onStore]
  exact h r s hs

theorem opKept_putRow {x site : Site} (row : Row V) (h : x ≠ site) : OpKept x (putRow site row) := by
  intro r s hs
  show (s.put site row).get? x = r
  rw [Table.get?_put, if_neg h]
  exact hs

theorem opKept_deleteRow {x site : Site} (h : x ≠ site) : OpKept x (deleteRow site : Op V Unit) := by
  intro r s hs
  show (s.erase site).get? x = r
  rw [Table.get?_erase, if_neg h]
  exact hs

theorem opKept_getNodeInfo (x site : Site) : OpKept x (getNodeInfo site : Op V _) := fun _ _ hs => hs

theorem opKept_validateIsContainer (x site : Site) : OpKept x (validateIsContainer site : Op V Unit) :=
  fun r => Keeps.bind (opKept_getNodeInfo x site r) fun _ => Keeps.raiseIf _

theorem opKept_createFound {x site : Site} (marker : Marker) (info : Option (Row V)) (h : x ≠ site) :
    OpKept x (createFound site marker info) := by
  intro r
  cases info with
  | none =>
    exact Keeps.bind (Keeps.onlyIf _ (opKept_validateIsContainer x _ r)) fun _ =>
      opKept_putRow _ h r
  | some row =>
    cases row with
    | marker m => exact Keeps.raiseIf _
    | primitive v => exact Keeps.throw _

theorem createContainer_eq (site : Site) (marker : Marker) :
    (createContainer site marker true : Op V Unit) = getNodeInfo site >>= createFound site marker :=
  rfl

theorem opKept_createContainer {x site : Site} (marker : Marker) (validateParent : Bool)
    (h : x ≠ site) : OpKept x (createContainer site marker validateParent : Op V Unit) := by
  intro r
  refine Keeps.bind (opKept_getNodeInfo x site r) fun info => ?_
  cases info with
  | none =>
    exact Keeps.bind (Keeps.onlyIf _ (opKept_validateIsContainer x _ r)) fun _ =>
      opKept_putRow _ h r
  | some row =>
    cases row with
    | marker m => exact Keeps.raiseIf _
    | primitive v => exact Keeps.throw _

theorem opKept_putChildPrimitive {x parent : Site} {key : KeySegment} (value : V)
    (validate validateParent : Bool) (h : x ≠ parent ++ [key]) :
    OpKept x (putChildPrimitive parent key (some value) validate validateParent) := by
  intro r
  refine Keeps.bind (Keeps.raiseIf _) fun _ => ?_
  refine Keeps.bind (Keeps.onlyIf _ (opKept_validateIsContainer x _ r)) fun _ => ?_
  refine Keeps.bind (opKept_getNodeInfo x _ r) fun _ => ?_
  exact Keeps.bind (Keeps.raiseIf _) fun _ => opKept_putRow _ h r

theorem opKept_putMetadata {x site : Site} {key : KeySegment} (value : V)
    (h : x ≠ metaSite site ++ [key]) : OpKept x (putMetadata site key (some value)) :=
  fun r => Keeps.bind (Keeps.raiseIf _) fun _ => opKept_putRow _ h r

theorem opKept_ensureInternalLayout {x site : Site} (t : ViewType) (h : ∀ k, x ≠ site ++ [k]) :
    OpKept x (ensureInternalLayout t site : Op V Unit) :=
  fun r => Keeps.forM _ fun c _ => opKept_createContainer c.2 false (h c.1) r

/-! ## Two trees -/

theorem dataAt_inj {p q : Site} : dataAt p = dataAt q ↔ p = q := by simp [dataAt]

theorem dataAt_append (p q : Site) : dataAt p ++ q = dataAt (p ++ q) := rfl

theorem metaSite_dataAt (p : Site) : metaSite (dataAt p) = metaAt p := rfl

theorem meta_ne_data (p q r : Site) : metaAt p ++ q ≠ dataAt r := by
  intro h
  exact roots_ne (List.cons.inj h).1.symm

theorem metaAt_append_inj {p q : Site} {k : KeySegment} :
    metaAt p ++ [k] = metaAt q ++ [k] ↔ p = q := by simp [metaAt]

theorem ne_of_length_lt {p q : Site} (h : p.length < q.length) : q ≠ p := by
  rintro rfl
  exact Nat.lt_irrefl _ h

/-! ## What is recorded of a new child -/

theorem opKept_appendKey {x site : Site} (key : KeySegment) (hsite : x ≠ site)
    (hrow : ∀ k, x ≠ site ++ [k]) (hlen : x ≠ metaSite site ++ [LEN]) :
    OpKept x (appendKey env site key) := by
  intro r
  refine Keeps.bind (opKept_createContainer _ _ hsite r) fun _ => ?_
  refine Keeps.bind (Keeps.map _ fun _ hs => hs) fun n => ?_
  exact Keeps.bind (opKept_putChildPrimitive _ _ _ (hrow _) r) fun _ =>
    opKept_putMetadata _ hlen r

theorem opKept_appendLogKey {x site : Site} (key : KeySegment)
    (hrow : ∀ k j, k ≠ DATA → x ≠ site ++ [k] ++ [j]) : OpKept x (appendLogKey env site key) := by
  intro r
  refine Keeps.bind (Keeps.map _ fun _ hs => hs) fun logKey => ?_
  exact Keeps.bind (opKept_putChildPrimitive _ _ _ (hrow _ _ (by decide)) r) fun _ =>
    opKept_putChildPrimitive _ _ _ (hrow _ _ (by decide)) r

theorem opKept_indexWrite {x site : Site} (w : IndexWrite)
    (hrow : ∀ k j, k ≠ DATA → x ≠ site ++ [k] ++ [j]) : OpKept x (w.exec env site) := by
  have hne : (if w.pos then POS else ORDER) ≠ DATA := by cases w.pos <;> decide
  rw [IndexWrite.exec]
  cases w.value with
  | some v => exact opKept_putChildPrimitive _ _ _ (hrow _ _ hne)
  | none => exact opKept_deleteRow (hrow _ _ hne)

theorem kept_appendId {x site : Site} (key : KeySegment)
    (hrow : ∀ k j, k ≠ DATA → x ≠ site ++ [k] ++ [j]) : Kept x (appendId env site key) := by
  intro r
  refine Keeps.bind ((opKept_getNodeInfo x _).onStore r) fun info => ?_
  refine Keeps.onlyIf _ (Keeps.bind (Keeps.map _ fun _ hs => hs) fun placed => ?_)
  refine Keeps.bind (OpKept.onStore (fun r => ?_) r) fun _ => Keeps.raiseIf _
  exact Keeps.forM _ fun w _ => opKept_indexWrite w hrow r

/-- A new child is recorded in the count of its view, or in the inner containers that hold no
    children. -/
theorem kept_onChildCreated {x p : Site} (t : ViewType) (key : KeySegment)
    (hlen : x ≠ metaAt p ++ [LEN])
    (hinner : t.inner.isSome → x ≠ metaAt (p ++ [KEYS]) ++ [LEN] ∧
      ∀ k, k ≠ DATA → ∀ rest, x ≠ dataAt (p ++ k :: rest)) :
    Kept x (onChildCreated env t (dataAt p) key) := by
  have hrow : t.inner.isSome → ∀ k j, k ≠ DATA → x ≠ dataAt p ++ [k] ++ [j] := by
    intro ht k j hk
    have hx := (hinner ht).2 k hk [j]
    rwa [List.append_assoc, List.singleton_append, dataAt_append]
  have hcount : Kept x (onStore (incrementLength env (dataAt p))) :=
    OpKept.onStore fun r => Keeps.bind (Keeps.map _ fun _ hs => hs) fun _ =>
      opKept_putMetadata _ hlen r
  cases t with
  | set => exact hcount
  | frozenSet => exact hcount
  | kh57 f => exact hcount
  | indexedDict f =>
    have hx := hinner rfl
    exact (opKept_appendKey key (hx.2 KEYS (by decide) []) (hrow rfl KEYS · (by decide)) hx.1).onStore
  | logIndexedDict f => exact (opKept_appendLogKey key (hrow rfl)).onStore
  | fractionalIndexedDict f => exact kept_appendId key (hrow rfl)
  | _ => exact fun _ => Keeps.pure ()

/-! ## Creation -/

theorem kept_ensureChildView {x : Site} {make : EStateM ViewError (Store V) Unit} {v : View}
    {t : ViewType} {inner : Option KeySegment} {segment : KeySegment} (hmake : Kept x make)
    (hsite : x ≠ (View.child v t inner segment).site)
    (hlayout : ∀ k, x ≠ (View.child v t inner segment).site ++ [k])
    (hhook : Kept x (onChildCreated env v.type v.site segment)) :
    Kept x (ensureChildView env make v t inner segment) := by
  intro r
  refine Keeps.bind ((opKept_getNodeInfo x _).onStore r) fun info => ?_
  refine Keeps.bind (Keeps.onlyIf _ (hmake r)) fun _ => ?_
  refine Keeps.bind ((opKept_createFound _ info hsite).onStore r) fun _ => ?_
  refine Keeps.bind ((opKept_ensureInternalLayout t hlayout).onStore r) fun _ => ?_
  exact Keeps.onlyIf _ (hhook r)

theorem path_lt_child (v : View) (t : ViewType) (inner : Option KeySegment) (segment : KeySegment) :
    v.path.length < (View.child v t inner segment).path.length := by
  simp only [View.path, List.length_append, List.length_singleton]
  omega

/-- Creating a view leaves the stored length of everything below it. -/
theorem kept_len_below (v : View) {q : Site} (h : v.path.length < q.length) :
    Kept (metaAt q ++ [LEN]) (ensureCreated env v) := by
  have hdata : ∀ r : Site, metaAt q ++ [LEN] ≠ dataAt r := fun r => meta_ne_data q [LEN] r
  induction v with
  | root t path =>
    intro r
    refine Keeps.bind ((opKept_createContainer _ _ (hdata path)).onStore r) fun _ => ?_
    exact (opKept_ensureInternalLayout t fun k => hdata (path ++ [k])).onStore r
  | child parent t inner segment ih =>
    have hlt : parent.path.length < q.length := Nat.lt_trans (path_lt_child _ _ _ _) h
    have hkeys : (parent.path ++ [KEYS]).length < q.length := by
      have hchild := path_lt_child parent t inner segment
      rw [List.length_append, List.length_singleton]
      omega
    refine kept_ensureChildView (ih hlt) (hdata _) (fun k => hdata _) ?_
    refine kept_onChildCreated _ _ ?_ fun _ => ⟨?_, fun k _ rest => hdata _⟩
    · rw [Ne, metaAt_append_inj]
      exact ne_of_length_lt hlt
    · rw [Ne, metaAt_append_inj]
      exact ne_of_length_lt hkeys

theorem length_child (v : View) (t : ViewType) (segment : KeySegment) :
    (View.child v t v.type.inner segment).path.length =
      v.path.length + (if v.type.inner.isSome then 2 else 1) := by
  simp only [View.path, List.length_append, List.length_singleton]
  cases v.type.inner <;> rfl

/-- A view that lies among the children of its parent is created without a change of a stored length
    of its own or below it. -/
theorem kept_len_child (v : View) (t : ViewType) (segment : KeySegment) {q : Site}
    (h : (View.child v t v.type.inner segment).path <+: q) :
    Kept (metaAt q ++ [LEN])
      (ensureChildView env (ensureCreated env v) v t v.type.inner segment) := by
  have hdata : ∀ r : Site, metaAt q ++ [LEN] ≠ dataAt r := fun r => meta_ne_data q [LEN] r
  have hle := h.length_le
  rw [length_child] at hle
  have hlt : v.path.length < q.length := by split_ifs at hle <;> omega
  refine kept_ensureChildView (kept_len_below v hlt) (hdata _) (fun k => hdata _) ?_
  refine kept_onChildCreated _ _ ?_ fun ht => ⟨?_, fun k _ rest => hdata _⟩
  · rw [Ne, metaAt_append_inj]
    exact ne_of_length_lt hlt
  · rw [Ne, metaAt_append_inj]
    rw [if_pos ht] at hle
    refine ne_of_length_lt ?_
    rw [List.length_append, List.length_singleton]
    omega

/-- Creating a view leaves its own stored length. -/
theorem kept_len_ensureCreated {v : View} (hv : v.Placed) {q : Site} (h : v.path <+: q) :
    Kept (metaAt q ++ [LEN]) (ensureCreated env v) := by
  cases v with
  | root t path =>
    have hdata : ∀ r : Site, metaAt q ++ [LEN] ≠ dataAt r := fun r => meta_ne_data q [LEN] r
    intro r
    refine Keeps.bind ((opKept_createContainer _ _ (hdata path)).onStore r) fun _ => ?_
    exact (opKept_ensureInternalLayout t fun k => hdata (path ++ [k])).onStore r
  | child parent t inner segment =>
    cases hv
    exact kept_len_child parent t segment h

/-! ## Views that stand -/

/-- A container of the view's class is at its site. -/
def Stands (s : Store V) (v : View) : Prop :=
  ∃ m, s.get? v.site = some (.marker m) ∧ compatible m v.type.marker = true

theorem Stands.of_eq {s s' : Store V} {v : View} (h : Stands s v)
    (hrow : s'.get? v.site = s.get? v.site) : Stands s' v := by
  obtain ⟨m, hm, hc⟩ := h
  exact ⟨m, hrow.trans hm, hc⟩

theorem ok_of_onStore {m : Op V α} {s s' : Store V} {a : α} (h : onStore m s = .ok a s') :
    m s = .ok a s' := by
  rw [onStore] at h
  cases hm : m s with
  | ok b t =>
    rw [hm] at h
    cases h
    rfl
  | error e t =>
    rw [hm] at h
    cases h

theorem onStore_of_ok {m : Op V α} {s s' : Store V} {a : α} (h : m s = .ok a s') :
    onStore m s = .ok a s' := by
  rw [onStore, h]

theorem createFound_marker {s s' : Store V} {site : Site} {marker : Marker} {info : Option (Row V)}
    (hself : compatible marker marker = true) (hinfo : info.isSome → s.get? site = info)
    (h : createFound site marker info s = .ok () s') :
    ∃ m, s'.get? site = some (.marker m) ∧ compatible m marker = true := by
  cases info with
  | none =>
    obtain ⟨_, t, -, hput⟩ := ok_of_bind h
    cases hput
    exact ⟨marker, Table.get?_put_self t site _, hself⟩
  | some row =>
    cases row with
    | marker m =>
      have hm : s.get? site = some (.marker m) := hinfo rfl
      rw [createFound] at h
      by_cases hc : compatible m marker = true
      · rw [if_pos hc] at h
        cases h
        exact ⟨m, hm, hc⟩
      · rw [if_neg hc] at h
        cases h
    | primitive v => cases h

theorem site_append_ne {v : View} (k : KeySegment) : v.site ≠ v.site ++ [k] := by
  intro h
  have hlen := congrArg List.length h
  rw [List.length_append] at hlen
  exact Nat.ne_of_lt (Nat.lt_succ_self _) hlen

/-- What is recorded of a child leaves the child's own row. -/
theorem kept_child_hook (v : View) (t : ViewType) (segment : KeySegment) :
    Kept (View.child v t v.type.inner segment).site (onChildCreated env v.type v.site segment) := by
  refine kept_onChildCreated _ _ (meta_ne_data _ _ _).symm fun ht =>
    ⟨(meta_ne_data _ _ _).symm, fun k hk rest => ?_⟩
  have hinner : v.type.inner = some DATA := by
    revert ht
    cases v.type <;> simp [ViewType.inner]
  rw [View.site, Ne, dataAt_inj, View.path, hinner, List.append_assoc]
  intro h
  exact hk (List.cons.inj (List.append_cancel_left h)).1.symm

/-- A view that lies among the children of its parent stands once it was created. -/
theorem stands_child {make : EStateM ViewError (Store V) Unit} {v : View} {t : ViewType}
    {segment : KeySegment} {s s' : Store V}
    (h : ensureChildView env make v t v.type.inner segment s = .ok () s') :
    Stands s' (.child v t v.type.inner segment) := by
  obtain ⟨info, s₁, hread, h⟩ := ok_of_bind h
  have hinfo : s₁.get? (View.child v t v.type.inner segment).site = info := by
    cases ok_of_onStore hread
    rfl
  obtain ⟨_, s₂, hmake, h⟩ := ok_of_bind h
  obtain ⟨_, s₃, hcreate, h⟩ := ok_of_bind h
  obtain ⟨_, s₄, hlayout, hhook⟩ := ok_of_bind h
  have hfound : info.isSome → s₂.get? (View.child v t v.type.inner segment).site = info := by
    intro hsome
    obtain ⟨row, rfl⟩ := Option.isSome_iff_exists.1 hsome
    cases hmake
    exact hinfo
  have hstands : Stands s₃ (.child v t v.type.inner segment) :=
    createFound_marker t.compatible_marker hfound (ok_of_onStore hcreate)
  have hinner : Stands s₄ (.child v t v.type.inner segment) :=
    hstands.of_eq ((opKept_ensureInternalLayout t fun k => site_append_ne k).onStore.eq hlayout)
  exact hinner.of_eq (Kept.eq (fun r => Keeps.onlyIf _ (kept_child_hook v t segment r)) hhook)

theorem stands_ensureCreated {v : View} (hv : v.Placed) {s s' : Store V}
    (h : ensureCreated env v s = .ok () s') : Stands s' v := by
  cases v with
  | root t path =>
    obtain ⟨_, s₁, hcreate, hlayout⟩ := ok_of_bind h
    have hcreated := ok_of_onStore hcreate
    rw [createContainer_eq] at hcreated
    have hstands : Stands s₁ (.root t path) :=
      createFound_marker t.compatible_marker (fun _ => rfl) hcreated
    exact hstands.of_eq
      ((opKept_ensureInternalLayout t fun k => site_append_ne (v := .root t path) k).onStore.eq
        hlayout)
  | child parent t inner segment =>
    cases hv
    exact stands_child h

/-- A view that stands is not created again: only its inner containers are. -/
theorem ensureCreated_of_stands {v : View} {s : Store V} (h : Stands s v) :
    ensureCreated env v s = onStore (ensureInternalLayout v.type v.site) s := by
  obtain ⟨m, hm, hc⟩ := h
  have hfound : createFound v.site v.type.marker (some (.marker m)) s = .ok () s := by
    rw [createFound, if_pos hc]
    rfl
  have hread : getNodeInfo v.site s = .ok (some (.marker m)) s := by rw [getNodeInfo_apply, hm]
  cases v with
  | root t path =>
    have hcreate : createContainer (dataAt path) t.marker true s = .ok () s := by
      rw [createContainer_eq]
      exact (bind_of_ok hread).trans hfound
    exact bind_of_ok (onStore_of_ok hcreate)
  | child parent t inner segment =>
    have hskip : onlyIf (some (Row.marker m) : Option (Row V)).isNone (ensureCreated env parent) s =
        .ok () s := rfl
    rw [ensureCreated, ensureChildView]
    refine (bind_of_ok (onStore_of_ok hread)).trans ?_
    refine (bind_of_ok hskip).trans ?_
    refine (bind_of_ok (onStore_of_ok hfound)).trans ?_
    exact congrFun bind_pure_unit s

theorem ensureChildView_congr {make make' : EStateM ViewError (Store V) Unit} {s : Store V} {v : View}
    {t : ViewType} {inner : Option KeySegment} {segment : KeySegment} (h : make s = make' s) :
    ensureChildView env make v t inner segment s = ensureChildView env make' v t inner segment s := by
  have hread : onStore (getNodeInfo (View.child v t inner segment).site) s =
      .ok (s.get? (View.child v t inner segment).site) s := rfl
  rw [ensureChildView, ensureChildView, bind_of_ok hread, bind_of_ok hread]
  have hmake : ∀ c, onlyIf c make s = onlyIf c make' s := by
    intro c
    cases c with
    | true => exact h
    | false => rfl
  simp only [Bind.bind, EStateM.bind, hmake]

/-- A child of a view that stands is created without a change of the rows above it. -/
theorem above_ensureChildView {v : View} {t : ViewType} {segment : KeySegment} {s s' : Store V}
    (hv : Stands s v)
    (h : ensureChildView env (ensureCreated env v) v t v.type.inner segment s = .ok () s') {q : Site}
    (hq : q.length ≤ v.path.length) : s'.get? (dataAt q) = s.get? (dataAt q) := by
  rw [ensureChildView_congr (ensureCreated_of_stands hv)] at h
  have hchild := path_lt_child v t v.type.inner segment
  have hne : ∀ p : Site, q.length < p.length → dataAt q ≠ dataAt p := by
    intro p hp heq
    exact ne_of_length_lt hp (dataAt_inj.1 heq).symm
  have hlonger : ∀ (p : Site) (k : KeySegment) (rest : Site), q.length ≤ p.length →
      q.length < (p ++ k :: rest).length := by
    intro p k rest hp
    rw [List.length_append, List.length_cons]
    omega
  refine Kept.eq (kept_ensureChildView ?_ ?_ ?_ ?_) h
  · exact (opKept_ensureInternalLayout _ fun k => hne _ (hlonger _ k [] hq)).onStore
  · exact hne _ (by omega)
  · exact fun k => hne _ (hlonger _ k [] (by omega))
  · refine kept_onChildCreated _ _ (meta_ne_data _ _ _).symm fun _ => ⟨(meta_ne_data _ _ _).symm, ?_⟩
    exact fun k _ rest => hne _ (hlonger _ k rest hq)

end Virtuals.Loc
