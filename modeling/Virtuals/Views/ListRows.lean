/-
  The rows of a list under operations that fail.

  `Cond` says of an operation, in a state, that it does not end halfway: the value that it writes is
  refused before a row is written, or stored whole; a child view writes where the list has a row, or
  not at all. The write of one value at an index without a row
  ends in one of three ways, and the two loops that move rows are each stated once, by an invariant on
  the rows that are still to move (`Rising`, `Falling`).
-/
import Virtuals.Views.ListView

namespace Virtuals.Views.ListView

open Virtuals.Lib

variable {P S C X : Type} {env : Env P S C X}
variable {s t : Rows P S C} {l : List (Child P S C)}

/-! ## What a write leaves -/

/-- What the write of a value at an index without a row leaves there, and what it raises. -/
def fresh (env : Env P S C X) : Value P S C → Option (Child P S C) × Option ViewError
  | .empty => (none, some .valueError)
  | .primitive value =>
    match env.refusesValue value with
    | some kind => (none, some (.other kind))
    | none => (some (.primitive value), none)
  | .compound structureId store =>
    (some (.container structureId (store (env.layout structureId none) false).1),
      (store (env.layout structureId none) false).2)

/-- A value that is stored whole. -/
def Taken (env : Env P S C X) (value : Value P S C) : Prop := (fresh env value).2 = none

/-- A value that is refused before a row is written: EMPTY, or a primitive that no codec takes. -/
def Refused (env : Env P S C X) (value : Value P S C) : Prop := (fresh env value).1 = none

/-- The view cannot be created. -/
def Blocked (env : Env P S C X) (s : Rows P S C) : Prop := s.created = false ∧ env.blocked.isSome

/-- A value is EMPTY, or holds it. -/
def isEmpty : Value P S C → Bool
  | .empty => true
  | _ => false

/-- None of the values is rejected partway, up to the first that is refused. -/
def WholeUpTo (env : Env P S C X) : List (Value P S C) → Prop
  | [] => True
  | value :: rest => Refused env value ∨ Taken env value ∧ WholeUpTo env rest

/-- An operation that does not end halfway. -/
def Cond (env : Env P S C X) (s : Rows P S C) : ListOp P S C X → Prop
  | .nested index _ _ => index < s.len ∨ Blocked env s
  | .append value => Blocked env s ∨ Refused env value ∨ Taken env value
  | .insert address value => isEmpty value ∨ Blocked env s ∨ Taken env value ∨
      Refused env value ∧ ByteArrayView.insertAt s.len address = s.len
  | .extend (.values values) => values.any isEmpty ∨ Blocked env s ∨ WholeUpTo env values
  | .store (.values values) _ => values.any isEmpty ∨ Blocked env s ∨
      (∀ value ∈ values, Taken env value) ∨ ∃ value ∈ values.head?, Refused env value
  | _ => True

/-- The rows are the indexes below the length. -/
def Exact (s : Rows P S C) : Prop := ∀ i, (s.children.get? i).isSome ↔ i < s.len

/-- There is a row at the length, or past it. -/
def Behind (s : Rows P S C) : Prop := ∃ i, s.len ≤ i ∧ (s.children.get? i).isSome

/-- The rows are a list. -/
def Whole (s : Rows P S C) : Prop := ∃ l, s.Lists l

theorem Whole.exact (h : Whole s) : Exact s := by
  obtain ⟨l, hl⟩ := h
  intro i
  rw [hl.rows, hl.len]
  simp

theorem Behind.not_exact (h : Behind s) : ¬ Exact s := by
  intro he
  obtain ⟨i, hi, hrow⟩ := h
  exact Nat.not_lt.2 hi ((he i).1 hrow)

/-! ## The view created -/

/-- The marker is written. -/
def made (s : Rows P S C) : Rows P S C := { s with created := true }

theorem lists_made (h : s.Lists l) : (made s).Lists l := ⟨h.len, h.rows⟩

theorem ensureCreated_blocked (h : Blocked env s) :
    ∃ e, base.ensureCreated env s = .error e s := by
  obtain ⟨e, he⟩ := Option.isSome_iff_exists.1 h.2
  refine ⟨e, ?_⟩
  rw [ViewBase.ensureCreated_missing base env h.1, he]

theorem ensureCreated_open (h : ¬ Blocked env s) :
    base.ensureCreated env s = .ok () (made s) := by
  cases hs : s.created with
  | true =>
    rw [ViewBase.ensureCreated_made base env hs, made, ← hs]
  | false =>
    have hb : env.blocked = none := by
      rw [← Option.not_isSome_iff_eq_none]
      exact fun hb => h ⟨hs, hb⟩
    rw [ViewBase.ensureCreated_missing base env hs, hb]
    rfl

theorem not_blocked_made : ¬ Blocked env (made s) := fun h => nomatch h.1

theorem not_blocked_of_created (hs : s.created = true) : ¬ Blocked env s := by
  intro hb
  rw [hb.1] at hs
  cases hs

theorem made_of_created (hs : s.created = true) : made s = s := by
  obtain ⟨created, children, length⟩ := s
  cases hs
  rfl

/-! ## A value at a fresh index -/

/-- The rows after the write of a value at an index without a row. -/
def wrote (env : Env P S C X) (i : Nat) (value : Value P S C) (s : Rows P S C) : Rows P S C :=
  match (fresh env value).1 with
  | some c => { s with children := s.children.put i c }
  | none => s

theorem nodeInfo_apply (i : Nat) (s : Rows P S C) :
    base.nodeInfo i s = .ok (s.children.get? i) s := rfl

variable [DecidableEq S]

/-- A child view whose child is missing creates it. -/
theorem ensureChildView_fresh (hb : ¬ Blocked env s) {i : Nat} (hi : s.children.get? i = none)
    (structureId : S) :
    base.ensureChildView env i structureId s = .ok true { made s with
      children := s.children.put i (.container structureId (env.layout structureId none)) } := by
  rw [ViewBase.ensureChildView, bind_of_ok (nodeInfo_apply i s), hi]
  exact bind_of_ok (ensureCreated_open hb)

theorem writeChild_fresh {i : Nat} (hs : s.created = true) (hi : s.children.get? i = none)
    {value : Value P S C} (hv : isEmpty value = false) :
    base.writeChild env i value s = raiseIf (fresh env value).2 (wrote env i value s) := by
  cases value with
  | empty => cases hv
  | primitive value =>
    rw [ViewBase.writeChild, ViewBase.putChildPrimitive, bind_of_ok (nodeInfo_apply i s), hi, wrote,
      fresh]
    cases env.refusesValue value <;> rfl
  | compound structureId store =>
    have hopen : base.ensureChildView env i structureId s = .ok true { s with
        children := s.children.put i (.container structureId (env.layout structureId none)) } := by
      have h : base.ensureChildView env i structureId s = _ :=
        ensureChildView_fresh (not_blocked_of_created hs) hi structureId
      rwa [made_of_created hs] at h
    have hchild : ∀ c : Child P S C, ((base.child · i) <$> get : EStateM ViewError (Rows P S C) _)
        { s with children := s.children.put i c } =
        .ok (some c) { s with children := s.children.put i c } := fun c =>
      congrArg (EStateM.Result.ok · _) (Table.get?_put_self _ _ _)
    rw [ViewBase.writeChild, ViewBase.populateChildContainer, bind_of_ok hopen,
      ViewBase.writeInside, bind_of_ok (hchild _)]
    refine (bind_of_ok rfl).trans (congrArg (raiseIf _) ?_)
    exact congrArg (fun c => { s with children := c }) (Table.put_put s.children i
      (Child.container structureId (env.layout structureId none)) _)

/-- A value set at an index without a row, in a view that is there or can be. -/
theorem setChildValue_fresh (hb : ¬ Blocked env s) {i : Nat} (hi : s.children.get? i = none)
    (value : Value P S C) :
    ∃ t, (t = s ∨ t = made s) ∧
      base.setChildValue env (.key i) value s = raiseIf (fresh env value).2 (wrote env i value t) := by
  cases hv : isEmpty value with
  | true =>
    cases value with
    | empty => exact ⟨s, Or.inl rfl, rfl⟩
    | primitive value => cases hv
    | compound structureId store => cases hv
  | false =>
    refine ⟨made s, Or.inr rfl, ?_⟩
    have hcheck : raiseIf (match value with | .empty => some ViewError.valueError | _ => none) s =
        .ok () s := by
      cases value with
      | empty => cases hv
      | primitive value => rfl
      | compound structureId store => rfl
    refine (bind_of_ok (a := i) rfl).trans ((bind_of_ok hcheck).trans
      ((bind_of_ok (ensureCreated_open hb)).trans ?_))
    exact writeChild_fresh (s := made s) rfl hi hv

/-- Nothing is set in a view that cannot be created. -/
theorem setChildValue_blocked (hb : Blocked env s) (i : Nat) (value : Value P S C) :
    ∃ e, base.setChildValue env (.key i) value s = .error e s := by
  obtain ⟨e, he⟩ := ensureCreated_blocked hb
  have hcreate : ∀ m : Unit → EStateM ViewError (Rows P S C) Unit,
      (base.ensureCreated env >>= m) s = .error e s := fun m => bind_of_error he
  cases value with
  | empty => exact ⟨.valueError, rfl⟩
  | primitive value => exact ⟨e, hcreate _⟩
  | compound structureId store => exact ⟨e, hcreate _⟩

omit [DecidableEq S] in
/-- The three ends of a write at an index without a row. -/
theorem fresh_cases (env : Env P S C X) (value : Value P S C) :
    (∃ c, fresh env value = (some c, none)) ∨ (∃ e, fresh env value = (none, some e)) ∨
      ∃ c e, fresh env value = (some c, some e) := by
  cases value with
  | empty => exact Or.inr (Or.inl ⟨_, rfl⟩)
  | primitive value =>
    rw [fresh]
    cases env.refusesValue value with
    | none => exact Or.inl ⟨_, rfl⟩
    | some kind => exact Or.inr (Or.inl ⟨_, rfl⟩)
  | compound structureId store =>
    rw [fresh]
    cases (store (env.layout structureId none) false).2 with
    | none => exact Or.inl ⟨_, rfl⟩
    | some e => exact Or.inr (Or.inr ⟨_, e, rfl⟩)

omit [DecidableEq S] in
/-- A value is not both refused and stored. -/
theorem not_refused_of_taken {value : Value P S C} (h : Taken env value) : ¬ Refused env value := by
  intro hr
  rw [Taken] at h
  rw [Refused] at hr
  rcases fresh_cases env value with ⟨c, hf⟩ | ⟨e, hf⟩ | ⟨c, e, hf⟩
  · exact nomatch (congrArg Prod.fst hf).symm.trans hr
  · exact nomatch (congrArg Prod.snd hf).symm.trans h
  · exact nomatch (congrArg Prod.fst hf).symm.trans hr

/-- How a value is set at an index without a row, by its three ends. -/
theorem setChildValue_cases (hb : ¬ Blocked env s) {i : Nat} (hi : s.children.get? i = none)
    (value : Value P S C) :
    ∃ t, (t = s ∨ t = made s) ∧
      ((Taken env value ∧ ∃ c, base.setChildValue env (.key i) value s =
          .ok () { t with children := t.children.put i c }) ∨
        (¬ Taken env value ∧ Refused env value ∧
          ∃ e, base.setChildValue env (.key i) value s = .error e t) ∨
        (¬ Taken env value ∧ ¬ Refused env value ∧ ∃ c e, base.setChildValue env (.key i) value s =
          .error e { t with children := t.children.put i c })) := by
  obtain ⟨t, ht, hset⟩ := setChildValue_fresh hb hi value
  refine ⟨t, ht, ?_⟩
  rw [hset, Taken, Refused, wrote]
  rcases fresh_cases env value with ⟨c, hf⟩ | ⟨e, hf⟩ | ⟨c, e, hf⟩
  · rw [hf]
    exact Or.inl ⟨rfl, c, rfl⟩
  · rw [hf]
    exact Or.inr (Or.inl ⟨nofun, rfl, e, rfl⟩)
  · rw [hf]
    exact Or.inr (Or.inr ⟨nofun, nofun, c, e, rfl⟩)

/-! ## One value appended -/

omit [DecidableEq S] in
theorem lists_of_eq_or (h : s.Lists l) (ht : t = s ∨ t = made s) : t.Lists l := by
  rcases ht with rfl | rfl
  · exact h
  · exact lists_made h

omit [DecidableEq S] in
theorem not_blocked_of_eq_or (hb : ¬ Blocked env s) (ht : t = s ∨ t = made s) : ¬ Blocked env t := by
  rcases ht with rfl | rfl
  · exact hb
  · exact not_blocked_made

omit [DecidableEq S] in
/-- A row put behind the others, and counted. -/
theorem lists_concat (h : t.Lists l) (c : Child P S C) :
    FlatList.Lists { t with children := t.children.put l.length c, length := some (l.length + 1) }
      (l ++ [c]) := h.append c

omit [DecidableEq S] in
/-- A row put behind the others, and not counted. -/
theorem behind_concat (h : t.Lists l) (c : Child P S C) :
    Behind { t with children := t.children.put l.length c } := by
  refine ⟨l.length, Nat.le_of_eq h.len, ?_⟩
  show ((t.children.put l.length c).get? l.length).isSome
  rw [Table.get?_put_self]
  rfl

omit [DecidableEq S] in
theorem len_apply (h : s.Lists l) :
    (Counted.len <$> get : EStateM ViewError (Rows P S C) Nat) s = .ok l.length s :=
  congrArg (EStateM.Result.ok · s) h.len

omit [DecidableEq S] in
theorem free_at_length (h : s.Lists l) : s.children.get? l.length = none := by
  rw [h.rows]
  exact List.getElem?_eq_none (Nat.le_refl _)

/-- How an append ends, on rows that are a list, in a view that is there or can be. -/
theorem append_cases (h : s.Lists l) (hb : ¬ Blocked env s) (value : Value P S C) :
    (Taken env value ∧ ∃ c t, append env value s = .ok () t ∧ t.Lists (l ++ [c]) ∧
      ¬ Blocked env t) ∨
    (¬ Taken env value ∧ Refused env value ∧ ∃ e t, append env value s = .error e t ∧ t.Lists l) ∨
    (¬ Taken env value ∧ ¬ Refused env value ∧
      ∃ e t, append env value s = .error e t ∧ Behind t) := by
  obtain ⟨t, ht, hends⟩ := setChildValue_cases hb (free_at_length h) value
  have hlists := lists_of_eq_or h ht
  rcases hends with ⟨htaken, c, hset⟩ | ⟨hnot, href, e, hset⟩ | ⟨hnot, href, c, e, hset⟩
  · refine Or.inl ⟨htaken, c, _, (bind_of_ok (len_apply h)).trans ((bind_of_ok hset).trans rfl),
      lists_concat hlists c, ?_⟩
    exact (not_blocked_of_eq_or hb ht : ¬ Blocked env t)
  · exact Or.inr (Or.inl ⟨hnot, href, e, t,
      (bind_of_ok (len_apply h)).trans (bind_of_error hset), hlists⟩)
  · exact Or.inr (Or.inr ⟨hnot, href, e, _,
      (bind_of_ok (len_apply h)).trans (bind_of_error hset), behind_concat hlists c⟩)

theorem append_blocked (hb : Blocked env s) (value : Value P S C) :
    ∃ e, append env value s = .error e s := by
  obtain ⟨e, he⟩ := setChildValue_blocked hb s.len value
  exact ⟨e, (bind_of_ok rfl).trans (bind_of_error he)⟩

/-- How a loop of appends ends. -/
theorem forM_append (h : s.Lists l) (hb : ¬ Blocked env s) (values : List (Value P S C)) :
    (WholeUpTo env values ∧ Whole (endState (values.forM (append env) s))) ∨
      (¬ WholeUpTo env values ∧ Behind (endState (values.forM (append env) s))) := by
  induction values generalizing s l with
  | nil => exact Or.inl ⟨trivial, l, h⟩
  | cons value rest ih =>
    have hcons : ∀ s, (value :: rest).forM (append env) s =
        (append env value >>= fun _ => rest.forM (append env)) s := fun _ => rfl
    rw [hcons]
    rcases append_cases h hb value with
      ⟨htaken, c, t, hrun, hlists, hb'⟩ | ⟨hnot, href, e, t, hrun, hlists⟩ | ⟨hnot, href, e, t, hrun, hbehind⟩
    · rw [bind_of_ok hrun]
      refine (ih hlists hb').imp (fun hend => ⟨Or.inr ⟨htaken, hend.1⟩, hend.2⟩) fun hend => ?_
      exact ⟨fun hwhole => hend.1 (hwhole.resolve_left (not_refused_of_taken htaken)).2, hend.2⟩
    · rw [bind_of_error hrun]
      exact Or.inl ⟨Or.inl href, l, hlists⟩
    · rw [bind_of_error hrun]
      refine Or.inr ⟨fun hwhole => ?_, hbehind⟩
      exact hwhole.elim href fun htaken => hnot htaken.1

/-! ## Rows moved -/

omit [DecidableEq S] in
theorem child_apply (i : Nat) (s : Rows P S C) :
    ((fun s => s.children.get? i) <$> get : EStateM ViewError (Rows P S C) _) s =
      .ok (s.children.get? i) s := rfl

omit [DecidableEq S] in
theorem putChildPrimitive_made {i : Nat} (hs : s.created = true)
    (hi : ∀ structureId content, s.children.get? i ≠ some (.container structureId content))
    (value : P) :
    putChildPrimitive i value s = .ok () { s with children := s.children.put i (.primitive value) } := by
  have hparent : raiseIf (if s.created then none else some ViewError.containerNotFound) s =
      .ok () s := by
    rw [hs]
    rfl
  refine (bind_of_ok (get_apply s)).trans ((bind_of_ok hparent).trans ?_)
  rcases hc : s.children.get? i with _ | _ | ⟨structureId, content⟩
  · rfl
  · rfl
  · exact absurd hc (hi structureId content)

omit [DecidableEq S] in
theorem moveChildSubtree_made (merge : C → C → C) {src dst : Nat} {c : Child P S C} (hsrc : s.children.get? src = some c)
    (hdst : ∀ structureId content, s.children.get? dst ≠ some (.container structureId content)) :
    moveChildSubtree merge src dst s =
      .ok () { s with children := (s.children.put dst c).erase src } := by
  have hover : Child.onto merge c (s.children.get? dst) = c := by
    match hc : s.children.get? dst with
    | none => cases c <;> rfl
    | some (.primitive _) => cases c <;> rfl
    | some (.container structureId content) => exact absurd hc (hdst structureId content)
  show EStateM.Result.ok () (match s.children.get? src with
    | some c => { s with
        children := (s.children.put dst (Child.onto merge c (s.children.get? dst))).erase src }
    | none => s) = _
  rw [hsrc]
  show EStateM.Result.ok () { s with
    children := (s.children.put dst (Child.onto merge c (s.children.get? dst))).erase src } = _
  rw [hover]

/-- The rows while `insert` moves them: those past the slot last left are one further up, and the slot
is empty or has a primitive that will be overwritten. -/
structure Rising (l : List (Child P S C)) (address n : Nat) (t : Table Nat (Child P S C)) : Prop where
  below : ∀ j, j < address + n → t.get? j = l[j]?
  above : ∀ j, address + n < j → t.get? j = l[j - 1]?
  slot : t.get? (address + n) = none ∨ 0 < n ∧ ∃ value, t.get? (address + n) = some (.primitive value)

omit [DecidableEq S] in
theorem Rising.slot_free {address n : Nat} {t : Table Nat (Child P S C)} (h : Rising l address n t)
    (structureId : S) (content : C) :
    t.get? (address + n) ≠ some (.container structureId content) := by
  rcases h.slot with hnone | ⟨-, value, hprim⟩
  · rw [hnone]
    exact nofun
  · rw [hprim]
    exact nofun

omit [DecidableEq S] in
/-- One row moved up. -/
theorem Rising.step {address n : Nat} {t t' : Table Nat (Child P S C)}
    (h : Rising l address (n + 1) t)
    (hmoved : t'.get? (address + n + 1) = l[address + n]?)
    (hslot : t'.get? (address + n) = none ∨
      0 < n ∧ ∃ value, t'.get? (address + n) = some (.primitive value))
    (hother : ∀ j, j ≠ address + n → j ≠ address + n + 1 → t'.get? j = t.get? j) :
    Rising l address n t' where
  below j hj := by
    rw [hother j (by omega) (by omega)]
    exact h.below j (by omega)
  above j hj := by
    by_cases hj' : j = address + n + 1
    · rw [hj', hmoved, Nat.add_sub_cancel]
    · rw [hother j (by omega) hj']
      exact h.above j (by omega)
  slot := hslot

omit [DecidableEq S] in
/-- (PROVED) The loop of `insert` moves the rows from the address on, and leaves its slot empty. -/
theorem shiftUp_made (merge : C → C → C) (address n : Nat) (hs : s.created = true) (hn : address + n ≤ l.length)
    (h : Rising l address n s.children) :
    ∃ t, shiftUp merge address n s = .ok () { s with children := t } ∧ Rising l address 0 t := by
  induction n generalizing s with
  | zero => exact ⟨s.children, rfl, h⟩
  | succ n ih =>
    have hget : s.children.get? (address + n) = some l[address + n] := by
      rw [h.below _ (by omega)]
      exact List.getElem?_eq_getElem _
    have hat : l[address + n]? = some l[address + n] := List.getElem?_eq_getElem _
    rw [shiftUp, bind_of_ok (child_apply (address + n) s), hget]
    have hat : l[address + n]? = some l[address + n] := List.getElem?_eq_getElem _
    cases hc : l[address + n] with
    | container structureId content =>
      have hmove := moveChildSubtree_made merge (hget.trans (congrArg some hc)) h.slot_free
      refine (ih (s := { s with children := (s.children.put (address + n + 1) _).erase (address + n) })
        hs (by omega) (h.step ?_ (Or.inl ?_) fun j hj hj' => ?_)).imp fun t ht =>
          ⟨(bind_of_ok hmove).trans ht.1, ht.2⟩
      · rw [Table.get?_erase, if_neg (by omega), Table.get?_put_self, hat, hc]
      · rw [Table.get?_erase, if_pos rfl]
      · rw [Table.get?_erase, if_neg hj, Table.get?_put, if_neg hj']
    | primitive value =>
      have hput := putChildPrimitive_made hs h.slot_free value
      cases n with
      | zero =>
        -- the slot of the new value
        have hdelete := Counted.deleteChild_made (address + 0)
          (s := { s with children := s.children.put (address + 0 + 1) (.primitive value) }) hs
        refine (ih (s := { s with
            children := (s.children.put (address + 0 + 1) (.primitive value)).erase (address + 0) })
          hs (by omega) (h.step ?_ (Or.inl ?_) fun j hj hj' => ?_)).imp fun t ht =>
            ⟨(bind_of_ok hput).trans ((bind_of_ok hdelete).trans ht.1), ht.2⟩
        · rw [Table.get?_erase, if_neg (by omega), Table.get?_put_self, hat, hc]
        · rw [Table.get?_erase, if_pos rfl]
        · rw [Table.get?_erase, if_neg hj, Table.get?_put, if_neg hj']
      | succ n =>
        refine (ih (s := { s with
            children := s.children.put (address + (n + 1) + 1) (.primitive value) })
          hs (by omega) (h.step ?_ (Or.inr ⟨Nat.succ_pos n, value, ?_⟩) fun j hj hj' => ?_)).imp
            fun t ht => ⟨(bind_of_ok hput).trans ((bind_of_ok rfl).trans ht.1), ht.2⟩
        · rw [Table.get?_put_self, hat, hc]
        · rw [Table.get?_put, if_neg (by omega), hget, hc]
        · rw [Table.get?_put, if_neg hj']

omit [DecidableEq S] in
/-- The rows of a list before any of them is moved. -/
theorem rising_start (h : ∀ i, s.children.get? i = l[i]?) {address : Nat}
    (haddress : address ≤ l.length) : Rising l address (l.length - address) s.children where
  below j _ := h j
  above j hj := by
    rw [h, List.getElem?_eq_none (by omega), List.getElem?_eq_none (by omega)]
  slot := Or.inl (by rw [h, List.getElem?_eq_none (by omega)])

/-- The rows while `__delitem__` moves them: a hole, below it the rows from one further up. -/
structure Falling (l : List (Child P S C)) (i hole : Nat) (t : Table Nat (Child P S C)) : Prop where
  below : ∀ j, j < i → t.get? j = l[j]?
  moved : ∀ j, i ≤ j → j < hole → t.get? j = l[j + 1]?
  slot : t.get? hole = none
  above : ∀ j, hole < j → t.get? j = l[j]?

omit [DecidableEq S] in
/-- One row moved down. -/
theorem Falling.step {i hole : Nat} {t : Table Nat (Child P S C)} (h : Falling l i hole t)
    (hi : i ≤ hole) {c : Child P S C} (hc : l[hole + 1]? = some c) :
    Falling l i (hole + 1) ((t.put hole c).erase (hole + 1)) where
  below j hj := by
    rw [Table.get?_erase, if_neg (by omega), Table.get?_put, if_neg (by omega)]
    exact h.below j hj
  moved j hj hlt := by
    rw [Table.get?_erase, if_neg (by omega), Table.get?_put]
    split_ifs with hjh
    · rw [hjh, hc]
    · exact h.moved j hj (by omega)
  slot := by rw [Table.get?_erase, if_pos rfl]
  above j hj := by
    rw [Table.get?_erase, if_neg (by omega), Table.get?_put, if_neg (by omega)]
    exact h.above j (by omega)

omit [DecidableEq S] in
/-- (PROVED) The loop of `__delitem__` moves the rows above the hole down by one. -/
theorem shiftDown_made (merge : C → C → C) (i hole n : Nat) (hs : s.created = true) (hi : i ≤ hole)
    (hn : hole + n + 1 = l.length) (h : Falling l i hole s.children) :
    ∃ t, shiftDown merge hole n s = .ok () { s with children := t } ∧
      Falling l i (hole + n) t := by
  induction n generalizing s hole with
  | zero => exact ⟨s.children, rfl, h⟩
  | succ n ih =>
    have hat : l[hole + 1]? = some l[hole + 1] := List.getElem?_eq_getElem _
    have hget : s.children.get? (hole + 1) = some l[hole + 1] := (h.above _ (by omega)).trans hat
    have hfree : ∀ structureId content,
        s.children.get? hole ≠ some (.container structureId content) := by
      rw [h.slot]
      exact nofun
    have hnext : hole + 1 + n = hole + (n + 1) := by omega
    have hrest := ih (hole + 1)
      (s := { s with children := (s.children.put hole l[hole + 1]).erase (hole + 1) }) hs (by omega)
      (by omega) (h.step hi hat)
    rw [hnext] at hrest
    rw [shiftDown, bind_of_ok (child_apply (hole + 1) s), hget]
    refine hrest.imp fun t ht => ⟨?_, ht.2⟩
    cases hc : l[hole + 1] with
    | container structureId content =>
      have hmove := moveChildSubtree_made merge (hget.trans (congrArg some hc)) hfree
      rw [hc] at ht
      exact (bind_of_ok hmove).trans ht.1
    | primitive value =>
      have hput := putChildPrimitive_made hs hfree value
      have hdelete := Counted.deleteChild_made (hole + 1)
        (s := { s with children := s.children.put hole (.primitive value) }) hs
      rw [hc] at ht
      exact (bind_of_ok hput).trans ((bind_of_ok hdelete).trans ht.1)

end Virtuals.Views.ListView
