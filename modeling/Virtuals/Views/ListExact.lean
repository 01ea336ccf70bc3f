/-
  The rows of a list after every operation of a run.

  Each operation starts from rows that are a list. `set`, deletes and clears end in such rows whatever
  is raised (`Keeps Whole`); `append`, `insert`, `extend`, `store` and a write through a child view end
  in such rows, or with a row at the length or past it that is not counted. Which of the two, `Cond` says (`step_cases`), and `exact_iff` says it
  of runs.
-/
import Virtuals.Views.ListRows

namespace Virtuals.Views.ListView

open Virtuals.Lib

variable {P S C X : Type} {merge : C → C → C} {env : Env P S C X}
variable {s : Rows P S C} {l : List (Child P S C)}

/-! ## One row written -/

/-- A list with a row at an index. -/
def Has (i : Nat) (s : Rows P S C) : Prop := ∃ l, s.Lists l ∧ i < l.length

theorem preserves_has (i : Nat) : (base (P := P) (S := S) (C := C)).Preserves i (Has i) where
  marked _ h := h.imp fun _ hl => ⟨lists_made hl.1, hl.2⟩
  put := by
    intro _ s c h
    obtain ⟨l, hl, hi⟩ := h
    refine ⟨l.set i c, ⟨?_, fun j => ?_⟩, by rwa [List.length_set]⟩
    · rw [List.length_set]
      exact hl.len
    · show (s.children.put i c).get? j = _
      by_cases hji : j = i
      · rw [hji, Table.get?_put_self, List.getElem?_set_self hi]
      · rw [Table.get?_put, if_neg hji, List.getElem?_set_ne (Ne.symm hji)]
        exact hl.rows j
  hook _ := Keeps.pure ()

theorem normalizeAddress_lt {address : Int} {i : Nat}
    (h : FlatList.normalizeAddress s address = .ok i) : i < s.len := by
  simp only [FlatList.normalizeAddress] at h
  generalize (if address < 0 then (s.len : Int) + address else address) = a at h
  split_ifs at h with ha
  obtain rfl := Except.ok.inj h
  omega

/-- What is done at an index of the list. -/
theorem at_index {α : Type} {f : Nat → EStateM ViewError (Rows P S C) α} {address : Int}
    (hf : ∀ i l, s.Lists l → i < l.length → Whole (endState (f i s))) (h : Whole s) :
    Whole (endState ((do
      let s ← get
      let i ← liftResult (FlatList.normalizeAddress s address)
      f i) s)) := by
  obtain ⟨l, hl⟩ := h
  rw [bind_of_ok (get_apply s)]
  cases hi : FlatList.normalizeAddress s address with
  | error e => exact ⟨l, hl⟩
  | ok i => exact hf i l hl (hl.len ▸ normalizeAddress_lt hi)

section Writes

variable [DecidableEq S]

theorem setItem_keeps (address : Int) (value : Value P S C) :
    Keeps Whole (setItem env address value) := fun s h =>
  at_index (s := s) (fun i l hl hi =>
    ((preserves_has i).setChildValue env value s ⟨l, hl, hi⟩).imp fun _ h => h.1) h

end Writes

/-! ## A row deleted -/

theorem falling_start (h : ∀ i, s.children.get? i = l[i]?) (i : Nat) :
    Falling l i i (s.children.erase i) where
  below j hj := by
    rw [Table.get?_erase, if_neg (by omega)]
    exact h j
  moved j hj hlt := absurd hlt (by omega)
  slot := by rw [Table.get?_erase, if_pos rfl]
  above j hj := by
    rw [Table.get?_erase, if_neg (by omega)]
    exact h j

/-- The rows once the hole is past them. -/
theorem Falling.rows {i : Nat} {t : Table Nat (Child P S C)} (h : Falling l i (l.length - 1) t)
    (j : Nat) : t.get? j = (l.eraseIdx i)[j]? := by
  rw [List.getElem?_eraseIdx]
  split_ifs with hj
  · exact h.below j hj
  · rcases Nat.lt_trichotomy j (l.length - 1) with hlt | heq | hgt
    · exact h.moved j (by omega) hlt
    · rw [heq, h.slot, List.getElem?_eq_none (by omega)]
    · rw [h.above j hgt, List.getElem?_eq_none (by omega), List.getElem?_eq_none (by omega)]

theorem delItem_keeps (address : Int) : Keeps Whole (delItem merge env address) := fun s h => by
  refine at_index (s := s) (fun i l hl hi => ?_) h
  by_cases hb : Blocked env s
  · obtain ⟨e, he⟩ := ensureCreated_blocked hb
    rw [bind_of_error he]
    exact ⟨l, hl⟩
  · have hdelete := Counted.deleteChild_made i (s := made s) rfl
    obtain ⟨t, hshift, hfalling⟩ := shiftDown_made merge
      (s := ⟨true, s.children.erase i, s.length⟩) i i (l.length - (i + 1)) rfl
      (Nat.le_refl i) (by omega) (falling_start hl.rows i)
    rw [show i + (l.length - (i + 1)) = l.length - 1 by omega] at hfalling
    rw [bind_of_ok (ensureCreated_open hb), bind_of_ok (len_apply (lists_made hl)),
      bind_of_ok hdelete]
    refine (congrArg (Whole ∘ endState) (bind_of_ok hshift)).mpr ?_
    refine ⟨l.eraseIdx i, ?_, hfalling.rows⟩
    rw [List.length_eraseIdx_of_lt hi]
    rfl

theorem getItem_keeps (address : Int) : Keeps Whole (getItem env address : EStateM ViewError
    (Rows P S C) (P ⊕ X)) :=
  Keeps.get_bind fun _ _ => (Keeps.liftResult _).bind fun _ => Keeps.liftResult _

theorem openChild_keeps (address : Int) :
    Keeps Whole (openChild address : EStateM ViewError (Rows P S C) Nat) :=
  Keeps.get_bind fun _ _ => Keeps.liftResult _

theorem pop_keeps (address : Int) : Keeps Whole (pop merge env address) := by
  refine (Keeps.map _ (Keeps.get_bind fun s _ => Keeps.pure s)).bind fun length => ?_
  refine (Keeps.raiseIf _).bind fun _ => (getItem_keeps address).bind fun value => ?_
  exact (delItem_keeps address).bind fun _ => Keeps.pure value

theorem remove_keeps (equal : P ⊕ X → Bool) (eager : Bool) :
    Keeps Whole (remove merge env equal eager) := by
  refine Keeps.get_bind fun s _ => (Keeps.raiseIf _).bind fun _ => (Keeps.raiseIf _).bind fun _ => ?_
  exact (Keeps.liftResult _).bind fun i => delItem_keeps i

/-! ## All rows deleted -/

theorem clear_made (h : s.created = true) :
    clear env s = .ok () { s with children := ∅, length := some 0 } := by
  rw [clear, bind_of_ok (Counted.created_eq h), ← Table.eraseAll_scan s.children]
  exact bind_of_ok (ViewBase.ensureCreated_made base env h)

theorem clear_keeps : Keeps Whole (clear env : EStateM ViewError (Rows P S C) Unit) := by
  intro s h
  cases hs : s.created with
  | true =>
    rw [clear_made hs]
    exact ⟨[], FlatList.lists_nil _ _ rfl⟩
  | false =>
    rw [clear, bind_of_ok (Counted.created_eq hs)]
    exact h

/-! ## A value inserted -/

/-- How an operation may end: in a list, or with a row that is not counted. -/
def Ends (p : Prop) (s : Rows P S C) : Prop := (p ∧ Whole s) ∨ (¬ p ∧ Behind s)

theorem Ends.whole {p : Prop} (hp : p) (h : Whole s) : Ends p s := Or.inl ⟨hp, h⟩

theorem Ends.behind {p : Prop} (hp : ¬ p) (h : Behind s) : Ends p s := Or.inr ⟨hp, h⟩

theorem Ends.of_iff {p q : Prop} (h : Ends p s) (hpq : p ↔ q) : Ends q s :=
  h.imp (And.imp_left hpq.1) (And.imp_left (mt hpq.2))

/-- The two ends exclude each other. -/
theorem Ends.iff {p : Prop} (h : Ends p s) : Exact s ↔ p := by
  rcases h with ⟨hp, hw⟩ | ⟨hp, hb⟩
  · exact iff_of_true hw.exact hp
  · exact iff_of_false hb.not_exact hp

/-- The rows with the last of them one further up, and a value in the slot left. -/
theorem Rising.insertIdx {address : Nat} {t : Table Nat (Child P S C)} (h : Rising l address 0 t)
    (ha : address ≤ l.length) (c : Child P S C) (j : Nat) :
    (t.put address c).get? j = (l.insertIdx address c)[j]? := by
  rcases Nat.lt_trichotomy j address with hlt | heq | hgt
  · rw [Table.get?_put, if_neg (Nat.ne_of_lt hlt), h.below j hlt, List.getElem?_insertIdx_of_lt hlt]
  · rw [heq, Table.get?_put_self, List.getElem?_insertIdx_self, if_pos ha]
  · rw [Table.get?_put, if_neg (Nat.ne_of_gt hgt), h.above j hgt,
      List.getElem?_insertIdx_of_gt hgt]

/-- Rows that were moved up reach the length. -/
theorem Rising.top {address : Nat} {t : Table Nat (Child P S C)} (h : Rising l address 0 t)
    (ha : address < l.length) : (t.get? l.length).isSome := by
  rw [h.above _ ha, List.getElem?_eq_getElem (by omega)]
  rfl

/-- Where no row had to be moved, the rows are as they were. -/
theorem Rising.rows {t : Table Nat (Child P S C)} (h : Rising l l.length 0 t) (j : Nat) :
    t.get? j = l[j]? := by
  rcases Nat.lt_trichotomy j l.length with hlt | heq | hgt
  · exact h.below j hlt
  · rw [heq, List.getElem?_eq_none (Nat.le_refl _)]
    exact h.slot.resolve_right fun h => absurd h.1 (Nat.lt_irrefl 0)
  · rw [h.above j hgt, List.getElem?_eq_none (by omega), List.getElem?_eq_none (by omega)]

theorem rejectEmpty_apply (value : Value P S C) :
    rejectEmpty value s = if isEmpty value then .error .valueError s else .ok () s := by
  cases value <;> rfl

theorem insertIdx_lists {address : Nat} {t : Table Nat (Child P S C)} (h : Rising l address 0 t)
    (ha : address ≤ l.length) (c : Child P S C) (made : Bool) :
    FlatList.Lists ⟨made, t.put address c, some (l.length + 1)⟩ (l.insertIdx address c) where
  len := (List.length_insertIdx_of_le_length ha c).symm
  rows := h.insertIdx ha c

variable [DecidableEq S]

omit [DecidableEq S] in
/-- A row past the length stays. -/
theorem preserves_behind (i : Nat) : (base (P := P) (S := S) (C := C)).Preserves i
    (fun s => s.len ≤ i ∧ (s.children.get? i).isSome) where
  marked _ h := h
  put := by
    intro _ s c h
    refine ⟨h.1, ?_⟩
    show ((s.children.put i c).get? i).isSome
    rw [Table.get?_put_self]
    rfl
  hook _ := Keeps.pure ()

/-- (PROVED) A write through a child view leaves a list, unless it creates the child where the list has
no row. -/
theorem nestedWrite_ends (h : s.Lists l) (index : Nat) (structureId : S)
    (write : C → C × Option ViewError) :
    Ends (Cond (X := X) env s (.nested index structureId write))
      (endState (nestedWrite env index structureId write s)) := by
  by_cases hlt : index < l.length
  · have hhas := (preserves_has index).nestedWrite env structureId write s ⟨l, h, hlt⟩
    exact Ends.whole (Or.inl (h.len ▸ hlt)) (hhas.imp fun _ h => h.1)
  have hfree : s.children.get? index = none := by
    rw [h.rows]
    exact List.getElem?_eq_none (Nat.not_lt.1 hlt)
  by_cases hb : Blocked env s
  · obtain ⟨e, he⟩ := ensureCreated_blocked hb
    have hopen : base.ensureChildView env index structureId s = .error e s := by
      rw [ViewBase.ensureChildView, bind_of_ok (nodeInfo_apply index s), hfree]
      exact bind_of_error he
    rw [nestedWrite, ViewBase.nestedWrite, bind_of_error hopen]
    exact Ends.whole (Or.inr hb) ⟨l, h⟩
  · rw [nestedWrite, ViewBase.nestedWrite,
      bind_of_ok (ensureChildView_fresh hb hfree structureId)]
    refine Ends.behind (fun hp => hp.elim (fun hp => hlt (h.len ▸ hp)) hb) ⟨index, ?_⟩
    refine (preserves_behind index).writeInside rfl write _ ⟨?_, ?_⟩
    · show s.len ≤ index
      rw [h.len]
      exact Nat.not_lt.1 hlt
    · show ((s.children.put index _).get? index).isSome
      rw [Table.get?_put_self]
      rfl

/-- The end of an insert, in the rows that were moved. -/
theorem insert_moved {address : Nat} {t : Table Nat (Child P S C)} {n : Option Nat}
    (hn : n.getD 0 = l.length) (h : Rising l address 0 t) (ha : address ≤ l.length)
    (value : Value P S C) :
    Ends (Taken env value ∨ Refused env value ∧ address = l.length) (endState
      ((base.setChildValue env (.key address) value >>= fun _ => Counted.setLength (l.length + 1))
        ⟨true, t, n⟩)) := by
  have hfree : (⟨true, t, n⟩ : Rows P S C).children.get? address = none :=
    h.slot.resolve_right fun h => absurd h.1 (Nat.lt_irrefl 0)
  have hopen : ¬ Blocked env (⟨true, t, n⟩ : Rows P S C) := fun hb => nomatch hb.1
  obtain ⟨u, hu, hends⟩ := setChildValue_cases hopen hfree value
  obtain rfl : u = ⟨true, t, n⟩ := hu.elim id id
  rcases hends with ⟨htaken, c, hset⟩ | ⟨hnot, href, e, hset⟩ | ⟨hnot, href, c, e, hset⟩
  · rw [bind_of_ok hset]
    exact Ends.whole (Or.inl htaken) ⟨_, insertIdx_lists h ha c true⟩
  · rw [bind_of_error hset]
    by_cases hlast : address = l.length
    · rw [hlast] at h
      exact Ends.whole (Or.inr ⟨href, hlast⟩) ⟨l, hn, h.rows⟩
    · exact Ends.behind (fun hp => hp.elim hnot fun hp => hlast hp.2)
        ⟨l.length, Nat.le_of_eq hn, h.top (by omega)⟩
  · rw [bind_of_error hset]
    refine Ends.behind (fun hp => hp.elim hnot fun hp => href hp.1) ⟨l.length, Nat.le_of_eq hn, ?_⟩
    show ((t.put address c).get? l.length).isSome
    rw [Table.get?_put]
    split_ifs with hlast
    · rfl
    · exact h.top (by omega)

/-- (PROVED) An insert leaves a list, unless the value is rejected partway, or is refused once rows
have been moved. -/
theorem insert_ends (h : s.Lists l) (address : Int) (value : Value P S C) :
    Ends (Cond env s (.insert address value)) (endState (insert merge env address value s)) := by
  cases hv : isEmpty value with
  | true =>
    have hreject : rejectEmpty value s = .error .valueError s := by rw [rejectEmpty_apply, if_pos hv]
    rw [insert, bind_of_error hreject]
    exact Ends.whole (Or.inl hv) ⟨l, h⟩
  | false =>
    have hreject : rejectEmpty value s = .ok () s := by
      rw [rejectEmpty_apply, hv]
      rfl
    rw [insert, bind_of_ok hreject]
    by_cases hb : Blocked env s
    · obtain ⟨e, he⟩ := ensureCreated_blocked hb
      rw [bind_of_error he]
      exact Ends.whole (Or.inr (Or.inl hb)) ⟨l, h⟩
    rw [bind_of_ok (ensureCreated_open hb), bind_of_ok (len_apply (lists_made h))]
    have hcond : Cond env s (.insert address value) ↔ Taken env value ∨
        Refused env value ∧ ByteArrayView.insertAt l.length address = l.length := by
      rw [Cond, hv, h.len]
      exact (or_iff_right Bool.false_ne_true).trans (or_iff_right hb)
    refine Ends.of_iff ?_ hcond.symm
    have ha : ByteArrayView.insertAt l.length address ≤ l.length := ByteArrayView.insertAt_le _ _
    generalize ByteArrayView.insertAt l.length address = a at ha
    obtain ⟨t, hshift, hrising⟩ := shiftUp_made merge (s := made s) a (l.length - a) rfl
      (by omega) (rising_start h.rows ha)
    refine (congrArg (Ends _ ∘ endState) (bind_of_ok hshift)).mpr ?_
    exact insert_moved h.len hrising ha value

/-! ## Values put at the end -/

/-- (PROVED) An append leaves a list, unless the value is rejected partway. -/
theorem append_ends (h : s.Lists l) (value : Value P S C) :
    Ends (Cond env s (.append value)) (endState (append env value s)) := by
  by_cases hb : Blocked env s
  · obtain ⟨e, he⟩ := append_blocked hb value
    rw [he]
    exact Ends.whole (Or.inl hb) ⟨l, h⟩
  rcases append_cases h hb value with
    ⟨htaken, c, t, hrun, hlists, -⟩ | ⟨-, href, e, t, hrun, hlists⟩ | ⟨hnot, href, e, t, hrun, hbehind⟩
  · rw [hrun]
    exact Ends.whole (Or.inr (Or.inr htaken)) ⟨_, hlists⟩
  · rw [hrun]
    exact Ends.whole (Or.inr (Or.inl href)) ⟨l, hlists⟩
  · rw [hrun]
    exact Ends.behind (fun hp => hp.elim hb fun hp => hp.elim href hnot) hbehind

omit [DecidableEq S] in
theorem rejectEmptyIn_values (values : List (Value P S C)) :
    rejectEmptyIn (.values values) s =
      if values.any isEmpty then .error .valueError s else .ok () s := by
  show raiseIf (if values.any isEmpty then some ViewError.valueError else none) s = _
  cases values.any isEmpty <;> rfl

/-- (PROVED) `extend` leaves a list, unless a value is rejected partway before one is refused. -/
theorem extend_ends (h : s.Lists l) (values : Batch P S C) :
    Ends (Cond env s (.extend values)) (endState (extend env values s)) := by
  match values with
  | .raises e => exact Ends.whole trivial ⟨l, h⟩
  | .other => exact Ends.whole trivial ⟨l, h⟩
  | .values values =>
    cases hv : values.any isEmpty with
    | true =>
      have hreject : rejectEmptyIn (.values values) s = .error .valueError s := by
        rw [rejectEmptyIn_values, if_pos hv]
      rw [extend, bind_of_error hreject]
      exact Ends.whole (Or.inl hv) ⟨l, h⟩
    | false =>
      have hreject : rejectEmptyIn (.values values) s = .ok () s := by
        rw [rejectEmptyIn_values, hv]
        rfl
      rw [extend, bind_of_ok hreject]
      have hcond : Cond env s (.extend (.values values)) ↔ Blocked env s ∨ WholeUpTo env values := by
        rw [Cond, hv]
        exact or_iff_right Bool.false_ne_true
      refine Ends.of_iff ?_ hcond.symm
      by_cases hb : Blocked env s
      · refine Ends.whole (Or.inl hb) ?_
        match values with
        | [] => exact ⟨l, h⟩
        | value :: rest =>
          obtain ⟨e, he⟩ := append_blocked hb value
          exact (congrArg (Whole ∘ endState) (bind_of_error he)).mpr ⟨l, h⟩
      · exact Ends.of_iff (forM_append h hb values) (or_iff_right hb).symm

/-! ## A store -/

/-- How the loop of `store` ends, from rows that are a list. -/
theorem putAll_cases (env : Env P S C X) (hs : s.created = true) {r : List (Child P S C)}
    (h : ∀ i, s.children.get? i = r[i]?) (values : List (Value P S C)) :
    ((∀ value ∈ values, Taken env value) ∧ ∃ (r' : List (Child P S C)) (t : Table Nat (Child P S C)),
        putAll env r.length values s = .ok r'.length { s with children := t } ∧
        ∀ i, t.get? i = r'[i]?) ∨
      (¬ (∀ value ∈ values, Taken env value) ∧ ∃ (e : ViewError) (r' : List (Child P S C))
        (t : Table Nat (Child P S C)), putAll env r.length values s = .error e { s with children := t } ∧
        (∀ i, t.get? i = (r ++ r')[i]?) ∧ (r' = [] ↔ ∃ value ∈ values.head?, Refused env value)) := by
  induction values generalizing s r with
  | nil => exact Or.inl ⟨nofun, r, s.children, rfl, h⟩
  | cons value rest ih =>
    have hopen : ¬ Blocked env s := not_blocked_of_created hs
    have hfree : s.children.get? r.length = none := by
      rw [h, List.getElem?_eq_none (Nat.le_refl _)]
    have hhead : (∃ v ∈ (value :: rest).head?, Refused env v) ↔ Refused env value := by
      simp only [List.head?_cons, Option.mem_some_iff, exists_eq_left']
    obtain ⟨u, hu, hends⟩ := setChildValue_cases hopen hfree value
    obtain rfl : u = s := hu.elim id fun hu => hu.trans (made_of_created hs)
    rcases hends with ⟨htaken, c, hset⟩ | ⟨hnot, href, e, hset⟩ | ⟨hnot, href, c, e, hset⟩
    · have hrows : ∀ i, (u.children.put r.length c).get? i = (r ++ [c])[i]? :=
        Table.get?_put_append h c
      have hrun : putAll env r.length (value :: rest) u =
          putAll env (r ++ [c]).length rest { u with children := u.children.put r.length c } := by
        rw [List.length_append]
        exact bind_of_ok hset
      rw [hrun]
      refine (ih (s := { u with children := u.children.put r.length c }) hs hrows).imp
        (And.imp_left fun hall => ?_) fun hend => ?_
      · exact fun v hv => (List.mem_cons.1 hv).elim (fun hv => hv ▸ htaken) (hall v)
      · obtain ⟨hsome, e, r', t, hrest, ht, -⟩ := hend
        refine ⟨fun hall => hsome fun v hv => hall v (List.mem_cons_of_mem _ hv), e, c :: r', t,
          hrest, ?_, iff_of_false (List.cons_ne_nil c r') fun hr => ?_⟩
        · simpa only [List.append_assoc, List.singleton_append] using ht
        · exact not_refused_of_taken htaken (hhead.1 hr)
    · refine Or.inr ⟨fun hall => hnot (hall value List.mem_cons_self), e, [], u.children,
        bind_of_error hset, ?_, iff_of_true rfl (hhead.2 href)⟩
      simpa only [List.append_nil] using h
    · exact Or.inr ⟨fun hall => hnot (hall value List.mem_cons_self), e, [c],
        u.children.put r.length c, bind_of_error hset, Table.get?_put_append h c,
        iff_of_false (List.cons_ne_nil c []) fun hr => href (hhead.1 hr)⟩

/-- The loop of `store`, and the length after it. -/
theorem putAll_ends (hs : s.created = true) (h : s.Lists l) (values : List (Value P S C)) :
    Ends ((∀ value ∈ values, Taken env value) ∨ ∃ value ∈ values.head?, Refused env value)
      (endState ((putAll env l.length values >>= Counted.setLength) s)) := by
  rcases putAll_cases env hs h.rows values with
    ⟨hall, r', t, hrun, ht⟩ | ⟨hsome, e, r', t, hrun, ht, hr'⟩
  · rw [bind_of_ok hrun]
    exact Ends.whole (Or.inl hall) ⟨r', rfl, ht⟩
  · rw [bind_of_error hrun]
    match r' with
    | [] =>
      rw [List.append_nil] at ht
      exact Ends.whole (Or.inr (hr'.1 rfl)) ⟨l, h.len, ht⟩
    | c :: r' =>
      refine Ends.behind (fun hp => hp.elim hsome fun hr => List.cons_ne_nil c r' (hr'.2 hr))
        ⟨l.length, Nat.le_of_eq h.len, ?_⟩
      show (t.get? l.length).isSome
      rw [ht, List.getElem?_append_right (Nat.le_refl _), Nat.sub_self]
      rfl

omit [DecidableEq S] in
/-- The rows before the loop of `store`. -/
theorem store_start (env : Env P S C X) (h : s.Lists l) (replace : Bool) :
    ∃ l' t, onlyIf replace (clear env) (made s) = .ok () t ∧ t.created = true ∧ t.Lists l' ∧
      (if replace then 0 else t.len) = l'.length := by
  cases replace with
  | false => exact ⟨l, made s, rfl, rfl, lists_made h, h.len⟩
  | true => exact ⟨[], _, clear_made rfl, rfl, FlatList.lists_nil _ _ rfl, rfl⟩

/-- (PROVED) `store` leaves a list if every value of it is stored whole or the first is refused, and
otherwise does not. -/
theorem store_ends (h : s.Lists l) (value : Batch P S C) (replace : Bool) :
    Ends (Cond env s (.store value replace)) (endState (store env value replace s)) := by
  match value with
  | .raises e => exact Ends.whole trivial ⟨l, h⟩
  | .other =>
    refine Ends.whole trivial ?_
    by_cases hb : Blocked env s
    · obtain ⟨e, he⟩ := ensureCreated_blocked hb
      exact (congrArg (Whole ∘ endState) (bind_of_error he)).mpr ⟨l, h⟩
    · obtain ⟨l', t, hstart, -, ht, -⟩ := store_start env h replace
      have hrun : store env .other replace s = .error .typeError t :=
        (bind_of_ok rfl).trans ((bind_of_ok (ensureCreated_open hb)).trans ((bind_of_ok hstart).trans
          rfl))
      rw [hrun]
      exact ⟨l', ht⟩
  | .values values =>
    cases hv : values.any isEmpty with
    | true =>
      have hreject : rejectEmptyIn (.values values) s = .error .valueError s := by
        rw [rejectEmptyIn_values, if_pos hv]
      rw [store, bind_of_error hreject]
      exact Ends.whole (Or.inl hv) ⟨l, h⟩
    | false =>
      have hreject : rejectEmptyIn (.values values) s = .ok () s := by
        rw [rejectEmptyIn_values, hv]
        rfl
      rw [store, bind_of_ok hreject]
      by_cases hb : Blocked env s
      · obtain ⟨e, he⟩ := ensureCreated_blocked hb
        rw [bind_of_error he]
        exact Ends.whole (Or.inr (Or.inl hb)) ⟨l, h⟩
      have hcond : Cond env s (.store (.values values) replace) ↔
          (∀ value ∈ values, Taken env value) ∨ ∃ value ∈ values.head?, Refused env value := by
        rw [Cond, hv]
        exact (or_iff_right Bool.false_ne_true).trans (or_iff_right hb)
      obtain ⟨l', t, hstart, hmade, ht, hcount⟩ := store_start env h replace
      have hread : ((fun s : Rows P S C => if replace then 0 else s.len) <$> get :
          EStateM ViewError (Rows P S C) Nat) t = .ok l'.length t :=
        congrArg (EStateM.Result.ok · t) hcount
      rw [bind_of_ok (ensureCreated_open hb), bind_of_ok hstart, bind_of_ok hread]
      exact Ends.of_iff (putAll_ends hmade ht values) hcond.symm

/-! ## Runs -/

/-- **Every operation ends in a list, or with a row that is not counted** (PROVED). -/
theorem step_ends (merge : C → C → C) (env : Env P S C X) (h : Whole s) (op : ListOp P S C X) :
    Ends (Cond env s op) (endState (exec merge env op s)) := by
  have hkeeps : ∀ {α β : Type} {f : α → β} {m : EStateM ViewError (Rows P S C) α}, Keeps Whole m →
      Ends True (endState ((f <$> m) s)) := fun hm => Ends.whole trivial (hm.map _ s h)
  have hends : ∀ {p : Prop} {α β : Type} {f : α → β} {m : EStateM ViewError (Rows P S C) α},
      Ends p (endState (m s)) → Ends p (endState ((f <$> m) s)) := fun hm => by
    rwa [endState_map]
  obtain ⟨l, hl⟩ := h
  cases op with
  | set address value => exact hkeeps (setItem_keeps address value)
  | openChild address => exact hkeeps (openChild_keeps address)
  | nested index structureId write => exact hends (nestedWrite_ends hl index structureId write)
  | append value => exact hends (append_ends hl value)
  | insert address value => exact hends (insert_ends hl address value)
  | del address => exact hkeeps (delItem_keeps address)
  | pop address => exact hkeeps (pop_keeps address)
  | remove equal eager => exact hkeeps (remove_keeps equal eager)
  | clear => exact hkeeps clear_keeps
  | extend values => exact hends (extend_ends hl values)
  | store value replace => exact hends (store_ends hl value replace)

/-- Every operation of a run meets its condition, in the state that it starts from. -/
def Meets (merge : C → C → C) (env : Env P S C X) : List (ListOp P S C X) → Rows P S C → Prop
  | [], _ => True
  | op :: ops, s => Cond env s op ∧ Meets merge env ops (endState (exec merge env op s))

/-- From a list, the rows are those of a list after every operation if and only if every operation
meets its condition. -/
theorem run_iff (ops : List (ListOp P S C X)) (h : Whole s) :
    (∀ n, Exact (outcomes ((ops.take n).map (exec merge env)) s).2) ↔ Meets merge env ops s := by
  induction ops generalizing s with
  | nil =>
    refine iff_of_true (fun n => ?_) trivial
    rw [List.take_nil]
    exact h.exact
  | cons op ops ih =>
    have hstep := step_ends merge env h op
    have hnext : ∀ n, (outcomes (((op :: ops).take (n + 1)).map (exec merge env)) s).2 =
        (outcomes ((ops.take n).map (exec merge env)) (endState (exec merge env op s))).2 := fun n => by
      rw [List.take_succ_cons, List.map_cons]
      exact outcomes_cons _ _ _
    constructor
    · intro hall
      have hone := hall 1
      rw [hnext 0] at hone
      have hcond := hstep.iff.1 hone
      refine ⟨hcond, (ih (hstep.elim And.right fun hend => absurd hcond hend.1)).1 fun n => ?_⟩
      rw [← hnext n]
      exact hall (n + 1)
    · rintro ⟨hcond, hrest⟩ n
      cases n with
      | zero => exact h.exact
      | succ n =>
        rw [hnext n]
        exact (ih (hstep.elim And.right fun hend => absurd hcond hend.1)).2 hrest n

omit [DecidableEq S] in
theorem whole_absent : Whole (Counted.absent : Rows P S C) :=
  ⟨[], FlatList.lists_nil _ _ rfl⟩

/-- **The rows of a list are its indexes after every operation of a run exactly when no operation
ends halfway** (PROVED). -/
theorem exact_iff (merge : C → C → C) (env : Env P S C X) (ops : List (ListOp P S C X)) :
    (∀ n, Exact (outcomes ((ops.take n).map (exec merge env)) Counted.absent).2) ↔
      Meets merge env ops Counted.absent := run_iff ops whole_absent

/-! ## A value rejected partway -/

/-- Codecs that take every value but 0. -/
def noZero {C : Type} (layout : C) : Env Nat Unit C Unit where
  blocked := none
  refusesValue value := if value = 0 then some 0 else none
  layout _ content := content.getD layout
  read _ _ := .ok ()

/-- `[1, 0]`, as the child list of an item stores it. -/
def badItem : Value Nat Unit (Rows Nat Unit Unit) :=
  .compound () fun content replace =>
    match store (noZero ()) (.values [.primitive 1, .primitive 0]) replace content with
    | .ok _ content => (content, none)
    | .error e content => (content, some e)

/-- A failed `append` leaves a row that the list does not count. -/
theorem append_rejected_partway : ¬ ∀ n, Exact (outcomes (([.append badItem].take n).map
    (exec (fun content _ => content) (noZero Counted.absent))) Counted.absent).2 := by
  intro h
  have hrow : ((outcomes (([.append badItem].take 1).map
      (exec (fun content _ => content) (noZero Counted.absent))) Counted.absent).2.children.get?
        0).isSome := by decide
  exact absurd ((h 1 0).1 hrow) (by decide)

/-- A child view opened at 0, the list cleared, and then written through: a row that is not counted. -/
example :
    let run : List (ListOp Nat Unit Unit Unit) :=
      [.append (.compound () fun content _ => (content, none)), .openChild 0, .clear,
        .nested 0 () fun content => (content, none)]
    let s := (outcomes (run.map (exec (fun content _ => content) (noZero ()))) Counted.absent).2
    s.len = 0 ∧ (s.children.get? 0).isSome := by decide +kernel

end Virtuals.Views.ListView
