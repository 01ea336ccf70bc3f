/-
  `_views/flat_list_view.py`: a list of primitives, one row an index, its length in `__len__`.

  `Lists s l` says that the rows are the list: the row at `i` is `l[i]`, and the stored length is that
  of `l`. Each mutation is stated once, on a list that exists.
-/
import Virtuals.Views.Counted

namespace Virtuals.Views

open Virtuals.Lib

/-- The rows at the site of a flat list. -/
abbrev FlatList (V : Type) := Counted Nat V

namespace FlatList

variable {V : Type}

/-- `ensure_created`, with what creating the missing marker raises. -/
def ensureCreated (blocked : Option ViewError) : EStateM ViewError (FlatList V) Unit := do
  let made ← Counted.created <$> get
  if made then pure () else do
    raiseIf blocked
    modify fun s => { s with created := true }

/-- `container.put_child_primitive`, in a container that must exist. -/
def putRow (index : Nat) (value : V) : EStateM ViewError (FlatList V) Unit := do
  let made ← Counted.created <$> get
  raiseIf (if made then none else some .containerNotFound)
  modify fun s => { s with children := s.children.put index value }

/-- `append`. -/
def append (blocked : Option ViewError) (value : V) : EStateM ViewError (FlatList V) Unit := do
  ensureCreated blocked
  let index ← Counted.len <$> get
  putRow index value
  Counted.setLength (index + 1)

/-- `clear`. -/
def clear (blocked : Option ViewError) : EStateM ViewError (FlatList V) Unit := do
  let made ← Counted.created <$> get
  onlyIf made do
    ensureCreated blocked
    Counted.clearChildren
    Counted.setLength 0

/-- The items of a bulk write, from an index on. -/
def putRows : Nat → List V → EStateM ViewError (FlatList V) Nat
  | count, [] => pure count
  | count, item :: items => do
    putRow count item
    putRows (count + 1) items

/-- `store`. -/
def store (blocked : Option ViewError) (value : List V) (replace : Bool) :
    EStateM ViewError (FlatList V) Unit := do
  ensureCreated blocked
  onlyIf replace (clear blocked)
  let count ← (fun s : FlatList V => if replace then 0 else s.len) <$> get
  let count ← putRows count value
  Counted.setLength count

/-- The rows in the order of their indexes, as `iter_children` meets them. -/
def rows (s : FlatList V) : List V := s.children.scan.filterMap s.children.get?

/-- `normalize_address`: a negative index counts from the end. -/
def normalizeAddress (s : FlatList V) (address : Int) : Except ViewError Nat :=
  let address := if address < 0 then s.len + address else address
  if address < 0 ∨ (s.len : Int) ≤ address then .error .indexError else .ok address.toNat

/-- `__getitem__`. -/
def getItem (address : Int) : EStateM ViewError (FlatList V) V := do
  let s ← get
  let index ← liftResult (normalizeAddress s address)
  match s.children.get? index with
  | some value => return value
  | none => throw .indexError

/-! ## The list -/

/-- The rows are the list. -/
structure Lists (s : FlatList V) (l : List V) : Prop where
  len : s.len = l.length
  rows : ∀ i, s.children.get? i = l[i]?

variable {s : FlatList V} {l : List V}

theorem ensureCreated_made (blocked : Option ViewError) (hs : s.created = true) :
    ensureCreated blocked s = .ok () s := by
  rw [ensureCreated, bind_of_ok (Counted.created_eq hs)]
  rfl

theorem putRow_made (i : Nat) (v : V) (hs : s.created = true) :
    putRow i v s = .ok () { s with children := s.children.put i v } := by
  rw [putRow, bind_of_ok (Counted.created_eq hs)]
  rfl

/-- Rows put at the end of the list, one after another. -/
theorem putRows_made (items : List V) (hs : s.created = true) (h : ∀ i, s.children.get? i = l[i]?) :
    ∃ t : Table Nat V, putRows l.length items s =
        .ok (l ++ items).length { s with children := t } ∧ ∀ i, t.get? i = (l ++ items)[i]? := by
  induction items generalizing s l with
  | nil => exact ⟨s.children, by simp [putRows]; rfl, by simpa using h⟩
  | cons item items ih =>
    obtain ⟨t, hrun, ht⟩ := ih (s := { s with children := s.children.put l.length item })
      (l := l ++ [item]) hs (Table.get?_put_append h item)
    refine ⟨t, ?_, by simpa using ht⟩
    rw [putRows, bind_of_ok (putRow_made l.length item hs)]
    simpa using hrun

theorem append_made (blocked : Option ViewError) (v : V) (hs : s.created = true)
    (h : s.Lists l) :
    append blocked v s = .ok ()
      { s with children := s.children.put l.length v, length := some (l.length + 1) } := by
  have hlen : (Counted.len <$> get : EStateM ViewError (FlatList V) Nat) s = .ok l.length s :=
    congrArg (EStateM.Result.ok · s) h.len
  rw [append, bind_of_ok (ensureCreated_made blocked hs), bind_of_ok hlen,
    bind_of_ok (putRow_made l.length v hs)]
  rfl

theorem Lists.append (h : s.Lists l) (v : V) :
    Lists { s with children := s.children.put l.length v, length := some (l.length + 1) }
      (l ++ [v]) where
  len := by simp [Counted.len]
  rows := Table.get?_put_append h.rows v

theorem clear_made (blocked : Option ViewError) (hs : s.created = true) :
    clear blocked s = .ok () { s with children := ∅, length := some 0 } := by
  rw [clear, bind_of_ok (Counted.created_eq hs), ← Table.eraseAll_scan s.children]
  exact bind_of_ok (ensureCreated_made blocked hs)

theorem clear_absent (blocked : Option ViewError) (hs : s.created = false) :
    clear blocked s = .ok () s := by
  rw [clear, bind_of_ok (Counted.created_eq hs)]
  rfl

theorem lists_nil (c : Bool) (n : Option Nat) (hn : n.getD 0 = 0) :
    Lists (⟨c, ∅, n⟩ : FlatList V) [] := ⟨hn, fun i => by simp⟩

/-- `store` puts a list in place of what was there. -/
theorem store_made (blocked : Option ViewError) (items : List V) (hs : s.created = true) :
    ∃ s' : FlatList V, store blocked items true s = .ok () s' ∧ s'.created = true ∧
      s'.Lists items := by
  obtain ⟨t, hrun, ht⟩ := putRows_made (s := { s with children := ∅, length := some 0 })
    (l := ([] : List V)) items hs (fun i => by simp)
  refine ⟨{ s with children := t, length := some items.length }, ?_, hs, rfl, by simpa using ht⟩
  rw [store, bind_of_ok (ensureCreated_made blocked hs)]
  refine (bind_of_ok (clear_made blocked hs)).trans ?_
  exact (bind_of_ok rfl).trans ((bind_of_ok hrun).trans (by simp; rfl))

/-- The rows are met in the order of the list. -/
theorem Lists.rows_eq (h : s.Lists l) : FlatList.rows s = l := by
  have hmap : (List.range l.length).map s.children.get? = l.map some := by
    refine List.ext_getElem (by simp) fun i hi _ => ?_
    have hl : i < l.length := by simpa using hi
    simp [h.rows, List.getElem?_eq_getElem hl]
  have hid : (List.range l.length).filterMap s.children.get? =
      ((List.range l.length).map s.children.get?).filterMap id := by
    rw [List.filterMap_map]
    rfl
  rw [FlatList.rows, Table.scan_of_lists h.rows, hid, hmap, List.filterMap_map]
  exact List.filterMap_some

theorem Lists.getItem (h : s.Lists l) {i : Nat} (hi : i < l.length) :
    getItem i s = .ok l[i] s := by
  have haddr : normalizeAddress s i = .ok i := by
    rw [normalizeAddress, h.len]
    have hneg : ¬ (i : Int) < 0 := by omega
    simp only [if_neg hneg]
    rw [if_neg (by omega), Int.toNat_natCast]
  rw [FlatList.getItem]
  refine (bind_of_ok (get_apply s)).trans ?_
  rw [haddr]
  refine (bind_of_ok (show liftResult (.ok i) s = .ok i s from rfl)).trans ?_
  rw [h.rows, List.getElem?_eq_getElem hi]
  rfl

end FlatList

end Virtuals.Views
