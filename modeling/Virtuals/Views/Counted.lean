/-
  `view/bases.py`: views that keep the number of their children in a `__len__` metadata row.

  The counter is written by hand: the hook of the base class raises it, every delete lowers it, every
  clear resets it. `Counts` says that it is right; each helper states what it does to the counter and
  to the rows.
-/
import Virtuals.Lib.Table
import Virtuals.Views.Base

namespace Virtuals.Views

open Virtuals.Lib

/-- The rows at the site of a counting view. -/
structure Counted (K V : Type) where
  /-- the marker row -/
  created : Bool
  children : Table K V
  /-- the `__len__` metadata row -/
  length : Option Nat

namespace Counted

/-- A site never written. -/
def absent {K V : Type} : Counted K V := ⟨false, ∅, none⟩

variable {K P S C X : Type} [LinearOrder K]

/-- `_len`: the stored length, 0 when missing. -/
def len {V : Type} (s : Counted K V) : Nat := s.length.getD 0

/-- `_set_length`. -/
def setLength {V : Type} (n : Nat) : EStateM ViewError (Counted K V) Unit :=
  modify fun s => { s with length := some n }

/-- `_increment_length`. -/
def incrementLength {V : Type} : EStateM ViewError (Counted K V) Unit :=
  modify fun s => { s with length := some (s.len + 1) }

/-- `_decrement_length`: nothing is written at 0. -/
def decrementLength {V : Type} : EStateM ViewError (Counted K V) Unit :=
  modify fun s => if 0 < s.len then { s with length := some (s.len - 1) } else s

/-- `KeyedChildrenCountBase`: every new child counts once. -/
def base (refusesKey : K → Option Nat) : ViewBase (Counted K (Child P S C)) K P S C where
  created := created
  markCreated s := { s with created := true }
  refusesKey := refusesKey
  child s k := s.children.get? k
  putChild k c s := { s with children := s.children.put k c }
  onChildCreated _ := incrementLength

/-- `__len__`: a stored counter is returned as it is; a missing one asks for the marker. -/
def size {V : Type} : EStateM ViewError (Counted K V) Nat := do
  let s ← get
  match s.length with
  | some n => return n
  | none => do
    raiseIf (if s.created then none else some .containerNotFound)
    return 0

/-- `container.delete_child`: the container must exist, a missing child is passed over. -/
def deleteChild {V : Type} (k : K) : EStateM ViewError (Counted K V) Unit := do
  let made ← created <$> get
  raiseIf (if made then none else some .containerNotFound)
  modify fun s => { s with children := s.children.erase k }

/-- `container.clear_children`: every scanned child is deleted. -/
def clearChildren {V : Type} : EStateM ViewError (Counted K V) Unit :=
  modify fun s => { s with children := s.children.eraseAll s.children.scan }

/-- `clear` of `SetView` and `Kh57View`: clear of nothing is not a write. -/
def clear (refusesKey : K → Option Nat) (env : Env P S C X) :
    EStateM ViewError (Counted K (Child P S C)) Unit := do
  let made ← created <$> get
  if made then do
    (base refusesKey).ensureCreated env
    clearChildren
    setLength 0
  else pure ()

omit [LinearOrder K] in
theorem created_eq {V : Type} {s : Counted K V} {b : Bool} (hs : s.created = b) :
    (created <$> get : EStateM ViewError (Counted K V) Bool) s = .ok b s :=
  congrArg (EStateM.Result.ok · s) hs

theorem deleteChild_made {V : Type} {s : Counted K V} (k : K) (hs : s.created = true) :
    deleteChild k s = .ok () { s with children := s.children.erase k } := by
  rw [deleteChild, bind_of_ok (created_eq hs)]
  rfl

theorem clear_made (refusesKey : K → Option Nat) (env : Env P S C X)
    {s : Counted K (Child P S C)} (hs : s.created = true) :
    clear refusesKey env s = .ok ()
      { s with children := s.children.eraseAll s.children.scan, length := some 0 } := by
  rw [clear, bind_of_ok (created_eq hs), if_pos rfl,
    bind_of_ok (ViewBase.ensureCreated_made (base refusesKey) env hs)]
  rfl

/-- Clear of nothing is not a write. -/
theorem clear_absent (refusesKey : K → Option Nat) (env : Env P S C X)
    {s : Counted K (Child P S C)} (hs : s.created = false) :
    clear refusesKey env s = .ok () s := by
  rw [clear, bind_of_ok (created_eq hs)]
  rfl

omit [LinearOrder K] in
theorem size_apply (s : Counted K (Child P S C)) :
    size s =
      match s.length with
      | some n => .ok n s
      | none => if s.created then .ok 0 s else .error .containerNotFound s := by
  refine Eq.trans (?_ : _ = (match s.length with
    | some n => pure n
    | none => do
      raiseIf (if s.created then none else some .containerNotFound)
      return 0 : EStateM ViewError (Counted K (Child P S C)) Nat) s) ?_
  · rfl
  · cases s.length with
    | some n => rfl
    | none => cases s.created <;> rfl

omit [LinearOrder K] in
theorem decrementLength_pos {V : Type} {s : Counted K V} (h : 0 < s.len) :
    decrementLength s = .ok () { s with length := some (s.len - 1) } := by
  show EStateM.Result.ok () (if 0 < s.len then _ else _) = _
  rw [if_pos h]

/-! ## The counter -/

/-- The stored length is the number of children rows; a site never written has neither. -/
structure Counts {V : Type} (s : Counted K V) : Prop where
  len : s.len = s.children.size
  absent : s.created = false → s.children = ∅ ∧ s.length = none

variable {V : Type} {s : Counted K V}

omit [LinearOrder K] in
theorem counts_absent : (absent : Counted K V).Counts := ⟨rfl, fun _ => ⟨rfl, rfl⟩⟩

omit [LinearOrder K] in
theorem Counts.mark (h : s.Counts) : Counts { s with created := true } :=
  ⟨h.len, fun h' => by cases h'⟩

omit [LinearOrder K] in
/-- `len` of a right counter. -/
theorem Counts.size_apply {s : Counted K (Child P S C)} (h : s.Counts) :
    size s = if s.created then .ok s.len s else .error .containerNotFound s := by
  rw [Counted.size_apply]
  cases hs : s.created with
  | true => cases hl : s.length <;> simp [Counted.len, hl]
  | false =>
    rw [(h.absent hs).2]
    rfl

/-- A row written over another. -/
theorem Counts.overwrite (h : s.Counts) {k : K} {v : V} (w : V) (hk : s.children.get? k = some v) :
    Counts { s with children := s.children.put k w } where
  len := h.len.trans (Table.size_put_of_some _ w hk).symm
  absent hs := by
    rw [(h.absent hs).1, Table.get?_empty] at hk
    cases hk

/-- A new row, then the hook. -/
theorem Counts.record (h : s.Counts) {k : K} (v : V) (hk : s.children.get? k = none)
    (hs : s.created = true) :
    Counts { s with children := s.children.put k v, length := some (s.len + 1) } where
  len := (congrArg (· + 1) h.len).trans (Table.size_put_of_none _ v hk).symm
  absent h' := by rw [show s.created = false from h'] at hs; cases hs

theorem Counts.pos (h : s.Counts) {k : K} {v : V} (hk : s.children.get? k = some v) :
    0 < s.len := h.len ▸ Table.size_pos _ hk

/-- A row deleted, and counted down. -/
theorem Counts.erase (h : s.Counts) {k : K} {v : V} (hk : s.children.get? k = some v) :
    Counts { s with children := s.children.erase k, length := some (s.len - 1) } := by
  refine ⟨?_, fun hs => ?_⟩
  · have := Table.size_erase_of_some _ hk
    have := h.len
    show s.len - 1 = (s.children.erase k).size
    omega
  · rw [(h.absent hs).1, Table.get?_empty] at hk
    cases hk

/-- The site after a clear. -/
theorem Counts.cleared (hs : s.created = true) :
    Counts { s with children := s.children.eraseAll s.children.scan, length := some 0 } where
  len := by rw [Table.eraseAll_scan]; rfl
  absent h' := by rw [show s.created = false from h'] at hs; cases hs

end Counted

end Virtuals.Views
