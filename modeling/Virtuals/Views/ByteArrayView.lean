/-
  `_views/bytearray_view.py`: a bytearray, one row a byte, its length in `__len__`.

  Item assignment, `append`, `insert` and through `append` also `extend` check that a value is a byte;
  `store` does not. `extend` keeps the bytes it appended before a value that it refuses, where a
  bytearray takes all of an iterable or nothing. `bytes_run` is the refinement for all runs in which
  neither happens. Assumed: the key codec takes the indexes (the string codec ends at 49999).
-/
import Virtuals.Views.FlatListView

namespace Virtuals.Views

open Virtuals.Lib

/-- A value that a row can hold. -/
inductive Cell (P : Type)
  | int (n : Int)
  | other (value : P)
  deriving DecidableEq

/-- A value offered to the view: `none` for EMPTY, or a compound with EMPTY inside. -/
abbrev Offered (P : Type) := Option (Cell P)

/-- What an iterable yields, and what it raises after that. -/
structure Yields (P : Type) where
  values : List (Offered P)
  raises : Option ViewError

/-- What the view depends on and does not decide. -/
structure ByteEnv (P : Type) where
  /-- what creating the missing marker of the view raises (the storage parent is missing) -/
  blocked : Option ViewError
  /-- what the value codec raises on an int that is no byte -/
  refusesInt : Int → Option ViewError
  refusesOther : P → Option ViewError

namespace ByteArrayView

variable {P : Type}

/-- `isinstance(value, int) and 0 <= value <= 255`. -/
def isByte : Offered P → Bool
  | some (.int n) => decide (0 ≤ n ∧ n ≤ 255)
  | _ => false

/-- The check of a byte. -/
def checkByte (value : Offered P) : Option ViewError :=
  if isByte value then none else some .valueError

/-- What the value codec raises; every byte is taken. -/
def refuses (E : ByteEnv P) : Cell P → Option ViewError
  | .int n => if 0 ≤ n ∧ n ≤ 255 then none else E.refusesInt n
  | .other value => E.refusesOther value

/-- The rows at the site of the view. -/
abbrev Rows (P : Type) := FlatList (Cell P)

/-- `container.put_child_primitive`. -/
def putChild (E : ByteEnv P) (index : Nat) : Offered P → EStateM ViewError (Rows P) Unit
  | none => throw .valueError
  | some value => do
    let made ← Counted.created <$> get
    raiseIf (if made then none else some .containerNotFound)
    raiseIf (refuses E value)
    modify fun s => { s with children := s.children.put index value }

/-- `container.get_child_primitive`: EMPTY where there is no row. -/
def getChild (index : Nat) : EStateM ViewError (Rows P) (Offered P) :=
  (fun s => s.children.get? index) <$> get

/-! ## The operations -/

/-- `__setitem__`. -/
def setItem (E : ByteEnv P) (address : Int) (value : Offered P) :
    EStateM ViewError (Rows P) Unit := do
  raiseIf (checkByte value)
  let s ← get
  let normalized ← liftResult (FlatList.normalizeAddress s address)
  FlatList.ensureCreated E.blocked
  putChild E normalized value

/-- `append`. -/
def append (E : ByteEnv P) (value : Offered P) : EStateM ViewError (Rows P) Unit := do
  raiseIf (checkByte value)
  FlatList.ensureCreated E.blocked
  let index ← Counted.len <$> get
  putChild E index value
  Counted.setLength (index + 1)

/-- The index at which `insert` puts a value. -/
def insertAt (length : Nat) (index : Int) : Nat :=
  if index < 0 then (max 0 (length + index)).toNat else (min index length).toNat

/-- The loop of `insert`, with the rows left to move: the last of them goes up by one. -/
def shiftUp (E : ByteEnv P) (index : Nat) : Nat → EStateM ViewError (Rows P) Unit
  | 0 => pure ()
  | n + 1 => do
    let byte ← getChild (index + n)
    putChild E (index + n + 1) byte
    shiftUp E index n

/-- `insert`. -/
def insert (E : ByteEnv P) (index : Int) (value : Offered P) :
    EStateM ViewError (Rows P) Unit := do
  raiseIf (checkByte value)
  FlatList.ensureCreated E.blocked
  let length ← Counted.len <$> get
  shiftUp E (insertAt length index) (length - insertAt length index)
  putChild E (insertAt length index) value
  Counted.setLength (length + 1)

/-- The loop of `__delitem__`, with the rows left to move: the first of them goes down to the hole. -/
def shiftDown (E : ByteEnv P) : Nat → Nat → EStateM ViewError (Rows P) Unit
  | _, 0 => pure ()
  | hole, n + 1 => do
    let byte ← getChild (hole + 1)
    putChild E hole byte
    Counted.deleteChild (hole + 1)
    shiftDown E (hole + 1) n

/-- `__delitem__`. -/
def delItem (E : ByteEnv P) (address : Int) : EStateM ViewError (Rows P) Unit := do
  let s ← get
  let normalized ← liftResult (FlatList.normalizeAddress s address)
  FlatList.ensureCreated E.blocked
  let length ← Counted.len <$> get
  Counted.deleteChild normalized
  shiftDown E normalized (length - (normalized + 1))
  Counted.setLength (length - 1)

/-- `pop`. -/
def pop (E : ByteEnv P) (index : Int) : EStateM ViewError (Rows P) (Cell P) := do
  let length ← Counted.len <$> get
  raiseIf (if length = 0 then some .indexError else none)
  let value ← FlatList.getItem index
  delItem E index
  return value

/-- `extend`: the values are appended one by one as the iterable yields them. -/
def extend (E : ByteEnv P) (values : Yields P) : EStateM ViewError (Rows P) Unit := do
  values.values.forM (append E)
  raiseIf values.raises

/-- The loop of `store`, from an index on. -/
def putAll (E : ByteEnv P) : Nat → List (Offered P) → EStateM ViewError (Rows P) Nat
  | count, [] => pure count
  | count, byte :: rest => do
    putChild E count byte
    putAll E (count + 1) rest

/-- `store`. -/
def store (E : ByteEnv P) (value : Yields P) (replace : Bool) :
    EStateM ViewError (Rows P) Unit := do
  FlatList.ensureCreated E.blocked
  onlyIf replace (FlatList.clear E.blocked)
  let count ← (fun s : Rows P => if replace then 0 else s.len) <$> get
  let count ← putAll E count value.values
  raiseIf value.raises
  Counted.setLength count

end ByteArrayView

/-- The public mutations. -/
inductive ByteOp (P : Type)
  | setItem (address : Int) (value : Offered P)
  | append (value : Offered P)
  | insert (index : Int) (value : Offered P)
  | extend (values : Yields P)
  | delItem (address : Int)
  | pop (index : Int)
  | clear
  | store (value : Yields P) (replace : Bool)

variable {P : Type}

/-- A mutation of the view; what `pop` returns. -/
def ByteOp.exec (E : ByteEnv P) : ByteOp P → EStateM ViewError (ByteArrayView.Rows P) (Option (Cell P))
  | .setItem address value => (fun _ => none) <$> ByteArrayView.setItem E address value
  | .append value => (fun _ => none) <$> ByteArrayView.append E value
  | .insert index value => (fun _ => none) <$> ByteArrayView.insert E index value
  | .extend values => (fun _ => none) <$> ByteArrayView.extend E values
  | .delItem address => (fun _ => none) <$> ByteArrayView.delItem E address
  | .pop index => some <$> ByteArrayView.pop E index
  | .clear => (fun _ => none) <$> FlatList.clear E.blocked
  | .store value replace => (fun _ => none) <$> ByteArrayView.store E value replace

/-! ## A bytearray under the same operations -/

namespace ByteArrayView

/-- The row of a byte. -/
def ofByte (b : UInt8) : Cell P := .int b.toNat

/-- The byte that a value is. -/
def byteOf : Offered P → Option UInt8
  | some (.int n) => if 0 ≤ n ∧ n ≤ 255 then some (UInt8.ofNat n.toNat) else none
  | _ => none

/-- The bytes of an iterable, if it yields nothing else and does not raise. -/
def bytesOf (values : Yields P) : Option (List UInt8) :=
  if values.raises = none then values.values.mapM byteOf else none

/-- An index into a sequence; a negative one counts from the end. -/
def pyIndex (length : Nat) (index : Int) : Option Nat :=
  let index := if index < 0 then length + index else index
  if index < 0 ∨ (length : Int) ≤ index then none else some index.toNat

/-- Where `bytearray.insert` inserts. -/
def pyInsertAt (length : Nat) (index : Int) : Nat :=
  if index < 0 then (length + index).toNat else min index.toNat length

end ByteArrayView

open ByteArrayView

/-- A mutation of a bytearray: what it returns and the bytes after it, or `none` if it raises. -/
def ByteOp.onBytes (l : List UInt8) : ByteOp P → Option (Option (Cell P) × List UInt8)
  | .setItem address value => do
    let b ← byteOf value
    let i ← pyIndex l.length address
    return (none, l.set i b)
  | .append value => do
    let b ← byteOf value
    return (none, l ++ [b])
  | .insert index value => do
    let b ← byteOf value
    return (none, l.insertIdx (pyInsertAt l.length index) b)
  | .extend values => do
    let bs ← bytesOf values
    return (none, l ++ bs)
  | .delItem address => do
    let i ← pyIndex l.length address
    return (none, l.eraseIdx i)
  | .pop index => do
    let i ← pyIndex l.length index
    return (l[i]?.map ofByte, l.eraseIdx i)
  | .clear => some (none, [])
  | .store values replace => do
    let bs ← bytesOf values
    return (none, if replace then bs else l ++ bs)

/-- The bytes after a mutation; one that raises leaves them as they were. -/
def ByteOp.after (l : List UInt8) (op : ByteOp P) : List UInt8 :=
  match op.onBytes l with
  | some (_, l') => l'
  | none => l

/-- What the view's state is to the bytes: the rows are the bytes by index, and the marker is there
    or can be written. -/
structure ByteArrayView.Holds (E : ByteEnv P) (s : Rows P) (l : List UInt8) : Prop where
  lists : s.Lists (l.map ofByte)
  writable : s.created = true ∨ E.blocked = none
  absent : s.created = false → l = []

/-- The view does what the bytearray does: it returns the same, or raises where that raises. -/
def ByteOp.Follows (E : ByteEnv P) (op : ByteOp P) (s : Rows P) (l : List UInt8) : Prop :=
  match op.onBytes l with
  | some (r, l') => ∃ s', op.exec E s = .ok r s' ∧ Holds E s' l'
  | none => ∃ e s', op.exec E s = .error e s' ∧ Holds E s' l

/-! ## Values -/

namespace ByteArrayView

variable {E : ByteEnv P} {s : Rows P} {l : List UInt8}

theorem isByte_eq (value : Offered P) : isByte value = (byteOf value).isSome := by
  match value with
  | none => rfl
  | some (.other _) => rfl
  | some (.int n) =>
    simp only [isByte, byteOf]
    split_ifs with h <;> simp [h]

theorem byteOf_eq_some {value : Offered P} {b : UInt8} (h : byteOf value = some b) :
    value = some (ofByte b) := by
  match value with
  | none => cases h
  | some (.other _) => cases h
  | some (.int n) =>
    simp only [byteOf] at h
    split_ifs at h with hn
    obtain rfl := Option.some.inj h
    have hmod : n.toNat % 2 ^ 8 = n.toNat := Nat.mod_eq_of_lt (by omega)
    rw [ofByte, UInt8.toNat_ofNat', hmod, Int.toNat_of_nonneg hn.1]

theorem refuses_ofByte (E : ByteEnv P) (b : UInt8) : refuses E (ofByte b) = none := by
  have hb : b.toNat < 256 := b.toNat_lt
  exact if_pos (by omega)

theorem checkByte_of_some {value : Offered P} {b : UInt8} (h : byteOf value = some b) :
    checkByte value = none := by
  rw [checkByte, isByte_eq, h]
  rfl

theorem checkByte_of_none {value : Offered P} (h : byteOf value = none) :
    checkByte value = some .valueError := by
  rw [checkByte, isByte_eq, h]
  rfl

theorem normalizeAddress_eq (s : Rows P) (address : Int) :
    FlatList.normalizeAddress s address =
      match pyIndex s.len address with
      | some i => .ok i
      | none => .error .indexError := by
  simp only [FlatList.normalizeAddress, pyIndex]
  generalize (if address < 0 then (s.len : Int) + address else address) = a
  split_ifs <;> rfl

theorem pyIndex_lt {n i : Nat} {index : Int} (h : pyIndex n index = some i) : i < n := by
  simp only [pyIndex] at h
  generalize (if index < 0 then (n : Int) + index else index) = a at h
  split_ifs at h with ha
  obtain rfl := Option.some.inj h
  omega

theorem insertAt_eq (n : Nat) (index : Int) : insertAt n index = pyInsertAt n index := by
  unfold insertAt pyInsertAt
  split_ifs <;> omega

theorem insertAt_le (n : Nat) (index : Int) : insertAt n index ≤ n := by
  unfold insertAt
  split_ifs <;> omega

/-! ## Rows -/

/-- `ensure_created` writes the marker, and nothing else. -/
theorem Holds.ensureCreated (h : Holds E s l) :
    FlatList.ensureCreated E.blocked s = .ok () { s with created := true } ∧
      Holds E { s with created := true } l := by
  refine ⟨?_, ⟨⟨h.lists.len, h.lists.rows⟩, Or.inl rfl, fun hs => by cases hs⟩⟩
  cases hs : s.created with
  | true =>
    rw [FlatList.ensureCreated_made E.blocked hs, ← hs]
  | false =>
    have hblocked : E.blocked = none := h.writable.resolve_left (by simp [hs])
    rw [hblocked, FlatList.ensureCreated, bind_of_ok (Counted.created_eq hs)]
    rfl

theorem putChild_byte (hs : s.created = true) (i : Nat) (b : UInt8) :
    putChild E i (some (ofByte b)) s =
      .ok () { s with children := s.children.put i (ofByte b) } := by
  rw [putChild, bind_of_ok (Counted.created_eq hs), refuses_ofByte]
  rfl

theorem getChild_apply (i : Nat) (s : Rows P) :
    getChild i s = .ok (s.children.get? i) s := rfl

theorem len_apply (s : Rows P) :
    (Counted.len <$> get : EStateM ViewError (Rows P) Nat) s = .ok s.len s := rfl

theorem ofByte_getElem? {i : Nat} (hi : i < l.length) :
    (l.map (ofByte (P := P)))[i]? = some (ofByte l[i]) := by
  rw [List.getElem?_map, List.getElem?_eq_getElem hi, Option.map_some]

/-- The rows while `insert` moves them: those past the last one moved are one further up. -/
theorem shiftUp_made {c : Table Nat (Cell P)} (hs : s.created = true) (index n : Nat)
    (hn : index + n ≤ l.length) (hc : s.children = c)
    (h : ∀ j, c.get? j =
      if j ≤ index + n then (l.map ofByte)[j]? else (l.map ofByte)[j - 1]?) :
    ∃ t, shiftUp E index n s = .ok () { s with children := t } ∧
      ∀ j, t.get? j = if j ≤ index then (l.map ofByte)[j]? else (l.map ofByte)[j - 1]? := by
  induction n generalizing s c with
  | zero => exact ⟨c, by rw [← hc]; rfl, h⟩
  | succ n ih =>
    have hlt : index + n < l.length := by omega
    have hget : c.get? (index + n) = some (ofByte l[index + n]) := by
      rw [h, if_pos (by omega), ofByte_getElem? hlt]
    obtain ⟨t, hrun, ht⟩ := ih (s := { s with children := c.put (index + n + 1) (ofByte l[index + n]) })
      (c := c.put (index + n + 1) (ofByte l[index + n])) hs (by omega) rfl (fun j => by
        rw [Table.get?_put, h j]
        by_cases hj : j = index + n + 1
        · rw [if_pos hj, if_neg (by omega), hj, Nat.add_sub_cancel, ofByte_getElem? hlt]
        · rw [if_neg hj]
          by_cases hle : j ≤ index + n
          · rw [if_pos (by omega), if_pos hle]
          · rw [if_neg (by omega), if_neg hle])
    refine ⟨t, ?_, ht⟩
    rw [shiftUp, bind_of_ok (getChild_apply (index + n) s), hc, hget,
      bind_of_ok (putChild_byte hs (index + n + 1) l[index + n]), hc]
    exact hrun

/-- The rows while `__delitem__` moves them: a hole, below it the rows from one further up. -/
theorem shiftDown_made {c : Table Nat (Cell P)} (hs : s.created = true) (i hole n : Nat)
    (hi : i ≤ hole) (hn : hole + n + 1 = l.length) (hc : s.children = c)
    (h : ∀ j, c.get? j =
      if j < i then (l.map ofByte)[j]? else if j < hole then (l.map ofByte)[j + 1]?
      else if j = hole then none else (l.map ofByte)[j]?) :
    ∃ t, shiftDown E hole n s = .ok () { s with children := t } ∧
      ∀ j, t.get? j = if j < i then (l.map ofByte)[j]? else (l.map ofByte)[j + 1]? := by
  induction n generalizing s c hole with
  | zero =>
    refine ⟨c, by rw [← hc]; rfl, fun j => ?_⟩
    rw [h j]
    by_cases hji : j < i
    · rw [if_pos hji, if_pos hji]
    · rw [if_neg hji, if_neg hji]
      by_cases hjh : j < hole
      · rw [if_pos hjh]
      · have hout : ∀ k, hole < k → (l.map (ofByte (P := P)))[k]? = none := fun k hk =>
          List.getElem?_eq_none (by rw [List.length_map]; omega)
        rw [if_neg hjh, hout (j + 1) (by omega)]
        split_ifs with hj
        · rfl
        · exact hout j (by omega)
  | succ n ih =>
    have hlt : hole + 1 < l.length := by omega
    have hget : c.get? (hole + 1) = some (ofByte l[hole + 1]) := by
      rw [h, if_neg (by omega), if_neg (by omega), if_neg (by omega), ofByte_getElem? hlt]
    obtain ⟨t, hrun, ht⟩ := ih
      (s := { s with children := (c.put hole (ofByte l[hole + 1])).erase (hole + 1) })
      (c := (c.put hole (ofByte l[hole + 1])).erase (hole + 1)) hs (hole + 1) (by omega) (by omega)
      rfl (fun j => by
        rw [Table.get?_erase, Table.get?_put, h j]
        by_cases hj : j = hole + 1
        · rw [if_pos hj, if_neg (by omega), if_neg (by omega), if_pos hj]
        · rw [if_neg hj]
          by_cases hjh : j = hole
          · rw [if_pos hjh, if_neg (by omega), if_pos (by omega), hjh, ofByte_getElem? hlt]
          · rw [if_neg hjh, if_neg hjh, if_neg hj]
            by_cases hlt' : j < hole
            · rw [if_pos hlt', if_pos (show j < hole + 1 by omega)]
            · rw [if_neg hlt', if_neg (show ¬ j < hole + 1 by omega)])
    refine ⟨t, ?_, ht⟩
    rw [shiftDown, bind_of_ok (getChild_apply (hole + 1) s), hc, hget,
      bind_of_ok (putChild_byte hs hole l[hole + 1]), hc]
    refine (bind_of_ok (Counted.deleteChild_made (hole + 1) ?_)).trans hrun
    exact hs

/-- Bytes put at the end of the rows, one after another. -/
theorem putAll_made (bs : List UInt8) (hs : s.created = true)
    (h : ∀ i, s.children.get? i = (l.map ofByte)[i]?) :
    ∃ t, putAll E l.length (bs.map fun b => some (ofByte b)) s =
        .ok (l ++ bs).length { s with children := t } ∧
      ∀ i, t.get? i = ((l ++ bs).map ofByte)[i]? := by
  induction bs generalizing s l with
  | nil => exact ⟨s.children, by simp [putAll]; rfl, by simpa using h⟩
  | cons b bs ih =>
    obtain ⟨t, hrun, ht⟩ := ih (s := { s with children := s.children.put l.length (ofByte b) })
      (l := l ++ [b]) hs (fun i => by
        have := Table.get?_put_append h (ofByte b) i
        rwa [List.length_map, ← List.map_singleton (f := ofByte), ← List.map_append] at this)
    refine ⟨t, ?_, by simpa using ht⟩
    rw [List.map_cons, putAll, bind_of_ok (putChild_byte hs l.length b)]
    simpa using hrun

/-! ## Each operation -/

theorem follows_ok {op : ByteOp P} {r : Option (Cell P)} (l' : List UInt8) (s' : Rows P)
    (hbytes : op.onBytes l = some (r, l')) (hrun : op.exec E s = .ok r s') (h : Holds E s' l') :
    op.Follows E s l := by
  rw [ByteOp.Follows, hbytes]
  exact ⟨s', hrun, h⟩

theorem follows_error {op : ByteOp P} (hbytes : op.onBytes l = none) {e : ViewError} {s' : Rows P}
    (hrun : op.exec E s = .error e s') (h : Holds E s' l) : op.Follows E s l := by
  rw [ByteOp.Follows, hbytes]
  exact ⟨e, s', hrun, h⟩

/-- A value that is no byte is refused before anything is written. -/
theorem raiseIf_checkByte {α : Type} {value : Offered P} (hv : byteOf value = none)
    (m : Unit → EStateM ViewError (Rows P) α) (s : Rows P) :
    (raiseIf (checkByte value) >>= m) s = .error .valueError s := by
  rw [checkByte_of_none hv]
  rfl

theorem checked {α : Type} {value : Offered P} {b : UInt8} (hv : byteOf value = some b)
    (m : Unit → EStateM ViewError (Rows P) α) (s : Rows P) :
    (raiseIf (checkByte value) >>= m) s = m () s := by
  rw [checkByte_of_some hv]
  rfl

/-- The state after `ensure_created`. -/
theorem Holds.make (h : Holds E s l) : ∃ s', FlatList.ensureCreated E.blocked s = .ok () s' ∧
    s'.created = true ∧ Holds E s' l :=
  ⟨_, h.ensureCreated.1, rfl, h.ensureCreated.2⟩

theorem Holds.len (h : Holds E s l) : s.len = l.length := by
  rw [h.lists.len, List.length_map]

theorem bytes_of_rows {t : Table Nat (Cell P)} (hs : s.created = true)
    (ht : ∀ i, t.get? i = (l.map ofByte)[i]?) :
    Holds E { s with children := t, length := some l.length } l :=
  ⟨⟨by simp [Counted.len], ht⟩, Or.inl hs, fun h => absurd (hs.symm.trans h) (by decide)⟩

theorem setItem_follows (h : Holds E s l) (address : Int) (value : Offered P) :
    (ByteOp.setItem address value).Follows E s l := by
  cases hv : byteOf value with
  | none =>
    exact follows_error (by simp [ByteOp.onBytes, hv]) (map_of_error (raiseIf_checkByte hv _ s)) h
  | some b =>
    cases hi : pyIndex l.length address with
    | none =>
      refine follows_error (e := .indexError) (by simp [ByteOp.onBytes, hv, hi]) ?_ h
      refine map_of_error ((checked hv _ s).trans ((bind_of_ok (get_apply s)).trans ?_))
      rw [normalizeAddress_eq, h.len, hi]
      rfl
    | some i =>
      obtain ⟨s', hmake, hs', h'⟩ := h.make
      have hlt : i < l.length := pyIndex_lt hi
      refine follows_ok (l.set i b) { s' with children := s'.children.put i (ofByte b) }
        (by rw [ByteOp.onBytes, hv, hi]; rfl) ?_ ?_
      · refine map_of_ok (a := ()) ((checked hv _ s).trans ((bind_of_ok (get_apply s)).trans ?_))
        rw [normalizeAddress_eq, h.len, hi]
        refine (bind_of_ok rfl).trans ((bind_of_ok hmake).trans ?_)
        rw [byteOf_eq_some hv]
        exact putChild_byte hs' i b
      · refine ⟨⟨?_, fun j => ?_⟩, Or.inl hs', fun hc => absurd (hs'.symm.trans hc) (by decide)⟩
        · rw [List.length_map, List.length_set]
          exact h'.len
        · rw [Table.get?_put, h'.lists.rows, List.getElem?_map, List.getElem?_map,
            List.getElem?_set]
          by_cases hj : j = i
          · rw [if_pos hj, if_pos hj.symm, if_pos hlt, Option.map_some]
          · rw [if_neg hj, if_neg fun hij => hj hij.symm]

theorem append_byte (h : Holds E s l) {value : Offered P} {b : UInt8} (hv : byteOf value = some b) :
    ∃ s', append E value s = .ok () s' ∧ Holds E s' (l ++ [b]) := by
  obtain ⟨s', hmake, hs', h'⟩ := h.make
  refine ⟨{ s' with
    children := s'.children.put l.length (ofByte b), length := some (l.length + 1) }, ?_, ?_⟩
  · rw [append, checked hv, bind_of_ok hmake, bind_of_ok (len_apply s'), h'.len,
      byteOf_eq_some hv, bind_of_ok (putChild_byte hs' l.length b)]
    rfl
  · have hrows := h'.lists.append (ofByte b)
    rw [List.length_map, ← List.map_singleton (f := ofByte), ← List.map_append] at hrows
    exact ⟨hrows, Or.inl hs', fun hc => absurd (hs'.symm.trans hc) (by decide)⟩

theorem append_follows (h : Holds E s l) (value : Offered P) :
    (ByteOp.append value).Follows E s l := by
  cases hv : byteOf value with
  | none =>
    exact follows_error (by rw [ByteOp.onBytes, hv]; rfl)
      (map_of_error (raiseIf_checkByte hv _ s)) h
  | some b =>
    obtain ⟨s', hrun, h'⟩ := append_byte h hv
    exact follows_ok _ s' (by rw [ByteOp.onBytes, hv]; rfl) (map_of_ok hrun) h'

theorem insert_follows (h : Holds E s l) (index : Int) (value : Offered P) :
    (ByteOp.insert index value).Follows E s l := by
  cases hv : byteOf value with
  | none =>
    exact follows_error (by rw [ByteOp.onBytes, hv]; rfl)
      (map_of_error (raiseIf_checkByte hv _ s)) h
  | some b =>
    obtain ⟨s', hmake, hs', h'⟩ := h.make
    have hle : insertAt l.length index ≤ l.length := insertAt_le _ _
    obtain ⟨t, hshift, ht⟩ := shiftUp_made (E := E) (l := l) hs' (insertAt l.length index)
      (l.length - insertAt l.length index) (by omega) rfl (fun j => by
        rw [h'.lists.rows]
        split_ifs with hj
        · rfl
        · rw [List.getElem?_eq_none (by rw [List.length_map]; omega),
            List.getElem?_eq_none (by rw [List.length_map]; omega)])
    have hlen : (l.insertIdx (pyInsertAt l.length index) b).length = l.length + 1 :=
      List.length_insertIdx_of_le_length (by rw [← insertAt_eq]; exact hle) _
    refine follows_ok (l.insertIdx (pyInsertAt l.length index) b)
      { s' with
        children := t.put (insertAt l.length index) (ofByte b), length := some (l.length + 1) }
      (by rw [ByteOp.onBytes, hv]; rfl) (map_of_ok (a := ()) ?_) ?_
    · rw [insert, checked hv, bind_of_ok hmake, bind_of_ok (len_apply s'), h'.len,
        bind_of_ok hshift, byteOf_eq_some hv]
      exact bind_of_ok (putChild_byte (s := { s' with children := t }) hs' _ b)
    · rw [← hlen]
      refine bytes_of_rows hs' fun j => ?_
      rw [Table.get?_put, ht, insertAt_eq]
      rw [insertAt_eq] at hle
      simp only [List.getElem?_map, List.getElem?_insertIdx]
      rcases lt_trichotomy j (pyInsertAt l.length index) with hj | hj | hj
      · rw [if_neg (by omega), if_pos (by omega), if_pos hj]
      · rw [if_pos hj, if_neg (by omega), if_pos hj, if_pos (by omega)]
        rfl
      · rw [if_neg (by omega), if_neg (by omega), if_neg (by omega), if_neg (by omega)]

/-- Deleting at an index that is there. -/
theorem delItem_byte (h : Holds E s l) {address : Int} {i : Nat}
    (hi : pyIndex l.length address = some i) :
    ∃ s', delItem E address s = .ok () s' ∧ Holds E s' (l.eraseIdx i) := by
  obtain ⟨s', hmake, hs', h'⟩ := h.make
  have hlt : i < l.length := pyIndex_lt hi
  obtain ⟨t, hshift, ht⟩ := shiftDown_made (E := E) (l := l)
    (s := { s' with children := s'.children.erase i }) hs' i i (l.length - (i + 1)) le_rfl
    (by omega) rfl (fun j => by
      rw [Table.get?_erase, h'.lists.rows]
      by_cases hji : j < i
      · rw [if_neg (by omega), if_pos hji]
      · rw [if_neg hji, if_neg hji])
  have hlen : (l.eraseIdx i).length = l.length - 1 := List.length_eraseIdx_of_lt hlt
  refine ⟨{ s' with children := t, length := some (l.length - 1) }, ?_, ?_⟩
  · rw [delItem, bind_of_ok (get_apply s), normalizeAddress_eq, h.len, hi]
    refine (bind_of_ok rfl).trans ((bind_of_ok hmake).trans ((bind_of_ok (len_apply s')).trans ?_))
    rw [h'.len, bind_of_ok (Counted.deleteChild_made i hs')]
    exact bind_of_ok hshift
  · rw [← hlen]
    refine bytes_of_rows hs' fun j => ?_
    rw [ht]
    simp only [List.getElem?_map, List.getElem?_eraseIdx]
    split_ifs <;> rfl

theorem delItem_none (h : Holds E s l) {address : Int} (hi : pyIndex l.length address = none) :
    delItem E address s = .error .indexError s := by
  rw [delItem, bind_of_ok (get_apply s), normalizeAddress_eq, h.len, hi]
  rfl

theorem delItem_follows (h : Holds E s l) (address : Int) :
    (ByteOp.delItem address).Follows E s l := by
  cases hi : pyIndex l.length address with
  | none =>
    exact follows_error (by rw [ByteOp.onBytes, hi]; rfl) (map_of_error (delItem_none h hi)) h
  | some i =>
    obtain ⟨s', hrun, h'⟩ := delItem_byte h hi
    exact follows_ok _ s' (by rw [ByteOp.onBytes, hi]; rfl) (map_of_ok hrun) h'

theorem getItem_byte (h : Holds E s l) {address : Int} {i : Nat}
    (hi : pyIndex l.length address = some i) :
    FlatList.getItem address s = .ok (ofByte (l.get ⟨i, pyIndex_lt hi⟩)) s := by
  rw [FlatList.getItem, bind_of_ok (get_apply s), normalizeAddress_eq, h.len, hi]
  refine (bind_of_ok rfl).trans ?_
  rw [h.lists.rows, ofByte_getElem? (pyIndex_lt hi)]
  rfl

theorem getItem_none (h : Holds E s l) {address : Int} (hi : pyIndex l.length address = none) :
    FlatList.getItem address s = .error .indexError s := by
  rw [FlatList.getItem, bind_of_ok (get_apply s), normalizeAddress_eq, h.len, hi]
  rfl

theorem pop_follows (h : Holds E s l) (index : Int) : (ByteOp.pop index).Follows E s l := by
  cases hi : pyIndex l.length index with
  | none =>
    refine follows_error (e := .indexError) (by rw [ByteOp.onBytes, hi]; rfl) (map_of_error ?_) h
    rw [pop, bind_of_ok (len_apply s), h.len]
    by_cases hl : l.length = 0
    · rw [if_pos hl]
      rfl
    · rw [if_neg hl]
      exact (bind_of_ok rfl).trans (bind_of_error (getItem_none h hi))
  | some i =>
    have hlt : i < l.length := pyIndex_lt hi
    obtain ⟨s', hrun, h'⟩ := delItem_byte h hi
    refine follows_ok (l.eraseIdx i) s' (r := some (ofByte l[i])) ?_ (map_of_ok ?_) h'
    · rw [ByteOp.onBytes, hi]
      simp [List.getElem?_eq_getElem hlt]
    · rw [pop, bind_of_ok (len_apply s), h.len, if_neg (by omega)]
      refine (bind_of_ok rfl).trans ((bind_of_ok (getItem_byte h hi)).trans ?_)
      exact bind_of_ok hrun

theorem clear_follows (h : Holds E s l) : (ByteOp.clear : ByteOp P).Follows E s l := by
  cases hs : s.created with
  | true =>
    refine follows_ok [] { s with children := ∅, length := some 0 } rfl
      (map_of_ok (FlatList.clear_made E.blocked hs)) ?_
    exact ⟨FlatList.lists_nil s.created (some 0) rfl, Or.inl hs, fun _ => rfl⟩
  | false =>
    refine follows_ok [] s rfl (map_of_ok (FlatList.clear_absent E.blocked hs)) ?_
    rwa [h.absent hs] at h

/-! ## Iterables -/

/-- An iterable that yields bytes only, and does not raise. -/
def AllBytes (values : Yields P) : Prop :=
  values.raises = none ∧ ∀ x ∈ values.values, isByte x = true

/-- An iterable that raises before it yields, or of which the first value is refused. -/
def FailsAtOnce (fails : Offered P → Prop) (values : Yields P) : Prop :=
  match values.values with
  | [] => values.raises ≠ none
  | x :: _ => fails x

/-- `put_child_primitive` refuses the value. -/
def PutFails (E : ByteEnv P) : Offered P → Prop
  | none => True
  | some value => refuses E value ≠ none

theorem mapM_byteOf {values : List (Offered P)} (h : ∀ x ∈ values, isByte x = true) :
    ∃ bs, values.mapM byteOf = some bs ∧ values = bs.map fun b => some (ofByte b) := by
  induction values with
  | nil => exact ⟨[], rfl, rfl⟩
  | cons x values ih =>
    obtain ⟨bs, hbs, rfl⟩ := ih fun y hy => h y (List.mem_cons_of_mem x hy)
    have hx := h x List.mem_cons_self
    rw [isByte_eq] at hx
    obtain ⟨b, hb⟩ := Option.isSome_iff_exists.1 hx
    refine ⟨b :: bs, ?_, by rw [List.map_cons, byteOf_eq_some hb]⟩
    rw [List.mapM_cons, hb, hbs]
    rfl

theorem AllBytes.bytesOf {values : Yields P} (h : AllBytes values) :
    ∃ bs, bytesOf values = some bs ∧ values.values = bs.map fun b => some (ofByte b) := by
  obtain ⟨bs, hbs, hvalues⟩ := mapM_byteOf h.2
  exact ⟨bs, by rw [ByteArrayView.bytesOf, if_pos h.1, hbs], hvalues⟩

theorem FailsAtOnce.bytesOf {fails : Offered P → Prop} {values : Yields P}
    (hfails : ∀ x, fails x → byteOf x = none) (h : FailsAtOnce fails values) :
    bytesOf values = none := by
  unfold ByteArrayView.bytesOf
  split_ifs with hraises
  · unfold FailsAtOnce at h
    split at h
    · exact absurd hraises h
    · rename_i x rest hvalues
      rw [hvalues, List.mapM_cons, hfails x h]
      rfl
  · rfl

theorem byteOf_of_isByte {x : Offered P} (h : isByte x = false) : byteOf x = none := by
  rwa [isByte_eq, Option.isSome_eq_false_iff, Option.isNone_iff_eq_none] at h

theorem byteOf_of_putFails {x : Offered P} (h : PutFails E x) : byteOf x = none := by
  cases hx : byteOf x with
  | none => rfl
  | some b =>
    rw [byteOf_eq_some hx] at h
    exact absurd (refuses_ofByte E b) h

theorem appendAll_bytes (h : Holds E s l) (bs : List UInt8) :
    ∃ s', (bs.map fun b => some (ofByte b)).forM (append E) s = .ok PUnit.unit s' ∧
      Holds E s' (l ++ bs) := by
  induction bs generalizing s l with
  | nil => exact ⟨s, rfl, by rwa [List.append_nil]⟩
  | cons b bs ih =>
    have hb : byteOf (some (ofByte b) : Offered P) = some b := by
      have hlt : b.toNat < 256 := b.toNat_lt
      simp only [ofByte, byteOf]
      rw [if_pos (by omega), Int.toNat_natCast, UInt8.ofNat_toNat]
    obtain ⟨s₁, happend, h₁⟩ := append_byte h hb
    obtain ⟨s', hrest, h'⟩ := ih h₁
    refine ⟨s', ?_, by rwa [List.append_assoc] at h'⟩
    exact (bind_of_ok happend).trans hrest

theorem extend_follows (h : Holds E s l) {values : Yields P}
    (hv : AllBytes values ∨ FailsAtOnce (fun x => isByte x = false) values) :
    (ByteOp.extend values).Follows E s l := by
  rcases hv with hv | hv
  · obtain ⟨bs, hbs, hvalues⟩ := hv.bytesOf
    obtain ⟨s', hrun, h'⟩ := appendAll_bytes h bs
    refine follows_ok (l ++ bs) s' (by rw [ByteOp.onBytes, hbs]; rfl) (map_of_ok (a := ()) ?_) h'
    rw [extend, hvalues, bind_of_ok hrun, hv.1]
    rfl
  · have hnone := hv.bytesOf fun x hx => byteOf_of_isByte hx
    unfold FailsAtOnce at hv
    split at hv
    · rename_i hvalues
      obtain ⟨e, he⟩ := Option.ne_none_iff_exists'.1 hv
      refine follows_error (e := e) (by rw [ByteOp.onBytes, hnone]; rfl) (map_of_error ?_) h
      rw [extend, hvalues, he]
      rfl
    · rename_i x rest hvalues
      refine follows_error (e := .valueError) (by rw [ByteOp.onBytes, hnone]; rfl)
        (map_of_error ?_) h
      rw [extend, hvalues]
      exact bind_of_error (bind_of_error (raiseIf_checkByte (byteOf_of_isByte hv) _ s))

theorem putChild_fails (hs : s.created = true) {x : Offered P} (hx : PutFails E x) (i : Nat) :
    ∃ e, putChild E i x s = .error e s := by
  cases x with
  | none => exact ⟨_, rfl⟩
  | some value =>
    obtain ⟨e, he⟩ := Option.ne_none_iff_exists'.1 hx
    refine ⟨e, ?_⟩
    rw [putChild, bind_of_ok (Counted.created_eq hs), he]
    rfl

/-- The rows after `store` cleared them, or did not. -/
theorem clear_holds (h : Holds E s l) (hs : s.created = true) (replace : Bool) :
    ∃ s', onlyIf replace (FlatList.clear E.blocked) s = .ok () s' ∧ s'.created = true ∧
      Holds E s' (if replace then [] else l) := by
  cases replace with
  | false => exact ⟨s, rfl, hs, h⟩
  | true =>
    refine ⟨{ s with children := ∅, length := some 0 }, FlatList.clear_made E.blocked hs, hs, ?_⟩
    exact ⟨FlatList.lists_nil s.created (some 0) rfl, Or.inl hs, fun _ => rfl⟩

theorem storeCount (h : Holds E s l) (replace : Bool) (hl : replace = true → l = []) :
    ((fun s : Rows P => if replace then 0 else s.len) <$> get :
      EStateM ViewError (Rows P) Nat) s = .ok l.length s := by
  refine congrArg (EStateM.Result.ok · s) ?_
  cases replace with
  | false => exact h.len
  | true => rw [hl rfl]; rfl

theorem store_follows (h : Holds E s l) {values : Yields P} {replace : Bool}
    (hv : AllBytes values ∨ (replace = false ∨ l = []) ∧ FailsAtOnce (PutFails E) values) :
    (ByteOp.store values replace).Follows E s l := by
  obtain ⟨s₁, hmake, hs₁, h₁⟩ := h.make
  obtain ⟨s₂, hclear, hs₂, h₂⟩ := clear_holds h₁ hs₁ replace
  have hcount := storeCount h₂ replace fun hr => if_pos hr
  rcases hv with hv | ⟨hl, hv⟩
  · obtain ⟨bs, hbs, hvalues⟩ := hv.bytesOf
    obtain ⟨t, hrun, ht⟩ := putAll_made (E := E) bs hs₂ h₂.lists.rows
    refine follows_ok ((if replace then [] else l) ++ bs)
      { s₂ with children := t, length := some ((if replace then [] else l) ++ bs).length } ?_
      (map_of_ok (a := ()) ?_) (bytes_of_rows hs₂ ht)
    · rw [ByteOp.onBytes, hbs]
      cases replace <;> rfl
    · rw [store, bind_of_ok hmake, bind_of_ok hclear, bind_of_ok hcount, hvalues, bind_of_ok hrun,
        hv.1]
      rfl
  · have hnone := hv.bytesOf fun x hx => byteOf_of_putFails hx
    have hsame : (if replace then [] else l) = l := by
      rcases hl with rfl | rfl
      · rfl
      · exact ite_self _
    have hstore : ∀ {e : ViewError}, (do
        let count ← putAll E l.length values.values
        raiseIf values.raises
        Counted.setLength count : EStateM ViewError (Rows P) Unit) s₂ = .error e s₂ →
        (ByteOp.store values replace).Follows E s l := by
      intro e he
      refine follows_error (e := e) (by rw [ByteOp.onBytes, hnone]; rfl) (map_of_error ?_)
        (by rwa [hsame] at h₂)
      rw [hsame] at hcount
      rw [store, bind_of_ok hmake, bind_of_ok hclear, bind_of_ok hcount]
      exact he
    unfold FailsAtOnce at hv
    split at hv
    · rename_i hvalues
      obtain ⟨e, he⟩ := Option.ne_none_iff_exists'.1 hv
      refine hstore (e := e) ?_
      rw [hvalues, he]
      rfl
    · rename_i x rest hvalues
      obtain ⟨e, he⟩ := putChild_fails (E := E) hs₂ hv l.length
      refine hstore (e := e) ?_
      rw [hvalues, putAll]
      exact bind_of_error (bind_of_error he)

end ByteArrayView

/-! ## Runs -/

open ByteArrayView

/-- An operation whose iterable is taken whole or refused before anything is written: `extend` gets
    bytes only, or fails at once; `store` gets bytes only, or fails at once with nothing cleared. -/
def ByteOp.Whole (E : ByteEnv P) (l : List UInt8) : ByteOp P → Prop
  | .extend values => AllBytes values ∨ FailsAtOnce (fun x => isByte x = false) values
  | .store values replace =>
    AllBytes values ∨ (replace = false ∨ l = []) ∧ FailsAtOnce (PutFails E) values
  | _ => True

/-- Every operation of a run, at the bytes it finds. -/
def WholeRun (E : ByteEnv P) : List UInt8 → List (ByteOp P) → Prop
  | _, [] => True
  | l, op :: ops => op.Whole E l ∧ WholeRun E (op.after l) ops

/-- The run of the bytearray: what each operation returns, and the bytes at the end. -/
def bytesRun : List UInt8 → List (ByteOp P) → List (Option (Option (Cell P))) × List UInt8
  | l, [] => ([], l)
  | l, op :: ops =>
    ((op.onBytes l).map Prod.fst :: (bytesRun (op.after l) ops).1, (bytesRun (op.after l) ops).2)

theorem ByteOp.follows {E : ByteEnv P} {s : Rows P} {l : List UInt8} (h : Holds E s l)
    (op : ByteOp P) (hop : op.Whole E l) : op.Follows E s l := by
  cases op with
  | setItem address value => exact setItem_follows h address value
  | append value => exact append_follows h value
  | insert index value => exact insert_follows h index value
  | extend values => exact extend_follows h hop
  | delItem address => exact delItem_follows h address
  | pop index => exact pop_follows h index
  | clear => exact clear_follows h
  | store values replace => exact store_follows h hop

/-- (PROVED) **The view is the bytearray.** From a view that holds bytes, or was never written, in
    every run whose iterables are taken whole or fail before anything is written: each operation
    returns what the bytearray's returns and raises where that raises, and at the end the rows are
    the bytes at the indexes from 0 to the length. -/
theorem bytes_run (E : ByteEnv P) {s : Rows P} {l : List UInt8} (h : Holds E s l)
    (ops : List (ByteOp P)) (hops : WholeRun E l ops) :
    (outcomes (ops.map (ByteOp.exec E)) s).1.map Except.toOption = (bytesRun l ops).1 ∧
      Holds E (outcomes (ops.map (ByteOp.exec E)) s).2 (bytesRun l ops).2 := by
  induction ops generalizing s l with
  | nil => exact ⟨rfl, h⟩
  | cons op ops ih =>
    have hfollows := op.follows h hops.1
    have hrest := hops.2
    rw [bytesRun]
    rw [ByteOp.Follows] at hfollows
    rw [ByteOp.after] at hrest ⊢
    cases hop : op.onBytes l with
    | none =>
      rw [hop] at hfollows hrest
      obtain ⟨e, s', hrun, h'⟩ := hfollows
      obtain ⟨hret, hend⟩ := ih h' hrest
      simp only [List.map_cons, outcomes, hrun]
      exact ⟨congrArg _ hret, hend⟩
    | some p =>
      rw [hop] at hfollows hrest
      obtain ⟨s', hrun, h'⟩ := hfollows
      obtain ⟨hret, hend⟩ := ih h' hrest
      simp only [List.map_cons, outcomes, hrun]
      exact ⟨congrArg _ hret, hend⟩

/-- A view never written is an empty bytearray. -/
theorem holds_absent (E : ByteEnv P) (hE : E.blocked = none) : Holds E (Counted.absent) [] :=
  ⟨FlatList.lists_nil false none rfl, Or.inr hE, fun _ => rfl⟩

/-- A codec that takes everything but EMPTY. -/
def takesAll : ByteEnv Unit := ⟨none, fun _ => none, fun _ => none⟩

/-- A run with an `extend` that is refused at its first value. -/
def refusedRun : List (ByteOp Unit) :=
  [.append (some (.int 7)), .store ⟨[some (.int 1), some (.int 2)], none⟩ false,
    .extend ⟨[some (.int 300)], none⟩, .insert 0 (some (.int 9)), .pop (-1)]

theorem bytes_run_refused :
    (outcomes (refusedRun.map (ByteOp.exec takesAll)) Counted.absent).1.map Except.toOption =
        (bytesRun [] refusedRun).1 ∧
      Holds takesAll (outcomes (refusedRun.map (ByteOp.exec takesAll)) Counted.absent).2
        (bytesRun [] refusedRun).2 := by
  refine bytes_run takesAll (holds_absent takesAll rfl) refusedRun ?_
  exact ⟨trivial, Or.inl ⟨rfl, by simp [isByte]⟩, Or.inr rfl, trivial, trivial, trivial⟩

/-- `store([300])` leaves a row that is no byte. -/
theorem store_no_byte :
    ¬ ∀ ops : List (ByteOp Unit), ∃ l : List UInt8,
      (outcomes (ops.map (ByteOp.exec takesAll)) Counted.absent).2.Lists (l.map ofByte) := by
  intro h
  obtain ⟨l, hl⟩ := h [.store ⟨[some (.int 300)], none⟩ true]
  have hrow := hl.rows 0
  rw [List.getElem?_map] at hrow
  have hmake : FlatList.ensureCreated (V := Cell Unit) takesAll.blocked Counted.absent =
      .ok () ⟨true, ∅, none⟩ := rfl
  have hstore : ByteArrayView.store takesAll ⟨[some (.int 300)], none⟩ true Counted.absent =
      .ok () ⟨true, (∅ : Table Nat (Cell Unit)).put 0 (.int 300), some 1⟩ := by
    rw [ByteArrayView.store, bind_of_ok hmake]
    exact bind_of_ok (FlatList.clear_made takesAll.blocked rfl)
  have h300 : (outcomes ([ByteOp.store ⟨[some (.int 300)], none⟩ true].map
      (ByteOp.exec takesAll)) Counted.absent).2.children.get? 0 = some (Cell.int 300) := by
    simp only [List.map_cons, List.map_nil, outcomes, ByteOp.exec, map_of_ok hstore]
    exact Table.get?_put_self _ _ _
  rw [h300] at hrow
  cases hb : l[0]? with
  | none =>
    rw [hb] at hrow
    cases hrow
  | some b =>
    rw [hb] at hrow
    have hint := Cell.int.inj (Option.some.inj hrow)
    have hlt : b.toNat < 256 := b.toNat_lt
    omega

end Virtuals.Views
