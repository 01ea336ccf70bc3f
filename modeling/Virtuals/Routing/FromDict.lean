/-
  `filter_from_dict` and `filter_hash`.

  A dict is read back as the filter that wrote it (`filterFromDict_toDict`). Two values that `to_dict`
  does not write are left out: a length given as text, and a list or a dict as a segment.
-/
import Virtuals.Routing.Rearranged

namespace Virtuals.Routing

open Lib

/-- What `filter_from_dict` raises; the last for a dict that is left out here. -/
inductive DictError
  | keyError
  | valueError
  | typeError
  | attributeError
  | leftOut
  deriving DecidableEq

namespace Filter

/-- `d.get(name)`. -/
def item? (name : PyStr) : List (PyStr × Json) → Option Json
  | [] => none
  | (k, v) :: items => if k = name then some v else item? name items

theorem sizeOf_item? {name : PyStr} {items : List (PyStr × Json)} {v : Json}
    (h : item? name items = some v) : sizeOf v < sizeOf items := by
  induction items with
  | nil => cases h
  | cons a items ih =>
    obtain ⟨k, w⟩ := a
    rw [item?] at h
    split_ifs at h
    · obtain rfl := Option.some.inj h
      simp
      omega
    · have := ih h
      simp
      omega

/-- `d[name]`. -/
def item (name : PyStr) (items : List (PyStr × Json)) : Except DictError Json :=
  match item? name items with
  | some v => .ok v
  | none => .error .keyError

/-- The items over which a value is iterated. -/
def iterate : Json → Except DictError (List Json)
  | .arr vs => .ok vs
  | .str s => .ok (s.map fun c => .str [c])
  | .obj items => .ok (items.map fun a => .str a.1)
  | .null | .bool _ | .int _ => .error .typeError

/-- An item as a segment. -/
def segmentOf : Json → Except DictError Segment
  | .null => .ok none
  | .bool b => .ok (some (.bool b))
  | .int i => .ok (some (.int i))
  | .str s => .ok (some (.str s))
  | .arr _ | .obj _ => .error .leftOut

/-- `tuple(v)` as segments. -/
def segmentsOf (v : Json) : Except DictError (List Segment) := do (← iterate v).mapM segmentOf

/-- `tuple(d[name])`. -/
def segmentsAt (name : PyStr) (items : List (PyStr × Json)) : Except DictError (List Segment) :=
  item name items >>= segmentsOf

/-- `int(v)`. -/
def intOf : Json → Except DictError Int
  | .int i => .ok i
  | .bool b => .ok (if b then 1 else 0)
  | .str _ => .error .leftOut
  | .null | .arr _ | .obj _ => .error .typeError

/-- The members of And or Or from a value that is no list: its items are texts, which have no `get`. -/
def membersOfText (v : Json) : Except DictError (List Filter) := do
  match ← iterate v with
  | [] => return []
  | _ :: _ => .error .attributeError

/-- `filter_from_dict`. -/
def filterFromDict : Json → Except DictError Filter
  | .obj items =>
    match item? (pyStr "type") items with
    | some (.str type) =>
      if type = pyStr "prefix" then .prefixFilter <$> segmentsAt (pyStr "prefix") items
      else if type = pyStr "suffix" then .suffixFilter <$> segmentsAt (pyStr "suffix") items
      else if type = pyStr "length" then .lengthFilter <$> (item (pyStr "length") items >>= intOf)
      else if type = pyStr "wildcard" then .wildcardFilter <$> segmentsAt (pyStr "pattern") items
      else if type = pyStr "pass_all" then .ok .passAll
      else if type = pyStr "pass_none" then .ok .passNone
      else if type = pyStr "and" ∨ type = pyStr "or" then
        (if type = pyStr "and" then .and else .or) <$>
          match _h : item? (pyStr "filters") items with
          | none => .error .keyError
          | some (.arr ds) => ds.attach.mapM fun ⟨d, _⟩ => filterFromDict d
          | some v => membersOfText v
      else .error .valueError
    | some (.arr _) | some (.obj _) => .error .typeError
    | _ => .error .valueError
  | _ => .error .attributeError
  decreasing_by
    have := sizeOf_item? _h
    have := List.sizeOf_lt_of_mem ‹_›
    simp at *
    omega

/-! ## Reading back what was written -/

theorem mapM_segmentOf (s : List Segment) :
    (s.map segmentJson).mapM segmentOf = .ok s := by
  induction s with
  | nil => rfl
  | cons a s ih =>
    have ha : segmentOf (segmentJson a) = .ok a := by rcases a with _ | (_ | _ | _) <;> rfl
    rw [List.map_cons, List.mapM_cons, ha, ih]
    rfl

theorem mapM_filterFromDict {fs : List Filter}
    (h : ∀ f ∈ fs, filterFromDict f.toDict = .ok f) :
    ((toDicts fs).attach.mapM fun ⟨d, _⟩ => filterFromDict d) = .ok fs := by
  rw [List.mapM_subtype (g := filterFromDict) fun _ _ => rfl, List.unattach_attach, toDicts_eq]
  induction fs with
  | nil => rfl
  | cons f fs ih =>
    rw [List.map_cons, List.mapM_cons, h f List.mem_cons_self,
      ih fun f hf => h f (List.mem_cons_of_mem _ hf)]
    rfl

/-- The fields of a dict with a type and one more field. -/
theorem item?_typed {name : PyStr} (type : PyStr) (v : Json) (h : pyStr "type" ≠ name) :
    item? (pyStr "type") [(pyStr "type", .str type), (name, v)] = some (.str type) ∧
      item? name [(pyStr "type", .str type), (name, v)] = some v :=
  ⟨if_pos rfl, (if_neg h).trans (if_pos rfl)⟩

theorem segmentsAt_typed (name type : PyStr) (s : List Segment)
    (h : pyStr "type" ≠ name) :
    segmentsAt name [(pyStr "type", .str type), (name, .arr (s.map segmentJson))] = .ok s := by
  rw [segmentsAt, item, (item?_typed type _ h).2]
  exact mapM_segmentOf s

/-- (PROVED) A filter is read back from its dict. -/
theorem filterFromDict_toDict (f : Filter) : filterFromDict f.toDict = .ok f := by
  induction f using induct with
  | prefixFilter s =>
    rw [toDict, filterFromDict, (item?_typed _ _ (by decide)).1]
    simp only [if_pos, segmentsAt_typed (pyStr "prefix") _ s (by decide)]
    rfl
  | suffixFilter s =>
    rw [toDict, filterFromDict, (item?_typed _ _ (by decide)).1]
    simp only [reduceIte, segmentsAt_typed (pyStr "suffix") _ s (by decide)]
    rfl
  | lengthFilter n =>
    rw [toDict, filterFromDict]
    rfl
  | wildcardFilter s =>
    rw [toDict, filterFromDict, (item?_typed _ _ (by decide)).1]
    simp only [reduceIte, segmentsAt_typed (pyStr "pattern") _ s (by decide)]
    rfl
  | and fs ih =>
    rw [toDict, filterFromDict, (item?_typed _ _ (by decide)).1]
    exact congrArg (Functor.map Filter.and) (mapM_filterFromDict ih)
  | or fs ih =>
    rw [toDict, filterFromDict, (item?_typed _ _ (by decide)).1]
    exact congrArg (Functor.map Filter.or) (mapM_filterFromDict ih)
  | _ =>
    rw [toDict, filterFromDict]
    rfl

/-- `filter_hash`, of the digest of a text. -/
def filterHash {Digest : Type} (sha256 : List Char → Digest) (f : Filter) : Digest :=
  sha256 f.canonicalize.sortKey

/-- (PROVED) Rearranged filters have one hash. -/
theorem filterHash_rearranged {Digest : Type} (sha256 : List Char → Digest) {f g : Filter}
    (h : Rearranged f g) : filterHash sha256 f = filterHash sha256 g := by
  rw [filterHash, filterHash, canonicalize_eq_rewrite, canonicalize_eq_rewrite, h.sortKey]

end Filter

end Virtuals.Routing
