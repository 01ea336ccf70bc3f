/-
  What the sort key of a filter tells.

  The key is JSON text, and two strings with the same UTF-16 units are written alike: a surrogate
  pair spelled as two code points and the one code point it stands for. Filters with the same key
  are therefore `Alike`, the same but for such strings in their leaves, and a key ends where it
  ends (`sortKey_alike`).
-/
import Virtuals.Routing.Filter

namespace Virtuals.Routing

open Lib

namespace Filter

/-! ## The text of a leaf -/

def segmentText (s : Segment) : List Char := (segmentJson s).dumps

theorem intText_head (i : Int) : ∃ c w, intText i = c :: w ∧ isNumeric c = true := by
  rcases h : intText i with _ | ⟨c, w⟩
  · exact absurd h (intText_ne_nil i)
  · exact ⟨c, w, rfl, intText_isNumeric (i := i) (by simp [h])⟩

theorem intText_append_ne {i : Int} {x y : List Char} {c : Char} (hc : isNumeric c = false) :
    intText i ++ x ≠ c :: y := fun h => by
  obtain ⟨d, w, hd, hnum⟩ := intText_head i
  rw [hd] at h
  rw [(List.cons.inj h).1, hc] at hnum
  cases hnum

theorem segmentText_delimits (s : Segment) :
    DelimitsAt (Ends isNumeric) segmentText (fun s t => segmentText s = segmentText t) s := by
  intro t x y hx hy h
  rcases s with _ | (i | (_ | _) | s) <;> rcases t with _ | (j | (_ | _) | t)
  all_goals
    simp only [segmentText, segmentJson, Json.dumps, List.cons_append, List.nil_append] at h ⊢
  case some.int.some.int =>
    obtain ⟨rfl, hxy⟩ := delimits_intText hx hy h
    exact ⟨rfl, hxy⟩
  case some.str.some.str =>
    obtain ⟨hunits, hxy⟩ := Json.strText_delimits s trivial trivial h
    exact ⟨by rw [Json.strText, Json.strText, hunits], hxy⟩
  all_goals first
    | exact ⟨trivial, by simpa using h⟩
    | exact absurd h (intText_append_ne (by decide))
    | exact absurd h.symm (intText_append_ne (by decide))
    | simp [Json.strText] at h

theorem segmentText_notHead : NotHead segmentText ']' := by
  rintro (_ | (i | (_ | _) | s))
  case some.int =>
    obtain ⟨c, w, hw, hc⟩ := intText_head i
    refine ⟨c, w, hw, ?_⟩
    rintro rfl
    cases hc
  all_goals exact ⟨_, _, rfl, by decide⟩

/-- A closed list of segments. -/
theorem segments_inj {l m : List Segment} {x y : List Char}
    (h : separated ',' (l.map segmentText) ++ ']' :: x =
      separated ',' (m.map segmentText) ++ ']' :: y) :
    l.map segmentText = m.map segmentText ∧ x = y := by
  obtain ⟨hlm, hxy⟩ := separated_inj (fun _ => ends_cons (by decide)) (fun _ => ends_cons (by decide))
    (by decide) segmentText_notHead (fun s _ => segmentText_delimits s) h
  exact ⟨List.forall₂_eq_eq_eq ▸ List.forall₂_map_left_iff.2 (List.forall₂_map_right_iff.2 hlm), hxy⟩

/-! ## The text of a filter -/

theorem dumps_segments (s : List Segment) : (Json.arr (s.map segmentJson)).dumps =
    '[' :: (separated ',' (s.map segmentText) ++ [']']) := by
  rw [Json.dumps, Json.dumpsAll_eq, List.map_map]
  rfl

theorem dumps_filters (fs : List Filter) : (Json.arr (toDicts fs)).dumps =
    '[' :: (separated ',' (fs.map sortKey) ++ [']']) := by
  rw [Json.dumps, Json.dumpsAll_eq, toDicts_eq, List.map_map]
  rfl

/-- The text of a dict with a type and one more field. -/
theorem dumps_typed {name : PyStr} (type : PyStr) (v : Json) (h : ¬ pyStr "type" ≤ name) :
    (Json.obj [(pyStr "type", .str type), (name, v)]).dumps =
      '{' :: (Json.strText name ++ ':' :: (v.dumps ++ (",\"type\":".toList ++
        (Json.strText type ++ ['}'])))) := by
  rw [Json.dumps_obj_pair _ _ h]
  simp [separated, Json.dumps, show Json.strText (pyStr "type") = "\"type\"".toList by decide]

@[simp] theorem sortKey_prefixFilter (s : List Segment) : sortKey (.prefixFilter s) =
    "\x7b\"prefix\":[".toList ++ (separated ',' (s.map segmentText) ++
      ']' :: ",\"type\":\"prefix\"\x7d".toList) := by
  rw [sortKey, toDict, dumps_typed _ _ (by decide), dumps_segments,
    show Json.strText (pyStr "prefix") = "\"prefix\"".toList by decide]
  simp

@[simp] theorem sortKey_suffixFilter (s : List Segment) : sortKey (.suffixFilter s) =
    "\x7b\"suffix\":[".toList ++ (separated ',' (s.map segmentText) ++
      ']' :: ",\"type\":\"suffix\"\x7d".toList) := by
  rw [sortKey, toDict, dumps_typed _ _ (by decide), dumps_segments,
    show Json.strText (pyStr "suffix") = "\"suffix\"".toList by decide]
  simp

@[simp] theorem sortKey_wildcardFilter (s : List Segment) : sortKey (.wildcardFilter s) =
    "\x7b\"pattern\":[".toList ++ (separated ',' (s.map segmentText) ++
      ']' :: ",\"type\":\"wildcard\"\x7d".toList) := by
  rw [sortKey, toDict, dumps_typed _ _ (by decide), dumps_segments,
    show Json.strText (pyStr "pattern") = "\"pattern\"".toList by decide,
    show Json.strText (pyStr "wildcard") = "\"wildcard\"".toList by decide]
  simp

@[simp] theorem sortKey_lengthFilter (n : Int) : sortKey (.lengthFilter n) =
    "\x7b\"length\":".toList ++ (intText n ++ ",\"type\":\"length\"\x7d".toList) := by
  rw [sortKey, toDict, dumps_typed _ _ (by decide), Json.dumps,
    show Json.strText (pyStr "length") = "\"length\"".toList by decide]
  simp

@[simp] theorem sortKey_and (fs : List Filter) : sortKey (.and fs) =
    "\x7b\"filters\":[".toList ++ (separated ',' (fs.map sortKey) ++
      ']' :: ",\"type\":\"and\"\x7d".toList) := by
  rw [sortKey, toDict, dumps_typed _ _ (by decide), dumps_filters,
    show Json.strText (pyStr "filters") = "\"filters\"".toList by decide,
    show Json.strText (pyStr "and") = "\"and\"".toList by decide]
  simp

@[simp] theorem sortKey_or (fs : List Filter) : sortKey (.or fs) =
    "\x7b\"filters\":[".toList ++ (separated ',' (fs.map sortKey) ++
      ']' :: ",\"type\":\"or\"\x7d".toList) := by
  rw [sortKey, toDict, dumps_typed _ _ (by decide), dumps_filters,
    show Json.strText (pyStr "filters") = "\"filters\"".toList by decide,
    show Json.strText (pyStr "or") = "\"or\"".toList by decide]
  simp

@[simp] theorem sortKey_passAll : sortKey .passAll = "\x7b\"type\":\"pass_all\"\x7d".toList := by decide

@[simp] theorem sortKey_passNone : sortKey .passNone = "\x7b\"type\":\"pass_none\"\x7d".toList := by decide

theorem sortKey_notHead : NotHead sortKey ']' := by
  have hhead : ∀ f, ∃ w, sortKey f = '{' :: w := by
    intro f
    cases f <;> simp only [sortKey, toDict, Json.dumps] <;> exact ⟨_, rfl⟩
  intro f
  obtain ⟨w, hw⟩ := hhead f
  exact ⟨_, w, hw, by decide⟩

/-! ## Filters with one key -/

/-- The same but for the strings in the leaves, which are written alike. -/
inductive Alike : Filter → Filter → Prop where
  | prefixFilter {s t} (h : s.map segmentText = t.map segmentText) :
    Alike (.prefixFilter s) (.prefixFilter t)
  | suffixFilter {s t} (h : s.map segmentText = t.map segmentText) :
    Alike (.suffixFilter s) (.suffixFilter t)
  | wildcardFilter {s t} (h : s.map segmentText = t.map segmentText) :
    Alike (.wildcardFilter s) (.wildcardFilter t)
  | lengthFilter n : Alike (.lengthFilter n) (.lengthFilter n)
  | and {fs gs} (h : List.Forall₂ Alike fs gs) : Alike (.and fs) (.and gs)
  | or {fs gs} (h : List.Forall₂ Alike fs gs) : Alike (.or fs) (.or gs)
  | passAll : Alike .passAll .passAll
  | passNone : Alike .passNone .passNone

/-- (PROVED) A sort key tells the filter, but for how its strings are spelled, and where it ends. -/
theorem sortKey_alike (f : Filter) : DelimitsAt (fun _ => True) sortKey Alike f := by
  have hmembers : ∀ {fs gs : List Filter} {x y : List Char},
      (∀ f ∈ fs, DelimitsAt (fun _ => True) sortKey Alike f) →
      separated ',' (fs.map sortKey) ++ ']' :: x = separated ',' (gs.map sortKey) ++ ']' :: y →
      List.Forall₂ Alike fs gs ∧ x = y := fun hfs h =>
    separated_inj (fun _ => trivial) (fun _ => trivial) (by decide) sortKey_notHead hfs h
  have hsegments : ∀ {s t : List Segment} {v x y : List Char},
      separated ',' (s.map segmentText) ++ ']' :: (v ++ x) =
        separated ',' (t.map segmentText) ++ ']' :: (v ++ y) →
      s.map segmentText = t.map segmentText ∧ x = y := fun h =>
    (segments_inj h).imp_right List.append_cancel_left
  induction f using induct with
  | prefixFilter s =>
    intro g x y _ _ h
    cases g with
    | prefixFilter t =>
      simp only [sortKey_prefixFilter, List.append_assoc, List.append_cancel_left_eq,
        List.cons_append] at h
      obtain ⟨hst, hxy⟩ := hsegments h
      exact ⟨.prefixFilter hst, hxy⟩
    | _ => simp at h
  | suffixFilter s =>
    intro g x y _ _ h
    cases g with
    | suffixFilter t =>
      simp only [sortKey_suffixFilter, List.append_assoc, List.append_cancel_left_eq,
        List.cons_append] at h
      obtain ⟨hst, hxy⟩ := hsegments h
      exact ⟨.suffixFilter hst, hxy⟩
    | _ => simp at h
  | wildcardFilter s =>
    intro g x y _ _ h
    cases g with
    | wildcardFilter t =>
      simp only [sortKey_wildcardFilter, List.append_assoc, List.append_cancel_left_eq,
        List.cons_append] at h
      obtain ⟨hst, hxy⟩ := hsegments h
      exact ⟨.wildcardFilter hst, hxy⟩
    | _ => simp at h
  | lengthFilter n =>
    intro g x y _ _ h
    cases g with
    | lengthFilter m =>
      simp only [sortKey_lengthFilter, List.append_assoc, List.append_cancel_left_eq] at h
      obtain ⟨rfl, hxy⟩ := delimits_intText (by simp [Ends, isNumeric]) (by simp [Ends, isNumeric]) h
      exact ⟨.lengthFilter n, List.append_cancel_left hxy⟩
    | _ => simp at h
  | and fs ih =>
    intro g x y _ _ h
    cases g with
    | and gs =>
      simp only [sortKey_and, List.append_assoc, List.append_cancel_left_eq, List.cons_append] at h
      obtain ⟨hfg, hxy⟩ := hmembers ih h
      exact ⟨.and hfg, List.append_cancel_left hxy⟩
    | or gs =>
      simp only [sortKey_and, sortKey_or, List.append_assoc, List.append_cancel_left_eq,
        List.cons_append] at h
      obtain ⟨-, hxy⟩ := hmembers ih h
      simp at hxy
    | _ => simp at h
  | or fs ih =>
    intro g x y _ _ h
    cases g with
    | or gs =>
      simp only [sortKey_or, List.append_assoc, List.append_cancel_left_eq, List.cons_append] at h
      obtain ⟨hfg, hxy⟩ := hmembers ih h
      exact ⟨.or hfg, List.append_cancel_left hxy⟩
    | and gs =>
      simp only [sortKey_and, sortKey_or, List.append_assoc, List.append_cancel_left_eq,
        List.cons_append] at h
      obtain ⟨-, hxy⟩ := hmembers ih h
      simp at hxy
    | _ => simp at h
  | passAll =>
    intro g x y _ _ h
    cases g with
    | passAll => exact ⟨.passAll, List.append_cancel_left h⟩
    | _ => simp at h
  | passNone =>
    intro g x y _ _ h
    cases g with
    | passNone => exact ⟨.passNone, List.append_cancel_left h⟩
    | _ => simp at h

theorem alike_of_sortKey {f g : Filter} (h : sortKey f = sortKey g) : Alike f g :=
  (sortKey_alike f (x := []) (y := []) trivial trivial (by rw [h])).1

end Filter

end Virtuals.Routing
