/-
  Filters over keys: what they match, their dict form and their routing hints.

  The filters are those of the constructors of the source; a filter class of a user's own is left
  out. What a filter matches is covered by its hints (`covered_routingHints`).
-/
import Virtuals.Lib.Json
import Virtuals.Routing.Hints

namespace Virtuals.Routing

open Lib

inductive Filter where
  | prefixFilter (segments : List Segment)
  | suffixFilter (segments : List Segment)
  | lengthFilter (length : Int)
  | wildcardFilter (pattern : List Segment)
  | and (filters : List Filter)
  | or (filters : List Filter)
  | passAll
  | passNone

/-- `WILDCARD`. -/
def WILDCARD : Segment := some (.str (pyStr "*"))

namespace Filter

/-- Cases of a filter, the members of And and Or being smaller. -/
theorem induct {P : Filter → Prop} (prefixFilter : ∀ s, P (.prefixFilter s))
    (suffixFilter : ∀ s, P (.suffixFilter s)) (lengthFilter : ∀ n, P (.lengthFilter n))
    (wildcardFilter : ∀ p, P (.wildcardFilter p)) (and : ∀ fs, (∀ f ∈ fs, P f) → P (.and fs))
    (or : ∀ fs, (∀ f ∈ fs, P f) → P (.or fs)) (passAll : P .passAll) (passNone : P .passNone)
    (f : Filter) : P f :=
  @Filter.rec P (fun fs => ∀ f ∈ fs, P f) prefixFilter suffixFilter lengthFilter wildcardFilter
    and or passAll passNone (by simp) (fun _ _ hf hfs => by simpa using ⟨hf, hfs⟩) f

/-! ## Matching -/

mutual

/-- `matches`. -/
def matchesKey : Filter → Key → Bool
  | .prefixFilter s, key =>
    decide (s.length ≤ key.length) && sameTuple (key.take s.length) s
  | .suffixFilter s, key =>
    decide (s.length ≤ key.length) &&
      (s.isEmpty || sameTuple (key.drop (key.length - s.length)) s)
  | .lengthFilter n, key => decide ((key.length : Int) = n)
  | .wildcardFilter pattern, key =>
    decide (key.length = pattern.length) &&
      (key.zip pattern).all fun a => decide (a.2 = WILDCARD) || a.1.same a.2
  | .and fs, key => allMatch fs key
  | .or fs, key => anyMatch fs key
  | .passAll, _ => true
  | .passNone, _ => false

def allMatch : List Filter → Key → Bool
  | [], _ => true
  | f :: fs, key => f.matchesKey key && allMatch fs key

def anyMatch : List Filter → Key → Bool
  | [], _ => false
  | f :: fs, key => f.matchesKey key || anyMatch fs key

end

theorem allMatch_iff (fs : List Filter) (key : Key) :
    allMatch fs key = true ↔ ∀ f ∈ fs, f.matchesKey key = true := by
  induction fs with
  | nil => simp [allMatch]
  | cons f fs ih => simp [allMatch, ih]

theorem anyMatch_iff (fs : List Filter) (key : Key) :
    anyMatch fs key = true ↔ ∃ f ∈ fs, f.matchesKey key = true := by
  induction fs with
  | nil => simp [anyMatch]
  | cons f fs ih => simp [anyMatch, ih]

theorem matches_and (fs : List Filter) (key : Key) :
    (Filter.and fs).matchesKey key = true ↔ ∀ f ∈ fs, f.matchesKey key = true := by
  rw [matchesKey, allMatch_iff]

theorem matches_or (fs : List Filter) (key : Key) :
    (Filter.or fs).matchesKey key = true ↔ ∃ f ∈ fs, f.matchesKey key = true := by
  rw [matchesKey, anyMatch_iff]

/-! ## Dict form -/

/-- A segment in a dict. -/
def segmentJson : Segment → Json
  | some (.int v) => .int v
  | some (.bool v) => .bool v
  | some (.str v) => .str v
  | none => .null

mutual

/-- `to_dict`. -/
def toDict : Filter → Json
  | .prefixFilter s =>
    .obj [(pyStr "type", .str (pyStr "prefix")), (pyStr "prefix", .arr (s.map segmentJson))]
  | .suffixFilter s =>
    .obj [(pyStr "type", .str (pyStr "suffix")), (pyStr "suffix", .arr (s.map segmentJson))]
  | .lengthFilter n => .obj [(pyStr "type", .str (pyStr "length")), (pyStr "length", .int n)]
  | .wildcardFilter pattern =>
    .obj [(pyStr "type", .str (pyStr "wildcard")), (pyStr "pattern", .arr (pattern.map segmentJson))]
  | .and fs => .obj [(pyStr "type", .str (pyStr "and")), (pyStr "filters", .arr (toDicts fs))]
  | .or fs => .obj [(pyStr "type", .str (pyStr "or")), (pyStr "filters", .arr (toDicts fs))]
  | .passAll => .obj [(pyStr "type", .str (pyStr "pass_all"))]
  | .passNone => .obj [(pyStr "type", .str (pyStr "pass_none"))]

def toDicts : List Filter → List Json
  | [] => []
  | f :: fs => toDict f :: toDicts fs

end

theorem toDicts_eq (fs : List Filter) : toDicts fs = fs.map toDict := by
  induction fs with
  | nil => rfl
  | cons f fs ih => rw [toDicts, ih, List.map_cons]

/-- `_sort_key`. -/
def sortKey (f : Filter) : List Char := f.toDict.dumps

/-! ## Routing hints -/

/-- The positions of a pattern that are no wildcard, with their segments. -/
def fixedOf (pattern : List Segment) : List (Nat × Segment) :=
  (pattern.zipIdx.filter fun a => decide (a.1 ≠ WILDCARD)).map fun a => (a.2, a.1)

theorem mem_fixedOf {pattern : List Segment} {i : Nat} {s : Segment} :
    (i, s) ∈ fixedOf pattern ↔ pattern[i]? = some s ∧ s ≠ WILDCARD := by
  simp [fixedOf, List.mk_mem_zipIdx_iff_getElem?]

theorem fixedOf_inside (pattern : List Segment) : ∀ a ∈ fixedOf pattern, a.1 < pattern.length := by
  rintro ⟨i, s⟩ ha
  exact (List.getElem?_eq_some_iff.1 (mem_fixedOf.1 ha).1).1

mutual

/-- `routing_hints`. -/
def routingHints : Filter → List RoutingHint
  | .prefixFilter s => if s = [] then ALL else [.prefixHint s]
  | .suffixFilter s => if s = [] then ALL else [.suffixHint s]
  | .lengthFilter n => if 0 ≤ n then [.lengthHint n] else []
  | .wildcardFilter pattern =>
    if fixedOf pattern = [] then [.lengthHint pattern.length]
    else [.wildcardHint pattern.length (fixedOf pattern) (fixedOf_inside pattern)]
  | .and fs => andHints (allHints fs)
  | .or fs => orHints (allHints fs)
  | .passAll => ALL
  | .passNone => []

def allHints : List Filter → List (List RoutingHint)
  | [] => []
  | f :: fs => f.routingHints :: allHints fs

end

theorem allHints_eq (fs : List Filter) : allHints fs = fs.map routingHints := by
  induction fs with
  | nil => rfl
  | cons f fs ih => rw [allHints, ih, List.map_cons]

theorem covered_singleton {h : RoutingHint} {key : Key} : Covered [h] key ↔ h.covers key = true := by
  simp [Covered]

theorem wildcard_fixed_covered {pattern : List Segment} {key : Key}
    (hm : (Filter.wildcardFilter pattern).matchesKey key = true) :
    ∀ a ∈ fixedOf pattern, (key[a.1]?.any fun s => s.same a.2) = true := by
  simp only [matchesKey, Bool.and_eq_true, decide_eq_true_eq, List.all_eq_true] at hm
  obtain ⟨hlen, hall⟩ := hm
  rintro ⟨i, s⟩ ha
  obtain ⟨hs, hne⟩ := mem_fixedOf.1 ha
  obtain ⟨hi, hs⟩ := List.getElem?_eq_some_iff.1 hs
  have hik : i < key.length := by omega
  have := hall (key[i], s) (List.mem_iff_getElem.2 ⟨i, by simp [hi, hik], by simp [hs]⟩)
  simpa [hik, hne] using this

/-- (PROVED) The hints of a filter cover the keys it matches. -/
theorem covered_routingHints (f : Filter) (key : Key) (hm : f.matchesKey key = true) :
    Covered f.routingHints key := by
  induction f using induct with
  | prefixFilter s =>
    rw [routingHints]
    split_ifs
    · exact covered_ALL key
    · exact covered_singleton.2 (by simpa [matchesKey, RoutingHint.covers] using hm)
  | suffixFilter s =>
    rw [routingHints]
    split_ifs with hs
    · exact covered_ALL key
    · exact covered_singleton.2 (by simpa [matchesKey, RoutingHint.covers, hs] using hm)
  | lengthFilter n =>
    simp only [matchesKey, decide_eq_true_eq] at hm
    rw [routingHints, if_pos (by omega)]
    exact covered_singleton.2 (by simpa [RoutingHint.covers] using hm)
  | wildcardFilter pattern =>
    have hlen : key.length = pattern.length := by
      simp only [matchesKey, Bool.and_eq_true, decide_eq_true_eq] at hm
      exact hm.1
    rw [routingHints]
    split_ifs
    · exact covered_singleton.2 (by simp [RoutingHint.covers, hlen])
    · refine covered_singleton.2 ?_
      rw [RoutingHint.covers, Bool.and_eq_true, decide_eq_true_eq, List.all_eq_true]
      exact ⟨hlen, wildcard_fixed_covered hm⟩
  | and fs ih =>
    rw [matches_and] at hm
    rw [routingHints, allHints_eq]
    refine covered_andHints fun c hc => ?_
    obtain ⟨f, hf, rfl⟩ := List.mem_map.1 hc
    exact ih f hf (hm f hf)
  | or fs ih =>
    rw [matches_or] at hm
    obtain ⟨f, hf, hfm⟩ := hm
    rw [routingHints, allHints_eq]
    exact covered_orHints (List.mem_map_of_mem hf) (ih f hf hfm)
  | passAll => exact covered_ALL key
  | passNone => cases hm

end Filter

end Virtuals.Routing
