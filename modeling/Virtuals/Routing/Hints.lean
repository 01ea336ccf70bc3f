/-
  Key segments and routing hints.

  A key is made of `str` and `int` segments (`bool` is an `int`); Python compares them with `==`,
  which identifies `True` with 1. A filter may hold other objects as well; `None` stands for them:
  it equals no key segment and cannot be encoded. A wildcard hint carries its positions inside its
  length, so looking them up in a key of that length cannot fail.
-/
import Virtuals.Lib.Text

namespace Virtuals.Routing

open Lib

inductive KeySegment where
  | int (v : Int)
  | bool (v : Bool)
  | str (v : PyStr)
  deriving DecidableEq

/-- `Key`. -/
abbrev Key := List KeySegment

/-- A segment of a filter: that of a key, or `None`. -/
abbrev Segment := Option KeySegment

namespace KeySegment

/-- What `==` compares. -/
def norm : KeySegment → Int ⊕ PyStr
  | .int v => .inl v
  | .bool v => .inl v.toInt
  | .str v => .inr v

/-- `a == b`, for a filter's `b`. -/
def same (a : KeySegment) (b : Segment) : Bool := decide (some a.norm = b.map norm)

end KeySegment

/-- `a == b` of two filters' segments. -/
def Segment.same (a b : Segment) : Bool := decide (a.map KeySegment.norm = b.map KeySegment.norm)

/-- `key == segments`, as tuples. -/
def sameTuple : Key → List Segment → Bool
  | [], [] => true
  | a :: key, b :: segments => a.same b && sameTuple key segments
  | _, _ => false

theorem sameTuple_iff (key : Key) (segments : List Segment) :
    sameTuple key segments = true ↔
      (key.map fun a => some a.norm) = segments.map fun b => b.map KeySegment.norm := by
  induction key generalizing segments with
  | nil => cases segments <;> simp [sameTuple]
  | cons a key ih =>
    cases segments with
    | nil => simp [sameTuple]
    | cons b segments => simp [sameTuple, KeySegment.same, ih]

theorem sameTuple_congr {key : Key} {s t : List Segment}
    (h : (s.map fun b => b.map KeySegment.norm) = t.map fun b => b.map KeySegment.norm) :
    sameTuple key s = sameTuple key t := by
  rw [Bool.eq_iff_iff, sameTuple_iff, sameTuple_iff, h]

/-- `RoutingHint`; `fixed` are the positions of a wildcard hint with their segments. -/
inductive RoutingHint where
  | prefixHint (segments : List Segment)
  | suffixHint (segments : List Segment)
  | lengthHint (length : Int)
  | wildcardHint (length : Nat) (fixed : List (Nat × Segment)) (inside : ∀ a ∈ fixed, a.1 < length)
  | allHint
  deriving DecidableEq

namespace RoutingHint

/-- `covers`. -/
def covers : RoutingHint → Key → Bool
  | .allHint, _ => true
  | .lengthHint n, key => decide ((key.length : Int) = n)
  | .prefixHint segments, key =>
    decide (segments.length ≤ key.length) && sameTuple (key.take segments.length) segments
  | .suffixHint segments, key =>
    decide (segments.length ≤ key.length) &&
      sameTuple (key.drop (key.length - segments.length)) segments
  | .wildcardHint n fixed _, key =>
    decide (key.length = n) && fixed.all fun a => key[a.1]?.any fun s => s.same a.2

/-- `rank`: lower is more selective. -/
def rank : RoutingHint → Nat × Int
  | .prefixHint segments => (0, -segments.length)
  | .wildcardHint _ fixed _ => (1, -fixed.length)
  | .suffixHint segments => (2, -segments.length)
  | .lengthHint _ => (3, 0)
  | .allHint => (9, 0)

/-- `==`. -/
def same : RoutingHint → RoutingHint → Bool
  | .prefixHint s, .prefixHint t | .suffixHint s, .suffixHint t =>
    decide ((s.map fun b => b.map KeySegment.norm) = t.map fun b => b.map KeySegment.norm)
  | .lengthHint m, .lengthHint n => decide (m = n)
  | .wildcardHint m fixed _, .wildcardHint n fixed' _ =>
    decide (m = n) && decide ((fixed.map fun a => (a.1, a.2.map KeySegment.norm)) =
      fixed'.map fun a => (a.1, a.2.map KeySegment.norm))
  | .allHint, .allHint => true
  | _, _ => false

theorem fixed_all_congr {key : Key} {s t : List (Nat × Segment)}
    (h : (s.map fun a => (a.1, a.2.map KeySegment.norm)) =
      t.map fun a => (a.1, a.2.map KeySegment.norm)) :
    (s.all fun a => key[a.1]?.any fun k => k.same a.2) =
      t.all fun a => key[a.1]?.any fun k => k.same a.2 := by
  have hall : ∀ u : List (Nat × Segment), (u.all fun a => key[a.1]?.any fun k => k.same a.2) =
      (u.map fun a => (a.1, a.2.map KeySegment.norm)).all fun a =>
        key[a.1]?.any fun k => decide (some k.norm = a.2) := by
    intro u
    rw [List.all_map]
    rfl
  rw [hall, hall, h]

/-- Equal hints cover the same keys. -/
theorem covers_of_same {g h : RoutingHint} (hs : g.same h = true) (key : Key) :
    g.covers key = h.covers key := by
  cases g <;> cases h <;> simp only [same, Bool.and_eq_true, decide_eq_true_eq] at hs
  case prefixHint.prefixHint s t =>
    have hlen : s.length = t.length := by simpa using congrArg List.length hs
    simp only [covers, hlen, sameTuple_congr hs]
  case suffixHint.suffixHint s t =>
    have hlen : s.length = t.length := by simpa using congrArg List.length hs
    simp only [covers, hlen, sameTuple_congr hs]
  case lengthHint.lengthHint m n => rw [hs]
  case wildcardHint.wildcardHint =>
    obtain ⟨rfl, hs⟩ := hs
    simp only [covers, fixed_all_congr hs]
  case allHint.allHint => rfl
  all_goals cases hs

end RoutingHint

/-- `ALL`. -/
def ALL : List RoutingHint := [.allHint]

/-! ## Hints of And and Or -/

/-- `a < b`, as tuples. -/
def rankLt (a b : Nat × Int) : Bool := decide (a.1 < b.1) || (decide (a.1 = b.1) && decide (a.2 < b.2))

/-- `max(h.rank() for h in hints)`. -/
def maxRank : List RoutingHint → Nat × Int
  | [] => (0, 0)
  | h :: hs => hs.foldl (fun m h => if rankLt m h.rank = true then h.rank else m) h.rank

/-- `_score(b) < _score(a)`. -/
def scoreLt (b a : List RoutingHint) : Bool :=
  rankLt (maxRank b) (maxRank a) || (decide (maxRank b = maxRank a) && decide (b.length < a.length))

/-- `min` by `_score`, the first on ties; `best` is the least so far. -/
def minScore (best : List RoutingHint) : List (List RoutingHint) → List RoutingHint
  | [] => best
  | c :: cs => if scoreLt c best = true then minScore c cs else minScore best cs

/-- `and_hints`. -/
def andHints (children : List (List RoutingHint)) : List RoutingHint :=
  match children with
  | [] => ALL
  | c :: cs => if [] ∈ c :: cs then [] else minScore c cs

/-- The loop of `or_hints`, with the hints so far. -/
def orHintsLoop (out : List RoutingHint) : List RoutingHint → List RoutingHint
  | [] => out
  | h :: hs =>
    if h = .allHint then ALL
    else if out.any (fun g => g.same h) = true then orHintsLoop out hs
    else orHintsLoop (out ++ [h]) hs

/-- `or_hints`. -/
def orHints (children : List (List RoutingHint)) : List RoutingHint :=
  orHintsLoop [] children.flatten

/-- One of the hints covers `key`. -/
def Covered (hints : List RoutingHint) (key : Key) : Prop := ∃ h ∈ hints, h.covers key = true

theorem covered_ALL (key : Key) : Covered ALL key := ⟨.allHint, by simp [ALL], rfl⟩

theorem minScore_mem (best : List RoutingHint) (cs : List (List RoutingHint)) :
    minScore best cs ∈ best :: cs := by
  induction cs generalizing best with
  | nil => simp [minScore]
  | cons c cs ih =>
    rw [minScore]
    split_ifs
    · exact List.mem_cons_of_mem _ (ih c)
    · rcases List.mem_cons.1 (ih best) with h | h
      · rw [h]
        exact List.mem_cons_self
      · exact List.mem_cons_of_mem _ (List.mem_cons_of_mem _ h)

/-- A key that every child covers is covered by the hints of the And. -/
theorem covered_andHints {children : List (List RoutingHint)} {key : Key}
    (h : ∀ c ∈ children, Covered c key) : Covered (andHints children) key := by
  cases children with
  | nil => exact covered_ALL key
  | cons c cs =>
    rw [andHints]
    split_ifs with hnil
    · obtain ⟨g, hg, -⟩ := h [] hnil
      cases hg
    · exact h _ (minScore_mem c cs)

theorem covered_orHintsLoop {out hs : List RoutingHint} {key : Key}
    (h : Covered (out ++ hs) key) : Covered (orHintsLoop out hs) key := by
  induction hs generalizing out with
  | nil => simpa [orHintsLoop] using h
  | cons g hs ih =>
    rw [orHintsLoop]
    split_ifs with hall hmem
    · exact covered_ALL key
    · refine ih ?_
      obtain ⟨f, hf, hcov⟩ := h
      rcases List.mem_append.1 hf with hf | hf
      · exact ⟨f, List.mem_append_left _ hf, hcov⟩
      · rcases List.mem_cons.1 hf with rfl | hf
        · obtain ⟨e, he, hsame⟩ := List.any_eq_true.1 hmem
          exact ⟨e, List.mem_append_left _ he, by rw [RoutingHint.covers_of_same hsame]; exact hcov⟩
        · exact ⟨f, List.mem_append_right _ hf, hcov⟩
    · exact ih (by simpa using h)

/-- A key that some child covers is covered by the hints of the Or. -/
theorem covered_orHints {children : List (List RoutingHint)} {c : List RoutingHint} {key : Key}
    (hc : c ∈ children) (h : Covered c key) : Covered (orHints children) key := by
  obtain ⟨g, hg, hcov⟩ := h
  exact covered_orHintsLoop ⟨g, by simpa using ⟨c, hc, hg⟩, hcov⟩

end Virtuals.Routing
