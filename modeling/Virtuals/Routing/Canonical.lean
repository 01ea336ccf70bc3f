/-
  `canonicalize`: the members of And and Or flattened, deduplicated by their sort key and sorted.
-/
import Virtuals.Routing.SortKey
import Mathlib.Data.Char
import Mathlib.Data.List.Lex

namespace Virtuals.Routing

open Lib

namespace Filter

/-! ## The canonical form -/

/-- The members `canonicalize` puts in place of a child of an And. -/
def membersAnd : Filter → List Filter
  | .and fs => fs
  | f => [f]

/-- The members `canonicalize` puts in place of a child of an Or. -/
def membersOr : Filter → List Filter
  | .or fs => fs
  | f => [f]

def isPassAll : Filter → Bool
  | .passAll => true
  | _ => false

def isPassNone : Filter → Bool
  | .passNone => true
  | _ => false

/-- The first filter of each sort key that is not `seen`. -/
def dedup (seen : List (List Char)) : List Filter → List Filter
  | [] => []
  | c :: cs =>
    if c.sortKey ∈ seen then dedup seen cs else c :: dedup (c.sortKey :: seen) cs

/-- `dedup.sort(key=_sort_key)`. -/
def sorted (fs : List Filter) : List Filter := fs.insertionSort fun f g => f.sortKey ≤ g.sortKey

/-- What remains of the members. -/
def collapse (combine : List Filter → Filter) (identity : Filter) : List Filter → Filter
  | [] => identity
  | [f] => f
  | fs => combine fs

mutual

/-- `canonicalize`. -/
def canonicalize : Filter → Filter
  | .prefixFilter s => if s = [] then .passAll else .prefixFilter s
  | .suffixFilter s => if s = [] then .passAll else .suffixFilter s
  | .wildcardFilter pattern =>
    if (pattern.all fun s => decide (s = WILDCARD)) = true then .lengthFilter pattern.length
    else .wildcardFilter pattern
  | .and fs =>
    let flat := (canonicalizeAll fs).flatMap membersAnd
    if flat.any isPassNone = true then .passNone
    else collapse .and .passAll (sorted (dedup [] (flat.filter fun c => !c.isPassAll)))
  | .or fs =>
    let flat := (canonicalizeAll fs).flatMap membersOr
    if flat.any isPassAll = true then .passAll
    else collapse .or .passNone (sorted (dedup [] (flat.filter fun c => !c.isPassNone)))
  | .lengthFilter n => .lengthFilter n
  | .passAll => .passAll
  | .passNone => .passNone

def canonicalizeAll : List Filter → List Filter
  | [] => []
  | f :: fs => canonicalize f :: canonicalizeAll fs

end

theorem canonicalizeAll_eq (fs : List Filter) : canonicalizeAll fs = fs.map canonicalize := by
  induction fs with
  | nil => rfl
  | cons f fs ih => rw [canonicalizeAll, ih, List.map_cons]

theorem mem_of_mem_dedup {seen : List (List Char)} {fs : List Filter} {f : Filter}
    (h : f ∈ dedup seen fs) : f ∈ fs := by
  induction fs generalizing seen with
  | nil => exact h
  | cons c cs ih =>
    rw [dedup] at h
    split_ifs at h
    · exact List.mem_cons_of_mem _ (ih h)
    · rcases List.mem_cons.1 h with rfl | h
      · exact List.mem_cons_self
      · exact List.mem_cons_of_mem _ (ih h)

/-- Of every sort key a filter is kept. -/
theorem exists_mem_dedup {seen : List (List Char)} {fs : List Filter} {f : Filter} (h : f ∈ fs)
    (hseen : f.sortKey ∉ seen) : ∃ g ∈ dedup seen fs, g.sortKey = f.sortKey := by
  induction fs generalizing seen with
  | nil => cases h
  | cons c cs ih =>
    rw [dedup]
    split_ifs with hc
    · rcases List.mem_cons.1 h with rfl | h
      · exact absurd hc hseen
      · exact ih h hseen
    · by_cases he : c.sortKey = f.sortKey
      · exact ⟨c, List.mem_cons_self, he⟩
      · rcases List.mem_cons.1 h with rfl | h
        · exact absurd rfl he
        · obtain ⟨g, hg, hgf⟩ := @ih (c.sortKey :: seen) h (by simp [Ne.symm he, hseen])
          exact ⟨g, List.mem_cons_of_mem _ hg, hgf⟩

theorem mem_sorted {fs : List Filter} {f : Filter} : f ∈ sorted fs ↔ f ∈ fs :=
  (List.perm_insertionSort _ _).mem_iff

theorem isPassAll_iff {f : Filter} : f.isPassAll = true ↔ f = .passAll := by
  cases f <;> simp [isPassAll]

theorem isPassNone_iff {f : Filter} : f.isPassNone = true ↔ f = .passNone := by
  cases f <;> simp [isPassNone]

def isLeaf : Filter → Bool
  | .and _ | .or _ => false
  | _ => true

end Filter

end Virtuals.Routing
