/-
  Elements put at a place of a list that is named by its neighbour.

  Whatever the place, the element comes between a beginning of the list and its rest (`put_split`): the
  others keep their order, and none is lost. Next to an element that the list has, it comes directly
  before or after it.
-/
import Mathlib.Data.List.Basic
import Mathlib.Data.List.Nodup

namespace Virtuals.Lib

variable {K : Type}

/-- A place in a list: an end of it, or next to an element. -/
inductive Spot (K : Type)
  | first
  | last
  | before (ref : K)
  | after (ref : K)
  deriving DecidableEq, Repr

variable [DecidableEq K]

/-- Put an element at a place. -/
def Spot.put (k : K) (l : List K) : Spot K → List K
  | .first => k :: l
  | .last => l ++ [k]
  | .before ref => l.takeWhile (· ≠ ref) ++ k :: l.dropWhile (· ≠ ref)
  | .after ref => (l.takeWhile (· ≠ ref) ++ (l.dropWhile (· ≠ ref)).take 1) ++
      k :: (l.dropWhile (· ≠ ref)).drop 1

/-- Take an element out of a list and put it at a place. -/
def Spot.move (k : K) (l : List K) (spot : Spot K) : List K := spot.put k (l.filter (· ≠ k))

namespace Spot

/-- The element comes between a beginning and the rest. -/
theorem put_split (k : K) (l : List K) (spot : Spot K) :
    ∃ a b, l = a ++ b ∧ spot.put k l = a ++ k :: b := by
  cases spot with
  | first => exact ⟨[], l, rfl, rfl⟩
  | last => exact ⟨l, [], (List.append_nil l).symm, rfl⟩
  | before ref => exact ⟨_, _, (List.takeWhile_append_dropWhile).symm, rfl⟩
  | after ref =>
    refine ⟨_, _, ?_, rfl⟩
    rw [List.append_assoc, List.take_append_drop, List.takeWhile_append_dropWhile]

theorem put_perm (k : K) (l : List K) (spot : Spot K) : (spot.put k l).Perm (k :: l) := by
  obtain ⟨a, b, rfl, hput⟩ := put_split k l spot
  rw [hput]
  exact List.perm_middle

theorem mem_put {k j : K} {l : List K} {spot : Spot K} : j ∈ spot.put k l ↔ j = k ∨ j ∈ l := by
  rw [(put_perm k l spot).mem_iff, List.mem_cons]

theorem takeWhile_split {j : K} {a b : List K} (hj : j ∉ a) :
    (a ++ j :: b).takeWhile (· ≠ j) = a ∧ (a ++ j :: b).dropWhile (· ≠ j) = j :: b := by
  induction a with
  | nil => simp
  | cons c a ih =>
    obtain ⟨hc, ha⟩ := not_or.1 (List.mem_cons.not.1 hj)
    have hcj : ¬ c = j := fun he => hc he.symm
    rw [List.cons_append, List.takeWhile_cons, List.dropWhile_cons]
    simp only [hcj, ne_eq, not_false_eq_true, decide_true, if_true]
    exact ⟨congrArg _ (ih ha).1, (ih ha).2⟩

/-- Directly before an element. -/
theorem put_before {j : K} {a b : List K} (k : K) (hj : j ∉ a) :
    (before j).put k (a ++ j :: b) = a ++ k :: j :: b := by
  rw [put, (takeWhile_split hj).1, (takeWhile_split hj).2]

/-- Directly after an element. -/
theorem put_after {j : K} {a b : List K} (k : K) (hj : j ∉ a) :
    (after j).put k (a ++ j :: b) = a ++ j :: k :: b := by
  rw [put, (takeWhile_split hj).1, (takeWhile_split hj).2]
  simp

theorem filter_middle {k : K} {a b : List K} (h : (a ++ k :: b).Nodup) :
    (a ++ k :: b).filter (· ≠ k) = a ++ b := by
  have hk : k ∉ a ++ b := (List.nodup_cons.1 (List.nodup_middle.1 h)).1
  have hkeep : ∀ c : List K, k ∉ c → c.filter (· ≠ k) = c := fun c hc =>
    List.filter_eq_self.2 fun x hx => decide_eq_true fun he => hc (he ▸ hx)
  rw [List.mem_append, not_or] at hk
  rw [List.filter_append, List.filter_cons_of_neg (by simp), hkeep a hk.1, hkeep b hk.2]

/-- An element moved to where it stands. -/
theorem move_before_self {k j : K} {a b : List K} (h : (a ++ k :: j :: b).Nodup) :
    (before j).move k (a ++ k :: j :: b) = a ++ k :: j :: b := by
  have hj : j ∉ a := fun hmem =>
    (List.nodup_append.1 h).2.2 j hmem j (List.mem_cons_of_mem _ List.mem_cons_self) rfl
  rw [move, filter_middle h, put_before k hj]

theorem move_after_self {k j : K} {a b : List K} (h : (a ++ j :: k :: b).Nodup) :
    (after j).move k (a ++ j :: k :: b) = a ++ j :: k :: b := by
  have hj : j ∉ a := fun hmem => (List.nodup_append.1 h).2.2 j hmem j List.mem_cons_self rfl
  have hfilter : (a ++ j :: k :: b).filter (· ≠ k) = a ++ j :: b := by
    have hassoc : ∀ c : List K, a ++ j :: c = (a ++ [j]) ++ c := fun c => by simp
    rw [hassoc] at h
    rw [hassoc (k :: b), hassoc b, filter_middle h]
  rw [move, hfilter, put_after k hj]

theorem move_first_self {k : K} {l : List K} (h : (k :: l).Nodup) : first.move k (k :: l) = k :: l := by
  have hfilter : (k :: l).filter (· ≠ k) = l := filter_middle (a := []) h
  rw [move, hfilter, put]

theorem move_last_self {k : K} {l : List K} (h : (l ++ [k]).Nodup) :
    last.move k (l ++ [k]) = l ++ [k] := by
  rw [move, filter_middle h, List.append_nil, put]

end Spot

end Virtuals.Lib
