/-
  Binary search for the first place of a range at which a test holds.

  The test has to hold from its first place on (`FirstFrom`). Then halving finds that place, in at most as
  many rounds as the range is long.
-/
import Mathlib.Data.List.Basic
import Mathlib.Data.Nat.Notation

namespace Halving

/-- `while lo < hi`, for as many rounds as there is fuel. -/
def search (past : Nat → Bool) : Nat → Nat → Nat → Nat
  | 0, lo, _ => lo
  | fuel + 1, lo, hi =>
    if lo < hi then
      let mid := (lo + hi) / 2
      if past mid then search past fuel lo mid else search past fuel (mid + 1) hi
    else lo

/-- A place of a range before which a test fails and from which it holds. -/
structure FirstFrom (past : Nat → Bool) (lo hi i : Nat) : Prop where
  from_lo : lo ≤ i
  to_hi : i ≤ hi
  before : ∀ j, lo ≤ j → j < i → past j = false
  after : ∀ j, i ≤ j → j < hi → past j = true

/-- (PROVED) The search finds the place. -/
theorem search_first {past : Nat → Bool} {fuel lo hi : Nat} (hle : lo ≤ hi) (hfuel : hi - lo ≤ fuel)
    (hmono : ∀ i j, lo ≤ i → i ≤ j → j < hi → past i = true → past j = true) :
    FirstFrom past lo hi (search past fuel lo hi) := by
  induction fuel generalizing lo hi with
  | zero =>
    have heq : lo = hi := by omega
    rw [search, heq]
    exact ⟨Nat.le_refl hi, Nat.le_refl hi, fun j h h' => by omega, fun j h h' => by omega⟩
  | succ fuel ih =>
    rw [search]
    by_cases hlt : lo < hi
    · rw [if_pos hlt]
      dsimp only
      by_cases hpast : past ((lo + hi) / 2) = true
      · have hfirst := @ih lo ((lo + hi) / 2) (by omega) (by omega)
          fun i j hi' hij hj => hmono i j hi' hij (by omega)
        rw [if_pos hpast]
        refine ⟨hfirst.from_lo, Nat.le_trans hfirst.to_hi (by omega), hfirst.before, ?_⟩
        intro j hj hjhi
        by_cases hmid : j < (lo + hi) / 2
        · exact hfirst.after j hj hmid
        · exact hmono _ j (by omega) (Nat.le_of_not_lt hmid) hjhi hpast
      · have hfirst := @ih ((lo + hi) / 2 + 1) hi (by omega) (by omega)
          fun i j hi' => hmono i j (by omega)
        rw [if_neg hpast]
        refine ⟨Nat.le_trans (by omega) hfirst.from_lo, hfirst.to_hi, ?_, hfirst.after⟩
        intro j hj hjlt
        by_cases hmid : j ≤ (lo + hi) / 2
        · refine Bool.eq_false_iff.2 ?_
          intro hjpast
          exact hpast (hmono j _ hj hmid (by omega) hjpast)
        · exact hfirst.before j (by omega) hjlt
    · have heq : lo = hi := by omega
      rw [if_neg hlt, heq]
      exact ⟨Nat.le_refl hi, Nat.le_refl hi, fun j h h' => by omega, fun j h h' => by omega⟩

/-- The elements of a list from that place are those that pass the test. -/
theorem FirstFrom.drop_eq {α : Type*} {xs : List α} {test : α → Bool} {past : Nat → Bool}
    (hpast : ∀ i x, xs[i]? = some x → past i = test x) {lo i : Nat}
    (h : FirstFrom past lo xs.length i) : xs.drop i = (xs.drop lo).filter test := by
  have hsplit : xs.drop lo = (xs.drop lo).take (i - lo) ++ xs.drop i := by
    have hdrop := List.take_append_drop (i - lo) (xs.drop lo)
    rw [List.drop_drop, show lo + (i - lo) = i by have := h.from_lo; omega] at hdrop
    exact hdrop.symm
  have hbefore : ((xs.drop lo).take (i - lo)).filter test = [] := by
    refine List.filter_eq_nil_iff.2 ?_
    intro x hx
    obtain ⟨j, hj, hget⟩ := List.mem_iff_getElem.1 hx
    rw [List.length_take, List.length_drop] at hj
    rw [List.getElem_take, List.getElem_drop] at hget
    have hfalse := h.before (lo + j) (by omega) (by omega)
    rw [hpast (lo + j) x (by rw [← hget]; exact List.getElem?_eq_getElem (by omega))] at hfalse
    rw [hfalse]
    exact Bool.false_ne_true
  have hafter : (xs.drop i).filter test = xs.drop i := by
    refine List.filter_eq_self.2 ?_
    intro x hx
    obtain ⟨j, hj, hget⟩ := List.mem_iff_getElem.1 hx
    rw [List.length_drop] at hj
    rw [List.getElem_drop] at hget
    have htrue := h.after (i + j) (by omega) (by omega)
    rwa [hpast (i + j) x (by rw [← hget]; exact List.getElem?_eq_getElem (by omega))] at htrue
  rw [hsplit, List.filter_append, hbefore, hafter, List.nil_append]

end Halving
