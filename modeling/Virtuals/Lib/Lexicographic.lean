/-
  Lists ordered by their first difference.

  A list below another stays below it, whatever follows either, unless it is the beginning of the
  other; a beginning of a list is not above it.
-/
import Mathlib.Data.List.Lex
import Mathlib.Order.Lattice

namespace Virtuals.Lib

variable {α : Type*} [LinearOrder α]

theorem nil_lt_of_ne_nil {l : List α} (h : l ≠ []) : [] < l := by
  cases l with
  | nil => exact absurd rfl h
  | cons c l => exact List.Lex.nil

theorem lt_append_of_ne_nil (l : List α) {x : List α} (h : x ≠ []) : l < l ++ x := by
  induction l with
  | nil => exact nil_lt_of_ne_nil h
  | cons c l ih => exact List.Lex.cons ih

theorem append_left_lt (l : List α) {x y : List α} (h : x < y) : l ++ x < l ++ y := by
  induction l with
  | nil => exact h
  | cons c l ih => exact List.Lex.cons ih

theorem lt_of_append_left_lt {l x y : List α} (h : l ++ x < l ++ y) : x < y := by
  induction l with
  | nil => exact h
  | cons c l ih =>
    cases h with
    | cons h => exact ih h
    | rel h => exact absurd h (lt_irrefl c)

theorem append_left_lt_iff (l : List α) {x y : List α} : l ++ x < l ++ y ↔ x < y :=
  ⟨lt_of_append_left_lt, append_left_lt l⟩

/-- What is below a list is below all that begins with it. -/
theorem lt_append {a k : List α} (h : a < k) (x : List α) : a < k ++ x := by
  induction h with
  | nil => exact List.Lex.nil
  | cons _ ih => exact List.Lex.cons ih
  | rel h => exact List.Lex.rel h

/-- (PROVED) A difference inside both lists stands, whatever follows. -/
theorem append_lt_of_not_prefix {k b : List α} (h : k < b) (hp : ¬ k <+: b) (x y : List α) :
    k ++ x < b ++ y := by
  induction h with
  | nil => exact absurd List.nil_prefix hp
  | cons _ ih => exact List.Lex.cons (ih fun hk => hp (List.prefix_cons_inj _ |>.2 hk))
  | rel h => exact List.Lex.rel h

theorem prefix_not_lt {k b : List α} (hp : k <+: b) : ¬ b < k := by
  obtain ⟨x, rfl⟩ := hp
  rcases eq_or_ne x [] with rfl | hx
  · rw [List.append_nil]
    exact lt_irrefl k
  · exact lt_asymm (lt_append_of_ne_nil k hx)

/-- Of two beginnings of one list the smaller is the shorter. -/
theorem prefix_length_lt {k j b : List α} (hk : k <+: b) (hj : j <+: b) (h : k < j) :
    k.length < j.length := by
  rcases Nat.lt_or_ge k.length j.length with hlt | hge
  · exact hlt
  · exact absurd h (prefix_not_lt (List.prefix_of_prefix_length_le hj hk hge))

end Virtuals.Lib
