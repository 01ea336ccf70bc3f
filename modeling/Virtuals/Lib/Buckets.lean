/-
  Sets of values by key.

  A key without values has no row: `discard` deletes the row that it leaves empty. Such a table is
  empty as soon as all its sets are (`Tidy.eq_empty`).
-/
import Virtuals.Lib.Table

namespace Virtuals.Lib

/-- Values by key. -/
abbrev Buckets (K V : Type) := Table K (Finset V)

namespace Buckets

variable {K V : Type} [DecidableEq K] [DecidableEq V]

/-- The values of a key. -/
def members (t : Buckets K V) (k : K) : Finset V := (t.get? k).getD ∅

/-- One more value of a key. -/
def add (t : Buckets K V) (k : K) (v : V) : Buckets K V := t.put k (insert v (t.members k))

/-- One value of a key less. -/
def discard (t : Buckets K V) (k : K) (v : V) : Buckets K V :=
  if (t.members k).erase v = ∅ then t.erase k else t.put k ((t.members k).erase v)

/-- No row without values. -/
def Tidy (t : Buckets K V) : Prop := ∀ k, t.get? k ≠ some ∅

omit [DecidableEq V] in
@[simp] theorem members_empty (k : K) : (∅ : Buckets K V).members k = ∅ := by
  rw [members, Table.get?_empty, Option.getD_none]

theorem members_add (t : Buckets K V) (k j : K) (v : V) :
    (t.add k v).members j = if j = k then insert v (t.members j) else t.members j := by
  rw [members, add, Table.get?_put]
  split_ifs with h
  · rw [h, Option.getD_some]
  · rfl

theorem members_discard (t : Buckets K V) (k j : K) (v : V) :
    (t.discard k v).members j = if j = k then (t.members j).erase v else t.members j := by
  rw [discard]
  split_ifs with he h h
  · rw [members, Table.get?_erase, if_pos h, h, he, Option.getD_none]
  · rw [members, Table.get?_erase, if_neg h, members]
  · rw [members, Table.get?_put, if_pos h, h, Option.getD_some]
  · rw [members, Table.get?_put, if_neg h, members]

omit [DecidableEq V] in
theorem tidy_empty : Tidy (∅ : Buckets K V) := fun k h => by
  rw [Table.get?_empty] at h
  cases h

theorem Tidy.add {t : Buckets K V} (h : Tidy t) (k : K) (v : V) : Tidy (t.add k v) := by
  intro j hj
  rw [Buckets.add, Table.get?_put] at hj
  split_ifs at hj
  · exact Finset.insert_ne_empty v _ (Option.some.inj hj)
  · exact h j hj

theorem Tidy.discard {t : Buckets K V} (h : Tidy t) (k : K) (v : V) : Tidy (t.discard k v) := by
  intro j hj
  rw [Buckets.discard] at hj
  split_ifs at hj with he
  · rw [Table.get?_erase] at hj
    split_ifs at hj
    exact h j hj
  · rw [Table.get?_put] at hj
    split_ifs at hj
    · exact he (Option.some.inj hj)
    · exact h j hj

omit [DecidableEq V] in
/-- Without values there are no rows. -/
theorem Tidy.eq_empty {t : Buckets K V} (h : Tidy t) (hall : ∀ k, t.members k = ∅) : t = ∅ := by
  refine Table.ext fun k => ?_
  rw [Table.get?_empty]
  cases hk : t.get? k with
  | none => rfl
  | some vs =>
    have hvs := hall k
    rw [members, hk, Option.getD_some] at hvs
    exact absurd (hvs ▸ hk) (h k)

end Buckets

end Virtuals.Lib
