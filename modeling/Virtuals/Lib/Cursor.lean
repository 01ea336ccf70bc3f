/-
  An output buffer of a fixed size, filled from its start.

  A byte put past the end is refused, so that a run of puts that is accepted stays inside the buffer;
  bytes that fill it exactly leave nothing of what the buffer held before.
-/
import Mathlib.Data.List.Basic
import Mathlib.Algebra.Order.Group.Nat

namespace Virtuals.Lib

/-- An output buffer, and the place of the next element. -/
structure Cursor (α : Type*) where
  buffer : List α
  pos : Nat

namespace Cursor

variable {α : Type*}

/-- `buffer[pos] = x; pos += 1`, inside the buffer. -/
def put (c : Cursor α) (x : α) : Option (Cursor α) :=
  if c.pos < c.buffer.length then some ⟨c.buffer.set c.pos x, c.pos + 1⟩ else none

/-- The elements one after another. -/
def putAll (c : Cursor α) (l : List α) : Option (Cursor α) := l.foldlM put c

@[simp] theorem putAll_nil (c : Cursor α) : c.putAll [] = some c := rfl

theorem putAll_cons (c : Cursor α) (x : α) (l : List α) :
    c.putAll (x :: l) = (c.put x).bind (putAll · l) := rfl

theorem putAll_append (c : Cursor α) (l l' : List α) :
    c.putAll (l ++ l') = (c.putAll l).bind (putAll · l') := by
  induction l generalizing c with
  | nil => rfl
  | cons x l ih =>
    rw [List.cons_append, putAll_cons, putAll_cons, Option.bind_assoc]
    exact congrArg _ (funext fun c => ih c)

theorem putAll_singleton (c : Cursor α) (x : α) : c.putAll [x] = c.put x := by
  rw [putAll_cons]
  cases c.put x <;> rfl

/-- The cursor stands after `w`, with `rest` of the buffer still to come. -/
theorem put_filled (w rest : List α) (y x : α) :
    put ⟨w ++ y :: rest, w.length⟩ x = some ⟨(w ++ [x]) ++ rest, (w ++ [x]).length⟩ := by
  have hlt : w.length < (w ++ y :: rest).length := by simp
  simp only [put]
  rw [if_pos hlt, List.set_append_right _ _ (Nat.le_refl _), Nat.sub_self]
  simp

theorem putAll_filled {w rest l : List α} (h : l.length ≤ rest.length) :
    putAll ⟨w ++ rest, w.length⟩ l =
      some ⟨(w ++ l) ++ rest.drop l.length, (w ++ l).length⟩ := by
  induction l generalizing w rest with
  | nil => simp
  | cons x l ih =>
    cases rest with
    | nil => exact absurd h (by simp)
    | cons y rest =>
      rw [putAll_cons, put_filled, Option.bind_some, ih (Nat.le_of_succ_le_succ h)]
      simp

/-- (PROVED) Elements that fill the buffer exactly are all that it holds. -/
theorem putAll_exact {buffer l : List α} (h : l.length = buffer.length) :
    putAll ⟨buffer, 0⟩ l = some ⟨l, l.length⟩ := by
  have hfill := @putAll_filled α [] buffer l h.le
  rw [h, List.drop_length, List.append_nil, List.nil_append] at hfill
  exact hfill

end Cursor

end Virtuals.Lib
