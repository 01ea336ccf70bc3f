/-
  `heapq.merge`: lists merged by a key, always on from the least of their heads.

  The heap holds the head of every list that is not exhausted; what is yielded next is the least head,
  of the first list that has it. That much is done with any lists. The elements are those of the lists,
  each as often (`perm`); they ascend if each of the lists does (`ascending`), and not otherwise: a
  list whose head is too large holds back what follows it.
-/
import Mathlib.Data.List.Perm.Basic
import Mathlib.Order.Lattice
import Mathlib.Order.Nat

namespace Virtuals.Lib

namespace HeapMerge

variable {α β : Type} [LinearOrder β] (key : α → β)

/-- The keys of a list ascend. -/
def Ascending (l : List α) : Prop := l.Pairwise fun a b => key a ≤ key b

/-- The least head, of the first list that has it, and what is left of the lists. An exhausted list
leaves the heap. -/
def popLeast : List (List α) → Option (α × List (List α))
  | [] => none
  | [] :: ls => popLeast ls
  | (x :: xs) :: ls =>
    match popLeast ls with
    | none => some (x, xs :: ls)
    | some (a, rest) => if key x ≤ key a then some (x, xs :: ls) else some (a, (x :: xs) :: rest)

/-- At most `n` elements of the merge. -/
def mergeUpTo : Nat → List (List α) → List α
  | 0, _ => []
  | n + 1, ls =>
    match popLeast key ls with
    | none => []
    | some (a, rest) => a :: mergeUpTo n rest

/-- `heapq.merge(*ls, key=key)`, read to its end. -/
def merge (ls : List (List α)) : List α := mergeUpTo key ls.flatten.length ls

variable {key} {ls rest : List (List α)} {a : α}

theorem flatten_of_none (h : popLeast key ls = none) : ls.flatten = [] := by
  induction ls with
  | nil => rfl
  | cons l ls ih =>
    cases l with
    | nil => exact ih h
    | cons x xs =>
      rw [popLeast] at h
      cases hp : popLeast key ls with
      | none => rw [hp] at h; cases h
      | some p =>
        rw [hp] at h
        by_cases hle : key x ≤ key p.1
        · simp only [if_pos hle] at h; cases h
        · simp only [if_neg hle] at h; cases h

/-- The ways to the least head: it is that of the first list, or that of the others. -/
theorem popLeast_cons {x : α} {xs : List α} (h : popLeast key ((x :: xs) :: ls) = some (a, rest)) :
    (a = x ∧ rest = xs :: ls ∧ ∀ b left, popLeast key ls = some (b, left) → key x ≤ key b) ∨
      ∃ left, popLeast key ls = some (a, left) ∧ rest = (x :: xs) :: left ∧ key a ≤ key x := by
  rw [popLeast] at h
  cases hp : popLeast key ls with
  | none =>
    rw [hp] at h
    cases h
    exact Or.inl ⟨rfl, rfl, fun b left h => by cases h⟩
  | some p =>
    obtain ⟨b, left⟩ := p
    rw [hp] at h
    by_cases hle : key x ≤ key b
    · simp only [if_pos hle] at h
      cases h
      refine Or.inl ⟨rfl, rfl, fun c left' h => ?_⟩
      cases h
      exact hle
    · simp only [if_neg hle] at h
      cases h
      exact Or.inr ⟨left, rfl, rfl, le_of_not_ge hle⟩

/-- The least head and the rest are the elements of the lists. -/
theorem popLeast_perm (h : popLeast key ls = some (a, rest)) :
    (a :: rest.flatten).Perm ls.flatten := by
  induction ls generalizing rest with
  | nil => cases h
  | cons l ls ih =>
    cases l with
    | nil => exact ih h
    | cons x xs =>
      rcases popLeast_cons h with ⟨rfl, rfl, -⟩ | ⟨left, hp, rfl, -⟩
      · exact List.Perm.refl _
      · have hmid : (a :: ((x :: xs) ++ left.flatten)).Perm ((x :: xs) ++ a :: left.flatten) :=
          List.perm_middle.symm
        exact hmid.trans ((ih hp).append_left (x :: xs))

/-- Of ascending lists, the least head is a least element. -/
theorem popLeast_le (hls : ∀ l ∈ ls, Ascending key l) (h : popLeast key ls = some (a, rest)) :
    ∀ b ∈ ls.flatten, key a ≤ key b := by
  induction ls generalizing a rest with
  | nil => cases h
  | cons l ls ih =>
    have htail : ∀ l ∈ ls, Ascending key l := fun l hl => hls l (List.mem_cons_of_mem _ hl)
    cases l with
    | nil => exact ih htail h
    | cons x xs =>
      have hhead : ∀ b ∈ x :: xs, key x ≤ key b := fun b hb => by
        rcases List.mem_cons.1 hb with rfl | hb
        · exact le_refl _
        · exact List.rel_of_pairwise_cons (hls _ List.mem_cons_self) hb
      intro b hb
      rw [List.flatten_cons, List.mem_append] at hb
      rcases popLeast_cons h with ⟨rfl, rfl, hother⟩ | ⟨left, hp, rfl, hle⟩
      · refine hb.elim (hhead b) fun hb => ?_
        cases hp : popLeast key ls with
        | none =>
          rw [flatten_of_none hp] at hb
          cases hb
        | some p =>
          obtain ⟨c, left⟩ := p
          exact le_trans (hother c left hp) (ih htail hp b hb)
      · exact hb.elim (fun hb => le_trans hle (hhead b hb)) (ih htail hp b)

/-- What is left of ascending lists ascends. -/
theorem popLeast_ascending (hls : ∀ l ∈ ls, Ascending key l)
    (h : popLeast key ls = some (a, rest)) : ∀ l ∈ rest, Ascending key l := by
  induction ls generalizing rest with
  | nil => cases h
  | cons l ls ih =>
    have htail : ∀ l ∈ ls, Ascending key l := fun l hl => hls l (List.mem_cons_of_mem _ hl)
    cases l with
    | nil => exact ih htail h
    | cons x xs =>
      have hfirst := hls _ List.mem_cons_self
      intro l hl
      rcases popLeast_cons h with ⟨rfl, rfl, -⟩ | ⟨left, hp, rfl, -⟩
      · exact (List.mem_cons.1 hl).elim (fun hl => hl ▸ hfirst.of_cons) (htail l)
      · exact (List.mem_cons.1 hl).elim (fun hl => hl ▸ hfirst) (ih htail hp l)

theorem mergeUpTo_perm (n : Nat) (ls : List (List α)) (hn : ls.flatten.length ≤ n) :
    (mergeUpTo key n ls).Perm ls.flatten := by
  induction n generalizing ls with
  | zero =>
    rw [List.eq_nil_of_length_eq_zero (Nat.le_zero.1 hn)]
    exact List.Perm.refl _
  | succ n ih =>
    rw [mergeUpTo]
    cases hp : popLeast key ls with
    | none =>
      rw [flatten_of_none hp]
    | some p =>
      have hperm := popLeast_perm hp
      have hlen : p.2.flatten.length ≤ n := by
        have := hperm.length_eq
        rw [List.length_cons] at this
        omega
      exact ((ih p.2 hlen).cons p.1).trans hperm

/-- (PROVED) The merge yields the elements of the lists, each as often. -/
theorem perm (key : α → β) (ls : List (List α)) : (merge key ls).Perm ls.flatten :=
  mergeUpTo_perm _ ls (Nat.le_refl _)

/-- (PROVED) Merged lists ascend if each of them does. -/
theorem ascending (hls : ∀ l ∈ ls, Ascending key l) : Ascending key (merge key ls) := by
  suffices h : ∀ n (ls : List (List α)), ls.flatten.length ≤ n → (∀ l ∈ ls, Ascending key l) →
      Ascending key (mergeUpTo key n ls) from h _ ls (Nat.le_refl _) hls
  intro n
  induction n with
  | zero => exact fun _ _ _ => List.Pairwise.nil
  | succ n ih =>
    intro ls hn hls
    rw [mergeUpTo]
    cases hp : popLeast key ls with
    | none => exact List.Pairwise.nil
    | some p =>
      have hperm := popLeast_perm hp
      have hlen : p.2.flatten.length ≤ n := by
        have := hperm.length_eq
        rw [List.length_cons] at this
        omega
      refine List.pairwise_cons.2 ⟨fun b hb => ?_, ih p.2 hlen (popLeast_ascending hls hp)⟩
      have hrest := (mergeUpTo_perm n p.2 hlen).mem_iff.1 hb
      exact popLeast_le hls hp b (hperm.mem_iff.1 (List.mem_cons_of_mem _ hrest))

end HeapMerge

/-- A list that does not ascend: its second element comes too late. -/
example : HeapMerge.merge id [[3, 1], [2]] = [2, 3, 1] := by decide

end Virtuals.Lib
