/-
  Counting the members of a decidable predicate.

  `Tally p n` says that exactly `n` elements satisfy `p`: what a reference count or a counter of
  waiting parties means. The rules follow one element that joins or leaves.
-/
import Mathlib.Data.Finset.Card
import Mathlib.Data.Finset.Insert

namespace Virtuals.Lib

variable {α : Type*}

/-- Exactly `n` elements satisfy `p`. -/
def Tally (p : α → Prop) (n : Nat) : Prop := ∃ F : Finset α, F.card = n ∧ ∀ x, x ∈ F ↔ p x

namespace Tally

variable {p q : α → Prop} {n m : Nat} {c : α}

theorem congr (h : Tally p n) (hpq : ∀ x, p x ↔ q x) : Tally q n := by
  obtain ⟨F, hn, hmem⟩ := h
  exact ⟨F, hn, fun x => (hmem x).trans (hpq x)⟩

theorem of_none (h : ∀ x, ¬ p x) : Tally p 0 := ⟨∅, rfl, fun x => by simp [h x]⟩

theorem eq_zero_iff (h : Tally p n) : n = 0 ↔ ∀ x, ¬ p x := by
  obtain ⟨F, rfl, hmem⟩ := h
  rw [Finset.card_eq_zero, Finset.eq_empty_iff_forall_notMem]
  exact forall_congr' fun x => not_congr (hmem x)

theorem pos (h : Tally p n) (hc : p c) : 0 < n := by
  rcases Nat.eq_zero_or_pos n with h0 | hpos
  · exact absurd hc (h.eq_zero_iff.1 h0 c)
  · exact hpos

theorem eq_of_one (h : Tally p 1) {a b : α} (ha : p a) (hb : p b) : a = b := by
  obtain ⟨F, hn, hmem⟩ := h
  obtain ⟨x, rfl⟩ := Finset.card_eq_one.1 hn
  have ha := (hmem a).2 ha
  have hb := (hmem b).2 hb
  rw [Finset.mem_singleton] at ha hb
  exact ha.trans hb.symm

/-- `c` joins. -/
theorem join (h : Tally p n) (hc : ¬ p c) (hq : ∀ x, q x ↔ x = c ∨ p x) : Tally q (n + 1) := by
  classical
  obtain ⟨F, rfl, hmem⟩ := h
  refine ⟨insert c F, Finset.card_insert_of_notMem fun hF => hc ((hmem c).1 hF), fun x => ?_⟩
  rw [Finset.mem_insert, hmem, hq]

/-- `c` leaves. -/
theorem leave (h : Tally p n) (hc : p c) (hq : ∀ x, q x ↔ x ≠ c ∧ p x) : Tally q (n - 1) := by
  classical
  obtain ⟨F, rfl, hmem⟩ := h
  refine ⟨F.erase c, Finset.card_erase_of_mem ((hmem c).2 hc), fun x => ?_⟩
  rw [Finset.mem_erase, hmem, hq]

end Tally

end Virtuals.Lib
