/-
  Codes whose words can be told apart from what follows them.

  `Delimits stop enc`: of a word of `enc` and a rest that meets `stop`, the joined list determines
  both. With no condition on the rest the code is prefix free, and then the concatenation of
  words determines them: the first words, the last words, and all of them.
-/
import Mathlib.Data.List.Basic

namespace Virtuals.Lib

variable {α β γ : Type*}

/-- A word of `enc` ends where the rest begins, if the rest meets `stop`. -/
def Delimits (stop : List β → Prop) (enc : α → List β) : Prop :=
  ∀ ⦃a b x y⦄, stop x → stop y → enc a ++ x = enc b ++ y → a = b ∧ x = y

/-- No word is followed by more of another. -/
abbrev PrefixFree (enc : α → List β) : Prop := Delimits (fun _ => True) enc

/-- The rest does not begin with an element of `p`. -/
def Ends (p : β → Bool) (x : List β) : Prop := ∀ c ∈ x.head?, p c = false

theorem ends_cons {p : β → Bool} {c : β} {x : List β} (hc : p c = false) : Ends p (c :: x) := by
  simpa [Ends] using hc

theorem takeWhile_append_of_ends {p : β → Bool} {w x : List β} (hw : ∀ c ∈ w, p c = true)
    (hx : Ends p x) : (w ++ x).takeWhile p = w := by
  rw [List.takeWhile_append_of_pos hw]
  cases x with
  | nil => simp
  | cons c x => simp [hx c rfl]

namespace Delimits

variable {stop : List β → Prop} {enc : α → List β}

theorem injective (h : Delimits stop enc) (hnil : stop []) : Function.Injective enc :=
  fun _ _ hab => (h hnil hnil (by rw [hab])).1

/-- Words over `p` end where the rest begins with something else. -/
theorem of_forall {p : β → Bool} (hp : ∀ a, ∀ c ∈ enc a, p c = true)
    (hinj : Function.Injective enc) : Delimits (Ends p) enc := by
  intro a b x y hx hy he
  have hab : enc a = enc b := by
    rw [← takeWhile_append_of_ends (hp a) hx, he, takeWhile_append_of_ends (hp b) hy]
  exact ⟨hinj hab, List.append_cancel_left (hab ▸ he)⟩

/-- A word, then a mark that ends it. -/
theorem prefixFree_append (h : Delimits stop enc) {mark : List β}
    (hmark : ∀ x, stop (mark ++ x)) : PrefixFree fun a => enc a ++ mark := by
  intro a b x y _ _ he
  rw [List.append_assoc, List.append_assoc] at he
  obtain ⟨hab, hxy⟩ := h (hmark x) (hmark y) he
  exact ⟨hab, List.append_cancel_left hxy⟩

end Delimits

namespace PrefixFree

variable {enc : α → List β}

variable (h : PrefixFree enc) (hne : ∀ a, enc a ≠ [])
include h

/-- As many words followed by anything. -/
theorem flatMap_append_inj {l m : List α} {x y : List β} (hlen : l.length = m.length)
    (he : l.flatMap enc ++ x = m.flatMap enc ++ y) : l = m ∧ x = y := by
  induction l generalizing m with
  | nil =>
    obtain rfl := List.length_eq_zero_iff.1 hlen.symm
    exact ⟨rfl, he⟩
  | cons a l ih =>
    cases m with
    | nil => cases hlen
    | cons b m =>
      simp only [List.flatMap_cons, List.append_assoc] at he
      obtain ⟨rfl, hrest⟩ := h trivial trivial he
      obtain ⟨rfl, hxy⟩ := ih (Nat.succ.inj hlen) hrest
      exact ⟨rfl, hxy⟩

include hne

/-- (PROVED) A concatenation of words determines them. -/
theorem flatMap_injective : Function.Injective fun l : List α => l.flatMap enc := by
  intro l m he
  dsimp only at he
  induction l generalizing m with
  | nil =>
    cases m with
    | nil => rfl
    | cons b m => simp [hne] at he
  | cons a l ih =>
    cases m with
    | nil => simp [hne] at he
    | cons b m =>
      simp only [List.flatMap_cons] at he
      obtain ⟨rfl, hrest⟩ := h trivial trivial he
      rw [ih hrest]

end PrefixFree

/-! ## Lists of words -/

/-- The word of `a` ends where the rest begins, `R` being what it tells of `a`. -/
def DelimitsAt (stop : List β → Prop) (enc : α → List β) (R : α → α → Prop) (a : α) : Prop :=
  ∀ ⦃b x y⦄, stop x → stop y → enc a ++ x = enc b ++ y → R a b ∧ x = y

/-- Words with `sep` between them. -/
def separated (sep : β) : List (List β) → List β
  | [] => []
  | w :: ws => w ++ ws.flatMap fun w => sep :: w

/-- No word is empty or begins with `c`. -/
def NotHead (enc : α → List β) (c : β) : Prop := ∀ a, ∃ d w, enc a = d :: w ∧ d ≠ c

section Separated

variable {stop : List β → Prop} {enc : α → List β} {R : α → α → Prop} {sep close : β}
  (hsep : ∀ x, stop (sep :: x)) (hclose : ∀ x, stop (close :: x)) (hne : sep ≠ close)
include hsep hclose hne

theorem separated_tail_inj {l m : List α} {x y : List β}
    (hl : ∀ a ∈ l, DelimitsAt stop enc R a)
    (he : (l.map enc).flatMap (fun w => sep :: w) ++ close :: x =
      (m.map enc).flatMap (fun w => sep :: w) ++ close :: y) : List.Forall₂ R l m ∧ x = y := by
  have hstop : ∀ (n : List α) z, stop ((n.map enc).flatMap (fun w => sep :: w) ++ close :: z) := by
    intro n z
    cases n with
    | nil => exact hclose z
    | cons a n => exact hsep _
  induction l generalizing m with
  | nil =>
    cases m with
    | nil => exact ⟨.nil, (List.cons.inj he).2⟩
    | cons b m => exact absurd (List.cons.inj he).1.symm hne
  | cons a l ih =>
    cases m with
    | nil => exact absurd (List.cons.inj he).1 hne
    | cons b m =>
      simp only [List.map_cons, List.flatMap_cons, List.cons_append, List.append_assoc,
        List.cons.injEq, true_and] at he
      obtain ⟨hab, hrest⟩ := hl a (by simp) (hstop l x) (hstop m y) he
      obtain ⟨hlm, hxy⟩ := ih (fun c hc => hl c (by simp [hc])) hrest
      exact ⟨.cons hab hlm, hxy⟩

/-- (PROVED) A closed list of words determines what its words tell, and the rest. -/
theorem separated_inj (hhead : NotHead enc close) {l m : List α} {x y : List β}
    (hl : ∀ a ∈ l, DelimitsAt stop enc R a)
    (he : separated sep (l.map enc) ++ close :: x = separated sep (m.map enc) ++ close :: y) :
    List.Forall₂ R l m ∧ x = y := by
  have hstop : ∀ (n : List α) z, stop ((n.map enc).flatMap (fun w => sep :: w) ++ close :: z) := by
    intro n z
    cases n with
    | nil => exact hclose z
    | cons a n => exact hsep _
  have hcons : ∀ a n z w, separated sep (enc a :: n) ++ z ≠ close :: w := fun a n z w h => by
    obtain ⟨d, v, hd, hdc⟩ := hhead a
    rw [separated, hd] at h
    exact hdc (List.cons.inj h).1
  cases l with
  | nil =>
    cases m with
    | nil => exact ⟨.nil, (List.cons.inj he).2⟩
    | cons b m => exact absurd he.symm (hcons b _ _ _)
  | cons a l =>
    cases m with
    | nil => exact absurd he (hcons a _ _ _)
    | cons b m =>
      simp only [List.map_cons, separated, List.append_assoc] at he
      obtain ⟨hab, hrest⟩ := hl a (by simp) (hstop l x) (hstop m y) he
      obtain ⟨hlm, hxy⟩ :=
        separated_tail_inj hsep hclose hne (fun c hc => hl c (by simp [hc])) hrest
      exact ⟨.cons hab hlm, hxy⟩

end Separated

/-- Words of a prefix-free code up to a mark that begins none of them. -/
theorem PrefixFree.terminated {enc : α → List β} (h : PrefixFree enc) {mark : β}
    (hmark : NotHead enc mark) : PrefixFree fun l : List α => l.flatMap enc ++ [mark] := by
  have hne : ∀ (l : List α) a x y, [mark] ++ x ≠ (a :: l).flatMap enc ++ [mark] ++ y :=
    fun l a x y he => by
      obtain ⟨d, v, hd, hdc⟩ := hmark a
      rw [List.flatMap_cons, hd] at he
      exact hdc (List.cons.inj he).1.symm
  intro l m x y _ _ he
  dsimp only at he
  induction l generalizing m with
  | nil =>
    cases m with
    | nil => exact ⟨rfl, (List.cons.inj he).2⟩
    | cons b m => exact absurd he (hne m b x y)
  | cons a l ih =>
    cases m with
    | nil => exact absurd he.symm (hne l a y x)
    | cons b m =>
      simp only [List.flatMap_cons, List.append_assoc] at he
      obtain ⟨rfl, hrest⟩ := h trivial trivial he
      obtain ⟨rfl, hxy⟩ := ih (m := m) (by simpa only [List.append_assoc] using hrest)
      exact ⟨rfl, hxy⟩

end Virtuals.Lib
