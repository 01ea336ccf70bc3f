/-
  Codes that keep an order.

  A word is written for every element of a list, and lists of words are compared lexicographically,
  the shorter one first. If words keep the order of the elements whatever follows them, below a `top`
  that no word begins with, then the words of lists keep the lexicographic order of the lists, and
  the lists that begin with `p` are those between the words of `p` and the same with `top` after them.
-/
import Mathlib.Data.List.Lex
import Mathlib.Order.Lattice

namespace Virtuals.Lib

variable {α β : Type*}

/-- What follows is nothing, or begins below `top`. -/
def Below [LT β] (top : β) (x : List β) : Prop := ∀ c ∈ x.head?, c < top

theorem below_nil [LT β] (top : β) : Below top ([] : List β) := fun _ h => by cases h

theorem below_cons [LT β] {top c : β} {x : List β} : Below top (c :: x) ↔ c < top :=
  ⟨fun h => h c rfl, fun h _ hc => Option.some.inj hc ▸ h⟩

/-- Two words, one with `top` after it, enclose the lists that begin with the word. -/
theorem between_iff [LT β] [Std.Irrefl (fun a b : β => a < b)] {p e : List β} {top : β} :
    ¬ e < p ∧ e < p ++ [top] ↔ ∃ x, e = p ++ x ∧ Below top x := by
  induction p generalizing e with
  | nil =>
    cases e with
    | nil => simp [below_nil]
    | cons c e => simp [List.cons_lt_cons_iff, below_cons]
  | cons a p ih =>
    cases e with
    | nil => simp
    | cons b e =>
      have hirr : ¬ a < a := Std.Irrefl.irrefl a
      rw [List.cons_append, List.cons_lt_cons_iff, List.cons_lt_cons_iff]
      constructor
      · rintro ⟨hnot, hlt | ⟨rfl, hlt⟩⟩
        · exact absurd (.inl hlt) hnot
        · obtain ⟨x, rfl, hx⟩ := ih.1 ⟨fun he => hnot (.inr ⟨rfl, he⟩), hlt⟩
          exact ⟨x, rfl, hx⟩
      · rintro ⟨x, he, hx⟩
        obtain ⟨rfl, htail⟩ := List.cons.inj he
        obtain ⟨hnot, hlt⟩ := ih.2 ⟨x, htail, hx⟩
        refine ⟨?_, .inr ⟨rfl, hlt⟩⟩
        rintro (hba | ⟨-, hep⟩)
        · exact hirr hba
        · exact hnot hep

/-- Words that are told apart from what follows them below `top`. -/
structure WordCode [LT β] (valid : α → Prop) (top : β) (enc : α → List β) : Prop where
  head : ∀ a, valid a → ∃ c w, enc a = c :: w ∧ c < top
  inj : ∀ a b x y, valid a → valid b → Below top x → Below top y →
    enc a ++ x = enc b ++ y → a = b

/-- Words that keep the order, whatever follows them below `top`. -/
structure OrderCode [LT α] [LT β] (valid : α → Prop) (top : β) (enc : α → List β) : Prop where
  head : ∀ a, valid a → ∃ c w, enc a = c :: w ∧ c < top
  lt : ∀ a b x y, valid a → valid b → Below top x → Below top y → a < b → enc a ++ x < enc b ++ y

section Words

variable [LT β] {valid : α → Prop} {top : β} {enc : α → List β}

theorem WordCode.below (h : WordCode valid top enc) {l : List α} (hl : ∀ a ∈ l, valid a) :
    Below top (l.flatMap enc) := by
  cases l with
  | nil => exact below_nil top
  | cons a l =>
    obtain ⟨c, w, ha, hc⟩ := h.head a (hl a (by simp))
    rw [List.flatMap_cons, ha]
    exact below_cons.2 hc

/-- The words of a list go on below `top` exactly when the list goes on. -/
theorem WordCode.prefix_iff (h : WordCode valid top enc) {p k : List α} (hp : ∀ a ∈ p, valid a)
    (hk : ∀ a ∈ k, valid a) :
    (∃ x, k.flatMap enc = p.flatMap enc ++ x ∧ Below top x) ↔ p <+: k := by
  constructor
  · intro hx
    induction p generalizing k with
    | nil => exact List.nil_prefix
    | cons a p ih =>
      obtain ⟨x, he, hx⟩ := hx
      have hp' : ∀ b ∈ p, valid b := fun b hb => hp b (by simp [hb])
      cases k with
      | nil =>
        obtain ⟨c, w, ha, -⟩ := h.head a (hp a (by simp))
        rw [List.flatMap_cons, ha] at he
        cases he
      | cons b k =>
        have hk' : ∀ c ∈ k, valid c := fun c hc => hk c (by simp [hc])
        have hrest : Below top (p.flatMap enc ++ x) := by
          cases p with
          | nil => exact hx
          | cons c p =>
            obtain ⟨d, w, hd, hlt⟩ := h.head c (hp' c (by simp))
            rw [List.flatMap_cons, hd]
            exact below_cons.2 hlt
        rw [List.flatMap_cons, List.flatMap_cons, List.append_assoc] at he
        obtain rfl := h.inj b a _ _ (hk b (by simp)) (hp a (by simp)) (h.below hk') hrest he
        have hpk := ih hp' hk' ⟨x, List.append_cancel_left he, hx⟩
        exact (List.cons_prefix_cons).2 ⟨rfl, hpk⟩
  · rintro ⟨l, rfl⟩
    refine ⟨l.flatMap enc, List.flatMap_append .., h.below fun a ha => hk a ?_⟩
    exact List.mem_append_right p ha

/-- (PROVED) The lists that begin with `p` are those whose words lie between its words and these
    with `top` after them. -/
theorem WordCode.range_iff [Std.Irrefl (fun a b : β => a < b)] (h : WordCode valid top enc)
    {p k : List α} (hp : ∀ a ∈ p, valid a) (hk : ∀ a ∈ k, valid a) :
    (¬ k.flatMap enc < p.flatMap enc ∧ k.flatMap enc < p.flatMap enc ++ [top]) ↔ p <+: k :=
  between_iff.trans (h.prefix_iff hp hk)

end Words

section Order

variable [LinearOrder α] [LT β] [Std.Irrefl (fun a b : β => a < b)] {valid : α → Prop} {top : β} {enc : α → List β}

theorem OrderCode.wordCode (h : OrderCode valid top enc) : WordCode valid top enc where
  head := h.head
  inj := fun a b x y ha hb hx hy he => by
    rcases lt_trichotomy a b with hab | hab | hab
    · exact absurd (h.lt a b x y ha hb hx hy hab) (by rw [he]; exact List.lt_irrefl _)
    · exact hab
    · exact absurd (h.lt b a y x hb ha hy hx hab) (by rw [he]; exact List.lt_irrefl _)

theorem OrderCode.flatMap_lt (h : OrderCode valid top enc) {k l : List α}
    (hk : ∀ a ∈ k, valid a) (hl : ∀ a ∈ l, valid a) (hlt : k < l) :
    k.flatMap enc < l.flatMap enc := by
  induction hlt with
  | nil =>
    rename_i a l
    obtain ⟨c, w, ha, -⟩ := h.head a (hl a (by simp))
    rw [List.flatMap_cons, ha]
    exact List.Lex.nil
  | cons hkl ih =>
    rw [List.flatMap_cons, List.flatMap_cons]
    exact List.append_left_lt (ih (fun a ha => hk a (by simp [ha])) fun a ha => hl a (by simp [ha]))
  | rel hab =>
    rw [List.flatMap_cons, List.flatMap_cons]
    exact h.lt _ _ _ _ (hk _ (by simp)) (hl _ (by simp))
      (h.wordCode.below fun a ha => hk a (by simp [ha]))
      (h.wordCode.below fun a ha => hl a (by simp [ha])) hab

/-- (PROVED) The words of lists are ordered as the lists are. -/
theorem OrderCode.flatMap_lt_iff [Std.Asymm (fun a b : β => a < b)]
    (h : OrderCode valid top enc) {k l : List α}
    (hk : ∀ a ∈ k, valid a) (hl : ∀ a ∈ l, valid a) :
    k.flatMap enc < l.flatMap enc ↔ k < l := by
  refine ⟨fun hlt => ?_, h.flatMap_lt hk hl⟩
  rcases lt_trichotomy k l with hkl | hkl | hkl
  · exact hkl
  · subst hkl
    exact absurd hlt (List.lt_irrefl _)
  · exact absurd hlt (List.lt_asymm (h.flatMap_lt hl hk hkl))

end Order

end Virtuals.Lib
