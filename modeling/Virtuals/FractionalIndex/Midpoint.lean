/-
  The midpoint of two fractions lies between them.

  A fraction has digits and does not end in zero, so as strings fractions are ordered as the numbers
  they write. `midpointBelow` strips the common digits, the lower fraction being padded with zeros;
  what is stripped one digit at a time (`midpointBelow_cons`) is an induction on the upper one.
-/
import Virtuals.FractionalIndex.OrderKey
import Virtuals.Lib.Lexicographic

namespace Virtuals.FractionalIndex

open Virtuals.Lib

theorem ok_bind {ε α β : Type} (a : α) (f : α → Except ε β) : (Except.ok a >>= f) = f a := rfl

/-! ## Digits -/

/-- Digits only. -/
def IsDigits (l : List Char) : Prop := ∀ c ∈ l, c ∈ BASE_62_DIGITS

theorem digits_ascending : BASE_62_DIGITS.Pairwise (· < ·) := by decide

theorem digitAt_eq {i : Nat} (h : i < 62) : digitAt i = BASE_62_DIGITS[i] := by
  rw [digitAt, List.getD_eq_getElem?_getD, List.getElem?_eq_getElem h, Option.getD_some]

theorem digitAt_lt {i j : Nat} (h : i < j) (hj : j < 62) : digitAt i < digitAt j := by
  rw [digitAt_eq (h.trans hj), digitAt_eq hj]
  exact List.pairwise_iff_getElem.1 digits_ascending i j (h.trans hj) hj h

theorem digitAt_mem {i : Nat} (h : i < 62) : digitAt i ∈ BASE_62_DIGITS := by
  rw [digitAt_eq h]
  exact List.getElem_mem h

theorem idxOf_digitAt : ∀ i : Fin 62, BASE_62_DIGITS.idxOf? (digitAt i.val) = some i.val := by
  decide

theorem indexOf_digitAt {i : Nat} (h : i < 62) : indexOf (digitAt i) = .ok i := by
  rw [indexOf, idxOf_digitAt ⟨i, h⟩]

/-- A digit by its index. -/
theorem exists_digitAt {c : Char} (h : c ∈ BASE_62_DIGITS) : ∃ i, i < 62 ∧ digitAt i = c := by
  obtain ⟨i, hi, rfl⟩ := List.mem_iff_getElem.1 h
  exact ⟨i, hi, digitAt_eq hi⟩

theorem digitAt_ne_zero {i : Nat} (h : 0 < i) (hi : i < 62) : digitAt i ≠ '0' :=
  (digitAt_lt h hi).ne'

theorem index_lt {i j : Nat} (hi : i < 62) (h : digitAt i < digitAt j) : i < j := by
  rcases Nat.lt_trichotomy i j with hij | rfl | hji
  · exact hij
  · exact absurd h (lt_irrefl _)
  · exact absurd h (lt_asymm (digitAt_lt hji hi))

theorem isDigits_nil : IsDigits [] := fun _ h => nomatch h

theorem IsDigits.cons {c : Char} {l : List Char} (hc : c ∈ BASE_62_DIGITS) (hl : IsDigits l) :
    IsDigits (c :: l) := fun d hd => by
  rcases List.mem_cons.1 hd with rfl | hd
  · exact hc
  · exact hl d hd

theorem IsDigits.tail {c : Char} {l : List Char} (h : IsDigits (c :: l)) : IsDigits l :=
  fun d hd => h d (List.mem_cons_of_mem c hd)

theorem IsDigits.append {l m : List Char} (hl : IsDigits l) (hm : IsDigits m) :
    IsDigits (l ++ m) := fun d hd => (List.mem_append.1 hd).elim (hl d) (hm d)

/-! ## Fractions -/

/-- Digits that do not end in zero. -/
structure IsFraction (f : OrderKey) : Prop where
  digits : IsDigits f
  noZero : endsWithZero f = false

theorem endsWithZero_cons {c : Char} {f : OrderKey} (h : f ≠ []) :
    endsWithZero (c :: f) = endsWithZero f := by
  cases f with
  | nil => exact absurd rfl h
  | cons d f => rw [endsWithZero, endsWithZero, List.getLast?_cons_cons]

theorem isFraction_nil : IsFraction [] := ⟨isDigits_nil, rfl⟩

theorem IsFraction.tail {c : Char} {f : OrderKey} (h : IsFraction (c :: f)) : IsFraction f := by
  rcases eq_or_ne f [] with rfl | hf
  · exact isFraction_nil
  · exact ⟨h.digits.tail, (endsWithZero_cons hf).symm.trans h.noZero⟩

theorem IsFraction.cons {c : Char} {f : OrderKey} (hc : c ∈ BASE_62_DIGITS) (h : IsFraction f)
    (hf : f ≠ []) : IsFraction (c :: f) :=
  ⟨h.digits.cons hc, (endsWithZero_cons hf).trans h.noZero⟩

theorem isFraction_digit {i : Nat} (h : 0 < i) (hi : i < 62) : IsFraction [digitAt i] where
  digits := isDigits_nil.cons (digitAt_mem hi)
  noZero := by
    rw [endsWithZero, List.getLast?_singleton]
    exact beq_eq_false_iff_ne.2 fun he => digitAt_ne_zero h hi (Option.some.inj he)

theorem IsFraction.ne_zero {f : OrderKey} (h : IsFraction ('0' :: f)) : f ≠ [] := by
  rintro rfl
  exact absurd h.noZero (by decide)

/-! ## Above one fraction -/

theorem midpointAbove_spec {a : OrderKey} (h : IsFraction a) :
    ∃ m, midpointAbove a = .ok m ∧ a < m ∧ IsFraction m ∧ m ≠ [] := by
  induction a with
  | nil =>
    exact ⟨_, rfl, nil_lt_of_ne_nil (List.cons_ne_nil _ _), isFraction_digit (by decide) (by decide),
      List.cons_ne_nil _ _⟩
  | cons c a ih =>
    obtain ⟨i, hi, rfl⟩ := exists_digitAt (h.digits c List.mem_cons_self)
    obtain ⟨m, hm, ham, hfrac, hne⟩ := ih h.tail
    have hrun : midpointAbove (digitAt i :: a) =
        if 62 - i > 1 then .ok [digitAt ((i + 62 + 1) / 2)]
        else (digitAt i :: ·) <$> midpointAbove a := by
      rw [midpointAbove, h.noZero, if_neg Bool.false_ne_true, indexOf_digitAt hi, ok_bind]
      rfl
    rw [hrun]
    split
    · -- the middle of the digit and the end
      have hlt : i < (i + 62 + 1) / 2 := by omega
      have hle : (i + 62 + 1) / 2 < 62 := by omega
      exact ⟨_, rfl, List.Lex.rel (digitAt_lt hlt hle), isFraction_digit (by omega) hle,
        List.cons_ne_nil _ _⟩
    · rw [hm]
      exact ⟨_, rfl, List.Lex.cons ham, hfrac.cons (digitAt_mem hi) hne, List.cons_ne_nil _ _⟩

/-! ## Between two fractions -/

/-- One digit in common stripped. -/
theorem midpointBelow_cons {a b : OrderKey} {c : Char} (hc : a.headD '0' = c) (hlt : a < c :: b)
    (ha : endsWithZero a = false) (hb : endsWithZero (c :: b) = false) (htail : a.tail < b)
    (ha' : endsWithZero a.tail = false) (hb' : endsWithZero b = false) :
    midpointBelow a (c :: b) = (c :: ·) <$> midpointBelow a.tail b := by
  have hlen : commonLength a (c :: b) = commonLength a.tail b + 1 := by
    rw [commonLength, if_pos hc]
  have hdrop : a.drop (commonLength a.tail b + 1) = a.tail.drop (commonLength a.tail b) := by
    cases a with
    | nil => simp
    | cons d a => rfl
  rw [midpointBelow, if_neg (not_not.2 hlt), ha, hb, hlen, if_neg (by decide),
    if_pos (Nat.succ_pos _), hdrop, List.take_succ_cons, List.drop_succ_cons]
  rcases Nat.eq_zero_or_pos (commonLength a.tail b) with h0 | hpos
  · rw [h0]
    rfl
  · conv_rhs => rw [midpointBelow, if_neg (not_not.2 htail), ha', hb', if_neg (by decide),
      if_pos hpos, ← comp_map]
    rfl

/-- (PROVED) The midpoint of two fractions is a fraction strictly between them. -/
theorem midpointBelow_spec {a b : OrderKey} (ha : IsFraction a) (hb : IsFraction b) (h : a < b) :
    ∃ m, midpointBelow a b = .ok m ∧ a < m ∧ m < b ∧ IsFraction m ∧ m ≠ [] := by
  induction b generalizing a with
  | nil => cases h
  | cons c b ih =>
    have hcd := hb.digits c List.mem_cons_self
    obtain ⟨j, hj, rfl⟩ := exists_digitAt hcd
    by_cases hc : a.headD '0' = digitAt j
    · -- a digit in common
      have htail : a.tail < b ∧ IsFraction a.tail := by
        cases a with
        | nil =>
          rw [← show '0' = digitAt j from hc] at hb
          exact ⟨nil_lt_of_ne_nil hb.ne_zero, isFraction_nil⟩
        | cons d a =>
          obtain rfl : d = digitAt j := hc
          exact ⟨lt_of_append_left_lt (l := [digitAt j]) h, ha.tail⟩
      obtain ⟨m, hm, ham, hmb, hfrac, hne⟩ := ih htail.2 hb.tail htail.1
      refine ⟨digitAt j :: m, ?_, ?_, List.Lex.cons hmb, hfrac.cons hcd hne, List.cons_ne_nil _ _⟩
      · rw [midpointBelow_cons hc h ha.noZero hb.noZero htail.1 htail.2.noZero hb.tail.noZero, hm]
        rfl
      · cases a with
        | nil => exact List.Lex.nil
        | cons d a =>
          obtain rfl : d = digitAt j := hc
          exact List.Lex.cons ham
    · -- the first digits differ
      obtain ⟨i, hi, hij, hidx, hhead⟩ : ∃ i, i < 62 ∧ i < j ∧
          firstIndex a = .ok i ∧ digitAt i = a.headD '0' := by
        cases a with
        | nil =>
          have hj0 : j ≠ 0 := fun h0 => hc (by rw [h0]; rfl)
          exact ⟨0, by decide, Nat.pos_of_ne_zero hj0, rfl, rfl⟩
        | cons d a =>
          obtain ⟨i, hi, rfl⟩ := exists_digitAt (ha.digits d List.mem_cons_self)
          refine ⟨i, hi, index_lt hi ?_, indexOf_digitAt hi, rfl⟩
          exact (List.cons_lt_cons_iff.1 h).resolve_right fun he => hc he.1
      have habove : ∀ {x : OrderKey} {k : Nat}, i < k → k < 62 → a < digitAt k :: x := by
        intro x k hik hk
        cases a with
        | nil => exact List.Lex.nil
        | cons d a =>
          obtain rfl : digitAt i = d := hhead
          exact List.Lex.rel (digitAt_lt hik hk)
      have hrun : midpointBelow a (digitAt j :: b) =
          if j - i > 1 then .ok [digitAt ((i + j + 1) / 2)]
          else if 1 < (digitAt j :: b).length then .ok [digitAt j]
          else (digitAt i :: ·) <$> midpointAbove a.tail := by
        rw [midpointBelow, if_neg (not_not.2 h), ha.noZero, hb.noZero, if_neg (by decide),
          commonLength, if_neg hc, if_neg (Nat.lt_irrefl 0), hidx, ok_bind, firstIndex,
          indexOf_digitAt hj, ok_bind]
        rfl
      rw [hrun]
      split
      · have hlt : (i + j + 1) / 2 < j := by omega
        exact ⟨_, rfl, habove (by omega) (by omega), List.Lex.rel (digitAt_lt hlt hj),
          isFraction_digit (by omega) (by omega), List.cons_ne_nil _ _⟩
      · split
        · next hlen =>
          refine ⟨_, rfl, habove hij hj, List.Lex.cons (nil_lt_of_ne_nil ?_),
            isFraction_digit (by omega) hj, List.cons_ne_nil _ _⟩
          rintro rfl
          exact absurd hlen (by simp)
        · have htail : IsFraction a.tail := by
            cases a with
            | nil => exact isFraction_nil
            | cons d a => exact ha.tail
          obtain ⟨m, hm, ham, hfrac, hne⟩ := midpointAbove_spec htail
          refine ⟨digitAt i :: m, by rw [hm]; rfl, ?_, List.Lex.rel (digitAt_lt hij hj),
            hfrac.cons (digitAt_mem hi) hne, List.cons_ne_nil _ _⟩
          cases a with
          | nil => exact List.Lex.nil
          | cons d a =>
            obtain rfl : digitAt i = d := hhead
            exact List.Lex.cons ham

end Virtuals.FractionalIndex
