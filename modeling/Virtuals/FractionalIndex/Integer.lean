/-
  The integer parts of order keys and their neighbours.

  The first letter of an integer part fixes its length, so no integer part begins another, and what
  follows two different ones does not matter to their order. A carry changes the last digits that are
  `z`, and the letter if all of them are; a borrow likewise with zeros.
-/
import Virtuals.FractionalIndex.Midpoint

namespace Virtuals.FractionalIndex

open Virtuals.Lib

/-! ## Heads -/

/-- The letters that begin an integer part, ascending. -/
def heads : List Char := "ABCDEFGHIJKLMNOPQRSTUVWXYZabcdefghijklmnopqrstuvwxyz".toList

/-- The length of an integer part that begins with a letter. -/
def lengthOf (head : Char) : Nat :=
  if 'a' ≤ head then head.toNat - 'a'.toNat + 2 else 'Z'.toNat - head.toNat + 2

/-- What is decided of a list of characters one by one, and not of all characters. -/
theorem forall_mem_of_all {l : List Char} {p : Char → Prop} [DecidablePred p]
    (h : (l.all fun c => decide (p c)) = true) : ∀ c ∈ l, p c := fun c hc =>
  of_decide_eq_true (List.all_eq_true.1 h c hc)

theorem integerLength_head : ∀ h ∈ heads, ('a' ≤ h ∧ h ≤ 'z') ∨ ¬ 'a' ≤ h ∧ 'A' ≤ h ∧ h ≤ 'Z' :=
  forall_mem_of_all (by decide)

theorem integerLength_of_head {h : Char} (hh : h ∈ heads) :
    integerLength h = .ok (lengthOf h) := by
  rcases integerLength_head h hh with ha | ⟨ha, hA⟩
  · rw [integerLength, if_pos ha, lengthOf, if_pos ha.1]
  · rw [integerLength, if_neg fun he => ha he.1, if_pos hA, lengthOf, if_neg ha]

theorem letter_mem_heads : ∀ n : Fin 128, ('a'.toNat ≤ n.val ∧ n.val ≤ 'z'.toNat) ∨
    ('A'.toNat ≤ n.val ∧ n.val ≤ 'Z'.toNat) → Char.ofNat n.val ∈ heads := by
  decide

theorem mem_heads_of_toNat {h : Char} (hn : ('a'.toNat ≤ h.toNat ∧ h.toNat ≤ 'z'.toNat) ∨
    ('A'.toNat ≤ h.toNat ∧ h.toNat ≤ 'Z'.toNat)) : h ∈ heads := by
  have hz : 'z'.toNat = 122 := rfl
  have hZ : 'Z'.toNat = 90 := rfl
  have := letter_mem_heads ⟨h.toNat, by omega⟩ hn
  rwa [Char.ofNat_toNat] at this

theorem mem_heads {h : Char} {n : Nat} (hn : integerLength h = .ok n) : h ∈ heads := by
  rw [integerLength] at hn
  split at hn
  · next ha => exact mem_heads_of_toNat (Or.inl ha)
  · split at hn
    · next hA => exact mem_heads_of_toNat (Or.inr hA)
    · cases hn

/-- The next head: one letter up, and a digit more or less. -/
theorem next_head : ∀ h ∈ heads, h ≠ 'Z' → h ≠ 'z' →
    Char.ofNat (h.toNat + 1) ∈ heads ∧ h < Char.ofNat (h.toNat + 1) ∧
    lengthOf (Char.ofNat (h.toNat + 1)) =
      if 'a' < Char.ofNat (h.toNat + 1) then lengthOf h + 1 else lengthOf h - 1 :=
  forall_mem_of_all (by decide)

/-- The previous head: one letter down, and a digit more or less. -/
theorem previous_head : ∀ h ∈ heads, h ≠ 'a' → h ≠ 'A' →
    Char.ofNat (h.toNat - 1) ∈ heads ∧ Char.ofNat (h.toNat - 1) < h ∧
    lengthOf (Char.ofNat (h.toNat - 1)) =
      if Char.ofNat (h.toNat - 1) < 'Z' then lengthOf h + 1 else lengthOf h - 1 :=
  forall_mem_of_all (by decide)

theorem le_z : ∀ c ∈ BASE_62_DIGITS, ¬ 'z' < c := forall_mem_of_all (by decide)

theorem zero_le : ∀ c ∈ BASE_62_DIGITS, ¬ c < '0' := forall_mem_of_all (by decide)

theorem head_bounds : ∀ h ∈ heads, ¬ 'z' < h ∧ ¬ h < 'A' ∧ 2 ≤ lengthOf h ∧ h ∈ BASE_62_DIGITS :=
  forall_mem_of_all (by decide)

/-! ## Integer parts -/

/-- A letter and as many digits as it asks for. -/
structure IsInteger (i : OrderKey) : Prop where
  parts : ∃ head digs, i = head :: digs ∧ head ∈ heads ∧ i.length = lengthOf head ∧ IsDigits digs

theorem isInteger_cons {head : Char} {digs : List Char} (hh : head ∈ heads)
    (hlen : digs.length + 1 = lengthOf head) (hd : IsDigits digs) : IsInteger (head :: digs) :=
  ⟨head, digs, rfl, hh, hlen, hd⟩

theorem IsInteger.ne_nil {i : OrderKey} (h : IsInteger i) : i ≠ [] := by
  obtain ⟨head, digs, rfl, -⟩ := h.parts
  exact List.cons_ne_nil _ _

theorem IsInteger.digits {i : OrderKey} (h : IsInteger i) : IsDigits i := by
  obtain ⟨head, digs, rfl, hh, -, hd⟩ := h.parts
  exact hd.cons (head_bounds head hh).2.2.2

theorem IsInteger.validate {i : OrderKey} (h : IsInteger i) : validateInteger i = .ok () := by
  obtain ⟨head, digs, rfl, hh, hlen, -⟩ := h.parts
  rw [validateInteger, integerLength_of_head hh, ok_bind, if_neg (not_not.2 hlen)]
  rfl

/-- The integer part is read off what follows it. -/
theorem IsInteger.integerPart {i : OrderKey} (h : IsInteger i) (f : OrderKey) :
    integerPart (i ++ f) = .ok i := by
  obtain ⟨head, digs, rfl, hh, hlen, -⟩ := h.parts
  have hle : ¬ (head :: (digs ++ f)).length < lengthOf head := by
    rw [← hlen, List.length_cons, List.length_cons, List.length_append]
    omega
  rw [List.cons_append, FractionalIndex.integerPart, integerLength_of_head hh, ok_bind, if_neg hle,
    ← hlen, ← List.cons_append, List.take_left']
  · rfl
  · rfl

/-- No integer part begins another. -/
theorem IsInteger.eq_of_prefix {i j : OrderKey} (hi : IsInteger i) (hj : IsInteger j)
    (h : i <+: j) : i = j := by
  obtain ⟨head, digs, rfl, -, hlen, -⟩ := hi.parts
  obtain ⟨head', digs', rfl, -, hlen', -⟩ := hj.parts
  obtain ⟨rfl, -⟩ := List.cons_prefix_cons.1 h
  exact h.eq_of_length (hlen.trans hlen'.symm)

theorem IsInteger.append_lt {i j : OrderKey} (hi : IsInteger i) (hj : IsInteger j) (h : i < j)
    (x y : OrderKey) : i ++ x < j ++ y :=
  append_lt_of_not_prefix h (fun hp => lt_irrefl i (by rwa [← hi.eq_of_prefix hj hp] at h)) x y

/-- Keys are ordered by their integer parts, then by their fractions. -/
theorem IsInteger.lt_or_eq {i j x y : OrderKey} (hi : IsInteger i) (hj : IsInteger j)
    (h : i ++ x < j ++ y) : i < j ∨ i = j ∧ x < y := by
  rcases lt_trichotomy i j with hij | rfl | hji
  · exact Or.inl hij
  · exact Or.inr ⟨rfl, lt_of_append_left_lt h⟩
  · exact absurd h (lt_asymm (hj.append_lt hi hji y x))

theorem isInteger_smallest : IsInteger SMALLEST_INTEGER :=
  isInteger_cons (by decide) (by decide) (by
    intro c hc
    rw [List.eq_of_mem_replicate hc]
    decide)

theorem isInteger_zero : IsInteger INTEGER_ZERO :=
  isInteger_cons (by decide) (by decide) (by
    intro c hc
    rw [List.mem_singleton.1 hc]
    decide)

theorem not_lt_zeros {l : List Char} (h : IsDigits l) : ¬ l < List.replicate l.length '0' := by
  induction l with
  | nil => exact lt_irrefl _
  | cons c l ih =>
    intro hlt
    rcases List.cons_lt_cons_iff.1 hlt with hc | ⟨-, hlt⟩
    · exact zero_le c (h c List.mem_cons_self) hc
    · exact ih h.tail hlt

theorem not_zs_lt {l : List Char} (h : IsDigits l) : ¬ List.replicate l.length 'z' < l := by
  induction l with
  | nil => exact lt_irrefl _
  | cons c l ih =>
    intro hlt
    rcases List.cons_lt_cons_iff.1 hlt with hc | ⟨-, hlt⟩
    · exact le_z c (h c List.mem_cons_self) hc
    · exact ih h.tail hlt

/-- No integer part is below the smallest. -/
theorem IsInteger.not_lt_smallest {i : OrderKey} (h : IsInteger i) : ¬ i < SMALLEST_INTEGER := by
  obtain ⟨head, digs, rfl, hh, hlen, hd⟩ := h.parts
  intro hlt
  rcases List.cons_lt_cons_iff.1 hlt with hc | ⟨rfl, hdigs⟩
  · exact (head_bounds head hh).2.1 hc
  · have h26 : digs.length = 26 := Nat.succ.inj hlen
    exact not_lt_zeros hd (h26 ▸ hdigs)

/-! ## The next integer -/

theorem incrementDigits_spec {ds : List Char} (h : IsDigits ds) :
    ∃ ds' carry, incrementDigits ds = .ok (ds', carry) ∧ IsDigits ds' ∧
      ds'.length = ds.length ∧ (carry = false → ds < ds') ∧
      (carry = true → ds = List.replicate ds.length 'z') := by
  induction ds with
  | nil => exact ⟨[], true, rfl, isDigits_nil, rfl, nofun, fun _ => rfl⟩
  | cons c ds ih =>
    obtain ⟨ds', carry, hrun, hd, hlen, hlt, hz⟩ := ih h.tail
    obtain ⟨i, hi, rfl⟩ := exists_digitAt (h c List.mem_cons_self)
    have hlen' : ∀ d : Char, (d :: ds').length = (digitAt i :: ds).length := fun d => by
      rw [List.length_cons, List.length_cons, hlen]
    cases carry with
    | false =>
      refine ⟨digitAt i :: ds', false, ?_, hd.cons (digitAt_mem hi), hlen' _,
        fun _ => List.Lex.cons (hlt rfl), nofun⟩
      rw [incrementDigits, hrun]
      rfl
    | true =>
      have hcarry : incrementDigits (digitAt i :: ds) =
          if i + 1 = 62 then .ok ('0' :: ds', true) else .ok (digitAt (i + 1) :: ds', false) := by
        rw [incrementDigits, hrun, ok_bind]
        simp only [if_true, indexOf_digitAt hi, ok_bind]
        rfl
      by_cases hlast : i + 1 = 62
      · refine ⟨'0' :: ds', true, ?_, hd.cons (by decide), hlen' _, nofun, fun _ => ?_⟩
        · rw [hcarry, if_pos hlast]
        · obtain rfl : i = 61 := by omega
          rw [List.length_cons, List.replicate_succ, ← hz rfl]
          rfl
      · refine ⟨digitAt (i + 1) :: ds', false, ?_, hd.cons (digitAt_mem (by omega)), hlen' _,
          fun _ => List.Lex.rel (digitAt_lt (Nat.lt_succ_self i) (by omega)), nofun⟩
        rw [hcarry, if_neg hlast]

/-- The next integer part is above, or there is none above. -/
theorem incrementInteger_spec {i : OrderKey} (h : IsInteger i) :
    (∃ r, incrementInteger i = .ok (some r) ∧ IsInteger r ∧ i < r) ∨
    (incrementInteger i = .ok none ∧ ∀ j, IsInteger j → ¬ i < j) := by
  have hval := h.validate
  obtain ⟨head, digs, rfl, hh, hlen, hd⟩ := h.parts
  obtain ⟨digs', carry, hrun, hd', hlen', hlt, hz⟩ := incrementDigits_spec hd
  rw [incrementInteger, hval, ok_bind]
  simp only [hrun, ok_bind]
  rw [List.length_cons] at hlen
  cases carry with
  | false =>
    refine Or.inl ⟨head :: digs', rfl, isInteger_cons hh (by omega) hd', List.Lex.cons (hlt rfl)⟩
  | true =>
    by_cases hZ : head = 'Z'
    · refine Or.inl ⟨['a', '0'], by rw [if_pos hZ]; rfl, isInteger_zero, ?_⟩
      exact List.Lex.rel (by rw [hZ]; decide)
    · by_cases hzz : head = 'z'
      · refine Or.inr ⟨by rw [if_neg hZ, if_pos hzz]; rfl, fun j hj hlt => ?_⟩
        obtain ⟨head', digs₂, rfl, hh', hlen₂, hd₂⟩ := hj.parts
        rcases List.cons_lt_cons_iff.1 hlt with hc | ⟨rfl, hdigs⟩
        · exact (head_bounds head' hh').1 (hzz ▸ hc)
        · have hsame : digs.length = digs₂.length := Nat.succ.inj (hlen.trans hlen₂.symm)
          rw [hz rfl, hsame] at hdigs
          exact not_zs_lt hd₂ hdigs
      · obtain ⟨hmem, hup, hlength⟩ := next_head head hh hZ hzz
        rw [if_neg hZ, if_neg hzz]
        refine Or.inl ⟨_, rfl, isInteger_cons hmem ?_ ?_, List.Lex.rel hup⟩
        · have h2 := (head_bounds head hh).2.2.1
          rw [hlength]
          split
          · rw [List.length_append, List.length_singleton]
            omega
          · rw [List.length_dropLast]
            omega
        · split
          · exact hd'.append (isDigits_nil.cons (by decide))
          · exact fun c hc => hd' c (List.dropLast_subset _ hc)

/-! ## The previous integer -/

theorem decrementDigits_spec {ds : List Char} (h : IsDigits ds) :
    ∃ ds' borrow, decrementDigits ds = .ok (ds', borrow) ∧ IsDigits ds' ∧
      ds'.length = ds.length ∧ (borrow = false → ds' < ds) ∧
      (borrow = true → ds = List.replicate ds.length '0' ∧ ds' = List.replicate ds.length 'z') ∧
      (borrow = false → ds' = List.replicate ds.length '0' →
        ds = List.replicate (ds.length - 1) '0' ++ ['1']) := by
  induction ds with
  | nil => exact ⟨[], true, rfl, isDigits_nil, rfl, nofun, fun _ => ⟨rfl, rfl⟩, nofun⟩
  | cons c ds ih =>
    obtain ⟨ds', borrow, hrun, hd, hlen, hlt, hz, hone⟩ := ih h.tail
    obtain ⟨i, hi, rfl⟩ := exists_digitAt (h c List.mem_cons_self)
    have hlen' : ∀ d : Char, (d :: ds').length = (digitAt i :: ds).length := fun d => by
      rw [List.length_cons, List.length_cons, hlen]
    cases borrow with
    | false =>
      refine ⟨digitAt i :: ds', false, ?_, hd.cons (digitAt_mem hi), hlen' _,
        fun _ => List.Lex.cons (hlt rfl), nofun, fun _ hzero => ?_⟩
      · rw [decrementDigits, hrun]
        rfl
      · rw [List.length_cons, List.replicate_succ, List.cons.injEq] at hzero
        have hds := hone rfl hzero.2
        have hpos : ds.length = ds.length - 1 + 1 := by
          have := congrArg List.length hds
          rw [List.length_append, List.length_replicate] at this
          exact this
        rw [List.length_cons, Nat.add_sub_cancel, hpos, List.replicate_succ, List.cons_append,
          ← hds, hzero.1]
    | true =>
      obtain ⟨hzero, hzs⟩ := hz rfl
      by_cases hfirst : i = 0
      · subst hfirst
        refine ⟨'z' :: ds', true, ?_, hd.cons (by decide), hlen' _, nofun, fun _ => ?_, nofun⟩
        · rw [decrementDigits, hrun, ok_bind]
          simp only [if_true, indexOf_digitAt hi, ok_bind]
          rfl
        · rw [List.length_cons, List.replicate_succ, List.replicate_succ, ← hzero, ← hzs]
          exact ⟨rfl, rfl⟩
      · refine ⟨digitAt (i - 1) :: ds', false, ?_, hd.cons (digitAt_mem (by omega)), hlen' _,
          fun _ => List.Lex.rel (digitAt_lt (by omega) hi), nofun, fun _ hall => ?_⟩
        · rw [decrementDigits, hrun, ok_bind]
          simp only [if_true, indexOf_digitAt hi, ok_bind, if_neg hfirst]
          rfl
        · -- the digits after it are `z` and zero: there are none
          rw [List.length_cons, List.replicate_succ, List.cons.injEq] at hall
          have hnil : ds = [] := by
            cases ds with
            | nil => rfl
            | cons d ds =>
              rw [hzs, List.length_cons, List.replicate_succ, List.replicate_succ] at hall
              exact absurd (List.cons.inj hall.2).1 (by decide)
          have hi1 : i = 1 := by
            by_contra hne
            exact digitAt_ne_zero (by omega) (by omega) hall.1
          rw [hnil, hi1]
          rfl

/-- The integer part next to the smallest. -/
def SECOND_INTEGER : OrderKey := 'A' :: (List.replicate 25 '0' ++ ['1'])

/-- The previous integer part is below, or this is the smallest. -/
theorem decrementInteger_spec {i : OrderKey} (h : IsInteger i) :
    (∃ r, decrementInteger i = .ok (some r) ∧ IsInteger r ∧ r < i ∧
      (r = SMALLEST_INTEGER → i = SECOND_INTEGER)) ∨
    (decrementInteger i = .ok none ∧ i = SMALLEST_INTEGER) := by
  have hval := h.validate
  obtain ⟨head, digs, rfl, hh, hlen, hd⟩ := h.parts
  obtain ⟨digs', borrow, hrun, hd', hlen', hlt, hz, hone⟩ := decrementDigits_spec hd
  rw [decrementInteger, hval, ok_bind]
  simp only [hrun, ok_bind]
  rw [List.length_cons] at hlen
  cases borrow with
  | false =>
    refine Or.inl ⟨head :: digs', rfl, isInteger_cons hh (by omega) hd', List.Lex.cons (hlt rfl),
      fun hsmall => ?_⟩
    obtain ⟨rfl, hzeros⟩ := List.cons.inj hsmall
    have h26 : digs.length = 26 := Nat.succ.inj hlen
    have := hone rfl (by rw [h26]; exact hzeros)
    rw [h26] at this
    rw [SECOND_INTEGER, this]
  | true =>
    by_cases ha : head = 'a'
    · refine Or.inl ⟨['Z', 'z'], by rw [if_pos ha]; rfl, ?_, ?_, fun hsmall => ?_⟩
      · exact isInteger_cons (by decide) (by decide) (isDigits_nil.cons (by decide))
      · exact List.Lex.rel (by rw [ha]; decide)
      · exact absurd (List.cons.inj hsmall).1 (by decide)
    · by_cases hA : head = 'A'
      · refine Or.inr ⟨by rw [if_neg ha, if_pos hA]; rfl, ?_⟩
        subst hA
        have h26 : digs.length = 26 := Nat.succ.inj hlen
        rw [(hz rfl).1, h26]
        rfl
      · obtain ⟨hmem, hdown, hlength⟩ := previous_head head hh ha hA
        rw [if_neg ha, if_neg hA]
        refine Or.inl ⟨_, rfl, isInteger_cons hmem ?_ ?_, List.Lex.rel hdown, fun hsmall => ?_⟩
        · have h2 := (head_bounds head hh).2.2.1
          rw [hlength]
          split
          · rw [List.length_append, List.length_singleton]
            omega
          · rw [List.length_dropLast]
            omega
        · split
          · exact hd'.append (isDigits_nil.cons (by decide))
          · exact fun c hc => hd' c (List.dropLast_subset _ hc)
        · -- a borrow leaves `z` at the end
          obtain ⟨hhead, hzeros⟩ := List.cons.inj hsmall
          rw [if_pos (by rw [hhead]; decide)] at hzeros
          have hmem : 'z' ∈ List.replicate 26 '0' := by
            rw [← hzeros]
            exact List.mem_append_right _ List.mem_cons_self
          exact absurd (List.eq_of_mem_replicate hmem) (by decide)

end Virtuals.FractionalIndex
