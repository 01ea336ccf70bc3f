/-
  `generate_suffixed_key_between` ends, with a key between its bounds, whatever is drawn.

  The loop steps down through beginnings of the upper bound. Each is below the one before it, hence
  shorter (`stepDown_spec`), so as many rounds as the bound has characters are enough. The key that
  the loop ends with is no beginning of the bound: the two differ inside the key, and the tail cannot
  cross the bound. The bare smallest integer is the one key that may not become a bound; it is only
  reached from the integer next to it, and begins no string that the other begins.
-/
import Virtuals.FractionalIndex.Between

namespace Virtuals.FractionalIndex

open Virtuals.Lib

/-! ## The tail -/

theorem choice_spec {l : List Char} (hl : l ≠ []) (coins : Coins) :
    ∃ c, choice l coins = .ok c (fun n => coins (n + 1)) ∧ c ∈ l := by
  have hlt : coins 0 % l.length < l.length := Nat.mod_lt _ (List.length_pos_iff.2 hl)
  refine ⟨_, rfl, ?_⟩
  rw [List.getD_eq_getElem?_getD, List.getElem?_eq_getElem hlt]
  exact List.getElem_mem hlt

/-- Digits drawn one after another. -/
theorem mapM_choice_spec {l : List Char} (hl : l ≠ []) (ns : List Nat) (coins : Coins) :
    ∃ cs coins', ns.mapM (fun _ => choice l) coins = .ok cs coins' ∧ cs.length = ns.length ∧
      ∀ c ∈ cs, c ∈ l := by
  induction ns generalizing coins with
  | nil => exact ⟨[], coins, rfl, rfl, nofun⟩
  | cons n ns ih =>
    obtain ⟨c, hc, hmem⟩ := choice_spec hl coins
    obtain ⟨cs, coins', hcs, hlen, hall⟩ := ih fun n => coins (n + 1)
    refine ⟨c :: cs, coins', ?_, congrArg (· + 1) hlen, fun d hd => ?_⟩
    · rw [List.mapM_cons, bind_of_ok hc, bind_of_ok hcs]
      rfl
    · rcases List.mem_cons.1 hd with rfl | hd
      · exact hmem
      · exact hall d hd

/-- A tail is a fraction of the length asked for. -/
theorem randomSuffix_spec {length : Nat} (hlen : 1 ≤ length) (coins : Coins) :
    ∃ t coins', randomSuffix length coins = .ok t coins' ∧ t.length = length ∧ t ≠ [] ∧
      IsFraction t := by
  obtain ⟨body, coins', hbody, hn, hall⟩ :=
    mapM_choice_spec (by decide : BASE_62_DIGITS ≠ []) (List.range (length - 1)) coins
  obtain ⟨last, hlast, hmem⟩ := choice_spec (by decide : BASE_62_DIGITS.tail ≠ []) coins'
  have hne : last ≠ '0' := by
    rintro rfl
    exact absurd hmem (by decide)
  refine ⟨body ++ [last], fun n => coins' (n + 1), ?_, ?_, by simp, ?_, ?_⟩
  · rw [randomSuffix, if_neg (Nat.not_lt.2 hlen), bind_of_ok hbody, bind_of_ok hlast]
    rfl
  · rw [List.length_append, hn, List.length_range, List.length_singleton]
    omega
  · exact IsDigits.append hall fun c hc => List.mem_of_mem_tail (List.mem_singleton.1 hc ▸ hmem)
  · rw [endsWithZero, List.getLast?_append, List.getLast?_singleton, Option.some_or]
    exact beq_eq_false_iff_ne.2 fun h => hne (Option.some.inj h)

theorem IsFraction.append {f t : OrderKey} (hf : IsFraction f) (ht : IsFraction t) (hne : t ≠ []) :
    IsFraction (f ++ t) where
  digits := hf.digits.append ht.digits
  noZero := by
    obtain ⟨c, hc⟩ := Option.isSome_iff_exists.1 (List.getLast?_isSome.2 hne)
    rw [endsWithZero, List.getLast?_append, hc, Option.some_or, ← hc]
    exact ht.noZero

/-- A tail makes a key of whatever has the form of one. -/
theorem Formed.append {k t : OrderKey} (hk : Formed k) (ht : IsFraction t) (hne : t ≠ []) :
    Valid (k ++ t) := by
  obtain ⟨i, f, rfl, hi, hf⟩ := hk
  rw [List.append_assoc]
  refine Formed.valid ⟨i, f ++ t, rfl, hi, hf.append ht hne⟩ fun h => hne ?_
  rw [← List.append_nil SMALLEST_INTEGER] at h
  exact (List.append_eq_nil_iff.1 (hi.append_inj isInteger_smallest h).2).2

/-! ## The loop -/

variable {a : Option OrderKey} {b k : OrderKey}

/-- Of the two smallest integers only one begins a string. -/
theorem not_smallest_prefix (h : SECOND_INTEGER <+: b) : ¬ SMALLEST_INTEGER <+: b := by
  intro hs
  have hp := List.prefix_of_prefix_length_le hs h (by decide)
  exact absurd (hp.eq_of_length rfl) (by decide)

/-- What holds of the key at the head of the loop. -/
structure Stepping (a : Option OrderKey) (b k : OrderKey) : Prop where
  formed : Formed k
  between : Between a (some b) k
  /-- a beginning of the bound may become the bound -/
  bound : k <+: b → k ≠ SMALLEST_INTEGER

/-- The key below a bound that begins with the upper one, or is it. -/
theorem Stepping.of_generate {u : OrderKey} (hu : u <+: b) (h : Bounds a (some u)) :
    ∃ k, generateKeyBetween a (some u) = .ok k ∧ Stepping a b k ∧ k < u := by
  obtain ⟨k, hk, hformed, hbt, hs⟩ := keyBetween_spec h
  have hku : k < u := hbt.below u rfl
  obtain ⟨x, rfl⟩ := hu
  refine ⟨k, hk, ⟨hformed, ⟨hbt.above, ?_⟩, fun hp he => ?_⟩, hku⟩
  · rintro y ⟨⟩
    exact lt_append hku x
  · obtain ⟨-, hu⟩ := hs he
    obtain rfl := Option.some.inj hu
    exact not_smallest_prefix (List.prefix_append _ x) (he ▸ hp)

/-- (PROVED) The loop ends when the rounds outnumber the characters of a key that begins the bound. -/
theorem stepDown_spec (hlower : ∀ x ∈ a, Valid x) (rounds : Nat) (h : Stepping a b k)
    (hr : 0 < rounds) (hk : k <+: b → k.length < rounds) :
    ∃ k', stepDown a b rounds k = .ok k' ∧ Formed k' ∧ Between a (some b) k' ∧ ¬ k' <+: b := by
  induction rounds generalizing k with
  | zero => exact absurd hr (Nat.lt_irrefl 0)
  | succ rounds ih =>
    rw [stepDown]
    by_cases hp : k <+: b
    · have hvalid : Valid k := h.formed.valid (h.bound hp)
      have hbounds : Bounds a (some k) := by
        refine ⟨hlower, ?_, ?_⟩
        · rintro y ⟨⟩
          exact hvalid
        · rintro x hx y ⟨⟩
          exact h.between.above x hx
      obtain ⟨k', hk', hstep, hlt⟩ := Stepping.of_generate hp hbounds
      have hpos : 0 < k.length := by
        refine List.length_pos_iff.2 ?_
        rintro rfl
        exact absurd hlt (List.not_lt_nil k')
      have hlen := hk hp
      rw [if_pos (List.isPrefixOf_iff_prefix.2 hp), hk', ok_bind]
      exact ih hstep (by omega) fun hp' =>
        Nat.lt_of_lt_of_le (prefix_length_lt hp' hp hlt) (Nat.lt_succ_iff.1 hlen)
    · rw [if_neg fun he => hp (List.isPrefixOf_iff_prefix.1 he)]
      exact ⟨k, rfl, h.formed, h.between, hp⟩

/-- (PROVED) The key that the tail is appended to differs from the upper bound inside itself. -/
theorem baseKey_spec {b : Option OrderKey} (h : Bounds a b) :
    ∃ k, baseKey a b = .ok k ∧ Formed k ∧ Between a b k ∧ ∀ y ∈ b, ¬ k <+: y := by
  cases b with
  | none =>
    obtain ⟨k, hk, hformed, hbt, -⟩ := keyBetween_spec h
    exact ⟨k, hk, hformed, hbt, nofun⟩
  | some y =>
    obtain ⟨k, hk, hstep, -⟩ := Stepping.of_generate (List.prefix_refl y) h
    obtain ⟨k', hk', hformed, hbt, hp⟩ := stepDown_spec h.lower (y.length + 2) hstep
      (Nat.succ_pos _) fun hp => Nat.lt_of_le_of_lt hp.length_le (Nat.lt_add_of_pos_right (Nat.succ_pos 1))
    refine ⟨k', ?_, hformed, hbt, ?_⟩
    · rw [baseKey, hk, ok_bind, hk']
    · rintro y ⟨⟩
      exact hp

/-! ## The key with its tail -/

/-- (PROVED) What is drawn, and how the key is made of it. -/
theorem suffixed_spec {b : Option OrderKey} (h : Bounds a b) {length : Nat} (hlen : 1 ≤ length)
    (coins : Coins) : ∃ k t coins', baseKey a b = .ok k ∧
      generateSuffixedKeyBetween a b length coins = .ok (k ++ t) coins' ∧ Formed k ∧
      t.length = length ∧ Valid (k ++ t) ∧ Between a b (k ++ t) := by
  obtain ⟨k, hk, hformed, hbt, hp⟩ := baseKey_spec h
  obtain ⟨t, coins', ht, htlen, hne, hfrac⟩ := randomSuffix_spec hlen coins
  refine ⟨k, t, coins', hk, ?_, hformed, htlen, hformed.append hfrac hne, ?_, ?_⟩
  · rw [generateSuffixedKeyBetween, hk]
    exact (bind_of_ok (rfl : liftResult (.ok k) coins = .ok k coins)).trans
      ((bind_of_ok ht).trans rfl)
  · exact fun x hx => lt_append (hbt.above x hx) t
  · intro y hy
    rw [← List.append_nil y]
    exact append_lt_of_not_prefix (hbt.below y hy) (hp y hy) t []

/-- **`generate_suffixed_key_between` ends, with a valid key between its bounds** (PROVED), for all
bounds, tail lengths and draws. -/
theorem suffixed_key_between {b : Option OrderKey} (h : Bounds a b) {length : Nat}
    (hlen : 1 ≤ length) (coins : Coins) :
    ∃ k coins', generateSuffixedKeyBetween a b length coins = .ok k coins' ∧ Valid k ∧
      Between a b k := by
  obtain ⟨k, t, coins', -, hrun, -, -, hvalid, hbt⟩ := suffixed_spec h hlen coins
  exact ⟨k ++ t, coins', hrun, hvalid, hbt⟩

/-- Below a key that extends the integer before it. -/
theorem suffixed_key_between_a0_a01 :
    ∃ k coins', generateSuffixedKeyBetween none (some ['a', '0', '1']) 1 (fun n => n) = .ok k coins' ∧
      Valid k ∧ Between none (some ['a', '0', '1']) k := by
  have hbounds : Bounds none (some ['a', '0', '1']) := by
    refine ⟨nofun, ?_, nofun⟩
    rintro y ⟨⟩
    exact rfl
  exact suffixed_key_between hbounds (by decide) _

end Virtuals.FractionalIndex
