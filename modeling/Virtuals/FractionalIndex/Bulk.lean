/-
  The bulk functions: as many keys as asked for, ascending, between the bounds.

  `Spread a b n l` says that of a list. Spreads on both sides of a key between the bounds join
  (`Spread.join`), which is the recursion at a middle key; with nothing on one side it is a step of
  the walks from an open bound.
-/
import Virtuals.FractionalIndex.Suffixed

namespace Virtuals.FractionalIndex

open Virtuals.Lib

variable {a b : Option OrderKey} {c x : OrderKey} {m n length : Nat} {l r : List OrderKey}

/-! ## Spreads -/

/-- `n` valid keys, ascending, between the bounds. -/
structure Spread (a b : Option OrderKey) (n : Nat) (l : List OrderKey) : Prop where
  length : l.length = n
  ascending : l.Pairwise (· < ·)
  valid : ∀ k ∈ l, Valid k
  between : ∀ k ∈ l, Between a b k

theorem spread_nil : Spread a b 0 [] := ⟨rfl, List.Pairwise.nil, nofun, nofun⟩

theorem Between.up (h : Between (some c) b x) (hc : Between a b c) : Between a b x where
  above y hy := lt_trans (hc.above y hy) (h.above c rfl)
  below := h.below

theorem Between.down (h : Between a (some c) x) (hc : Between a b c) : Between a b x where
  above := h.above
  below y hy := lt_trans (h.below c rfl) (hc.below y hy)

/-- (PROVED) A key between the bounds, and spreads on both its sides. -/
theorem Spread.join (hl : Spread a (some c) m l) (hc : Valid c) (hbt : Between a b c)
    (hr : Spread (some c) b n r) : Spread a b (m + 1 + n) (l ++ c :: r) where
  length := by
    rw [List.length_append, List.length_cons, hl.length, hr.length]
    omega
  ascending := by
    have hlc : ∀ k ∈ l, k < c := fun k hk => (hl.between k hk).below c rfl
    have hcr : ∀ k ∈ r, c < k := fun k hk => (hr.between k hk).above c rfl
    refine List.pairwise_append.2 ⟨hl.ascending, List.pairwise_cons.2 ⟨hcr, hr.ascending⟩, ?_⟩
    intro k hk j hj
    rcases List.mem_cons.1 hj with rfl | hj
    · exact hlc k hk
    · exact lt_trans (hlc k hk) (hcr j hj)
  valid k hk := by
    rcases List.mem_append.1 hk with hk | hk
    · exact hl.valid k hk
    · rcases List.mem_cons.1 hk with rfl | hk
      · exact hc
      · exact hr.valid k hk
  between k hk := by
    rcases List.mem_append.1 hk with hk | hk
    · exact (hl.between k hk).down hbt
    · rcases List.mem_cons.1 hk with rfl | hk
      · exact hbt
      · exact (hr.between k hk).up hbt

/-- The least key first. -/
theorem Spread.cons (hc : Valid c) (hbt : Between a b c) (hr : Spread (some c) b n r) :
    Spread a b (n + 1) (c :: r) := by
  have h := Spread.join spread_nil hc hbt hr
  rwa [Nat.zero_add, Nat.add_comm] at h

/-- The greatest key last. -/
theorem Spread.concat (hl : Spread a (some c) n l) (hc : Valid c) (hbt : Between a b c) :
    Spread a b (n + 1) (l ++ [c]) :=
  hl.join hc hbt spread_nil

theorem spread_single (hc : Valid c) (hbt : Between a b c) : Spread a b 1 [c] :=
  Spread.cons hc hbt spread_nil

theorem bounds_above (hx : Valid x) : Bounds (some x) none where
  lower _ hy := Option.some.inj hy ▸ hx
  upper := nofun
  ordered := nofun

theorem bounds_below (hx : Valid x) : Bounds none (some x) where
  lower := nofun
  upper _ hy := Option.some.inj hy ▸ hx
  ordered := nofun

/-- The halves of a middle key make up what is asked for. -/
theorem halves (h0 : n ≠ 0) : n / 2 + 1 + (n - n / 2 - 1) = n := by omega

/-! ## Plain keys -/

/-- Above a valid key there is no failing bound. -/
theorem key_above (h : Bounds (some x) b) :
    ∃ k, generateKeyBetween (some x) b = .ok k ∧ Valid k ∧ Between (some x) b k :=
  (key_between_iff h).2 fun he => nomatch he.1

theorem keysAbove_spec (n : Nat) (hx : Valid x) :
    ∃ l, keysAbove x n = .ok l ∧ Spread (some x) none n l := by
  induction n generalizing x with
  | zero => exact ⟨[], rfl, spread_nil⟩
  | succ n ih =>
    obtain ⟨k, hk, hvalid, hbt⟩ := key_above (bounds_above hx)
    obtain ⟨l, hl, hspread⟩ := ih hvalid
    refine ⟨k :: l, ?_, Spread.cons hvalid hbt hspread⟩
    rw [keysAbove, hk, ok_bind, hl]
    rfl

/-- (PROVED) `generate_n_keys_between` above a valid key: the keys asked for. -/
theorem n_keys_between (h : Bounds (some x) b) (n : Nat) :
    ∃ l, generateNKeysBetween (some x) b n = .ok l ∧ Spread (some x) b n l := by
  induction n using Nat.strong_induction_on generalizing x b with
  | _ n ih =>
    rw [generateNKeysBetween]
    obtain ⟨c, hc, hvalid, hbt⟩ := key_above h
    by_cases h0 : n = 0
    · subst h0
      exact ⟨[], if_pos rfl, spread_nil⟩
    by_cases h1 : n = 1
    · subst h1
      rw [if_neg h0, if_pos rfl, hc]
      exact ⟨[c], rfl, spread_single hvalid hbt⟩
    rw [if_neg h0, if_neg h1]
    by_cases hb : b = none
    · subst hb
      obtain ⟨l, hl, hspread⟩ := keysAbove_spec (n - 1) hvalid
      rw [if_pos rfl, hc, ok_bind, hl]
      refine ⟨c :: l, rfl, ?_⟩
      rw [show n = n - 1 + 1 by omega]
      exact Spread.cons hvalid hbt hspread
    · obtain ⟨l, hl, hleft⟩ := ih (n / 2) (by omega) (h.left hvalid hbt)
      obtain ⟨r, hr, hright⟩ := ih (n - n / 2 - 1) (by omega) (h.right hvalid hbt)
      rw [if_neg hb, if_neg (Option.some_ne_none x), hc, ok_bind, hl, ok_bind, hr]
      refine ⟨l ++ c :: r, rfl, ?_⟩
      rw [← halves h0]
      exact hleft.join hvalid hbt hright

/-! ## Suffixed keys -/

theorem suffixedKeysAbove_spec (hlen : 1 ≤ length) (n : Nat) (hx : Valid x) (coins : Coins) :
    ∃ l coins', suffixedKeysAbove length x n coins = .ok l coins' ∧ Spread (some x) none n l := by
  induction n generalizing x coins with
  | zero => exact ⟨[], coins, rfl, spread_nil⟩
  | succ n ih =>
    obtain ⟨k, coins', hk, hvalid, hbt⟩ := suffixed_key_between (bounds_above hx) hlen coins
    obtain ⟨l, coins'', hl, hspread⟩ := ih hvalid coins'
    refine ⟨k :: l, coins'', ?_, Spread.cons hvalid hbt hspread⟩
    rw [suffixedKeysAbove, bind_of_ok hk, bind_of_ok hl]
    rfl

/-- The keys come from the greatest down. -/
theorem suffixedKeysBelow_spec (hlen : 1 ≤ length) (n : Nat) (hx : Valid x) (coins : Coins) :
    ∃ l coins', suffixedKeysBelow length x n coins = .ok l coins' ∧
      Spread none (some x) n l.reverse := by
  induction n generalizing x coins with
  | zero => exact ⟨[], coins, rfl, spread_nil⟩
  | succ n ih =>
    obtain ⟨k, coins', hk, hvalid, hbt⟩ := suffixed_key_between (bounds_below hx) hlen coins
    obtain ⟨l, coins'', hl, hspread⟩ := ih hvalid coins'
    refine ⟨k :: l, coins'', ?_, ?_⟩
    · rw [suffixedKeysBelow, bind_of_ok hk, bind_of_ok hl]
      rfl
    · rw [List.reverse_cons]
      exact hspread.concat hvalid hbt

/-- (PROVED) `generate_n_suffixed_keys_between`: the keys asked for, whatever is drawn. -/
theorem n_suffixed_spec (hlen : 1 ≤ length) (h : Bounds a b) (n : Nat) (coins : Coins) :
    ∃ l coins', generateNSuffixedKeysBetween a b n length coins = .ok l coins' ∧
      Spread a b n l := by
  induction n using Nat.strong_induction_on generalizing a b coins with
  | _ n ih =>
    rw [generateNSuffixedKeysBetween]
    obtain ⟨c, coins', hc, hvalid, hbt⟩ := suffixed_key_between h hlen coins
    by_cases h0 : n = 0
    · subst h0
      exact ⟨[], coins, rfl, spread_nil⟩
    by_cases h1 : n = 1
    · subst h1
      rw [if_neg h0, if_pos rfl]
      exact ⟨[c], coins', map_of_ok hc, spread_single hvalid hbt⟩
    have hn : n = n - 1 + 1 := by omega
    rw [if_neg h0, if_neg h1]
    by_cases hb : b = none
    · subst hb
      obtain ⟨l, coins'', hl, hspread⟩ := suffixedKeysAbove_spec hlen (n - 1) hvalid coins'
      rw [if_pos rfl, bind_of_ok hc, bind_of_ok hl]
      refine ⟨c :: l, coins'', rfl, ?_⟩
      rw [hn]
      exact Spread.cons hvalid hbt hspread
    rw [if_neg hb]
    by_cases ha : a = none
    · subst ha
      obtain ⟨l, coins'', hl, hspread⟩ := suffixedKeysBelow_spec hlen (n - 1) hvalid coins'
      rw [if_pos rfl, bind_of_ok hc, bind_of_ok hl]
      refine ⟨(c :: l).reverse, coins'', rfl, ?_⟩
      rw [List.reverse_cons, hn]
      exact hspread.concat hvalid hbt
    · obtain ⟨l, coins₁, hl, hleft⟩ := ih (n / 2) (by omega) (h.left hvalid hbt) coins'
      obtain ⟨r, coins₂, hr, hright⟩ := ih (n - n / 2 - 1) (by omega) (h.right hvalid hbt) coins₁
      rw [if_neg ha, bind_of_ok hc, bind_of_ok hl, bind_of_ok hr]
      refine ⟨l ++ c :: r, coins₂, rfl, ?_⟩
      rw [← halves h0]
      exact hleft.join hvalid hbt hright

/-- **The bulk functions return exactly the keys asked for** (PROVED), valid, ascending and between
the bounds: suffixed keys for all bounds and draws, plain keys above a key. -/
theorem bulk_between :
    (∀ a b : Option OrderKey, Bounds a b → ∀ length : Nat, 1 ≤ length → ∀ (n : Nat) (coins : Coins),
      ∃ l coins', generateNSuffixedKeysBetween a b n length coins = .ok l coins' ∧
        Spread a b n l) ∧
    ∀ (x : OrderKey) (b : Option OrderKey), Bounds (some x) b → ∀ n : Nat,
      ∃ l, generateNKeysBetween (some x) b n = .ok l ∧ Spread (some x) b n l :=
  ⟨fun _ _ h _ hlen n coins => n_suffixed_spec hlen h n coins, fun _ _ h n => n_keys_between h n⟩

/-- Around the first key. -/
theorem bulk_between_a0 :
    (∃ l coins', generateNSuffixedKeysBetween none (some INTEGER_ZERO) 3 2 (fun n => n) =
        .ok l coins' ∧ Spread none (some INTEGER_ZERO) 3 l) ∧
    ∃ l, generateNKeysBetween (some INTEGER_ZERO) none 2 = .ok l ∧
      Spread (some INTEGER_ZERO) none 2 l :=
  ⟨bulk_between.1 _ _ (bounds_below (rfl : Valid INTEGER_ZERO)) 2 (by decide) 3 _,
    bulk_between.2 _ _ (bounds_above (rfl : Valid INTEGER_ZERO)) 2⟩

end Virtuals.FractionalIndex
