/-
  How long fresh keys are.

  Keys made one above the other from the first take one integer part after the next, and nothing of the
  fraction but their tail, as long as there is a next integer part. `rank` counts them from the first
  that begins with `z`; there are `CAPACITY` of those alone.
-/
import Mathlib.Tactic.Ring
import Virtuals.FractionalIndex.Bulk

namespace Virtuals.FractionalIndex

open Virtuals.Lib

/-! ## Integer parts, counted -/

/-- The number that a digit stands for. -/
def digitValue (c : Char) : Nat := (BASE_62_DIGITS.idxOf? c).getD 0

/-- The number that digits write. -/
def valueOf : List Char → Nat
  | [] => 0
  | c :: ds => digitValue c * 62 ^ ds.length + valueOf ds

/-- How many integer parts begin with `z`. -/
def CAPACITY : Nat := 62 ^ 26

/-- The place of an integer part among those that begin with `z`. -/
def rank : OrderKey → Nat
  | [] => 0
  | head :: digs => if head = 'z' then valueOf digs else 0

theorem digitValue_digitAt {i : Nat} (h : i < 62) : digitValue (digitAt i) = i := by
  rw [digitValue, idxOf_digitAt ⟨i, h⟩, Option.getD_some]

theorem valueOf_lt {ds : List Char} (h : IsDigits ds) : valueOf ds < 62 ^ ds.length := by
  induction ds with
  | nil => exact Nat.one_pos
  | cons c ds ih =>
    obtain ⟨i, hi, rfl⟩ := exists_digitAt (h c List.mem_cons_self)
    have hds := ih h.tail
    have hmul : i * 62 ^ ds.length + 62 ^ ds.length ≤ 62 * 62 ^ ds.length := by
      rw [← Nat.succ_mul]
      exact Nat.mul_le_mul_right _ hi
    rw [valueOf, digitValue_digitAt hi, List.length_cons, Nat.pow_succ']
    omega

theorem valueOf_concat_zero (ds : List Char) : valueOf (ds ++ ['0']) = 62 * valueOf ds := by
  induction ds with
  | nil => rfl
  | cons c ds ih =>
    rw [List.cons_append, valueOf, valueOf, ih, List.length_append, List.length_singleton,
      Nat.pow_succ']
    ring

/-- The next digits write the next number, or none of the carry is lost. -/
theorem valueOf_increment {ds ds' : List Char} {carry : Bool} (h : IsDigits ds)
    (hrun : incrementDigits ds = .ok (ds', carry)) :
    valueOf ds + 1 = valueOf ds' + if carry then 62 ^ ds.length else 0 := by
  induction ds generalizing ds' carry with
  | nil =>
    obtain ⟨rfl, rfl⟩ := Prod.mk.inj (Except.ok.inj hrun)
    rfl
  | cons c ds ih =>
    obtain ⟨i, hi, rfl⟩ := exists_digitAt (h c List.mem_cons_self)
    obtain ⟨next, up, hnext, -, hlen, -⟩ := incrementDigits_spec h.tail
    have hds := ih h.tail hnext
    rw [incrementDigits, hnext, ok_bind] at hrun
    cases up with
    | false =>
      obtain ⟨rfl, rfl⟩ := Prod.mk.inj (Except.ok.inj hrun)
      simp only [Bool.false_eq_true, if_false] at hds ⊢
      rw [valueOf, valueOf, hlen]
      omega
    | true =>
      simp only [if_true, indexOf_digitAt hi, ok_bind] at hrun hds
      rw [valueOf, digitValue_digitAt hi]
      by_cases hlast : i + 1 = 62
      · rw [if_pos (show i + 1 = BASE_62_DIGITS.length from hlast)] at hrun
        obtain ⟨rfl, rfl⟩ := Prod.mk.inj (Except.ok.inj hrun)
        obtain rfl : i = 61 := by omega
        rw [valueOf, show digitValue '0' = 0 from rfl, if_pos rfl, List.length_cons, Nat.pow_succ']
        omega
      · rw [if_neg (show ¬ i + 1 = BASE_62_DIGITS.length from hlast)] at hrun
        obtain ⟨rfl, rfl⟩ := Prod.mk.inj (Except.ok.inj hrun)
        rw [valueOf, digitValue_digitAt (by omega : i + 1 < 62), hlen, Nat.succ_mul]
        simp only [Bool.false_eq_true, if_false]
        omega

/-- A carry leaves zeros. -/
theorem valueOf_carry {ds ds' : List Char} (h : IsDigits ds)
    (hrun : incrementDigits ds = .ok (ds', true)) :
    valueOf ds' = 0 ∧ valueOf ds + 1 = 62 ^ ds.length := by
  have hval := valueOf_increment h hrun
  have hlt := valueOf_lt h
  rw [if_pos rfl] at hval
  omega

/-- The next integer part is at most one place further; the last has no place after it. -/
theorem rank_increment {i : OrderKey} (h : IsInteger i) :
    (∃ r, incrementInteger i = .ok (some r) ∧ IsInteger r ∧ rank r ≤ rank i + 1) ∨
    rank i + 1 = CAPACITY := by
  have hval := h.validate
  have hspec := incrementInteger_spec h
  obtain ⟨head, digs, rfl, hh, hlen, hd⟩ := h.parts
  obtain ⟨digs', carry, hrun, -, hlen', -⟩ := incrementDigits_spec hd
  rw [incrementInteger, hval, ok_bind] at hspec ⊢
  simp only [hrun, ok_bind] at hspec ⊢
  cases carry with
  | false =>
    have hvalue := valueOf_increment hd hrun
    rw [if_neg Bool.false_ne_true] at hvalue
    rcases hspec with ⟨r, hr, hint, -⟩ | ⟨hr, -⟩
    · refine Or.inl ⟨r, hr, hint, ?_⟩
      obtain rfl : head :: digs' = r := Option.some.inj (Except.ok.inj hr)
      rw [rank, rank]
      split_ifs <;> omega
    · cases hr
  | true =>
    obtain ⟨hzero, hall⟩ := valueOf_carry hd hrun
    by_cases hz : head = 'z'
    · -- all digits of the last are spent
      subst hz
      refine Or.inr ?_
      rw [rank, if_pos rfl, hall, CAPACITY, show digs.length = 26 from Nat.succ.inj hlen]
    · rcases hspec with ⟨r, hr, hint, -⟩ | ⟨hr, -⟩
      · refine Or.inl ⟨r, hr, hint, ?_⟩
        by_cases hZ : head = 'Z'
        · simp only [if_pos hZ, Bool.not_true, Bool.false_eq_true, if_false] at hr
          obtain rfl := Option.some.inj (Except.ok.inj hr)
          exact Nat.zero_le _
        · simp only [if_neg hZ, if_neg hz, Bool.not_true, Bool.false_eq_true, if_false] at hr
          obtain rfl := Option.some.inj (Except.ok.inj hr)
          rw [rank]
          split_ifs with hnext hup
          · rw [valueOf_concat_zero, hzero]
            exact Nat.zero_le _
          · exact absurd (by rw [hnext]; decide) hup
          · exact Nat.zero_le _
      · simp only [if_neg hz, Bool.not_true, Bool.false_eq_true, if_false] at hr
        split_ifs at hr <;> cases hr

theorem lengthOf_le : ∀ h ∈ heads, lengthOf h ≤ 27 := forall_mem_of_all (by decide)

theorem IsInteger.length_le {i : OrderKey} (h : IsInteger i) : i.length ≤ 27 := by
  obtain ⟨head, digs, rfl, hh, hlen, -⟩ := h.parts
  rw [hlen]
  exact lengthOf_le head hh

/-! ## Keys above one another -/

/-- A key with nothing but a tail after its integer part, that at most `n` integer parts come before. -/
def Plain (length n : Nat) (k : OrderKey) : Prop :=
  ∃ i t, k = i ++ t ∧ IsInteger i ∧ t.length = length ∧ rank i ≤ n

theorem Plain.length_le {length n : Nat} {k : OrderKey} (h : Plain length n k) :
    k.length ≤ 27 + length := by
  obtain ⟨i, t, rfl, hi, rfl, -⟩ := h
  rw [List.length_append]
  exact Nat.add_le_add_right hi.length_le _

variable {length n : Nat} {k : OrderKey}

/-- The first key of all. -/
theorem suffixed_first (hlen : 1 ≤ length) (coins : Coins) :
    ∃ k coins', generateSuffixedKeyBetween none none length coins = .ok k coins' ∧ Valid k ∧
      Plain length 0 k := by
  have hbounds : Bounds none none := ⟨nofun, nofun, nofun⟩
  obtain ⟨i, t, coins', hi, hrun, -, ht, hvalid, -⟩ := suffixed_spec hbounds hlen coins
  refine ⟨i ++ t, coins', hrun, hvalid, i, t, rfl, ?_⟩
  obtain rfl : INTEGER_ZERO = i := Except.ok.inj hi
  exact ⟨isInteger_zero, ht, Nat.le_refl _⟩

/-- The next key, while there is a next integer part. -/
theorem suffixed_next (hlen : 1 ≤ length) (hvalid : Valid k) (h : Plain length n k)
    (hn : n + 1 < CAPACITY) (coins : Coins) :
    ∃ k' coins', generateSuffixedKeyBetween (some k) none length coins = .ok k' coins' ∧ Valid k' ∧
      Plain length (n + 1) k' := by
  obtain ⟨i, f, rfl, hi, -, hrank⟩ := h
  obtain ⟨r, hr, hint, hle⟩ | hlast := rank_increment hi
  · obtain ⟨b, t, coins', hb, hrun, -, ht, hvalid', -⟩ :=
      suffixed_spec (bounds_above hvalid) hlen coins
    refine ⟨b ++ t, coins', hrun, hvalid', b, t, rfl, ?_⟩
    have hbase : baseKey (some (i ++ f)) none = .ok r := by
      rw [baseKey, (bounds_above hvalid).generate, keyBetween, hi.integerPart, ok_bind, hr, ok_bind]
      rfl
    obtain rfl := Except.ok.inj (hb.symm.trans hbase)
    exact ⟨hint, ht, by omega⟩
  · exact absurd hrank (by omega)

theorem suffixedKeysAbove_short (hlen : 1 ≤ length) (m : Nat) (hvalid : Valid k)
    (h : Plain length n k) (hn : n + m < CAPACITY) (coins : Coins) :
    ∃ l coins', suffixedKeysAbove length k m coins = .ok l coins' ∧
      ∀ x ∈ l, x.length ≤ 27 + length := by
  induction m generalizing n k coins with
  | zero => exact ⟨[], coins, rfl, nofun⟩
  | succ m ih =>
    obtain ⟨x, coins', hx, hvalid', hplain⟩ := suffixed_next hlen hvalid h (by omega) coins
    obtain ⟨l, coins'', hl, hshort⟩ := ih hvalid' hplain (by omega) coins'
    refine ⟨x :: l, coins'', ?_, ?_⟩
    · rw [suffixedKeysAbove, bind_of_ok hx, bind_of_ok hl]
      rfl
    · exact List.forall_mem_cons.2 ⟨hplain.length_le, hshort⟩

/-- (PROVED) Keys for a whole collection are short, up to as many as there are integer parts that begin
with `z`. -/
theorem n_suffixed_short (hlen : 1 ≤ length) (hn : n ≤ CAPACITY) {coins coins' : Coins}
    {l : List OrderKey} (hrun : generateNSuffixedKeysBetween none none n length coins = .ok l coins') :
    ∀ x ∈ l, x.length ≤ 27 + length := by
  obtain ⟨k, coins₁, hk, hvalid, hplain⟩ := suffixed_first hlen coins
  rw [generateNSuffixedKeysBetween] at hrun
  by_cases h0 : n = 0
  · rw [if_pos h0] at hrun
    cases hrun
    exact List.forall_mem_nil _
  by_cases h1 : n = 1
  · rw [if_neg h0, if_pos h1, map_of_ok hk] at hrun
    cases hrun
    exact List.forall_mem_singleton.2 hplain.length_le
  · obtain ⟨l', coins₂, hl, hshort⟩ :=
      suffixedKeysAbove_short hlen (n - 1) hvalid hplain (by omega) coins₁
    rw [if_neg h0, if_neg h1, if_pos rfl, bind_of_ok hk, bind_of_ok hl] at hrun
    cases hrun
    exact List.forall_mem_cons.2 ⟨hplain.length_le, hshort⟩

end Virtuals.FractionalIndex
