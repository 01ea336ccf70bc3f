/-
  `generate_key_between` returns a key between its bounds.

  Between valid keys it returns a string that has the form of a key (`Formed`) and lies strictly
  between them. The form allows one string that is no key, the bare smallest integer: it is returned
  below the integer next to it, and only there (`keyBetween_spec`).
-/
import Virtuals.FractionalIndex.Integer

namespace Virtuals.FractionalIndex

open Virtuals.Lib

/-! ## Keys -/

/-- What `validate_order_key` accepts. -/
def Valid (key : OrderKey) : Prop := validateOrderKey key = .ok ()

/-- An integer part and a fraction. -/
def Formed (key : OrderKey) : Prop := ∃ i f, key = i ++ f ∧ IsInteger i ∧ IsFraction f

theorem IsInteger.formed {i : OrderKey} (h : IsInteger i) : Formed i :=
  ⟨i, [], (List.append_nil i).symm, h, isFraction_nil⟩

theorem IsInteger.append_inj {i j x y : OrderKey} (hi : IsInteger i) (hj : IsInteger j)
    (h : i ++ x = j ++ y) : i = j ∧ x = y := by
  have hij : i = j := by
    have hparts := hi.integerPart x
    rw [h, hj.integerPart y] at hparts
    exact (Except.ok.inj hparts).symm
  exact ⟨hij, List.append_cancel_left (hij ▸ h)⟩

theorem drop_of_all {i f : OrderKey} (hi : i ≠ []) (hd : IsDigits i) (hf : IsDigits f) :
    (i ++ f).tail.all (· ∈ BASE_62_DIGITS) = true := by
  refine List.all_eq_true.2 fun c hc => decide_eq_true ?_
  cases i with
  | nil => exact absurd rfl hi
  | cons h i => exact (hd.tail.append hf) c hc

/-- A formed string other than the bare smallest integer is a key. -/
theorem Formed.valid {key : OrderKey} (h : Formed key) (hs : key ≠ SMALLEST_INTEGER) :
    Valid key := by
  obtain ⟨i, f, rfl, hi, hf⟩ := h
  have hne : i ++ f ≠ [] := fun he => hi.ne_nil (List.append_eq_nil_iff.1 he).1
  rw [Valid, validateOrderKey, if_neg hne, if_neg hs, hi.integerPart, ok_bind, List.drop_left,
    hf.noZero, if_neg Bool.false_ne_true, if_pos (drop_of_all hi.ne_nil hi.digits hf.digits)]
  rfl

theorem Valid.formed {key : OrderKey} (h : Valid key) :
    Formed key ∧ key ≠ SMALLEST_INTEGER := by
  rw [Valid, validateOrderKey] at h
  split at h
  · cases h
  · split at h
    · cases h
    · next hne hs =>
      refine ⟨?_, hs⟩
      cases key with
      | nil => exact absurd rfl hne
      | cons head rest =>
        cases hlen : integerLength head with
        | error e =>
          rw [integerPart, hlen] at h
          cases h
        | ok n =>
          have hhead := mem_heads hlen
          obtain rfl : lengthOf head = n :=
            Except.ok.inj ((integerLength_of_head hhead).symm.trans hlen)
          have h2 := (head_bounds head hhead).2.2.1
          rw [integerPart, hlen, ok_bind] at h
          split at h
          · cases h
          · next hle =>
            rw [show (pure ((head :: rest).take (lengthOf head)) : Except OrderKeyError OrderKey) =
              .ok ((head :: rest).take (lengthOf head)) from rfl, ok_bind] at h
            have htake : ((head :: rest).take (lengthOf head)).length = lengthOf head := by
              rw [List.length_take]
              omega
            rw [htake] at h
            split at h
            · cases h
            · next hzero =>
              split at h
              · next hall =>
                have hdigits : IsDigits rest := fun c hc =>
                  of_decide_eq_true (List.all_eq_true.1 hall c hc)
                refine ⟨(head :: rest).take (lengthOf head), (head :: rest).drop (lengthOf head),
                  (List.take_append_drop _ _).symm, ?_, ?_⟩
                · obtain ⟨m, hm⟩ : ∃ m, lengthOf head = m + 1 := ⟨lengthOf head - 1, by omega⟩
                  rw [hm, List.take_succ_cons]
                  refine isInteger_cons hhead ?_ fun c hc => hdigits c (List.mem_of_mem_take hc)
                  rw [hm, List.take_succ_cons, List.length_cons] at htake
                  omega
                · refine ⟨fun c hc => ?_, Bool.eq_false_iff.2 hzero⟩
                  obtain ⟨m, hm⟩ : ∃ m, lengthOf head = m + 1 := ⟨lengthOf head - 1, by omega⟩
                  rw [hm, List.drop_succ_cons] at hc
                  exact hdigits c (List.mem_of_mem_drop hc)
              · cases h

theorem not_formed_lt_smallest {key : OrderKey} (h : Formed key) : ¬ key < SMALLEST_INTEGER := by
  obtain ⟨i, f, rfl, hi, -⟩ := h
  intro hlt
  rw [← List.append_nil SMALLEST_INTEGER] at hlt
  rcases hi.lt_or_eq isInteger_smallest hlt with hlt | ⟨-, hf⟩
  · exact hi.not_lt_smallest hlt
  · cases hf

/-! ## Bounds -/

/-- Above the lower bound and below the upper one, where they are given. -/
structure Between (a b : Option OrderKey) (k : OrderKey) : Prop where
  above : ∀ x ∈ a, x < k
  below : ∀ y ∈ b, k < y

/-- Bounds that may be asked for: valid keys in order. -/
structure Bounds (a b : Option OrderKey) : Prop where
  lower : ∀ x ∈ a, Valid x
  upper : ∀ y ∈ b, Valid y
  ordered : ∀ x ∈ a, ∀ y ∈ b, x < y

variable {a b : Option OrderKey} {k : OrderKey}

theorem validateBound_eq (h : ∀ x ∈ a, Valid x) : validateBound a = .ok () := by
  cases a with
  | none => rfl
  | some x => exact h x rfl

theorem checkOrdered_eq (h : ∀ x ∈ a, ∀ y ∈ b, x < y) : checkOrdered a b = .ok () := by
  cases a with
  | none => rfl
  | some x =>
    cases b with
    | none => rfl
    | some y => rw [checkOrdered, if_neg (not_not.2 (h x rfl y rfl))]

theorem Bounds.generate (h : Bounds a b) : generateKeyBetween a b = keyBetween a b := by
  rw [generateKeyBetween, validateBound_eq h.lower, ok_bind, validateBound_eq h.upper, ok_bind,
    checkOrdered_eq h.ordered, ok_bind]

theorem Bounds.left (h : Bounds a b) (hk : Valid k) (hbt : Between a b k) : Bounds a (some k) where
  lower := h.lower
  upper y hy := by
    obtain rfl := Option.some.inj hy
    exact hk
  ordered x hx y hy := by
    obtain rfl := Option.some.inj hy
    exact hbt.above x hx

theorem Bounds.right (h : Bounds a b) (hk : Valid k) (hbt : Between a b k) : Bounds (some k) b where
  lower x hx := by
    obtain rfl := Option.some.inj hx
    exact hk
  upper := h.upper
  ordered x hx y hy := by
    obtain rfl := Option.some.inj hx
    exact hbt.below y hy

theorem between_none_none : Between none none k where
  above _ h := nomatch h
  below _ h := nomatch h

theorem between_below {y : OrderKey} (h : k < y) : Between none (some y) k where
  above _ h := nomatch h
  below _ hy := Option.some.inj hy ▸ h

theorem between_above {x : OrderKey} (h : x < k) : Between (some x) none k where
  above _ hx := Option.some.inj hx ▸ h
  below _ h := nomatch h

theorem between_both {x y : OrderKey} (hx : x < k) (hy : k < y) : Between (some x) (some y) k where
  above _ h := Option.some.inj h ▸ hx
  below _ h := Option.some.inj h ▸ hy

/-! ## The key between -/

/-- Below a key. -/
theorem keyBetween_below {y : OrderKey} (hy : Valid y) :
    ∃ k, keyBetween none (some y) = .ok k ∧ Formed k ∧ k < y ∧
      (k = SMALLEST_INTEGER → y = SECOND_INTEGER) := by
  obtain ⟨⟨i, f, rfl, hi, hf⟩, hne⟩ := hy.formed
  have hrun : keyBetween none (some (i ++ f)) =
      if i = SMALLEST_INTEGER then (i ++ ·) <$> midpointBelow [] f
      else if i < i ++ f then .ok i
      else decrementInteger i >>= fun r => r.elim (.error .cannotDecrement) .ok := by
    rw [keyBetween, hi.integerPart, ok_bind, List.drop_left]
    rcases decrementInteger i with _ | _ | _ <;> rfl
  rw [hrun]
  by_cases hs : i = SMALLEST_INTEGER
  · have hfne : f ≠ [] := by
      rintro rfl
      exact hne (by rw [hs, List.append_nil])
    obtain ⟨m, hm, -, hlt, hfrac, hmne⟩ :=
      midpointBelow_spec isFraction_nil hf (nil_lt_of_ne_nil hfne)
    rw [if_pos hs, hm]
    refine ⟨i ++ m, rfl, ⟨i, m, rfl, hi, hfrac⟩, append_left_lt i hlt, fun he => ?_⟩
    rw [← List.append_nil SMALLEST_INTEGER] at he
    exact absurd (hi.append_inj isInteger_smallest he).2 hmne
  · rw [if_neg hs]
    by_cases hfne : f = []
    · subst hfne
      rw [List.append_nil, if_neg (lt_irrefl i)]
      rcases decrementInteger_spec hi with ⟨r, hr, hint, hlt, hsmall⟩ | ⟨-, he⟩
      · rw [hr]
        exact ⟨r, rfl, hint.formed, hlt, hsmall⟩
      · exact absurd he hs
    · have hlt := lt_append_of_ne_nil i hfne
      rw [if_pos hlt]
      exact ⟨i, rfl, hi.formed, hlt, fun he => absurd he hs⟩

/-- Above a key. -/
theorem keyBetween_above {x : OrderKey} (hx : Valid x) :
    ∃ k, keyBetween (some x) none = .ok k ∧ Formed k ∧ x < k := by
  obtain ⟨⟨i, f, rfl, hi, hf⟩, -⟩ := hx.formed
  have hrun : keyBetween (some (i ++ f)) none =
      incrementInteger i >>= fun r => r.elim ((i ++ ·) <$> midpointAbove f) .ok := by
    rw [keyBetween, hi.integerPart, ok_bind, List.drop_left]
    rcases incrementInteger i with _ | _ | _ <;> rfl
  rw [hrun]
  rcases incrementInteger_spec hi with ⟨r, hr, hint, hlt⟩ | ⟨hr, -⟩
  · rw [hr]
    refine ⟨r, rfl, hint.formed, ?_⟩
    rw [← List.append_nil r]
    exact hi.append_lt hint hlt f []
  · obtain ⟨m, hm, hlt, hfrac, -⟩ := midpointAbove_spec hf
    rw [hr, ok_bind, Option.elim_none, hm]
    exact ⟨i ++ m, rfl, ⟨i, m, rfl, hi, hfrac⟩, append_left_lt i hlt⟩

/-- Between two keys. -/
theorem keyBetween_both {x y : OrderKey} (hx : Valid x) (hy : Valid y) (h : x < y) :
    ∃ k, keyBetween (some x) (some y) = .ok k ∧ Formed k ∧ x < k ∧ k < y := by
  obtain ⟨⟨i, f, rfl, hi, hf⟩, -⟩ := hx.formed
  obtain ⟨⟨j, g, rfl, hj, hg⟩, -⟩ := hy.formed
  have hrun : keyBetween (some (i ++ f)) (some (j ++ g)) =
      if i = j then (i ++ ·) <$> midpointBelow f g
      else incrementInteger i >>= fun r => r.elim (.error .cannotIncrement) fun r =>
        if r < j ++ g then .ok r else (i ++ ·) <$> midpointAbove f := by
    rw [keyBetween, hi.integerPart, ok_bind, List.drop_left, hj.integerPart, ok_bind,
      List.drop_left]
    rcases incrementInteger i with _ | _ | _ <;> rfl
  rw [hrun]
  rcases hi.lt_or_eq hj h with hlt | ⟨rfl, hfg⟩
  · rw [if_neg hlt.ne]
    rcases incrementInteger_spec hi with ⟨r, hr, hint, hir⟩ | ⟨-, hlast⟩
    · rw [hr, ok_bind, Option.elim_some]
      by_cases hry : r < j ++ g
      · rw [if_pos hry]
        refine ⟨r, rfl, hint.formed, ?_, hry⟩
        rw [← List.append_nil r]
        exact hi.append_lt hint hir f []
      · obtain ⟨m, hm, hfm, hfrac, -⟩ := midpointAbove_spec hf
        rw [if_neg hry, hm]
        exact ⟨i ++ m, rfl, ⟨i, m, rfl, hi, hfrac⟩, append_left_lt i hfm, hi.append_lt hj hlt m g⟩
    · exact absurd hlt (hlast j hj)
  · obtain ⟨m, hm, hfm, hmg, hfrac, -⟩ := midpointBelow_spec hf hg hfg
    rw [if_pos rfl, hm]
    exact ⟨i ++ m, rfl, ⟨i, m, rfl, hi, hfrac⟩, append_left_lt i hfm, append_left_lt i hmg⟩

/-- (PROVED) Between valid bounds the result is formed and strictly between; it is no key only if it
is the smallest integer, below the next. -/
theorem keyBetween_spec (h : Bounds a b) :
    ∃ k, generateKeyBetween a b = .ok k ∧ Formed k ∧ Between a b k ∧
      (k = SMALLEST_INTEGER → a = none ∧ b = some SECOND_INTEGER) := by
  rw [h.generate]
  have hsmall : ∀ {x k : OrderKey}, Valid x → x < k → k ≠ SMALLEST_INTEGER := by
    rintro x k hx hlt rfl
    exact not_formed_lt_smallest hx.formed.1 hlt
  cases a with
  | none =>
    cases b with
    | none => exact ⟨_, rfl, isInteger_zero.formed, between_none_none, fun he => absurd he (by decide)⟩
    | some y =>
      obtain ⟨k, hk, hformed, hlt, he⟩ := keyBetween_below (h.upper y rfl)
      exact ⟨k, hk, hformed, between_below hlt, fun hs => ⟨rfl, congrArg some (he hs)⟩⟩
  | some x =>
    have hx : Valid x := h.lower x rfl
    cases b with
    | none =>
      obtain ⟨k, hk, hformed, hlt⟩ := keyBetween_above hx
      exact ⟨k, hk, hformed, between_above hlt, fun hs => absurd hs (hsmall hx hlt)⟩
    | some y =>
      obtain ⟨k, hk, hformed, hlt, hky⟩ :=
        keyBetween_both hx (h.upper y rfl) (h.ordered x rfl y rfl)
      exact ⟨k, hk, hformed, between_both hlt hky, fun hs => absurd hs (hsmall hx hlt)⟩

/-! ## Where the result is a key -/

instance (key : OrderKey) : Decidable (Valid key) :=
  match h : validateOrderKey key with
  | .ok () => isTrue h
  | .error _ => isFalse fun he => nomatch h.symm.trans he

/-- Below the integer next to the smallest, the bare smallest integer is returned, which
`validate_order_key` refuses. -/
theorem smallest_integer_returned : Bounds none (some SECOND_INTEGER) ∧
    generateKeyBetween none (some SECOND_INTEGER) = .ok SMALLEST_INTEGER ∧
    ¬ Valid SMALLEST_INTEGER := by
  refine ⟨⟨nofun, fun y hy => ?_, nofun⟩, rfl, by decide⟩
  obtain rfl := Option.some.inj hy
  exact rfl

/-- **`generate_key_between` returns a key strictly between its bounds, except for one pair of
bounds** (PROVED): nothing below, and the integer next to the smallest above. -/
theorem key_between_iff (h : Bounds a b) :
    (∃ k, generateKeyBetween a b = .ok k ∧ Valid k ∧ Between a b k) ↔
      ¬ (a = none ∧ b = some SECOND_INTEGER) := by
  constructor
  · rintro ⟨k, hk, hvalid, -⟩ ⟨rfl, rfl⟩
    have hrun : generateKeyBetween none (some SECOND_INTEGER) = .ok SMALLEST_INTEGER := rfl
    obtain rfl := Except.ok.inj (hrun.symm.trans hk)
    exact hvalid.formed.2 rfl
  · intro hne
    obtain ⟨k, hk, hformed, hbt, hs⟩ := keyBetween_spec h
    exact ⟨k, hk, hformed.valid fun he => hne (hs he), hbt⟩

/-- Between two keys next to each other. -/
theorem key_between_zz_a0 :
    (∃ k, generateKeyBetween (some ['Z', 'z']) (some ['a', '0']) = .ok k ∧ Valid k ∧
      Between (some ['Z', 'z']) (some ['a', '0']) k) ↔
      ¬ (some ['Z', 'z'] = none ∧ some ['a', '0'] = some SECOND_INTEGER) := by
  refine key_between_iff ⟨fun x hx => ?_, fun y hy => ?_, fun x hx y hy => ?_⟩
  · obtain rfl := Option.some.inj hx
    exact rfl
  · obtain rfl := Option.some.inj hy
    exact rfl
  · obtain rfl := Option.some.inj hx
    obtain rfl := Option.some.inj hy
    exact List.Lex.rel (by decide)

end Virtuals.FractionalIndex
