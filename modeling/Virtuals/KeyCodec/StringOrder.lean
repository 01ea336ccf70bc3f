/-
  What the string codec keeps of the order.

  Two words differ before the dot of the shorter one, or at it. There the dot stands against a
  character of the longer string, and below most characters but not below all: a string that goes on
  with a character below the dot comes before the shorter one. So the order of keys is kept exactly
  where their first difference is not of this kind, while prefixes and decoding need no such condition.
-/
import Virtuals.KeyCodec.StringKey

namespace Virtuals.KeyCodec.StringKey

open Lib

/-! ## Strings -/

/-- `t` goes on from `s` with a character below the separator. -/
def Dips (s t : PyStr) : Prop := ∃ c r, t = s ++ c :: r ∧ c < separator

theorem dips_cons {a : CodePoint} {s t : PyStr} (h : Dips s t) : Dips (a :: s) (a :: t) := by
  obtain ⟨c, r, rfl, hc⟩ := h
  exact ⟨c, r, rfl, hc⟩

theorem str_lt {s t : PyStr} (h : s < t) (hdip : ¬ Dips s t) (ht : separator ∉ t) (x y : PyStr) :
    s ++ separator :: x < t ++ separator :: y := by
  induction h with
  | nil =>
    rename_i c r
    rcases lt_trichotomy c separator with hc | rfl | hc
    · exact absurd ⟨c, r, rfl, hc⟩ hdip
    · exact absurd List.mem_cons_self ht
    · exact List.Lex.rel hc
  | cons _ ih =>
    exact List.Lex.cons (ih (fun hd => hdip (dips_cons hd)) fun hm => ht (List.mem_cons_of_mem _ hm))
  | rel hcd => exact List.Lex.rel hcd

theorem str_gt {s t : PyStr} (h : Dips s t) (x y : PyStr) :
    t ++ y < s ++ separator :: x := by
  obtain ⟨c, r, rfl, hc⟩ := h
  rw [List.append_assoc]
  exact List.append_left_lt (List.Lex.rel hc)

theorem lt_of_dips {s t : PyStr} (h : Dips s t) : s < t := by
  obtain ⟨c, r, rfl, -⟩ := h
  calc s = s ++ [] := (List.append_nil s).symm
    _ < s ++ c :: r := List.append_left_lt List.Lex.nil

/-! ## Segments -/

/-- `b` is above `a`, and its word is below that of `a`. -/
def Misplaced : KeySegment → KeySegment → Prop
  | .str s, .str t => Dips s t
  | _, _ => False

theorem wordOf_int (v : Int) (x : PyStr) : wordOf (.int v) ++ x =
    code '[' :: code 'i' :: code ']' :: ((integerText v).map code ++ separator :: x) := by
  simp [wordOf, partOf, typeInt, pyStr_eq]

theorem wordOf_str (s x : PyStr) : wordOf (.str s) ++ x =
    code '[' :: code 's' :: code ']' :: (s ++ separator :: x) := by
  simp [wordOf, partOf, typeStr, pyStr_eq]

theorem wordOf_head (a : KeySegment) : ∃ w, wordOf a = code '[' :: w := by
  cases a with
  | int v => exact ⟨_, rfl⟩
  | str s => exact ⟨_, rfl⟩

theorem integerText_lt {v w : Int} (hv : InRange v) (hw : InRange w) (h : v < w) (x y : PyStr) :
    (integerText v).map code ++ x < (integerText w).map code ++ y := by
  unfold InRange at hv hw
  have hbias : (v + 49999).toNat < (w + 49999).toNat := by omega
  have hmax : (w + 49999).toNat < 10 ^ 5 := by omega
  have hdigits := fun x y => padded_append_lt (by decide) hmax hbias x y
  have htext : ∀ (u : Int) (z : PyStr), (integerText u).map code ++ z =
      code (if u < 0 then 'n' else 'p') :: ((padded 5 (u + 49999).toNat).map code ++
        (('[' :: (signed 6 u ++ [']'])).map code ++ z)) := by
    intro u z
    rw [integerText, zfill_natText, List.map_append, List.map_cons, List.append_assoc]
    rfl
  rw [htext, htext]
  by_cases hneg : v < 0
  · by_cases hneg' : w < 0
    · rw [if_pos hneg, if_pos hneg']
      exact List.Lex.cons (hdigits _ _)
    · rw [if_pos hneg, if_neg hneg']
      exact List.Lex.rel (by decide)
  · have hneg' : ¬ w < 0 := by omega
    rw [if_neg hneg, if_neg hneg']
    exact List.Lex.cons (hdigits _ _)

/-- (PROVED) Words keep the order of segments that are not misplaced, whatever follows them. -/
theorem wordOf_lt {a b : KeySegment} (ha : Accepted a) (hb : Accepted b) (h : a < b)
    (hm : ¬ Misplaced a b) (x y : PyStr) : wordOf a ++ x < wordOf b ++ y := by
  cases a with
  | int v =>
    cases b with
    | int w =>
      rw [wordOf_int, wordOf_int]
      exact List.Lex.cons (List.Lex.cons (List.Lex.cons
        (integerText_lt ha hb (KeySegment.int_lt_int.1 h) _ _)))
    | str t =>
      rw [wordOf_int, wordOf_str]
      exact List.Lex.cons (List.Lex.rel (by decide))
  | str s =>
    cases b with
    | int w => exact absurd h KeySegment.not_str_lt_int
    | str t =>
      have hdot : separator ∉ t := hb separator (by decide)
      rw [wordOf_str, wordOf_str]
      exact List.Lex.cons (List.Lex.cons (List.Lex.cons
        (str_lt (KeySegment.str_lt_str.1 h) hm hdot _ _)))

theorem wordOf_gt {a b : KeySegment} (hm : Misplaced a b) (x y : PyStr) :
    wordOf b ++ y < wordOf a ++ x := by
  cases a with
  | int v => exact hm.elim
  | str s =>
    cases b with
    | int w => exact hm.elim
    | str t =>
      rw [wordOf_str, wordOf_str]
      exact List.Lex.cons (List.Lex.cons (List.Lex.cons (str_gt hm _ _)))

theorem lt_of_misplaced {a b : KeySegment} (hm : Misplaced a b) : a < b := by
  cases a with
  | int v => exact hm.elim
  | str s =>
    cases b with
    | int w => exact hm.elim
    | str t => exact KeySegment.str_lt_str.2 (lt_of_dips hm)

theorem wordOf_ne {a b : KeySegment} (ha : Accepted a) (hb : Accepted b) (h : a < b)
    (x y : PyStr) : wordOf a ++ x ≠ wordOf b ++ y := by
  intro he
  by_cases hm : Misplaced a b
  · exact List.lt_irrefl _ (he ▸ wordOf_gt hm x y)
  · exact List.lt_irrefl _ (he ▸ wordOf_lt ha hb h hm x y)

/-- (PROVED) Words can be told apart, below the character that bounds a prefix. -/
theorem wordCode_wordOf : WordCode Accepted (code '~') wordOf where
  head := fun a _ => by
    obtain ⟨w, hw⟩ := wordOf_head a
    exact ⟨code '[', w, hw, by decide⟩
  inj := fun a b x y ha hb _ _ he => by
    rcases lt_trichotomy a b with hab | hab | hab
    · exact absurd he (wordOf_ne ha hb hab x y)
    · exact hab
    · exact absurd he.symm (wordOf_ne hb ha hab y x)

/-! ## Keys -/

/-- The keys' first difference is between two strings, of which the longer one goes on from the
    shorter one with a character below the separator. -/
def Clash (a b : Key) : Prop :=
  ∃ p x y a' b', a = p ++ x :: a' ∧ b = p ++ y :: b' ∧ (Misplaced x y ∨ Misplaced y x)

theorem flatMap_lt {a b : Key} (ha : ∀ s ∈ a, Accepted s) (hb : ∀ s ∈ b, Accepted s) (h : a < b)
    (hc : ¬ Clash a b) : a.flatMap wordOf < b.flatMap wordOf := by
  induction h with
  | nil =>
    rename_i t b
    obtain ⟨w, ht⟩ := wordOf_head t
    rw [List.flatMap_cons, ht]
    exact List.Lex.nil
  | cons _ ih =>
    rename_i s a b _
    rw [List.flatMap_cons, List.flatMap_cons]
    refine List.append_left_lt (ih (fun s hs => ha s (by simp [hs])) (fun s hs => hb s (by simp [hs]))
      ?_)
    rintro ⟨p, x, y, a', b', rfl, rfl, hm⟩
    exact hc ⟨s :: p, x, y, a', b', rfl, rfl, hm⟩
  | rel hst =>
    rename_i s a t b
    rw [List.flatMap_cons, List.flatMap_cons]
    refine wordOf_lt (ha s (by simp)) (hb t (by simp)) hst (fun hm => hc ?_) _ _
    exact ⟨[], s, t, a, b, rfl, rfl, .inl hm⟩

/-- At a clash the keys are ordered one way and their words the other way. -/
theorem flatMap_gt (p a' b' : Key) {x y : KeySegment} (hm : Misplaced x y) :
    p ++ x :: a' < p ++ y :: b' ∧
      (p ++ y :: b').flatMap wordOf < (p ++ x :: a').flatMap wordOf := by
  refine ⟨List.append_left_lt (List.Lex.rel (lt_of_misplaced hm)), ?_⟩
  rw [List.flatMap_append, List.flatMap_append, List.flatMap_cons, List.flatMap_cons]
  exact List.append_left_lt (wordOf_gt hm _ _)

theorem clash_comm {a b : Key} (h : Clash a b) : Clash b a := by
  obtain ⟨p, x, y, a', b', ha, hb, hm⟩ := h
  exact ⟨p, y, x, b', a', hb, ha, hm.symm⟩

/-- (PROVED) The order of two keys is kept exactly where they do not clash. -/
theorem order_kept_iff {a b : Key} (ha : ∀ s ∈ a, Accepted s) (hb : ∀ s ∈ b, Accepted s) :
    (a < b ↔ a.flatMap wordOf < b.flatMap wordOf) ↔ ¬ Clash a b := by
  constructor
  · rintro hiff ⟨p, x, y, a', b', rfl, rfl, hm | hm⟩
    · obtain ⟨hlt, hgt⟩ := flatMap_gt p a' b' hm
      exact List.lt_asymm hgt (hiff.1 hlt)
    · obtain ⟨hlt, hgt⟩ := flatMap_gt p b' a' hm
      exact List.lt_asymm hlt (hiff.2 hgt)
  · intro hc
    refine ⟨fun h => flatMap_lt ha hb h hc, fun h => ?_⟩
    rcases lt_trichotomy a b with hab | rfl | hab
    · exact hab
    · exact absurd h (List.lt_irrefl _)
    · exact absurd h (List.lt_asymm (flatMap_lt hb ha hab fun hc' => hc (clash_comm hc')))

/-! ## Decoding -/

theorem idxOf?_append_cons {c : CodePoint} {l : PyStr} (h : c ∉ l) (m : PyStr) :
    (l ++ c :: m).idxOf? c = some l.length := by
  have hnone : l.findIdx? (· == c) = none := by
    rw [List.findIdx?_eq_none_iff]
    intro d hd
    exact beq_eq_false_iff_ne.2 fun he => h (he ▸ hd)
  rw [List.idxOf?, List.findIdx?_append, hnone, List.findIdx?_cons]
  simp

/-- The sign and the biased numeral. -/
def biasedText (v : Int) : List Char :=
  (if v < 0 then 'n' else 'p') :: padded 5 (v + 49999).toNat

theorem integerText_eq (v : Int) :
    integerText v = biasedText v ++ '[' :: (signed 6 v ++ [']']) := by
  rw [integerText, zfill_natText]
  rfl

theorem not_mem_padded {c : Char} (h : c.isDigit = false) (width n : Nat) :
    c ∉ padded width n := by
  intro hm
  rw [padded_isDigit hm] at h
  cases h

theorem not_mem_biasedText {c : Char} (h : c.isDigit = false) (hn : c ≠ 'n') (hp : c ≠ 'p')
    (v : Int) : c ∉ biasedText v := by
  intro hm
  rcases List.mem_cons.1 hm with rfl | hm
  · split at hn
    · exact hn rfl
    · exact hp (if_neg ‹_›)
  · exact not_mem_padded h _ _ hm

theorem not_mem_signed {c : Char} (h : c.isDigit = false) (hm : c ≠ '-') (hp : c ≠ '+')
    (v : Int) : c ∉ signed 6 v := by
  intro hc
  rcases List.mem_cons.1 hc with hc | hc
  · split at hc
    · exact hm hc
    · exact hp hc
  · exact not_mem_padded h _ _ hc

theorem code_mem {c : Char} {l : List Char} : code c ∈ l.map code ↔ c ∈ l :=
  List.mem_map_of_injective code_injective

theorem separator_not_mem_partOf {a : KeySegment} (ha : Accepted a) : separator ∉ partOf a := by
  cases a with
  | int v =>
    intro hm
    rcases List.mem_append.1 hm with hm | hm
    · exact absurd hm (by decide)
    · rw [separator, code_mem, integerText_eq, List.mem_append, List.mem_cons, List.mem_append,
        List.mem_singleton] at hm
      rcases hm with hm | hm | hm | hm
      · exact not_mem_biasedText (by decide) (by decide) (by decide) v hm
      · exact absurd hm (by decide)
      · exact not_mem_signed (by decide) (by decide) (by decide) v hm
      · exact absurd hm (by decide)
  | str s =>
    intro hm
    rcases List.mem_append.1 hm with hm | hm
    · exact absurd hm (by decide)
    · exact ha separator (by decide) hm

theorem decodeInteger_integerText (t : CharTable) {v : Int} (hv : InRange v) :
    decodeInteger t ((integerText v).map code) = .ok v := by
  have htext : (integerText v).map code =
      (biasedText v).map code ++ code '[' :: ((signed 6 v).map code ++ [code ']']) := by
    rw [integerText_eq]
    simp
  have htext' : (integerText v).map code =
      ((biasedText v).map code ++ code '[' :: (signed 6 v).map code) ++ code ']' :: [] := by
    rw [htext]
    simp
  have hstart : code '[' ∉ (biasedText v).map code := fun hm =>
    not_mem_biasedText (by decide) (by decide) (by decide) v (code_mem.1 hm)
  have hend : code ']' ∉ (biasedText v).map code ++ code '[' :: (signed 6 v).map code := by
    intro hm
    rcases List.mem_append.1 hm with hm | hm
    · exact not_mem_biasedText (by decide) (by decide) (by decide) v (code_mem.1 hm)
    · rcases List.mem_cons.1 hm with hm | hm
      · exact absurd hm (by decide)
      · exact not_mem_signed (by decide) (by decide) (by decide) v (code_mem.1 hm)
  have hi : ((integerText v).map code).idxOf? (code '[') = some ((biasedText v).map code).length := by
    rw [htext, idxOf?_append_cons hstart]
  have hj := idxOf?_append_cons hend []
  rw [← htext'] at hj
  have hlen := congrArg List.length htext'
  rw [List.length_append, List.length_singleton] at hlen
  have hin : ¬ ((biasedText v).map code ++ code '[' :: (signed 6 v).map code).length ≠
      ((integerText v).map code).length - 1 := by omega
  have hoff : (((integerText v).map code).take
      ((biasedText v).map code ++ code '[' :: (signed 6 v).map code).length).drop
        (((biasedText v).map code).length + 1) = (signed 6 v).map code := by
    rw [htext', List.take_left, ← List.drop_drop, List.drop_left]
    rfl
  rw [decodeInteger, hi, hj]
  dsimp only
  rw [if_neg hin, hoff, intOfStr_signed]
  exact if_pos hv

theorem decodePart_partOf (t : CharTable) (i : Nat) {a : KeySegment} (ha : Accepted a) :
    decodePart t i (partOf a) = .ok a := by
  cases a with
  | int v =>
    have hne : ¬ partOf (.int v) = [] := List.cons_ne_nil _ _
    have hpre : typeInt.isPrefixOf (partOf (.int v)) = true :=
      List.isPrefixOf_iff_prefix.2 (List.prefix_append ..)
    rw [decodePart, if_neg hne, if_pos hpre, partOf, List.drop_left, decodeInteger_integerText t ha]
    rfl
  | str s =>
    have hne : ¬ partOf (.str s) = [] := List.cons_ne_nil _ _
    have hint : ¬ typeInt.isPrefixOf (partOf (.str s)) = true := Bool.false_ne_true
    have hpre : typeStr.isPrefixOf (partOf (.str s)) = true :=
      List.isPrefixOf_iff_prefix.2 (List.prefix_append ..)
    rw [decodePart, if_neg hne, if_neg hint, if_pos hpre, partOf, List.drop_left]

theorem decodeParts_map (t : CharTable) {k : Key} (hk : ∀ a ∈ k, Accepted a) (i : Nat) :
    decodeParts t i (k.map partOf) = .ok k := by
  induction k generalizing i with
  | nil => rfl
  | cons a k ih =>
    rw [List.map_cons, decodeParts, decodePart_partOf t i (hk a (by simp))]
    dsimp only
    rw [ih fun b hb => hk b (by simp [hb])]
    rfl

/-- (PROVED) The codec decodes what it encodes. -/
theorem decode_flatMap (t : CharTable) {k : Key} (hne : k ≠ []) (hk : ∀ a ∈ k, Accepted a) :
    decode t (k.flatMap wordOf) = .ok k := by
  have hparts : k.map partOf ≠ [] := fun h => hne (List.map_eq_nil_iff.1 h)
  have hsep : ∀ l ∈ k.map partOf, separator ∉ l := by
    intro l hl
    obtain ⟨a, ha, rfl⟩ := List.mem_map.1 hl
    exact separator_not_mem_partOf (hk a ha)
  have hjoin : ([separator].intercalate (k.map partOf)) ≠ [] := by
    intro he
    have hwords := joined_eq hne
    rw [he] at hwords
    cases k with
    | nil => exact hne rfl
    | cons a k =>
      obtain ⟨w, hw⟩ := wordOf_head a
      rw [List.flatMap_cons, hw] at hwords
      exact absurd (List.cons.inj hwords).1 (by decide)
  have hlast : ([separator].intercalate (k.map partOf) ++ [separator]).getLast? =
    some separator := List.getLast?_concat ..
  rw [← joined_eq hne, decode, if_neg (by simp), if_pos hlast]
  dsimp only
  rw [List.dropLast_concat, if_neg hjoin, List.splitOn_intercalate _ hsep hparts]
  exact decodeParts_map t hk 0

/-! ## The codec -/

/-- A key that the codec accepts, and its string. -/
structure AcceptedKey where
  key : Key
  encoded : PyStr
  encode_eq : encode key = .ok encoded

/-- (PROVED) Order, decoding and prefixes are kept together exactly where the keys do not clash. -/
theorem string_order (t : CharTable) (a b p : AcceptedKey) :
    ((a.key < b.key ↔ a.encoded < b.encoded) ∧ decode t a.encoded = .ok a.key ∧
      ∃ upper, upperBoundOfPrefix p.key = .ok upper ∧
        ((p.encoded ≤ a.encoded ∧ a.encoded < upper) ↔ p.key <+: a.key)) ↔
      ¬ Clash a.key b.key := by
  obtain ⟨ka, _, hea⟩ := a
  obtain ⟨kb, _, heb⟩ := b
  obtain ⟨kp, _, hep⟩ := p
  obtain ⟨hane, ha, rfl⟩ := encode_eq_ok.1 hea
  obtain ⟨hbne, hb, rfl⟩ := encode_eq_ok.1 heb
  obtain ⟨hpne, hp, rfl⟩ := encode_eq_ok.1 hep
  dsimp only
  rw [order_kept_iff ha hb]
  refine and_iff_left ⟨decode_flatMap t hane ha, kp.flatMap wordOf ++ [code '~'], ?_, ?_⟩
  · rw [upperBoundOfPrefix, hep]
    rfl
  · rw [← not_lt]
    exact wordCode_wordOf.range_iff hp ha

/-- A key of one name. -/
def named (s : PyStr) (h : Accepted (.str s)) : AcceptedKey where
  key := [.str s]
  encoded := wordOf (.str s)
  encode_eq := encode_eq_ok.2 ⟨List.cons_ne_nil _ _, fun a ha => by
    rw [List.mem_singleton.1 ha]
    exact h, List.flatMap_singleton ..⟩

/-- A name that goes on with a hyphen is above the name, and its string is below. -/
theorem string_disorder :
    ¬ ((named (pyStr "a") (by decide)).key < (named (pyStr "a-") (by decide)).key ↔
      (named (pyStr "a") (by decide)).encoded < (named (pyStr "a-") (by decide)).encoded) := by
  have hdips : Dips (pyStr "a") (pyStr "a-") := ⟨code '-', [], rfl, by decide⟩
  have hgt : wordOf (.str (pyStr "a-")) ++ [] < wordOf (.str (pyStr "a")) ++ [] :=
    @wordOf_gt (.str (pyStr "a")) (.str (pyStr "a-")) hdips [] []
  rw [List.append_nil, List.append_nil] at hgt
  intro h
  exact List.lt_asymm hgt (h.1 (List.Lex.rel (KeySegment.str_lt_str.2 (lt_of_dips hdips))))

end Virtuals.KeyCodec.StringKey
