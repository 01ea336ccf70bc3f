/-
  Decimal numerals as Python writes and reads them.

  Numerals of one width are ordered as the numbers are. `int()` reads a numeral with a sign, with
  spaces around it and single underscores in it; the characters beyond ASCII that count as a digit or
  as a space are a table of the interpreter, and a parameter here.
-/
import Virtuals.Lib.Lexicographic
import Virtuals.Lib.Text
import Mathlib.Data.Char
import Mathlib.Data.List.DropRight

namespace Virtuals.Lib

/-! ## Characters -/

/-- The code point of a character. -/
def code (c : Char) : CodePoint := Fin.ofNat _ c.toNat

theorem val_code (c : Char) : (code c).val = c.toNat := by
  have hlt : c.toNat < 0x110000 := by
    have h := c.valid
    simp only [UInt32.isValidChar, Nat.isValidChar] at h
    have hn : c.toNat = c.val.toNat := rfl
    omega
  exact Nat.mod_eq_of_lt hlt

theorem code_lt {c d : Char} (h : c < d) : code c < code d := by
  rw [Fin.lt_def, val_code, val_code]
  exact h

theorem code_injective : Function.Injective code := fun c d h =>
  Char.toNat_inj.1 (by rw [← val_code, ← val_code, h])

theorem pyStr_eq (s : String) : pyStr s = s.toList.map code := rfl

/-- A difference of lists of one length stands, whatever follows. -/
theorem append_lt_of_length {α : Type*} [LT α] {l m : List α} (hlen : l.length = m.length)
    (h : l < m) (x y : List α) : l ++ x < m ++ y := by
  induction h with
  | nil => cases hlen
  | cons _ ih =>
    exact List.Lex.cons (ih (Nat.succ.inj hlen))
  | rel hab => exact List.Lex.rel hab

/-! ## Digits -/

theorem isDigit_toNat {c : Char} (h : c.isDigit = true) : 48 ≤ c.toNat ∧ c.toNat ≤ 57 := by
  simp only [Char.isDigit, Bool.and_eq_true, decide_eq_true_eq] at h
  exact h

theorem ofDigitChars_lt {l : List Char} (h : ∀ c ∈ l, c.isDigit = true) :
    Nat.ofDigitChars 10 l 0 < 10 ^ l.length := by
  induction l with
  | nil => simp
  | cons c l ih =>
    have hc := isDigit_toNat (h c (by simp))
    have hl := ih fun d hd => h d (by simp [hd])
    have hdig : c.toNat - '0'.toNat ≤ 9 := by
      have h0 : '0'.toNat = 48 := rfl
      omega
    rw [Nat.ofDigitChars_cons, Nat.ofDigitChars_eq_ofDigitChars_zero, List.length_cons, Nat.pow_succ]
    have hmul := Nat.mul_le_mul_left (10 ^ l.length) hdig
    rw [Nat.mul_zero, Nat.zero_add]
    omega

/-- (PROVED) Numerals of one width are ordered as their values are. -/
theorem lt_of_ofDigitChars_lt {l m : List Char} (hlen : l.length = m.length)
    (hl : ∀ c ∈ l, c.isDigit = true) (hm : ∀ c ∈ m, c.isDigit = true)
    (h : Nat.ofDigitChars 10 l 0 < Nat.ofDigitChars 10 m 0) : l < m := by
  induction l generalizing m with
  | nil =>
    cases m with
    | nil => exact absurd h (Nat.lt_irrefl _)
    | cons d m => cases hlen
  | cons c l ih =>
    cases m with
    | nil => cases hlen
    | cons d m =>
      have hl' : ∀ c ∈ l, c.isDigit = true := fun e he => hl e (by simp [he])
      have hm' : ∀ c ∈ m, c.isDigit = true := fun e he => hm e (by simp [he])
      have hlen' : l.length = m.length := Nat.succ.inj hlen
      rcases lt_trichotomy c.toNat d.toNat with hcd | hcd | hcd
      · exact List.Lex.rel hcd
      · obtain rfl := Char.toNat_inj.1 hcd
        rw [Nat.ofDigitChars_cons, Nat.ofDigitChars_cons, Nat.ofDigitChars_eq_ofDigitChars_zero,
          @Nat.ofDigitChars_eq_ofDigitChars_zero m, hlen'] at h
        exact List.Lex.cons (ih hlen' hl' hm' (Nat.lt_of_add_lt_add_left h))
      · have hlt := ofDigitChars_lt hm'
        have hc := isDigit_toNat (hl c (by simp))
        have hd := isDigit_toNat (hm d (by simp))
        have h0 : '0'.toNat = 48 := rfl
        have hstep : (d.toNat - '0'.toNat) + 1 ≤ c.toNat - '0'.toNat := by omega
        have hmul := Nat.mul_le_mul_left (10 ^ m.length) hstep
        rw [Nat.ofDigitChars_cons, Nat.ofDigitChars_cons, Nat.ofDigitChars_eq_ofDigitChars_zero,
          @Nat.ofDigitChars_eq_ofDigitChars_zero m, hlen', Nat.mul_zero, Nat.zero_add,
          Nat.zero_add] at h
        rw [Nat.mul_add] at hmul
        omega

/-! ## Padding -/

/-- A number's digits, with zeros before them up to the width. -/
def padded (width n : Nat) : List Char :=
  List.replicate (width - (natText n).length) '0' ++ natText n

theorem padded_isDigit {width n : Nat} {c : Char} (hc : c ∈ padded width n) :
    c.isDigit = true := by
  rcases List.mem_append.1 hc with hc | hc
  · rw [List.eq_of_mem_replicate hc]
    rfl
  · exact natText_isDigit hc

theorem length_padded {width n : Nat} (hw : 0 < width) (h : n < 10 ^ width) :
    (padded width n).length = width := by
  have hlen : (natText n).length ≤ width := (Nat.length_toDigits_le_iff (by decide) hw).2 h
  rw [padded, List.length_append, List.length_replicate]
  omega

theorem ofDigitChars_padded (width n : Nat) : Nat.ofDigitChars 10 (padded width n) 0 = n := by
  rw [padded, Nat.ofDigitChars_append, Nat.ofDigitChars_replicate_zero, Nat.mul_zero]
  exact Nat.ofDigitChars_ten_toDigits

theorem padded_lt {width m n : Nat} (hw : 0 < width) (hn : n < 10 ^ width) (h : m < n) :
    padded width m < padded width n := by
  refine lt_of_ofDigitChars_lt ?_ (fun _ => padded_isDigit) (fun _ => padded_isDigit) ?_
  · rw [length_padded hw (h.trans hn), length_padded hw hn]
  · rwa [ofDigitChars_padded, ofDigitChars_padded]

theorem map_code_lt {l m : List Char} (h : l < m) : l.map code < m.map code := by
  induction h with
  | nil => exact List.Lex.nil
  | cons _ ih => exact List.Lex.cons ih
  | rel hab => exact List.Lex.rel (code_lt hab)

/-- (PROVED) Padded numerals are ordered as the numbers are, whatever follows them. -/
theorem padded_append_lt {width m n : Nat} (hw : 0 < width) (hn : n < 10 ^ width) (h : m < n)
    (x y : PyStr) : (padded width m).map code ++ x < (padded width n).map code ++ y := by
  refine append_lt_of_length ?_ (map_code_lt (padded_lt hw hn h)) x y
  rw [List.length_map, List.length_map, length_padded hw (h.trans hn), length_padded hw hn]

/-! ## Numerals that outgrow their width -/

/-- (PROVED) The values of numerals of one width are ordered as the numerals are. -/
theorem ofDigitChars_lt_of_lt {l m : List Char} (hlen : l.length = m.length)
    (hl : ∀ c ∈ l, c.isDigit = true) (hm : ∀ c ∈ m, c.isDigit = true) (h : l < m) :
    Nat.ofDigitChars 10 l 0 < Nat.ofDigitChars 10 m 0 := by
  induction h with
  | nil => cases hlen
  | @cons c l m _ ih =>
    have hlen' : l.length = m.length := Nat.succ.inj hlen
    rw [Nat.ofDigitChars_cons, Nat.ofDigitChars_cons, Nat.ofDigitChars_eq_ofDigitChars_zero,
      @Nat.ofDigitChars_eq_ofDigitChars_zero m, hlen']
    exact Nat.add_lt_add_left (ih hlen' (fun d hd => hl d (List.mem_cons_of_mem _ hd))
      fun d hd => hm d (List.mem_cons_of_mem _ hd)) _
  | @rel c l d m hcd =>
    have hlen' : l.length = m.length := Nat.succ.inj hlen
    have hlt := ofDigitChars_lt fun d hd => hl d (List.mem_cons_of_mem _ hd)
    have hc := isDigit_toNat (hl c List.mem_cons_self)
    have hd := isDigit_toNat (hm d List.mem_cons_self)
    have hnat : c.toNat < d.toNat := hcd
    have h0 : '0'.toNat = 48 := rfl
    have hstep : (c.toNat - '0'.toNat) + 1 ≤ d.toNat - '0'.toNat := by omega
    have hmul := Nat.mul_le_mul_left (10 ^ l.length) hstep
    rw [Nat.ofDigitChars_cons, Nat.ofDigitChars_cons, Nat.ofDigitChars_eq_ofDigitChars_zero,
      @Nat.ofDigitChars_eq_ofDigitChars_zero m, ← hlen', Nat.mul_zero, Nat.zero_add, Nat.zero_add]
    rw [Nat.mul_add, Nat.mul_one] at hmul
    omega

/-- How many digits a number takes at a width. -/
def digits (width n : Nat) : Nat := (padded width n).length

theorem digits_mono {width m n : Nat} (h : m ≤ n) : digits width m ≤ digits width n := by
  have hlen : (natText m).length ≤ (natText n).length := by
    refine (Nat.length_toDigits_le_iff (by decide) (List.length_pos_iff.2 (natText_ne_nil n))).2 ?_
    exact Nat.lt_of_le_of_lt h ((Nat.length_toDigits_le_iff (by decide)
      (List.length_pos_iff.2 (natText_ne_nil n))).1 (Nat.le_refl _))
  rw [digits, digits, padded, padded, List.length_append, List.length_append,
    List.length_replicate, List.length_replicate]
  omega

theorem ofDigitChars_zeros (l : List Char) (d : Nat) :
    Nat.ofDigitChars 10 (l ++ List.replicate d '0') 0 = 10 ^ d * Nat.ofDigitChars 10 l 0 := by
  rw [Nat.ofDigitChars_append, Nat.ofDigitChars_replicate_zero]

/-- (PROVED) A longer numeral comes after a shorter one just if its number is at least the shorter
one's with as many zeros after it. -/
theorem padded_lt_iff {width m n : Nat} (h : m < n) : padded width m < padded width n ↔
    10 ^ (digits width n - digits width m) * m ≤ n := by
  have hle : digits width m ≤ digits width n := digits_mono h.le
  have hlen : (padded width m ++ List.replicate (digits width n - digits width m) '0').length =
      (padded width n).length := by
    rw [List.length_append, List.length_replicate]
    exact Nat.add_sub_cancel' hle
  have hzeros : ∀ c ∈ padded width m ++ List.replicate (digits width n - digits width m) '0',
      c.isDigit = true := by
    intro c hc
    rcases List.mem_append.1 hc with hc | hc
    · exact padded_isDigit hc
    · rw [List.eq_of_mem_replicate hc]
      rfl
  have hvalue : Nat.ofDigitChars 10
      (padded width m ++ List.replicate (digits width n - digits width m) '0') 0 =
      10 ^ (digits width n - digits width m) * m := by
    rw [ofDigitChars_zeros, ofDigitChars_padded]
  constructor
  · intro hlt
    by_cases hp : padded width m <+: padded width n
    · -- what follows the shorter one adds to its value
      obtain ⟨r, hr⟩ := hp
      have hrlen : digits width n - digits width m = r.length := by
        rw [digits, digits, ← hr, List.length_append, Nat.add_sub_cancel_left]
      have hn := ofDigitChars_padded width n
      rw [← hr, Nat.ofDigitChars_append, ofDigitChars_padded,
        Nat.ofDigitChars_eq_ofDigitChars_zero] at hn
      rw [hrlen, ← hn]
      exact Nat.le_add_right _ _
    · have hlt' := append_lt_of_not_prefix hlt hp
        (List.replicate (digits width n - digits width m) '0') []
      rw [List.append_nil] at hlt'
      have hv := ofDigitChars_lt_of_lt hlen hzeros (fun _ => padded_isDigit) hlt'
      rw [hvalue, ofDigitChars_padded] at hv
      exact hv.le
  · intro hmn
    by_contra hnot
    have hne : padded width n ≠ padded width m := fun he => by
      have hv := congrArg (Nat.ofDigitChars 10 · 0) he
      simp only [ofDigitChars_padded] at hv
      exact absurd hv h.ne'
    have hgt : padded width n < padded width m := lt_of_le_of_ne (not_lt.1 hnot) hne
    have hv := ofDigitChars_lt_of_lt hlen.symm (fun _ => padded_isDigit) hzeros (lt_append hgt _)
    rw [hvalue, ofDigitChars_padded] at hv
    exact absurd hmn (Nat.not_le.2 hv)

/-- `s.zfill(width)`. -/
def zfill (width : Nat) : List Char → List Char
  | c :: s =>
    if c = '+' ∨ c = '-' then c :: (List.replicate (width - (s.length + 1)) '0' ++ s)
    else List.replicate (width - (s.length + 1)) '0' ++ c :: s
  | [] => List.replicate width '0'

theorem zfill_natText (width n : Nat) : zfill width (natText n) = padded width n := by
  cases h : natText n with
  | nil => exact absurd h (natText_ne_nil n)
  | cons c s =>
    have hc : c.isDigit = true := natText_isDigit (by rw [h]; exact List.mem_cons_self)
    have hsign : ¬ (c = '+' ∨ c = '-') := by
      rintro (rfl | rfl) <;> exact absurd hc (by decide)
    rw [zfill, if_neg hsign, padded, h, List.length_cons]

/-- `f"{value:+0{width}d}"`, the sign and then zeros up to the width. -/
def signed (width : Nat) (value : Int) : List Char :=
  (if value < 0 then '-' else '+') :: padded (width - 1) value.natAbs

/-! ## Reading -/

/-- The digits and spaces beyond ASCII. -/
structure CharTable where
  isSpace : CodePoint → Bool
  decimal : CodePoint → Option (Fin 10)

/-- What `int()` takes a character for; a question mark is no part of a numeral. -/
def toAscii (t : CharTable) (c : CodePoint) : CodePoint :=
  if c < 127 then c
  else if t.isSpace c then code ' '
  else match t.decimal c with
    | some d => Fin.ofNat _ (48 + d.val)
    | none => code '?'

def isAsciiSpace (c : CodePoint) : Bool := (9 ≤ c && c ≤ 13) || c == 32

/-- Digits with single underscores between them; `after` says that the last one was a digit. -/
def readDigits (value : Nat) (after : Bool) : PyStr → Option Nat
  | [] => if after then some value else none
  | c :: s =>
    if 48 ≤ c ∧ c ≤ 57 then readDigits (10 * value + (c.val - 48)) true s
    else if c = code '_' ∧ after then readDigits value false s
    else none

/-- `int(s)`, or `ValueError`. -/
def intOfStr (t : CharTable) (s : PyStr) : Option Int :=
  match ((s.map (toAscii t)).dropWhile isAsciiSpace).rdropWhile isAsciiSpace with
  | [] => none
  | c :: digits =>
    if c = code '+' then (readDigits 0 false digits).map Int.ofNat
    else if c = code '-' then (readDigits 0 false digits).map (-Int.ofNat ·)
    else (readDigits 0 false (c :: digits)).map Int.ofNat

theorem code_digit {c : Char} (h : c.isDigit = true) : 48 ≤ code c ∧ code c ≤ 57 := by
  rw [Fin.le_def, Fin.le_def, val_code]
  exact isDigit_toNat h

theorem readDigits_map {l : List Char} (h : ∀ c ∈ l, c.isDigit = true) (value : Nat) :
    readDigits value true (l.map code) = some (Nat.ofDigitChars 10 l value) := by
  induction l generalizing value with
  | nil => simp [readDigits]
  | cons c l ih =>
    rw [List.map_cons, readDigits, if_pos (code_digit (h c (by simp))), Nat.ofDigitChars_cons,
      val_code]
    exact ih (fun d hd => h d (by simp [hd])) _

theorem readDigits_padded (width n : Nat) :
    readDigits 0 false ((padded width n).map code) = some n := by
  have hdig : ∀ c ∈ padded width n, c.isDigit = true := fun _ => padded_isDigit
  have hval := ofDigitChars_padded width n
  cases hp : padded width n with
  | nil => exact absurd (List.append_eq_nil_iff.1 hp).2 (natText_ne_nil n)
  | cons c l =>
    rw [hp] at hdig hval
    have hread := readDigits_map hdig 0
    have hc := code_digit (hdig c (by simp))
    rw [List.map_cons, readDigits, if_pos hc] at hread ⊢
    rw [hval] at hread
    exact hread

/-- A character that `int()` sees as it is, and not as a space. -/
def Plain (c : CodePoint) : Prop := c < 127 ∧ isAsciiSpace c = false

theorem plain_of_isDigit {c : Char} (h : c.isDigit = true) : Plain (code c) := by
  obtain ⟨hlow, hhigh⟩ := code_digit h
  have h13 : ¬ code c ≤ 13 := fun hle => absurd (Fin.le_trans hlow hle) (by decide)
  have h32 : code c ≠ 32 := fun he => absurd hlow (by rw [he]; decide)
  refine ⟨Fin.lt_of_le_of_lt hhigh (by decide), ?_⟩
  simp [isAsciiSpace, h13, h32]

theorem plain_signed {width : Nat} {value : Int} {c : CodePoint}
    (hc : c ∈ (signed width value).map code) : Plain c := by
  obtain ⟨d, hd, rfl⟩ := List.mem_map.1 hc
  rcases List.mem_cons.1 hd with rfl | hd
  · split
    · exact ⟨by decide, by decide⟩
    · exact ⟨by decide, by decide⟩
  · exact plain_of_isDigit (padded_isDigit hd)

theorem stripped_of_plain {t : CharTable} {s : PyStr} (h : ∀ c ∈ s, Plain c) :
    ((s.map (toAscii t)).dropWhile isAsciiSpace).rdropWhile isAsciiSpace = s := by
  have hmap : s.map (toAscii t) = s := by
    refine (List.map_congr_left fun c hc => ?_).trans (List.map_id _)
    exact if_pos (h c hc).1
  have hdrop : s.dropWhile isAsciiSpace = s := by
    cases s with
    | nil => rfl
    | cons c s => rw [List.dropWhile_cons, (h c (by simp)).2, if_neg Bool.false_ne_true]
  rw [hmap, hdrop, List.rdropWhile_eq_self_iff]
  intro hne hspace
  rw [(h _ (List.getLast_mem hne)).2] at hspace
  cases hspace

/-- (PROVED) `int()` reads a signed numeral back. -/
theorem intOfStr_signed (t : CharTable) (width : Nat) (value : Int) :
    intOfStr t ((signed width value).map code) = some value := by
  rw [intOfStr, stripped_of_plain fun _ => plain_signed, signed, List.map_cons]
  by_cases hv : value < 0
  · have hne : ¬ code '-' = code '+' := by decide
    rw [if_pos hv]
    dsimp only
    rw [if_neg hne, if_pos rfl, readDigits_padded]
    refine congrArg some ?_
    show -(value.natAbs : Int) = value
    omega
  · rw [if_neg hv]
    dsimp only
    rw [if_pos rfl, readDigits_padded]
    refine congrArg some ?_
    show (value.natAbs : Int) = value
    omega

end Virtuals.Lib
