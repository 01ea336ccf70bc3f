/-
  Python's `str` and `bytes`, decimal numbers and the two encodings of a code point.

  A `str` is a list of code points, surrogates among them: Python has strings that are no Unicode
  text, and `utf-8` with `surrogatepass` encodes them all. UTF-16 units are what a string becomes
  where it is written with `\uXXXX` escapes; there a surrogate pair and the code point it stands
  for cannot be told apart.
-/
import Virtuals.Lib.Delimited
import Mathlib.Data.Nat.Digits.Defs
import Mathlib.Tactic.Ring

namespace Virtuals.Lib

/-- A code point, surrogates included. -/
abbrev CodePoint := Fin 0x110000

instance neZeroCodePoints : NeZero 0x110000 := ⟨by decide⟩

/-- `str`. -/
abbrev PyStr := List CodePoint

/-- `bytes`. -/
abbrev Bytes := List UInt8

instance : LawfulBEq Bytes := List.instLawfulBEq

/-- A string literal of the source. -/
def pyStr (s : String) : PyStr := s.toList.map fun c => Fin.ofNat _ c.toNat

/-- A bytes literal of the source. -/
def ascii (s : String) : Bytes := s.toList.map fun c => c.toNat.toUInt8

theorem toUInt8_inj {a b : Nat} (ha : a < 256) (hb : b < 256) (h : a.toUInt8 = b.toUInt8) :
    a = b := by
  have := congrArg UInt8.toNat h
  simp only [Nat.toUInt8_eq, UInt8.toNat_ofNat'] at this
  omega

/-! ## Decimal numbers -/

/-- `str(n)`. -/
def natText (n : Nat) : List Char := Nat.toDigits 10 n

/-- `str(i)`. -/
def intText : Int → List Char
  | .ofNat n => natText n
  | .negSucc n => '-' :: natText (n + 1)

/-- `b"%d" % n`. -/
def decimal (n : Nat) : Bytes := (natText n).map fun c => c.toNat.toUInt8

/-- `b"%d" % i`. -/
def intDecimal (i : Int) : Bytes := (intText i).map fun c => c.toNat.toUInt8

/-- The value of digits. -/
def ofDecimal (b : Bytes) : Nat := Nat.ofDigitChars 10 (b.map fun x => Char.ofNat x.toNat) 0

def isDigit (b : UInt8) : Bool := 48 ≤ b && b ≤ 57

/-- A character of a number. -/
def isNumeric (c : Char) : Bool := c.isDigit || c == '-'

theorem natText_isDigit {n : Nat} {c : Char} (hc : c ∈ natText n) : c.isDigit = true :=
  Nat.isDigit_of_mem_toDigits (by decide) (by decide) hc

theorem natText_injective : Function.Injective natText := fun a b h => by
  rw [← Nat.ofDigitChars_ten_toDigits (n := a), ← Nat.ofDigitChars_ten_toDigits (n := b)]
  exact congrArg (Nat.ofDigitChars 10 · 0) h

theorem natText_ne_nil (n : Nat) : natText n ≠ [] := Nat.toDigits_ne_nil

theorem intText_ne_nil (i : Int) : intText i ≠ [] := by
  cases i with
  | ofNat n => exact natText_ne_nil n
  | negSucc n => simp [intText]

theorem intText_isNumeric {i : Int} {c : Char} (hc : c ∈ intText i) : isNumeric c = true := by
  cases i with
  | ofNat n => simp [isNumeric, natText_isDigit (n := n) hc]
  | negSucc n =>
    rcases List.mem_cons.1 hc with rfl | hc
    · rfl
    · simp [isNumeric, natText_isDigit hc]

theorem natText_ne_neg (n : Nat) (x : List Char) : natText n ≠ '-' :: x := fun h => by
  have := natText_isDigit (n := n) (c := '-') (by simp [h])
  exact absurd this (by decide)

theorem intText_injective : Function.Injective intText := by
  intro i j h
  cases i with
  | ofNat m =>
    cases j with
    | ofNat n => exact congrArg Int.ofNat (natText_injective h)
    | negSucc n => exact absurd h (natText_ne_neg m _)
  | negSucc m =>
    cases j with
    | ofNat n => exact absurd h.symm (natText_ne_neg n _)
    | negSucc n =>
      have := natText_injective (List.cons.inj h).2
      exact congrArg Int.negSucc (by omega)

theorem delimits_intText : Delimits (Ends isNumeric) intText :=
  .of_forall (fun _ _ hc => intText_isNumeric hc) intText_injective

theorem ofNat_toUInt8 {c : Char} (hc : c.toNat < 256) : Char.ofNat c.toNat.toUInt8.toNat = c := by
  rw [Nat.toUInt8_eq, UInt8.toNat_ofNat', Nat.mod_eq_of_lt hc, Char.ofNat_toNat]

theorem isNumeric_toNat_lt {c : Char} (hc : isNumeric c = true) : c.toNat < 256 := by
  simp only [isNumeric, Char.isDigit, Bool.or_eq_true, Bool.and_eq_true, decide_eq_true_eq,
    beq_iff_eq] at hc
  rcases hc with ⟨-, hc⟩ | rfl
  · have : c.toNat ≤ 57 := hc
    omega
  · decide

theorem intDecimal_chars (i : Int) : (intDecimal i).map (fun x => Char.ofNat x.toNat) = intText i := by
  rw [intDecimal, List.map_map]
  refine (List.map_congr_left fun c hc => ?_).trans (List.map_id _)
  exact ofNat_toUInt8 (isNumeric_toNat_lt (intText_isNumeric hc))

theorem intDecimal_injective : Function.Injective intDecimal := fun i j h =>
  intText_injective (by rw [← intDecimal_chars i, ← intDecimal_chars j, h])

theorem decimal_eq (n : Nat) : decimal n = intDecimal n := rfl

theorem decimal_injective : Function.Injective decimal := fun _ _ h =>
  Int.ofNat.inj (intDecimal_injective h)

@[simp] theorem ofDecimal_decimal (n : Nat) : ofDecimal (decimal n) = n := by
  rw [ofDecimal, decimal_eq, intDecimal_chars]
  exact Nat.ofDigitChars_ten_toDigits

theorem decimal_isDigit {n : Nat} {b : UInt8} (hb : b ∈ decimal n) : isDigit b = true := by
  obtain ⟨c, hc, rfl⟩ := List.mem_map.1 hb
  have hd := natText_isDigit hc
  simp only [Char.isDigit, Bool.and_eq_true, decide_eq_true_eq] at hd
  have h1 : 48 ≤ c.toNat := hd.1
  have h2 : c.toNat ≤ 57 := hd.2
  simp only [isDigit, Bool.and_eq_true, decide_eq_true_eq, UInt8.le_iff_toNat_le, Nat.toUInt8_eq,
    UInt8.toNat_ofNat']
  exact ⟨by simpa using by omega, by simpa using by omega⟩

theorem decimal_ne_nil (n : Nat) : decimal n ≠ [] := by
  simpa [decimal] using natText_ne_nil n

theorem delimits_decimal : Delimits (Ends isDigit) decimal :=
  .of_forall (fun _ _ hb => decimal_isDigit hb) decimal_injective

/-! ## UTF-8 -/

/-- The UTF-8 bytes of one code point. -/
def utf8One (c : CodePoint) : Bytes :=
  let n := c.val
  if n < 0x80 then [n.toUInt8]
  else if n < 0x800 then [(0xC0 + n / 64).toUInt8, (0x80 + n % 64).toUInt8]
  else if n < 0x10000 then
    [(0xE0 + n / 4096).toUInt8, (0x80 + n / 64 % 64).toUInt8, (0x80 + n % 64).toUInt8]
  else
    [(0xF0 + n / 262144).toUInt8, (0x80 + n / 4096 % 64).toUInt8, (0x80 + n / 64 % 64).toUInt8,
      (0x80 + n % 64).toUInt8]

/-- `s.encode("utf-8", "surrogatepass")`. -/
def utf8 (s : PyStr) : Bytes := s.flatMap utf8One

theorem prefixFree_utf8One : PrefixFree utf8One := by
  intro a b x y _ _ h
  have hb : ∀ {m n : Nat}, m.toUInt8 = n.toUInt8 → m % 256 = n % 256 := fun h => by
    have := congrArg UInt8.toNat h
    simpa only [Nat.toUInt8_eq, UInt8.toNat_ofNat'] using this
  have ha := a.isLt
  have hb' := b.isLt
  suffices a.val = b.val ∧ x = y from ⟨Fin.ext this.1, this.2⟩
  unfold utf8One at h
  dsimp only at h
  split_ifs at h
  all_goals
    simp only [List.cons_append, List.nil_append, List.cons.injEq] at h
  -- the first byte tells the lengths apart, then the bytes give the digits of the code point
  all_goals
    have h1 := hb h.1
  all_goals try omega
  · exact ⟨by omega, h.2⟩
  · have h2 := hb h.2.1
    exact ⟨by omega, h.2.2⟩
  · have h2 := hb h.2.1
    have h3 := hb h.2.2.1
    exact ⟨by omega, h.2.2.2⟩
  · have h2 := hb h.2.1
    have h3 := hb h.2.2.1
    have h4 := hb h.2.2.2.1
    exact ⟨by omega, h.2.2.2.2⟩

theorem utf8One_ne_nil (c : CodePoint) : utf8One c ≠ [] := by
  unfold utf8One
  dsimp only
  split_ifs <;> simp

theorem utf8_injective : Function.Injective utf8 :=
  prefixFree_utf8One.flatMap_injective utf8One_ne_nil

/-! ## UTF-16 -/

/-- The UTF-16 units of one code point. -/
def unitsOne (c : CodePoint) : List UInt16 :=
  if c.val < 0x10000 then [c.val.toUInt16]
  else [(0xD800 + (c.val - 0x10000) / 1024).toUInt16, (0xDC00 + (c.val - 0x10000) % 1024).toUInt16]

def units (s : PyStr) : List UInt16 := s.flatMap unitsOne

/-- Unicode text: no surrogate is a code point of its own. -/
def Unicode (s : PyStr) : Prop := ∀ c ∈ s, c.val < 0xD800 ∨ 0xDFFF < c.val

theorem toUInt16_inj {a b : Nat} (h : a.toUInt16 = b.toUInt16) : a % 65536 = b % 65536 := by
  have := congrArg UInt16.toNat h
  simpa only [Nat.toUInt16_eq, UInt16.toNat_ofNat'] using this

/-- (PROVED) Unicode text is told by its units. -/
theorem units_inj {s t : PyStr} (hs : Unicode s) (ht : Unicode t) (h : units s = units t) :
    s = t := by
  unfold units at h
  induction s generalizing t with
  | nil =>
    cases t with
    | nil => rfl
    | cons d t =>
      rw [List.flatMap_cons, unitsOne] at h
      split_ifs at h <;> cases h
  | cons c s ih =>
    cases t with
    | nil =>
      rw [List.flatMap_cons, unitsOne] at h
      split_ifs at h <;> cases h
    | cons d t =>
      have hc := hs c (by simp)
      have hd := ht d (by simp)
      have hcl := c.isLt
      have hdl := d.isLt
      have ih := ih (t := t) (fun x hx => hs x (by simp [hx])) fun x hx => ht x (by simp [hx])
      rw [List.flatMap_cons, List.flatMap_cons, unitsOne, unitsOne] at h
      split_ifs at h <;> simp only [List.cons_append, List.nil_append, List.cons.injEq] at h
      · have h1 := toUInt16_inj h.1
        rw [ih h.2, Fin.ext (show c.val = d.val by omega)]
      · have h1 := toUInt16_inj h.1
        omega
      · have h1 := toUInt16_inj h.1
        omega
      · have h1 := toUInt16_inj h.1
        have h2 := toUInt16_inj h.2.1
        rw [ih h.2.2, Fin.ext (show c.val = d.val by omega)]

end Virtuals.Lib
