/-
  The string key codec.

  A segment becomes a printable type marker and its text, an int with a biased numeral before its own
  one; a dot stands after every segment. Strings are not escaped: the characters of the format are
  refused in them. Strings here are Python's, compared by code points.
-/
import Virtuals.KeyCodec.Binary
import Virtuals.Lib.Numeral

namespace Virtuals.KeyCodec.StringKey

open Lib

/-! ## Errors -/

inductive EncodeError
  | emptyKey
  /-- `String component at index {index} contains forbidden character`. -/
  | forbidden (index : Nat)
  | integerOverflow (value : Int)
  deriving DecidableEq

inductive DecodeError
  | emptyKey
  | onlySeparator
  | emptyComponent (index : Nat)
  | missingBrackets
  | dataAfterBracket
  | invalidInteger (text : PyStr)
  | outsideRange (value : Int)
  | typeMarker (index : Nat)
  deriving DecidableEq

/-! ## Encoding -/

/-- `_TYPE_INT`. -/
def typeInt : PyStr := pyStr "[i]"

/-- `_TYPE_STR`. -/
def typeStr : PyStr := pyStr "[s]"

/-- `_SEPARATOR`. -/
def separator : CodePoint := code '.'

/-- `_FORBIDDEN_CHARS`. -/
def forbiddenChars : List CodePoint := [code '.', code '[', code ']']

/-- `_INT_WIDTH`. -/
def intWidth : Nat := 5

/-- `_INT_MIN <= value <= _INT_MAX`. -/
def InRange (value : Int) : Prop := -49999 ≤ value ∧ value ≤ 49999

instance (value : Int) : Decidable (InRange value) := by unfold InRange; infer_instance

/-- What `_encode_integer` returns for an int in its range. -/
def integerText (value : Int) : List Char :=
  let biased := (value + 49999).toNat
  (if value < 0 then 'n' else 'p') :: zfill intWidth (natText biased) ++
    '[' :: (signed 6 value ++ [']'])

/-- `_encode_integer`. -/
def encodeInteger (value : Int) : Except EncodeError PyStr :=
  if InRange value then .ok ((integerText value).map code) else .error (.integerOverflow value)

/-- A turn of the loop in `encode`. -/
def encodeComponent (i : Nat) : KeySegment → Except EncodeError PyStr
  | .int v => (encodeInteger v).map (typeInt ++ ·)
  | .str s => if forbiddenChars.any s.contains then .error (.forbidden i) else .ok (typeStr ++ s)

/-- The loop in `encode`. -/
def encodeParts (i : Nat) : Key → Except EncodeError (List PyStr)
  | [] => .ok []
  | a :: k =>
    match encodeComponent i a with
    | .error e => .error e
    | .ok part => (encodeParts (i + 1) k).map (part :: ·)

/-- `encode`. -/
def encode (key : Key) : Except EncodeError PyStr :=
  if key = [] then .error .emptyKey
  else (encodeParts 0 key).map fun parts => [separator].intercalate parts ++ [separator]

/-- `upper_bound_of_prefix`. -/
def upperBoundOfPrefix (key : Key) : Except EncodeError PyStr := (encode key).map (· ++ [code '~'])

/-! ## Decoding -/

/-- `_decode_integer`. -/
def decodeInteger (t : CharTable) (encoded : PyStr) : Except DecodeError Int :=
  match encoded.idxOf? (code '['), encoded.idxOf? (code ']') with
  | some bracketStart, some bracketEnd =>
    if bracketEnd ≠ encoded.length - 1 then .error .dataAfterBracket
    else
      let originalStr := (encoded.take bracketEnd).drop (bracketStart + 1)
      match intOfStr t originalStr with
      | none => .error (.invalidInteger originalStr)
      | some value => if InRange value then .ok value else .error (.outsideRange value)
  | _, _ => .error .missingBrackets

/-- A turn of the loop in `decode`. -/
def decodePart (t : CharTable) (i : Nat) (part : PyStr) : Except DecodeError KeySegment :=
  if part = [] then .error (.emptyComponent i)
  else if typeInt.isPrefixOf part then
    (decodeInteger t (part.drop typeInt.length)).map KeySegment.int
  else if typeStr.isPrefixOf part then .ok (.str (part.drop typeStr.length))
  else .error (.typeMarker i)

/-- The loop in `decode`. -/
def decodeParts (t : CharTable) (i : Nat) : List PyStr → Except DecodeError Key
  | [] => .ok []
  | part :: parts =>
    match decodePart t i part with
    | .error e => .error e
    | .ok a => (decodeParts t (i + 1) parts).map (a :: ·)

/-- `decode`. -/
def decode (t : CharTable) (encoded : PyStr) : Except DecodeError Key :=
  if encoded = [] then .error .emptyKey
  else
    let encoded := if encoded.getLast? = some separator then encoded.dropLast else encoded
    if encoded = [] then .error .onlySeparator
    else decodeParts t 0 (encoded.splitOn separator)

/-! ## The codec's domain -/

/-- An int in the range, or a string without a character of the format. -/
def Accepted : KeySegment → Prop
  | .int v => InRange v
  | .str s => ∀ c ∈ forbiddenChars, c ∉ s

instance (a : KeySegment) : Decidable (Accepted a) :=
  match a with
  | .int v => inferInstanceAs (Decidable (InRange v))
  | .str s => List.decidableBAll (p := (· ∉ s)) forbiddenChars

/-- The text of a segment. -/
def partOf : KeySegment → PyStr
  | .int v => typeInt ++ (integerText v).map code
  | .str s => typeStr ++ s

/-- A segment's text with its separator. -/
def wordOf (a : KeySegment) : PyStr := partOf a ++ [separator]

theorem encodeComponent_eq_ok {i : Nat} {a : KeySegment} {s : PyStr} :
    encodeComponent i a = .ok s ↔ Accepted a ∧ partOf a = s := by
  cases a with
  | int v =>
    rw [Accepted, encodeComponent, encodeInteger]
    by_cases hv : InRange v
    · rw [if_pos hv]
      exact ⟨fun h => ⟨hv, Except.ok.inj h⟩, fun h => congrArg Except.ok h.2⟩
    · rw [if_neg hv]
      exact ⟨fun h => (by cases h), fun h => absurd h.1 hv⟩
  | str t =>
    rw [Accepted, encodeComponent]
    have hiff : forbiddenChars.any t.contains = true ↔ ∃ c ∈ forbiddenChars, c ∈ t := by
      simp only [List.any_eq_true, List.contains_iff_mem]
    by_cases ht : forbiddenChars.any t.contains = true
    · obtain ⟨c, hc, hct⟩ := hiff.1 ht
      rw [if_pos ht]
      exact ⟨fun h => (by cases h), fun h => absurd hct (h.1 c hc)⟩
    · rw [if_neg ht]
      exact ⟨fun h => ⟨fun c hc hct => ht (hiff.2 ⟨c, hc, hct⟩), Except.ok.inj h⟩,
        fun h => congrArg Except.ok h.2⟩

theorem encodeParts_eq_ok {i : Nat} {k : Key} {l : List PyStr} :
    encodeParts i k = .ok l ↔ (∀ a ∈ k, Accepted a) ∧ k.map partOf = l := by
  induction k generalizing i l with
  | nil => simp [encodeParts]
  | cons a k ih =>
    rw [encodeParts]
    constructor
    · intro h
      cases ha : encodeComponent i a with
      | error e =>
        rw [ha] at h
        cases h
      | ok s =>
        cases hk : encodeParts (i + 1) k with
        | error e =>
          rw [ha, hk] at h
          cases h
        | ok l' =>
          rw [ha, hk] at h
          cases h
          obtain ⟨hacc, rfl⟩ := encodeComponent_eq_ok.1 ha
          obtain ⟨hall, rfl⟩ := ih.1 hk
          refine ⟨fun c hc => ?_, rfl⟩
          rcases List.mem_cons.1 hc with rfl | hc
          · exact hacc
          · exact hall c hc
    · rintro ⟨hall, rfl⟩
      rw [encodeComponent_eq_ok.2 ⟨hall a (by simp), rfl⟩,
        ih.2 ⟨fun c hc => hall c (by simp [hc]), rfl⟩]
      rfl

theorem joined_eq {k : Key} (hk : k ≠ []) :
    [separator].intercalate (k.map partOf) ++ [separator] = k.flatMap wordOf := by
  induction k with
  | nil => exact absurd rfl hk
  | cons a k ih =>
    cases k with
    | nil => simp [wordOf, List.intercalate]
    | cons b k =>
      have hrest := ih (List.cons_ne_nil _ _)
      rw [List.map_cons, List.flatMap_cons, ← hrest]
      simp [wordOf, List.intercalate]

/-- What `encode` accepts, and the string it gives. -/
theorem encode_eq_ok {k : Key} {s : PyStr} :
    encode k = .ok s ↔ k ≠ [] ∧ (∀ a ∈ k, Accepted a) ∧ k.flatMap wordOf = s := by
  unfold encode
  by_cases hk : k = []
  · rw [if_pos hk]
    exact ⟨fun h => (by cases h), fun h => absurd hk h.1⟩
  · rw [if_neg hk]
    cases hp : encodeParts 0 k with
    | error e =>
      refine ⟨fun h => (by cases h), fun h => ?_⟩
      rw [encodeParts_eq_ok.2 ⟨h.2.1, rfl⟩] at hp
      cases hp
    | ok l =>
      obtain ⟨hall, rfl⟩ := encodeParts_eq_ok.1 hp
      have hj := joined_eq hk
      constructor
      · intro h
        exact ⟨hk, hall, hj.symm.trans (Except.ok.inj h)⟩
      · rintro ⟨-, -, rfl⟩
        exact congrArg Except.ok hj

end Virtuals.KeyCodec.StringKey
