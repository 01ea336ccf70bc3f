/-
  The binary codec keeps order and prefixes.

  An int is compared by eight bytes of one length. Strings are compared character by character; where
  one ends, its terminator is below every byte of the other, an escaped zero byte included, since no
  segment begins with the escape byte. So segments are an order code below `0xFF`.
-/
import Virtuals.KeyCodec.Binary

namespace Virtuals.KeyCodec

open Lib

/-! ## Strings -/

theorem escape_append (a b : Bytes) : escape (a ++ b) = escape a ++ escape b :=
  List.flatMap_append ..

theorem escape_of_forall {b : Bytes} (h : (0 : UInt8) ∉ b) : escape b = b := by
  induction b with
  | nil => rfl
  | cons x b ih =>
    have hx : ¬ x = 0 := fun he => h (by simp [he])
    have hb : (0 : UInt8) ∉ b := fun he => h (by simp [he])
    show (if x = 0 then [0, 0xFF] else [x]) ++ escape b = x :: b
    rw [if_neg hx, ih hb]
    rfl

theorem escape_utf8One {c : CodePoint} (hc : c ≠ 0) : escape (utf8One c) = utf8One c :=
  escape_of_forall fun h => hc (zero_mem_utf8One.1 h)

theorem escape_utf8One_zero : escape (utf8One 0) = [0, 0xFF] := by decide

theorem escape_utf8_cons (c : CodePoint) (s : PyStr) :
    escape (utf8 (c :: s)) = escape (utf8One c) ++ escape (utf8 s) := escape_append ..

/-- A character that is not zero writes first a byte that is not zero. -/
theorem utf8One_head {c : CodePoint} (hc : c ≠ 0) : ∃ x w, utf8One c = x :: w ∧ 0 < x := by
  cases h : utf8One c with
  | nil => exact absurd h (utf8One_ne_nil c)
  | cons x w =>
    refine ⟨x, w, rfl, ?_⟩
    have hx : x ≠ 0 := fun he => hc (zero_mem_utf8One.1 (by rw [h, he]; exact List.mem_cons_self))
    rw [uint8_lt_iff]
    exact Nat.pos_of_ne_zero fun h0 => hx (uint8_ext h0)

theorem escape_utf8One_lt {c d : CodePoint} (h : c < d) (x y : Bytes) :
    escape (utf8One c) ++ x < escape (utf8One d) ++ y := by
  have hd : d ≠ 0 := fun he => absurd h (by rw [he]; exact Nat.not_lt_zero _)
  rw [escape_utf8One hd]
  by_cases hc : c = 0
  · obtain ⟨z, w, hz, hpos⟩ := utf8One_head hd
    rw [hc, escape_utf8One_zero, hz]
    exact List.Lex.rel hpos
  · rw [escape_utf8One hc]
    exact utf8One_lt h x y

/-- What ends a string is below what goes on with it. -/
theorem terminator_lt {x y : Bytes} (hx : Below 0xFF x) (c : CodePoint) :
    0 :: x < escape (utf8One c) ++ y := by
  by_cases hc : c = 0
  · rw [hc, escape_utf8One_zero]
    refine List.Lex.cons ?_
    cases x with
    | nil => exact List.Lex.nil
    | cons z x => exact List.Lex.rel (below_cons.1 hx)
  · obtain ⟨z, w, hz, hpos⟩ := utf8One_head hc
    rw [escape_utf8One hc, hz]
    exact List.Lex.rel hpos

theorem string_lt {s t : PyStr} (h : s < t) {x : Bytes} (hx : Below 0xFF x) (y : Bytes) :
    escape (utf8 s) ++ 0 :: x < escape (utf8 t) ++ 0 :: y := by
  induction h with
  | nil =>
    rw [escape_utf8_cons, List.append_assoc]
    exact terminator_lt hx _
  | cons _ ih =>
    rw [escape_utf8_cons, escape_utf8_cons, List.append_assoc, List.append_assoc]
    exact List.append_left_lt ih
  | rel hcd =>
    rw [escape_utf8_cons, escape_utf8_cons, List.append_assoc, List.append_assoc]
    exact escape_utf8One_lt hcd _ _

/-! ## Segments -/

/-- (PROVED) The segments' bytes keep the order of the segments below `0xFF`. -/
theorem orderCode_segmentBytes : OrderCode Valid 0xFF segmentBytes where
  head := fun a _ => by
    cases a with
    | int v => exact ⟨0x01, _, rfl, by decide⟩
    | str s => exact ⟨0x02, _, rfl, by decide⟩
  lt := fun a b x y ha hb hx _ hab => by
    cases a with
    | int v =>
      cases b with
      | int w =>
        have hv : InInt64 v := ha
        have hw : InInt64 w := hb
        have hvw : v < w := KeySegment.int_lt_int.1 hab
        unfold InInt64 at hv hw
        have hlt : (v + 2 ^ 63).toNat < (w + 2 ^ 63).toNat := by omega
        have hw' : (w + 2 ^ 63).toNat < 256 ^ 8 := by omega
        simp only [segmentBytes, List.cons_append, List.append_assoc]
        exact List.Lex.cons (bigEndian_lt hw' hlt _ _)
      | str t => exact List.Lex.rel (by decide)
    | str s =>
      cases b with
      | int w => exact absurd hab KeySegment.not_str_lt_int
      | str t =>
        have hst : s < t := KeySegment.str_lt_str.1 hab
        simp only [segmentBytes, List.cons_append, List.append_assoc]
        exact List.Lex.cons (string_lt hst hx y)

/-! ## Keys -/

/-- A key of signed 64-bit ints and well-formed strings. -/
structure ValidKey where
  key : Key
  ne_nil : key ≠ []
  valid : ∀ a ∈ key, Valid a

/-- The bytes of a key that `encode` accepts. -/
def ValidKey.encoded (k : ValidKey) : Bytes := k.key.flatMap segmentBytes

theorem ValidKey.encode_eq (k : ValidKey) : encode k.key = .ok k.encoded :=
  encode_ok k.ne_nil k.valid

/-- (PROVED) The binary codec is an order embedding, and a prefix's bounds enclose the keys that
    have it. -/
theorem binary_order (a b p : ValidKey) :
    ∃ ea eb ep up, encode a.key = .ok ea ∧ encode b.key = .ok eb ∧ encode p.key = .ok ep ∧
      upperBoundOfPrefix p.key = .ok up ∧ (a.key < b.key ↔ ea < eb) ∧
      ((ep ≤ ea ∧ ea < up) ↔ p.key <+: a.key) := by
  refine ⟨_, _, _, _, a.encode_eq, b.encode_eq, p.encode_eq,
    upperBoundOfPrefix_ok p.ne_nil p.valid, ?_, ?_⟩
  · exact (orderCode_segmentBytes.flatMap_lt_iff a.valid b.valid).symm
  · rw [← List.not_lt]
    exact orderCode_segmentBytes.wordCode.range_iff p.valid a.valid

end Virtuals.KeyCodec
