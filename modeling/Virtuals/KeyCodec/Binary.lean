/-
  The binary key codec.

  A key is a tuple of ints and strings. A segment becomes a type marker, its bytes and a terminator;
  a string is strict UTF-8 with its zero bytes escaped, so that a bare zero byte ends it. The decoder
  finds the ends again. Exceptions are values: the codec's own, and those of `str.encode` and
  `bytes.decode`, which the codec is to catch.
-/
import Virtuals.Lib.OrderCode
import Virtuals.Lib.Utf8
import Mathlib.Data.Sum.Order

namespace Virtuals.KeyCodec

open Lib

/-! ## Keys -/

inductive KeySegment where
  | int (v : Int)
  | str (v : PyStr)
  deriving DecidableEq

/-- `Key`. -/
abbrev Key := List KeySegment

namespace KeySegment

/-- An int below a string, ints by their value, strings by code points. -/
def rank : KeySegment → Int ⊕ₗ PyStr
  | .int v => Sum.inlₗ v
  | .str v => Sum.inrₗ v

theorem rank_injective : Function.Injective rank := by
  intro a b h
  cases a <;> cases b <;> simp_all [rank]

instance : LinearOrder KeySegment := LinearOrder.lift' rank rank_injective

theorem lt_iff_rank {a b : KeySegment} : a < b ↔ a.rank < b.rank := Iff.rfl

@[simp] theorem int_lt_int {v w : Int} : KeySegment.int v < .int w ↔ v < w := by
  simp [lt_iff_rank, rank]

@[simp] theorem int_lt_str {v : Int} {s : PyStr} : KeySegment.int v < .str s := by
  simp [lt_iff_rank, rank]

@[simp] theorem not_str_lt_int {v : Int} {s : PyStr} : ¬ KeySegment.str s < .int v := by
  simp [lt_iff_rank, rank]

@[simp] theorem str_lt_str {s t : PyStr} : KeySegment.str s < .str t ↔ s < t := by
  simp [lt_iff_rank, rank]

end KeySegment

/-! ## Errors -/

inductive EncodeError
  | emptyTuple
  | invalidUtf8
  /-- `String at index {i} too long`. -/
  | tooLong (index length : Nat)
  deriving DecidableEq

inductive DecodeError
  | emptyKey
  | insufficientBytes (offset : Nat)
  | intTerminator (position : Nat)
  | strTerminator (position : Nat)
  | invalidUtf8
  | typeMarker (position : Nat) (marker : UInt8)
  deriving DecidableEq

/-- What a codec raises: its own exceptions, and those that it lets through. -/
inductive PyError
  | encode (e : EncodeError)
  | decode (e : DecodeError)
  | integerOverflow (value : Int)
  | UnicodeEncodeError
  | UnicodeDecodeError
  deriving DecidableEq

/-! ## Encoding -/

/-- `_INT64_MIN <= value <= _INT64_MAX`. -/
def InInt64 (value : Int) : Prop := -2 ^ 63 ≤ value ∧ value ≤ 2 ^ 63 - 1

instance (value : Int) : Decidable (InInt64 value) := by unfold InInt64; infer_instance

/-- `_encode_integer`. -/
def encodeInteger (value : Int) : Except PyError Bytes :=
  if InInt64 value then .ok (bigEndian 8 (value + 2 ^ 63).toNat) else .error (.integerOverflow value)

/-- `encoded.replace(b"\x00", b"\x00\xff")`. -/
def escape (b : Bytes) : Bytes := b.flatMap fun x => if x = 0 then [0, 0xFF] else [x]

/-- `data.replace(b"\x00\xff", b"\x00")`. -/
def unescape : Bytes → Bytes
  | [] => []
  | x :: b =>
    if x = 0 then
      match b with
      | [] => [0]
      | y :: b => if y = 0xFF then 0 :: unescape b else 0 :: unescape (y :: b)
    else x :: unescape b

/-- `_encode_string`. -/
def encodeString (value : PyStr) : Except PyError Bytes :=
  match utf8Encode value with
  | some encoded => .ok (escape encoded)
  | none => .error (.encode .invalidUtf8)

def encodeSegment : KeySegment → Except PyError Bytes
  | .int v => (encodeInteger v).map fun b => 0x01 :: (b ++ [0x00])
  | .str v => (encodeString v).map fun b => 0x02 :: (b ++ [0x00])

/-- `encode`. -/
def encode (key : Key) : Except PyError Bytes :=
  if key = [] then .error (.encode .emptyTuple) else (key.mapM encodeSegment).map List.flatten

/-- `upper_bound_of_prefix`. -/
def upperBoundOfPrefix (key : Key) : Except PyError Bytes := (encode key).map (· ++ [0xFF])

/-! ## Decoding -/

/-- `_decode_integer`, of the data from `offset` on. -/
def decodeInteger (data : Bytes) (offset : Nat) : Except PyError Int :=
  if data.length < 8 then .error (.decode (.insufficientBytes offset))
  else .ok (ofBigEndian (data.take 8) - 2 ^ 63)

/-- The search for the next terminator that is not escaped, by `encoded.find(b"\x00", ...)`. -/
def findTerminator (data : Bytes) : Option Nat :=
  match _h : data.findIdx? (· == 0) with
  | none => none
  | some i =>
    if data[i + 1]? = some 0xFF then (findTerminator (data.drop (i + 2))).map (i + 2 + ·)
    else some i
termination_by data.length
decreasing_by
  have hi := (List.findIdx?_eq_some_iff_findIdx_eq.1 _h).1
  rw [List.length_drop]
  omega

/-- `_decode_string`. -/
def decodeString (data : Bytes) : Except PyError PyStr :=
  match utf8Decode (unescape data) with
  | some s => .ok s
  | none => .error (.decode .invalidUtf8)

/-- One turn of the loop in `decode`: the segment at `pos`, and the bytes after it. -/
def decodeSegment (pos : Nat) : Bytes → Except PyError (KeySegment × Bytes)
  | [] => .error (.decode .emptyKey)
  | marker :: data =>
    if marker = 0x01 then
      match decodeInteger data (pos + 1) with
      | .error e => .error e
      | .ok value =>
        match data.drop 8 with
        | [] => .error (.decode (.intTerminator (pos + 9)))
        | t :: rest =>
          if t = 0x00 then .ok (.int value, rest)
          else .error (.decode (.intTerminator (pos + 9)))
    else if marker = 0x02 then
      match findTerminator data with
      | none => .error (.decode (.strTerminator (pos + 1)))
      | some i => (decodeString (data.take i)).map fun s => (.str s, data.drop (i + 1))
    else .error (.decode (.typeMarker pos marker))

theorem decodeSegment_length {pos : Nat} {b r : Bytes} {a : KeySegment}
    (h : decodeSegment pos b = .ok (a, r)) : r.length < b.length := by
  cases b with
  | nil => cases h
  | cons marker data =>
    rw [decodeSegment] at h
    split_ifs at h
    · cases hv : decodeInteger data (pos + 1) with
      | error e =>
        rw [hv] at h
        cases h
      | ok value =>
        rw [hv] at h
        dsimp only at h
        cases hd : data.drop 8 with
        | nil =>
          rw [hd] at h
          cases h
        | cons t rest =>
          rw [hd] at h
          dsimp only at h
          split_ifs at h
          cases h
          have hlen := congrArg List.length hd
          rw [List.length_drop, List.length_cons] at hlen
          rw [List.length_cons]
          omega
    · cases hi : findTerminator data with
      | none =>
        rw [hi] at h
        cases h
      | some i =>
        rw [hi] at h
        dsimp only at h
        cases hs : decodeString (data.take i) with
        | error e =>
          rw [hs] at h
          cases h
        | ok s =>
          rw [hs] at h
          cases h
          rw [List.length_drop, List.length_cons]
          omega

/-- The loop in `decode`. -/
def decodeSegments (pos : Nat) (b : Bytes) : Except PyError Key :=
  if b = [] then .ok []
  else match _h : decodeSegment pos b with
    | .error e => .error e
    | .ok (a, r) => (decodeSegments (pos + (b.length - r.length)) r).map (a :: ·)
termination_by b.length
decreasing_by exact decodeSegment_length _h

/-- `decode`. -/
def decode (encoded : Bytes) : Except PyError Key :=
  if encoded = [] then .error (.decode .emptyKey) else decodeSegments 0 encoded

/-! ## The codec's domain -/

/-- A signed 64-bit int, or a well-formed string. -/
def Valid : KeySegment → Prop
  | .int v => InInt64 v
  | .str s => Unicode s

instance (a : KeySegment) : Decidable (Valid a) := by cases a <;> (unfold Valid; infer_instance)

/-- The bytes of a segment of the domain. -/
def segmentBytes : KeySegment → Bytes
  | .int v => 0x01 :: (bigEndian 8 (v + 2 ^ 63).toNat ++ [0x00])
  | .str s => 0x02 :: (escape (utf8 s) ++ [0x00])

theorem valid_int {v : Int} : Valid (.int v) ↔ InInt64 v := by rw [Valid]

theorem valid_str {s : PyStr} : Valid (.str s) ↔ Unicode s := by rw [Valid]

theorem encodeSegment_eq_ok {a : KeySegment} {b : Bytes} :
    encodeSegment a = .ok b ↔ Valid a ∧ segmentBytes a = b := by
  cases a with
  | int v =>
    rw [valid_int, encodeSegment, encodeInteger]
    by_cases hv : InInt64 v
    · rw [if_pos hv]
      exact ⟨fun h => ⟨hv, Except.ok.inj h⟩, fun h => congrArg Except.ok h.2⟩
    · rw [if_neg hv]
      exact ⟨fun h => (by cases h), fun h => absurd h.1 hv⟩
  | str s =>
    rw [valid_str, encodeSegment, encodeString]
    cases hu : utf8Encode s with
    | none =>
      refine ⟨fun h => (by cases h), fun ⟨hs, _⟩ => ?_⟩
      rw [utf8Encode_eq_some.2 ⟨hs, rfl⟩] at hu
      cases hu
    | some w =>
      obtain ⟨hs, rfl⟩ := utf8Encode_eq_some.1 hu
      exact ⟨fun h => ⟨hs, Except.ok.inj h⟩, fun h => congrArg Except.ok h.2⟩

theorem mapM_encodeSegment_eq_ok {k : Key} {l : List Bytes} :
    k.mapM encodeSegment = .ok l ↔ (∀ a ∈ k, Valid a) ∧ k.map segmentBytes = l := by
  induction k generalizing l with
  | nil => simp [pure, Except.pure]
  | cons a k ih =>
    rw [List.mapM_cons]
    constructor
    · intro h
      cases ha : encodeSegment a with
      | error e =>
        rw [ha] at h
        cases h
      | ok b =>
        cases hk : k.mapM encodeSegment with
        | error e =>
          rw [ha, hk] at h
          cases h
        | ok bs =>
          rw [ha, hk] at h
          cases h
          obtain ⟨hv, hb⟩ := encodeSegment_eq_ok.1 ha
          obtain ⟨hvs, hbs⟩ := ih.1 hk
          exact ⟨fun c hc => by
            rcases List.mem_cons.1 hc with rfl | hc
            · exact hv
            · exact hvs c hc, by rw [List.map_cons, hb, hbs]⟩
    · rintro ⟨hv, rfl⟩
      rw [encodeSegment_eq_ok.2 ⟨hv a (by simp), rfl⟩,
        ih.2 ⟨fun c hc => hv c (by simp [hc]), rfl⟩]
      rfl

/-- What `encode` accepts, and the bytes it gives. -/
theorem encode_eq_ok {k : Key} {b : Bytes} :
    encode k = .ok b ↔ k ≠ [] ∧ (∀ a ∈ k, Valid a) ∧ k.flatMap segmentBytes = b := by
  unfold encode
  by_cases hk : k = []
  · rw [if_pos hk]
    exact ⟨fun h => (by cases h), fun h => absurd hk h.1⟩
  · rw [if_neg hk]
    cases hm : k.mapM encodeSegment with
    | error e =>
      refine ⟨fun h => (by cases h), fun h => ?_⟩
      rw [mapM_encodeSegment_eq_ok.2 ⟨h.2.1, rfl⟩] at hm
      cases hm
    | ok l =>
      obtain ⟨hv, rfl⟩ := mapM_encodeSegment_eq_ok.1 hm
      have hflat : (k.map segmentBytes).flatten = k.flatMap segmentBytes := rfl
      constructor
      · intro h
        exact ⟨hk, hv, Except.ok.inj h⟩
      · rintro ⟨-, -, rfl⟩
        rfl

theorem encode_ok {k : Key} (hk : k ≠ []) (hv : ∀ a ∈ k, Valid a) :
    encode k = .ok (k.flatMap segmentBytes) := encode_eq_ok.2 ⟨hk, hv, rfl⟩

theorem upperBoundOfPrefix_ok {k : Key} (hk : k ≠ []) (hv : ∀ a ∈ k, Valid a) :
    upperBoundOfPrefix k = .ok (k.flatMap segmentBytes ++ [0xFF]) := by
  rw [upperBoundOfPrefix, encode_ok hk hv]
  rfl

end Virtuals.KeyCodec
