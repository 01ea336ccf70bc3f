/-
  The binary key codec in Cython.

  It writes the same format into memory of its own: a first pass over the key adds up the size, the
  second one fills a buffer of that size. Ints are C ints of 64 bits, which wrap around. An index
  outside the buffer or the data is a fault of its own here, since the C code does not check it.
-/
import Virtuals.KeyCodec.BinaryDecode
import Virtuals.Lib.Cursor

namespace Virtuals.KeyCodec.Cython

open Lib

/-- An exception, or an access that C leaves undefined. -/
inductive Fault
  | raised (e : PyError)
  | outOfBounds

/-- `PyBytes_FromStringAndSize(NULL, size)`: memory of that size, with anything in it. -/
structure Memory where
  alloc : Nat → Bytes
  length_alloc : ∀ size, (alloc size).length = size

def raise {α : Type} (e : PyError) : Except Fault α := .error (.raised e)

def raises {α : Type} : Except PyError α → Except Fault α
  | .ok v => .ok v
  | .error e => raise e

/-- A write to the buffer. -/
def checked : Option (Cursor UInt8) → Except Fault (Cursor UInt8)
  | some c => .ok c
  | none => .error .outOfBounds

/-! ## Encoding -/

/-- `MAX_STRING_LENGTH`. -/
def maxStringLength : Nat := 10 * 1024 * 1024

/-- `INT64_BIAS`. -/
def int64Bias : UInt64 := 0x8000000000000000

/-- `encode_integer_inline`, the bytes in the order in which they are written. -/
def encodeIntegerInline (value : Int64) : Bytes :=
  let biased := (value + int64Bias.toInt64).toUInt64
  [((biased >>> 56) &&& 0xFF).toUInt8, ((biased >>> 48) &&& 0xFF).toUInt8,
    ((biased >>> 40) &&& 0xFF).toUInt8, ((biased >>> 32) &&& 0xFF).toUInt8,
    ((biased >>> 24) &&& 0xFF).toUInt8, ((biased >>> 16) &&& 0xFF).toUInt8,
    ((biased >>> 8) &&& 0xFF).toUInt8, (biased &&& 0xFF).toUInt8]

/-- `count_null_bytes`. -/
def countNullBytes (data : Bytes) : Nat := data.foldl (fun n x => if x = 0 then n + 1 else n) 0

/-- `copy_with_escape`. -/
def copyWithEscape (c : Cursor UInt8) (src : Bytes) : Option (Cursor UInt8) :=
  src.foldlM (fun c x => do
    let c ← c.put x
    if x = 0 then c.put 0xFF else some c) c

/-- What the first pass adds for the component at index `i`. -/
def componentSize (i : Nat) : KeySegment → Except PyError Nat
  | .int v =>
    -- The cast raises `OverflowError` outside the range, so the test after it finds nothing.
    if InInt64 v then
      let intVal := Int64.ofInt v
      if intVal < Int64.minValue ∨ intVal > Int64.maxValue then .error (.integerOverflow intVal.toInt)
      else .ok (1 + 8 + 1)
    else .error (.integerOverflow v)
  | .str v =>
    match utf8Encode v with
    | none => .error .UnicodeEncodeError
    | some strBytes =>
      if strBytes.length > maxStringLength then .error (.encode (.tooLong i strBytes.length))
      else .ok (1 + strBytes.length + countNullBytes strBytes + 1)

/-- The first pass. -/
def totalSize (i total : Nat) : Key → Except PyError Nat
  | [] => .ok total
  | a :: k =>
    match componentSize i a with
    | .error e => .error e
    | .ok size => totalSize (i + 1) (total + size) k

/-- A turn of the second pass. The cast is of an int that the first pass has checked. -/
def writeComponent (c : Cursor UInt8) : KeySegment → Except Fault (Cursor UInt8)
  | .int v => do
    let c ← checked (c.put 0x01)
    let c ← checked (c.putAll (encodeIntegerInline (Int64.ofInt v)))
    checked (c.put 0x00)
  | .str v =>
    match utf8Encode v with
    | none => raise .UnicodeEncodeError
    | some strBytes => do
      let c ← checked (c.put 0x02)
      let c ← checked (copyWithEscape c strBytes)
      checked (c.put 0x00)

/-- `encode`. -/
def encode (m : Memory) (key : Key) : Except Fault Bytes :=
  if key = [] then raise (.encode .emptyTuple)
  else
    match totalSize 0 0 key with
    | .error e => raise e
    | .ok size => (key.foldlM writeComponent ⟨m.alloc size, 0⟩).map Cursor.buffer

/-- `upper_bound_of_prefix`. -/
def upperBoundOfPrefix (m : Memory) (key : Key) : Except Fault Bytes :=
  (encode m key).map (· ++ [0xFF])

/-! ## Decoding -/

/-- `data[pos]`. -/
def read (data : Bytes) (pos : Nat) : Except Fault UInt8 :=
  match data[pos]? with
  | some x => .ok x
  | none => .error .outOfBounds

/-- The `biased_value` of eight bytes. -/
def biasedValue (b0 b1 b2 b3 b4 b5 b6 b7 : UInt8) : UInt64 :=
  (b0.toUInt64 <<< 56) ||| (b1.toUInt64 <<< 48) ||| (b2.toUInt64 <<< 40) |||
    (b3.toUInt64 <<< 32) ||| (b4.toUInt64 <<< 24) ||| (b5.toUInt64 <<< 16) |||
    (b6.toUInt64 <<< 8) ||| b7.toUInt64

/-- `decode_integer_inline`, of the bytes from `pos` on. -/
def decodeIntegerInline (data : Bytes) (pos : Nat) : Except Fault Int64 := do
  let b0 ← read data pos
  let b1 ← read data (pos + 1)
  let b2 ← read data (pos + 2)
  let b3 ← read data (pos + 3)
  let b4 ← read data (pos + 4)
  let b5 ← read data (pos + 5)
  let b6 ← read data (pos + 6)
  let b7 ← read data (pos + 7)
  return (biasedValue b0 b1 b2 b3 b4 b5 b6 b7 - int64Bias).toInt64

/-- The search for the terminator from `pos` on. -/
def strEnd (data : Bytes) (pos : Nat) : Except Fault (Option Nat) :=
  if pos < data.length then
    match read data pos with
    | .error e => .error e
    | .ok x =>
      if x = 0x00 then
        if pos + 1 < data.length then
          match read data (pos + 1) with
          | .error e => .error e
          | .ok y => if y = 0xFF then strEnd data (pos + 2) else .ok (some pos)
        else .ok (some pos)
      else strEnd data (pos + 1)
  else .ok none
termination_by data.length - pos

/-- The branch of `decode` for an int, whose bytes start at `pos`. -/
def decodeInt (data : Bytes) (pos : Nat) : Except Fault (KeySegment × Nat) :=
  if pos + 8 > data.length then raise (.decode (.insufficientBytes (pos - 1)))
  else
    match decodeIntegerInline data pos with
    | .error e => .error e
    | .ok intVal =>
      if pos + 8 ≥ data.length then raise (.decode (.intTerminator (pos + 8)))
      else
        match read data (pos + 8) with
        | .error e => .error e
        | .ok t =>
          if t = 0x00 then .ok (.int intVal.toInt, pos + 9)
          else raise (.decode (.intTerminator (pos + 8)))

/-- The branch of `decode` for a string, whose bytes start at `pos`. -/
def decodeStr (data : Bytes) (pos : Nat) : Except Fault (KeySegment × Nat) :=
  match strEnd data pos with
  | .error e => .error e
  | .ok none => raise (.decode (.strTerminator (pos - 1)))
  | .ok (some strEnd) =>
    match utf8Decode (unescape ((data.take strEnd).drop pos)) with
    | none => raise (.decode .invalidUtf8)
    | some s => .ok (.str s, strEnd + 1)

/-- A turn of the loop in `decode`: the component at `pos`, and the place after it. -/
def decodeComponent (data : Bytes) (pos : Nat) : Except Fault (KeySegment × Nat) :=
  match read data pos with
  | .error e => .error e
  | .ok marker =>
    if marker = 0x01 then decodeInt data (pos + 1)
    else if marker = 0x02 then decodeStr data (pos + 1)
    else raise (.decode (.typeMarker pos marker))

theorem read_drop {data rest : Bytes} {pos : Nat} {x : UInt8} (h : data.drop pos = x :: rest) :
    read data pos = .ok x := by
  have hget : data[pos]? = some x := by
    rw [← Nat.add_zero pos, ← List.getElem?_drop, h]
    rfl
  rw [read, hget]

theorem lt_length_of_drop {data rest : Bytes} {pos : Nat} {x : UInt8}
    (h : data.drop pos = x :: rest) : pos < data.length := by
  have hlen := congrArg List.length h
  rw [List.length_drop, List.length_cons] at hlen
  omega

theorem drop_succ_of_drop {data rest : Bytes} {pos : Nat} {x : UInt8}
    (h : data.drop pos = x :: rest) : data.drop (pos + 1) = rest := by
  rw [← List.drop_drop, h]
  rfl

theorem length_le_of_drop {data : Bytes} {pos : Nat} (h : data.drop pos = []) :
    data.length ≤ pos := by
  have hlen := congrArg List.length h
  rw [List.length_drop, List.length_nil] at hlen
  omega

/-- (PROVED) The search stays inside the data, and finds what the search from there on finds. -/
theorem strEnd_eq (data : Bytes) (pos : Nat) :
    strEnd data pos = .ok ((scanTerminator (data.drop pos)).map (pos + ·)) := by
  induction hb : data.drop pos using scanTerminator.induct generalizing pos with
  | case1 =>
    rw [strEnd, if_neg (Nat.not_lt.2 (length_le_of_drop hb))]
    rfl
  | case2 =>
    have hend := length_le_of_drop (drop_succ_of_drop hb)
    rw [strEnd, if_pos (lt_length_of_drop hb), read_drop hb]
    simp only [if_true, if_neg (Nat.not_lt.2 hend)]
    rfl
  | case3 b ih =>
    have hnext := drop_succ_of_drop hb
    rw [strEnd, if_pos (lt_length_of_drop hb), read_drop hb, scanTerminator_escaped, Option.map_map]
    simp only [if_true, if_pos (lt_length_of_drop hnext), read_drop hnext,
      ih (pos + 2) (drop_succ_of_drop hnext)]
    refine congrArg (fun f => Except.ok (Option.map f _)) (funext fun n => ?_)
    simp only [Function.comp_apply]
    omega
  | case4 y b hy =>
    have hnext := drop_succ_of_drop hb
    rw [strEnd, if_pos (lt_length_of_drop hb), read_drop hb, scanTerminator_zero hy]
    simp only [if_true, if_pos (lt_length_of_drop hnext), read_drop hnext, if_neg hy]
    rfl
  | case5 x b hx ih =>
    rw [strEnd, if_pos (lt_length_of_drop hb), read_drop hb, scanTerminator_cons hx, Option.map_map]
    simp only [if_neg hx, ih (pos + 1) (drop_succ_of_drop hb)]
    refine congrArg (fun f => Except.ok (Option.map f _)) (funext fun n => ?_)
    simp only [Function.comp_apply]
    omega

/-! ## The bytes of an int -/

theorem shiftLeft_or (a : Nat) {b : Nat} (hb : b < 256) (i : Nat) :
    a <<< (i + 8) ||| b <<< i = (a * 256 + b) <<< i := by
  have hlt : b <<< i < 2 ^ (i + 8) := by
    rw [Nat.shiftLeft_eq, Nat.pow_add, Nat.mul_comm]
    exact Nat.mul_lt_mul_of_pos_left hb (Nat.two_pow_pos i)
  rw [← Nat.shiftLeft_add_eq_or_of_lt hlt, Nat.shiftLeft_eq, Nat.shiftLeft_eq, Nat.shiftLeft_eq,
    Nat.pow_add]
  ring

theorem toNat_biasedValue (b0 b1 b2 b3 b4 b5 b6 b7 : UInt8) :
    (biasedValue b0 b1 b2 b3 b4 b5 b6 b7).toNat =
      ofBigEndian [b0, b1, b2, b3, b4, b5, b6, b7] := by
  have hshift : ∀ (b : UInt8) (i : Nat), i ≤ 56 → b.toNat <<< i < 2 ^ 64 := by
    intro b i hi
    rw [Nat.shiftLeft_eq]
    calc b.toNat * 2 ^ i < 2 ^ 8 * 2 ^ i :=
          Nat.mul_lt_mul_of_pos_right b.toNat_lt (Nat.two_pow_pos i)
      _ = 2 ^ (8 + i) := (Nat.pow_add ..).symm
      _ ≤ 2 ^ 64 := Nat.pow_le_pow_right (by decide) (by omega)
  have hone : ∀ (b : UInt8) (i : UInt64), i.toNat ≤ 56 →
      (b.toUInt64 <<< i).toNat = b.toNat <<< i.toNat := by
    intro b i hi
    rw [UInt64.toNat_shiftLeft, Nat.mod_eq_of_lt (by omega : i.toNat < 64), UInt8.toNat_toUInt64,
      Nat.mod_eq_of_lt (hshift b _ hi)]
  simp only [biasedValue, UInt64.toNat_or, UInt8.toNat_toUInt64]
  rw [hone b0 56 (by decide), hone b1 48 (by decide), hone b2 40 (by decide),
    hone b3 32 (by decide), hone b4 24 (by decide), hone b5 16 (by decide), hone b6 8 (by decide)]
  have h7 := shiftLeft_or ((((((b0.toNat * 256 + b1.toNat) * 256 + b2.toNat) * 256 + b3.toNat) * 256
    + b4.toNat) * 256 + b5.toNat) * 256 + b6.toNat) b7.toNat_lt 0
  have h6 := shiftLeft_or (((((b0.toNat * 256 + b1.toNat) * 256 + b2.toNat) * 256 + b3.toNat) * 256
    + b4.toNat) * 256 + b5.toNat) b6.toNat_lt 8
  have h5 := shiftLeft_or ((((b0.toNat * 256 + b1.toNat) * 256 + b2.toNat) * 256 + b3.toNat) * 256
    + b4.toNat) b5.toNat_lt 16
  have h4 := shiftLeft_or (((b0.toNat * 256 + b1.toNat) * 256 + b2.toNat) * 256 + b3.toNat)
    b4.toNat_lt 24
  have h3 := shiftLeft_or ((b0.toNat * 256 + b1.toNat) * 256 + b2.toNat) b3.toNat_lt 32
  have h2 := shiftLeft_or (b0.toNat * 256 + b1.toNat) b2.toNat_lt 40
  have h1 := shiftLeft_or b0.toNat b1.toNat_lt 48
  show b0.toNat <<< (48 + 8) ||| b1.toNat <<< 48 ||| b2.toNat <<< 40 ||| b3.toNat <<< 32 |||
    b4.toNat <<< 24 ||| b5.toNat <<< 16 ||| b6.toNat <<< 8 ||| b7.toNat = _
  rw [h1, h2, h3, h4, h5, h6]
  rw [Nat.shiftLeft_zero, Nat.zero_add, Nat.shiftLeft_zero] at h7
  rw [h7]
  simp only [ofBigEndian, List.length_cons, List.length_nil]
  ring

/-- Taking the bias off wraps around to the signed value. -/
theorem toInt_unbiased (u : UInt64) : (u - int64Bias).toInt64.toInt = u.toNat - 2 ^ 63 := by
  have hu := u.toNat_lt
  have hb : int64Bias.toNat = 2 ^ 63 := rfl
  show (u - int64Bias).toBitVec.toInt = _
  rw [BitVec.toInt_eq_toNat_bmod]
  have hn : (u - int64Bias).toBitVec.toNat = (2 ^ 64 - 2 ^ 63 + u.toNat) % 2 ^ 64 := by
    rw [UInt64.toNat_toBitVec, UInt64.toNat_sub, hb]
  rw [hn, Int.bmod_def]
  split_ifs <;> omega

/-- (PROVED) The int that is read is the one the other codec reads. -/
theorem decodeIntegerInline_eq {data : Bytes} {pos : Nat} (h : pos + 8 ≤ data.length) :
    ∃ v : Int64, decodeIntegerInline data pos = .ok v ∧
      v.toInt = ofBigEndian ((data.drop pos).take 8) - 2 ^ 63 := by
  have hlen : 8 ≤ (data.drop pos).length := by
    rw [List.length_drop]
    omega
  obtain ⟨b0, b1, b2, b3, b4, b5, b6, b7, rest, hd⟩ :
      ∃ b0 b1 b2 b3 b4 b5 b6 b7 rest,
        data.drop pos = b0 :: b1 :: b2 :: b3 :: b4 :: b5 :: b6 :: b7 :: rest := by
    match data.drop pos, hlen with
    | b0 :: b1 :: b2 :: b3 :: b4 :: b5 :: b6 :: b7 :: rest, _ =>
      exact ⟨b0, b1, b2, b3, b4, b5, b6, b7, rest, rfl⟩
  have hread : ∀ i x, (data.drop pos)[i]? = some x → read data (pos + i) = .ok x := by
    intro i x hi
    rw [List.getElem?_drop] at hi
    rw [read, hi]
  rw [hd] at hread
  refine ⟨(biasedValue b0 b1 b2 b3 b4 b5 b6 b7 - int64Bias).toInt64, ?_, ?_⟩
  · rw [decodeIntegerInline, read_drop hd, hread 1 b1 rfl, hread 2 b2 rfl, hread 3 b3 rfl,
      hread 4 b4 rfl, hread 5 b5 rfl, hread 6 b6 rfl, hread 7 b7 rfl]
    rfl
  · rw [toInt_unbiased, toNat_biasedValue, hd]
    rfl

/-! ## Components -/

/-- A component is read as the other codec reads a segment, or both refuse it. -/
def SameRead (data : Bytes) (pos : Nat) : Except PyError (KeySegment × Bytes) → Prop
  | .ok (a, r) => ∃ p, decodeComponent data pos = .ok (a, p) ∧ pos < p ∧ data.drop p = r
  | .error _ => ∃ e, decodeComponent data pos = raise e

theorem sameRead_int {data b : Bytes} {pos pos' : Nat} (h : data.drop pos = 0x01 :: b) :
    SameRead data pos (decodeSegment pos' (0x01 :: b)) := by
  have hb := drop_succ_of_drop h
  have hlen : b.length = data.length - (pos + 1) := by rw [← hb, List.length_drop]
  have hpos := lt_length_of_drop h
  have hstart : decodeComponent data pos = decodeInt data (pos + 1) := by
    rw [decodeComponent, read_drop h]
    rfl
  rw [decodeSegment, if_pos rfl, decodeInteger]
  by_cases hshort : b.length < 8
  · rw [if_pos hshort]
    have hc : pos + 1 + 8 > data.length := by omega
    exact ⟨_, by rw [hstart, decodeInt, if_pos hc]⟩
  · rw [if_neg hshort]
    have hc : ¬ pos + 1 + 8 > data.length := by omega
    obtain ⟨v, hv, hval⟩ := decodeIntegerInline_eq (Nat.le_of_not_gt hc)
    rw [hb] at hval
    rw [decodeInt, if_neg hc, hv] at hstart
    have hdrop : b.drop 8 = data.drop (pos + 1 + 8) := by rw [← hb, List.drop_drop]
    dsimp only at hstart ⊢
    rw [hdrop]
    cases hd : data.drop (pos + 1 + 8) with
    | nil =>
      rw [if_pos (length_le_of_drop hd)] at hstart
      exact ⟨_, hstart⟩
    | cons t rest =>
      rw [if_neg (Nat.not_le.2 (lt_length_of_drop hd)), read_drop hd] at hstart
      dsimp only at hstart ⊢
      by_cases ht : t = 0x00
      · rw [if_pos ht, hval] at hstart
        rw [if_pos ht]
        exact ⟨pos + 1 + 9, hstart, by omega, drop_succ_of_drop hd⟩
      · rw [if_neg ht] at hstart
        rw [if_neg ht]
        exact ⟨_, hstart⟩

theorem sameRead_str {data b : Bytes} {pos pos' : Nat} (h : data.drop pos = 0x02 :: b) :
    SameRead data pos (decodeSegment pos' (0x02 :: b)) := by
  have hb := drop_succ_of_drop h
  have hmarker : ¬ (0x02 : UInt8) = 0x01 := by decide
  have hstart : decodeComponent data pos = decodeStr data (pos + 1) := by
    rw [decodeComponent, read_drop h]
    rfl
  rw [decodeSegment, if_neg hmarker, if_pos rfl, findTerminator_eq]
  rw [decodeStr, strEnd_eq, hb] at hstart
  cases hi : scanTerminator b with
  | none =>
    rw [hi] at hstart
    exact ⟨_, hstart⟩
  | some i =>
    have htake : (data.take (pos + 1 + i)).drop (pos + 1) = b.take i := by
      rw [List.drop_take, hb]
      congr 1
      omega
    rw [hi, Option.map_some] at hstart
    dsimp only at hstart ⊢
    rw [htake] at hstart
    rw [decodeString]
    cases hs : utf8Decode (unescape (b.take i)) with
    | none =>
      rw [hs] at hstart
      exact ⟨_, hstart⟩
    | some s =>
      rw [hs] at hstart
      refine ⟨pos + 1 + i + 1, hstart, by omega, ?_⟩
      rw [← hb, List.drop_drop]
      rfl

/-- (PROVED) One turn of the decoders' loops; the place only tells in an error. -/
theorem sameRead {data : Bytes} {pos : Nat} (pos' : Nat) (h : pos < data.length) :
    SameRead data pos (decodeSegment pos' (data.drop pos)) := by
  cases hd : data.drop pos with
  | nil => exact absurd (length_le_of_drop hd) (Nat.not_le.2 h)
  | cons marker b =>
    by_cases hint : marker = 0x01
    · subst hint
      exact sameRead_int hd
    · by_cases hstr : marker = 0x02
      · subst hstr
        exact sameRead_str hd
      · rw [decodeSegment, if_neg hint, if_neg hstr]
        refine ⟨.decode (.typeMarker pos marker), ?_⟩
        rw [decodeComponent, read_drop hd]
        exact (if_neg hint).trans (if_neg hstr)

/-! ## The decoder -/

theorem decodeComponent_pos {data : Bytes} {pos p : Nat} {a : KeySegment}
    (h : decodeComponent data pos = .ok (a, p)) (hpos : pos < data.length) : pos < p := by
  have hsame := sameRead pos hpos
  cases hd : decodeSegment pos (data.drop pos) with
  | error e =>
    rw [hd] at hsame
    obtain ⟨e', he⟩ := hsame
    rw [he] at h
    cases h
  | ok q =>
    rw [hd] at hsame
    obtain ⟨p', hp, hlt, -⟩ := hsame
    rw [hp] at h
    cases h
    exact hlt

/-- The loop in `decode`. -/
def decodeComponents (data : Bytes) (pos : Nat) : Except Fault Key :=
  if _hpos : pos < data.length then
    match _h : decodeComponent data pos with
    | .error e => .error e
    | .ok (a, p) => (decodeComponents data p).map (a :: ·)
  else .ok []
termination_by data.length - pos
decreasing_by
  have hlt := decodeComponent_pos _h _hpos
  omega

/-- `decode`. -/
def decode (encoded : Bytes) : Except Fault Key :=
  if encoded = [] then raise (.decode .emptyKey) else decodeComponents encoded 0

/-- Both give the same value, or both raise. -/
def Agree {α : Type} (x : Except Fault α) (y : Except PyError α) : Prop :=
  (∃ v, x = .ok v ∧ y = .ok v) ∨ ∃ e e', x = raise e ∧ y = .error e'

theorem decodeComponents_of_error {data : Bytes} {pos : Nat} {e : PyError}
    (hpos : pos < data.length) (h : decodeComponent data pos = raise e) :
    decodeComponents data pos = raise e := by
  rw [decodeComponents, dif_pos hpos]
  split
  · rename_i hs
    rw [h] at hs
    rw [← Except.error.inj hs]
    rfl
  · rename_i hs
    rw [h] at hs
    cases hs

theorem decodeComponents_of_ok {data : Bytes} {pos p : Nat} {a : KeySegment}
    (hpos : pos < data.length) (h : decodeComponent data pos = .ok (a, p)) :
    decodeComponents data pos = (decodeComponents data p).map (a :: ·) := by
  rw [decodeComponents, dif_pos hpos]
  split
  · rename_i hs
    rw [h] at hs
    cases hs
  · rename_i hs
    rw [h] at hs
    obtain ⟨rfl, rfl⟩ := Prod.mk.inj (Except.ok.inj hs)
    rfl

theorem agree_components (data : Bytes) (pos pos' : Nat) :
    Agree (decodeComponents data pos) (decodeSegments pos' (data.drop pos)) := by
  induction hn : data.length - pos using Nat.strongRecOn generalizing pos pos' with
  | ind n ih =>
    subst hn
    by_cases hpos : pos < data.length
    · have hne : data.drop pos ≠ [] := fun he => absurd (length_le_of_drop he) (Nat.not_le.2 hpos)
      have hsame := sameRead pos' hpos
      cases hd : decodeSegment pos' (data.drop pos) with
      | error e =>
        rw [hd] at hsame
        obtain ⟨e', he⟩ := hsame
        exact .inr ⟨e', e, decodeComponents_of_error hpos he, decodeSegments_of_error hne hd⟩
      | ok q =>
        obtain ⟨a, r⟩ := q
        rw [hd] at hsame
        obtain ⟨p, hp, hlt, rfl⟩ := hsame
        rw [decodeComponents_of_ok hpos hp, decodeSegments_of_ok hne hd]
        rcases ih _ (by omega) p
          (pos' + ((data.drop pos).length - (data.drop p).length)) rfl with
          ⟨v, hx, hy⟩ | ⟨e, e', hx, hy⟩
        · exact .inl ⟨a :: v, by rw [hx]; rfl, by rw [hy]; rfl⟩
        · exact .inr ⟨e, e', by rw [hx]; rfl, by rw [hy]; rfl⟩
    · rw [decodeComponents, dif_neg hpos, List.drop_eq_nil_of_le (Nat.le_of_not_lt hpos),
        decodeSegments_nil]
      exact .inl ⟨[], rfl, rfl⟩

/-- (PROVED) The decoders agree on every byte string. -/
theorem agree_decode (b : Bytes) : Agree (decode b) (KeyCodec.decode b) := by
  unfold decode KeyCodec.decode
  by_cases hb : b = []
  · rw [if_pos hb, if_pos hb]
    exact .inr ⟨_, _, rfl, rfl⟩
  · rw [if_neg hb, if_neg hb]
    exact agree_components b 0 0

/-! ## The encoder -/

theorem toUInt8_masked (u : UInt64) : (u &&& 0xFF).toUInt8 = (u.toNat % 256).toUInt8 := by
  apply UInt8.toNat_inj.1
  have hff : (0xFF : UInt64).toNat = 2 ^ 8 - 1 := rfl
  rw [UInt64.toNat_toUInt8, UInt64.toNat_and, hff, Nat.and_two_pow_sub_one_eq_mod]
  simp

theorem toUInt8_shifted (u s : UInt64) (hs : s.toNat < 64) :
    ((u >>> s) &&& 0xFF).toUInt8 = (u.toNat / 2 ^ s.toNat % 256).toUInt8 := by
  rw [toUInt8_masked, UInt64.toNat_shiftRight, Nat.mod_eq_of_lt hs, Nat.shiftRight_eq_div_pow]

theorem toNat_biased {v : Int} (hv : InInt64 v) :
    (Int64.ofInt v + int64Bias.toInt64).toUInt64.toNat = (v + 2 ^ 63).toNat := by
  have hbits : (Int64.ofInt v + int64Bias.toInt64).toUInt64.toNat =
      (BitVec.ofInt 64 v + int64Bias.toBitVec).toNat := rfl
  have hbias : int64Bias.toBitVec.toNat = 2 ^ 63 := rfl
  rw [InInt64] at hv
  rw [hbits, BitVec.toNat_add, BitVec.toNat_ofInt, hbias]
  omega

/-- (PROVED) The bias wraps around to the unsigned value that the other codec writes. -/
theorem encodeIntegerInline_eq {v : Int} (hv : InInt64 v) :
    encodeIntegerInline (Int64.ofInt v) = bigEndian 8 (v + 2 ^ 63).toNat := by
  rw [← toNat_biased hv, encodeIntegerInline]
  generalize (Int64.ofInt v + int64Bias.toInt64).toUInt64 = u
  have hlt := u.toNat_lt
  have hdigit : ∀ s : UInt64, s.toNat < 64 → ∀ n, u.toNat / 2 ^ s.toNat % 256 = n →
      ((u >>> s) &&& 0xFF).toUInt8 = n.toUInt8 :=
    fun s hs n hn => by rw [toUInt8_shifted u s hs, hn]
  simp only [bigEndian, List.cons.injEq, and_true]
  refine ⟨hdigit 56 (by decide) _ ?_, hdigit 48 (by decide) _ ?_, hdigit 40 (by decide) _ ?_,
    hdigit 32 (by decide) _ ?_, hdigit 24 (by decide) _ ?_, hdigit 16 (by decide) _ ?_,
    hdigit 8 (by decide) _ ?_, (toUInt8_masked u).trans (congrArg _ (by omega))⟩
  all_goals
    simp only [UInt64.reduceToNat]
    omega

theorem countNullBytes_foldl (b : Bytes) (n : Nat) :
    b.foldl (fun n x => if x = 0 then n + 1 else n) n + b.length = n + (escape b).length := by
  induction b generalizing n with
  | nil => rfl
  | cons x b ih =>
    rw [List.foldl_cons, List.length_cons]
    by_cases hx : x = 0
    · have h := ih (n + 1)
      rw [if_pos hx, hx, escape_cons_zero, List.length_cons, List.length_cons]
      omega
    · have h := ih n
      rw [if_neg hx, escape_cons hx, List.length_cons]
      omega

/-- The size that the first pass plans for an escaped string. -/
theorem length_escape (b : Bytes) : (escape b).length = b.length + countNullBytes b := by
  have h := countNullBytes_foldl b 0
  rw [countNullBytes]
  omega

theorem copyWithEscape_eq (c : Cursor UInt8) (src : Bytes) :
    copyWithEscape c src = c.putAll (escape src) := by
  induction src generalizing c with
  | nil => rfl
  | cons x src ih =>
    have hstep : copyWithEscape c (x :: src) =
        ((c.put x).bind fun c => if x = 0 then c.put 0xFF else some c).bind (copyWithEscape · src) :=
      rfl
    rw [hstep]
    by_cases hx : x = 0
    · subst hx
      rw [escape_cons_zero, Cursor.putAll_cons, Option.bind_assoc]
      refine congrArg _ (funext fun c => ?_)
      rw [Cursor.putAll_cons]
      exact congrArg _ (funext fun c => ih c)
    · rw [escape_cons hx, Cursor.putAll_cons, Option.bind_assoc]
      refine congrArg _ (funext fun c => ?_)
      rw [if_neg hx]
      exact ih c

/-- A string that the Cython codec takes, of at most 10 MiB. -/
def WithinLimit : KeySegment → Prop
  | .int _ => True
  | .str s => (utf8 s).length ≤ maxStringLength

theorem componentSize_ok {a : KeySegment} (i : Nat) (ha : Valid a) (hl : WithinLimit a) :
    componentSize i a = .ok (segmentBytes a).length := by
  cases a with
  | int v =>
    have hin : ¬ (Int64.ofInt v < Int64.minValue ∨ Int64.ofInt v > Int64.maxValue) :=
      not_or.2 ⟨Int64.not_lt.2 (Int64.minValue_le _), Int64.not_lt.2 (Int64.le_maxValue _)⟩
    rw [componentSize, if_pos (valid_int.1 ha)]
    dsimp only
    rw [if_neg hin, segmentBytes, List.length_cons, List.length_append, length_bigEndian]
    rfl
  | str s =>
    have hle : ¬ (utf8 s).length > maxStringLength := Nat.not_lt.2 hl
    rw [componentSize, utf8Encode_eq_some.2 ⟨valid_str.1 ha, rfl⟩]
    dsimp only
    rw [if_neg hle, segmentBytes, List.length_cons, List.length_append, length_escape]
    refine congrArg Except.ok ?_
    rw [List.length_singleton]
    omega

theorem componentSize_error {a : KeySegment} (i : Nat) (h : ¬ (Valid a ∧ WithinLimit a)) :
    ∃ e, componentSize i a = .error e := by
  cases a with
  | int v =>
    have hv : ¬ InInt64 v := fun hv => h ⟨valid_int.2 hv, trivial⟩
    exact ⟨_, if_neg hv⟩
  | str s =>
    rw [componentSize]
    cases hu : utf8Encode s with
    | none => exact ⟨_, rfl⟩
    | some b =>
      obtain ⟨hs, rfl⟩ := utf8Encode_eq_some.1 hu
      have hgt : (utf8 s).length > maxStringLength :=
        Nat.lt_of_not_le fun hle => h ⟨valid_str.2 hs, hle⟩
      exact ⟨_, if_pos hgt⟩

theorem totalSize_ok {k : Key} (hv : ∀ a ∈ k, Valid a) (hl : ∀ a ∈ k, WithinLimit a)
    (i total : Nat) : totalSize i total k = .ok (total + (k.flatMap segmentBytes).length) := by
  induction k generalizing i total with
  | nil => rfl
  | cons a k ih =>
    rw [totalSize, componentSize_ok i (hv a (by simp)) (hl a (by simp))]
    dsimp only
    rw [ih (fun c hc => hv c (by simp [hc])) (fun c hc => hl c (by simp [hc])), List.flatMap_cons,
      List.length_append, Nat.add_assoc]

theorem totalSize_error {k : Key} (h : ¬ ∀ a ∈ k, Valid a ∧ WithinLimit a) (i total : Nat) :
    ∃ e, totalSize i total k = .error e := by
  induction k generalizing i total with
  | nil => exact absurd (fun _ ha => (List.not_mem_nil ha).elim) h
  | cons a k ih =>
    rw [totalSize]
    cases hs : componentSize i a with
    | error e => exact ⟨e, rfl⟩
    | ok size =>
      by_cases ha : Valid a ∧ WithinLimit a
      · refine ih (fun hk => h fun c hc => ?_) (i + 1) (total + size)
        rcases List.mem_cons.1 hc with rfl | hc
        · exact ha
        · exact hk c hc
      · obtain ⟨e, he⟩ := componentSize_error i ha
        rw [he] at hs
        cases hs

/-- The second pass writes a component's bytes one after another. -/
theorem writeComponent_eq (c : Cursor UInt8) {a : KeySegment} (ha : Valid a) :
    writeComponent c a = checked (c.putAll (segmentBytes a)) := by
  have hbind : ∀ (x : Option (Cursor UInt8)) (f : Cursor UInt8 → Option (Cursor UInt8)),
      (checked x).bind (fun c => checked (f c)) = checked (x.bind f) := by
    intro x f
    cases x <;> rfl
  cases a with
  | int v =>
    have hstep : writeComponent c (.int v) = (checked (c.put 0x01)).bind fun c =>
        (checked (c.putAll (encodeIntegerInline (Int64.ofInt v)))).bind fun c =>
          checked (c.put 0x00) := rfl
    rw [hstep, encodeIntegerInline_eq (valid_int.1 ha), segmentBytes, Cursor.putAll_cons]
    simp only [hbind, Cursor.putAll_append, Cursor.putAll_singleton]
  | str s =>
    have hstep : writeComponent c (.str s) = (checked (c.put 0x02)).bind fun c =>
        (checked (copyWithEscape c (utf8 s))).bind fun c => checked (c.put 0x00) := by
      rw [writeComponent, utf8Encode_eq_some.2 ⟨valid_str.1 ha, rfl⟩]
      rfl
    rw [hstep, segmentBytes, Cursor.putAll_cons]
    simp only [hbind, copyWithEscape_eq, Cursor.putAll_append, Cursor.putAll_singleton]

theorem foldlM_writeComponent {k : Key} (hv : ∀ a ∈ k, Valid a) (c : Cursor UInt8) :
    k.foldlM writeComponent c = checked (c.putAll (k.flatMap segmentBytes)) := by
  induction k generalizing c with
  | nil => rfl
  | cons a k ih =>
    rw [List.foldlM_cons, writeComponent_eq c (hv a (by simp)), List.flatMap_cons,
      Cursor.putAll_append]
    cases c.putAll (segmentBytes a) with
    | none => rfl
    | some c => exact ih (fun b hb => hv b (by simp [hb])) c

/-- A key the Cython codec takes. -/
theorem encode_ok (m : Memory) {k : Key} (hk : k ≠ []) (hv : ∀ a ∈ k, Valid a)
    (hl : ∀ a ∈ k, WithinLimit a) : encode m k = .ok (k.flatMap segmentBytes) := by
  have hlen : (k.flatMap segmentBytes).length =
      (m.alloc (0 + (k.flatMap segmentBytes).length)).length := by
    rw [m.length_alloc, Nat.zero_add]
  rw [encode, if_neg hk, totalSize_ok hv hl]
  dsimp only
  rw [foldlM_writeComponent hv, Cursor.putAll_exact hlen]
  rfl

theorem encode_error (m : Memory) {k : Key}
    (h : ¬ (k ≠ [] ∧ ∀ a ∈ k, Valid a ∧ WithinLimit a)) : ∃ e, encode m k = raise e := by
  rw [encode]
  by_cases hk : k = []
  · exact ⟨_, if_pos hk⟩
  · obtain ⟨e, he⟩ := totalSize_error (fun hall => h ⟨hk, hall⟩) 0 0
    rw [if_neg hk, he]
    exact ⟨e, rfl⟩

/-- Where the Cython codec takes every string that the other one takes. -/
def LimitKept (k : Key) : Prop := k ≠ [] → (∀ a ∈ k, Valid a) → ∀ a ∈ k, WithinLimit a

theorem agree_encode (m : Memory) {k : Key} (h : LimitKept k) :
    Agree (encode m k) (KeyCodec.encode k) := by
  by_cases hk : k ≠ [] ∧ ∀ a ∈ k, Valid a
  · exact .inl ⟨_, encode_ok m hk.1 hk.2 (h hk.1 hk.2), KeyCodec.encode_ok hk.1 hk.2⟩
  · obtain ⟨e, he⟩ := encode_error m fun hc => hk ⟨hc.1, fun a ha => (hc.2 a ha).1⟩
    cases hp : KeyCodec.encode k with
    | error e' => exact .inr ⟨e, e', he, rfl⟩
    | ok b =>
      obtain ⟨hne, hv, -⟩ := encode_eq_ok.1 hp
      exact absurd ⟨hne, hv⟩ hk

theorem agree_encode_iff (m : Memory) (k : Key) :
    Agree (encode m k) (KeyCodec.encode k) ↔ LimitKept k := by
  refine ⟨fun hagree hk hv => ?_, agree_encode m⟩
  by_contra hl
  obtain ⟨e, he⟩ := encode_error m fun hc => hl fun a ha => (hc.2 a ha).2
  rcases hagree with ⟨b, hb, -⟩ | ⟨_, e', -, he'⟩
  · rw [he] at hb
    cases hb
  · rw [KeyCodec.encode_ok hk hv] at he'
    cases he'

theorem Agree.map {α β : Type} {x : Except Fault α} {y : Except PyError α} (h : Agree x y)
    (f : α → β) : Agree (x.map f) (y.map f) := by
  rcases h with ⟨v, rfl, rfl⟩ | ⟨e, e', rfl, rfl⟩
  · exact .inl ⟨f v, rfl, rfl⟩
  · exact .inr ⟨e, e', rfl, rfl⟩

/-- (PROVED) The two codecs read every byte string alike, and write a key alike exactly if it is
    not one of their common domain with a string beyond 10 MiB. -/
theorem codecs_agree (m : Memory) (k : Key) :
    (Agree (encode m k) (KeyCodec.encode k) ∧
      Agree (upperBoundOfPrefix m k) (KeyCodec.upperBoundOfPrefix k) ∧
      ∀ b, Agree (decode b) (KeyCodec.decode b)) ↔ LimitKept k :=
  ⟨fun h => (agree_encode_iff m k).1 h.1,
    fun h => ⟨agree_encode m h, (agree_encode m h).map _, agree_decode⟩⟩

/-- Zeroed memory. -/
def zeroed : Memory := ⟨fun size => List.replicate size 0, fun _ => List.length_replicate⟩

/-- One letter, once more than 10 MiB. -/
def longName : Key := [.str (List.replicate (maxStringLength + 1) 97)]

theorem length_utf8_letters (n : Nat) : (utf8 (List.replicate n 97)).length = n := by
  induction n with
  | zero => rfl
  | succ n ih =>
    have hone : (utf8One 97).length = 1 := by decide
    rw [List.replicate_succ, utf8, List.flatMap_cons, List.length_append, hone]
    exact (congrArg (1 + ·) ih).trans (Nat.add_comm ..)

/-- The Cython codec refuses a name that the other one writes. -/
theorem codecs_disagree : ¬ Agree (encode zeroed longName) (KeyCodec.encode longName) := by
  rw [agree_encode_iff]
  intro h
  have hne : longName ≠ [] := List.cons_ne_nil _ _
  have hvalid : ∀ a ∈ longName, Valid a := by
    intro a ha
    rw [longName, List.mem_singleton] at ha
    subst ha
    refine valid_str.2 fun c hc => .inl ?_
    rw [List.eq_of_mem_replicate hc]
    decide
  have hle : (utf8 (List.replicate (maxStringLength + 1) 97)).length ≤ maxStringLength :=
    h hne hvalid _ (List.mem_singleton.2 rfl)
  rw [length_utf8_letters] at hle
  exact Nat.not_succ_le_self _ hle

end Virtuals.KeyCodec.Cython
