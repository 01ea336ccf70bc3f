/-
  `pickle.dumps`, protocol 4: the bytes of the opcodes.

  An opcode is one byte, which tells whether its argument has a fixed size or begins with its size. The
  opcodes are put into frames of about 64 KiB, each behind its length; a large str or bytes goes
  between two frames. The bytes can therefore be read in one way only (`dumps_eq_iff`).
-/
import Virtuals.Lib.Utf8
import Virtuals.MemberKey.Pickle

namespace Virtuals.MemberKey

open Virtuals.Lib

/-! ## Numbers -/

/-- `n.to_bytes(width, "little")`. -/
def littleEndian (width n : Nat) : Bytes := (bigEndian width n).reverse

theorem littleEndian_inj {width m n : Nat} (hm : m < 256 ^ width) (hn : n < 256 ^ width)
    (h : littleEndian width m = littleEndian width n) : m = n := by
  rw [← ofBigEndian_bigEndian hm, List.reverse_injective h, ofBigEndian_bigEndian hn]

theorem length_littleEndian (width n : Nat) : (littleEndian width n).length = width := by
  rw [littleEndian, List.length_reverse, length_bigEndian]

/-- The sign byte of a negative number is left out where the byte before it has the sign. -/
def shorten : Bytes → Bytes
  | a :: b :: rest => if a = 0xFF ∧ 128 ≤ b.toNat then b :: rest else a :: b :: rest
  | b => b

/-- `encode_long`: the two's complement, with the sign in the last byte. -/
def encodeLong (x : Int) : Bytes :=
  if x = 0 then []
  else
    let nbytes := (x.natAbs.log2 + 1) / 8 + 1
    let result := bigEndian nbytes (x % 256 ^ nbytes).toNat
    (if x < 0 then shorten result else result).reverse

/-- The number that a two's complement stands for, its sign in the first byte. -/
def signed (b : Bytes) : Int :=
  if 2 * ofBigEndian b < 256 ^ b.length then (ofBigEndian b : Int)
  else (ofBigEndian b : Int) - 256 ^ b.length

theorem signed_bigEndian (width : Nat) {x : Int} (hlow : -(256 ^ width : Int) ≤ 2 * x)
    (hhigh : 2 * x < 256 ^ width) : signed (bigEndian width (x % 256 ^ width).toNat) = x := by
  have hpos : (0 : Int) < 256 ^ width := by positivity
  have hcast : ((256 ^ width : Nat) : Int) = 256 ^ width := by push_cast; rfl
  have hmod := Int.emod_nonneg x hpos.ne'
  have hlt := Int.emod_lt_of_pos x hpos
  have hvalue : ofBigEndian (bigEndian width (x % 256 ^ width).toNat) = (x % 256 ^ width).toNat := by
    refine ofBigEndian_bigEndian ?_
    zify
    rw [Int.toNat_of_nonneg hmod]
    exact_mod_cast hlt
  rw [signed, hvalue, length_bigEndian]
  by_cases hx : 0 ≤ x
  · have hself : x % 256 ^ width = x := Int.emod_eq_of_lt hx (by omega)
    rw [hself, if_pos (by zify; rw [Int.toNat_of_nonneg hx]; omega), Int.toNat_of_nonneg hx]
  · have hself : x % 256 ^ width = x + 256 ^ width := by
      rw [← Int.add_emod_right, Int.emod_eq_of_lt (by omega) (by omega)]
    rw [hself, if_neg (by zify; rw [Int.toNat_of_nonneg (by omega)]; omega),
      Int.toNat_of_nonneg (by omega)]
    omega

theorem signed_shorten (b : Bytes) : signed (shorten b) = signed b := by
  match b with
  | [] => rfl
  | [_] => rfl
  | a :: b :: rest =>
    rw [shorten]
    split_ifs with h
    · obtain ⟨rfl, hb⟩ := h
      have hff : (0xFF : UInt8).toNat = 255 := rfl
      have hrest := ofBigEndian_lt rest
      have hpow : (256 : Nat) ^ (rest.length + 1) = 256 * 256 ^ rest.length := by
        rw [Nat.pow_succ, Nat.mul_comm]
      have hpow' : (256 : Nat) ^ (rest.length + 1 + 1) = 256 * (256 * 256 ^ rest.length) := by
        rw [Nat.pow_succ, hpow, Nat.mul_comm]
      have hmul : 128 * 256 ^ rest.length ≤ b.toNat * 256 ^ rest.length := Nat.mul_le_mul_right _ hb
      have hlow : ¬ 2 * ofBigEndian (b :: rest) < 256 ^ (b :: rest).length := by
        rw [ofBigEndian, List.length_cons, hpow]
        omega
      have hhigh : ¬ 2 * ofBigEndian (0xFF :: b :: rest) < 256 ^ (0xFF :: b :: rest).length := by
        rw [ofBigEndian, ofBigEndian, hff]
        simp only [List.length_cons, hpow', hpow]
        omega
      rw [signed, signed, if_neg hlow, if_neg hhigh, ofBigEndian, ofBigEndian, hff]
      simp only [ofBigEndian, List.length_cons]
      push_cast
      ring
    · rfl

/-- `decode_long` takes back what `encode_long` wrote. -/
theorem signed_encodeLong (x : Int) : signed (encodeLong x).reverse = x := by
  rw [encodeLong]
  split_ifs with hx hneg
  · rw [hx]
    rfl
  all_goals
    have hlog : x.natAbs < 2 ^ (x.natAbs.log2 + 1) := Nat.lt_log2_self
    have hpow : 2 * 2 ^ (x.natAbs.log2 + 1) ≤ (256 : Nat) ^ ((x.natAbs.log2 + 1) / 8 + 1) := by
      rw [← Nat.pow_succ', show (256 : Nat) = 2 ^ 8 from rfl, ← Nat.pow_mul]
      exact Nat.pow_le_pow_right (by decide) (by omega)
    have hcast : ((256 ^ ((x.natAbs.log2 + 1) / 8 + 1) : Nat) : Int) =
        256 ^ ((x.natAbs.log2 + 1) / 8 + 1) := by push_cast; rfl
    have hback := signed_bigEndian ((x.natAbs.log2 + 1) / 8 + 1) (x := x) (by omega) (by omega)
  · rw [List.reverse_reverse, signed_shorten, hback]
  · rw [List.reverse_reverse, hback]

/-! ## Opcodes with their arguments -/

/-- An argument: of a fixed size, or behind its size. -/
inductive Arg
  | fixed (b : Bytes)
  | sized (width : Nat) (b : Bytes)

def Arg.bytes : Arg → Bytes
  | .fixed b => b
  | .sized width b => littleEndian width b.length ++ b

/-- `save_long`. -/
def intInstr (n : Int) : UInt8 × Arg :=
  if 0 ≤ n ∧ n < 0x100 then (0x4B, .fixed (littleEndian 1 n.toNat))
  else if 0 ≤ n ∧ n < 0x10000 then (0x4D, .fixed (littleEndian 2 n.toNat))
  else if -0x80000000 ≤ n ∧ n < 0x80000000 then
    (0x4A, .fixed (littleEndian 4 (n % 0x100000000).toNat))
  else if (encodeLong n).length < 0x100 then (0x8A, .sized 1 (encodeLong n))
  else (0x8B, .sized 4 (encodeLong n))

/-- `save_str` and `save_bytes`: the opcode that has room for the size. -/
def textInstr (short middle long : UInt8) (b : Bytes) : UInt8 × Arg :=
  if b.length ≤ 0xFF then (short, .sized 1 b)
  else if b.length ≤ 0xFFFFFFFF then (middle, .sized 4 b)
  else (long, .sized 8 b)

def Op.instr : Op → UInt8 × Arg
  | .none => (0x4E, .fixed [])
  | .int n => intInstr n
  | .str s => textInstr 0x8C 0x58 0x8D (utf8 s)
  | .bytes b => textInstr 0x43 0x42 0x8E b
  | .get place =>
    if place < 0x100 then (0x68, .fixed (littleEndian 1 place))
    else (0x6A, .fixed (littleEndian 4 place))
  | .memoize => (0x94, .fixed [])
  | .mark => (0x28, .fixed [])
  | .emptyTuple => (0x29, .fixed [])
  | .tuple1 => (0x85, .fixed [])
  | .tuple2 => (0x86, .fixed [])
  | .tuple3 => (0x87, .fixed [])
  | .tuple => (0x74, .fixed [])
  | .stop => (0x2E, .fixed [])

/-- What the pickler can write: an int of less than 2 GiB, a memo of at most 2^32 objects, and, as
every object in memory, a size below 2^64. -/
def Op.Fits : Op → Prop
  | .int n => (encodeLong n).length ≤ 0x7FFFFFFF
  | .str s => (utf8 s).length < 256 ^ 8
  | .bytes b => b.length < 256 ^ 8
  | .get place => place ≤ 0xFFFFFFFF
  | _ => True

instance (op : Op) : Decidable op.Fits := by
  cases op <;> unfold Op.Fits <;> infer_instance

def instrBytes (r : UInt8 × Arg) : Bytes := r.1 :: r.2.bytes

/-! ## Frames -/

/-- How many bytes opcodes have. -/
def sizeOfOps (ops : List Op) : Nat := (ops.map fun op => (instrBytes op.instr).length).sum

def FRAME_SIZE_MIN : Nat := 4

def FRAME_SIZE_TARGET : Nat := 64 * 1024

/-- A frame that is closed: FRAME with its size before it, if it is not too short. -/
def closeFrame (frame : List Op) : List (Nat ⊕ Op) :=
  if FRAME_SIZE_MIN ≤ sizeOfOps frame then .inl (sizeOfOps frame) :: frame.map .inr
  else frame.map .inr

/-- What is written between two frames. -/
def Op.isLarge : Op → Bool
  | .str s => FRAME_SIZE_TARGET ≤ (utf8 s).length
  | .bytes b => FRAME_SIZE_TARGET ≤ b.length
  | _ => false

/-- What `save` writes first for some value: there a long frame is closed. -/
def Op.opens : Op → Bool
  | .none | .int _ | .str _ | .bytes _ | .get _ | .mark | .emptyTuple => true
  | _ => false

/-- The opcodes with the FRAME opcodes between them, from a frame that is not closed yet. -/
def framed : List Op → List Op → List (Nat ⊕ Op)
  | frame, [] => closeFrame frame
  | frame, op :: ops =>
    if op.isLarge then closeFrame frame ++ .inr op :: framed [] ops
    else if op.opens && decide (FRAME_SIZE_TARGET ≤ sizeOfOps frame) then
      closeFrame frame ++ framed [op] ops
    else framed (frame ++ [op]) ops

/-- FRAME, or an opcode. -/
def streamInstr : Nat ⊕ Op → UInt8 × Arg
  | .inl size => (0x95, .fixed (littleEndian 8 size))
  | .inr op => op.instr

/-- What `pickle.dumps` raises on a value that is too large. -/
inductive PickleError
  | tooLarge
  deriving DecidableEq

/-- The bytes of opcodes: PROTO 4, the frames, and STOP at the end. -/
def pickleBytes (ops : List Op) : Bytes :=
  0x80 :: 4 :: (framed [] (ops ++ [.stop])).flatMap fun r => instrBytes (streamInstr r)

/-- `pickle.dumps(o, protocol=4)`. -/
def dumps {I : Type} [DecidableEq I] (o : Obj I) : Except PickleError Bytes :=
  if ∀ op ∈ opcodes o, op.Fits then .ok (pickleBytes (opcodes o)) else .error .tooLarge

/-! ## Bytes read -/

/-- The size of the argument of an opcode, or the width of the size that it begins with. -/
def argSize (code : UInt8) : Nat ⊕ Nat :=
  match code.toNat with
  | 0x4B | 0x68 => .inl 1
  | 0x4D => .inl 2
  | 0x4A | 0x6A => .inl 4
  | 0x95 => .inl 8
  | 0x8A | 0x8C | 0x43 => .inr 1
  | 0x8B | 0x58 | 0x42 => .inr 4
  | 0x8D | 0x8E => .inr 8
  | _ => .inl 0

/-- The argument is of the size that its opcode tells. -/
def Shaped (r : UInt8 × Arg) : Prop :=
  match argSize r.1, r.2 with
  | .inl n, .fixed b => b.length = n
  | .inr width, .sized width' b => width' = width ∧ b.length < 256 ^ width
  | _, _ => False

theorem shaped_fixed {code : UInt8} {n : Nat} {b : Bytes} (hcode : argSize code = .inl n)
    (hb : b.length = n) : Shaped (code, .fixed b) := by
  simp only [Shaped, hcode, hb]

theorem shaped_sized {code : UInt8} {width : Nat} {b : Bytes} (hcode : argSize code = .inr width)
    (hb : b.length < 256 ^ width) : Shaped (code, .sized width b) := by
  simp only [Shaped, hcode, hb, and_self]

/-- A number of the argument's width. -/
theorem shaped_number {code : UInt8} {width : Nat} (hcode : argSize code = .inl width) (n : Nat) :
    Shaped (code, .fixed (littleEndian width n)) := shaped_fixed hcode (length_littleEndian width n)

theorem shaped_text {short middle long : UInt8} (hshort : argSize short = .inr 1)
    (hmiddle : argSize middle = .inr 4) (hlong : argSize long = .inr 8) {b : Bytes}
    (hb : b.length < 256 ^ 8) : Shaped (textInstr short middle long b) := by
  unfold textInstr
  split_ifs with h1 h2
  · exact shaped_sized hshort (by omega)
  · exact shaped_sized hmiddle (by omega)
  · exact shaped_sized hlong hb

theorem shaped_int {n : Int} (hn : (encodeLong n).length ≤ 0x7FFFFFFF) : Shaped (intInstr n) := by
  unfold intInstr
  split_ifs with h1 h2 h3 h4
  · exact shaped_number rfl _
  · exact shaped_number rfl _
  · exact shaped_number rfl _
  · exact shaped_sized rfl h4
  · exact shaped_sized rfl (by omega)

theorem shaped_instr {op : Op} (h : op.Fits) : Shaped op.instr := by
  cases op with
  | int n => exact shaped_int h
  | str s => exact shaped_text rfl rfl rfl h
  | bytes b => exact shaped_text rfl rfl rfl h
  | get place =>
    rw [Op.instr]
    split_ifs with hp
    · exact shaped_number rfl _
    · exact shaped_number rfl _
  | none | memoize | mark | emptyTuple | tuple1 | tuple2 | tuple3 | tuple | stop =>
    exact shaped_fixed rfl rfl

/-- (PROVED) An opcode ends where its argument does, whatever follows. -/
theorem instrBytes_inj {r r' : UInt8 × Arg} (h : Shaped r) (h' : Shaped r') {x y : Bytes}
    (he : instrBytes r ++ x = instrBytes r' ++ y) : r = r' ∧ x = y := by
  obtain ⟨code, arg⟩ := r
  obtain ⟨code', arg'⟩ := r'
  rw [instrBytes, instrBytes, List.cons_append, List.cons_append, List.cons.injEq] at he
  obtain ⟨hcode, he⟩ := he
  have hcode : code = code' := hcode
  subst hcode
  unfold Shaped at h h'
  dsimp only at h h' he
  generalize argSize code = size at h h'
  cases size with
  | inl n =>
    cases arg with
    | sized _ _ => exact h.elim
    | fixed b =>
      cases arg' with
      | sized _ _ => exact h'.elim
      | fixed b' =>
        have h : b.length = n := h
        have h' : b'.length = n := h'
        obtain ⟨hb, hx⟩ := List.append_inj he (h.trans h'.symm)
        exact ⟨by rw [show b = b' from hb], hx⟩
  | inr width =>
    cases arg with
    | fixed _ => exact h.elim
    | sized width₁ b =>
      cases arg' with
      | fixed _ => exact h'.elim
      | sized width₂ b' =>
        obtain ⟨rfl, hlen⟩ : width₁ = width ∧ b.length < 256 ^ width := h
        obtain ⟨rfl, hlen'⟩ : width₂ = _ ∧ b'.length < 256 ^ _ := h'
        rw [Arg.bytes, Arg.bytes, List.append_assoc, List.append_assoc] at he
        obtain ⟨hsize, he⟩ := List.append_inj he (by
          rw [length_littleEndian, length_littleEndian])
        obtain ⟨hb, hx⟩ := List.append_inj he (littleEndian_inj hlen hlen' hsize)
        exact ⟨by rw [hb], hx⟩

theorem flatMap_instrBytes_inj {l l' : List (UInt8 × Arg)} (h : ∀ r ∈ l, Shaped r)
    (h' : ∀ r ∈ l', Shaped r) (he : l.flatMap instrBytes = l'.flatMap instrBytes) : l = l' := by
  induction l generalizing l' with
  | nil =>
    cases l' with
    | nil => rfl
    | cons r' l' => cases he
  | cons r l ih =>
    cases l' with
    | nil => cases he
    | cons r' l' =>
      rw [List.flatMap_cons, List.flatMap_cons] at he
      obtain ⟨hr, hl⟩ := instrBytes_inj (h r List.mem_cons_self) (h' r' List.mem_cons_self) he
      rw [hr, ih (fun r hr => h r (List.mem_cons_of_mem _ hr))
        (fun r hr => h' r (List.mem_cons_of_mem _ hr)) hl]

/-- The opcode of an instruction; FRAME is none of the value's. -/
noncomputable def readInstr (r : UInt8 × Arg) : Option Op :=
  match r.1.toNat, r.2 with
  | 0x4E, _ => some .none
  | 0x4B, .fixed b => some (.int (ofBigEndian b.reverse))
  | 0x4D, .fixed b => some (.int (ofBigEndian b.reverse))
  | 0x4A, .fixed b => some (.int (signed b.reverse))
  | 0x8A, .sized _ b => some (.int (signed b.reverse))
  | 0x8B, .sized _ b => some (.int (signed b.reverse))
  | 0x8C, .sized _ b => some (.str (Function.invFun utf8 b))
  | 0x58, .sized _ b => some (.str (Function.invFun utf8 b))
  | 0x8D, .sized _ b => some (.str (Function.invFun utf8 b))
  | 0x43, .sized _ b => some (.bytes b)
  | 0x42, .sized _ b => some (.bytes b)
  | 0x8E, .sized _ b => some (.bytes b)
  | 0x68, .fixed b => some (.get (ofBigEndian b.reverse))
  | 0x6A, .fixed b => some (.get (ofBigEndian b.reverse))
  | 0x94, _ => some .memoize
  | 0x28, _ => some .mark
  | 0x29, _ => some .emptyTuple
  | 0x85, _ => some .tuple1
  | 0x86, _ => some .tuple2
  | 0x87, _ => some .tuple3
  | 0x74, _ => some .tuple
  | 0x2E, _ => some .stop
  | _, _ => none

theorem ofLittleEndian (width : Nat) {n : Nat} (h : n < 256 ^ width) :
    ofBigEndian (littleEndian width n).reverse = n := by
  rw [littleEndian, List.reverse_reverse, ofBigEndian_bigEndian h]

theorem readInstr_int (n : Int) : readInstr (intInstr n) = some (.int n) := by
  unfold intInstr
  split_ifs with h1 h2 h3 h4
  · show some (Op.int (ofBigEndian (littleEndian 1 n.toNat).reverse)) = _
    rw [ofLittleEndian 1 (by omega), Int.toNat_of_nonneg h1.1]
  · show some (Op.int (ofBigEndian (littleEndian 2 n.toNat).reverse)) = _
    rw [ofLittleEndian 2 (by omega), Int.toNat_of_nonneg h2.1]
  · show some (Op.int (signed (littleEndian 4 (n % 0x100000000).toNat).reverse)) = _
    rw [littleEndian, List.reverse_reverse]
    exact congrArg (some ∘ Op.int) (signed_bigEndian 4 (by omega) (by omega))
  · exact congrArg (some ∘ Op.int) (signed_encodeLong n)
  · exact congrArg (some ∘ Op.int) (signed_encodeLong n)

theorem readInstr_str (s : PyStr) : readInstr (Op.str s).instr = some (.str s) := by
  have hs : Function.invFun utf8 (utf8 s) = s := Function.leftInverse_invFun utf8_injective s
  rw [Op.instr, textInstr]
  split_ifs
  all_goals exact congrArg (some ∘ Op.str) hs

theorem readInstr_bytes (b : Bytes) : readInstr (Op.bytes b).instr = some (.bytes b) := by
  rw [Op.instr, textInstr]
  split_ifs
  all_goals rfl

theorem readInstr_get {place : Nat} (h : place ≤ 0xFFFFFFFF) :
    readInstr (Op.get place).instr = some (.get place) := by
  rw [Op.instr]
  split_ifs with hp
  · exact congrArg (some ∘ Op.get) (ofLittleEndian 1 (by omega))
  · exact congrArg (some ∘ Op.get) (ofLittleEndian 4 (by omega))

theorem readInstr_instr {op : Op} (h : op.Fits) : readInstr op.instr = some op := by
  cases op with
  | int n => exact readInstr_int n
  | str s => exact readInstr_str s
  | bytes b => exact readInstr_bytes b
  | get place => exact readInstr_get h
  | none | memoize | mark | emptyTuple | tuple1 | tuple2 | tuple3 | tuple | stop => rfl

/-! ## Frames taken away -/

theorem closeFrame_ops (frame : List Op) : (closeFrame frame).filterMap Sum.getRight? = frame := by
  have hmap : (frame.map Sum.inr : List (Nat ⊕ Op)).filterMap Sum.getRight? = frame := by
    rw [List.filterMap_map]
    exact List.filterMap_some
  unfold closeFrame
  split_ifs
  · exact hmap
  · exact hmap

/-- Frames leave the opcodes and their order alone. -/
theorem framed_ops (frame ops : List Op) :
    (framed frame ops).filterMap Sum.getRight? = frame ++ ops := by
  induction ops generalizing frame with
  | nil => rw [framed, closeFrame_ops, List.append_nil]
  | cons op ops ih =>
    rw [framed]
    split_ifs
    · rw [List.filterMap_append, closeFrame_ops]
      exact congrArg (frame ++ op :: ·) (ih [])
    · rw [List.filterMap_append, closeFrame_ops, ih]
      rfl
    · rw [ih, List.append_assoc]
      rfl

theorem framed_fits {ops : List Op} (h : ∀ op ∈ ops, op.Fits) :
    ∀ r ∈ framed [] (ops ++ [.stop]), Shaped (streamInstr r) ∧
      readInstr (streamInstr r) = r.getRight? := by
  intro r hr
  cases r with
  | inl size => exact ⟨shaped_number rfl size, rfl⟩
  | inr op =>
    have hop : op ∈ (framed [] (ops ++ [.stop])).filterMap Sum.getRight? :=
      List.mem_filterMap.2 ⟨_, hr, rfl⟩
    rw [framed_ops, List.nil_append, List.mem_append, List.mem_singleton] at hop
    have hfits : op.Fits := hop.elim (h op) fun hop => hop ▸ trivial
    exact ⟨shaped_instr hfits, readInstr_instr hfits⟩

/-- (PROVED) The bytes of a pickle tell its opcodes. -/
theorem pickleBytes_inj {ops ops' : List Op} (h : ∀ op ∈ ops, op.Fits) (h' : ∀ op ∈ ops', op.Fits)
    (he : pickleBytes ops = pickleBytes ops') : ops = ops' := by
  have hflat : ∀ l : List (Nat ⊕ Op), (l.flatMap fun r => instrBytes (streamInstr r)) =
      (l.map streamInstr).flatMap instrBytes := fun l =>
    (List.flatMap_map streamInstr instrBytes l).symm
  have hread : ∀ {ops : List Op}, (∀ op ∈ ops, op.Fits) →
      ((framed [] (ops ++ [.stop])).map streamInstr).filterMap readInstr = ops ++ [.stop] :=
    fun {ops} h => by
      rw [List.filterMap_map]
      exact (List.filterMap_congr fun r hr => (framed_fits h r hr).2).trans (framed_ops [] _)
  have hshaped : ∀ {ops : List Op}, (∀ op ∈ ops, op.Fits) →
      ∀ r ∈ (framed [] (ops ++ [.stop])).map streamInstr, Shaped r := fun h r hr => by
    obtain ⟨a, ha, rfl⟩ := List.mem_map.1 hr
    exact (framed_fits h a ha).1
  rw [pickleBytes, pickleBytes, List.cons.injEq, List.cons.injEq, hflat, hflat] at he
  have hl := flatMap_instrBytes_inj (hshaped h) (hshaped h') he.2.2
  have hops := congrArg (List.filterMap readInstr) hl
  rw [hread h, hread h'] at hops
  exact (List.append_inj' hops rfl).1

variable {I J : Type} [DecidableEq I] [DecidableEq J]

omit [DecidableEq J] in
theorem dumps_ok {o : Obj I} {b : Bytes} (h : dumps o = .ok b) :
    (∀ op ∈ opcodes o, op.Fits) ∧ b = pickleBytes (opcodes o) := by
  unfold dumps at h
  split_ifs at h with hfits
  exact ⟨hfits, (Except.ok.inj h).symm⟩

/-- **Two pickles are the same exactly when the values are equal and share alike** (PROVED). -/
theorem dumps_eq_iff {heap : I → Obj I} {heap' : J → Obj J} {o : Obj I} {o' : Obj J}
    (h : Shared.InHeap heap o) (h' : Shared.InHeap heap' o') {b b' : Bytes} (hb : dumps o = .ok b)
    (hb' : dumps o' = .ok b') :
    b = b' ↔ o.erase = o'.erase ∧ pattern o.names = pattern o'.names := by
  obtain ⟨hfits, rfl⟩ := dumps_ok hb
  obtain ⟨hfits', rfl⟩ := dumps_ok hb'
  rw [← opcodes_eq_iff h h']
  exact ⟨pickleBytes_inj hfits hfits', congrArg pickleBytes⟩

end Virtuals.MemberKey
