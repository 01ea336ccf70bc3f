/-
  Strict UTF-8, and numbers of a fixed width.

  `utf8` writes every code point; the strict codec refuses surrogates, on both ways, and reads only
  the shortest form of a code point. Its words keep the order of the code points whatever follows.
-/
import Virtuals.Lib.Text
import Mathlib.Data.List.Lex
import Mathlib.Order.Fin.Basic

namespace Virtuals.Lib

/-! ## Bytes -/

theorem uint8_lt_iff {a b : UInt8} : a < b ↔ a.toNat < b.toNat := UInt8.lt_iff_toNat_lt

theorem uint8_ext {a b : UInt8} (h : a.toNat = b.toNat) : a = b := UInt8.toNat_inj.1 h

theorem toNat_toUInt8 {n : Nat} (h : n < 256) : n.toUInt8.toNat = n := by
  rw [Nat.toUInt8_eq, UInt8.toNat_ofNat', Nat.mod_eq_of_lt h]

theorem eq_toUInt8 {a : UInt8} {n : Nat} (h : a.toNat = n) : a = n.toUInt8 :=
  uint8_ext (by rw [toNat_toUInt8 (h ▸ a.toNat_lt), h])

theorem toUInt8_lt {m n : Nat} (hn : n < 256) (h : m < n) : m.toUInt8 < n.toUInt8 := by
  rw [uint8_lt_iff, toNat_toUInt8 (Nat.lt_trans h hn), toNat_toUInt8 hn]
  exact h

/-! ## UTF-8 -/

/-- A code point that is no surrogate. -/
def Scalar (c : CodePoint) : Prop := c.val < 0xD800 ∨ 0xDFFF < c.val

instance (c : CodePoint) : Decidable (Scalar c) := by unfold Scalar; infer_instance

instance (s : PyStr) : Decidable (Unicode s) := List.decidableBAll (p := Scalar) s

/-- `s.encode("utf-8")`; `none` where it raises `UnicodeEncodeError`. -/
def utf8Encode (s : PyStr) : Option Bytes := if Unicode s then some (utf8 s) else none

/-- The code point `n`, if it is a scalar and no shorter form writes it. -/
def scalarFrom (least n : Nat) (rest : Bytes) : Option (CodePoint × Bytes) :=
  if h : n < 0x110000 then
    if least ≤ n ∧ Scalar ⟨n, h⟩ then some (⟨n, h⟩, rest) else none
  else none

/-- A continuation byte. -/
def IsTail (b : UInt8) : Prop := b.toNat / 64 = 2

instance (b : UInt8) : Decidable (IsTail b) := by unfold IsTail; infer_instance

/-- The first code point, and the bytes after it. -/
def utf8DecodeOne : Bytes → Option (CodePoint × Bytes)
  | [] => none
  | a :: r =>
    if a.toNat < 0x80 then scalarFrom 0 a.toNat r
    else if a.toNat < 0xC0 then none
    else if a.toNat < 0xE0 then
      match r with
      | b :: r =>
        if IsTail b then scalarFrom 0x80 ((a.toNat - 0xC0) * 64 + b.toNat % 64) r else none
      | _ => none
    else if a.toNat < 0xF0 then
      match r with
      | b :: c :: r =>
        if IsTail b ∧ IsTail c then
          scalarFrom 0x800 ((a.toNat - 0xE0) * 4096 + b.toNat % 64 * 64 + c.toNat % 64) r
        else none
      | _ => none
    else if a.toNat < 0xF8 then
      match r with
      | b :: c :: d :: r =>
        if IsTail b ∧ IsTail c ∧ IsTail d then
          scalarFrom 0x10000 ((a.toNat - 0xF0) * 262144 + b.toNat % 64 * 4096 +
            c.toNat % 64 * 64 + d.toNat % 64) r
        else none
      | _ => none
    else none

theorem scalarFrom_eq_some {least n : Nat} {rest r : Bytes} {c : CodePoint} :
    scalarFrom least n rest = some (c, r) ↔
      c.val = n ∧ least ≤ n ∧ Scalar c ∧ r = rest := by
  unfold scalarFrom
  constructor
  · intro h
    split at h
    · split at h
      · rename_i hn hs
        obtain ⟨rfl, rfl⟩ := Prod.mk.inj (Option.some.inj h)
        exact ⟨rfl, hs.1, hs.2, rfl⟩
      · cases h
    · cases h
  · rintro ⟨rfl, hle, hs, rfl⟩
    rw [dif_pos c.isLt, if_pos ⟨hle, hs⟩]

theorem isTail_toUInt8 {n : Nat} (h : n < 64) : IsTail (0x80 + n).toUInt8 := by
  unfold IsTail
  rw [toNat_toUInt8 (by omega)]
  omega

/-- (PROVED) What is read first is a scalar in its own form. -/
theorem utf8DecodeOne_eq_some {b r : Bytes} {c : CodePoint} :
    utf8DecodeOne b = some (c, r) ↔ Scalar c ∧ b = utf8One c ++ r := by
  constructor
  · intro h
    unfold utf8DecodeOne at h
    split at h
    · cases h
    · rename_i a rest
      have ha := a.toNat_lt
      split_ifs at h with h1 h2 h3 h4 h5
      · obtain ⟨hc, -, hs, rfl⟩ := scalarFrom_eq_some.1 h
        refine ⟨hs, ?_⟩
        simp only [utf8One, hc, h1, if_true, List.cons_append, List.nil_append, List.cons.injEq,
          and_true]
        exact eq_toUInt8 rfl
      · split at h
        · rename_i b rest
          have hb := b.toNat_lt
          split_ifs at h with ht
          obtain ⟨hc, hle, hs, rfl⟩ := scalarFrom_eq_some.1 h
          unfold IsTail at ht
          refine ⟨hs, ?_⟩
          have h80 : ¬ c.val < 0x80 := by omega
          have h800 : c.val < 0x800 := by omega
          simp only [utf8One, h80, h800, if_true, if_false, List.cons_append, List.nil_append,
            List.cons.injEq, and_true]
          exact ⟨eq_toUInt8 (by omega), eq_toUInt8 (by omega)⟩
        · cases h
      · split at h
        · rename_i b d rest
          have hb := b.toNat_lt
          have hd := d.toNat_lt
          split_ifs at h with ht
          obtain ⟨hc, hle, hs, rfl⟩ := scalarFrom_eq_some.1 h
          unfold IsTail at ht
          refine ⟨hs, ?_⟩
          have h80 : ¬ c.val < 0x80 := by omega
          have h800 : ¬ c.val < 0x800 := by omega
          have h10000 : c.val < 0x10000 := by omega
          simp only [utf8One, h80, h800, h10000, if_true, if_false, List.cons_append,
            List.nil_append, List.cons.injEq, and_true]
          exact ⟨eq_toUInt8 (by omega), eq_toUInt8 (by omega), eq_toUInt8 (by omega)⟩
        · cases h
      · split at h
        · rename_i b d e rest
          have hb := b.toNat_lt
          have hd := d.toNat_lt
          have he := e.toNat_lt
          split_ifs at h with ht
          obtain ⟨hc, hle, hs, rfl⟩ := scalarFrom_eq_some.1 h
          unfold IsTail at ht
          refine ⟨hs, ?_⟩
          have h80 : ¬ c.val < 0x80 := by omega
          have h800 : ¬ c.val < 0x800 := by omega
          have h10000 : ¬ c.val < 0x10000 := by omega
          simp only [utf8One, h80, h800, h10000, if_false, List.cons_append, List.nil_append,
            List.cons.injEq, and_true]
          exact ⟨eq_toUInt8 (by omega), eq_toUInt8 (by omega), eq_toUInt8 (by omega),
            eq_toUInt8 (by omega)⟩
        · cases h
  · rintro ⟨hs, rfl⟩
    have hc := c.isLt
    unfold utf8One
    dsimp only
    split_ifs with h1 h2 h3
    · have ha : c.val.toUInt8.toNat = c.val := toNat_toUInt8 (by omega)
      simp only [List.cons_append, List.nil_append, utf8DecodeOne, ha, h1, if_true]
      exact scalarFrom_eq_some.2 ⟨rfl, Nat.zero_le _, hs, rfl⟩
    · have ha : (0xC0 + c.val / 64).toUInt8.toNat = 0xC0 + c.val / 64 := toNat_toUInt8 (by omega)
      have hb : (0x80 + c.val % 64).toUInt8.toNat = 0x80 + c.val % 64 := toNat_toUInt8 (by omega)
      have htb := isTail_toUInt8 (n := c.val % 64) (by omega)
      simp only [List.cons_append, List.nil_append, utf8DecodeOne, ha, hb, htb, if_true]
      rw [if_neg (by omega), if_neg (by omega), if_pos (by omega)]
      exact scalarFrom_eq_some.2 ⟨by omega, by omega, hs, rfl⟩
    · have ha : (0xE0 + c.val / 4096).toUInt8.toNat = 0xE0 + c.val / 4096 :=
        toNat_toUInt8 (by omega)
      have hb : (0x80 + c.val / 64 % 64).toUInt8.toNat = 0x80 + c.val / 64 % 64 :=
        toNat_toUInt8 (by omega)
      have hd : (0x80 + c.val % 64).toUInt8.toNat = 0x80 + c.val % 64 := toNat_toUInt8 (by omega)
      have htb := isTail_toUInt8 (n := c.val / 64 % 64) (by omega)
      have htd := isTail_toUInt8 (n := c.val % 64) (by omega)
      simp only [List.cons_append, List.nil_append, utf8DecodeOne, ha, hb, hd, htb, htd, and_self,
        if_true]
      rw [if_neg (by omega), if_neg (by omega), if_neg (by omega), if_pos (by omega)]
      exact scalarFrom_eq_some.2 ⟨by omega, by omega, hs, rfl⟩
    · have ha : (0xF0 + c.val / 262144).toUInt8.toNat = 0xF0 + c.val / 262144 :=
        toNat_toUInt8 (by omega)
      have hb : (0x80 + c.val / 4096 % 64).toUInt8.toNat = 0x80 + c.val / 4096 % 64 :=
        toNat_toUInt8 (by omega)
      have hd : (0x80 + c.val / 64 % 64).toUInt8.toNat = 0x80 + c.val / 64 % 64 :=
        toNat_toUInt8 (by omega)
      have he : (0x80 + c.val % 64).toUInt8.toNat = 0x80 + c.val % 64 := toNat_toUInt8 (by omega)
      have htb := isTail_toUInt8 (n := c.val / 4096 % 64) (by omega)
      have htd := isTail_toUInt8 (n := c.val / 64 % 64) (by omega)
      have hte := isTail_toUInt8 (n := c.val % 64) (by omega)
      simp only [List.cons_append, List.nil_append, utf8DecodeOne, ha, hb, hd, he, htb, htd, hte,
        and_self, if_true]
      rw [if_neg (by omega), if_neg (by omega), if_neg (by omega), if_neg (by omega),
        if_pos (by omega)]
      exact scalarFrom_eq_some.2 ⟨by omega, by omega, hs, rfl⟩

theorem utf8DecodeOne_length {b r : Bytes} {c : CodePoint} (h : utf8DecodeOne b = some (c, r)) :
    r.length < b.length := by
  obtain ⟨-, rfl⟩ := utf8DecodeOne_eq_some.1 h
  have := List.length_pos_of_ne_nil (utf8One_ne_nil c)
  rw [List.length_append]
  omega

/-- `b.decode("utf-8")`; `none` where it raises `UnicodeDecodeError`. -/
def utf8Decode (b : Bytes) : Option PyStr :=
  if b = [] then some []
  else match _h : utf8DecodeOne b with
    | none => none
    | some (c, r) => (utf8Decode r).map (c :: ·)
termination_by b.length
decreasing_by exact utf8DecodeOne_length _h

theorem utf8Decode_nil : utf8Decode [] = some [] := by rw [utf8Decode, if_pos rfl]

theorem utf8Decode_one {c : CodePoint} (hc : Scalar c) (r : Bytes) :
    utf8Decode (utf8One c ++ r) = (utf8Decode r).map (c :: ·) := by
  have hone : utf8DecodeOne (utf8One c ++ r) = some (c, r) := utf8DecodeOne_eq_some.2 ⟨hc, rfl⟩
  have hne : utf8One c ++ r ≠ [] := by simp [utf8One_ne_nil]
  rw [utf8Decode, if_neg hne]
  split
  · rename_i h
    rw [hone] at h
    cases h
  · rename_i h
    rw [hone] at h
    obtain ⟨rfl, rfl⟩ := Prod.mk.inj (Option.some.inj h)
    rfl

theorem utf8Encode_eq_some {b : Bytes} {s : PyStr} :
    utf8Encode s = some b ↔ Unicode s ∧ utf8 s = b := by
  unfold utf8Encode
  by_cases hs : Unicode s <;> simp [hs]

/-- (PROVED) The strict decoder reads what the strict encoder writes, and nothing else. -/
theorem utf8Decode_eq_some {b : Bytes} {s : PyStr} :
    utf8Decode b = some s ↔ utf8Encode s = some b := by
  rw [utf8Encode_eq_some]
  constructor
  · intro h
    induction hn : b.length using Nat.strongRecOn generalizing b s with
    | ind n ih =>
      subst hn
      rw [utf8Decode] at h
      by_cases hb : b = []
      · rw [if_pos hb] at h
        obtain rfl := Option.some.inj h
        exact ⟨fun _ hc => (List.not_mem_nil hc).elim, hb.symm⟩
      · rw [if_neg hb] at h
        split at h
        · cases h
        · rename_i c r hone
          obtain ⟨t, ht, rfl⟩ := Option.map_eq_some_iff.1 h
          obtain ⟨hu, hr⟩ := ih r.length (utf8DecodeOne_length hone) ht rfl
          obtain ⟨hc, hbr⟩ := utf8DecodeOne_eq_some.1 hone
          refine ⟨fun d hd => ?_, ?_⟩
          · rcases List.mem_cons.1 hd with rfl | hd
            · exact hc
            · exact hu d hd
          · rw [hbr, ← hr]
            rfl
  · rintro ⟨hs, rfl⟩
    induction s with
    | nil => exact utf8Decode_nil
    | cons c s ih =>
      have hcs : utf8 (c :: s) = utf8One c ++ utf8 s := rfl
      rw [hcs, utf8Decode_one (hs c (by simp)), ih fun d hd => hs d (by simp [hd])]
      rfl

/-- (PROVED) The bytes of code points are ordered as the code points, whatever follows. -/
theorem utf8One_lt {c d : CodePoint} (h : c < d) (x y : Bytes) :
    utf8One c ++ x < utf8One d ++ y := by
  have hcd : c.val < d.val := h
  have hc := c.isLt
  have hd := d.isLt
  have hlt : ∀ {m n : Nat}, n < 256 → m < n → m.toUInt8 < n.toUInt8 := toUInt8_lt
  have hcons : ∀ {m n : Nat} {v w : Bytes}, n < 256 → m < n ∨ (m = n ∧ v < w) →
      m.toUInt8 :: v < n.toUInt8 :: w := fun hn h => by
    rw [List.cons_lt_cons_iff]
    rcases h with h | ⟨rfl, h⟩
    · exact .inl (hlt hn h)
    · exact .inr ⟨rfl, h⟩
  unfold utf8One
  dsimp only
  split_ifs <;> simp only [List.cons_append, List.nil_append] <;>
    first
    | omega
    | exact hcons (by omega) (.inl (by omega))
    | skip
  -- two forms of one length, of which the first bytes may agree
  · refine hcons (by omega) ?_
    by_cases h1 : c.val / 64 = d.val / 64
    · exact .inr ⟨by omega, hcons (by omega) (.inl (by omega))⟩
    · exact .inl (by omega)
  · refine hcons (by omega) ?_
    by_cases h1 : c.val / 4096 = d.val / 4096
    · refine .inr ⟨by omega, hcons (by omega) ?_⟩
      by_cases h2 : c.val / 64 % 64 = d.val / 64 % 64
      · exact .inr ⟨by omega, hcons (by omega) (.inl (by omega))⟩
      · exact .inl (by omega)
    · exact .inl (by omega)
  · refine hcons (by omega) ?_
    by_cases h1 : c.val / 262144 = d.val / 262144
    · refine .inr ⟨by omega, hcons (by omega) ?_⟩
      by_cases h2 : c.val / 4096 % 64 = d.val / 4096 % 64
      · refine .inr ⟨by omega, hcons (by omega) ?_⟩
        by_cases h3 : c.val / 64 % 64 = d.val / 64 % 64
        · exact .inr ⟨by omega, hcons (by omega) (.inl (by omega))⟩
        · exact .inl (by omega)
      · exact .inl (by omega)
    · exact .inl (by omega)

/-- Only the code point zero writes a zero byte. -/
theorem zero_mem_utf8One {c : CodePoint} : (0 : UInt8) ∈ utf8One c ↔ c = 0 := by
  have hc := c.isLt
  have hz : ∀ {n : Nat}, n < 256 → ((0 : UInt8) = n.toUInt8 ↔ n = 0) := fun {n} hn => by
    constructor
    · intro he
      have := congrArg UInt8.toNat he
      rw [toNat_toUInt8 hn] at this
      exact this.symm
    · rintro rfl
      rfl
  have hval : c = 0 ↔ c.val = 0 := Fin.ext_iff
  unfold utf8One
  dsimp only
  split_ifs <;> simp only [List.mem_cons, List.not_mem_nil, or_false, hval]
  · rw [hz (by omega)]
  · rw [hz (by omega), hz (by omega)]
    omega
  · rw [hz (by omega), hz (by omega), hz (by omega)]
    omega
  · rw [hz (by omega), hz (by omega), hz (by omega), hz (by omega)]
    omega

/-! ## Numbers of a fixed width -/

/-- `n.to_bytes(width, "big")`, for a number that fits. -/
def bigEndian : Nat → Nat → Bytes
  | 0, _ => []
  | width + 1, n => (n / 256 ^ width % 256).toUInt8 :: bigEndian width (n % 256 ^ width)

/-- `int.from_bytes(b, "big")`. -/
def ofBigEndian : Bytes → Nat
  | [] => 0
  | a :: b => a.toNat * 256 ^ b.length + ofBigEndian b

@[simp] theorem length_bigEndian (width n : Nat) : (bigEndian width n).length = width := by
  induction width generalizing n with
  | zero => rfl
  | succ width ih => rw [bigEndian, List.length_cons, ih]

theorem ofBigEndian_lt (b : Bytes) : ofBigEndian b < 256 ^ b.length := by
  induction b with
  | nil => exact Nat.one_pos
  | cons a b ih =>
    have ha : a.toNat + 1 ≤ 256 := a.toNat_lt
    calc a.toNat * 256 ^ b.length + ofBigEndian b
        < a.toNat * 256 ^ b.length + 256 ^ b.length := Nat.add_lt_add_left ih _
      _ = (a.toNat + 1) * 256 ^ b.length := (Nat.succ_mul ..).symm
      _ ≤ 256 * 256 ^ b.length := Nat.mul_le_mul_right _ ha
      _ = 256 ^ (a :: b).length := by rw [List.length_cons, Nat.pow_succ, Nat.mul_comm]

theorem ofBigEndian_bigEndian {width n : Nat} (h : n < 256 ^ width) :
    ofBigEndian (bigEndian width n) = n := by
  induction width generalizing n with
  | zero => exact (Nat.lt_one_iff.1 h).symm
  | succ width ih =>
    have hpos : 0 < 256 ^ width := Nat.pow_pos (by decide)
    have hdiv : n / 256 ^ width < 256 := by
      rw [Nat.div_lt_iff_lt_mul hpos, Nat.mul_comm, ← Nat.pow_succ]
      exact h
    rw [bigEndian, ofBigEndian, length_bigEndian, ih (Nat.mod_lt _ hpos), Nat.mod_eq_of_lt hdiv,
      toNat_toUInt8 hdiv, Nat.mul_comm]
    exact Nat.div_add_mod n _

theorem bigEndian_ofBigEndian (b : Bytes) : bigEndian b.length (ofBigEndian b) = b := by
  induction b with
  | nil => rfl
  | cons a b ih =>
    have hlt := ofBigEndian_lt b
    have hpos : 0 < 256 ^ b.length := Nat.pow_pos (by decide)
    have hdiv : (a.toNat * 256 ^ b.length + ofBigEndian b) / 256 ^ b.length = a.toNat := by
      rw [Nat.add_comm, Nat.add_mul_div_right _ _ hpos, Nat.div_eq_of_lt hlt, Nat.zero_add]
    have hmod : (a.toNat * 256 ^ b.length + ofBigEndian b) % 256 ^ b.length = ofBigEndian b := by
      rw [Nat.add_comm, Nat.add_mul_mod_self_right, Nat.mod_eq_of_lt hlt]
    rw [List.length_cons, bigEndian, ofBigEndian, hdiv, hmod, ih, Nat.mod_eq_of_lt a.toNat_lt]
    exact congrArg (· :: b) (eq_toUInt8 rfl).symm

theorem bigEndian_lt {width m n : Nat} (hn : n < 256 ^ width) (h : m < n) (x y : Bytes) :
    bigEndian width m ++ x < bigEndian width n ++ y := by
  induction width generalizing m n with
  | zero => exact absurd (Nat.lt_one_iff.1 hn ▸ h) (Nat.not_lt_zero _)
  | succ width ih =>
    have hpos : 0 < 256 ^ width := Nat.pow_pos (by decide)
    have hdiv : ∀ k, k < 256 ^ (width + 1) → k / 256 ^ width < 256 := fun k hk => by
      rw [Nat.div_lt_iff_lt_mul hpos, Nat.mul_comm, ← Nat.pow_succ]
      exact hk
    have hm := hdiv m (Nat.lt_trans h hn)
    have hn' := hdiv n hn
    rw [bigEndian, bigEndian, Nat.mod_eq_of_lt hm, Nat.mod_eq_of_lt hn', List.cons_append,
      List.cons_append, List.cons_lt_cons_iff]
    rcases Nat.lt_or_eq_of_le (Nat.div_le_div_right (c := 256 ^ width) (Nat.le_of_lt h)) with
      hlt | heq
    · exact .inl (toUInt8_lt hn' hlt)
    · refine .inr ⟨by rw [heq], ih (Nat.mod_lt _ hpos) ?_⟩
      have h1 := Nat.div_add_mod m (256 ^ width)
      have h2 := Nat.div_add_mod n (256 ^ width)
      rw [heq] at h1
      omega

end Virtuals.Lib
