/-
  What the binary codec decodes.

  The terminator that the decoder finds is the first zero byte that no escape byte follows, so that
  the bytes before it are an escaped string. A segment is read from its own bytes only, and not when
  the escape byte comes after them, which no segment begins with: so a whole key is read from its own
  bytes only, and from no others.
-/
import Virtuals.KeyCodec.BinaryOrder

namespace Virtuals.KeyCodec

open Lib

/-! ## Terminators -/

/-- The same search byte by byte. -/
def scanTerminator : Bytes → Option Nat
  | [] => none
  | x :: b =>
    if x = 0 then
      match b with
      | [] => some 0
      | y :: b => if y = 0xFF then (scanTerminator b).map (· + 2) else some 0
    else (scanTerminator b).map (· + 1)

theorem scanTerminator_escaped (b : Bytes) :
    scanTerminator (0 :: 0xFF :: b) = (scanTerminator b).map (· + 2) := by simp [scanTerminator]

theorem scanTerminator_zero {y : UInt8} (hy : y ≠ 0xFF) (b : Bytes) :
    scanTerminator (0 :: y :: b) = some 0 := by simp [scanTerminator, hy]

theorem scanTerminator_cons {x : UInt8} (hx : x ≠ 0) (b : Bytes) :
    scanTerminator (x :: b) = (scanTerminator b).map (· + 1) := by
  rw [scanTerminator.eq_def]
  exact if_neg hx

theorem findTerminator_of_none {b : Bytes} (h : b.findIdx? (· == 0) = none) :
    findTerminator b = none := by
  rw [findTerminator]
  split
  · rfl
  · rename_i hs
    rw [h] at hs
    cases hs

theorem findTerminator_of_some {b : Bytes} {i : Nat} (h : b.findIdx? (· == 0) = some i) :
    findTerminator b = if b[i + 1]? = some 0xFF then
      (findTerminator (b.drop (i + 2))).map (i + 2 + ·) else some i := by
  rw [findTerminator]
  split
  · rename_i hn
    rw [h] at hn
    cases hn
  · rename_i j hj
    obtain rfl := Option.some.inj (h.symm.trans hj)
    rfl

theorem findTerminator_cons {x : UInt8} (hx : x ≠ 0) (b : Bytes) :
    findTerminator (x :: b) = (findTerminator b).map (· + 1) := by
  have hfind : (x :: b).findIdx? (· == 0) = (b.findIdx? (· == 0)).map (· + 1) := by
    rw [List.findIdx?_cons]
    simp [hx]
  cases hb : b.findIdx? (· == 0) with
  | none =>
    rw [hb] at hfind
    rw [findTerminator_of_none hb, findTerminator_of_none hfind]
    rfl
  | some i =>
    rw [hb] at hfind
    rw [findTerminator_of_some hb, findTerminator_of_some hfind]
    simp only [List.getElem?_cons_succ, List.drop_succ_cons]
    split
    · rw [Option.map_map]
      refine congrArg (Option.map · _) (funext fun n => ?_)
      simp only [Function.comp_apply]
      omega
    · rfl

theorem findTerminator_zero (b : Bytes) : findTerminator (0 :: b) =
    if b.head? = some 0xFF then (findTerminator b.tail).map (· + 2) else some 0 := by
  have hfind : (0 :: b).findIdx? (· == 0) = some 0 := by simp [List.findIdx?_cons]
  rw [findTerminator_of_some hfind]
  simp only [List.getElem?_cons_succ, List.drop_succ_cons, List.head?_eq_getElem?,
    ← List.drop_one, Nat.zero_add, Nat.add_comm 2]

/-- (PROVED) The search by `find` and the one byte by byte find the same terminator. -/
theorem findTerminator_eq (b : Bytes) : findTerminator b = scanTerminator b := by
  induction b using scanTerminator.induct with
  | case1 => exact findTerminator_of_none rfl
  | case2 => exact findTerminator_zero []
  | case3 b ih =>
    rw [findTerminator_zero, scanTerminator_escaped]
    exact (if_pos rfl).trans (congrArg _ ih)
  | case4 y b hy =>
    rw [findTerminator_zero, scanTerminator_zero hy]
    exact if_neg fun he => hy (Option.some.inj he)
  | case5 x b hx ih => rw [findTerminator_cons hx, scanTerminator_cons hx, ih]

theorem escape_cons_zero (w : Bytes) : escape (0 :: w) = 0 :: 0xFF :: escape w := rfl

theorem escape_cons {x : UInt8} (hx : x ≠ 0) (w : Bytes) : escape (x :: w) = x :: escape w := by
  show (if x = 0 then [0, 0xFF] else [x]) ++ escape w = x :: escape w
  rw [if_neg hx]
  rfl

/-- The terminator of an escaped string is found, if no escape byte follows it. -/
theorem scanTerminator_escape (w : Bytes) {r : Bytes} (hr : Below 0xFF r) :
    scanTerminator (escape w ++ 0 :: r) = some (escape w).length := by
  induction w with
  | nil =>
    cases r with
    | nil => rfl
    | cons y r =>
      have hy : y ≠ 0xFF := fun he => absurd (below_cons.1 hr) (by rw [he]; decide)
      exact scanTerminator_zero hy r
  | cons x w ih =>
    by_cases hx : x = 0
    · rw [hx, escape_cons_zero, List.cons_append, List.cons_append, scanTerminator_escaped, ih]
      rfl
    · rw [escape_cons hx, List.cons_append, scanTerminator_cons hx, ih]
      rfl

/-- What stands before the terminator is an escaped string. -/
theorem of_scanTerminator {b : Bytes} {i : Nat} (h : scanTerminator b = some i) :
    ∃ w r, b.take i = escape w ∧ b = escape w ++ 0 :: r ∧ b.drop (i + 1) = r := by
  induction b using scanTerminator.induct generalizing i with
  | case1 => cases h
  | case2 =>
    cases h
    exact ⟨[], [], rfl, rfl, rfl⟩
  | case3 b ih =>
    rw [scanTerminator_escaped] at h
    obtain ⟨j, hj, rfl⟩ := Option.map_eq_some_iff.1 h
    obtain ⟨w, r, ht, hb, hd⟩ := ih hj
    refine ⟨0 :: w, r, ?_, ?_, hd⟩
    · rw [escape_cons_zero, ← ht]
      rfl
    · rw [escape_cons_zero, List.cons_append, List.cons_append, ← hb]
  | case4 y b hy =>
    rw [scanTerminator_zero hy] at h
    cases h
    exact ⟨[], y :: b, rfl, rfl, rfl⟩
  | case5 x b hx ih =>
    rw [scanTerminator_cons hx] at h
    obtain ⟨j, hj, rfl⟩ := Option.map_eq_some_iff.1 h
    obtain ⟨w, r, ht, hb, hd⟩ := ih hj
    refine ⟨x :: w, r, ?_, ?_, hd⟩
    · rw [escape_cons hx, ← ht]
      rfl
    · rw [escape_cons hx, List.cons_append, ← hb]

theorem unescape_escape (w : Bytes) : unescape (escape w) = w := by
  induction w with
  | nil => rfl
  | cons x w ih =>
    by_cases hx : x = 0
    · rw [hx, escape_cons_zero]
      simp [unescape, ih]
    · rw [escape_cons hx, unescape.eq_def]
      exact (if_neg hx).trans (congrArg _ ih)

/-! ## Segments -/

/-- The eight bytes of an int, read. -/
theorem decodeInteger_eq_ok {data : Bytes} {offset : Nat} {v : Int} :
    decodeInteger data offset = .ok v ↔
      InInt64 v ∧ data.take 8 = bigEndian 8 (v + 2 ^ 63).toNat := by
  unfold decodeInteger InInt64
  by_cases hlen : data.length < 8
  · rw [if_pos hlen]
    refine ⟨fun h => (by cases h), fun ⟨_, h⟩ => ?_⟩
    have := congrArg List.length h
    rw [length_bigEndian, List.length_take] at this
    omega
  · rw [if_neg hlen]
    have htake : (data.take 8).length = 8 := by
      rw [List.length_take]
      omega
    have hlt := ofBigEndian_lt (data.take 8)
    rw [htake] at hlt
    constructor
    · intro h
      have hv : (ofBigEndian (data.take 8) : Int) - 2 ^ 63 = v := Except.ok.inj h
      have hn : (v + 2 ^ 63).toNat = ofBigEndian (data.take 8) := by omega
      refine ⟨by omega, ?_⟩
      have hround := bigEndian_ofBigEndian (data.take 8)
      rw [htake] at hround
      rw [hn, hround]
    · rintro ⟨hv, hd⟩
      rw [hd, ofBigEndian_bigEndian (by omega)]
      exact congrArg Except.ok (by omega)

theorem decodeString_eq_ok {w : Bytes} {s : PyStr} :
    decodeString (escape w) = .ok s ↔ Unicode s ∧ utf8 s = w := by
  unfold decodeString
  rw [unescape_escape, ← utf8Encode_eq_some, ← utf8Decode_eq_some]
  cases utf8Decode w with
  | none => exact ⟨fun h => (by cases h), fun h => (by cases h)⟩
  | some t =>
    exact ⟨fun h => congrArg some (Except.ok.inj h),
      fun h => congrArg Except.ok (Option.some.inj h)⟩

/-- (PROVED) A segment is read from its own bytes. -/
theorem of_decodeSegment {pos : Nat} {b r : Bytes} {a : KeySegment}
    (h : decodeSegment pos b = .ok (a, r)) : Valid a ∧ b = segmentBytes a ++ r := by
  cases b with
  | nil => cases h
  | cons marker data =>
    rw [decodeSegment] at h
    split_ifs at h with h1 h2
    · subst h1
      cases hv : decodeInteger data (pos + 1) with
      | error e =>
        rw [hv] at h
        cases h
      | ok value =>
        rw [hv] at h
        dsimp only at h
        cases hd : data.drop 8 with
        | nil =>
          rw [hd] at h
          cases h
        | cons t rest =>
          rw [hd] at h
          dsimp only at h
          split_ifs at h with ht
          subst ht
          cases h
          obtain ⟨hval, htake⟩ := decodeInteger_eq_ok.1 hv
          refine ⟨valid_int.2 hval, ?_⟩
          have hdata : data = data.take 8 ++ 0 :: r := by
            rw [← hd, List.take_append_drop]
          rw [segmentBytes, ← htake, List.cons_append, List.append_assoc]
          exact congrArg (0x01 :: ·) hdata
    · subst h2
      rw [findTerminator_eq] at h
      cases hi : scanTerminator data with
      | none =>
        rw [hi] at h
        cases h
      | some i =>
        rw [hi] at h
        dsimp only at h
        obtain ⟨w, r', ht, hb, hd⟩ := of_scanTerminator hi
        rw [ht, hd] at h
        cases hs : decodeString (escape w) with
        | error e =>
          rw [hs] at h
          cases h
        | ok s =>
          rw [hs] at h
          cases h
          obtain ⟨hu, rfl⟩ := decodeString_eq_ok.1 hs
          refine ⟨valid_str.2 hu, ?_⟩
          rw [segmentBytes, List.cons_append, List.append_assoc]
          exact congrArg (0x02 :: ·) hb

/-- (PROVED) The bytes of a segment are read back, if no escape byte follows. -/
theorem decodeSegment_segmentBytes {a : KeySegment} (ha : Valid a) {r : Bytes}
    (hr : Below 0xFF r) (pos : Nat) : decodeSegment pos (segmentBytes a ++ r) = .ok (a, r) := by
  cases a with
  | int v =>
    have hlen := length_bigEndian 8 (v + 2 ^ 63).toNat
    have hint : decodeInteger (bigEndian 8 (v + 2 ^ 63).toNat ++ 0 :: r) (pos + 1) = .ok v :=
      decodeInteger_eq_ok.2 ⟨valid_int.1 ha, List.take_left' hlen⟩
    simp only [segmentBytes, List.cons_append, List.append_assoc, List.nil_append, decodeSegment,
      if_true, hint, List.drop_left' hlen]
  | str s =>
    have hfind : findTerminator (escape (utf8 s) ++ 0 :: r) = some (escape (utf8 s)).length := by
      rw [findTerminator_eq, scanTerminator_escape _ hr]
    have hstr : decodeString (escape (utf8 s)) = .ok s :=
      decodeString_eq_ok.2 ⟨valid_str.1 ha, rfl⟩
    have hdrop : (escape (utf8 s) ++ 0 :: r).drop ((escape (utf8 s)).length + 1) = r := by
      rw [List.drop_append]
      simp
    have hmarker : ¬ (0x02 : UInt8) = 0x01 := by decide
    simp only [segmentBytes, List.cons_append, List.append_assoc, List.nil_append, decodeSegment,
      if_true, if_neg hmarker, hfind, List.take_left, hstr, hdrop]
    rfl

/-! ## Keys -/

theorem decodeSegments_nil (pos : Nat) : decodeSegments pos [] = .ok [] := by
  rw [decodeSegments, if_pos rfl]

theorem decodeSegments_of_error {pos : Nat} {b : Bytes} {e : PyError} (hb : b ≠ [])
    (h : decodeSegment pos b = .error e) : decodeSegments pos b = .error e := by
  rw [decodeSegments, if_neg hb]
  split
  · rename_i hs
    rw [h] at hs
    rw [Except.error.inj hs]
  · rename_i hs
    rw [h] at hs
    cases hs

theorem decodeSegments_of_ok {pos : Nat} {b r : Bytes} {a : KeySegment} (hb : b ≠ [])
    (h : decodeSegment pos b = .ok (a, r)) : decodeSegments pos b =
      (decodeSegments (pos + (b.length - r.length)) r).map (a :: ·) := by
  rw [decodeSegments, if_neg hb]
  split
  · rename_i hs
    rw [h] at hs
    cases hs
  · rename_i hs
    rw [h] at hs
    obtain ⟨rfl, rfl⟩ := Prod.mk.inj (Except.ok.inj hs)
    rfl

theorem of_decodeSegments {pos : Nat} {b : Bytes} {k : Key} (h : decodeSegments pos b = .ok k) :
    (∀ a ∈ k, Valid a) ∧ k.flatMap segmentBytes = b := by
  induction hn : b.length using Nat.strongRecOn generalizing pos b k with
  | ind n ih =>
    subst hn
    by_cases hb : b = []
    · subst hb
      rw [decodeSegments_nil] at h
      cases h
      exact ⟨fun _ ha => (List.not_mem_nil ha).elim, rfl⟩
    · cases hs : decodeSegment pos b with
      | error e =>
        rw [decodeSegments_of_error hb hs] at h
        cases h
      | ok p =>
        obtain ⟨a, r⟩ := p
        rw [decodeSegments_of_ok hb hs] at h
        cases hr : decodeSegments (pos + (b.length - r.length)) r with
        | error e =>
          rw [hr] at h
          cases h
        | ok l =>
          rw [hr] at h
          cases h
          obtain ⟨hv, hl⟩ := ih r.length (decodeSegment_length hs) hr rfl
          obtain ⟨ha, hbr⟩ := of_decodeSegment hs
          refine ⟨fun c hc => ?_, ?_⟩
          · rcases List.mem_cons.1 hc with rfl | hc
            · exact ha
            · exact hv c hc
          · rw [List.flatMap_cons, hl, ← hbr]

theorem decodeSegments_flatMap {k : Key} (hk : ∀ a ∈ k, Valid a) (pos : Nat) :
    decodeSegments pos (k.flatMap segmentBytes) = .ok k := by
  induction k generalizing pos with
  | nil => exact decodeSegments_nil pos
  | cons a k ih =>
    have hk' : ∀ c ∈ k, Valid c := fun c hc => hk c (by simp [hc])
    have hone := decodeSegment_segmentBytes (hk a (by simp))
      (orderCode_segmentBytes.wordCode.below hk') pos
    have hne : (a :: k).flatMap segmentBytes ≠ [] := by cases a <;> simp [segmentBytes]
    rw [List.flatMap_cons] at hne ⊢
    rw [decodeSegments_of_ok hne hone, ih hk']
    rfl

/-- What the decoder raises is the codec's error. -/
theorem decodeSegment_error {pos : Nat} {b : Bytes} {e : PyError}
    (h : decodeSegment pos b = .error e) : ∃ d, e = .decode d := by
  cases b with
  | nil =>
    cases h
    exact ⟨_, rfl⟩
  | cons marker data =>
    rw [decodeSegment] at h
    split_ifs at h
    · cases hv : decodeInteger data (pos + 1) with
      | error e' =>
        rw [hv] at h
        cases h
        unfold decodeInteger at hv
        split_ifs at hv
        cases hv
        exact ⟨_, rfl⟩
      | ok value =>
        rw [hv] at h
        dsimp only at h
        cases hd : data.drop 8 with
        | nil =>
          rw [hd] at h
          cases h
          exact ⟨_, rfl⟩
        | cons t rest =>
          rw [hd] at h
          dsimp only at h
          split_ifs at h
          cases h
          exact ⟨_, rfl⟩
    · cases hi : findTerminator data with
      | none =>
        rw [hi] at h
        cases h
        exact ⟨_, rfl⟩
      | some i =>
        rw [hi] at h
        dsimp only at h
        unfold decodeString at h
        cases hs : utf8Decode (unescape (data.take i)) with
        | none =>
          rw [hs] at h
          cases h
          exact ⟨_, rfl⟩
        | some s =>
          rw [hs] at h
          cases h
    · cases h
      exact ⟨_, rfl⟩

theorem decodeSegments_error {pos : Nat} {b : Bytes} {e : PyError}
    (h : decodeSegments pos b = .error e) : ∃ d, e = .decode d := by
  induction hn : b.length using Nat.strongRecOn generalizing pos b with
  | ind n ih =>
    subst hn
    by_cases hb : b = []
    · subst hb
      rw [decodeSegments_nil] at h
      cases h
    · cases hs : decodeSegment pos b with
      | error e' =>
        rw [decodeSegments_of_error hb hs] at h
        cases h
        exact decodeSegment_error hs
      | ok p =>
        obtain ⟨a, r⟩ := p
        rw [decodeSegments_of_ok hb hs] at h
        cases hr : decodeSegments (pos + (b.length - r.length)) r with
        | error e' =>
          rw [hr] at h
          cases h
          exact ih r.length (decodeSegment_length hs) hr rfl
        | ok l =>
          rw [hr] at h
          cases h

/-- What `decode` accepts, and the key it gives. -/
theorem decode_eq_ok {b : Bytes} {k : Key} : decode b = .ok k ↔ encode k = .ok b := by
  rw [encode_eq_ok]
  unfold decode
  by_cases hb : b = []
  · rw [if_pos hb]
    refine ⟨fun h => (by cases h), ?_⟩
    rintro ⟨hk, -, he⟩
    cases k with
    | nil => exact absurd rfl hk
    | cons a k =>
      rw [hb, List.flatMap_cons] at he
      cases a <;> cases he
  · rw [if_neg hb]
    constructor
    · intro h
      obtain ⟨hv, he⟩ := of_decodeSegments h
      refine ⟨?_, hv, he⟩
      rintro rfl
      exact hb he.symm
    · rintro ⟨-, hv, rfl⟩
      exact decodeSegments_flatMap hv 0

/-- (PROVED) The binary codec is a bijection onto what it accepts: it decodes what it encodes, it
    encodes what it decodes, and it refuses every other byte string with its own error. -/
theorem binary_bijection :
    (∀ k : ValidKey, (encode k.key).bind decode = .ok k.key) ∧
    (∀ b k, decode b = .ok k → encode k = .ok b) ∧
    (∀ b, (∃ k, decode b = .ok k ∧ encode k = .ok b) ∨ ∃ d, decode b = .error (.decode d)) := by
  refine ⟨fun k => ?_, fun b k h => decode_eq_ok.1 h, fun b => ?_⟩
  · rw [k.encode_eq]
    exact decode_eq_ok.2 k.encode_eq
  · cases h : decode b with
    | ok k => exact .inl ⟨k, rfl, decode_eq_ok.1 h⟩
    | error e =>
      unfold decode at h
      by_cases hb : b = []
      · rw [if_pos hb] at h
        cases h
        exact .inr ⟨_, rfl⟩
      · rw [if_neg hb] at h
        obtain ⟨d, rfl⟩ := decodeSegments_error h
        exact .inr ⟨d, rfl⟩

end Virtuals.KeyCodec
