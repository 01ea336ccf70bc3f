/-
  The binary key codec, as the codec of a storage that is scanned.

  Encodings are byte strings in the order of their bytes. What a scan asks of a codec is that keys keep
  their order, that the bounds of a prefix enclose the keys that have it, and that `decode` undoes
  `encode`; the segments' bytes give all three.
-/
import Virtuals.KeyCodec.BinaryDecode
import Virtuals.Scan.Options

namespace Virtuals.Scan

open Lib KeyCodec

/-! ## Encodings -/

/-- The order of bytes. -/
@[reducible] def byteOrder : LinearOrder UInt8 where
  le_refl := fun a => Nat.le_refl a.toNat
  le_trans := fun a b d (hab : a.toNat ≤ b.toNat) (hbd : b.toNat ≤ d.toNat) => Nat.le_trans hab hbd
  le_antisymm := fun a b hab hba => UInt8.toNat.inj (Nat.le_antisymm hab hba)
  le_total := fun a b => Nat.le_total a.toNat b.toNat
  lt_iff_le_not_ge := fun a b => Nat.lt_iff_le_and_not_ge (m := a.toNat) (n := b.toNat)
  toDecidableLE := inferInstance
  toDecidableLT := inferInstance
  toDecidableEq := inferInstance

/-- The order of byte strings. -/
@[reducible] def bytesOrder : LinearOrder Bytes := @List.instLinearOrder UInt8 byteOrder

/-- An encoded key. -/
@[ext] structure Encoding where
  bytes : Bytes

instance encodingOrder : LinearOrder Encoding :=
  @LinearOrder.lift' Encoding Bytes bytesOrder Encoding.bytes fun _ _ h => Encoding.ext h

theorem encoding_lt {a b : Encoding} : a < b ↔ a.bytes < b.bytes := Iff.rfl

theorem encoding_le {a b : Encoding} : a ≤ b ↔ ¬ b.bytes < a.bytes := by
  rw [← not_lt, encoding_lt]

/-! ## The codec -/

/-- What the codec gives, as an encoding. -/
def encoding : Except PyError Bytes → Option Encoding
  | .ok b => some ⟨b⟩
  | .error _ => none

theorem encoding_eq_some {r : Except PyError Bytes} {e : Encoding} :
    encoding r = some e ↔ r = .ok e.bytes := by
  cases r with
  | ok b =>
    rw [encoding, Option.some.injEq, Except.ok.injEq]
    exact ⟨fun h => by rw [← h], fun h => Encoding.ext h⟩
  | error e => exact iff_of_false (fun h => by cases h) (fun h => by cases h)

variable {W V : Type}

/-- `BinaryKeyCodec`, beside a value codec. -/
def binaryCodec (decodeValue : W → Option V) : OrderedCodec KeySegment Encoding W V where
  encodeKey := fun k => encoding (encode k)
  decodeKey := fun e => (decode e.bytes).toOption
  upperBoundOfPrefix := fun k => encoding (upperBoundOfPrefix k)
  decodeValue := decodeValue
  empty := ⟨[]⟩
  decode_encode := by
    intro k e h
    rw [decode_eq_ok.2 (encoding_eq_some.1 h)]
    rfl
  encode_lt := by
    intro k l e f hk hl
    obtain ⟨-, hkv, hke⟩ := encode_eq_ok.1 (encoding_eq_some.1 hk)
    obtain ⟨-, hlv, hle⟩ := encode_eq_ok.1 (encoding_eq_some.1 hl)
    rw [encoding_lt, ← hke, ← hle]
    exact (orderCode_segmentBytes.flatMap_lt_iff hkv hlv).symm
  encode_take := by
    intro k e n hk hn
    obtain ⟨hne, hv, -⟩ := encode_eq_ok.1 (encoding_eq_some.1 hk)
    have htake : k.take n ≠ [] := by
      rw [ne_eq, List.take_eq_nil_iff]
      intro h
      obtain h | h := h
      · omega
      · exact hne h
    rw [encode_ok htake fun a ha => hv a (List.mem_of_mem_take ha)]
    rfl
  upper := by
    intro p e hp
    obtain ⟨hne, hv, he⟩ := encode_eq_ok.1 (encoding_eq_some.1 hp)
    refine ⟨_, encoding_eq_some.2 (upperBoundOfPrefix_ok hne hv), ?_⟩
    intro k f hk
    obtain ⟨-, hkv, hf⟩ := encode_eq_ok.1 (encoding_eq_some.1 hk)
    rw [encoding_le, encoding_lt, ← he, ← hf]
    exact orderCode_segmentBytes.wordCode.range_iff hv hkv
  upper_isSome := by
    intro p h
    rw [upperBoundOfPrefix] at h
    cases hp : encode p with
    | ok b => rfl
    | error e =>
      rw [hp] at h
      cases h
  encode_nil := rfl
  empty_lt := by
    intro k e hk
    obtain ⟨hne, -, he⟩ := encode_eq_ok.1 (encoding_eq_some.1 hk)
    obtain ⟨a, k, rfl⟩ := List.exists_cons_of_ne_nil hne
    rw [encoding_lt, ← he, List.flatMap_cons]
    cases a <;> exact List.Lex.nil

/-! ## Rows -/

/-- A key of the codec. -/
def keyOf (decodeValue : W → Option V) (key : Key) (hne : key ≠ []) (hv : ∀ a ∈ key, Valid a) :
    (binaryCodec decodeValue).Key :=
  ⟨key, ⟨key.flatMap segmentBytes⟩, encoding_eq_some.2 (encode_ok hne hv)⟩

/-- A key at or below the site 1. -/
def below (segments : Key) (hv : ∀ a ∈ segments, Valid a) :
    (binaryCodec (some : Nat → Option Nat)).Key :=
  keyOf some (.int 1 :: segments) (List.cons_ne_nil _ _) (List.forall_mem_cons.2 ⟨by decide, hv⟩)

/-- The eighth child of the site. -/
def eighth : (binaryCodec (some : Nat → Option Nat)).Key := below [.int 8] (by decide)

/-- A site with children, one of which has its own, and the sites on its sides. -/
def siteRows : Data (binaryCodec (some : Nat → Option Nat)) where
  rows := [(keyOf some [.int 0] (by decide) (by decide), 0), (below [] (by decide), 10),
    (below [.int 2] (by decide), 12), (below [.int 3] (by decide), 13),
    (below [.int 5] (by decide), 15), (below [.int 5, .int 1] (by decide), 51),
    (below [.int 5, .int 2] (by decide), 52), (below [.int 5, .int 3] (by decide), 53),
    (below [.int 7] (by decide), 17), (eighth, 18),
    (keyOf some [.int 2] (by decide) (by decide), 20)]
  sorted := by decide

/-- A scan of the site's children, from past the last of them. -/
def siteScan : StorageScanOptions (binaryCodec (some : Nat → Option Nat)) where
  start := some [.int 1, .int 9]
  reverse := true
  limit := some 4
  filter := none
  breakFilter := some (.prefixed [.int 1])
  startEncoded := none
  maxDepth := some ⟨2, by decide⟩

/-- It passes over what is below the fifth child, and ends at its limit. -/
theorem items_siteScan : items siteScan .items siteRows =
    ([.pair [.int 1, .int 8] 18, .pair [.int 1, .int 7] 17, .pair [.int 1, .int 5] 15,
      .pair [.int 1, .int 3] 13], none) := rfl

end Virtuals.Scan
