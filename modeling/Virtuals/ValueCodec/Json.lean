/-
  `_backends/codecs/json.py`: values as JSON text.

  JSON has no bytes and no tuples. They are written as dicts of one key, `__bytes__` or `__tuple__`,
  and a dict of that one key is read as the marker it looks like, also where it is the user's. So a
  value comes back exactly when no dict in it, at any depth, is spelled like a marker
  (`round_trip_iff`).
-/
import Virtuals.Lib.Text
import Mathlib.Data.List.Nodup

namespace Virtuals.ValueCodec

open Lib

/-- `Value`: the types of `tkv/types.py` that the codec handles; `F` are the finite floats. -/
inductive Value (F : Type)
  | none
  | bool (b : Bool)
  | int (n : Int)
  | float (x : F)
  | str (s : PyStr)
  | bytes (b : Bytes)
  | list (items : List (Value F))
  | tuple (items : List (Value F))
  | dict (items : List (PyStr × Value F))

/-- What a decode raises. -/
inductive CodecError
  | typeError
  | valueError
  deriving DecidableEq

/-- What the codec uses of `json` and `base64`. -/
structure Modules (F : Type) where
  dumps : Value F → PyStr
  loads : PyStr → Except CodecError (Value F)
  b64encode : Bytes → PyStr
  b64decode : PyStr → Except CodecError Bytes

def BYTES_MARKER : PyStr := pyStr "__bytes__"

def TUPLE_MARKER : PyStr := pyStr "__tuple__"

variable {F : Type}

/-- `len(value) == 1 and marker in value`. -/
def isMarker (marker : PyStr) (d : List (PyStr × Value F)) : Bool :=
  decide (d.map Prod.fst = [marker])

/-! ## Encoding -/

mutual

/-- `_preprocess_encode`. -/
def preprocessEncode (M : Modules F) : Value F → Value F
  | .bytes b => .dict [(BYTES_MARKER, .str (M.b64encode b))]
  | .dict d => .dict (preprocessItems M d)
  | .list vs => .list (preprocessAll M vs)
  | .tuple vs => .dict [(TUPLE_MARKER, .list (preprocessAll M vs))]
  | .none => .none
  | .bool b => .bool b
  | .int n => .int n
  | .float x => .float x
  | .str s => .str s

def preprocessAll (M : Modules F) : List (Value F) → List (Value F)
  | [] => []
  | v :: vs => preprocessEncode M v :: preprocessAll M vs

def preprocessItems (M : Modules F) : List (PyStr × Value F) → List (PyStr × Value F)
  | [] => []
  | (k, v) :: d => (k, preprocessEncode M v) :: preprocessItems M d

end

/-- `encode`. -/
def encode (M : Modules F) (v : Value F) : PyStr := M.dumps (preprocessEncode M v)

/-! ## Decoding -/

/-- `base64.b64decode` of what the marker holds: a str, or bytes; others are refused. -/
def decodeBytes (M : Modules F) : List (PyStr × Value F) → Except CodecError (Value F)
  | (_, .str s) :: _ => .bytes <$> M.b64decode s
  | _ => throw .typeError

mutual

/-- `_postprocess_decode`. -/
def postprocessDecode (M : Modules F) : Value F → Except CodecError (Value F)
  | .dict d =>
    if isMarker BYTES_MARKER d then decodeBytes M d
    else if isMarker TUPLE_MARKER d then .tuple <$> postprocessTuple M d
    else .dict <$> postprocessItems M d
  | .list vs => .list <$> postprocessAll M vs
  | .bytes b => pure (.bytes b)
  | .tuple vs => pure (.tuple vs)
  | .none => pure .none
  | .bool b => pure (.bool b)
  | .int n => pure (.int n)
  | .float x => pure (.float x)
  | .str s => pure (.str s)

def postprocessAll (M : Modules F) : List (Value F) → Except CodecError (List (Value F))
  | [] => pure []
  | v :: vs => do
    let w ← postprocessDecode M v
    let ws ← postprocessAll M vs
    pure (w :: ws)

def postprocessItems (M : Modules F) :
    List (PyStr × Value F) → Except CodecError (List (PyStr × Value F))
  | [] => pure []
  | (k, v) :: d => do
    let w ← postprocessDecode M v
    let e ← postprocessItems M d
    pure ((k, w) :: e)

/-- The items that the tuple marker's value iterates over: of a str its characters, of a dict its
    keys. -/
def postprocessTuple (M : Modules F) :
    List (PyStr × Value F) → Except CodecError (List (Value F))
  | (_, .list vs) :: _ => postprocessAll M vs
  | (_, .str s) :: _ => pure (s.map fun c => .str [c])
  | (_, .dict d) :: _ => pure (d.map fun p => .str p.1)
  | _ => throw .typeError

end

/-- `decode`. -/
def decode (M : Modules F) (text : PyStr) : Except CodecError (Value F) := do
  let parsed ← M.loads text
  postprocessDecode M parsed

/-! ## Dicts spelled like markers -/

mutual

/-- Every dict in the value, at any depth, has each key once. -/
def Value.Distinct : Value F → Prop
  | .dict d => (d.map Prod.fst).Nodup ∧ DistinctItems d
  | .list vs => DistinctAll vs
  | .tuple vs => DistinctAll vs
  | _ => True

def DistinctAll : List (Value F) → Prop
  | [] => True
  | v :: vs => v.Distinct ∧ DistinctAll vs

def DistinctItems : List (PyStr × Value F) → Prop
  | [] => True
  | (_, v) :: d => v.Distinct ∧ DistinctItems d

end

mutual

/-- No dict in the value, at any depth, has a marker for its only key. -/
def Value.Clean : Value F → Prop
  | .dict d => isMarker BYTES_MARKER d = false ∧ isMarker TUPLE_MARKER d = false ∧ CleanItems d
  | .list vs => CleanAll vs
  | .tuple vs => CleanAll vs
  | _ => True

def CleanAll : List (Value F) → Prop
  | [] => True
  | v :: vs => v.Clean ∧ CleanAll vs

def CleanItems : List (PyStr × Value F) → Prop
  | [] => True
  | (_, v) :: d => v.Clean ∧ CleanItems d

end

mutual

/-- Equal, with the same type at every level; dicts in any order. -/
def Alike : Value F → Value F → Prop
  | .dict d, .dict e => d.length = e.length ∧ AlikeItems d e
  | .list vs, .list ws => AlikeAll vs ws
  | .tuple vs, .tuple ws => AlikeAll vs ws
  | .bytes b, .bytes c => b = c
  | .none, .none => True
  | .bool b, .bool c => b = c
  | .int n, .int m => n = m
  | .float x, .float y => x = y
  | .str s, .str t => s = t
  | _, _ => False

def AlikeAll : List (Value F) → List (Value F) → Prop
  | [], [] => True
  | v :: vs, w :: ws => Alike v w ∧ AlikeAll vs ws
  | _, _ => False

def AlikeItems : List (PyStr × Value F) → List (PyStr × Value F) → Prop
  | [], _ => True
  | (k, v) :: d, e => (∃ w, (k, w) ∈ e ∧ Alike v w) ∧ AlikeItems d e

end

mutual

theorem Alike.refl : ∀ v : Value F, Alike v v
  | .dict d => ⟨rfl, AlikeItems.refl d d fun _ h => h⟩
  | .list vs => AlikeAll.refl vs
  | .tuple vs => AlikeAll.refl vs
  | .bytes _ => rfl
  | .none => trivial
  | .bool _ => rfl
  | .int _ => rfl
  | .float _ => rfl
  | .str _ => rfl

theorem AlikeAll.refl : ∀ vs : List (Value F), AlikeAll vs vs
  | [] => trivial
  | v :: vs => ⟨Alike.refl v, AlikeAll.refl vs⟩

theorem AlikeItems.refl : ∀ d e : List (PyStr × Value F), (∀ p ∈ d, p ∈ e) → AlikeItems d e
  | [], _, _ => trivial
  | (_, v) :: d, e, h =>
    ⟨⟨v, h _ List.mem_cons_self, Alike.refl v⟩,
      AlikeItems.refl d e fun p hp => h p (List.mem_cons_of_mem _ hp)⟩

end

/-! ## What comes back -/

variable {M : Modules F}

theorem preprocessItems_keys (M : Modules F) (d : List (PyStr × Value F)) :
    (preprocessItems M d).map Prod.fst = d.map Prod.fst := by
  induction d with
  | nil => rfl
  | cons p d ih => rw [preprocessItems, List.map_cons, List.map_cons, ih]

/-- Encoding does not change what looks like a marker. -/
theorem isMarker_preprocess (marker : PyStr) (d : List (PyStr × Value F)) :
    isMarker marker (preprocessItems M d) = isMarker marker d := by
  rw [isMarker, isMarker, preprocessItems_keys]

theorem tuple_not_bytes (v : Value F) : isMarker BYTES_MARKER [(TUPLE_MARKER, v)] = false := by
  show decide ([TUPLE_MARKER] = [BYTES_MARKER]) = false
  decide

/-- The value of a marker for a tuple is read as the items. -/
theorem postprocess_marked (vs : List (Value F)) :
    postprocessDecode M (.dict [(TUPLE_MARKER, .list vs)]) = .tuple <$> postprocessAll M vs := by
  rw [postprocessDecode, tuple_not_bytes, if_neg Bool.false_ne_true, if_pos (by rfl),
    postprocessTuple]

theorem postprocess_bytes (hb64 : ∀ b, M.b64decode (M.b64encode b) = .ok b) (b : Bytes) :
    postprocessDecode M (preprocessEncode M (.bytes b)) = .ok (.bytes b) := by
  rw [preprocessEncode, postprocessDecode, if_pos (by rfl), decodeBytes, hb64]
  rfl

mutual

/-- (PROVED) A value free of dicts spelled like markers comes back as it was. -/
theorem postprocess_clean (hb64 : ∀ b, M.b64decode (M.b64encode b) = .ok b) : ∀ v : Value F, v.Clean →
    postprocessDecode M (preprocessEncode M v) = .ok v
  | .bytes b, _ => postprocess_bytes hb64 b
  | .none, _ => rfl
  | .bool _, _ => rfl
  | .int _, _ => rfl
  | .float _, _ => rfl
  | .str _, _ => rfl
  | .list vs, h => by
    rw [preprocessEncode, postprocessDecode, postprocess_cleanAll hb64 vs h]
    rfl
  | .tuple vs, h => by
    rw [preprocessEncode, postprocess_marked, postprocess_cleanAll hb64 vs h]
    rfl
  | .dict d, h => by
    obtain ⟨hb, ht, hd⟩ := h
    rw [preprocessEncode, postprocessDecode, isMarker_preprocess, isMarker_preprocess, hb, ht,
      if_neg Bool.false_ne_true, if_neg Bool.false_ne_true, postprocess_cleanItems hb64 d hd]
    rfl

theorem postprocess_cleanAll (hb64 : ∀ b, M.b64decode (M.b64encode b) = .ok b) :
    ∀ vs : List (Value F), CleanAll vs →
    postprocessAll M (preprocessAll M vs) = .ok vs
  | [], _ => rfl
  | v :: vs, h => by
    rw [preprocessAll, postprocessAll, postprocess_clean hb64 v h.1, postprocess_cleanAll hb64 vs h.2]
    rfl

theorem postprocess_cleanItems (hb64 : ∀ b, M.b64decode (M.b64encode b) = .ok b) :
    ∀ d : List (PyStr × Value F), CleanItems d →
    postprocessItems M (preprocessItems M d) = .ok d
  | [], _ => rfl
  | (k, v) :: d, h => by
    rw [preprocessItems, postprocessItems, postprocess_clean hb64 v h.1, postprocess_cleanItems hb64 d h.2]
    rfl

end

/-! ## What does not come back -/

theorem ok_of_map {α β ε : Type} {f : α → β} {x : Except ε α} {b : β} (h : f <$> x = .ok b) :
    ∃ a, x = .ok a ∧ f a = b := by
  cases x with
  | error e => cases h
  | ok a => exact ⟨a, rfl, Except.ok.inj h⟩

theorem postprocessAll_ok {v : Value F} {vs ws : List (Value F)}
    (h : postprocessAll M (v :: vs) = .ok ws) : ∃ w us, ws = w :: us ∧
      postprocessDecode M v = .ok w ∧ postprocessAll M vs = .ok us := by
  rw [postprocessAll] at h
  cases hv : postprocessDecode M v with
  | error e =>
    rw [hv] at h
    cases h
  | ok w =>
    cases hvs : postprocessAll M vs with
    | error e =>
      rw [hv, hvs] at h
      cases h
    | ok us =>
      rw [hv, hvs] at h
      exact ⟨w, us, (Except.ok.inj h).symm, rfl, rfl⟩

theorem postprocessItems_ok {k : PyStr} {v : Value F} {d e : List (PyStr × Value F)}
    (h : postprocessItems M ((k, v) :: d) = .ok e) : ∃ w e', e = (k, w) :: e' ∧
      postprocessDecode M v = .ok w ∧ postprocessItems M d = .ok e' := by
  rw [postprocessItems] at h
  cases hv : postprocessDecode M v with
  | error x =>
    rw [hv] at h
    cases h
  | ok w =>
    cases hd : postprocessItems M d with
    | error x =>
      rw [hv, hd] at h
      cases h
    | ok e' =>
      rw [hv, hd] at h
      exact ⟨w, e', (Except.ok.inj h).symm, rfl, rfl⟩

/-- Each item that comes back was decoded from the item of its key. -/
theorem mem_of_postprocessItems {d e : List (PyStr × Value F)}
    (h : postprocessItems M (preprocessItems M d) = .ok e) {k : PyStr} {w : Value F}
    (hw : (k, w) ∈ e) : ∃ v, (k, v) ∈ d ∧ postprocessDecode M (preprocessEncode M v) = .ok w := by
  induction d generalizing e with
  | nil =>
    obtain rfl := Except.ok.inj h
    cases hw
  | cons p d ih =>
    obtain ⟨w', e', rfl, hdecode, hrest⟩ := postprocessItems_ok h
    rcases List.mem_cons.1 hw with hp | hp
    · obtain ⟨rfl, rfl⟩ := Prod.mk.inj hp
      exact ⟨p.2, List.mem_cons_self, hdecode⟩
    · obtain ⟨v, hv, hdecode⟩ := ih hrest hp
      exact ⟨v, List.mem_cons_of_mem _ hv, hdecode⟩

theorem AlikeItems.mem {d e : List (PyStr × Value F)} (h : AlikeItems d e) {k : PyStr}
    {v : Value F} (hv : (k, v) ∈ d) : ∃ w, (k, w) ∈ e ∧ Alike v w := by
  induction d with
  | nil => cases hv
  | cons p d ih =>
    rcases List.mem_cons.1 hv with rfl | hp
    · exact h.1
    · exact ih h.2 hp

/-- The items of a dict that comes back alike come back alike. -/
theorem alikeItems_decoded {d e : List (PyStr × Value F)} (hd : (d.map Prod.fst).Nodup)
    (h : postprocessItems M (preprocessItems M d) = .ok e) (halike : AlikeItems d e) :
    ∀ p ∈ d, ∃ w, postprocessDecode M (preprocessEncode M p.2) = .ok w ∧ Alike p.2 w := by
  intro p hp
  obtain ⟨w, hw, hpw⟩ := halike.mem hp
  obtain ⟨v, hv, hdecode⟩ := mem_of_postprocessItems h hw
  -- a key has one value in the dict
  have hvp : (p.1, v) = p := List.inj_on_of_nodup_map hd hv hp rfl
  obtain rfl := congrArg Prod.snd hvp
  exact ⟨w, hdecode, hpw⟩

theorem decodeBytes_ok {d : List (PyStr × Value F)} {w : Value F}
    (h : decodeBytes M d = .ok w) : ∃ b, w = .bytes b := by
  unfold decodeBytes at h
  split at h
  · obtain ⟨b, -, rfl⟩ := ok_of_map h
    exact ⟨b, rfl⟩
  · cases h

mutual

/-- (PROVED) Nothing but a value free of dicts spelled like markers comes back alike. -/
theorem clean_of_alike : ∀ v : Value F, v.Distinct → ∀ w,
    postprocessDecode M (preprocessEncode M v) = .ok w → Alike v w → v.Clean
  | .bytes _, _, _, _, _ => trivial
  | .none, _, _, _, _ => trivial
  | .bool _, _, _, _, _ => trivial
  | .int _, _, _, _, _ => trivial
  | .float _, _, _, _, _ => trivial
  | .str _, _, _, _, _ => trivial
  | .list vs, hv, w, h, ha => by
    rw [preprocessEncode, postprocessDecode] at h
    obtain ⟨ws, hws, rfl⟩ := ok_of_map h
    exact clean_of_alikeAll vs hv ws hws ha
  | .tuple vs, hv, w, h, ha => by
    rw [preprocessEncode, postprocess_marked] at h
    obtain ⟨ws, hws, rfl⟩ := ok_of_map h
    exact clean_of_alikeAll vs hv ws hws ha
  | .dict d, hv, w, h, ha => by
    rw [preprocessEncode, postprocessDecode, isMarker_preprocess, isMarker_preprocess] at h
    -- a dict read as a marker comes back as no dict
    split_ifs at h with hb ht
    · obtain ⟨b, rfl⟩ := decodeBytes_ok h
      exact ha.elim
    · obtain ⟨ws, -, rfl⟩ := ok_of_map h
      exact ha.elim
    · obtain ⟨e, he, rfl⟩ := ok_of_map h
      exact ⟨Bool.eq_false_of_not_eq_true hb, Bool.eq_false_of_not_eq_true ht,
        clean_of_alikeItems d hv.2 (alikeItems_decoded hv.1 he ha.2)⟩

theorem clean_of_alikeAll : ∀ vs : List (Value F), DistinctAll vs → ∀ ws,
    postprocessAll M (preprocessAll M vs) = .ok ws → AlikeAll vs ws → CleanAll vs
  | [], _, _, _, _ => trivial
  | v :: vs, hv, ws, h, ha => by
    rw [preprocessAll] at h
    obtain ⟨w, us, rfl, hw, hus⟩ := postprocessAll_ok h
    exact ⟨clean_of_alike v hv.1 w hw ha.1, clean_of_alikeAll vs hv.2 us hus ha.2⟩

theorem clean_of_alikeItems : ∀ d : List (PyStr × Value F), DistinctItems d →
    (∀ p ∈ d, ∃ w, postprocessDecode M (preprocessEncode M p.2) = .ok w ∧ Alike p.2 w) →
    CleanItems d
  | [], _, _ => trivial
  | (k, v) :: d, hv, h => by
    obtain ⟨w, hw, ha⟩ := h (k, v) List.mem_cons_self
    exact ⟨clean_of_alike v hv.1 w hw ha,
      clean_of_alikeItems d hv.2 fun p hp => h p (List.mem_cons_of_mem _ hp)⟩

end

/-! ## The round trip -/

/-- (PROVED) **When a value comes back.** If `json.loads` undoes `json.dumps` on what the codec
    hands it and `b64decode` undoes `b64encode`: the decoded value equals the encoded one, with the
    same types at every level, if and only if no dict in the value has a marker for its only key.
    It is then the same also in the order of its dicts. -/
theorem round_trip_iff (M : Modules F) (v : Value F) (hv : v.Distinct)
    (hjson : M.loads (M.dumps (preprocessEncode M v)) = .ok (preprocessEncode M v))
    (hb64 : ∀ b, M.b64decode (M.b64encode b) = .ok b) :
    ((∃ w, decode M (encode M v) = .ok w ∧ Alike v w) ↔ v.Clean) ∧
      (v.Clean → decode M (encode M v) = .ok v) := by
  have hdecode : decode M (encode M v) = postprocessDecode M (preprocessEncode M v) := by
    rw [decode, encode, hjson]
    rfl
  rw [hdecode]
  refine ⟨⟨?_, fun h => ?_⟩, fun h => postprocess_clean hb64 v h⟩
  · rintro ⟨w, hw, ha⟩
    exact clean_of_alike v hv w hw ha
  · exact ⟨v, postprocess_clean hb64 v h, Alike.refl v⟩

/-- Modules that write and read one value as `json` does, and `b"hi"` as `base64` does. -/
def sampleModules (text : PyStr) (parsed : Value Unit) : Modules Unit where
  dumps _ := text
  loads _ := .ok parsed
  b64encode b :=
    if b = [0x68, 0x69] then pyStr "aGk=" else pyStr "!" ++ b.map fun x => Fin.ofNat _ x.toNat
  b64decode s :=
    if s.head? = (pyStr "!").head? then .ok (s.tail.map fun c => UInt8.ofNat c.val)
    else .ok [0x68, 0x69]

theorem sampleModules_b64 (text : PyStr) (parsed : Value Unit) (b : Bytes) :
    (sampleModules text parsed).b64decode ((sampleModules text parsed).b64encode b) = .ok b := by
  by_cases hb : b = [0x68, 0x69]
  · subst hb
    rfl
  · have hback : (b.map fun x => (Fin.ofNat 0x110000 x.toNat)).map (fun c => UInt8.ofNat c.val) =
        b := by
      rw [List.map_map]
      refine (List.map_congr_left fun x _ => ?_).trans (List.map_id b)
      have hx : x.toNat % 0x110000 = x.toNat := Nat.mod_eq_of_lt (by have := x.toNat_lt; omega)
      simp [Fin.ofNat, hx]
    simp only [sampleModules, if_neg hb]
    exact congrArg Except.ok hback

/-- The dict `{"a": (b"hi", 1)}`. -/
def tupleOfBytes : Value Unit := .dict [(pyStr "a", .tuple [.bytes [0x68, 0x69], .int 1])]

/-- The modules as they write and read it. -/
def tupleOfBytesModules : Modules Unit :=
  sampleModules (pyStr "\x7b\"a\": \x7b\"__tuple__\": [\x7b\"__bytes__\": \"aGk=\"\x7d, 1]\x7d\x7d")
    (.dict [(pyStr "a", .dict [(TUPLE_MARKER,
      .list [.dict [(BYTES_MARKER, .str (pyStr "aGk="))], .int 1])])])

theorem tupleOfBytes_round_trip :
    (∃ w, decode tupleOfBytesModules (encode tupleOfBytesModules tupleOfBytes) = .ok w ∧
      Alike tupleOfBytes w) ∧
    decode tupleOfBytesModules (encode tupleOfBytesModules tupleOfBytes) = .ok tupleOfBytes := by
  have hdistinct : tupleOfBytes.Distinct := ⟨by decide, ⟨trivial, trivial, trivial⟩, trivial⟩
  have hclean : tupleOfBytes.Clean := ⟨by decide, by decide, ⟨trivial, trivial, trivial⟩, trivial⟩
  obtain ⟨hiff, hexact⟩ := round_trip_iff tupleOfBytesModules tupleOfBytes hdistinct rfl
    (sampleModules_b64 _ _)
  exact ⟨hiff.2 hclean, hexact hclean⟩

/-- The dict `{"__bytes__": "aGk="}` comes back as the bytes `b"hi"`. -/
theorem marker_dict_lost :
    ¬ ∀ (M : Modules Unit) (v : Value Unit), v.Distinct →
      M.loads (M.dumps (preprocessEncode M v)) = .ok (preprocessEncode M v) →
      (∀ b, M.b64decode (M.b64encode b) = .ok b) →
      ∃ w, decode M (encode M v) = .ok w ∧ Alike v w := by
  intro h
  have hdict := h (sampleModules (pyStr "\x7b\"__bytes__\": \"aGk=\"\x7d")
    (.dict [(BYTES_MARKER, .str (pyStr "aGk="))])) (.dict [(BYTES_MARKER, .str (pyStr "aGk="))])
    ⟨by decide, trivial, trivial⟩ rfl (sampleModules_b64 _ _)
  obtain ⟨w, hw, halike⟩ := hdict
  obtain rfl : Value.bytes [0x68, 0x69] = w := Except.ok.inj hw
  exact halike

end Virtuals.ValueCodec
