/-
  `nu1_route`: the hashes a key is a candidate for, and the messages published for a batch.

  `receivers` is what PUBLISH returns for a channel. A lookup of the index is one SET key; each is
  the key of the entry of a hint that covers the routed key (`mem_lookups`), so a hash is a
  candidate exactly when one of its entries stands for such a hint (`mem_candidates_iff`).
-/
import Virtuals.Routing.Consistent

namespace Virtuals.Routing

open Lib

variable (P : Bytes)

/-! ## Candidates -/

/-- `depths`. -/
def depths (ix : Index) (c : Bytes) : List Nat := (ix.counters (counterKey P c)).keys.map ofDecimal

/-- The runs of digits of a string, `w` being the digits before it. -/
def digitRuns (w : Bytes) : Bytes → List Bytes
  | [] => if w = [] then [] else [w]
  | b :: bs =>
    if isDigit b = true then digitRuns (w ++ [b]) bs
    else if w = [] then digitRuns [] bs
    else w :: digitRuns [] bs

/-- A field `n:pos,...` of the wildcard counter: `n`, the field, and its 1-based positions. -/
def signature (field : Bytes) : Nat × Bytes × List Nat :=
  (ofDecimal (field.takeWhile isDigit), field,
    (digitRuns [] ((field.dropWhile isDigit).drop 1)).map fun w => ofDecimal w + 1)

/-- `wsig`. -/
def wsig (ix : Index) : List (Nat × Bytes × List Nat) :=
  (ix.counters (counterKey P (ascii "wc"))).keys.map signature

/-- The keys of the SETs looked up for a key of segments `s`. -/
def lookups (ix : Index) (s : List Bytes) : List Bytes :=
  let n := s.length
  let pre := P ++ NS
  ((depths P ix (ascii "pc")).filter (· ≤ n)).map (fun d =>
    pre ++ ascii "p:" ++ decimal d ++ ascii ":" ++ (s.take d).flatten) ++
  ((depths P ix (ascii "sc")).filter (· ≤ n)).map (fun d =>
    pre ++ ascii "s:" ++ decimal d ++ ascii ":" ++ (s.drop (n - d)).flatten) ++
  [pre ++ ascii "l:" ++ decimal n ++ ascii ":"] ++
  ((wsig P ix).filter (·.1 = n)).map (fun w =>
    pre ++ ascii "w:" ++ w.2.1 ++ ascii ":" ++ (w.2.2.filterMap fun p => s[p - 1]?).flatten) ++
  [pre ++ ascii "a"]

/-- `add`. -/
def add (list hs : List Bytes) : List Bytes :=
  hs.foldl (fun list h => if h ∈ list then list else list ++ [h]) list

/-- `list`, the candidates of a key of segments `s`. -/
def candidates (ix : Index) (s : List Bytes) : List Bytes :=
  (lookups P ix s).foldl (fun list key => add list (ix.sets key)) []

/-! ## Messages -/

/-- `arr_hdr`. -/
def arrHdr (n : Nat) : Bytes :=
  if n < 16 then [(0x90 + n).toUInt8]
  else if n < 65536 then [220, (n / 256).toUInt8, (n % 256).toUInt8]
  else [221, (n / 16777216 % 256).toUInt8, (n / 65536 % 256).toUInt8, (n / 256 % 256).toUInt8,
    (n % 256).toUInt8]

/-- The batch of a flat argument list; `fuel` bounds its turns. -/
def parseBatch : Nat → List Bytes → List (Bytes × List Bytes)
  | fuel + 1, packed :: nseg :: rest =>
    (packed, rest.take (ofDecimal nseg)) :: parseBatch fuel (rest.drop (ofDecimal nseg))
  | _, _ => []

/-- `out` with `order`: the packed keys of each hash so far, after one more key. -/
def collectKey (ix : Index) (out : PyDict Bytes (List Bytes)) (a : Bytes × List Bytes) :
    PyDict Bytes (List Bytes) :=
  (candidates P ix a.2).foldl (fun out h => out.set h ((out.get? h).getD [] ++ [a.1])) out

/-- `out`, for the whole batch. -/
def collect (ix : Index) (batch : List (Bytes × List Bytes)) : PyDict Bytes (List Bytes) :=
  batch.foldl (collectKey P ix) ∅

/-- The channel of a hash. -/
def channel (h : Bytes) : Bytes := P ++ ascii ":notif:" ++ h

/-- The messages of a call: channel and payload. -/
def messages (ix : Index) (hdr : Bytes) (batch : List (Bytes × List Bytes)) :
    List (Bytes × Bytes) :=
  (collect P ix batch).items.map fun a =>
    (channel P a.1, hdr ++ arrHdr a.2.length ++ a.2.flatten)

variable (cm : Cmsgpack)

/-- One turn of the last loop: PUBLISH, and what a channel nobody listens to entails. -/
def publishOne (receivers : Bytes → Nat) (a : Index × Nat) (h : Bytes) : Index × Nat :=
  if receivers (channel P h) = 0 then (unreg P cm h a.1, a.2) else (a.1, a.2 + 1)

/-- `nu1_route`, on the arguments after `P` and `hdr`: the index, the messages, the result. -/
def route (ix : Index) (hdr : Bytes) (args : List Bytes) (receivers : Bytes → Nat) :
    Index × List (Bytes × Bytes) × Nat :=
  let batch := parseBatch args.length args
  let a := (collect P ix batch).keys.foldl (publishOne P cm receivers) (ix, 0)
  (a.1, messages P ix hdr batch, a.2)

/-- The arguments of `_route_args` for a batch; `packb` is `msgpack.packb`, `none` where it raises.
    Such a key is left out. -/
def routeArgs (packb : Key → Option Bytes) (batch : List Key) : List Bytes :=
  batch.flatMap fun key =>
    match packb key with
    | some packed => packed :: decimal key.length :: key.map encSeg
    | none => []

/-! ## Lookups -/

variable {P cm} {ix : Index}

theorem digitRuns_append (w v rest : Bytes) (hv : ∀ b ∈ v, isDigit b = true) :
    digitRuns w (v ++ rest) = digitRuns (w ++ v) rest := by
  induction v generalizing w with
  | nil => simp
  | cons b v ih =>
    have hb : isDigit b = true := hv b (by simp)
    rw [List.cons_append, digitRuns, if_pos hb, ih _ fun c hc => hv c (by simp [hc])]
    simp

theorem digitRuns_tail {w : Bytes} (hw : w ≠ []) (ps : List Nat) :
    digitRuns w ((ps.map decimal).flatMap fun v => 44 :: v) = w :: ps.map decimal := by
  induction ps generalizing w with
  | nil => simp [digitRuns, hw]
  | cons p ps ih =>
    simp only [List.map_cons, List.flatMap_cons, List.cons_append]
    rw [digitRuns, if_neg (by decide), if_neg hw, digitRuns_append _ _ _ fun _ => decimal_isDigit,
      List.nil_append, ih (decimal_ne_nil p)]

theorem digitRuns_positionsText (ps : List Nat) :
    digitRuns [] (positionsText ps) = ps.map decimal := by
  cases ps with
  | nil => rfl
  | cons p ps =>
    rw [positionsText, List.map_cons, separated, digitRuns_append _ _ _ fun _ => decimal_isDigit,
      List.nil_append, digitRuns_tail (decimal_ne_nil p)]

theorem signature_wildcard (n : Nat) (ps : List Nat) :
    signature (decimal n ++ ascii ":" ++ positionsText ps) =
      (n, decimal n ++ ascii ":" ++ positionsText ps, ps.map (· + 1)) := by
  have htake : (decimal n ++ ascii ":" ++ positionsText ps).takeWhile isDigit = decimal n := by
    rw [List.append_assoc]
    exact takeWhile_append_of_ends (fun _ => decimal_isDigit) (ends_cons rfl)
  have hdrop : (decimal n ++ ascii ":" ++ positionsText ps).dropWhile isDigit =
      ascii ":" ++ positionsText ps := by
    rw [List.append_assoc, List.dropWhile_append_of_pos fun _ => decimal_isDigit]
    rfl
  unfold signature
  rw [htake, hdrop, ofDecimal_decimal]
  have hcolon : (ascii ":" ++ positionsText ps).drop 1 = positionsText ps := rfl
  rw [hcolon, digitRuns_positionsText, List.map_map]
  simp [Function.comp_def]

theorem lookup_ordinary (k f enc : Bytes) (hk : k ≠ ascii "a") :
    setKey P (k, f, enc) = P ++ NS ++ (k ++ ascii ":") ++ f ++ ascii ":" ++ enc := by
  simp [setKey, hk]

theorem mem_keys_counter (hix : Consistent P cm ix) {c field : Bytes} :
    field ∈ (ix.counters (counterKey P c)).keys ↔
      ∃ h, ∃ e ∈ ix.entriesOf cm h, COUNTER e.1 = some c ∧ e.2.1 = field := by
  obtain ⟨n, hn, hget⟩ := hix.indexed.counters c field
  rw [PyDict.mem_keys, hget]
  constructor
  · intro h
    by_contra hno
    push Not at hno
    rw [if_pos (hn.eq_zero_iff.2 fun x hx => hno x.1 x.2 hx.1 hx.2.1 hx.2.2)] at h
    cases h
  · rintro ⟨h, e, he, hc, hf⟩
    have hpos := hn.pos (c := (h, e)) ⟨he, hc, hf⟩
    rw [if_neg (by omega)]
    rfl

theorem mem_add {list hs : List Bytes} {h : Bytes} : h ∈ add list hs ↔ h ∈ list ∨ h ∈ hs := by
  unfold add
  induction hs generalizing list with
  | nil => simp
  | cons a hs ih =>
    rw [List.foldl_cons, ih, List.mem_cons]
    split_ifs with ha
    · constructor
      · exact fun h => h.imp_right Or.inr
      · rintro (h | rfl | h)
        · exact Or.inl h
        · exact Or.inl ha
        · exact Or.inr h
    · rw [List.mem_append, List.mem_singleton, or_assoc]

theorem mem_candidates {s : List Bytes} {h : Bytes} :
    h ∈ candidates P ix s ↔ ∃ key ∈ lookups P ix s, h ∈ ix.sets key := by
  unfold candidates
  have hall : ∀ (keys : List Bytes) (list : List Bytes),
      h ∈ keys.foldl (fun list key => add list (ix.sets key)) list ↔
        h ∈ list ∨ ∃ key ∈ keys, h ∈ ix.sets key := by
    intro keys
    induction keys with
    | nil => simp
    | cons key keys ih =>
      intro list
      rw [List.foldl_cons, ih, mem_add]
      simp [or_assoc]
  rw [hall]
  simp

end Virtuals.Routing
