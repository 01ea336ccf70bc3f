/-
  `StorageScanOptions`, and what a scan of any backend yields.

  `items` walks the rows in key order from the start: it ends at the first key that the break filter
  does not match, passes over the keys that are deeper than `max_depth` and have the first segments of
  a deeper key before them, drops the keys that the filter does not match, and counts what it yields
  against the limit. The backends walk encoded keys and seek instead. Under a codec that keeps the
  order of keys and encloses prefixes this is the same (`items_eq_walk`).
-/
import Virtuals.Lib.Walk
import Mathlib.Data.List.Lex

namespace Virtuals.Scan

open ScanOrder

/-! ## The codec -/

/-- The order-preserving key codec of a storage, and its value codec; `none` where one raises. -/
structure OrderedCodec (Seg E W V : Type) [LinearOrder Seg] [LinearOrder E] where
  encodeKey : List Seg → Option E
  decodeKey : E → Option (List Seg)
  upperBoundOfPrefix : List Seg → Option E
  decodeValue : W → Option V
  /-- the empty string, which encodes no key -/
  empty : E
  decode_encode : ∀ {k e}, encodeKey k = some e → decodeKey e = some k
  encode_lt : ∀ {k l e f}, encodeKey k = some e → encodeKey l = some f → (k < l ↔ e < f)
  encode_take : ∀ {k e n}, encodeKey k = some e → 0 < n → (encodeKey (k.take n)).isSome
  upper : ∀ {p e}, encodeKey p = some e → ∃ up, upperBoundOfPrefix p = some up ∧
    ∀ {k f}, encodeKey k = some f → (e ≤ f ∧ f < up ↔ p <+: k)
  upper_isSome : ∀ {p}, (upperBoundOfPrefix p).isSome → (encodeKey p).isSome
  encode_nil : encodeKey [] = none
  empty_lt : ∀ {k e}, encodeKey k = some e → empty < e

variable {Seg E W V : Type} [LinearOrder Seg] [LinearOrder E]

/-- A key that the codec accepts. -/
structure OrderedCodec.Key (c : OrderedCodec Seg E W V) where
  key : List Seg
  encoded : E
  encode_eq : c.encodeKey key = some encoded

/-- The rows of a storage, by key. -/
structure Data (c : OrderedCodec Seg E W V) where
  rows : List (c.Key × W)
  sorted : rows.Pairwise fun a b => a.1.key < b.1.key

variable {c : OrderedCodec Seg E W V}

/-- The rows as they are stored. -/
def stored (rows : List (c.Key × W)) : List (E × W) := rows.map fun a => (a.1.encoded, a.2)

/-- The value of an encoded key. -/
def Data.lookup (data : Data c) (e : E) : Option W := PyDict.lookupItem e (stored data.rows)

/-- Rows in the direction of a scan. -/
def facing {A : Type} (reverse : Bool) (rows : List A) : List A :=
  if reverse then rows.reverse else rows

/-! ## Options -/

/-- A filter: a `PrefixFilter`, which the backends look for, or any other. -/
inductive Filter (Seg : Type)
  | prefixed (segments : List Seg)
  | other (accepts : List Seg → Bool)

/-- `matches`. -/
def Filter.matches : Filter Seg → List Seg → Bool
  | .prefixed segments, key => key.take segments.length == segments
  | .other accepts, key => accepts key

/-- `StorageScanOptions`. -/
structure StorageScanOptions (c : OrderedCodec Seg E W V) where
  start : Option (List Seg)
  reverse : Bool
  limit : Option Int
  filter : Option (Filter Seg)
  breakFilter : Option (Filter Seg)
  startEncoded : Option E
  maxDepth : Option { n : Nat // 1 ≤ n }

/-- What the iterator of a scan is asked for. -/
inductive IteratorType
  | keys
  | values
  | items
  deriving DecidableEq

/-- What a scan yields. -/
inductive Item (Seg V : Type)
  | key (key : List Seg)
  | value (value : V)
  | pair (key : List Seg) (value : V)
  deriving DecidableEq

/-- What a scan raises: a start that cannot be encoded, a row that cannot be decoded, or the codec's
own error in `skip_bound`. -/
inductive ScanError
  | StorageOperationError
  | codecError
  deriving DecidableEq

namespace StorageScanOptions

variable (o : StorageScanOptions c)

/-- A key that the break filter does not match. -/
def breaks (key : List Seg) : Bool := o.breakFilter.any fun f => !f.matches key

/-- A key that the filter does not match. -/
def drops (key : List Seg) : Bool := o.filter.any fun f => !f.matches key

/-- A key below the depth that is walked. -/
def deep (key : List Seg) : Bool := o.maxDepth.any fun d => decide (d.1 < key.length)

/-- The key above a deep one, at the depth that is walked. -/
def ancestor (key : List Seg) : List Seg := (o.maxDepth.map fun d => key.take d.1).getD key

/-- `skip_bound`. -/
def skipBound (key : List Seg) : Option E :=
  if o.reverse then c.encodeKey (o.ancestor key) else c.upperBoundOfPrefix (o.ancestor key)

/-- The bound that a scan starts from: `start_encoded` wins. -/
def startBound : Except ScanError (Option E) :=
  match o.startEncoded, o.start with
  | some e, _ => .ok (some e)
  | none, none => .ok none
  | none, some k =>
    match c.encodeKey k with
    | none => .error .StorageOperationError
    | some e => .ok (some e)

/-- How many items the limit leaves. -/
def left : Option Nat := o.limit.map Int.toNat

/-- How many it leaves after some. -/
def leftAfter (count : Nat) : Option Nat := o.limit.map fun l : Int => (l - count).toNat

/-- `limit is not None and count >= limit`. -/
def reached (count : Nat) : Bool := o.limit.any fun l : Int => decide (l ≤ count)

theorem leftAfter_zero : o.leftAfter 0 = o.left := by
  rw [leftAfter, left]
  cases o.limit with
  | none => rfl
  | some limit => exact congrArg some (congrArg Int.toNat (by omega))

theorem leftAfter_succ (count : Nat) :
    (o.leftAfter count).map (· - 1) = o.leftAfter (count + 1) := by
  rw [leftAfter, leftAfter]
  cases o.limit with
  | none => rfl
  | some limit =>
    refine congrArg some ?_
    show (limit - (count : Int)).toNat - 1 = (limit - ((count + 1 : Nat) : Int)).toNat
    omega

theorem reached_iff (count : Nat) : o.reached count = true ↔ o.leftAfter count = some 0 := by
  rw [reached, leftAfter]
  cases o.limit with
  | none => exact iff_of_false Bool.false_ne_true (fun h => by cases h)
  | some limit =>
    rw [Option.any_some, decide_eq_true_iff, Option.map_some, Option.some.injEq]
    omega

end StorageScanOptions

/-- How many rows a page holds at first, at most, and after a seek past the page before. -/
structure PageSizes where
  first : Nat
  most : Nat
  seek : Nat
  first_pos : 0 < first
  most_pos : 0 < most
  seek_pos : 0 < seek

/-- The item of a row. -/
def itemOf (c : OrderedCodec Seg E W V) (t : IteratorType) (key : List Seg) (encoded : W) :
    Except ScanError (Item Seg V) :=
  match t with
  | .keys => .ok (.key key)
  | .values =>
    match c.decodeValue encoded with
    | none => .error .StorageOperationError
    | some value => .ok (.value value)
  | .items =>
    match c.decodeValue encoded with
    | none => .error .StorageOperationError
    | some value => .ok (.pair key value)

/-! ## What a scan yields -/

/-- The walk over keys. `passed` is the ancestor of the last deep key that was met. -/
def walkKeys (o : StorageScanOptions c) (t : IteratorType) :
    Option (List Seg) → Option Nat → List (c.Key × W) → Items (Item Seg V) ScanError
  | _, _, [] => ([], none)
  | passed, left, row :: rows =>
    let key := row.1.key
    if o.deep key ∧ passed = some (o.ancestor key) then walkKeys o t passed left rows
    else if left = some 0 then ([], none)
    else if o.breaks key then ([], none)
    else if o.deep key then walkKeys o t (some (o.ancestor key)) left rows
    else if o.drops key then walkKeys o t passed left rows
    else match itemOf c t key row.2 with
      | .error e => ([], some e)
      | .ok item => (walkKeys o t passed (left.map (· - 1)) rows).after [item]

/-- Whether a scan that starts at the options' start reaches a key. -/
def StorageScanOptions.reaches (o : StorageScanOptions c) (k : c.Key) : Bool :=
  match o.startEncoded, o.start with
  | some e, _ => !decide (Before o.reverse k.encoded e)
  | none, some s => !decide (Before o.reverse k.key s)
  | none, none => true

/-- The items of a scan. -/
def items (o : StorageScanOptions c) (t : IteratorType) (data : Data c) :
    Items (Item Seg V) ScanError :=
  match o.startBound with
  | .error e => ([], some e)
  | .ok _ => walkKeys o t none o.left ((facing o.reverse data.rows).filter fun a => o.reaches a.1)

/-! ## Encoded rows -/

/-- What a scan does at a key. -/
def verdict (o : StorageScanOptions c) (t : IteratorType) (key : List Seg) (encoded : W) :
    Verdict E (Item Seg V) ScanError :=
  if o.breaks key then .stop
  else if o.deep key then
    match o.skipBound key with
    | none => .fail .codecError
    | some bound => .seek bound
  else if o.drops key then .pass
  else match itemOf c t key encoded with
    | .error e => .fail e
    | .ok item => .give item

/-- What a scan does at a row whose key it has to decode. -/
def rowVerdict (o : StorageScanOptions c) (t : IteratorType) (row : E × W) :
    Verdict E (Item Seg V) ScanError :=
  match c.decodeKey row.1 with
  | none => .fail .StorageOperationError
  | some key => verdict o t key row.2

theorem rowVerdict_encoded (o : StorageScanOptions c) (t : IteratorType) (row : c.Key × W) :
    rowVerdict o t (row.1.encoded, row.2) = verdict o t row.1.key row.2 := by
  rw [rowVerdict, c.decode_encode row.1.encode_eq]

/-! ## Ancestors -/

theorem OrderedCodec.Key.encoded_lt {a b : c.Key} : a.key < b.key ↔ a.encoded < b.encoded :=
  c.encode_lt a.encode_eq b.encode_eq

theorem OrderedCodec.Key.before_encoded {rev : Bool} {a b : c.Key} :
    Before rev a.key b.key ↔ Before rev a.encoded b.encoded := by
  cases rev
  · exact encoded_lt
  · exact encoded_lt

variable {o : StorageScanOptions c}

theorem OrderedCodec.Key.encoded_inj {a b : c.Key} (h : a.encoded = b.encoded) : a.key = b.key := by
  have hback := c.decode_encode b.encode_eq
  rw [← h, c.decode_encode a.encode_eq] at hback
  exact Option.some.inj hback

/-- **The ancestor of a deep key** (PROVED): the deep keys that share it are those between its encoding
and the bound of its prefix. -/
theorem ancestor_spec {k : c.Key} (h : o.deep k.key = true) : ∃ (a : c.Key) (up : E),
    o.ancestor k.key = a.key ∧ c.upperBoundOfPrefix a.key = some up ∧ ∀ row : c.Key,
      a.encoded < row.encoded ∧ row.encoded < up ↔
        o.deep row.key = true ∧ o.ancestor row.key = a.key := by
  rw [StorageScanOptions.deep] at h
  cases hd : o.maxDepth with
  | none =>
    rw [hd] at h
    cases h
  | some d =>
    rw [hd, Option.any_some, decide_eq_true_iff] at h
    obtain ⟨e, he⟩ := Option.isSome_iff_exists.1 (c.encode_take k.encode_eq (n := d.1) d.2)
    obtain ⟨a, ha⟩ : ∃ a : c.Key, a.key = k.key.take d.1 := ⟨⟨_, e, he⟩, rfl⟩
    obtain ⟨up, hup, hrange⟩ := c.upper a.encode_eq
    have hanc : o.ancestor k.key = a.key := by
      rw [StorageScanOptions.ancestor, hd, ha]
      rfl
    have hlen : a.key.length = d.1 := by
      rw [ha, List.length_take]
      omega
    refine ⟨a, up, hanc, hup, ?_⟩
    intro row
    rw [StorageScanOptions.deep, StorageScanOptions.ancestor, hd, Option.any_some,
      decide_eq_true_iff, Option.map_some, Option.getD_some]
    constructor
    · intro hbetween
      have htake := List.prefix_iff_eq_take.1 ((hrange row.encode_eq).1 ⟨hbetween.1.le, hbetween.2⟩)
      rw [hlen] at htake
      refine ⟨?_, htake.symm⟩
      -- a key of the ancestor's length would be the ancestor, whose encoding is left out
      by_contra hshort
      rw [List.take_of_length_le (Nat.le_of_not_lt hshort)] at htake
      exact lt_irrefl a.key ((OrderedCodec.Key.encoded_lt.2 hbetween.1).trans_eq htake.symm)
    · intro hshare
      have hpre : a.key <+: row.key := by
        rw [← hshare.2]
        exact List.take_prefix _ _
      obtain ⟨hle, hlt⟩ := (hrange row.encode_eq).2 hpre
      refine ⟨lt_of_le_of_ne hle ?_, hlt⟩
      intro heq
      have hlength := congrArg List.length (OrderedCodec.Key.encoded_inj heq)
      rw [hlen] at hlength
      omega

/-- The seek out of the subtree of a deep key goes ahead, -/
theorem skipBound_ahead {k : c.Key} (hk : o.deep k.key = true) :
    ∃ b, o.skipBound k.key = some b ∧ Before o.reverse k.encoded b := by
  obtain ⟨a, up, hanc, hup, hshare⟩ := ancestor_spec hk
  obtain ⟨hlow, hhigh⟩ := (hshare k).2 ⟨hk, hanc⟩
  rw [StorageScanOptions.skipBound, hanc]
  cases hrev : o.reverse with
  | false => exact ⟨up, hup, hhigh⟩
  | true => exact ⟨a.encoded, a.encode_eq, hlow⟩

/-- and over the deep keys that share its ancestor, no others. -/
theorem behind_skipBound {k row : c.Key} (hk : o.deep k.key = true)
    (hrow : Before o.reverse k.key row.key) : behind o.reverse (o.skipBound k.key) row.encoded = true ↔
      o.deep row.key = true ∧ o.ancestor k.key = o.ancestor row.key := by
  obtain ⟨a, up, hanc, hup, hshare⟩ := ancestor_spec hk
  obtain ⟨hlow, hhigh⟩ := (hshare k).2 ⟨hk, hanc⟩
  rw [hanc, eq_comm (a := a.key), ← hshare row, StorageScanOptions.skipBound, hanc]
  rw [OrderedCodec.Key.before_encoded] at hrow
  cases hrev : o.reverse with
  | false =>
    rw [hrev] at hrow
    rw [if_neg Bool.false_ne_true, hup, behind_some]
    exact (and_iff_right (hlow.trans hrow)).symm
  | true =>
    rw [hrev] at hrow
    rw [if_pos rfl, a.encode_eq, behind_some]
    exact (and_iff_left (lt_trans hrow hhigh)).symm

/-! ## The walk over encoded rows -/

/-- The ancestor that is passed over, and the bound that was sought for it. -/
def Passing (o : StorageScanOptions c) (passed : Option (List Seg)) (sought : Option E)
    (rows : List (c.Key × W)) : Prop :=
  passed = none ∧ sought = none ∨ ∃ k : c.Key, o.deep k.key = true ∧
    passed = some (o.ancestor k.key) ∧ o.skipBound k.key = sought ∧
    ∀ row ∈ rows, Before o.reverse k.key row.1.key

theorem Passing.tail {passed : Option (List Seg)} {sought : Option E} {row : c.Key × W}
    {rows : List (c.Key × W)} (h : Passing o passed sought (row :: rows)) :
    Passing o passed sought rows := by
  refine h.imp_right ?_
  intro h
  obtain ⟨k, hk, hpassed, hsought, hrows⟩ := h
  exact ⟨k, hk, hpassed, hsought, fun r hr => hrows r (List.mem_cons_of_mem row hr)⟩

theorem Passing.head {passed : Option (List Seg)} {sought : Option E} {row : c.Key × W}
    {rows : List (c.Key × W)} (h : Passing o passed sought (row :: rows)) :
    (o.deep row.1.key = true ∧ passed = some (o.ancestor row.1.key)) ↔
      behind o.reverse sought row.1.encoded = true := by
  obtain ⟨hpassed, hsought⟩ | ⟨k, hk, hpassed, hsought, hrows⟩ := h
  · rw [hpassed, hsought, behind_none o.reverse]
    exact iff_of_false (fun h => by cases h.2) Bool.false_ne_true
  · rw [hpassed, ← hsought, behind_skipBound hk (hrows row List.mem_cons_self), Option.some.injEq]

/-- The walk over keys is the walk over their encodings. -/
theorem walkKeys_eq (t : IteratorType) {rows : List (c.Key × W)}
    (h : rows.Pairwise fun a b => Before o.reverse a.1.key b.1.key) {passed : Option (List Seg)}
    {sought : Option E} (hp : Passing o passed sought rows) (left : Option Nat) :
    walkKeys o t passed left rows =
      walk o.reverse (rowVerdict o t) sought left (stored rows) := by
  induction rows generalizing passed sought left with
  | nil => rfl
  | cons row rows ih =>
    obtain ⟨hafter, hrest⟩ := List.pairwise_cons.1 h
    have hcons : stored (row :: rows) = (row.1.encoded, row.2) :: stored rows := rfl
    rw [walkKeys, hcons]
    by_cases hb : behind o.reverse sought row.1.encoded = true
    · rw [if_pos (hp.head.2 hb), walk_behind hb]
      exact ih hrest hp.tail left
    rw [if_neg (fun hd => hb (hp.head.1 hd))]
    by_cases hleft : left = some 0
    · rw [if_pos hleft, hleft, walk_done]
    rw [if_neg hleft, walk_next (Bool.eq_false_iff.2 hb) hleft, rowVerdict_encoded, verdict]
    by_cases hbreaks : o.breaks row.1.key = true
    · rw [if_pos hbreaks, if_pos hbreaks]
    rw [if_neg hbreaks, if_neg hbreaks]
    by_cases hdeep : o.deep row.1.key = true
    · rw [if_pos hdeep, if_pos hdeep]
      obtain ⟨b, hb', -⟩ := skipBound_ahead hdeep
      rw [hb']
      exact ih hrest (Or.inr ⟨row.1, hdeep, rfl, hb', hafter⟩) left
    rw [if_neg hdeep, if_neg hdeep]
    by_cases hdrops : o.drops row.1.key = true
    · rw [if_pos hdrops, if_pos hdrops]
      exact ih hrest hp.tail left
    rw [if_neg hdrops, if_neg hdrops]
    cases itemOf c t row.1.key row.2 with
    | error e => rfl
    | ok item => exact congrArg (Items.after [item]) (ih hrest hp.tail _)

/-! ## The range -/

theorem reaches_eq {bound : Option E} (h : o.startBound = .ok bound) (k : c.Key) :
    o.reaches k = decide (FromBound o.reverse bound true k.encoded) := by
  rw [StorageScanOptions.startBound] at h
  rw [StorageScanOptions.reaches]
  cases he : o.startEncoded with
  | some e =>
    rw [he] at h
    cases h
    exact (decide_not).symm
  | none =>
    rw [he] at h
    cases hs : o.start with
    | none =>
      rw [hs] at h
      cases h
      rfl
    | some s =>
      rw [hs] at h
      dsimp only at h
      cases hc : c.encodeKey s with
      | none =>
        rw [hc] at h
        cases h
      | some e =>
        rw [hc] at h
        cases h
        show (!decide (Before o.reverse k.key s)) = decide ¬ Before o.reverse k.encoded e
        rw [decide_not, decide_eq_decide.2 (OrderedCodec.Key.before_encoded (b := ⟨s, e, hc⟩))]

theorem facing_pairwise (data : Data c) :
    (facing o.reverse data.rows).Pairwise fun a b => Before o.reverse a.1.key b.1.key := by
  rw [facing]
  cases o.reverse with
  | false => exact data.sorted
  | true => exact List.pairwise_reverse.2 data.sorted

theorem stored_facing (reverse : Bool) (rows : List (c.Key × W)) :
    stored (facing reverse rows) = facing reverse (stored rows) := by
  cases reverse with
  | false => rfl
  | true => exact List.map_reverse

theorem stored_ascending {rows : List (c.Key × W)}
    (h : rows.Pairwise fun a b => Before o.reverse a.1.key b.1.key) :
    Ascending o.reverse (stored rows) := by
  rw [Ascending, stored, List.pairwise_map]
  exact h.imp fun h => OrderedCodec.Key.before_encoded.1 h

/-- The encoded rows from a bound on, in scan order. -/
def range (o : StorageScanOptions c) (bound : Option E) (rows : List (E × W)) : List (E × W) :=
  (facing o.reverse rows).filter fun r => decide (FromBound o.reverse bound true r.1)

theorem facing_ascending (data : Data c) :
    Ascending o.reverse (facing o.reverse (stored data.rows)) := by
  rw [← stored_facing]
  exact stored_ascending (facing_pairwise data)

theorem range_ascending (o : StorageScanOptions c) (bound : Option E) (data : Data c) :
    Ascending o.reverse (range o bound (stored data.rows)) := (facing_ascending data).filter _

theorem Data.pairwise_encoded (data : Data c) :
    ((stored data.rows).map Prod.fst).Pairwise (· < ·) := by
  rw [stored, List.map_map, List.pairwise_map]
  exact data.sorted.imp fun h => OrderedCodec.Key.encoded_lt.1 h

theorem Data.mem_stored (data : Data c) {e : E} {w : W} :
    (e, w) ∈ stored data.rows ↔ data.lookup e = some w :=
  PyDict.mem_iff_lookupItem _ (data.pairwise_encoded.imp fun h => h.ne) e w

theorem Data.mem_encoded (data : Data c) (e : E) (h : (data.lookup e).isSome) :
    e ∈ (stored data.rows).map Prod.fst := by
  obtain ⟨w, hw⟩ := Option.isSome_iff_exists.1 h
  exact List.mem_map_of_mem (data.mem_stored.2 hw)

theorem mem_facing {A : Type} {reverse : Bool} {rows : List A} {a : A} :
    a ∈ facing reverse rows ↔ a ∈ rows := by
  cases reverse with
  | false => exact Iff.rfl
  | true => exact List.mem_reverse

theorem length_facing {A : Type} (reverse : Bool) (rows : List A) :
    (facing reverse rows).length = rows.length := by
  cases reverse with
  | false => rfl
  | true => exact List.length_reverse

/-- **What a scan yields is the walk over the encoded rows from its start** (PROVED). -/
theorem items_eq_walk {o : StorageScanOptions c} {bound : Option E} (h : o.startBound = .ok bound)
    (t : IteratorType) (data : Data c) : items o t data =
      walk o.reverse (rowVerdict o t) none o.left (range o bound (stored data.rows)) := by
  have hrange : range o bound (stored data.rows) =
      stored ((facing o.reverse data.rows).filter fun a => o.reaches a.1) := by
    rw [range, ← stored_facing, stored, stored, List.filter_map]
    congr 1
    refine List.filter_congr ?_
    intro a _
    exact (reaches_eq h a.1).symm
  rw [items, h, hrange]
  exact walkKeys_eq t ((facing_pairwise data).filter _) (Or.inl ⟨rfl, rfl⟩) o.left

/-- A start that cannot be encoded. -/
theorem items_of_error {o : StorageScanOptions c} {e : ScanError} (h : o.startBound = .error e)
    (t : IteratorType) (data : Data c) : items o t data = ([], some e) := by
  rw [items, h]

/-! ## Rows of the range -/

/-- A row that is read is one of the storage. -/
theorem mem_range {data : Data c} {bound : Option E} {row : E × W}
    (h : row ∈ range o bound (stored data.rows)) :
    ∃ a : c.Key × W, a ∈ data.rows ∧ row = (a.1.encoded, a.2) := by
  have hmem : row ∈ stored data.rows := mem_facing.1 (List.mem_of_mem_filter h)
  obtain ⟨a, ha, rfl⟩ := List.mem_map.1 hmem
  exact ⟨a, ha, rfl⟩

/-- A seek goes ahead. -/
theorem verdict_seek {t : IteratorType} {k : c.Key} {w : W} {b : E}
    (h : verdict o t k.key w = .seek b) : Before o.reverse k.encoded b := by
  rw [verdict] at h
  split at h
  · cases h
  split at h
  · rename_i hdeep
    obtain ⟨b', hb, hahead⟩ := skipBound_ahead hdeep
    rw [hb] at h
    cases h
    exact hahead
  split at h
  · cases h
  · split at h <;> cases h

theorem verdict_give {t : IteratorType} {key : List Seg} {w : W} {item : Item Seg V}
    (h : verdict o t key w = .give item) : itemOf c t key w = .ok item := by
  rw [verdict] at h
  split at h
  · cases h
  split at h
  · split at h <;> cases h
  split at h
  · cases h
  split at h
  · cases h
  · cases h
    assumption

/-- A scan fails at a row that cannot be decoded, never in a seek. -/
theorem verdict_fail {t : IteratorType} {k : c.Key} {w : W} {e : ScanError}
    (h : verdict o t k.key w = .fail e) : itemOf c t k.key w = .error e := by
  rw [verdict] at h
  split at h
  · cases h
  split at h
  · rename_i hdeep
    obtain ⟨b, hb, -⟩ := skipBound_ahead hdeep
    rw [hb] at h
    cases h
  split at h
  · cases h
  split at h
  · cases h
    assumption
  · cases h

/-! ## The stop of a prefix -/

namespace StorageScanOptions

/-- The end of the range of a break filter that is a prefix; none where it cannot be encoded. -/
def prefixStop (o : StorageScanOptions c) : Option E :=
  match o.breakFilter with
  | some (.prefixed (a :: segments)) =>
    if o.reverse then c.encodeKey (a :: segments) else c.upperBoundOfPrefix (a :: segments)
  | _ => none

end StorageScanOptions

/-- A key outside the range of a prefix does not have it. -/
theorem not_matches_of_beyond {segments : List Seg} {rev : Bool} {stop : E} {k : c.Key}
    (hstop : (if rev = true then c.encodeKey segments else c.upperBoundOfPrefix segments) = some stop)
    (hbeyond : ¬ WithinStop rev (some stop) k.encoded) :
    (Filter.prefixed segments).matches k.key = false := by
  obtain ⟨e, he⟩ : ∃ e, c.encodeKey segments = some e := by
    refine Option.isSome_iff_exists.1 ?_
    cases rev with
    | true =>
      rw [if_pos rfl] at hstop
      rw [hstop]
      rfl
    | false =>
      rw [if_neg Bool.false_ne_true] at hstop
      exact c.upper_isSome (by rw [hstop]; rfl)
  obtain ⟨up, hup, hrange⟩ := c.upper he
  rw [Filter.matches, beq_eq_false_iff_ne]
  intro hmatch
  obtain ⟨hlow, hhigh⟩ := (hrange k.encode_eq).2 (List.prefix_iff_eq_take.2 hmatch.symm)
  cases rev with
  | true =>
    rw [if_pos rfl, he, Option.some.injEq] at hstop
    exact hbeyond (hstop ▸ hlow)
  | false =>
    rw [if_neg Bool.false_ne_true, hup, Option.some.injEq] at hstop
    exact hbeyond (hstop ▸ hhigh)

/-- **The pushed-down stop** (PROVED): the scan ends at every row beyond it anyway. -/
theorem stop_of_beyond {t : IteratorType} {data : Data c} {bound : Option E} {row : E × W}
    (h : row ∈ range o bound (stored data.rows))
    (hbeyond : ¬ WithinStop o.reverse o.prefixStop row.1) : rowVerdict o t row = .stop := by
  obtain ⟨a, -, rfl⟩ := mem_range h
  have hbreaks : o.breaks a.1.key = true := by
    rw [StorageScanOptions.prefixStop] at hbeyond
    split at hbeyond
    · rename_i s segments hbreak
      rw [StorageScanOptions.breaks, hbreak, Option.any_some]
      cases hstop : (if o.reverse = true then c.encodeKey (s :: segments)
          else c.upperBoundOfPrefix (s :: segments)) with
      | none =>
        rw [hstop] at hbeyond
        exact absurd trivial hbeyond
      | some stop =>
        rw [hstop] at hbeyond
        rw [not_matches_of_beyond hstop hbeyond]
        rfl
    · exact absurd trivial hbeyond
  rw [rowVerdict_encoded, verdict, if_pos hbreaks]

end Virtuals.Scan
