/-
  Routing from a filter to a message.

  An index is what a run of `nu1_reg` and `nu1_route` calls leaves. A filter that matches a key has
  its hash among the candidates of the key if the simplified filter is clean, a hash is a candidate
  for the keys its hints cover and for no others, and each candidate of a batch is published one
  message with its keys (`route_sound`). `lostFilter` is an Or of two different members written
  alike: its hash is no candidate for a key it matches. In `keptFilter` such leaves stand below one Or
  as well, but not as members of one, and no key is lost.
-/
import Virtuals.Routing.Candidates
import Virtuals.Routing.Messages
import Virtuals.Routing.UnicodeText

namespace Virtuals.Routing

open Lib

variable (P : Bytes) (cm : Cmsgpack) (packb : Key → Option Bytes)

/-- A call of a library function: `hints` are those of the filter of `h`, `receivers` what PUBLISH
    returns for a channel. -/
inductive Call where
  | reg (h : Bytes) (hints : List RoutingHint)
  | route (hdr : Bytes) (batch : List Key) (receivers : Bytes → Nat)

namespace Index

/-- The index after a call. -/
def call (ix : Index) : Call → Index
  | .reg h hints => (reg P cm h (flat (hintEntries hints)) ix).1
  | .route hdr batch receivers => (route P cm ix hdr (routeArgs packb batch) receivers).1

/-- The index after calls in any order, from an empty server. -/
def run (calls : List Call) : Index := calls.foldl (call P cm packb) empty

/-- `h` is registered with the entries of `hints`. -/
def Registered (ix : Index) (h : Bytes) (hints : List RoutingHint) : Prop :=
  ix.refs h = some (cm.pack (flat (hintEntries hints)))

variable {P cm packb} {ix : Index}

theorem Registered.entriesOf {h : Bytes} {hints : List RoutingHint}
    (hr : ix.Registered cm h hints) : ix.entriesOf cm h = hintEntries hints := by
  unfold Index.entriesOf
  rw [hr, recorded, cm.unpack_pack, triples_flat]

theorem consistent_route (hix : Consistent P cm ix) (hdr : Bytes) (args : List Bytes)
    (receivers : Bytes → Nat) : Consistent P cm (route P cm ix hdr args receivers).1 := by
  have hall : ∀ (hs : List Bytes) (a : Index × Nat), Consistent P cm a.1 →
      Consistent P cm (hs.foldl (publishOne P cm receivers) a).1 := by
    intro hs
    induction hs with
    | nil => exact fun a ha => ha
    | cons h hs ih =>
      intro a ha
      refine ih _ ?_
      unfold publishOne
      split_ifs
      · exact consistent_unreg ha h
      · exact ha
  exact hall _ _ hix

theorem consistent_call (hix : Consistent P cm ix) (c : Call) :
    Consistent P cm (ix.call P cm packb c) := by
  cases c with
  | reg h hints => exact consistent_reg hix h hints
  | route hdr batch receivers => exact consistent_route hix hdr _ receivers

/-- A hash that is not registered is registered by `nu1_reg`. -/
theorem registered_reg (packb : Key → Option Bytes) {h : Bytes} (habsent : ix.refs h = none)
    (hints : List RoutingHint) : (ix.call P cm packb (.reg h hints)).Registered cm h hints := by
  unfold call Registered
  dsimp only
  rw [reg_of_absent habsent]
  exact Function.update_self _ _ _

/-- (PROVED) Every run of calls leaves a consistent index. -/
theorem consistent_run (calls : List Call) : Consistent P cm (run P cm packb calls) := by
  have hall : ∀ (calls : List Call) (ix : Index), Consistent P cm ix →
      Consistent P cm (calls.foldl (call P cm packb) ix) := by
    intro calls
    induction calls with
    | nil => exact fun _ h => h
    | cons c calls ih => exact fun ix h => ih _ (consistent_call h c)
  exact hall calls _ consistent_empty

end Index

/-- The keys of a batch that `h` is a candidate for, packed. -/
def deliveries (ix : Index) (h : Bytes) (batch : List Key) : List Bytes :=
  (batch.filter fun key => decide (h ∈ candidates P ix (key.map encSeg))).filterMap packb

theorem keysFor_routed (ix : Index) (h : Bytes) (batch : List Key) :
    keysFor P ix h (routed packb batch) = deliveries P packb ix h batch := by
  unfold keysFor routed deliveries
  induction batch with
  | nil => rfl
  | cons key batch ih =>
    rw [List.filterMap_cons, List.filter_cons]
    rcases hp : packb key with _ | packed
    · simp only [Option.map_none]
      rw [ih]
      split_ifs
      · rw [List.filterMap_cons, hp]
      · rfl
    · simp only [Option.map_some, List.filter_cons]
      split_ifs
      · rw [List.map_cons, ih, List.filterMap_cons, hp]
      · exact ih

/-- (PROVED) In the index that any run of calls leaves: the hash of a filter whose simplified form is
    clean, as that of every filter of Unicode text is, is a candidate for every key the filter matches;
    a hash with encodable hints is a candidate for the keys they cover and for no others; and a batch
    publishes to each hash one message with the keys it is a candidate for, whose array header is
    their number, and none to the others. -/
theorem route_sound (calls : List Call) :
    (∀ (f : Filter), f.simplify.Clean → ∀ h key,
      (Index.run P cm packb calls).Registered cm h f.canonicalize.routingHints →
      f.matchesKey key = true →
      h ∈ candidates P (Index.run P cm packb calls) (key.map encSeg)) ∧
    (∀ f : Filter, (∀ a ∈ f.leaves, a.UnicodeLeaf) → f.simplify.Clean) ∧
    (∀ h hints key, (Index.run P cm packb calls).Registered cm h hints →
      (∀ g ∈ hints, entry g ≠ none) →
      (h ∈ candidates P (Index.run P cm packb calls) (key.map encSeg) ↔
        ∃ g ∈ hints, g.covers key = true)) ∧
    (∀ hdr batch receivers h, batch.length < 2 ^ 32 →
      let messages := (route P cm (Index.run P cm packb calls) hdr (routeArgs packb batch)
        receivers).2.1
      let keys := deliveries P packb (Index.run P cm packb calls) h batch
      (messages.filter fun m => decide (m.1 = channel P h)) =
        (if keys = [] then []
          else [(channel P h, hdr ++ arrHdr keys.length ++ keys.flatten)]) ∧
      ∀ rest, readArrHdr (arrHdr keys.length ++ rest) = some (keys.length, rest)) := by
  have hix : Consistent P cm (Index.run P cm packb calls) := Index.consistent_run calls
  generalize Index.run P cm packb calls = ix at hix
  refine ⟨fun f hf h key hreg hm => ?_, fun f => Filter.clean_of_unicode,
    fun h hints key hreg henc => ?_,
    fun hdr batch receivers h hlen => ⟨?_, fun rest => readArrHdr_arrHdr ?_ rest⟩⟩
  · refine mem_candidates_of_covered hix hreg.entriesOf (Filter.covered_routingHints _ key ?_)
    rwa [Filter.canonicalize_eq_rewrite, Filter.matches_rewrite (Filter.told_iff_clean.2 hf)]
  · exact mem_candidates_of_encodable hix hreg.entriesOf henc
  · unfold route
    dsimp only
    rw [parseBatch_routeArgs packb batch le_rfl, messages_of_channel, keysFor_routed]
  · refine lt_of_le_of_lt ?_ hlen
    unfold deliveries
    exact (List.length_filterMap_le _ _).trans (List.length_filter_le _ _)

/-! ## A filter that loses a member -/

/-- The head of a msgpack string or array of fewer than `limit` items; a longer one is written in a
    way of its own. -/
def countHdr (base limit n : Nat) : Bytes :=
  if n < limit then [(base + n).toUInt8] else 0xC1 :: (decimal n ++ [58])

theorem prefixFree_countHdr {base limit : Nat} (h : base + limit ≤ 0xC1) :
    PrefixFree (countHdr base limit) := by
  have hsmall : ∀ {n : Nat}, n < limit → (base + n).toUInt8.toNat = base + n := fun hn =>
    toNat_toUInt8 (by omega)
  have hlong : ∀ {n : Nat}, n < limit → (base + n).toUInt8 ≠ 0xC1 := fun {n} hn he => by
    have := hsmall hn
    rw [he] at this
    have : (0xC1 : UInt8).toNat = 193 := rfl
    omega
  intro m n x y _ _ he
  unfold countHdr at he
  split_ifs at he with hm hn hn
  · obtain ⟨hmn, hxy⟩ := List.cons.inj he
    have := congrArg UInt8.toNat hmn
    rw [hsmall hm, hsmall hn] at this
    exact ⟨by omega, hxy⟩
  · exact absurd (List.cons.inj he).1 (hlong hm)
  · exact absurd (List.cons.inj he).1.symm (hlong hn)
  · have hmark : PrefixFree fun n : Nat => decimal n ++ [58] :=
      delimits_decimal.prefixFree_append fun x => ends_cons (by decide)
    exact hmark (a := m) (b := n) trivial trivial (List.cons.inj he).2

/-- `cmsgpack.pack` of an array of strings. -/
def packStrings (l : List Bytes) : Bytes :=
  countHdr 0x90 16 l.length ++ l.flatMap fun b => countHdr 0xA0 32 b.length ++ b

theorem packStrings_injective : Function.Injective packStrings := by
  intro l m h
  obtain ⟨hlen, h⟩ := @prefixFree_countHdr 0x90 16 (by decide) _ _ _ _ trivial trivial h
  have hstring : PrefixFree fun b : Bytes => countHdr 0xA0 32 b.length ++ b := by
    intro a b x y _ _ he
    simp only [List.append_assoc] at he
    obtain ⟨hlen, he⟩ :=
      @prefixFree_countHdr 0xA0 32 (by decide) _ _ _ _ trivial trivial he
    exact List.append_inj he hlen
  exact (hstring.flatMap_append_inj (x := []) (y := []) hlen (by simpa using h)).1

/-- `cmsgpack`. -/
noncomputable def stringsPack : Cmsgpack where
  pack := packStrings
  unpack := Function.invFun packStrings
  unpack_pack := Function.leftInverse_invFun packStrings_injective

/-- `msgpack.packb` of a key of short strings. -/
def packKey (key : Key) : Option Bytes :=
  (key.mapM fun (s : KeySegment) => match s with
    | .str v => some (countHdr 0xA0 32 (utf8 v).length ++ utf8 v)
    | _ => none).map fun (l : List Bytes) => countHdr 0x90 16 l.length ++ l.flatten

/-- Keys of one segment, the pair spelled, or any key that starts with the code point. -/
def keptFilter : Filter :=
  .or [.and [.prefixFilter [some (.str [0xD83D, 0xDE00])], .lengthFilter 1],
    .prefixFilter [some (.str [0x1F600])]]

theorem clashFree_pair {a b : Filter} (h : a.sortKey ≠ b.sortKey) : Filter.ClashFree [a, b] := by
  intro c hc d hd hkey
  simp only [List.mem_cons, List.not_mem_nil, or_false] at hc hd
  obtain rfl | rfl := hc <;> obtain rfl | rfl := hd
  · rfl
  · exact absurd hkey h
  · exact absurd hkey.symm h
  · rfl

theorem told_keptFilter : keptFilter.Told := by
  have hinner : Filter.flat Filter.byText .conj
      [.prefixFilter [some (.str [0xD83D, 0xDE00])], .lengthFilter 1] =
      [.prefixFilter [some (.str [0xD83D, 0xDE00])], .lengthFilter 1] := rfl
  have hand : (Filter.and [.prefixFilter [some (.str [0xD83D, 0xDE00])], .lengthFilter 1]).Told :=
    Or.inr ⟨⟨trivial, trivial, trivial⟩, hinner ▸ clashFree_pair (by decide)⟩
  exact Or.inr ⟨⟨hand, trivial, trivial⟩, clashFree_pair (by decide)⟩

def keptCalls : List Call := [.reg (ascii "h") keptFilter.canonicalize.routingHints]

theorem route_sound_keptFilter :
    ascii "h" ∈ candidates (ascii "nu") (Index.run (ascii "nu") stringsPack packKey keptCalls)
      ([KeySegment.str [0x1F600], .str (pyStr "1")].map encSeg) :=
  (route_sound (ascii "nu") stringsPack packKey keptCalls).1 keptFilter
    (Filter.told_iff_clean.1 told_keptFilter) (ascii "h") _ (Index.registered_reg packKey rfl _)
    (by decide)

/-- Two prefixes, a surrogate pair spelled as two code points and the code point it stands for. -/
def lostFilter : Filter :=
  .or [.prefixFilter [some (.str [0xD83D, 0xDE00])], .prefixFilter [some (.str [0x1F600])]]

/-- A key the second prefix matches. -/
def lostKey : Key := [.str [0x1F600]]

theorem canonicalize_lostFilter :
    lostFilter.canonicalize = .prefixFilter [some (.str [0xD83D, 0xDE00])] := by
  have hkey : Filter.sortKey (.prefixFilter [some (.str [0xD83D, 0xDE00])]) =
      Filter.sortKey (.prefixFilter [some (.str [0x1F600])]) := by decide
  simp [lostFilter, Filter.canonicalize, Filter.canonicalizeAll, Filter.membersOr,
    Filter.isPassAll, Filter.isPassNone, Filter.dedup, hkey, Filter.sorted, Filter.collapse]

def lostCalls : List Call := [.reg (ascii "h") lostFilter.canonicalize.routingHints]

theorem not_route_sound_lostFilter :
    (Index.run (ascii "nu") stringsPack packKey lostCalls).Registered stringsPack (ascii "h")
      lostFilter.canonicalize.routingHints ∧
    lostFilter.matchesKey lostKey = true ∧
    ascii "h" ∉ candidates (ascii "nu") (Index.run (ascii "nu") stringsPack packKey lostCalls)
      (lostKey.map encSeg) := by
  have hreg : (Index.run (ascii "nu") stringsPack packKey lostCalls).Registered stringsPack
      (ascii "h") lostFilter.canonicalize.routingHints := Index.registered_reg packKey rfl _
  refine ⟨hreg, by decide, ?_⟩
  rw [mem_candidates_of_encodable (Index.consistent_run lostCalls) hreg.entriesOf]
  · rw [canonicalize_lostFilter]
    simp only [Filter.routingHints]
    decide
  · rw [canonicalize_lostFilter]
    simp only [Filter.routingHints]
    decide

end Virtuals.Routing
