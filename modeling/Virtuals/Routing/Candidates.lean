/-
  Which hashes are candidates for a key.

  Each SET that `route` looks up for a key is that of a hint covering it (`exists_hint_of_lookup`),
  and the SET of every registered entry that stands for a covering hint is looked up, since its
  depth or signature is in the counters (`lookup_of_covers`).
-/
import Virtuals.Routing.Route

namespace Virtuals.Routing

open Lib

variable {P : Bytes} {cm : Cmsgpack} {ix : Index}

/-! ## Hints with one entry -/

theorem same_some {a b : KeySegment} : a.same (some b) = true ↔ a.norm = b.norm := by
  simp [KeySegment.same]

theorem sameTuple_self (k : Key) : sameTuple k (k.map some) = true :=
  (encode_eq_iff k k).1 rfl

theorem norms_of_encSegments {s t : List Segment} {enc : Bytes} (hs : encSegments s = some enc)
    (ht : encSegments t = some enc) :
    (s.map fun b => b.map KeySegment.norm) = t.map fun b => b.map KeySegment.norm := by
  obtain ⟨k, rfl, hk⟩ := encSegments_eq_some.1 hs
  obtain ⟨l, rfl, hl⟩ := encSegments_eq_some.1 ht
  have := (encode_eq_iff k l).1 (hk.symm.trans hl)
  rw [sameTuple_iff] at this
  rw [List.map_map, List.map_map]
  simpa [Function.comp_def] using this

theorem positionsText_injective : Function.Injective positionsText := fun ps qs h => by
  have := congrArg (digitRuns []) h
  rw [digitRuns_positionsText, digitRuns_positionsText] at this
  exact List.map_injective_iff.2 decimal_injective this

theorem wildcard_field_inj {m n : Nat} {ps qs : List Nat}
    (h : decimal m ++ ascii ":" ++ positionsText ps = decimal n ++ ascii ":" ++ positionsText qs) :
    m = n ∧ ps = qs := by
  simp only [List.append_assoc] at h
  obtain ⟨hmn, hps⟩ := delimits_decimal (ends_cons rfl) (ends_cons rfl) h
  exact ⟨hmn, positionsText_injective (List.cons.inj hps).2⟩

theorem map_fst_snd {α β γ : Type} {f : β → γ} {s t : List (α × β)}
    (h1 : s.map Prod.fst = t.map Prod.fst)
    (h2 : (s.map Prod.snd).map f = (t.map Prod.snd).map f) :
    (s.map fun a => (a.1, f a.2)) = t.map fun a => (a.1, f a.2) := by
  induction s generalizing t with
  | nil =>
    cases t with
    | nil => rfl
    | cons => cases h1
  | cons a s ih =>
    cases t with
    | nil => cases h1
    | cons b t =>
      simp only [List.map_cons, List.cons.injEq] at h1 h2 ⊢
      exact ⟨by rw [h1.1, h2.1], ih h1.2 h2.2⟩

/-- (PROVED) Hints with one entry cover the same keys. -/
theorem covers_of_entry {g g' : RoutingHint} {e : HintEntry} (hg : entry g = some e)
    (hg' : entry g' = some e) (key : Key) : g.covers key = g'.covers key := by
  refine RoutingHint.covers_of_same ?_ key
  cases g with
  | prefixHint s =>
    obtain ⟨enc, hs, rfl⟩ := Option.map_eq_some_iff.1 hg
    cases g' with
    | prefixHint t =>
      obtain ⟨enc', ht, he⟩ := Option.map_eq_some_iff.1 hg'
      simp only [Prod.mk.injEq, true_and] at he
      rw [he.2] at ht
      simpa [RoutingHint.same] using norms_of_encSegments hs ht
    | _ => simp [entry, ALL_ENTRY, ascii] at hg'
  | suffixHint s =>
    obtain ⟨enc, hs, rfl⟩ := Option.map_eq_some_iff.1 hg
    cases g' with
    | suffixHint t =>
      obtain ⟨enc', ht, he⟩ := Option.map_eq_some_iff.1 hg'
      simp only [Prod.mk.injEq, true_and] at he
      rw [he.2] at ht
      simpa [RoutingHint.same] using norms_of_encSegments hs ht
    | _ => simp [entry, ALL_ENTRY, ascii] at hg'
  | lengthHint n =>
    obtain rfl := Option.some.inj hg
    cases g' with
    | lengthHint m =>
      have he := Option.some.inj hg'
      simp only [Prod.mk.injEq, true_and, and_true] at he
      simp [RoutingHint.same, intDecimal_injective he]
    | _ => simp [entry, ALL_ENTRY, ascii] at hg'
  | wildcardHint n fixed inside =>
    obtain ⟨enc, hs, rfl⟩ := Option.map_eq_some_iff.1 hg
    cases g' with
    | wildcardHint m fixed' inside' =>
      obtain ⟨enc', ht, he⟩ := Option.map_eq_some_iff.1 hg'
      simp only [Prod.mk.injEq, true_and] at he
      rw [he.2] at ht
      obtain ⟨hmn, hps⟩ := wildcard_field_inj he.1
      have hnorms := norms_of_encSegments hs ht
      simp only [RoutingHint.same, hmn, decide_true, Bool.true_and, decide_eq_true_eq]
      exact map_fst_snd hps.symm hnorms
    | _ => simp [entry, ALL_ENTRY, ascii] at hg'
  | allHint =>
    obtain rfl := Option.some.inj hg
    cases g' with
    | allHint => rfl
    | _ => simp [entry, ALL_ENTRY, ascii] at hg'

/-! ## What is looked up -/

theorem entry_prefixHint (l : Key) : entry (.prefixHint (l.map some)) =
    some (ascii "p", decimal l.length, (l.map encSeg).flatten) := by
  rw [entry, encSegments_eq_some.2 ⟨l, rfl, rfl⟩, List.length_map]
  rfl

theorem entry_suffixHint (l : Key) : entry (.suffixHint (l.map some)) =
    some (ascii "s", decimal l.length, (l.map encSeg).flatten) := by
  rw [entry, encSegments_eq_some.2 ⟨l, rfl, rfl⟩, List.length_map]
  rfl

theorem kind_of_counter {k c : Bytes} (h : COUNTER k = some c) :
    (k = ascii "p" ∧ c = ascii "pc") ∨ (k = ascii "s" ∧ c = ascii "sc") ∨
      (k = ascii "w" ∧ c = ascii "wc") := by
  unfold COUNTER at h
  split_ifs at h with h1 h2 h3
  · exact Or.inl ⟨h1, (Option.some.inj h).symm⟩
  · exact Or.inr (Or.inl ⟨h2, (Option.some.inj h).symm⟩)
  · exact Or.inr (Or.inr ⟨h3, (Option.some.inj h).symm⟩)

/-- The positions of a signature in a key of its length. -/
theorem filterMap_positions (k : Key) (ps : List Nat) :
    ((ps.map (· + 1)).filterMap fun p => (k.map encSeg)[p - 1]?) =
      (ps.filterMap fun p => k[p]?).map encSeg := by
  induction ps with
  | nil => rfl
  | cons p ps ih =>
    simp only [List.map_cons, List.filterMap_cons, Nat.add_sub_cancel, List.getElem?_map]
    simp only [List.getElem?_map] at ih
    rcases k[p]? with _ | x
    · exact ih
    · simp [ih]

/-- The segments at the positions of a covering wildcard hint have the bytes of its own. -/
theorem encSeg_positions {k l : Key} {fixed : List (Nat × Segment)}
    (hl : fixed.map Prod.snd = l.map some)
    (hall : ∀ a ∈ fixed, (k[a.1]?.any fun s => s.same a.2) = true) :
    ((fixed.map Prod.fst).filterMap fun p => k[p]?).map encSeg = l.map encSeg := by
  induction fixed generalizing l with
  | nil =>
    rw [List.map_eq_nil_iff.1 hl.symm]
    rfl
  | cons a fixed ih =>
    rcases l with _ | ⟨x, l⟩
    · cases hl
    · simp only [List.map_cons, List.cons.injEq] at hl
      obtain ⟨hx, hl⟩ := hl
      have ha := hall a (by simp)
      have hrest := ih hl fun b hb => hall b (by simp [hb])
      rcases hk : k[a.1]? with _ | y
      · rw [hk] at ha
        cases ha
      · rw [hk, hx] at ha
        have hxy : encSeg y = encSeg x := (encSeg_eq_iff y x).2 (same_some.1 ha)
        rw [List.map_cons, List.map_cons, List.filterMap_cons, hk, List.map_cons, hxy, hrest]

/-- A signature in the counters belongs to a wildcard hint. -/
theorem exists_wildcard (hix : Consistent P cm ix) {w : Nat × Bytes × List Nat}
    (hw : w ∈ wsig P ix) : ∃ n ps, (∀ p ∈ ps, p < n) ∧
      w = (n, decimal n ++ ascii ":" ++ positionsText ps, ps.map (· + 1)) := by
  obtain ⟨field, hfield, rfl⟩ := List.mem_map.1 hw
  obtain ⟨h, e, he, hc, rfl⟩ := (mem_keys_counter hix).1 hfield
  have hk : e.1 = ascii "w" := by
    rcases kind_of_counter hc with ⟨-, h⟩ | ⟨-, h⟩ | ⟨h, -⟩
    · exact absurd h (by decide)
    · exact absurd h (by decide)
    · exact h
  obtain ⟨g, hg⟩ := hix.isEntry h e he
  cases g with
  | wildcardHint n fixed inside =>
    obtain ⟨enc, -, rfl⟩ := Option.map_eq_some_iff.1 hg
    refine ⟨n, fixed.map Prod.fst, fun p hp => ?_, signature_wildcard n _⟩
    obtain ⟨a, ha, rfl⟩ := List.mem_map.1 hp
    exact inside a ha
  | prefixHint s =>
    obtain ⟨enc, -, rfl⟩ := Option.map_eq_some_iff.1 hg
    exact absurd hk (by simp [ascii])
  | suffixHint s =>
    obtain ⟨enc, -, rfl⟩ := Option.map_eq_some_iff.1 hg
    exact absurd hk (by simp [ascii])
  | lengthHint n =>
    obtain rfl := Option.some.inj hg
    exact absurd hk (by simp [ascii])
  | allHint =>
    obtain rfl := Option.some.inj hg
    exact absurd hk (by decide)

/-- (PROVED) A SET that is looked up for a key is that of a hint covering it. -/
theorem exists_hint_of_lookup (hix : Consistent P cm ix) {k : Key} {key : Bytes}
    (hkey : key ∈ lookups P ix (k.map encSeg)) :
    ∃ g e, entry g = some e ∧ g.covers k = true ∧ setKey P e = key := by
  unfold lookups at hkey
  simp only [List.mem_append, List.mem_map, List.mem_filter, decide_eq_true_eq,
    List.mem_singleton, List.length_map] at hkey
  rcases hkey with (((⟨d, ⟨-, hd⟩, rfl⟩ | ⟨d, ⟨-, hd⟩, rfl⟩) | rfl) | ⟨w, ⟨hw, hn⟩, rfl⟩) | rfl
  · -- prefix depth `d`
    have hlen : (k.take d).length = d := by simp [hd]
    refine ⟨_, _, entry_prefixHint (k.take d), ?_, ?_⟩
    · simp only [RoutingHint.covers, List.length_map, hlen, hd, sameTuple_self, decide_true,
        Bool.and_self]
    · rw [hlen, lookup_ordinary _ _ _ (by decide), List.map_take]
      simp [ascii]
  · -- suffix depth `d`
    have hlen : (k.drop (k.length - d)).length = d := by simp; omega
    refine ⟨_, _, entry_suffixHint (k.drop (k.length - d)), ?_, ?_⟩
    · simp only [RoutingHint.covers, List.length_map, hlen, hd, sameTuple_self, decide_true,
        Bool.and_self]
    · rw [hlen, lookup_ordinary _ _ _ (by decide), List.map_drop]
      simp [ascii]
  · refine ⟨.lengthHint k.length, (ascii "l", decimal k.length, []), rfl, ?_, ?_⟩
    · simp [RoutingHint.covers]
    · simp [setKey, ascii]
  · obtain ⟨n, ps, hps, rfl⟩ := exists_wildcard hix hw
    dsimp only at hn
    subst hn
    have hsome : ∀ p ∈ ps, ∃ x, k[p]? = some x := fun p hp =>
      ⟨_, List.getElem?_eq_getElem (hps p hp)⟩
    have hmap : (ps.map fun p => k[p]?) = (ps.filterMap fun p => k[p]?).map some := by
      clear hps hw
      induction ps with
      | nil => rfl
      | cons p ps ih =>
        obtain ⟨x, hx⟩ := hsome p (by simp)
        have := ih fun q hq => hsome q (by simp [hq])
        rw [List.map_cons, this, List.filterMap_cons, hx]
        rfl
    refine ⟨.wildcardHint k.length (ps.map fun p => (p, k[p]?)) (by simpa using hps),
      (ascii "w", decimal k.length ++ ascii ":" ++ positionsText ps,
        ((ps.filterMap fun p => k[p]?).map encSeg).flatten), ?_, ?_, ?_⟩
    · have henc := encSegments_eq_some.2 ⟨ps.filterMap fun p => k[p]?, hmap, rfl⟩
      simp only [entry, List.map_map, Function.comp_def, List.map_id']
      rw [henc]
      rfl
    · simp only [RoutingHint.covers, decide_true, Bool.true_and, List.all_map, List.all_eq_true,
        Function.comp]
      intro p hp
      obtain ⟨x, hx⟩ := hsome p hp
      rw [hx]
      exact same_some.2 rfl
    · rw [filterMap_positions, lookup_ordinary _ _ _ (by decide)]
      rfl
  · exact ⟨.allHint, ALL_ENTRY, rfl, rfl, by simp [setKey, ALL_ENTRY]⟩

/-- (PROVED) The SET of a registered entry is looked up for the keys its hint covers. -/
theorem lookup_of_covers (hix : Consistent P cm ix) {h : Bytes} {e : HintEntry}
    (he : e ∈ ix.entriesOf cm h) {g : RoutingHint} (hg : entry g = some e) {k : Key}
    (hcov : g.covers k = true) : setKey P e ∈ lookups P ix (k.map encSeg) := by
  have hdepth : ∀ {c : Bytes} {d : Nat}, COUNTER e.1 = some c → e.2.1 = decimal d →
      d ∈ depths P ix c := fun {c d} hc hd =>
    List.mem_map.2 ⟨decimal d, (mem_keys_counter hix).2 ⟨h, e, he, hc, hd⟩, ofDecimal_decimal d⟩
  unfold lookups
  simp only [List.mem_append, List.mem_map, List.mem_filter, decide_eq_true_eq,
    List.mem_singleton, List.length_map]
  cases g with
  | prefixHint s =>
    obtain ⟨enc, henc, rfl⟩ := Option.map_eq_some_iff.1 hg
    simp only [RoutingHint.covers, Bool.and_eq_true, decide_eq_true_eq] at hcov
    obtain ⟨l, rfl, hl⟩ := encSegments_eq_some.1 henc
    have heq := (encode_eq_iff _ _).2 hcov.2
    refine Or.inl (Or.inl (Or.inl (Or.inl ⟨l.length, ⟨hdepth rfl (by simp), by simpa using hcov.1⟩, ?_⟩)))
    rw [lookup_ordinary _ _ _ (by decide), hl, ← heq]
    simp [ascii, List.map_take]
  | suffixHint s =>
    obtain ⟨enc, henc, rfl⟩ := Option.map_eq_some_iff.1 hg
    simp only [RoutingHint.covers, Bool.and_eq_true, decide_eq_true_eq] at hcov
    obtain ⟨l, rfl, hl⟩ := encSegments_eq_some.1 henc
    have heq := (encode_eq_iff _ _).2 hcov.2
    refine Or.inl (Or.inl (Or.inl (Or.inr ⟨l.length, ⟨hdepth rfl (by simp), by simpa using hcov.1⟩, ?_⟩)))
    rw [lookup_ordinary _ _ _ (by decide), hl, ← heq]
    simp [ascii, List.map_drop]
  | lengthHint n =>
    obtain rfl := Option.some.inj hg
    simp only [RoutingHint.covers, decide_eq_true_eq] at hcov
    subst hcov
    refine Or.inl (Or.inl (Or.inr ?_))
    rw [lookup_ordinary _ _ _ (by decide), decimal_eq]
    simp [ascii]
  | wildcardHint n fixed inside =>
    obtain ⟨enc, henc, rfl⟩ := Option.map_eq_some_iff.1 hg
    simp only [RoutingHint.covers, Bool.and_eq_true, decide_eq_true_eq, List.all_eq_true] at hcov
    obtain ⟨hlen, hall⟩ := hcov
    refine Or.inl (Or.inr ⟨_, ⟨List.mem_map.2 ⟨_, (mem_keys_counter hix).2
      ⟨h, _, he, rfl, rfl⟩, rfl⟩, ?_⟩, ?_⟩)
    · rw [signature_wildcard, hlen]
    · rw [signature_wildcard]
      dsimp only
      rw [filterMap_positions, lookup_ordinary _ _ _ (by decide)]
      obtain ⟨l, hl, rfl⟩ := encSegments_eq_some.1 henc
      rw [← encSeg_positions hl hall]
      simp [ascii]
  | allHint =>
    obtain rfl := Option.some.inj hg
    exact Or.inr (by simp [setKey, ALL_ENTRY])

/-- (PROVED) A hash is a candidate for a key exactly when an entry of it stands for a hint that
    covers the key. -/
theorem mem_candidates_iff (hix : Consistent P cm ix) {h : Bytes} {k : Key} :
    h ∈ candidates P ix (k.map encSeg) ↔
      ∃ e ∈ ix.entriesOf cm h, ∃ g, entry g = some e ∧ g.covers k = true := by
  rw [mem_candidates]
  constructor
  · rintro ⟨key, hkey, hh⟩
    obtain ⟨e, he, rfl⟩ := (hix.indexed.sets key h).1 hh
    obtain ⟨g, e', hg, hcov, heq⟩ := exists_hint_of_lookup hix hkey
    obtain rfl := setKey_inj ⟨g, hg⟩ (hix.isEntry h e he) heq
    exact ⟨e', he, g, hg, hcov⟩
  · rintro ⟨e, he, g, hg, hcov⟩
    exact ⟨_, lookup_of_covers hix he hg hcov, (hix.indexed.sets _ h).2 ⟨e, he, rfl⟩⟩

/-- (PROVED) A hash registered with the entries of hints, all encodable, is a candidate for the
    keys that one of them covers, and for no other. -/
theorem mem_candidates_of_encodable (hix : Consistent P cm ix) {h : Bytes} {k : Key}
    {hints : List RoutingHint} (hreg : ix.entriesOf cm h = hintEntries hints)
    (henc : ∀ g ∈ hints, entry g ≠ none) :
    h ∈ candidates P ix (k.map encSeg) ↔ ∃ g ∈ hints, g.covers k = true := by
  rw [mem_candidates_iff hix, hreg]
  rcases hintEntriesLoop_cases [] hints with hall | ⟨hall, h⟩
  · have hmem : ∀ e, e ∈ hintEntries hints ↔ ∃ g ∈ hints, entry g = some e := fun e => by
      rw [hintEntries, hall e]
      simp
    constructor
    · rintro ⟨e, he, g, hg, hcov⟩
      obtain ⟨g', hg', he'⟩ := (hmem e).1 he
      exact ⟨g', hg', by rw [covers_of_entry he' hg]; exact hcov⟩
    · rintro ⟨g, hg, hcov⟩
      obtain ⟨e, he⟩ := Option.ne_none_iff_exists'.1 (henc g hg)
      exact ⟨e, (hmem e).2 ⟨g, hg, he⟩, g, he, hcov⟩
  · have hmem : .allHint ∈ hints := h.resolve_left fun ⟨g, hg, hn⟩ => henc g hg hn
    rw [hintEntries, hall]
    exact iff_of_true ⟨ALL_ENTRY, by simp, .allHint, rfl, rfl⟩ ⟨.allHint, hmem, rfl⟩

/-- (PROVED) Encodable or not, a hash is a candidate for every key its hints cover. -/
theorem mem_candidates_of_covered (hix : Consistent P cm ix) {h : Bytes} {k : Key}
    {hints : List RoutingHint} (hreg : ix.entriesOf cm h = hintEntries hints)
    (hcov : Covered hints k) : h ∈ candidates P ix (k.map encSeg) := by
  by_cases henc : ∀ g ∈ hints, entry g ≠ none
  · exact (mem_candidates_of_encodable hix hreg henc).2 hcov
  · rw [mem_candidates_iff hix, hreg]
    push Not at henc
    obtain ⟨g, hg, hn⟩ := henc
    rcases hintEntriesLoop_cases [] hints with hall | ⟨hall, -⟩
    · -- the loop stops at the hint that cannot be encoded
      have hstop : ∀ (out : List HintEntry) (hs : List RoutingHint), g ∈ hs →
          hintEntriesLoop out hs = [ALL_ENTRY] := by
        intro out hs
        induction hs generalizing out with
        | nil => intro h; cases h
        | cons f hs ih =>
          intro hmem
          rw [hintEntriesLoop]
          rcases List.mem_cons.1 hmem with rfl | hmem
          · rw [hn]
          · split
            · rfl
            · split_ifs
              · rfl
              · exact ih out hmem
              · exact ih _ hmem
      exact ⟨ALL_ENTRY, by rw [hintEntries, hstop _ _ hg]; simp, .allHint, rfl, rfl⟩
    · exact ⟨ALL_ENTRY, by rw [hintEntries, hall]; simp, .allHint, rfl, rfl⟩

end Virtuals.Routing
