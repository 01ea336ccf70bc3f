/-
  What `match` returns, in every run of `add` and `remove`.

  A key meets the places that `match` looks up for it. A leaf is met exactly where it matches, so the
  candidates are the subscriptions whose filter is `found`, and what is returned is all that match if
  and only if each one that matches is found. An And without members matches every key and is found by
  none.
-/
import Virtuals.Observer.RegistryExact

namespace Virtuals.Observer

open Virtuals.Lib Virtuals.Routing

/-! ## The places a key meets -/

/-- Places that are looked up for a key. -/
def Meets (key : Key) : IndexPlace → Prop
  | .prefixOf p => ∃ i ≤ key.length, p = keyTuple (key.take i)
  | .suffixOf p => ∃ i ≤ key.length, p = keyTuple (key.drop i)
  | .length n => (key.length : Int) = n
  | .wildcard n signature => key.length = n ∧ Registry.valuesAt key signature.1 = .ok signature.2
  | .composite => False
  | .unindexed => True

theorem sameTuple_iff_keyTuple (key : Key) (s : List Segment) :
    sameTuple key s = true ↔ keyTuple key = tupleKey s := sameTuple_iff key s

theorem prefix_meets (key : Key) (s : List Segment) :
    Meets key (.prefixOf (tupleKey s)) ↔ (Filter.prefixFilter s).matchesKey key = true := by
  rw [Filter.matchesKey, Bool.and_eq_true, decide_eq_true_eq, sameTuple_iff_keyTuple]
  constructor
  · rintro ⟨i, hi, he⟩
    have hlen : s.length = i := by
      have := congrArg List.length he
      simp only [tupleKey, keyTuple, List.length_map, List.length_take] at this
      omega
    exact ⟨by omega, by rw [hlen, he]⟩
  · rintro ⟨hlen, he⟩
    exact ⟨s.length, hlen, he.symm⟩

theorem suffix_meets (key : Key) (s : List Segment) :
    Meets key (.suffixOf (tupleKey s)) ↔ (Filter.suffixFilter s).matchesKey key = true := by
  rw [Filter.matchesKey, Bool.and_eq_true, decide_eq_true_eq, Bool.or_eq_true,
    sameTuple_iff_keyTuple]
  constructor
  · rintro ⟨i, hi, he⟩
    have hlen : s.length = key.length - i := by
      have := congrArg List.length he
      simpa only [tupleKey, keyTuple, List.length_map, List.length_drop] using this
    have hcut : key.length - s.length = i := by omega
    exact ⟨by omega, .inr (by rw [hcut, he])⟩
  · rintro ⟨hlen, hs | he⟩
    · rw [List.isEmpty_iff] at hs
      exact ⟨key.length, le_rfl, by simp [hs, tupleKey, keyTuple]⟩
    · exact ⟨key.length - s.length, Nat.sub_le _ _, he.symm⟩

theorem valuesAt_ok {key : Key} {positions : List Nat} (h : ∀ p ∈ positions, p < key.length) :
    Registry.valuesAt key positions = .ok (positions.map fun p => key[p]?.map KeySegment.norm) := by
  induction positions with
  | nil => rfl
  | cons p positions ih =>
    have hp := List.getElem?_eq_getElem (h p List.mem_cons_self)
    rw [Registry.valuesAt, hp]
    simp only
    rw [ih fun q hq => h q (List.mem_cons_of_mem _ hq), List.map_cons, hp]
    rfl

theorem fixed_inside {key : Key} {pattern : List Segment} (hlen : key.length = pattern.length) :
    ∀ p ∈ (Filter.fixedOf pattern).map Prod.fst, p < key.length := by
  intro p hp
  obtain ⟨a, ha, rfl⟩ := List.mem_map.1 hp
  exact hlen ▸ Filter.fixedOf_inside pattern a ha

/-- (PROVED) A pattern of the key's length matches where its fixed values are the key's. -/
theorem wildcard_meets (key : Key) (pattern : List Segment) :
    Meets key (.wildcard pattern.length (Registry.wildcardSignature pattern)) ↔
      (Filter.wildcardFilter pattern).matchesKey key = true := by
  have hvalues : key.length = pattern.length →
      (Registry.valuesAt key ((Filter.fixedOf pattern).map Prod.fst) =
          .ok (tupleKey ((Filter.fixedOf pattern).map Prod.snd)) ↔
        ∀ a ∈ Filter.fixedOf pattern, key[a.1]?.map KeySegment.norm = a.2.map KeySegment.norm) := by
    intro hlen
    rw [valuesAt_ok (fixed_inside hlen), Except.ok.injEq, tupleKey, List.map_map, List.map_map,
      List.map_inj_left]
    rfl
  constructor
  · rintro ⟨hlen, hat⟩
    have hall := (hvalues hlen).1 hat
    rw [Filter.matchesKey, Bool.and_eq_true, decide_eq_true_eq, List.all_eq_true]
    refine ⟨hlen, fun a ha => ?_⟩
    obtain ⟨i, hi, rfl⟩ := List.mem_iff_getElem.1 ha
    rw [List.length_zip] at hi
    rw [List.getElem_zip, Bool.or_eq_true, decide_eq_true_eq]
    refine or_iff_not_imp_left.2 fun hne => ?_
    have hfixed := hall (i, pattern[i]) (Filter.mem_fixedOf.2
      ⟨List.getElem?_eq_getElem (by omega), hne⟩)
    rw [List.getElem?_eq_getElem (by omega)] at hfixed
    exact decide_eq_true hfixed
  · intro hm
    have hlen : key.length = pattern.length := by
      rw [Filter.matchesKey, Bool.and_eq_true, decide_eq_true_eq] at hm
      exact hm.1
    refine ⟨hlen, (hvalues hlen).2 fun a ha => ?_⟩
    have hcov := Filter.wildcard_fixed_covered hm a ha
    obtain ⟨k, hk, hsame⟩ := (Option.any_eq_true _ _).1 hcov
    rw [hk]
    exact of_decide_eq_true hsame

/-- (PROVED) A filter is found by a key that meets one of its places. -/
theorem found_iff (f : AnyFilter) (key : Key) :
    f.found key = true ↔ ∃ pl ∈ f.places, Meets key pl := by
  have hone : ∀ pl : IndexPlace, (∃ pl' ∈ [pl], Meets key pl') ↔ Meets key pl := by simp
  induction f using AnyFilter.induct with
  | prefixFilter s => rw [AnyFilter.found, AnyFilter.places, hone, prefix_meets]
  | suffixFilter s => rw [AnyFilter.found, AnyFilter.places, hone, suffix_meets]
  | lengthFilter n =>
    rw [AnyFilter.found, AnyFilter.places, hone, Filter.matchesKey, decide_eq_true_eq, Meets]
  | wildcardFilter p => rw [AnyFilter.found, AnyFilter.places, hone, wildcard_meets]
  | and fs ih =>
    rw [AnyFilter.found, AnyFilter.places]
    cases fs with
    | nil => simp [AnyFilter.foundFirst, AnyFilter.placesFirst, Meets]
    | cons f fs =>
      refine (ih f List.mem_cons_self).trans ?_
      simp [AnyFilter.placesFirst, Meets]
  | or fs ih =>
    rw [AnyFilter.found, AnyFilter.places, AnyFilter.foundAny_iff]
    constructor
    · rintro ⟨f, hf, hfound⟩
      obtain ⟨pl, hpl, hmeets⟩ := (ih f hf).1 hfound
      exact ⟨pl, List.mem_cons_of_mem _ (AnyFilter.mem_placesAll.2 ⟨f, hf, hpl⟩), hmeets⟩
    · rintro ⟨pl, hpl, hmeets⟩
      obtain rfl | hpl := List.mem_cons.1 hpl
      · exact hmeets.elim
      · obtain ⟨f, hf, hpl⟩ := AnyFilter.mem_placesAll.1 hpl
        exact ⟨f, hf, (ih f hf).2 ⟨pl, hpl, hmeets⟩⟩
  | other p => simp [AnyFilter.found, AnyFilter.places, Meets]

/-! ## Filters with a leaf -/

namespace AnyFilter

mutual

/-- No And without members is met on the way to the leaves at which the filter is indexed. -/
def leafed : AnyFilter → Bool
  | .and fs => leafedFirst fs
  | .or fs => leafedAll fs
  | _ => true

def leafedFirst : List AnyFilter → Bool
  | [] => false
  | f :: _ => f.leafed

def leafedAll : List AnyFilter → Bool
  | [] => true
  | f :: fs => f.leafed && leafedAll fs

end

theorem leafedAll_iff (fs : List AnyFilter) :
    leafedAll fs = true ↔ ∀ f ∈ fs, f.leafed = true := by
  induction fs with
  | nil => simp [leafedAll]
  | cons f fs ih => simp [leafedAll, ih]

/-- (PROVED) A filter that is indexed by leaves alone is found by every key that it matches. -/
theorem found_of_matches {f : AnyFilter} (hf : f.leafed = true) {key : Key}
    (hm : f.matchesKey key = true) : f.found key = true := by
  induction f using AnyFilter.induct with
  | and fs ih =>
    rw [matchesKey, allMatch_iff] at hm
    rw [leafed] at hf
    rw [found]
    cases fs with
    | nil => cases hf
    | cons f fs => exact ih f List.mem_cons_self hf (hm f List.mem_cons_self)
  | or fs ih =>
    rw [matchesKey, anyMatch_iff] at hm
    rw [leafed, leafedAll_iff] at hf
    rw [found, foundAny_iff]
    obtain ⟨f, hmem, hm⟩ := hm
    exact ⟨f, hmem, ih f hmem (hf f hmem) hm⟩
  | other p => rfl
  | _ => exact hm

end AnyFilter

/-- The positions of a wildcard place lie inside its length. -/
theorem places_inside (f : AnyFilter) {n : Nat} {signature : List Nat × TupleKey}
    (h : .wildcard n signature ∈ f.places) : ∀ p ∈ signature.1, p < n := by
  induction f using AnyFilter.induct with
  | wildcardFilter pattern =>
    rw [AnyFilter.places, List.mem_singleton, IndexPlace.wildcard.injEq] at h
    obtain ⟨rfl, rfl⟩ := h
    intro p hp
    obtain ⟨a, ha, rfl⟩ := List.mem_map.1 hp
    exact Filter.fixedOf_inside pattern a ha
  | and fs ih =>
    rw [AnyFilter.places, List.mem_cons] at h
    obtain h | h := h
    · cases h
    · cases fs with
      | nil => cases h
      | cons f fs => exact ih f List.mem_cons_self h
  | or fs ih =>
    rw [AnyFilter.places, List.mem_cons] at h
    obtain h | h := h
    · cases h
    · obtain ⟨f, hf, hpl⟩ := AnyFilter.mem_placesAll.1 h
      exact ih f hf hpl
  | _ => simp [AnyFilter.places] at h

namespace Registry

variable {Sub : Type} [DecidableEq Sub] {filterOf : Sub → AnyFilter} {r : Registry Sub}

/-! ## Candidates -/

omit [DecidableEq Sub] in
/-- Signatures that the wildcard index has lie inside their length. -/
theorem Exact.signature_inside (h : Exact filterOf r) {n : Nat} {positions : List Nat}
    {byValues : Buckets TupleKey Sub} (hget : r.wildcardIndex.get? (n, positions) = some byValues) :
    ∀ p ∈ positions, p < n := by
  obtain ⟨htidy, hne⟩ := h.tidy.wildcards n positions byValues hget
  have hsome : ∃ values, byValues.members values ≠ ∅ := by
    by_contra hall
    exact hne (htidy.eq_empty fun values => not_not.1 (not_exists.1 hall values))
  obtain ⟨values, hvalues⟩ := hsome
  obtain ⟨s, hs⟩ := Finset.nonempty_iff_ne_empty.2 hvalues
  have hplace := (h.holds (.wildcard n (positions, values)) s).1 (by
    rwa [holders, hget, Option.getD_some])
  exact places_inside (filterOf s) hplace.2

theorem Exact.matchSignatures (h : Exact filterOf r) (key : Key) (sigs : List (List Nat))
    (hsigs : ∀ positions ∈ sigs, (r.wildcardIndex.get? (key.length, positions)).isSome) :
    ∃ c, matchSignatures r key sigs = .ok c ∧ ∀ s, s ∈ c ↔ ∃ positions ∈ sigs, ∃ values,
      valuesAt key positions = .ok values ∧
        s ∈ r.holders (.wildcard key.length (positions, values)) := by
  induction sigs with
  | nil => exact ⟨∅, rfl, fun s => by simp⟩
  | cons positions sigs ih =>
    obtain ⟨c, hc, hmem⟩ := ih fun ps hps => hsigs ps (List.mem_cons_of_mem _ hps)
    obtain ⟨byValues, hget⟩ := Option.isSome_iff_exists.1 (hsigs positions List.mem_cons_self)
    obtain ⟨values, hvalues⟩ : ∃ values, valuesAt key positions = .ok values :=
      ⟨_, valuesAt_ok (h.signature_inside hget)⟩
    refine ⟨byValues.members values ∪ c, ?_, fun s => ?_⟩
    · rw [Registry.matchSignatures, wildcardMatches, hget, hc]
      simp only
      rw [hvalues]
      rfl
    · have hholders : r.holders (.wildcard key.length (positions, values)) =
          byValues.members values := by rw [holders, hget, Option.getD_some]
      rw [Finset.mem_union, hmem, List.exists_mem_cons_iff, hvalues]
      simp only [Except.ok.injEq, exists_eq_left', hholders]

/-- (PROVED) The candidates of a key are the subscriptions with a place that the key meets. -/
theorem Exact.candidates (h : Exact filterOf r) (key : Key) :
    ∃ c, r.candidates filterOf key = .ok c ∧ ∀ s, s ∈ c ↔ s ∈ r.all ∧
      ∃ pl ∈ (filterOf s).places, Meets key pl ∧
        (pl = .unindexed → (filterOf s).matchesKey key = true) := by
  obtain ⟨w, hw, hmem⟩ := h.matchSignatures key
    ((r.wildcardSigs.get? key.length).getD PyDict.empty).keys (fun positions hp => by
      rw [h.tidy.sigs]
      cases hget : r.wildcardSigs.get? key.length with
      | none =>
        rw [hget] at hp
        cases hp
      | some sigs =>
        rw [hget] at hp
        exact ⟨sigs, rfl, (PyDict.mem_keys sigs positions).1 hp⟩)
  refine ⟨_, by rw [Registry.candidates, hw]; rfl, fun s => ?_⟩
  simp only [Finset.mem_union, Finset.mem_biUnion, Finset.mem_range, Finset.mem_filter, hmem]
  constructor
  · rintro ((((⟨i, hi, hs⟩ | ⟨i, hi, hs⟩) | hs) | ⟨positions, _, values, hv, hs⟩) | ⟨hs, hm⟩)
    · obtain ⟨hall, hpl⟩ := (h.holds (.prefixOf _) s).1 hs
      exact ⟨hall, _, hpl, ⟨i, by omega, rfl⟩, fun he => by cases he⟩
    · obtain ⟨hall, hpl⟩ := (h.holds (.suffixOf _) s).1 hs
      exact ⟨hall, _, hpl, ⟨i, by omega, rfl⟩, fun he => by cases he⟩
    · obtain ⟨hall, hpl⟩ := (h.holds (.length _) s).1 hs
      exact ⟨hall, _, hpl, rfl, fun he => by cases he⟩
    · obtain ⟨hall, hpl⟩ := (h.holds _ s).1 hs
      exact ⟨hall, _, hpl, ⟨rfl, hv⟩, fun he => by cases he⟩
    · obtain ⟨hall, hpl⟩ := (h.holds .unindexed s).1 hs
      exact ⟨hall, _, hpl, trivial, fun _ => hm⟩
  · rintro ⟨hall, pl, hpl, hmeets, hm⟩
    have hs := (h.holds pl s).2 ⟨hall, hpl⟩
    cases pl with
    | prefixOf p =>
      obtain ⟨i, hi, rfl⟩ := hmeets
      exact .inl (.inl (.inl (.inl ⟨i, by omega, hs⟩)))
    | suffixOf p =>
      obtain ⟨i, hi, rfl⟩ := hmeets
      exact .inl (.inl (.inl (.inr ⟨i, by omega, hs⟩)))
    | length n =>
      subst hmeets
      exact .inl (.inl (.inr hs))
    | wildcard n signature =>
      obtain ⟨rfl, hv⟩ := hmeets
      refine .inl (.inr ⟨signature.1, ?_, signature.2, hv, hs⟩)
      have hsome : (r.wildcardIndex.get? (key.length, signature.1)).isSome := by
        rw [holders] at hs
        cases hget : r.wildcardIndex.get? (key.length, signature.1) with
        | none =>
          rw [hget, Option.getD_none, Buckets.members_empty] at hs
          exact absurd hs (Finset.notMem_empty s)
        | some byValues => rfl
      obtain ⟨sigs, hsigs, hp⟩ := (h.tidy.sigs key.length signature.1).1 hsome
      rw [hsigs, Option.getD_some]
      exact (PyDict.mem_keys sigs signature.1).2 hp
    | composite => exact hmeets.elim
    | unindexed => exact .inr ⟨hs, hm rfl⟩

/-- (PROVED) What is returned for a key: the subscriptions that match and are found. -/
theorem Exact.matchKey (h : Exact filterOf r) (key : Key) :
    r.matchKey filterOf key = .ok (r.all.filter fun s =>
      (filterOf s).matchesKey key = true ∧ (filterOf s).found key = true) := by
  obtain ⟨c, hc, hmem⟩ := h.candidates key
  rw [Registry.matchKey, hc]
  refine congrArg Except.ok (Finset.ext fun s => ?_)
  rw [Finset.mem_filter, Finset.mem_filter, hmem, found_iff]
  constructor
  · rintro ⟨⟨hall, pl, hpl, hmeets, _⟩, hm⟩
    exact ⟨hall, hm, pl, hpl, hmeets⟩
  · rintro ⟨hall, hm, pl, hpl, hmeets⟩
    exact ⟨⟨hall, pl, hpl, hmeets, fun _ => hm⟩, hm⟩

/-! ## Runs -/

/-- A change of the registry. -/
inductive Change (Sub : Type)
  | add (sub : Sub)
  | remove (sub : Sub)

/-- One change. -/
def change (filterOf : Sub → AnyFilter) (r : Registry Sub) :
    Change Sub → Except LookupError (Registry Sub)
  | .add sub => .ok (r.add filterOf sub)
  | .remove sub => r.remove filterOf sub

/-- A sequence of changes of a new registry. -/
def run (filterOf : Sub → AnyFilter) (cs : List (Change Sub)) :
    Except LookupError (Registry Sub) :=
  cs.foldlM (change filterOf) empty

/-- Who is registered after a change. -/
def registeredAfter (subs : Finset Sub) : Change Sub → Finset Sub
  | .add sub => insert sub subs
  | .remove sub => subs.erase sub

/-- Who is registered after a sequence of changes. -/
def registered (cs : List (Change Sub)) : Finset Sub := cs.foldl registeredAfter ∅

theorem Exact.change (h : Exact filterOf r) (c : Change Sub) :
    ∃ r', change filterOf r c = .ok r' ∧ Exact filterOf r' ∧ r'.all = registeredAfter r.all c := by
  cases c with
  | add sub => exact ⟨_, rfl, h.add sub⟩
  | remove sub => exact h.remove sub

theorem Exact.run (h : Exact filterOf r) (cs : List (Change Sub)) :
    ∃ r', cs.foldlM (Registry.change filterOf) r = .ok r' ∧ Exact filterOf r' ∧
      r'.all = cs.foldl registeredAfter r.all := by
  induction cs generalizing r with
  | nil => exact ⟨r, rfl, h, rfl⟩
  | cons c cs ih =>
    obtain ⟨r₁, hc, h₁, hall⟩ := h.change c
    obtain ⟨r₂, hcs, h₂, hall'⟩ := ih h₁
    refine ⟨r₂, ?_, h₂, ?_⟩
    · rw [List.foldlM_cons, hc]
      exact hcs
    · rw [hall', hall, List.foldl_cons]

/-- What the registry owes its callers after a run: no change fails, a key yields exactly the
registered subscriptions that match it, and where nobody is registered it is as new. -/
def ExactAfter (filterOf : Sub → AnyFilter) (cs : List (Change Sub)) : Prop :=
  ∃ r, run filterOf cs = .ok r ∧
    (∀ key, r.matchKey filterOf key =
      .ok ((registered cs).filter fun s => (filterOf s).matchesKey key = true)) ∧
    (registered cs = ∅ → r = empty)

/-- An And without members matches every key, and no key finds it. -/
theorem and_nil_lost : ¬ ExactAfter (fun _ : Unit => AnyFilter.and []) [.add ()] := by
  rintro ⟨r, hrun, hmatch, -⟩
  obtain rfl := Except.ok.inj hrun
  have hmem : () ∈ (registered [Change.add ()]).filter fun _ =>
      (AnyFilter.and []).matchesKey [] = true := by decide
  rw [← Except.ok.inj (hmatch [])] at hmem
  exact Finset.notMem_empty _ hmem

/-- Where every registered filter is found by the keys that it matches the registry is exact. -/
theorem ExactAfter.of_found {filterOf : Sub → AnyFilter} {cs : List (Change Sub)}
    (h : ∀ s ∈ registered cs, ∀ key,
      (filterOf s).matchesKey key = true → (filterOf s).found key = true) :
    ExactAfter filterOf cs := by
  obtain ⟨r, hrun, hexact, hall⟩ := (exact_empty filterOf).run cs
  have hall : r.all = registered cs := hall
  refine ⟨r, hrun, fun key => ?_, fun hnone => hexact.eq_empty (hall.trans hnone)⟩
  rw [hexact.matchKey, hall]
  refine congrArg Except.ok (Finset.filter_congr fun s hs => ?_)
  exact ⟨fun hm => hm.1, fun hm => ⟨hm, h s hs key hm⟩⟩

/-- (PROVED) The registry is exact after every run in which the filters are indexed by leaves alone. -/
theorem ExactAfter.of_leafed {filterOf : Sub → AnyFilter} {cs : List (Change Sub)}
    (h : ∀ s ∈ registered cs, (filterOf s).leafed = true) : ExactAfter filterOf cs :=
  .of_found fun s hs _ hm => AnyFilter.found_of_matches (h s hs) hm

/-- (PROVED) The registry is exact after a run just where every registered filter is found by the keys
that it matches. -/
theorem exact_after_iff (filterOf : Sub → AnyFilter) (cs : List (Change Sub)) :
    ExactAfter filterOf cs ↔ ∀ s ∈ registered cs, ∀ key,
      (filterOf s).matchesKey key = true → (filterOf s).found key = true := by
  refine ⟨?_, .of_found⟩
  rintro ⟨r, hrun, hmatch, -⟩ s hs key hm
  obtain ⟨r', hrun', hexact, hall⟩ := (exact_empty filterOf).run cs
  obtain rfl : r' = r := Except.ok.inj (hrun'.symm.trans hrun)
  have heq := Except.ok.inj ((hexact.matchKey key).symm.trans (hmatch key))
  have hmem : s ∈ (registered cs).filter fun s => (filterOf s).matchesKey key = true :=
    Finset.mem_filter.2 ⟨hs, hm⟩
  rw [← heq] at hmem
  exact (Finset.mem_filter.1 hmem).2.2

end Registry

end Virtuals.Observer
