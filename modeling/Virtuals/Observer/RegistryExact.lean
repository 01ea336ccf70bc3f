/-
  The registry finds exactly the subscriptions that match, unless an And without members hides one.

  A filter is entered at places, one an index entry (`places`), and `holders` is who stands at a place.
  `Exact`: at every place stand the registered subscriptions that have it, and no index keeps an empty
  entry. Entering and leaving places keeps it, so a registry from which all subscriptions were removed
  is a new one. A lookup meets the places of a key; a filter that matches the key has one of them, or
  stands only in the set of composite filters, which is never looked up (`found`).
-/
import Virtuals.Observer.Registry

namespace Virtuals.Observer

open Virtuals.Lib Virtuals.Routing

/-! ## Places -/

/-- Where a subscription can stand in the indexes. -/
inductive IndexPlace
  | prefixOf (p : TupleKey)
  | suffixOf (p : TupleKey)
  | length (n : Int)
  | wildcard (n : Nat) (signature : List Nat × TupleKey)
  | composite
  | unindexed
  deriving DecidableEq

namespace AnyFilter

/-- Cases of a filter, the members of And and Or being smaller. -/
theorem induct {P : AnyFilter → Prop} (prefixFilter : ∀ s, P (.prefixFilter s))
    (suffixFilter : ∀ s, P (.suffixFilter s)) (lengthFilter : ∀ n, P (.lengthFilter n))
    (wildcardFilter : ∀ p, P (.wildcardFilter p)) (and : ∀ fs, (∀ f ∈ fs, P f) → P (.and fs))
    (or : ∀ fs, (∀ f ∈ fs, P f) → P (.or fs)) (other : ∀ p, P (.other p)) (f : AnyFilter) : P f :=
  @AnyFilter.rec P (fun fs => ∀ f ∈ fs, P f) prefixFilter suffixFilter lengthFilter wildcardFilter
    and or other (by simp) (fun _ _ hf hfs => by simpa using ⟨hf, hfs⟩) f

theorem allMatch_iff (fs : List AnyFilter) (key : Key) :
    allMatch fs key = true ↔ ∀ f ∈ fs, f.matchesKey key = true := by
  induction fs with
  | nil => simp [allMatch]
  | cons f fs ih => simp [allMatch, ih]

theorem anyMatch_iff (fs : List AnyFilter) (key : Key) :
    anyMatch fs key = true ↔ ∃ f ∈ fs, f.matchesKey key = true := by
  induction fs with
  | nil => simp [anyMatch]
  | cons f fs ih => simp [anyMatch, ih]

mutual

/-- The places of a filter, as it is indexed. -/
def places : AnyFilter → List IndexPlace
  | .prefixFilter s => [.prefixOf (tupleKey s)]
  | .suffixFilter s => [.suffixOf (tupleKey s)]
  | .lengthFilter n => [.length n]
  | .wildcardFilter pattern => [.wildcard pattern.length (Registry.wildcardSignature pattern)]
  | .and fs => .composite :: placesFirst fs
  | .or fs => .composite :: placesAll fs
  | .other _ => [.unindexed]

def placesFirst : List AnyFilter → List IndexPlace
  | [] => []
  | f :: _ => places f

def placesAll : List AnyFilter → List IndexPlace
  | [] => []
  | f :: fs => places f ++ placesAll fs

end

theorem mem_placesAll {fs : List AnyFilter} {pl : IndexPlace} :
    pl ∈ placesAll fs ↔ ∃ f ∈ fs, pl ∈ places f := by
  induction fs with
  | nil => simp [placesAll]
  | cons f fs ih => simp [placesAll, ih]

mutual

/-- A leaf at which the filter is indexed matches the key, or is of a class that is asked about every
key. The first members of Ands are followed down, and all members of Ors; an And without members has no
leaf. -/
def found : AnyFilter → Key → Bool
  | .prefixFilter s, key => (Filter.prefixFilter s).matchesKey key
  | .suffixFilter s, key => (Filter.suffixFilter s).matchesKey key
  | .lengthFilter n, key => (Filter.lengthFilter n).matchesKey key
  | .wildcardFilter pattern, key => (Filter.wildcardFilter pattern).matchesKey key
  | .and fs, key => foundFirst fs key
  | .or fs, key => foundAny fs key
  | .other _, _ => true

def foundFirst : List AnyFilter → Key → Bool
  | [], _ => false
  | f :: _, key => f.found key

def foundAny : List AnyFilter → Key → Bool
  | [], _ => false
  | f :: fs, key => f.found key || foundAny fs key

end

theorem foundAny_iff (fs : List AnyFilter) (key : Key) :
    foundAny fs key = true ↔ ∃ f ∈ fs, f.found key = true := by
  induction fs with
  | nil => simp [foundAny]
  | cons f fs ih => simp [foundAny, ih]

end AnyFilter

namespace Registry

variable {Sub : Type} [DecidableEq Sub]

/-- Who stands at a place. -/
def holders (r : Registry Sub) : IndexPlace → Finset Sub
  | .prefixOf p => r.prefixIndex.members p
  | .suffixOf p => r.suffixIndex.members p
  | .length n => r.lengthIndex.members n
  | .wildcard n signature =>
    ((r.wildcardIndex.get? (n, signature.1)).getD ∅).members signature.2
  | .composite => r.composite
  | .unindexed => r.unindexed

/-- No index keeps an empty entry, and the signatures are those of the wildcard index. -/
structure Tidy (r : Registry Sub) : Prop where
  prefixes : r.prefixIndex.Tidy
  suffixes : r.suffixIndex.Tidy
  lengths : r.lengthIndex.Tidy
  wildcards : ∀ n positions byValues, r.wildcardIndex.get? (n, positions) = some byValues →
    byValues.Tidy ∧ byValues ≠ ∅
  sigs : ∀ n positions, (r.wildcardIndex.get? (n, positions)).isSome ↔
    ∃ sigs, r.wildcardSigs.get? n = some sigs ∧ (sigs.get? positions).isSome
  sigs_ne_nil : ∀ n sigs, r.wildcardSigs.get? n = some sigs → sigs.items ≠ []

omit [DecidableEq Sub] in
theorem tidy_empty : (empty : Registry Sub).Tidy where
  prefixes := Buckets.tidy_empty
  suffixes := Buckets.tidy_empty
  lengths := Buckets.tidy_empty
  wildcards n positions byValues h := by
    rw [empty, Table.get?_empty] at h
    cases h
  sigs n positions := by simp [empty]
  sigs_ne_nil n sigs h := by
    rw [empty, Table.get?_empty] at h
    cases h

/-- Stand at a place. -/
def enter (sub : Sub) : IndexPlace → Registry Sub → Registry Sub
  | .prefixOf p, r => { r with prefixIndex := r.prefixIndex.add p sub }
  | .suffixOf p, r => { r with suffixIndex := r.suffixIndex.add p sub }
  | .length n, r => { r with lengthIndex := r.lengthIndex.add n sub }
  | .wildcard n signature, r => indexWildcard sub n signature r
  | .composite, r => { r with composite := insert sub r.composite }
  | .unindexed, r => { r with unindexed := insert sub r.unindexed }

/-- Stand at a place no more. -/
def leave (sub : Sub) : IndexPlace → Registry Sub → Except LookupError (Registry Sub)
  | .prefixOf p, r => .ok { r with prefixIndex := r.prefixIndex.discard p sub }
  | .suffixOf p, r => .ok { r with suffixIndex := r.suffixIndex.discard p sub }
  | .length n, r => .ok { r with lengthIndex := r.lengthIndex.discard n sub }
  | .wildcard n signature, r => unindexWildcard sub n signature r
  | .composite, r => .ok { r with composite := r.composite.erase sub }
  | .unindexed, r => .ok { r with unindexed := r.unindexed.erase sub }

/-- (PROVED) A filter is indexed by entering its places. -/
theorem indexFilter_eq (sub : Sub) (f : AnyFilter) (r : Registry Sub) :
    indexFilter sub f r = f.places.foldl (fun r pl => enter sub pl r) r := by
  induction f using AnyFilter.induct generalizing r with
  | and fs ih =>
    rw [indexFilter, AnyFilter.places, List.foldl_cons]
    cases fs with
    | nil => rfl
    | cons f fs => exact ih f List.mem_cons_self _
  | or fs ih =>
    rw [indexFilter, AnyFilter.places, List.foldl_cons, enter]
    generalize { r with composite := insert sub r.composite } = r
    induction fs generalizing r with
    | nil => rfl
    | cons f fs ihfs =>
      rw [indexAll, AnyFilter.placesAll, List.foldl_append, ih f List.mem_cons_self]
      exact ihfs (fun g hg => ih g (List.mem_cons_of_mem _ hg)) _
  | _ => rfl

/-- (PROVED) A filter is taken out by leaving its places. -/
theorem unindexFilter_eq (sub : Sub) (f : AnyFilter) (r : Registry Sub) :
    unindexFilter sub f r = f.places.foldlM (fun r pl => leave sub pl r) r := by
  have hone : ∀ x : Except LookupError (Registry Sub), (x >>= fun r => .ok r) = x := fun x => by
    cases x <;> rfl
  induction f using AnyFilter.induct generalizing r with
  | and fs ih =>
    rw [unindexFilter, AnyFilter.places, List.foldlM_cons]
    cases fs with
    | nil => rfl
    | cons f fs => exact ih f List.mem_cons_self _
  | or fs ih =>
    rw [unindexFilter, AnyFilter.places, List.foldlM_cons, leave]
    show unindexAll sub fs _ = List.foldlM _ _ _
    generalize { r with composite := r.composite.erase sub } = r
    induction fs generalizing r with
    | nil => rfl
    | cons f fs ihfs =>
      rw [unindexAll, AnyFilter.placesAll, List.foldlM_append, ih f List.mem_cons_self]
      exact bind_congr fun r => ihfs (fun g hg => ih g (List.mem_cons_of_mem _ hg)) r
  | _ =>
    rw [unindexFilter, AnyFilter.places, List.foldlM_cons]
    exact (hone _).symm

/-! ## One place -/

variable {sub : Sub} {r : Registry Sub}

omit [DecidableEq Sub] in
/-- The values of one signature replaced: who stands where. -/
theorem wildcard_members_put (t : Table (Nat × List Nat) (Buckets TupleKey Sub)) {n : Nat}
    (signature : List Nat × TupleKey) {b : Buckets TupleKey Sub} {g : Finset Sub → Finset Sub}
    (hb : ∀ values, b.members values =
      if values = signature.2 then g (((t.get? (n, signature.1)).getD ∅).members values)
      else ((t.get? (n, signature.1)).getD ∅).members values) (m : Nat)
    (other : List Nat × TupleKey) :
    (((t.put (n, signature.1) b).get? (m, other.1)).getD ∅).members other.2 =
      if IndexPlace.wildcard m other = .wildcard n signature then
        g (((t.get? (m, other.1)).getD ∅).members other.2)
      else ((t.get? (m, other.1)).getD ∅).members other.2 := by
  obtain ⟨positions, values⟩ := other
  obtain ⟨positions', values'⟩ := signature
  rw [Table.get?_put]
  by_cases hpos : (m, positions) = (n, positions')
  · obtain ⟨rfl, rfl⟩ := Prod.mk.inj hpos
    rw [if_pos rfl, Option.getD_some, hb]
    by_cases hv : values = values'
    · rw [if_pos hv, if_pos (by rw [hv])]
    · rw [if_neg hv, if_neg (by simp [hv])]
  · rw [if_neg hpos, if_neg]
    intro he
    simp only [IndexPlace.wildcard.injEq, Prod.mk.injEq] at he hpos
    exact hpos ⟨he.1, he.2.1⟩

theorem holders_enter (sub : Sub) (pl other : IndexPlace) (r : Registry Sub) :
    (enter sub pl r).holders other =
      if other = pl then insert sub (r.holders other) else r.holders other := by
  cases pl with
  | prefixOf p => cases other <;> simp [enter, holders, Buckets.members_add]
  | suffixOf p => cases other <;> simp [enter, holders, Buckets.members_add]
  | length n => cases other <;> simp [enter, holders, Buckets.members_add]
  | composite => cases other <;> simp [enter, holders]
  | unindexed => cases other <;> simp [enter, holders]
  | wildcard n signature =>
    rw [enter, indexWildcard]
    cases hget : r.wildcardIndex.get? (n, signature.1) with
    | none =>
      cases other with
      | wildcard m other =>
        refine wildcard_members_put (g := insert sub) r.wildcardIndex _ (fun values => ?_) m other
        rw [Buckets.members_add, hget, Option.getD_none]
      | _ => simp [holders]
    | some byValues =>
      cases other with
      | wildcard m other =>
        refine wildcard_members_put (g := insert sub) r.wildcardIndex _ (fun values => ?_) m other
        rw [Buckets.members_add, hget, Option.getD_some]
      | _ => simp [holders]

theorem all_enter (sub : Sub) (pl : IndexPlace) (r : Registry Sub) : (enter sub pl r).all = r.all := by
  cases pl with
  | wildcard n signature =>
    rw [enter, indexWildcard]
    cases r.wildcardIndex.get? (n, signature.1) <;> rfl
  | _ => rfl

theorem add_ne_empty (t : Buckets TupleKey Sub) (values : TupleKey) (sub : Sub) :
    t.add values sub ≠ ∅ := by
  intro h
  have hm := Buckets.members_add t values values sub
  rw [h, Buckets.members_empty, if_pos rfl] at hm
  exact Finset.insert_ne_empty _ _ hm.symm

theorem Tidy.indexWildcard (h : r.Tidy) (n : Nat) (signature : List Nat × TupleKey) :
    (indexWildcard sub n signature r).Tidy := by
  obtain ⟨positions, values⟩ := signature
  rw [Registry.indexWildcard]
  cases hget : r.wildcardIndex.get? (n, positions) with
  | none =>
    exact
      { prefixes := h.prefixes
        suffixes := h.suffixes
        lengths := h.lengths
        wildcards := fun m pos byValues hm => by
          rw [Table.get?_put] at hm
          split_ifs at hm
          · rw [← Option.some.inj hm]
            exact ⟨Buckets.tidy_empty.add _ _, add_ne_empty _ _ _⟩
          · exact h.wildcards m pos byValues hm
        sigs := fun m pos => by
          show ((r.wildcardIndex.put (n, positions) _).get? (m, pos)).isSome ↔
            ∃ sigs, (r.wildcardSigs.put n _).get? m = some sigs ∧ (sigs.get? pos).isSome
          rw [Table.get?_put, Table.get?_put]
          by_cases hm : m = n
          · subst hm
            rw [if_pos rfl]
            simp only [Option.some.injEq, exists_eq_left', Prod.mk.injEq, true_and, PyDict.get?_set]
            by_cases hp : pos = positions
            · simp [hp]
            · rw [if_neg hp, if_neg hp, h.sigs]
              cases r.wildcardSigs.get? m <;> simp
          · rw [if_neg (fun he => hm (Prod.mk.inj he).1), if_neg hm]
            exact h.sigs m pos
        sigs_ne_nil := fun m sigs hm => by
          rw [Table.get?_put] at hm
          split_ifs at hm
          · rw [← Option.some.inj hm]
            intro hnil
            have hset := PyDict.get?_set_self ((r.wildcardSigs.get? n).getD PyDict.empty) positions
              ((((r.wildcardSigs.get? n).getD PyDict.empty).get? positions).getD 0 + 1)
            rw [PyDict.get?, hnil] at hset
            cases hset
          · exact h.sigs_ne_nil m sigs hm }
  | some byValues =>
    exact
      { prefixes := h.prefixes
        suffixes := h.suffixes
        lengths := h.lengths
        wildcards := fun m pos byValues' hm => by
          rw [Table.get?_put] at hm
          split_ifs at hm
          · rw [← Option.some.inj hm]
            exact ⟨(h.wildcards n positions byValues hget).1.add _ _, add_ne_empty _ _ _⟩
          · exact h.wildcards m pos byValues' hm
        sigs := fun m pos => by
          rw [← h.sigs, Table.get?_put]
          split_ifs with he
          · rw [he, hget]
            simp
          · rfl
        sigs_ne_nil := h.sigs_ne_nil }

theorem Tidy.enter (h : r.Tidy) (pl : IndexPlace) : (enter sub pl r).Tidy := by
  cases pl with
  | prefixOf p => exact { h with prefixes := h.prefixes.add p sub }
  | suffixOf p => exact { h with suffixes := h.suffixes.add p sub }
  | length n => exact { h with lengths := h.lengths.add n sub }
  | wildcard n signature => exact h.indexWildcard n signature
  | composite => exact { h with }
  | unindexed => exact { h with }

theorem discardValues_eq (values : TupleKey) (t : Buckets TupleKey Sub) :
    discardValues sub values t = t.discard values sub := by
  rw [discardValues, Buckets.discard, Buckets.members]
  cases hget : t.get? values with
  | some subs => rfl
  | none =>
    rw [Option.getD_none, if_pos (Finset.erase_empty sub)]
    refine Table.ext fun j => ?_
    rw [Table.get?_erase]
    split_ifs with hj
    · rw [hj, hget]
    · rfl

omit [DecidableEq Sub] in
/-- An index entry without values is none. -/
theorem getD_erase (t : Table (Nat × List Nat) (Buckets TupleKey Sub)) (k j : Nat × List Nat) :
    ((t.erase k).get? j).getD ∅ = ((t.put k ∅).get? j).getD ∅ := by
  rw [Table.get?_erase, Table.get?_put]
  split_ifs <;> rfl

omit [DecidableEq Sub] in
/-- A signature of the wildcard index is dropped without a fault. -/
theorem Tidy.dropSignature (h : r.Tidy) (n : Nat) (positions : List Nat)
    (hget : (r.wildcardIndex.get? (n, positions)).isSome) :
    ∃ r', dropSignature n positions
        { r with wildcardIndex := r.wildcardIndex.erase (n, positions) } = .ok r' ∧ r'.Tidy ∧
      r'.all = r.all ∧ ∀ other, r'.holders other =
        { r with wildcardIndex := r.wildcardIndex.erase (n, positions) }.holders other := by
  obtain ⟨sigs, hsigs, hpos⟩ := (h.sigs n positions).1 hget
  refine ⟨{ r with
    wildcardIndex := r.wildcardIndex.erase (n, positions)
    wildcardSigs := if (sigs.erase positions).items = [] then r.wildcardSigs.erase n
      else r.wildcardSigs.put n (sigs.erase positions) }, ?_, ?_, rfl, fun other => ?_⟩
  · rw [Registry.dropSignature]
    simp only [hsigs]
    rw [if_neg]
    rw [Option.isNone_iff_eq_none]
    intro hnone
    rw [hnone] at hpos
    cases hpos
  · have hother : ∀ {m : Nat}, m ≠ n → (if (sigs.erase positions).items = [] then
        r.wildcardSigs.erase n else r.wildcardSigs.put n (sigs.erase positions)).get? m =
        r.wildcardSigs.get? m := by
      intro m hm
      split_ifs
      · rw [Table.get?_erase, if_neg hm]
      · rw [Table.get?_put, if_neg hm]
    exact
      { prefixes := h.prefixes
        suffixes := h.suffixes
        lengths := h.lengths
        wildcards := fun m pos byValues hm => by
          rw [Table.get?_erase] at hm
          split_ifs at hm
          exact h.wildcards m pos byValues hm
        sigs := fun m pos => by
          show ((r.wildcardIndex.erase (n, positions)).get? (m, pos)).isSome ↔ _
          rw [Table.get?_erase]
          by_cases hm : m = n
          · subst hm
            by_cases hp : pos = positions
            · subst hp
              rw [if_pos rfl]
              refine ⟨fun hnone => (by cases hnone), ?_⟩
              rintro ⟨sigs', hs, hsome⟩
              split_ifs at hs
              · rw [Table.get?_erase, if_pos rfl] at hs
                cases hs
              · rw [Table.get?_put_self] at hs
                rw [← Option.some.inj hs, PyDict.get?_erase_self] at hsome
                cases hsome
            · have hne : (m, pos) ≠ (m, positions) := fun he => hp (Prod.mk.inj he).2
              rw [if_neg hne, h.sigs, hsigs]
              simp only [Option.some.injEq, exists_eq_left']
              have herase := PyDict.get?_erase_of_ne sigs hp
              split_ifs with hnil
              · rw [Table.get?_erase, if_pos rfl, ← herase, PyDict.get?, hnil]
                simp [PyDict.lookupItem]
              · rw [Table.get?_put_self]
                simp only [Option.some.injEq, exists_eq_left', herase]
          · rw [if_neg (fun he => hm (Prod.mk.inj he).1), hother hm]
            exact h.sigs m pos
        sigs_ne_nil := fun m sigs' hm => by
          by_cases hmn : m = n
          · subst hmn
            split_ifs at hm with hnil
            · rw [Table.get?_erase, if_pos rfl] at hm
              cases hm
            · rw [Table.get?_put_self] at hm
              rw [← Option.some.inj hm]
              exact hnil
          · rw [hother hmn] at hm
            exact h.sigs_ne_nil m sigs' hm }
  · cases other <;> rfl

/-- (PROVED) A place is left without a fault. -/
theorem Tidy.leave (h : r.Tidy) (sub : Sub) (pl : IndexPlace) :
    ∃ r', leave sub pl r = .ok r' ∧ r'.Tidy ∧ r'.all = r.all ∧ ∀ other, r'.holders other =
      if other = pl then (r.holders other).erase sub else r.holders other := by
  cases pl with
  | prefixOf p =>
    refine ⟨_, rfl, { h with prefixes := h.prefixes.discard p sub }, rfl, fun other => ?_⟩
    cases other <;> simp [holders, Buckets.members_discard]
  | suffixOf p =>
    refine ⟨_, rfl, { h with suffixes := h.suffixes.discard p sub }, rfl, fun other => ?_⟩
    cases other <;> simp [holders, Buckets.members_discard]
  | length n =>
    refine ⟨_, rfl, { h with lengths := h.lengths.discard n sub }, rfl, fun other => ?_⟩
    cases other <;> simp [holders, Buckets.members_discard]
  | composite =>
    refine ⟨_, rfl, { h with }, rfl, fun other => ?_⟩
    cases other <;> simp [holders]
  | unindexed =>
    refine ⟨_, rfl, { h with }, rfl, fun other => ?_⟩
    cases other <;> simp [holders]
  | wildcard n signature =>
    obtain ⟨positions, values⟩ := signature
    rw [Registry.leave, unindexWildcard]
    cases hget : r.wildcardIndex.get? (n, positions) with
    | none =>
      refine ⟨r, rfl, h, rfl, fun other => ?_⟩
      split_ifs with he
      · rw [he, holders, hget, Option.getD_none, Buckets.members_empty, Finset.erase_empty]
      · rfl
    | some byValues =>
      have hmembers : ∀ v, (byValues.discard values sub).members v =
          if v = values then (((r.wildcardIndex.get? (n, positions)).getD ∅).members v).erase sub
          else ((r.wildcardIndex.get? (n, positions)).getD ∅).members v := fun v => by
        rw [Buckets.members_discard, hget, Option.getD_some]
      have hput := fun m other => wildcard_members_put (n := n)
        (g := fun subs => subs.erase sub) r.wildcardIndex (positions, values)
        (b := byValues.discard values sub) hmembers m other
      simp only [discardValues_eq]
      split_ifs with hkeys
      · have hempty : byValues.discard values sub = ∅ := (Table.eq_empty_iff _).2 hkeys
        obtain ⟨r', hrun, htidy, hall, hholders⟩ := h.dropSignature n positions
          (by rw [hget]; rfl)
        refine ⟨r', hrun, htidy, hall, fun other => ?_⟩
        rw [hholders]
        cases other with
        | wildcard m other =>
          have hm := hput m other
          rw [hempty, ← getD_erase] at hm
          exact hm
        | _ => simp [holders]
      · refine ⟨_, rfl, ?_, rfl, fun other => ?_⟩
        · exact
            { h with
              wildcards := fun m pos b hm => by
                rw [Table.get?_put] at hm
                split_ifs at hm
                · rw [← Option.some.inj hm]
                  exact ⟨(h.wildcards n positions byValues hget).1.discard _ _, fun he =>
                    hkeys ((Table.eq_empty_iff _).1 he)⟩
                · exact h.wildcards m pos b hm
              sigs := fun m pos => by
                rw [← h.sigs, Table.get?_put]
                split_ifs with he
                · rw [he, hget]
                  rfl
                · rfl }
        · cases other with
          | wildcard m other => exact hput m other
          | _ => simp [holders]

/-! ## All places of a filter -/

theorem enterAll (h : r.Tidy) (sub : Sub) (pls : List IndexPlace) :
    (pls.foldl (fun r pl => enter sub pl r) r).Tidy ∧
      (pls.foldl (fun r pl => enter sub pl r) r).all = r.all ∧
      ∀ other, (pls.foldl (fun r pl => enter sub pl r) r).holders other =
        if other ∈ pls then insert sub (r.holders other) else r.holders other := by
  induction pls generalizing r with
  | nil => exact ⟨h, rfl, fun other => by simp⟩
  | cons pl pls ih =>
    obtain ⟨htidy, hall, hholders⟩ := ih (h.enter pl)
    refine ⟨htidy, hall.trans (all_enter sub pl r), fun other => ?_⟩
    rw [List.foldl_cons, hholders, holders_enter]
    by_cases hpl : other = pl <;> by_cases hmem : other ∈ pls <;> simp [hpl, hmem]

theorem leaveAll (h : r.Tidy) (sub : Sub) (pls : List IndexPlace) :
    ∃ r', pls.foldlM (fun r pl => leave sub pl r) r = .ok r' ∧ r'.Tidy ∧ r'.all = r.all ∧
      ∀ other, r'.holders other =
        if other ∈ pls then (r.holders other).erase sub else r.holders other := by
  induction pls generalizing r with
  | nil => exact ⟨r, rfl, h, rfl, fun other => by simp⟩
  | cons pl pls ih =>
    obtain ⟨r₁, hrun, htidy, hall, hholders⟩ := h.leave sub pl
    obtain ⟨r₂, hrun', htidy', hall', hholders'⟩ := ih htidy
    refine ⟨r₂, ?_, htidy', hall'.trans hall, fun other => ?_⟩
    · rw [List.foldlM_cons, hrun]
      exact hrun'
    · rw [hholders', hholders]
      by_cases hpl : other = pl <;> by_cases hmem : other ∈ pls <;> simp [hpl, hmem]

/-! ## The invariant -/

variable {filterOf : Sub → AnyFilter}

/-- At every place stand the registered subscriptions that have it. -/
structure Exact (filterOf : Sub → AnyFilter) (r : Registry Sub) : Prop where
  tidy : r.Tidy
  holds : ∀ pl s, s ∈ r.holders pl ↔ s ∈ r.all ∧ pl ∈ (filterOf s).places

omit [DecidableEq Sub] in
theorem exact_empty (filterOf : Sub → AnyFilter) : Exact filterOf empty where
  tidy := tidy_empty
  holds pl s := by cases pl <;> simp [empty, holders]

theorem Exact.add (h : Exact filterOf r) (sub : Sub) :
    Exact filterOf (add filterOf sub r) ∧ (add filterOf sub r).all = insert sub r.all := by
  rw [Registry.add]
  split_ifs with hmem
  · exact ⟨h, (Finset.insert_eq_of_mem hmem).symm⟩
  · have htidy : Tidy { r with all := insert sub r.all } := { h.tidy with }
    rw [indexFilter_eq]
    obtain ⟨ht, hall, hholders⟩ := enterAll htidy sub (filterOf sub).places
    refine ⟨⟨ht, fun pl s => ?_⟩, hall⟩
    have hold : ({ r with all := insert sub r.all } : Registry Sub).holders pl = r.holders pl := by
      cases pl <;> rfl
    rw [hholders, hall, hold, Finset.mem_insert]
    by_cases hs : s = sub
    · subst hs
      by_cases hpl : pl ∈ (filterOf s).places
      · simp [hpl]
      · simp [hpl, h.holds]
    · split_ifs
      · rw [Finset.mem_insert, h.holds]
        simp [hs]
      · rw [h.holds]
        simp [hs]

theorem Exact.remove (h : Exact filterOf r) (sub : Sub) :
    ∃ r', remove filterOf sub r = .ok r' ∧ Exact filterOf r' ∧ r'.all = r.all.erase sub := by
  rw [Registry.remove]
  split_ifs with hmem
  · have htidy : Tidy { r with all := r.all.erase sub } := { h.tidy with }
    rw [unindexFilter_eq]
    obtain ⟨r', hrun, ht, hall, hholders⟩ := leaveAll htidy sub (filterOf sub).places
    refine ⟨r', hrun, ⟨ht, fun pl s => ?_⟩, hall⟩
    have hold : ({ r with all := r.all.erase sub } : Registry Sub).holders pl = r.holders pl := by
      cases pl <;> rfl
    rw [hholders, hall, hold, Finset.mem_erase]
    by_cases hs : s = sub
    · subst hs
      by_cases hpl : pl ∈ (filterOf s).places
      · simp [hpl]
      · simp [hpl, h.holds]
    · split_ifs
      · rw [Finset.mem_erase, h.holds]
        simp [hs]
      · rw [h.holds]
        simp [hs]
  · exact ⟨r, rfl, h, (Finset.erase_eq_of_notMem hmem).symm⟩

omit [DecidableEq Sub] in
/-- Where nobody is registered every index is empty. -/
theorem Exact.eq_empty (h : Exact filterOf r) (hall : r.all = ∅) : r = empty := by
  have hnone : ∀ pl, r.holders pl = ∅ := fun pl =>
    Finset.eq_empty_of_forall_notMem fun s hs => by
      rw [h.holds, hall] at hs
      exact Finset.notMem_empty s hs.1
  have hp : r.prefixIndex = ∅ := h.tidy.prefixes.eq_empty fun p => hnone (.prefixOf p)
  have hs : r.suffixIndex = ∅ := h.tidy.suffixes.eq_empty fun p => hnone (.suffixOf p)
  have hl : r.lengthIndex = ∅ := h.tidy.lengths.eq_empty fun n => hnone (.length n)
  have hw : r.wildcardIndex = ∅ := by
    refine Table.ext fun ⟨n, positions⟩ => ?_
    rw [Table.get?_empty]
    cases hget : r.wildcardIndex.get? (n, positions) with
    | none => rfl
    | some byValues =>
      obtain ⟨ht, hne⟩ := h.tidy.wildcards n positions byValues hget
      refine absurd (ht.eq_empty fun values => ?_) hne
      have := hnone (.wildcard n (positions, values))
      rwa [holders, hget, Option.getD_some] at this
  have hsig : r.wildcardSigs = ∅ := by
    refine Table.ext fun n => ?_
    rw [Table.get?_empty]
    cases hget : r.wildcardSigs.get? n with
    | none => rfl
    | some sigs =>
      obtain ⟨a, ha⟩ := List.exists_mem_of_ne_nil _ (h.tidy.sigs_ne_nil n sigs hget)
      have hsome : (sigs.get? a.1).isSome := by
        rw [(PyDict.mem_items sigs a.1 a.2).1 ha]
        rfl
      have := (h.tidy.sigs n a.1).2 ⟨sigs, hget, hsome⟩
      rw [hw, Table.get?_empty] at this
      cases this
  have hc : r.composite = ∅ := hnone .composite
  have hu : r.unindexed = ∅ := hnone .unindexed
  obtain ⟨p, s, l, w, g, c, u, a⟩ := r
  cases hp
  cases hs
  cases hl
  cases hw
  cases hsig
  cases hc
  cases hu
  cases hall
  rfl

end Registry

end Virtuals.Observer
