/-
  And and Or at once, and the shape of what `canonicalize` returns.

  `canonicalize` treats And and Or alike but for their identity and their absorber, so they are one
  `Junction` here. What it drops as a duplicate is a parameter (`Thinning`): the code compares texts
  (`byText`). A rewritten filter is `Shaped`: at every junction two members or more, none of them a
  junction of the same kind, an identity or an absorber. A shaped filter whose members stand in the
  order of their texts is its own canonical form, so `canonicalize` is idempotent.
-/
import Virtuals.Routing.Canonical
import Mathlib.Data.List.Dedup

namespace Virtuals.Routing

open Lib

namespace Filter

/-! ## Junctions -/

/-- And or Or. -/
inductive Junction
  | conj
  | disj

namespace Junction

def combine : Junction → List Filter → Filter
  | .conj => .and
  | .disj => .or

/-- The member that changes nothing. -/
def identity : Junction → Filter
  | .conj => .passAll
  | .disj => .passNone

/-- The member that decides. -/
def absorber : Junction → Filter
  | .conj => .passNone
  | .disj => .passAll

def members : Junction → Filter → List Filter
  | .conj => membersAnd
  | .disj => membersOr

def isIdentity : Junction → Filter → Bool
  | .conj => isPassAll
  | .disj => isPassNone

def isAbsorber : Junction → Filter → Bool
  | .conj => isPassNone
  | .disj => isPassAll

end Junction

/-- The junction that a filter is. -/
def junction : Filter → Option Junction
  | .and _ => some .conj
  | .or _ => some .disj
  | _ => none

variable {j : Junction} {f : Filter} {fs : List Filter}

@[simp] theorem junction_combine (j : Junction) (fs : List Filter) :
    (j.combine fs).junction = some j := by cases j <;> rfl

theorem combine_of_junction (h : f.junction = some j) : ∃ fs, f = j.combine fs := by
  cases f with
  | and fs =>
    obtain rfl := Option.some.inj h
    exact ⟨fs, rfl⟩
  | or fs =>
    obtain rfl := Option.some.inj h
    exact ⟨fs, rfl⟩
  | _ => cases h

theorem combine_injective (j : Junction) : Function.Injective j.combine := by
  cases j
  · exact fun _ _ h => Filter.and.inj h
  · exact fun _ _ h => Filter.or.inj h

@[simp] theorem members_combine (j : Junction) (fs : List Filter) :
    j.members (j.combine fs) = fs := by cases j <;> rfl

theorem members_of_ne (h : f.junction ≠ some j) : j.members f = [f] := by
  cases j <;> cases f <;> first | rfl | exact absurd rfl h

@[simp] theorem isIdentity_iff : j.isIdentity f = true ↔ f = j.identity := by
  cases j
  · exact isPassAll_iff
  · exact isPassNone_iff

theorem not_isIdentity_iff : (!j.isIdentity f) = true ↔ f ≠ j.identity := by
  rw [Bool.not_eq_true', Bool.eq_false_iff, Ne, isIdentity_iff]

@[simp] theorem isAbsorber_iff : j.isAbsorber f = true ↔ f = j.absorber := by
  cases j
  · exact isPassNone_iff
  · exact isPassAll_iff

@[simp] theorem junction_identity (j : Junction) : j.identity.junction = none := by cases j <;> rfl

@[simp] theorem junction_absorber (j : Junction) : j.absorber.junction = none := by cases j <;> rfl

theorem absorber_ne_identity (j : Junction) : j.absorber ≠ j.identity := by cases j <;> nofun

/-- Cases of a filter: a leaf, or a junction of smaller filters. -/
theorem induct_junction {P : Filter → Prop} (leaf : ∀ f, f.isLeaf = true → P f)
    (combine : ∀ (j : Junction) fs, (∀ f ∈ fs, P f) → P (j.combine fs)) (f : Filter) : P f := by
  induction f using induct with
  | and fs ih => exact combine .conj fs ih
  | or fs ih => exact combine .disj fs ih
  | _ => exact leaf _ rfl

theorem junction_of_isLeaf (h : f.isLeaf = true) : f.junction = none := by
  cases f <;> first | rfl | cases h

/-! ## Rewriting -/

/-- What duplicates are: members with the text of another member. -/
structure Thinning where
  keep : List Filter → List Filter
  subset : ∀ cs, ∀ c ∈ keep cs, c ∈ cs
  covers : ∀ cs, ∀ c ∈ cs, ∃ d ∈ keep cs, d.sortKey = c.sortKey

/-- A leaf simplified. -/
def leafForm : Filter → Filter
  | .prefixFilter s => if s = [] then .passAll else .prefixFilter s
  | .suffixFilter s => if s = [] then .passAll else .suffixFilter s
  | .wildcardFilter pattern =>
    if (pattern.all fun s => decide (s = WILDCARD)) = true then .lengthFilter pattern.length
    else .wildcardFilter pattern
  | f => f

/-- The members that are kept. -/
def Thinning.kept (t : Thinning) (j : Junction) (cs : List Filter) : List Filter :=
  sorted (t.keep (cs.filter fun c => !j.isIdentity c))

/-- A junction of flattened members. -/
def Thinning.close (t : Thinning) (j : Junction) (cs : List Filter) : Filter :=
  if cs.any j.isAbsorber = true then j.absorber else collapse j.combine j.identity (t.kept j cs)

mutual

/-- The rules of `canonicalize`. -/
def rewrite (t : Thinning) : Filter → Filter
  | .and fs => t.close .conj ((rewriteAll t fs).flatMap (Junction.members .conj))
  | .or fs => t.close .disj ((rewriteAll t fs).flatMap (Junction.members .disj))
  | f => leafForm f

def rewriteAll (t : Thinning) : List Filter → List Filter
  | [] => []
  | f :: fs => rewrite t f :: rewriteAll t fs

end

theorem rewriteAll_eq (t : Thinning) (fs : List Filter) : rewriteAll t fs = fs.map (rewrite t) := by
  induction fs with
  | nil => rfl
  | cons f fs ih => rw [rewriteAll, ih, List.map_cons]

/-- The flattened members of a junction. -/
def flat (t : Thinning) (j : Junction) (fs : List Filter) : List Filter :=
  (fs.map (rewrite t)).flatMap j.members

theorem mem_flat {t : Thinning} {c : Filter} :
    c ∈ flat t j fs ↔ ∃ f ∈ fs, c ∈ j.members (rewrite t f) := by
  simp [flat]

theorem flat_congr {t t' : Thinning} (h : ∀ f ∈ fs, rewrite t f = rewrite t' f) :
    flat t j fs = flat t' j fs := by
  rw [flat, flat, List.map_congr_left h]

theorem rewrite_combine (t : Thinning) (j : Junction) (fs : List Filter) :
    rewrite t (j.combine fs) = t.close j (flat t j fs) := by
  cases j
  · rw [Junction.combine, rewrite, rewriteAll_eq, flat]
  · rw [Junction.combine, rewrite, rewriteAll_eq, flat]

theorem rewrite_leaf (t : Thinning) (h : f.isLeaf = true) : rewrite t f = leafForm f := by
  cases f <;> first | rfl | cases h

/-- Duplicates are members with the same text. -/
def byText : Thinning where
  keep := dedup []
  subset _ _ h := mem_of_mem_dedup h
  covers _ _ h := exists_mem_dedup h (by simp)

theorem canonicalize_eq_rewrite (f : Filter) : f.canonicalize = rewrite byText f := by
  induction f using induct with
  | and fs ih =>
    rw [canonicalize, rewrite, canonicalizeAll_eq, rewriteAll_eq, List.map_congr_left ih]
    rfl
  | or fs ih =>
    rw [canonicalize, rewrite, canonicalizeAll_eq, rewriteAll_eq, List.map_congr_left ih]
    rfl
  | _ => rfl

/-! ## The shape of a rewritten filter -/

theorem mem_kept {t : Thinning} {cs : List Filter} {c : Filter} (h : c ∈ t.kept j cs) :
    c ∈ cs ∧ c ≠ j.identity := by
  have hmem := List.mem_filter.1 (t.subset _ c (mem_sorted.1 h))
  exact ⟨hmem.1, not_isIdentity_iff.1 hmem.2⟩

theorem exists_kept {t : Thinning} {cs : List Filter} {c : Filter} (h : c ∈ cs)
    (hne : c ≠ j.identity) : ∃ d ∈ t.kept j cs, d.sortKey = c.sortKey := by
  have hmem : c ∈ cs.filter fun c => !j.isIdentity c :=
    List.mem_filter.2 ⟨h, not_isIdentity_iff.2 hne⟩
  obtain ⟨d, hd, hkey⟩ := t.covers _ c hmem
  exact ⟨d, mem_sorted.2 hd, hkey⟩

theorem close_absorbed {t : Thinning} {cs : List Filter} (h : j.absorber ∈ cs) :
    t.close j cs = j.absorber := by
  rw [Thinning.close, if_pos]
  exact List.any_eq_true.2 ⟨_, h, isAbsorber_iff.2 rfl⟩

theorem close_kept {t : Thinning} {cs : List Filter} (h : j.absorber ∉ cs) :
    t.close j cs = collapse j.combine j.identity (t.kept j cs) := by
  rw [Thinning.close, if_neg]
  intro hany
  obtain ⟨c, hc, habs⟩ := List.any_eq_true.1 hany
  exact h (isAbsorber_iff.1 habs ▸ hc)

/-- What holds of the members of a junction that was rewritten. -/
structure Joined (j : Junction) (fs : List Filter) : Prop where
  two : 2 ≤ fs.length
  apart : ∀ f ∈ fs, f.junction ≠ some j
  noIdentity : j.identity ∉ fs
  noAbsorber : j.absorber ∉ fs

/-- At every junction the members are joined, and `Q` holds of them. -/
inductive Shaped (Q : List Filter → Prop) : Filter → Prop
  | leaf (f : Filter) (h : f.isLeaf = true) (hform : leafForm f = f) : Shaped Q f
  | combine (j : Junction) (fs : List Filter) (h : Joined j fs) (hq : Q fs)
    (hall : ∀ f ∈ fs, Shaped Q f) : Shaped Q (j.combine fs)

variable {Q : List Filter → Prop} {t : Thinning}

theorem shaped_identity (j : Junction) : Shaped Q j.identity := by
  cases j <;> exact .leaf _ rfl rfl

theorem shaped_absorber (j : Junction) : Shaped Q j.absorber := by
  cases j <;> exact .leaf _ rfl rfl

theorem shaped_leafForm (h : f.isLeaf = true) : Shaped Q (leafForm f) := by
  cases f with
  | prefixFilter s =>
    by_cases hs : s = []
    · rw [show leafForm (.prefixFilter s) = .passAll from if_pos hs]
      exact .leaf _ rfl rfl
    · rw [show leafForm (.prefixFilter s) = .prefixFilter s from if_neg hs]
      exact .leaf _ rfl (if_neg hs)
  | suffixFilter s =>
    by_cases hs : s = []
    · rw [show leafForm (.suffixFilter s) = .passAll from if_pos hs]
      exact .leaf _ rfl rfl
    · rw [show leafForm (.suffixFilter s) = .suffixFilter s from if_neg hs]
      exact .leaf _ rfl (if_neg hs)
  | wildcardFilter pattern =>
    by_cases hs : (pattern.all fun s => decide (s = WILDCARD)) = true
    · rw [show leafForm (.wildcardFilter pattern) = .lengthFilter pattern.length from if_pos hs]
      exact .leaf _ rfl rfl
    · rw [show leafForm (.wildcardFilter pattern) = .wildcardFilter pattern from if_neg hs]
      exact .leaf _ rfl (if_neg hs)
  | and fs => cases h
  | or fs => cases h
  | _ => exact .leaf _ rfl rfl

theorem Shaped.of_combine (h : Shaped Q (j.combine fs)) :
    Joined j fs ∧ Q fs ∧ ∀ f ∈ fs, Shaped Q f := by
  generalize hg : j.combine fs = g at h
  cases h with
  | leaf _ hleaf _ =>
    have hj := junction_of_isLeaf hleaf
    rw [← hg, junction_combine] at hj
    cases hj
  | combine j' fs' hjoined hq hall =>
    have hj := congrArg junction hg
    rw [junction_combine, junction_combine] at hj
    obtain rfl := Option.some.inj hj
    obtain rfl := combine_injective _ hg
    exact ⟨hjoined, hq, hall⟩

/-- The members put in place of a shaped filter are shaped and are no junction of that kind. -/
theorem Shaped.members (h : Shaped Q f) (j : Junction) :
    ∀ c ∈ j.members f, Shaped Q c ∧ c.junction ≠ some j := by
  by_cases hj : f.junction = some j
  · obtain ⟨fs, rfl⟩ := combine_of_junction hj
    obtain ⟨hjoined, -, hall⟩ := h.of_combine
    rw [members_combine]
    exact fun c hc => ⟨hall c hc, hjoined.apart c hc⟩
  · rw [members_of_ne hj]
    intro c hc
    obtain rfl := List.mem_singleton.1 hc
    exact ⟨h, hj⟩

theorem shaped_flat (h : ∀ f ∈ fs, Shaped Q (rewrite t f)) (j : Junction) :
    ∀ c ∈ flat t j fs, Shaped Q c ∧ c.junction ≠ some j := by
  intro c hc
  obtain ⟨f, hf, hc⟩ := mem_flat.1 hc
  exact (h f hf).members j c hc

/-- What is closed of shaped members. -/
theorem shaped_close (hQ : ∀ cs, Q (sorted (t.keep cs))) {cs : List Filter}
    (h : ∀ c ∈ cs, Shaped Q c ∧ c.junction ≠ some j) : Shaped Q (t.close j cs) := by
  by_cases habs : j.absorber ∈ cs
  · rw [close_absorbed habs]
    exact shaped_absorber j
  · rw [close_kept habs]
    have hkept : ∀ c ∈ t.kept j cs, c ∈ cs ∧ c ≠ j.identity := fun c hc => mem_kept hc
    have hq : Q (t.kept j cs) := hQ _
    generalize t.kept j cs = ds at hkept hq
    match ds with
    | [] => exact shaped_identity j
    | [d] => exact (h d (hkept d List.mem_cons_self).1).1
    | d :: e :: ds =>
      refine .combine j _ ⟨by simp, fun c hc => (h c (hkept c hc).1).2, fun hid => ?_, fun hid => ?_⟩
        hq fun c hc => (h c (hkept c hc).1).1
      · exact (hkept _ hid).2 rfl
      · exact habs (hkept _ hid).1

/-- (PROVED) A rewritten filter is shaped. -/
theorem shaped_rewrite (hQ : ∀ cs, Q (sorted (t.keep cs))) (f : Filter) : Shaped Q (rewrite t f) := by
  induction f using induct_junction with
  | leaf f h =>
    rw [rewrite_leaf t h]
    exact shaped_leafForm h
  | combine j fs ih =>
    rw [rewrite_combine]
    exact shaped_close hQ (shaped_flat ih j)

/-! ## Canonical forms stay as they are -/

/-- Members in the order of their texts, each text once. -/
def Ordered (fs : List Filter) : Prop := fs.Pairwise fun f g => f.sortKey < g.sortKey

theorem dedup_nodup (seen : List (List Char)) (fs : List Filter) :
    (dedup seen fs).Pairwise (fun f g => f.sortKey ≠ g.sortKey) ∧
      ∀ f ∈ dedup seen fs, f.sortKey ∉ seen := by
  induction fs generalizing seen with
  | nil => exact ⟨List.Pairwise.nil, nofun⟩
  | cons c cs ih =>
    rw [dedup]
    split_ifs with hc
    · exact ih seen
    · obtain ⟨hpair, hseen⟩ := ih (c.sortKey :: seen)
      refine ⟨hpair.cons fun g hg he => hseen g hg (he ▸ List.mem_cons_self), fun f hf => ?_⟩
      obtain rfl | hf := List.mem_cons.1 hf
      · exact hc
      · exact fun hmem => hseen f hf (List.mem_cons_of_mem _ hmem)

theorem pairwise_sorted (fs : List Filter) :
    (sorted fs).Pairwise fun f g => f.sortKey ≤ g.sortKey := by
  have : Std.Total fun f g : Filter => f.sortKey ≤ g.sortKey :=
    ⟨fun f g => le_total f.sortKey g.sortKey⟩
  have : IsTrans Filter fun f g => f.sortKey ≤ g.sortKey := ⟨fun _ _ _ h h' => le_trans h h'⟩
  exact List.pairwise_insertionSort _ fs

theorem sorted_of_ordered {fs : List Filter} (h : Ordered fs) : sorted fs = fs :=
  (h.imp fun h => le_of_lt h).insertionSort_eq

theorem ordered_sorted {fs : List Filter}
    (h : fs.Pairwise fun f g => f.sortKey ≠ g.sortKey) : Ordered (sorted fs) := by
  have hne : (sorted fs).Pairwise fun f g => f.sortKey ≠ g.sortKey :=
    (List.perm_insertionSort _ fs).symm.pairwise h fun h => Ne.symm h
  exact ((pairwise_sorted fs).and hne).imp fun ⟨hle, hne⟩ => lt_of_le_of_ne hle hne

theorem dedup_of_ordered {fs : List Filter} (seen : List (List Char))
    (h : fs.Pairwise fun f g => f.sortKey ≠ g.sortKey) (hseen : ∀ f ∈ fs, f.sortKey ∉ seen) :
    dedup seen fs = fs := by
  induction fs generalizing seen with
  | nil => rfl
  | cons f fs ih =>
    rw [List.pairwise_cons] at h
    rw [dedup, if_neg (hseen f List.mem_cons_self), ih _ h.2]
    intro g hg hmem
    obtain he | hmem := List.mem_cons.1 hmem
    · exact h.1 g hg he.symm
    · exact hseen g (List.mem_cons_of_mem _ hg) hmem

theorem collapse_two {combine : List Filter → Filter} {identity : Filter} (h : 2 ≤ fs.length) :
    collapse combine identity fs = combine fs := by
  match fs with
  | [] => simp at h
  | [f] => simp at h
  | _ :: _ :: _ => rfl

theorem close_of_joined (hjoined : Joined j fs) (hq : Ordered fs) :
    byText.close j fs = j.combine fs := by
  have hfilter : fs.filter (fun c => !j.isIdentity c) = fs :=
    List.filter_eq_self.2 fun c hc => not_isIdentity_iff.2 fun he => hjoined.noIdentity (he ▸ hc)
  have hne : fs.Pairwise fun f g => f.sortKey ≠ g.sortKey := List.Pairwise.imp ne_of_lt hq
  have hkeep : byText.keep fs = fs := dedup_of_ordered [] hne (by simp)
  rw [close_kept hjoined.noAbsorber, Thinning.kept, hfilter, hkeep, sorted_of_ordered hq,
    collapse_two hjoined.two]

/-- (PROVED) A shaped filter with ordered members is its own canonical form. -/
theorem Shaped.rewrite_eq (h : Shaped Ordered f) : rewrite byText f = f := by
  induction h with
  | leaf f h hform => rw [rewrite_leaf byText h, hform]
  | combine j fs hjoined hq _ ih =>
    have hflat : flat byText j fs = fs := by
      rw [flat, List.map_congr_left ih, List.map_id']
      exact (List.flatMap_congr fun f hf => members_of_ne (hjoined.apart f hf)).trans
        (List.flatMap_singleton' fs)
    rw [rewrite_combine, hflat, close_of_joined hjoined hq]

theorem shaped_canonicalize (f : Filter) : Shaped Ordered f.canonicalize := by
  rw [canonicalize_eq_rewrite]
  exact shaped_rewrite (fun cs => ordered_sorted (dedup_nodup [] cs).1) f

/-- (PROVED) `canonicalize` is idempotent. -/
theorem canonicalize_canonicalize (f : Filter) : f.canonicalize.canonicalize = f.canonicalize := by
  rw [canonicalize_eq_rewrite f.canonicalize]
  exact (shaped_canonicalize f).rewrite_eq

end Filter

end Virtuals.Routing
