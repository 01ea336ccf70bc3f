/-
  `canonicalize` as a normal form.

  `simplify` follows the rules of `canonicalize` but drops a member only if it is equal to another
  one. Where its result has no two different members that are written alike (`Clean`), it is the
  canonical form, and this is sound: it matches what the filter matches and is the same for all
  rearranged filters. Otherwise one of the two fails (`sound_iff`). Whatever the filter, `canonicalize`
  is idempotent, rearranged filters have one hash, and a filter is read back from its dict.
-/
import Virtuals.Routing.FromDict
import Virtuals.Routing.Told

namespace Virtuals.Routing

open Lib

namespace Filter

variable {j : Junction} {f g : Filter} {fs gs cs ds : List Filter}

/-! ## Members compared by equality -/

open Classical in
/-- Duplicates are equal members. -/
noncomputable def byEquality : Thinning where
  keep := List.dedup
  subset _ _ h := List.mem_dedup.1 h
  covers _ c h := ⟨c, List.mem_dedup.2 h, rfl⟩

/-- The rules of `canonicalize`, with members compared by equality. -/
noncomputable def simplify (f : Filter) : Filter := rewrite byEquality f

mutual

/-- At every junction members that are written alike are equal. -/
def Clean : Filter → Prop
  | .and fs => CleanAll fs ∧ ClashFree fs
  | .or fs => CleanAll fs ∧ ClashFree fs
  | _ => True

def CleanAll : List Filter → Prop
  | [] => True
  | f :: fs => Clean f ∧ CleanAll fs

end

theorem cleanAll_iff (fs : List Filter) : CleanAll fs ↔ ∀ f ∈ fs, f.Clean := by
  induction fs with
  | nil => simp [CleanAll]
  | cons f fs ih => simp [CleanAll, ih]

theorem clean_combine : (j.combine fs).Clean ↔ (∀ f ∈ fs, f.Clean) ∧ ClashFree fs := by
  rw [← cleanAll_iff]
  cases j <;> rfl

theorem clean_leaf (h : f.isLeaf = true) : f.Clean := by
  cases f <;> trivial

/-- Canonical forms are clean. -/
theorem clean_of_shaped (h : Shaped Ordered f) : f.Clean := by
  induction h with
  | leaf f h _ => exact clean_leaf h
  | combine j fs _ hq _ ih => exact clean_combine.2 ⟨ih, hq.clashFree⟩

/-- Of members that are told apart the same are kept in the same order. -/
theorem kept_byEquality (h : ClashFree cs) : byEquality.kept j cs = byText.kept j cs := by
  classical
  have hsub : ∀ c ∈ byEquality.keep (cs.filter fun c => !j.isIdentity c), c ∈ cs := fun c hc =>
    List.mem_of_mem_filter (byEquality.subset _ c hc)
  have hpair : (byEquality.keep (cs.filter fun c => !j.isIdentity c)).Pairwise
      fun f g => f.sortKey ≠ g.sortKey :=
    (List.nodup_dedup _).imp_of_mem fun hc hd hne hkey => hne (h _ (hsub _ hc) _ (hsub _ hd) hkey)
  refine eq_of_ordered (ordered_sorted hpair) (ordered_kept cs) fun c => ?_
  exact (mem_kept_iff (t := byEquality) h).trans (mem_kept_iff h).symm

theorem close_byEquality (h : ClashFree cs) : byEquality.close j cs = byText.close j cs := by
  by_cases habs : j.absorber ∈ cs
  · rw [close_absorbed habs, close_absorbed habs]
  · rw [close_kept habs, close_kept habs, kept_byEquality h]

theorem absorber_mem_flat_iff :
    j.absorber ∈ flat byEquality j fs ↔ j.absorber ∈ flat byText j fs := by
  have hconst : ∀ f, rewrite byEquality f = j.absorber ↔ rewrite byText f = j.absorber := by
    intro f
    obtain ⟨hall, hnone⟩ := rewrite_const byEquality byText f
    cases j
    · exact hnone
    · exact hall
  rw [absorber_mem_flat, absorber_mem_flat]
  simp only [hconst]

/-- (PROVED) The canonical form of a told filter is the simplified filter. -/
theorem Told.simplify_eq (h : f.Told) : f.simplify = rewrite byText f := by
  rw [simplify]
  induction f using induct_junction with
  | leaf f hf => rw [rewrite_leaf _ hf, rewrite_leaf _ hf]
  | combine j fs ih =>
    rw [rewrite_combine, rewrite_combine]
    obtain habs | ⟨htold, hclash⟩ := told_combine.1 h
    · rw [close_absorbed habs, close_absorbed (absorber_mem_flat_iff.2 habs)]
    · rw [flat_congr fun f hf => ih f hf (htold f hf), close_byEquality hclash]

theorem clean_members (h : ∀ c ∈ j.members f, c.Clean) (hclash : ClashFree (j.members f)) :
    f.Clean := by
  by_cases hj : f.junction = some j
  · obtain ⟨fs, rfl⟩ := combine_of_junction hj
    rw [members_combine] at h hclash
    exact clean_combine.2 ⟨h, hclash⟩
  · rw [members_of_ne hj] at h
    exact h f List.mem_cons_self

/-- What is closed of members is clean only if they are. -/
theorem clean_close (habs : j.absorber ∉ cs) (h : (byEquality.close j cs).Clean) :
    (∀ c ∈ cs, c.Clean) ∧ ClashFree cs := by
  have hkept : ∀ c ∈ cs, c ≠ j.identity → c ∈ byEquality.kept j cs := by
    classical
    exact fun c hc hne =>
      mem_sorted.2 (List.mem_dedup.2 (List.mem_filter.2 ⟨hc, not_isIdentity_iff.2 hne⟩))
  have hall : (∀ c ∈ byEquality.kept j cs, c.Clean) ∧ ClashFree (byEquality.kept j cs) := by
    rw [close_kept habs] at h
    generalize byEquality.kept j cs = ds at h
    match ds with
    | [] => exact ⟨nofun, nofun⟩
    | [d] =>
      refine ⟨fun c hc => List.mem_singleton.1 hc ▸ h, fun c hc d hd _ => ?_⟩
      rw [List.mem_singleton.1 hc, List.mem_singleton.1 hd]
    | d :: e :: ds => exact clean_combine.1 h
  refine ⟨fun c hc => ?_, hall.2.of_subset hkept⟩
  by_cases hid : c = j.identity
  · exact hid ▸ clean_leaf (by cases j <;> rfl)
  · exact hall.1 c (hkept c hc hid)

/-- (PROVED) A filter is told just where the simplified filter is clean. -/
theorem told_iff_clean : f.Told ↔ f.simplify.Clean := by
  refine ⟨fun h => h.simplify_eq ▸ clean_of_shaped (shaped_byText f), fun h => ?_⟩
  induction f using induct_junction with
  | leaf f hf => exact told_leaf hf
  | combine j fs ih =>
    rw [told_combine]
    refine or_iff_not_imp_left.2 fun habs => ?_
    rw [simplify, rewrite_combine] at h
    obtain ⟨hclean, hclash⟩ := clean_close (mt absorber_mem_flat_iff.1 habs) h
    have htold : ∀ f ∈ fs, f.Told := fun f hf => ih f hf <|
      clean_members (j := j) (fun c hc => hclean c (mem_flat.2 ⟨f, hf, hc⟩))
        (hclash.of_subset (j := j) fun c hc _ => mem_flat.2 ⟨f, hf, hc⟩)
    have hflat : flat byEquality j fs = flat byText j fs :=
      flat_congr fun f hf => (htold f hf).simplify_eq
    exact ⟨htold, hflat ▸ hclash⟩

/-! ## Soundness -/

/-- What a normal form of filters promises of a filter. -/
structure Sound {Digest : Type} (sha256 : List Char → Digest) (f : Filter) : Prop where
  matches_eq : ∀ key, f.canonicalize.matchesKey key = f.matchesKey key
  idempotent : f.canonicalize.canonicalize = f.canonicalize
  rearranged : ∀ g, Rearranged f g →
    f.canonicalize = g.canonicalize ∧ filterHash sha256 f = filterHash sha256 g
  readBack : filterFromDict f.toDict = .ok f

/-- Two prefixes, a surrogate pair spelled as two code points and the code point it stands for. -/
def spelledTwice : Filter :=
  .or [.prefixFilter [some (.str [0xD83D, 0xDE00])], .prefixFilter [some (.str [0x1F600])]]

theorem not_sound_spelledTwice : ¬ Sound id spelledTwice := by
  intro h
  have hkey : sortKey (.prefixFilter [some (.str [0xD83D, 0xDE00])]) =
      sortKey (.prefixFilter [some (.str [0x1F600])]) := by decide
  have hcanon : spelledTwice.canonicalize = .prefixFilter [some (.str [0xD83D, 0xDE00])] := by
    simp [spelledTwice, canonicalize, canonicalizeAll, membersOr, isPassAll, isPassNone, dedup, hkey,
      sorted, collapse]
  have hm := h.matches_eq [.str [0x1F600]]
  rw [hcanon] at hm
  exact absurd hm (by decide)

/-- (PROVED) The canonical form of a filter is sound just where the simplified filter is clean. -/
theorem sound_iff {Digest : Type} (sha256 : List Char → Digest) (f : Filter) :
    Sound sha256 f ↔ f.simplify.Clean := by
  rw [← told_iff_clean]
  constructor
  · intro h
    refine told_of_rearranged fun g hg => ?_
    rw [← canonicalize_eq_rewrite, ← canonicalize_eq_rewrite]
    exact (h.rearranged g hg).1
  · intro h
    exact
      { matches_eq := fun key => by rw [canonicalize_eq_rewrite, matches_rewrite h]
        idempotent := canonicalize_canonicalize f
        rearranged := fun g hg => ⟨by
          rw [canonicalize_eq_rewrite, canonicalize_eq_rewrite, hg.told.2 h],
          filterHash_rearranged sha256 hg⟩
        readBack := filterFromDict_toDict f }

end Filter

end Virtuals.Routing
