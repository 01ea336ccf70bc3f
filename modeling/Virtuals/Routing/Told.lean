/-
  When the canonical form is sound.

  `canonicalize` compares members by their texts. A filter is `Told` if at no junction that is not
  absorbed two different members have one text. A told filter has a canonical form that matches what
  the filter matches, and rearranged filters have the same. Of a filter that is not told a rearranged
  one has another canonical form.
-/
import Virtuals.Routing.Rearranged
import Mathlib.Data.List.Pairwise

namespace Virtuals.Routing

open Lib

namespace Filter

variable {j : Junction} {f g : Filter} {fs gs cs ds : List Filter} {t : Thinning}

/-! ## Members told apart -/

/-- Members with one text are equal. -/
def ClashFree (cs : List Filter) : Prop := ∀ c ∈ cs, ∀ d ∈ cs, c.sortKey = d.sortKey → c = d

theorem Ordered.clashFree (h : Ordered cs) : ClashFree cs := by
  intro c hc d hd hkey
  by_contra hne
  have : Std.Symm fun f g : Filter => f.sortKey ≠ g.sortKey := ⟨fun _ _ h => Ne.symm h⟩
  have hpair : cs.Pairwise fun f g => f.sortKey ≠ g.sortKey := List.Pairwise.imp ne_of_lt h
  exact hpair.forall hc hd hne hkey

theorem ClashFree.of_subset (h : ClashFree ds) (hsub : ∀ c ∈ cs, c ≠ j.identity → c ∈ ds) :
    ClashFree cs := by
  intro c hc d hd hkey
  by_cases hci : c = j.identity
  · rw [hci] at hkey ⊢
    exact (eq_identity_of_sortKey hkey.symm).symm
  · have hdi : d ≠ j.identity := fun he => hci (eq_identity_of_sortKey (he ▸ hkey))
    exact h c (hsub c hc hci) d (hsub d hd hdi) hkey

mutual

/-- At no junction that is not absorbed two different members have one text. -/
def Told : Filter → Prop
  | .and fs => Junction.absorber .conj ∈ flat byText .conj fs ∨
      ToldAll fs ∧ ClashFree (flat byText .conj fs)
  | .or fs => Junction.absorber .disj ∈ flat byText .disj fs ∨
      ToldAll fs ∧ ClashFree (flat byText .disj fs)
  | _ => True

def ToldAll : List Filter → Prop
  | [] => True
  | f :: fs => Told f ∧ ToldAll fs

end

theorem toldAll_iff (fs : List Filter) : ToldAll fs ↔ ∀ f ∈ fs, f.Told := by
  induction fs with
  | nil => simp [ToldAll]
  | cons f fs ih => simp [ToldAll, ih]

theorem told_combine : (j.combine fs).Told ↔ j.absorber ∈ flat byText j fs ∨
    (∀ f ∈ fs, f.Told) ∧ ClashFree (flat byText j fs) := by
  rw [← toldAll_iff]
  cases j <;> rfl

theorem told_leaf (h : f.isLeaf = true) : f.Told := by
  cases f <;> trivial

/-- Of members that are told apart all are kept. -/
theorem mem_kept_iff (h : ClashFree cs) {c : Filter} :
    c ∈ t.kept j cs ↔ c ∈ cs ∧ c ≠ j.identity := by
  refine ⟨mem_kept, fun ⟨hc, hne⟩ => ?_⟩
  obtain ⟨d, hd, hkey⟩ := exists_kept (t := t) hc hne
  exact h d (mem_kept hd).1 c hc hkey ▸ hd

/-- What is closed of members that are told apart depends on what they are. -/
theorem close_congr (h : ClashFree cs) (hmem : ∀ c, c ≠ j.identity → (c ∈ cs ↔ c ∈ ds)) :
    byText.close j cs = byText.close j ds := by
  have hds : ClashFree ds := h.of_subset fun c hc hne => (hmem c hne).2 hc
  have habs := hmem j.absorber (absorber_ne_identity j)
  by_cases hc : j.absorber ∈ cs
  · rw [close_absorbed hc, close_absorbed (habs.1 hc)]
  · have hkept : byText.kept j cs = byText.kept j ds := by
      refine eq_of_ordered (ordered_kept cs) (ordered_kept ds) fun c => ?_
      rw [mem_kept_iff h, mem_kept_iff hds]
      exact and_congr_left fun hne => hmem c hne
    rw [close_kept hc, close_kept (mt habs.2 hc), hkept]

/-! ## Results that are constant -/

theorem junction_collapse (j : Junction) (d e : Filter) (ds : List Filter) :
    (collapse j.combine j.identity (d :: e :: ds)).junction = some j := junction_combine j _

/-- Only a member that decides makes a junction its absorber. -/
theorem close_eq_absorber : t.close j cs = j.absorber ↔ j.absorber ∈ cs := by
  refine ⟨fun h => ?_, close_absorbed⟩
  by_contra hno
  rw [close_kept hno] at h
  have hkept : ∀ c ∈ t.kept j cs, c ∈ cs := fun c hc => (mem_kept hc).1
  generalize t.kept j cs = ds at h hkept
  match ds with
  | [] => exact absorber_ne_identity j h.symm
  | [d] => exact hno (h ▸ hkept d List.mem_cons_self)
  | d :: e :: ds =>
    have hj := junction_collapse j d e ds
    rw [h, junction_absorber] at hj
    cases hj

/-- A junction is its identity if all members are. -/
theorem close_eq_identity : t.close j cs = j.identity ↔ ∀ c ∈ cs, c = j.identity := by
  by_cases habs : j.absorber ∈ cs
  · rw [close_absorbed habs]
    exact iff_of_false (absorber_ne_identity j) fun h => absorber_ne_identity j (h _ habs)
  · rw [close_kept habs]
    constructor
    · intro h c hc
      by_contra hne
      have hkept : ∀ c ∈ t.kept j cs, c ≠ j.identity := fun c hc => (mem_kept hc).2
      obtain ⟨d, hd, -⟩ := exists_kept (t := t) hc hne
      generalize t.kept j cs = ds at h hkept hd
      match ds with
      | [d] => exact hkept d List.mem_cons_self h
      | d :: e :: ds =>
        have hj := junction_collapse j d e ds
        rw [h, junction_identity] at hj
        cases hj
    · intro h
      have hnil : t.kept j cs = [] :=
        List.eq_nil_iff_forall_not_mem.2 fun c hc => (mem_kept hc).2 (h c (mem_kept hc).1)
      rw [hnil]
      rfl

theorem joined_members (h : Shaped (fun _ => True) f) (hj : f.junction = some j) :
    Joined j (j.members f) := by
  obtain ⟨fs, rfl⟩ := combine_of_junction hj
  rw [members_combine]
  exact h.of_combine.1

theorem shaped_any (t : Thinning) (f : Filter) : Shaped (fun _ => True) (rewrite t f) :=
  shaped_rewrite (fun _ => trivial) f

theorem absorber_mem_members : j.absorber ∈ j.members (rewrite t f) ↔ rewrite t f = j.absorber := by
  by_cases hj : (rewrite t f).junction = some j
  · refine iff_of_false (joined_members (shaped_any t f) hj).noAbsorber fun h => ?_
    rw [h, junction_absorber] at hj
    cases hj
  · rw [members_of_ne hj, List.mem_singleton]
    exact eq_comm

theorem members_all_identity :
    (∀ c ∈ j.members (rewrite t f), c = j.identity) ↔ rewrite t f = j.identity := by
  by_cases hj : (rewrite t f).junction = some j
  · obtain ⟨htwo, -, hno, -⟩ := joined_members (shaped_any t f) hj
    refine iff_of_false (fun h => ?_) fun h => ?_
    · obtain ⟨c, hc⟩ := List.exists_mem_of_length_pos (by omega : 0 < (j.members (rewrite t f)).length)
      exact hno (h c hc ▸ hc)
    · rw [h, junction_identity] at hj
      cases hj
  · rw [members_of_ne hj]
    simp

theorem absorber_mem_flat : j.absorber ∈ flat t j fs ↔ ∃ f ∈ fs, rewrite t f = j.absorber := by
  rw [mem_flat]
  simp only [absorber_mem_members]

theorem rewrite_eq_absorber :
    rewrite t (j.combine fs) = j.absorber ↔ ∃ f ∈ fs, rewrite t f = j.absorber := by
  rw [rewrite_combine, close_eq_absorber, absorber_mem_flat]

theorem rewrite_eq_identity :
    rewrite t (j.combine fs) = j.identity ↔ ∀ f ∈ fs, rewrite t f = j.identity := by
  rw [rewrite_combine, close_eq_identity]
  simp only [mem_flat, ← members_all_identity (j := j)]
  exact ⟨fun h f hf c hc => h c ⟨f, hf, hc⟩, fun h c ⟨f, hf, hc⟩ => h f hf c hc⟩

/-- Which filters become constant does not depend on what duplicates are. -/
theorem rewrite_const (t t' : Thinning) (f : Filter) :
    (rewrite t f = .passAll ↔ rewrite t' f = .passAll) ∧
      (rewrite t f = .passNone ↔ rewrite t' f = .passNone) := by
  induction f using induct_junction with
  | leaf f h => rw [rewrite_leaf t h, rewrite_leaf t' h]; exact ⟨.rfl, .rfl⟩
  | combine j fs ih =>
    have hid : (∀ f ∈ fs, (rewrite t f = j.identity ↔ rewrite t' f = j.identity)) := by
      cases j
      · exact fun f hf => (ih f hf).1
      · exact fun f hf => (ih f hf).2
    have habs : (∀ f ∈ fs, (rewrite t f = j.absorber ↔ rewrite t' f = j.absorber)) := by
      cases j
      · exact fun f hf => (ih f hf).2
      · exact fun f hf => (ih f hf).1
    have hid' : rewrite t (j.combine fs) = j.identity ↔ rewrite t' (j.combine fs) = j.identity := by
      rw [rewrite_eq_identity, rewrite_eq_identity]
      exact forall₂_congr hid
    have habs' : rewrite t (j.combine fs) = j.absorber ↔ rewrite t' (j.combine fs) = j.absorber := by
      rw [rewrite_eq_absorber, rewrite_eq_absorber]
      exact exists_congr fun f => and_congr_right fun hf => habs f hf
    cases j
    · exact ⟨hid', habs'⟩
    · exact ⟨habs', hid'⟩

/-- A filter that becomes constant is told. -/
theorem told_of_const (h : rewrite byText f = .passAll ∨ rewrite byText f = .passNone) : f.Told := by
  induction f using induct_junction with
  | leaf f hf => exact told_leaf hf
  | combine j fs ih =>
    have hcase : rewrite byText (j.combine fs) = j.absorber ∨
        rewrite byText (j.combine fs) = j.identity := by
      cases j
      · exact h.symm
      · exact h
    rw [told_combine]
    obtain h | h := hcase
    · rw [rewrite_combine, close_eq_absorber] at h
      exact .inl h
    · have hall := rewrite_eq_identity.1 h
      rw [rewrite_combine, close_eq_identity] at h
      refine .inr ⟨fun f hf => ih f hf ?_, fun c hc d hd _ => (h c hc).trans (h d hd).symm⟩
      have hf := hall f hf
      cases j
      · exact .inl hf
      · exact .inr hf

/-! ## What the canonical form of a told filter matches -/

/-- What a junction matches when all its members do. -/
def Junction.neutral : Junction → Bool
  | .conj => true
  | .disj => false

theorem matches_combine (j : Junction) (fs : List Filter) (key : Key) :
    (j.combine fs).matchesKey key = j.neutral ↔ ∀ f ∈ fs, f.matchesKey key = j.neutral := by
  cases j with
  | conj => exact matches_and fs key
  | disj =>
    show (Filter.or fs).matchesKey key = false ↔ ∀ f ∈ fs, f.matchesKey key = false
    rw [Bool.eq_false_iff, Ne, matches_or]
    simp

theorem matches_identity (j : Junction) (key : Key) : j.identity.matchesKey key = j.neutral := by
  cases j <;> rfl

theorem matches_absorber (j : Junction) (key : Key) : j.absorber.matchesKey key ≠ j.neutral := by
  cases j <;> nofun

theorem matches_members (j : Junction) (f : Filter) (key : Key) :
    f.matchesKey key = j.neutral ↔ ∀ c ∈ j.members f, c.matchesKey key = j.neutral := by
  by_cases hj : f.junction = some j
  · obtain ⟨fs, rfl⟩ := combine_of_junction hj
    rw [members_combine, matches_combine]
  · rw [members_of_ne hj]
    simp

theorem matches_collapse (j : Junction) (cs : List Filter) (key : Key) :
    (collapse j.combine j.identity cs).matchesKey key = j.neutral ↔
      ∀ c ∈ cs, c.matchesKey key = j.neutral := by
  match cs with
  | [] => simpa [collapse] using matches_identity j key
  | [c] => simp [collapse]
  | c :: d :: cs => exact matches_combine j _ key

theorem matches_close (h : ClashFree cs) (key : Key) :
    (t.close j cs).matchesKey key = j.neutral ↔ ∀ c ∈ cs, c.matchesKey key = j.neutral := by
  by_cases habs : j.absorber ∈ cs
  · rw [close_absorbed habs]
    exact iff_of_false (matches_absorber j key) fun h => matches_absorber j key (h _ habs)
  · rw [close_kept habs, matches_collapse]
    refine ⟨fun hall c hc => ?_, fun hall c hc => hall c (mem_kept hc).1⟩
    by_cases hid : c = j.identity
    · rw [hid, matches_identity]
    · exact hall c ((mem_kept_iff h).2 ⟨hc, hid⟩)

theorem matches_leafForm (f : Filter) (key : Key) :
    (leafForm f).matchesKey key = f.matchesKey key := by
  cases f with
  | prefixFilter s =>
    by_cases hs : s = []
    · rw [show leafForm (.prefixFilter s) = .passAll from if_pos hs, hs]
      simp [matchesKey, sameTuple]
    · rw [show leafForm (.prefixFilter s) = .prefixFilter s from if_neg hs]
  | suffixFilter s =>
    by_cases hs : s = []
    · rw [show leafForm (.suffixFilter s) = .passAll from if_pos hs, hs]
      simp [matchesKey]
    · rw [show leafForm (.suffixFilter s) = .suffixFilter s from if_neg hs]
  | wildcardFilter pattern =>
    by_cases hs : (pattern.all fun s => decide (s = WILDCARD)) = true
    · rw [show leafForm (.wildcardFilter pattern) = .lengthFilter pattern.length from if_pos hs]
      have hall : ((key.zip pattern).all fun a => decide (a.2 = WILDCARD) || a.1.same a.2) = true := by
        rw [List.all_eq_true] at hs ⊢
        intro a ha
        rw [hs a.2 (List.of_mem_zip ha).2, Bool.true_or]
      rw [matchesKey, matchesKey, hall, Bool.and_true]
      simp
    · rw [show leafForm (.wildcardFilter pattern) = .wildcardFilter pattern from if_neg hs]
  | _ => rfl

/-- (PROVED) The canonical form of a told filter matches exactly what the filter matches. -/
theorem matches_rewrite (h : f.Told) (key : Key) :
    (rewrite byText f).matchesKey key = f.matchesKey key := by
  induction f using induct_junction with
  | leaf f hf => rw [rewrite_leaf byText hf, matches_leafForm]
  | combine j fs ih =>
    have hiff : (rewrite byText (j.combine fs)).matchesKey key = j.neutral ↔
        (j.combine fs).matchesKey key = j.neutral := by
      rw [rewrite_combine, matches_combine]
      obtain habs | ⟨htold, hclash⟩ := told_combine.1 h
      · -- the member that decides is told, whatever the others are
        obtain ⟨f, hf, hconst⟩ := absorber_mem_flat.1 habs
        have hf' : f.Told := told_of_const (by rw [hconst]; cases j <;> simp [Junction.absorber])
        rw [close_absorbed habs]
        refine iff_of_false (matches_absorber j key) fun hall => matches_absorber j key ?_
        rw [← hconst, ih f hf hf']
        exact hall f hf
      · rw [matches_close hclash]
        constructor
        · intro hall f hf
          rw [← ih f hf (htold f hf), matches_members j]
          exact fun c hc => hall c (mem_flat.2 ⟨f, hf, hc⟩)
        · intro hall c hc
          obtain ⟨f, hf, hc⟩ := mem_flat.1 hc
          have hm := hall f hf
          rw [← ih f hf (htold f hf), matches_members j] at hm
          exact hm c hc
    revert hiff
    cases (rewrite byText (j.combine fs)).matchesKey key <;>
      cases (j.combine fs).matchesKey key <;> cases j.neutral <;> simp

/-! ## Rearranging a told filter -/

theorem clashFree_members (f : Filter) (j : Junction) :
    ClashFree (j.members (rewrite byText f)) := by
  by_cases hj : (rewrite byText f).junction = some j
  · have hshaped := shaped_byText f
    obtain ⟨fs, hfs⟩ := combine_of_junction hj
    rw [hfs] at hshaped ⊢
    rw [members_combine]
    exact hshaped.of_combine.2.1.clashFree
  · rw [members_of_ne hj]
    intro c hc d hd _
    rw [List.mem_singleton.1 hc, List.mem_singleton.1 hd]

/-- Junctions with the same flattened members. -/
theorem told_congr
    (hmem : ∀ c, c ≠ j.identity → (c ∈ flat byText j fs ↔ c ∈ flat byText j gs))
    (hall : (∀ f ∈ fs, f.Told) ↔ ∀ f ∈ gs, f.Told) :
    ((j.combine fs).Told ↔ (j.combine gs).Told) ∧
      ((j.combine fs).Told → rewrite byText (j.combine fs) = rewrite byText (j.combine gs)) := by
  have habs := hmem j.absorber (absorber_ne_identity j)
  rw [told_combine, told_combine, rewrite_combine, rewrite_combine, habs, hall]
  refine ⟨or_congr_right (and_congr_right fun _ => ?_), fun h => ?_⟩
  · exact ⟨fun h => h.of_subset fun c hc hne => (hmem c hne).2 hc,
      fun h => h.of_subset fun c hc hne => (hmem c hne).1 hc⟩
  · obtain h | ⟨-, h⟩ := h
    · rw [close_absorbed h, close_absorbed (habs.2 h)]
    · exact close_congr h hmem

/-- (PROVED) A filter is told if a rearranged one is, and then their canonical forms are equal. -/
theorem Rearranged.told (h : Rearranged f g) :
    (f.Told ↔ g.Told) ∧ (f.Told → rewrite byText f = rewrite byText g) := by
  induction h with
  | refl f => exact ⟨.rfl, fun _ => rfl⟩
  | symm _ ih => exact ⟨ih.1.symm, fun h => (ih.2 (ih.1.2 h)).symm⟩
  | trans _ _ ih ih' => exact ⟨ih.1.trans ih'.1, fun h => (ih.2 h).trans (ih'.2 (ih.1.1 h))⟩
  | @member j f g hfg fs ih =>
    have habs : rewrite byText f = j.absorber ↔ rewrite byText g = j.absorber :=
      ⟨fun h => eq_absorber_of_sortKey (h ▸ hfg.sortKey.symm),
        fun h => eq_absorber_of_sortKey (h ▸ hfg.sortKey)⟩
    have habs' : j.absorber ∈ flat byText j (f :: fs) ↔ j.absorber ∈ flat byText j (g :: fs) := by
      rw [absorber_mem_flat, absorber_mem_flat, List.exists_mem_cons_iff, List.exists_mem_cons_iff,
        habs]
    by_cases hf : f.Told
    · have hflat : flat byText j (f :: fs) = flat byText j (g :: fs) := by
        rw [flat_cons, flat_cons, ih.2 hf]
      rw [told_combine, told_combine, rewrite_combine, rewrite_combine, hflat,
        List.forall_mem_cons, List.forall_mem_cons, ih.1]
      exact ⟨.rfl, fun _ => rfl⟩
    · have hg : ¬ g.Told := mt ih.1.2 hf
      rw [told_combine, told_combine, rewrite_combine, rewrite_combine, habs',
        List.forall_mem_cons, List.forall_mem_cons]
      refine ⟨by simp [hf, hg], fun h => ?_⟩
      obtain h | h := h
      · rw [close_absorbed h, close_absorbed (habs'.2 h)]
      · exact absurd h.1.1 hf
  | @order j fs gs h =>
    refine told_congr (fun c _ => ?_) (by simp only [h.mem_iff])
    rw [mem_flat, mem_flat]
    simp only [h.mem_iff]
  | duplicate j f fs =>
    refine told_congr (fun c _ => ?_) (by simp)
    rw [flat_cons, flat_cons]
    simp
  | nest j fs gs =>
    have hnested : flat byText j (j.combine fs :: gs) =
        j.members (byText.close j (flat byText j fs)) ++ flat byText j gs := by
      rw [flat_cons, rewrite_combine]
    have hcs := flat_apart byText j fs
    by_cases habs : j.absorber ∈ flat byText j fs ++ flat byText j gs
    · have habs' : j.absorber ∈ flat byText j (j.combine fs :: gs) := by
        rwa [hnested, List.mem_append, absorber_mem_members_close hcs, ← List.mem_append]
      rw [← flat_append] at habs
      rw [told_combine, told_combine, rewrite_combine, rewrite_combine, close_absorbed habs,
        close_absorbed habs']
      exact ⟨iff_of_true (.inl habs') (.inl habs), fun _ => rfl⟩
    · have hno : j.absorber ∉ flat byText j fs := fun h => habs (List.mem_append_left _ h)
      by_cases hclash : ClashFree (flat byText j fs)
      · refine told_congr (fun c hne => ?_) ?_
        · rw [hnested, flat_append, List.mem_append, List.mem_append,
            mem_members_close hcs hno hne, mem_kept_iff hclash, and_iff_left hne]
        · rw [List.forall_mem_cons, List.forall_mem_append, told_combine, or_iff_right hno,
            and_iff_left hclash]
      · -- neither is told
        have hl : ¬ (j.combine (j.combine fs :: gs)).Told := by
          rw [told_combine, List.forall_mem_cons, told_combine]
          rintro (h | ⟨⟨h | h, -⟩, -⟩)
          · rw [hnested, List.mem_append, absorber_mem_members_close hcs, ← List.mem_append] at h
            exact habs h
          · exact hno h
          · exact hclash h.2
        have hr : ¬ (j.combine (fs ++ gs)).Told := by
          rw [told_combine, flat_append]
          rintro (h | ⟨-, h⟩)
          · exact habs h
          · exact hclash (h.of_subset (j := j) fun c hc _ => List.mem_append_left _ hc)
        exact ⟨iff_of_false hl hr, fun h => absurd h hl⟩
  | single j f =>
    have hflat : flat byText j [f] = j.members (rewrite byText f) := List.append_nil _
    rw [told_combine, rewrite_combine, hflat, close_members (shaped_byText f), List.forall_mem_singleton]
    refine ⟨⟨?_, fun h => .inr ⟨h, clashFree_members f j⟩⟩, fun _ => rfl⟩
    rintro (h | h)
    · rw [absorber_mem_members] at h
      exact told_of_const (by rw [h]; cases j <;> simp [Junction.absorber])
    · exact h.1

/-! ## Filters that are not told -/

theorem mem_dedup_append {seen : List (List Char)} {l m : List Filter}
    (hl : l.Pairwise fun f g => f.sortKey ≠ g.sortKey) (hseen : ∀ f ∈ l, f.sortKey ∉ seen)
    {c : Filter} (hc : c ∈ l) : c ∈ dedup seen (l ++ m) := by
  induction l generalizing seen with
  | nil => cases hc
  | cons f l ih =>
    rw [List.pairwise_cons] at hl
    rw [List.cons_append, dedup, if_neg (hseen f List.mem_cons_self)]
    obtain rfl | hc := List.mem_cons.1 hc
    · exact List.mem_cons_self
    · refine List.mem_cons_of_mem _ (ih hl.2 (fun g hg hmem => ?_) hc)
      obtain he | hmem := List.mem_cons.1 hmem
      · exact hl.1 g hg he.symm
      · exact hseen g (List.mem_cons_of_mem _ hg) hmem

theorem collapse_injective {cs ds : List Filter}
    (hcs : ∀ c ∈ cs, c.junction ≠ some j ∧ c ≠ j.identity)
    (hds : ∀ c ∈ ds, c.junction ≠ some j ∧ c ≠ j.identity)
    (h : collapse j.combine j.identity cs = collapse j.combine j.identity ds) : cs = ds := by
  have hm := congrArg j.members h
  rw [members_collapse fun c hc => (hcs c hc).1, members_collapse fun c hc => (hds c hc).1] at hm
  split_ifs at hm with hc hd hd
  · rw [hc, hd]
  · exact absurd rfl (hds j.identity (hm ▸ List.mem_cons_self)).2
  · exact absurd rfl (hcs j.identity (hm ▸ List.mem_cons_self)).2
  · exact hm

/-- Of the members of the first filter none is lost. -/
theorem kept_first (fs : List Filter) {c : Filter} (hc : c ∈ j.members (rewrite byText f)) (hne : c ≠ j.identity) :
    c ∈ byText.kept j (flat byText j (f :: fs)) := by
  rw [Thinning.kept, mem_sorted, flat_cons, List.filter_append]
  refine mem_dedup_append ?_ (by simp) (List.mem_filter.2 ⟨hc, not_isIdentity_iff.2 hne⟩)
  refine List.Pairwise.filter _ ?_
  by_cases hj : (rewrite byText f).junction = some j
  · have hshaped := shaped_byText f
    obtain ⟨gs, hgs⟩ := combine_of_junction hj
    rw [hgs] at hshaped ⊢
    rw [members_combine]
    exact List.Pairwise.imp ne_of_lt hshaped.of_combine.2.1
  · rw [members_of_ne hj]
    exact List.pairwise_singleton _ _

/-- Filters that come first in junctions with one canonical form have the same members. -/
theorem eq_of_first (hf : j.absorber ∉ flat byText j (f :: fs))
    (hg : j.absorber ∉ flat byText j (g :: gs))
    (h : rewrite byText (j.combine (f :: fs)) = rewrite byText (j.combine (g :: gs))) {c d : Filter}
    (hc : c ∈ j.members (rewrite byText f)) (hd : d ∈ j.members (rewrite byText g))
    (hkey : c.sortKey = d.sortKey) : c = d := by
  by_cases hid : c = j.identity
  · rw [hid] at hkey ⊢
    exact (eq_identity_of_sortKey hkey.symm).symm
  · have hdid : d ≠ j.identity := fun he => hid (eq_identity_of_sortKey (he ▸ hkey))
    rw [rewrite_combine, rewrite_combine, close_kept hf, close_kept hg] at h
    have hapart : ∀ fs : List Filter, ∀ c ∈ byText.kept j (flat byText j fs),
        c.junction ≠ some j ∧ c ≠ j.identity := fun fs c hc =>
      ⟨flat_apart byText j fs c (mem_kept hc).1, (mem_kept hc).2⟩
    have hkept := collapse_injective (hapart (f :: fs)) (hapart (g :: gs)) h
    have hc' := kept_first fs hc hid
    have hd' := kept_first gs hd hdid
    rw [← hkept] at hd'
    exact (ordered_kept _).clashFree c hc' d hd' hkey

theorem eq_of_map_sortKey {l m : List Filter} (h : l.map sortKey = m.map sortKey)
    (heq : ∀ c ∈ l, ∀ d ∈ m, c.sortKey = d.sortKey → c = d) : l = m := by
  induction l generalizing m with
  | nil => exact (List.map_eq_nil_iff.1 h.symm).symm
  | cons c l ih =>
    cases m with
    | nil => cases h
    | cons d m =>
      rw [List.map_cons, List.map_cons, List.cons.injEq] at h
      rw [heq c List.mem_cons_self d List.mem_cons_self h.1, ih h.2 fun c hc d hd =>
        heq c (List.mem_cons_of_mem _ hc) d (List.mem_cons_of_mem _ hd)]

theorem eq_of_members_eq (hj : f.junction = g.junction) (h : j.members f = j.members g) : f = g := by
  by_cases hf : f.junction = some j
  · obtain ⟨fs, rfl⟩ := combine_of_junction hf
    obtain ⟨gs, rfl⟩ := combine_of_junction (hj ▸ hf)
    rw [members_combine, members_combine] at h
    rw [h]
  · rw [members_of_ne hf, members_of_ne (hj ▸ hf)] at h
    exact (List.cons.inj h).1

/-- (PROVED) If all rearranged filters have the canonical form of a filter, the filter is told. -/
theorem told_of_rearranged (h : ∀ g, Rearranged f g → rewrite byText f = rewrite byText g) :
    f.Told := by
  induction f using induct_junction with
  | leaf f hf => exact told_leaf hf
  | combine j fs ih =>
    rw [told_combine]
    refine or_iff_not_imp_left.2 fun habs => ?_
    -- any member can be put first, and the result is still not absorbed
    have hfirst : ∀ f ∈ fs, ∃ rest, Rearranged (j.combine fs) (j.combine (f :: rest)) := by
      intro f hf
      obtain ⟨l, m, rfl⟩ := List.append_of_mem hf
      exact ⟨l ++ m, .order j List.perm_middle⟩
    have hno : ∀ {gs}, Rearranged (j.combine fs) (j.combine gs) → j.absorber ∉ flat byText j gs := by
      intro gs hgs hmem
      have heq := h _ hgs
      rw [rewrite_combine, rewrite_combine, close_absorbed hmem, close_eq_absorber] at heq
      exact habs heq
    refine ⟨fun f hf => ih f hf fun g hg => ?_, fun c hc d hd hkey => ?_⟩
    · obtain ⟨rest, hrest⟩ := hfirst f hf
      have hrest' := hrest.trans (.member j hg rest)
      refine eq_of_members_eq (j := j) (junction_eq_of_sortKey hg.sortKey)
        (eq_of_map_sortKey (members_sortKey hg.sortKey j) fun c hc d hd hkey => ?_)
      exact eq_of_first (hno hrest) (hno hrest') ((h _ hrest).symm.trans (h _ hrest')) hc hd hkey
    · obtain ⟨f, hf, hc⟩ := mem_flat.1 hc
      obtain ⟨g, hg, hd⟩ := mem_flat.1 hd
      obtain ⟨rest, hrest⟩ := hfirst f hf
      obtain ⟨rest', hrest'⟩ := hfirst g hg
      exact eq_of_first (hno hrest) (hno hrest') ((h _ hrest).symm.trans (h _ hrest')) hc hd hkey

end Filter

end Virtuals.Routing
