/-
  Filters that differ only in how And and Or are put together.

  `Rearranged` reorders, duplicates and nests members, at any depth. The texts of the canonical forms
  of rearranged filters are equal, whatever the filters are (`Rearranged.sortKey`), and so are their
  hashes. The canonical forms themselves are equal if no junction has two different members that are
  written alike (`Told`), and only then: of such members the one that comes first is kept.
-/
import Virtuals.Routing.Junction

namespace Virtuals.Routing

open Lib

namespace Filter

variable {j : Junction} {f g : Filter} {fs gs : List Filter}

/-! ## Filters with one text -/

theorem sortKey_of_alike (h : Alike f g) : f.sortKey = g.sortKey := by
  have hmembers : ∀ {fs gs : List Filter}, (∀ f ∈ fs, ∀ g, Alike f g → f.sortKey = g.sortKey) →
      List.Forall₂ Alike fs gs → fs.map sortKey = gs.map sortKey := by
    intro fs gs ih h
    induction h with
    | nil => rfl
    | cons h _ ih' =>
      rw [List.map_cons, List.map_cons, ih _ List.mem_cons_self _ h,
        ih' fun f hf => ih f (List.mem_cons_of_mem _ hf)]
  induction f using induct generalizing g with
  | and fs ih =>
    cases h with
    | and h => rw [sortKey_and, sortKey_and, hmembers (fun f hf g h => ih f hf h) h]
  | or fs ih =>
    cases h with
    | or h => rw [sortKey_or, sortKey_or, hmembers (fun f hf g h => ih f hf h) h]
  | prefixFilter s =>
    cases h with
    | prefixFilter h => rw [sortKey_prefixFilter, sortKey_prefixFilter, h]
  | suffixFilter s =>
    cases h with
    | suffixFilter h => rw [sortKey_suffixFilter, sortKey_suffixFilter, h]
  | wildcardFilter s =>
    cases h with
    | wildcardFilter h => rw [sortKey_wildcardFilter, sortKey_wildcardFilter, h]
  | _ =>
    cases h
    rfl

theorem map_sortKey_of_alike (h : List.Forall₂ Alike fs gs) :
    fs.map sortKey = gs.map sortKey := by
  induction h with
  | nil => rfl
  | cons h _ ih => rw [List.map_cons, List.map_cons, sortKey_of_alike h, ih]

theorem junction_eq_of_sortKey (h : f.sortKey = g.sortKey) : f.junction = g.junction := by
  cases alike_of_sortKey h <;> rfl

theorem eq_identity_of_sortKey (h : f.sortKey = j.identity.sortKey) : f = j.identity := by
  have h := alike_of_sortKey h
  cases j <;> cases h <;> rfl

theorem eq_absorber_of_sortKey (h : f.sortKey = j.absorber.sortKey) : f = j.absorber := by
  have h := alike_of_sortKey h
  cases j <;> cases h <;> rfl

/-- Filters with one text are replaced by members with the same texts. -/
theorem members_sortKey (h : f.sortKey = g.sortKey) (j : Junction) :
    (j.members f).map sortKey = (j.members g).map sortKey := by
  by_cases hj : f.junction = some j
  · cases alike_of_sortKey h with
    | and hfg =>
      obtain rfl := Option.some.inj hj
      exact map_sortKey_of_alike hfg
    | or hfg =>
      obtain rfl := Option.some.inj hj
      exact map_sortKey_of_alike hfg
    | _ => cases hj
  · rw [members_of_ne hj, members_of_ne (junction_eq_of_sortKey h ▸ hj), List.map_singleton,
      List.map_singleton, h]

/-! ## Closing -/

theorem ordered_kept (cs : List Filter) : Ordered (byText.kept j cs) :=
  ordered_sorted (dedup_nodup [] _).1

theorem eq_of_ordered (hf : Ordered fs) (hg : Ordered gs) (h : ∀ c, c ∈ fs ↔ c ∈ gs) : fs = gs := by
  have : Std.Irrefl fun f g : Filter => f.sortKey < g.sortKey := ⟨fun f => lt_irrefl f.sortKey⟩
  have : Std.Antisymm fun f g : Filter => f.sortKey < g.sortKey :=
    ⟨fun _ _ h h' => absurd h' (lt_asymm h)⟩
  exact List.Pairwise.eq_of_mem_iff hf hg (fun {c} => h c)

theorem map_sortKey_eq (hf : Ordered fs) (hg : Ordered gs)
    (h : ∀ k, k ∈ fs.map sortKey ↔ k ∈ gs.map sortKey) : fs.map sortKey = gs.map sortKey :=
  List.Pairwise.eq_of_mem_iff (List.pairwise_map.2 hf) (List.pairwise_map.2 hg) (fun {k} => h k)

theorem sortKey_combine_congr (h : fs.map sortKey = gs.map sortKey) :
    (j.combine fs).sortKey = (j.combine gs).sortKey := by
  cases j
  · exact (sortKey_and fs).trans (h ▸ (sortKey_and gs).symm)
  · exact (sortKey_or fs).trans (h ▸ (sortKey_or gs).symm)

theorem sortKey_collapse_congr (h : fs.map sortKey = gs.map sortKey) :
    (collapse j.combine j.identity fs).sortKey = (collapse j.combine j.identity gs).sortKey := by
  have hlen : fs.length = gs.length := by simpa using congrArg List.length h
  match fs, gs, hlen, h with
  | [], [], _, _ => rfl
  | [f], [g], _, h => exact (List.cons.inj h).1
  | _ :: _ :: _, _ :: _ :: _, _, h => exact sortKey_combine_congr h

/-- (PROVED) What is closed of members with the same texts has the same text. -/
theorem sortKey_close_congr {cs ds : List Filter} (habs : j.absorber ∈ cs ↔ j.absorber ∈ ds)
    (hcd : j.absorber ∉ cs → ∀ c ∈ cs, c ≠ j.identity → ∃ d ∈ ds, d.sortKey = c.sortKey)
    (hdc : j.absorber ∉ cs → ∀ d ∈ ds, d ≠ j.identity → ∃ c ∈ cs, c.sortKey = d.sortKey) :
    (byText.close j cs).sortKey = (byText.close j ds).sortKey := by
  have hsub : ∀ {cs ds : List Filter},
      (∀ c ∈ cs, c ≠ j.identity → ∃ d ∈ ds, d.sortKey = c.sortKey) →
      ∀ k, k ∈ (byText.kept j cs).map sortKey → k ∈ (byText.kept j ds).map sortKey := by
    intro cs ds h k hk
    obtain ⟨c, hc, rfl⟩ := List.mem_map.1 hk
    obtain ⟨hc, hne⟩ := mem_kept hc
    obtain ⟨d, hd, hkey⟩ := h c hc hne
    have hdne : d ≠ j.identity := fun he => hne (eq_identity_of_sortKey (he ▸ hkey.symm))
    obtain ⟨e, he, hekey⟩ := exists_kept (t := byText) hd hdne
    exact List.mem_map.2 ⟨e, he, hekey.trans hkey⟩
  by_cases h : j.absorber ∈ cs
  · rw [close_absorbed h, close_absorbed (habs.1 h)]
  · rw [close_kept h, close_kept (mt habs.2 h)]
    exact sortKey_collapse_congr (map_sortKey_eq (ordered_kept cs) (ordered_kept ds)
      fun k => ⟨hsub (hcd h) k, hsub (hdc h) k⟩)

/-! ## Rearranged filters -/

/-- Filters that differ by the order, the duplication and the nesting of the members of And and Or. -/
inductive Rearranged : Filter → Filter → Prop
  | refl (f : Filter) : Rearranged f f
  | symm {f g : Filter} (h : Rearranged f g) : Rearranged g f
  | trans {f g h : Filter} (hfg : Rearranged f g) (hgh : Rearranged g h) : Rearranged f h
  | member (j : Junction) {f g : Filter} (h : Rearranged f g) (fs : List Filter) :
    Rearranged (j.combine (f :: fs)) (j.combine (g :: fs))
  | order (j : Junction) {fs gs : List Filter} (h : fs.Perm gs) :
    Rearranged (j.combine fs) (j.combine gs)
  | duplicate (j : Junction) (f : Filter) (fs : List Filter) :
    Rearranged (j.combine (f :: f :: fs)) (j.combine (f :: fs))
  | nest (j : Junction) (fs gs : List Filter) :
    Rearranged (j.combine (j.combine fs :: gs)) (j.combine (fs ++ gs))
  | single (j : Junction) (f : Filter) : Rearranged (j.combine [f]) f

/-! ## The members of what is closed -/

variable {t : Thinning}

theorem flat_apart (t : Thinning) (j : Junction) (fs : List Filter) :
    ∀ c ∈ flat t j fs, c.junction ≠ some j := fun c hc =>
  (shaped_flat (fun f _ => shaped_rewrite (Q := fun _ => True) (fun _ => trivial) f) j c hc).2

theorem members_collapse {cs : List Filter} (h : ∀ c ∈ cs, c.junction ≠ some j) :
    j.members (collapse j.combine j.identity cs) = if cs = [] then [j.identity] else cs := by
  match cs with
  | [] => exact members_of_ne (f := j.identity) (by simp)
  | [c] => exact members_of_ne (h c List.mem_cons_self)
  | c :: d :: cs => exact members_combine j _

theorem mem_members_close {cs : List Filter} (hcs : ∀ c ∈ cs, c.junction ≠ some j)
    (habs : j.absorber ∉ cs) {c : Filter} (hne : c ≠ j.identity) :
    c ∈ j.members (t.close j cs) ↔ c ∈ t.kept j cs := by
  rw [close_kept habs, members_collapse fun c hc => hcs c (mem_kept hc).1]
  split_ifs with h
  · simp [h, hne]
  · rfl

theorem absorber_mem_members_close {cs : List Filter} (hcs : ∀ c ∈ cs, c.junction ≠ some j) :
    j.absorber ∈ j.members (t.close j cs) ↔ j.absorber ∈ cs := by
  by_cases habs : j.absorber ∈ cs
  · rw [close_absorbed habs, members_of_ne (by simp)]
    simp [habs]
  · rw [mem_members_close hcs habs (absorber_ne_identity j)]
    exact iff_of_false (fun h => habs (mem_kept h).1) habs

theorem flat_cons (t : Thinning) (j : Junction) (f : Filter) (fs : List Filter) :
    flat t j (f :: fs) = j.members (rewrite t f) ++ flat t j fs := rfl

theorem flat_append (t : Thinning) (j : Junction) (fs gs : List Filter) :
    flat t j (fs ++ gs) = flat t j fs ++ flat t j gs := by
  rw [flat, List.map_append, List.flatMap_append]
  rfl

/-- A shaped filter is what is closed of its members. -/
theorem close_members (h : Shaped Ordered f) (j : Junction) : byText.close j (j.members f) = f := by
  by_cases hj : f.junction = some j
  · obtain ⟨fs, rfl⟩ := combine_of_junction hj
    obtain ⟨hjoined, hq, -⟩ := h.of_combine
    rw [members_combine, close_of_joined hjoined hq]
  · rw [members_of_ne hj]
    by_cases habs : f = j.absorber
    · subst habs
      exact close_absorbed List.mem_cons_self
    · rw [close_kept fun h => habs (List.mem_singleton.1 h).symm]
      by_cases hid : f = j.identity
      · subst hid
        cases j <;> rfl
      · rw [Thinning.kept, List.filter_cons_of_pos (p := fun c => !j.isIdentity c)
          (not_isIdentity_iff.2 hid)]
        rfl

theorem shaped_byText (f : Filter) : Shaped Ordered (rewrite byText f) :=
  canonicalize_eq_rewrite f ▸ shaped_canonicalize f

/-- (PROVED) The canonical forms of rearranged filters have one text. -/
theorem Rearranged.sortKey (h : Rearranged f g) :
    (rewrite byText f).sortKey = (rewrite byText g).sortKey := by
  have hmem : ∀ {j : Junction} {cs ds : List Filter}, (∀ c, c ∈ cs ↔ c ∈ ds) →
      (byText.close j cs).sortKey = (byText.close j ds).sortKey := fun h =>
    sortKey_close_congr (h _) (fun _ c hc _ => ⟨c, (h c).1 hc, rfl⟩)
      fun _ c hc _ => ⟨c, (h c).2 hc, rfl⟩
  induction h with
  | refl f => rfl
  | symm _ ih => exact ih.symm
  | trans _ _ ih ih' => exact ih.trans ih'
  | @member j f g _ fs ih =>
    have hkeys := members_sortKey ih j
    have hsub : ∀ {f g : Filter}, (j.members f).map Filter.sortKey = (j.members g).map Filter.sortKey →
        ∀ c ∈ j.members f ++ flat byText j fs, ∃ d ∈ j.members g ++ flat byText j fs,
          d.sortKey = c.sortKey := by
      intro f g hkeys c hc
      obtain hc | hc := List.mem_append.1 hc
      · have hk := List.mem_map_of_mem (f := Filter.sortKey) hc
        rw [hkeys] at hk
        obtain ⟨d, hd, hkey⟩ := List.mem_map.1 hk
        exact ⟨d, List.mem_append_left _ hd, hkey⟩
      · exact ⟨c, List.mem_append_right _ hc, rfl⟩
    have habs : ∀ {f g : Filter}, (j.members f).map Filter.sortKey = (j.members g).map Filter.sortKey →
        j.absorber ∈ j.members f ++ flat byText j fs →
        j.absorber ∈ j.members g ++ flat byText j fs := by
      intro f g hkeys hmem
      obtain ⟨d, hd, hkey⟩ := hsub hkeys _ hmem
      exact eq_absorber_of_sortKey hkey ▸ hd
    rw [rewrite_combine, rewrite_combine, flat_cons, flat_cons]
    exact sortKey_close_congr ⟨habs hkeys, habs hkeys.symm⟩ (fun _ c hc _ => hsub hkeys c hc)
      fun _ c hc _ => hsub hkeys.symm c hc
  | order j h =>
    rw [rewrite_combine, rewrite_combine]
    refine hmem fun c => ?_
    rw [mem_flat, mem_flat]
    simp only [h.mem_iff]
  | duplicate j f fs =>
    rw [rewrite_combine, rewrite_combine]
    refine hmem fun c => ?_
    rw [flat_cons, flat_cons]
    simp
  | nest j fs gs =>
    rw [rewrite_combine, rewrite_combine, flat_cons, rewrite_combine, flat_append]
    have hcs := flat_apart byText j fs
    generalize flat byText j fs = cs at hcs
    have habs : j.absorber ∈ j.members (byText.close j cs) ++ flat byText j gs ↔
        j.absorber ∈ cs ++ flat byText j gs := by
      rw [List.mem_append, List.mem_append, absorber_mem_members_close hcs]
    refine sortKey_close_congr habs (fun hno c hc hne => ?_) fun hno c hc hne => ?_
    · have hno' : j.absorber ∉ cs := fun h => hno (habs.2 (List.mem_append_left _ h))
      obtain hc | hc := List.mem_append.1 hc
      · rw [mem_members_close hcs hno' hne] at hc
        exact ⟨c, List.mem_append_left _ (mem_kept hc).1, rfl⟩
      · exact ⟨c, List.mem_append_right _ hc, rfl⟩
    · have hno' : j.absorber ∉ cs := fun h => hno (habs.2 (List.mem_append_left _ h))
      obtain hc | hc := List.mem_append.1 hc
      · obtain ⟨d, hd, hkey⟩ := exists_kept (t := byText) hc hne
        exact ⟨d, List.mem_append_left _ ((mem_members_close hcs hno' (mem_kept hd).2).2 hd), hkey⟩
      · exact ⟨c, List.mem_append_right _ hc, rfl⟩
  | single j f =>
    rw [rewrite_combine, flat_cons]
    have hnil : flat byText j [] = [] := rfl
    rw [hnil, List.append_nil, close_members (shaped_byText f)]

end Filter

end Virtuals.Routing
