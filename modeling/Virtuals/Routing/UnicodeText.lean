/-
  Filters of Unicode text.

  Two different leaves are written alike only if one has a surrogate pair spelled as two code points
  where the other has the code point itself. So filters over leaves of Unicode text are told apart by
  their sort keys (`eq_of_alike`, `leaf_eq_of_sortKey`), and their simplified forms are clean
  (`clean_of_unicode`).
-/
import Virtuals.Routing.NormalForm
import Mathlib.Data.Char

namespace Virtuals.Routing

open Lib

namespace Filter

variable {L : Filter → Prop} {j : Junction} {t : Thinning} {f g : Filter} {fs cs : List Filter}

/-! ## Leaves -/

mutual

/-- The filters a filter is made of. -/
def leaves : Filter → List Filter
  | .and fs => leavesAll fs
  | .or fs => leavesAll fs
  | f => [f]

def leavesAll : List Filter → List Filter
  | [] => []
  | f :: fs => leaves f ++ leavesAll fs

end

theorem leavesAll_eq (fs : List Filter) : leavesAll fs = fs.flatMap leaves := by
  induction fs with
  | nil => rfl
  | cons f fs ih => rw [leavesAll, ih, List.flatMap_cons]

/-- Every leaf of `f` is in `L`. -/
def Over (L : Filter → Prop) (f : Filter) : Prop := ∀ a ∈ f.leaves, L a

/-- The leaves of `L`, and those that `canonicalize` makes. -/
def Widened (L : Filter → Prop) (a : Filter) : Prop :=
  L a ∨ a = .passAll ∨ a = .passNone ∨ ∃ n, a = .lengthFilter n

theorem over_combine : Over L (j.combine fs) ↔ ∀ f ∈ fs, Over L f := by
  have hleaves : (j.combine fs).leaves = fs.flatMap leaves := by
    rw [← leavesAll_eq]
    cases j <;> rfl
  simp only [Over, hleaves, List.mem_flatMap]
  exact ⟨fun h f hf a ha => h a ⟨f, hf, ha⟩, fun h a ⟨f, hf, ha⟩ => h f hf a ha⟩

theorem over_members (h : Over L f) : ∀ c ∈ j.members f, Over L c := by
  by_cases hj : f.junction = some j
  · obtain ⟨fs, rfl⟩ := combine_of_junction hj
    rw [members_combine]
    exact over_combine.1 h
  · rw [members_of_ne hj]
    intro c hc
    rwa [List.mem_singleton.1 hc]

theorem over_identity (j : Junction) : Over (Widened L) j.identity := by
  cases j <;> simp [Over, Junction.identity, leaves, Widened]

theorem over_absorber (j : Junction) : Over (Widened L) j.absorber := by
  cases j <;> simp [Over, Junction.absorber, leaves, Widened]

theorem over_close (h : ∀ c ∈ cs, Over (Widened L) c) : Over (Widened L) (t.close j cs) := by
  by_cases habs : j.absorber ∈ cs
  · rw [close_absorbed habs]
    exact over_absorber j
  · have hkept : ∀ c ∈ t.kept j cs, Over (Widened L) c := fun c hc => h c (mem_kept hc).1
    rw [close_kept habs]
    generalize t.kept j cs = ds at hkept
    match ds with
    | [] => exact over_identity j
    | [d] => exact hkept d List.mem_cons_self
    | d :: e :: ds => exact over_combine.2 hkept

theorem over_leafForm (hleaf : f.isLeaf = true) (h : Over L f) : Over (Widened L) f.leafForm := by
  have hself : Over (Widened L) f := fun a ha => Or.inl (h a ha)
  have hall : Over (Widened L) .passAll := over_identity .conj
  have hlength : ∀ n, Over (Widened L) (.lengthFilter n) := by simp [Over, leaves, Widened]
  cases f with
  | prefixFilter s =>
    rw [leafForm]
    split_ifs
    · exact hall
    · exact hself
  | suffixFilter s =>
    rw [leafForm]
    split_ifs
    · exact hall
    · exact hself
  | wildcardFilter pattern =>
    rw [leafForm]
    split_ifs
    · exact hlength _
    · exact hself
  | and fs => cases hleaf
  | or fs => cases hleaf
  | _ => exact hself

/-- The leaves of a rewritten filter are those of the filter, or made. -/
theorem over_rewrite (h : Over L f) : Over (Widened L) (rewrite t f) := by
  induction f using induct_junction with
  | leaf f hf =>
    rw [rewrite_leaf t hf]
    exact over_leafForm hf h
  | combine j fs ih =>
    rw [rewrite_combine]
    refine over_close fun c hc => ?_
    obtain ⟨f, hf, hcf⟩ := mem_flat.1 hc
    exact over_members (ih f hf (over_combine.1 h f hf)) c hcf

theorem forall₂_eq {R : Filter → Filter → Prop} {fs gs : List Filter} (h : List.Forall₂ R fs gs)
    (heq : ∀ f ∈ fs, ∀ g ∈ gs, R f g → f = g) : fs = gs := by
  induction h with
  | nil => rfl
  | cons hfg _ ih =>
    rw [heq _ List.mem_cons_self _ List.mem_cons_self hfg, ih fun f hf g hg =>
      heq f (List.mem_cons_of_mem _ hf) g (List.mem_cons_of_mem _ hg)]

/-- Over leaves that their text tells apart, it tells all filters apart. -/
theorem eq_of_alike (hL : ∀ a b, L a → L b → a.sortKey = b.sortKey → a = b) {f g : Filter}
    (h : Alike f g) (hf : Over (Widened L) f) (hg : Over (Widened L) g) : f = g := by
  have hleaf : ∀ {a}, (∀ n, a ≠ .lengthFilter n) → a ≠ .passAll → a ≠ .passNone → a.leaves = [a] →
      Over (Widened L) a → L a := by
    intro a h1 h2 h3 hl ha
    rcases ha a (by simp [hl]) with h | h | h | ⟨n, h⟩
    · exact h
    · exact absurd h h2
    · exact absurd h h3
    · exact absurd h (h1 n)
  induction f using induct generalizing g with
  | prefixFilter s =>
    cases h with
    | prefixFilter h =>
      exact hL _ _ (hleaf (by simp) (by simp) (by simp) rfl hf)
        (hleaf (by simp) (by simp) (by simp) rfl hg) (by simp [h])
  | suffixFilter s =>
    cases h with
    | suffixFilter h =>
      exact hL _ _ (hleaf (by simp) (by simp) (by simp) rfl hf)
        (hleaf (by simp) (by simp) (by simp) rfl hg) (by simp [h])
  | wildcardFilter s =>
    cases h with
    | wildcardFilter h =>
      exact hL _ _ (hleaf (by simp) (by simp) (by simp) rfl hf)
        (hleaf (by simp) (by simp) (by simp) rfl hg) (by simp [h])
  | lengthFilter n =>
    cases h
    rfl
  | and fs ih =>
    cases h with
    | and h =>
      exact congrArg Filter.and (forall₂_eq h fun f hfs g hgs hfg =>
        ih f hfs hfg ((over_combine (j := .conj)).1 hf f hfs) ((over_combine (j := .conj)).1 hg g hgs))
  | or fs ih =>
    cases h with
    | or h =>
      exact congrArg Filter.or (forall₂_eq h fun f hfs g hgs hfg =>
        ih f hfs hfg ((over_combine (j := .disj)).1 hf f hfs) ((over_combine (j := .disj)).1 hg g hgs))
  | passAll =>
    cases h
    rfl
  | passNone =>
    cases h
    rfl

/-- Over leaves that their text tells apart, every filter is clean. -/
theorem clean_of_over (hL : ∀ a b, L a → L b → a.sortKey = b.sortKey → a = b)
    (h : Over (Widened L) f) : f.Clean := by
  induction f using induct_junction with
  | leaf f hf => exact clean_leaf hf
  | combine j fs ih =>
    rw [over_combine] at h
    refine clean_combine.2 ⟨fun f hf => ih f hf (h f hf), fun c hc d hd hkey => ?_⟩
    exact eq_of_alike hL (alike_of_sortKey hkey) (h c hc) (h d hd)

/-! ## Unicode text -/

/-- Every string of the segments is Unicode text. -/
def UnicodeSegments (s : List Segment) : Prop := ∀ t, some (.str t) ∈ s → Unicode t

/-- Every string of a leaf is Unicode text. -/
def UnicodeLeaf : Filter → Prop
  | .prefixFilter s | .suffixFilter s | .wildcardFilter s => UnicodeSegments s
  | _ => True

theorem segmentText_inj {s t : Segment} (hs : ∀ x, s = some (.str x) → Unicode x)
    (ht : ∀ x, t = some (.str x) → Unicode x) (h : segmentText s = segmentText t) : s = t := by
  have hint : ∀ {i : Int} {c : Char} {y : List Char}, isNumeric c = false → intText i ≠ c :: y :=
    fun hc h => intText_append_ne (x := []) hc (by rw [List.append_nil]; exact h)
  rcases s with _ | (i | (_ | _) | s) <;> rcases t with _ | (j | (_ | _) | t)
  all_goals
    simp only [segmentText, segmentJson, Json.dumps] at h ⊢
  case some.int.some.int => rw [intText_injective h]
  case some.str.some.str =>
    obtain ⟨hunits, -⟩ := Json.strText_delimits s (b := t) (x := []) (y := []) trivial trivial
      (by rw [h])
    rw [units_inj (hs s rfl) (ht t rfl) hunits]
  all_goals first
    | exact absurd h (hint (by decide))
    | exact absurd h.symm (hint (by decide))
    | simp [Json.strText] at h

theorem segments_eq {s t : List Segment} (hs : UnicodeSegments s) (ht : UnicodeSegments t)
    (h : s.map segmentText = t.map segmentText) : s = t := by
  induction s generalizing t with
  | nil => exact (List.map_eq_nil_iff.1 h.symm).symm
  | cons a s ih =>
    cases t with
    | nil => cases h
    | cons b t =>
      simp only [List.map_cons, List.cons.injEq] at h
      rw [segmentText_inj (fun x hx => hs x (by simp [hx])) (fun x hx => ht x (by simp [hx])) h.1,
        ih (fun x hx => hs x (by simp [hx])) (fun x hx => ht x (by simp [hx])) h.2]

theorem isLeaf_of_mem_leaves {f a : Filter} (ha : a ∈ f.leaves) : a.isLeaf = true := by
  induction f using induct with
  | and fs ih =>
    rw [leaves, leavesAll_eq] at ha
    obtain ⟨g, hg, ha⟩ := List.mem_flatMap.1 ha
    exact ih g hg ha
  | or fs ih =>
    rw [leaves, leavesAll_eq] at ha
    obtain ⟨g, hg, ha⟩ := List.mem_flatMap.1 ha
    exact ih g hg ha
  | _ =>
    obtain rfl := List.mem_singleton.1 ha
    rfl

/-- Leaves of Unicode text that are written alike are equal. -/
theorem leaf_eq_of_sortKey {a b : Filter} (hleaf : a.isLeaf = true) (ha : UnicodeLeaf a)
    (hb : UnicodeLeaf b) (h : a.sortKey = b.sortKey) : a = b := by
  cases alike_of_sortKey h with
  | prefixFilter hst => rw [segments_eq ha hb hst]
  | suffixFilter hst => rw [segments_eq ha hb hst]
  | wildcardFilter hst => rw [segments_eq ha hb hst]
  | and => cases hleaf
  | or => cases hleaf
  | _ => rfl

/-- (PROVED) A filter whose strings are Unicode text is clean. -/
theorem clean_of_unicode (h : ∀ a ∈ f.leaves, UnicodeLeaf a) : f.simplify.Clean := by
  refine clean_of_over (L := fun a => a.isLeaf = true ∧ UnicodeLeaf a) ?_ ?_
  · exact fun a b ha hb => leaf_eq_of_sortKey ha.1 ha.2 hb.2
  · exact over_rewrite fun a ha => ⟨isLeaf_of_mem_leaves ha, h a ha⟩

end Filter

end Virtuals.Routing
