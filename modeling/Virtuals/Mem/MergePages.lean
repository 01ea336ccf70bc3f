/-
  `merge_pages` (`storages/mem/store.py`): merge one page of base rows with one page
  of overlay entries.

  An overlay entry replaces the base row, hides it (`ABSENT`) or keeps it (`LIVE`).
  `overlaid` is the map that says this key by key; `mergePages_isPage`: a base page
  and an overlay page cut from listings merge to a page of the overlaid map, with the
  cover the next page seeks past.
-/
import Virtuals.Lib.ScanOrder

namespace Virtuals.Mem

open ScanOrder

/-- An overlay entry: a row that replaces the base row, or one of the two markers. -/
inductive Version (E : Type) where
  | entry (e : E)
  | ABSENT
  | LIVE
  deriving DecidableEq

section Merge

variable {K E : Type} [LinearOrder K]

/-- The last key both pages are known to agree on; `none` when both sources are exhausted. -/
def coverOf (base : List (K × E)) (overlay : List (K × Version E)) (n : Nat) (reverse : Bool) :
    Option K :=
  match fullLast base n, fullLast overlay n with
  | some a, some b =>
    some (if reverse then (if a > b then a else b) else (if a < b then a else b))
  | some a, none => some a
  | none, some b => some b
  | none, none => none

/-- The key lies past the cover. -/
def Past (reverse : Bool) (cover : Option K) (k : K) : Prop := ∃ c ∈ cover, Before reverse c k

instance (reverse : Bool) (cover : Option K) (k : K) : Decidable (Past reverse cover k) := by
  unfold Past; infer_instance

/-- One turn of the merge: stop past the cover, drop an absent row, keep any other. -/
def emit (reverse : Bool) (cover : Option K) (enc : K) (entry : Version E)
    (rest : List (K × E)) : List (K × E) :=
  if Past reverse cover enc then []
  else match entry with
    | .entry e => (enc, e) :: rest
    | .ABSENT => rest
    | .LIVE => rest

/-- The merge loop. `LIVE` on a key the base does not have is skipped, on one it has it keeps
    the base row. -/
def mergeLoop (reverse : Bool) (cover : Option K) :
    List (K × E) → List (K × Version E) → List (K × E)
  | [], [] => []
  | (enc, e) :: base, [] => emit reverse cover enc (.entry e) (mergeLoop reverse cover base [])
  | [], (_, .LIVE) :: overlay => mergeLoop reverse cover [] overlay
  | [], (enc, .ABSENT) :: overlay =>
    emit reverse cover enc .ABSENT (mergeLoop reverse cover [] overlay)
  | [], (enc, .entry e) :: overlay =>
    emit reverse cover enc (.entry e) (mergeLoop reverse cover [] overlay)
  | (benc, be) :: base, (oenc, o) :: overlay =>
    if benc = oenc then
      emit reverse cover oenc (if o matches .LIVE then .entry be else o)
        (mergeLoop reverse cover base overlay)
    else if Before reverse benc oenc then
      emit reverse cover benc (.entry be) (mergeLoop reverse cover base ((oenc, o) :: overlay))
    else if o matches .LIVE then mergeLoop reverse cover ((benc, be) :: base) overlay
    else emit reverse cover oenc o (mergeLoop reverse cover ((benc, be) :: base) overlay)
termination_by base overlay => base.length + overlay.length

/-- `merge_pages`: the merged rows up to the cover, the cover, and whether both sources are
    exhausted. Called with `n ≥ 1`. -/
def mergePages (base : List (K × E)) (overlay : List (K × Version E)) (n : Nat)
    (reverse : Bool) : List (K × E) × Option K × Bool :=
  let cover := coverOf base overlay n reverse
  (mergeLoop reverse cover base overlay, cover, cover.isNone)

/-! ## What the loop yields -/

omit [LinearOrder K] in
/-- The row the pages hold for a key, the overlay first. -/
def Merged (base : List (K × E)) (overlay : List (K × Version E)) (k : K) (e : E) : Prop :=
  (k, .entry e) ∈ overlay ∨
    (k, e) ∈ base ∧ ((k, .LIVE) ∈ overlay ∨ ∀ v, (k, v) ∉ overlay)

theorem past_of_before {reverse : Bool} {cover : Option K} {a b : K}
    (h : Past reverse cover a) (hab : Before reverse a b) : Past reverse cover b := by
  obtain ⟨c, hc, hca⟩ := h
  exact ⟨c, hc, before_trans hca hab⟩

theorem mem_emit {reverse : Bool} {cover : Option K} {enc : K} {v : Version E}
    {rest : List (K × E)} {k : K} {e : E} :
    (k, e) ∈ emit reverse cover enc v rest ↔
      ¬ Past reverse cover enc ∧ ((k = enc ∧ v = .entry e) ∨ (k, e) ∈ rest) := by
  unfold emit
  by_cases h : Past reverse cover enc
  · rw [if_pos h]
    simp [h]
  · rw [if_neg h]
    cases v <;> simp [h, eq_comm]

/-- Adding a row that is not past the cover in front of the merge of what comes after it. -/
theorem mem_emit_merged {reverse : Bool} {cover : Option K} {enc : K} {v : Version E}
    {rest : List (K × E)} {P : K → E → Prop}
    (hrest : ∀ k e, (k, e) ∈ rest ↔ ¬ Past reverse cover k ∧ P k e)
    (hafter : ∀ k e, P k e → Before reverse enc k) (k : K) (e : E) :
    (k, e) ∈ emit reverse cover enc v rest ↔
      ¬ Past reverse cover k ∧ ((k = enc ∧ v = .entry e) ∨ P k e) := by
  rw [mem_emit, hrest]
  constructor
  · rintro ⟨hnp, ⟨rfl, hv⟩ | ⟨hk, hP⟩⟩
    · exact ⟨hnp, Or.inl ⟨rfl, hv⟩⟩
    · exact ⟨hk, Or.inr hP⟩
  · rintro ⟨hk, ⟨rfl, hv⟩ | hP⟩
    · exact ⟨hk, Or.inl ⟨rfl, hv⟩⟩
    · exact ⟨fun hp => hk (past_of_before hp (hafter k e hP)), Or.inr ⟨hk, hP⟩⟩

theorem merged_before {reverse : Bool} {base : List (K × E)} {overlay : List (K × Version E)}
    {enc : K} (hb : ∀ a ∈ base, Before reverse enc a.1)
    (ho : ∀ a ∈ overlay, Before reverse enc a.1) (k : K) (e : E) (h : Merged base overlay k e) :
    Before reverse enc k := by
  rcases h with h | ⟨h, -⟩
  · exact ho _ h
  · exact hb _ h

/-- (PROVED) The loop yields the merged rows up to the cover. -/
theorem mem_mergeLoop {reverse : Bool} (cover : Option K) {base : List (K × E)}
    {overlay : List (K × Version E)} (hb : Ascending reverse base)
    (ho : Ascending reverse overlay) :
    ∀ k e, (k, e) ∈ mergeLoop reverse cover base overlay ↔
      ¬ Past reverse cover k ∧ Merged base overlay k e := by
  fun_induction mergeLoop reverse cover base overlay with
  | case1 => simp [Merged]
  | case2 enc e' base ih =>
    obtain ⟨hhead, hrest⟩ := List.pairwise_cons.1 hb
    intro k e
    rw [mem_emit_merged (ih hrest ho) (merged_before hhead (by simp))]
    simp [Merged, eq_comm]
  | case3 enc overlay ih =>
    intro k e
    rw [ih hb (List.pairwise_cons.1 ho).2 k e]
    simp [Merged]
  | case4 enc overlay ih =>
    obtain ⟨hhead, hrest⟩ := List.pairwise_cons.1 ho
    intro k e
    rw [mem_emit_merged (ih hb hrest) (merged_before (by simp) hhead)]
    simp [Merged]
  | case5 enc e' overlay ih =>
    obtain ⟨hhead, hrest⟩ := List.pairwise_cons.1 ho
    intro k e
    rw [mem_emit_merged (ih hb hrest) (merged_before (by simp) hhead)]
    simp [Merged, eq_comm]
  | case6 be base oenc o overlay ih =>
    obtain ⟨hbhead, hbrest⟩ := List.pairwise_cons.1 hb
    obtain ⟨hohead, horest⟩ := List.pairwise_cons.1 ho
    intro k e
    rw [mem_emit_merged (ih hbrest horest) (merged_before hbhead hohead)]
    have h1 := not_mem_of_before hohead
    have h2 := not_mem_of_before hbhead
    by_cases hk : k = oenc
    · subst hk
      cases o <;> simp [Merged, h1, h2, eq_comm]
    · simp [Merged, hk]
  | case7 benc be base oenc o overlay hne hlt ih =>
    obtain ⟨hbhead, hbrest⟩ := List.pairwise_cons.1 hb
    obtain ⟨hohead, horest⟩ := List.pairwise_cons.1 ho
    intro k e
    have hafter : ∀ a ∈ (oenc, o) :: overlay, Before reverse benc a.1 := by
      intro a ha
      rcases List.mem_cons.1 ha with rfl | ha
      · exact hlt
      · exact before_trans hlt (hohead a ha)
    rw [mem_emit_merged (ih hbrest ho) (merged_before hbhead hafter)]
    have h1 := not_mem_of_before hafter
    by_cases hk : k = benc
    · subst hk
      have h2 := not_mem_of_before hbhead
      simp only [Merged, h1, List.mem_cons, true_and, h2, or_false, Prod.mk.injEq,
        not_false_eq_true, implies_true, or_true, and_true, false_or, Version.entry.injEq, eq_comm]
    · simp [Merged, hk]
  | case8 benc be base oenc o overlay hne hlt hlive ih =>
    obtain ⟨hohead, horest⟩ := List.pairwise_cons.1 ho
    have hbefore : Before reverse oenc benc := (not_before.1 hlt).resolve_left hne
    obtain rfl : o = .LIVE := by cases o <;> simp_all
    intro k e
    rw [ih hb horest k e]
    have h2 : ∀ v, (oenc, v) ∉ (benc, be) :: base := by
      intro v hv
      rcases List.mem_cons.1 hv with hv | hv
      · exact hne (congrArg Prod.fst hv).symm
      · exact before_irrefl _ _ (before_trans hbefore ((List.pairwise_cons.1 hb).1 _ hv))
    by_cases hk : k = oenc
    · subst hk
      simp [Merged, h2]
    · simp [Merged, hk]
  | case9 benc be base oenc o overlay hne hlt hlive ih =>
    obtain ⟨hbhead, hbrest⟩ := List.pairwise_cons.1 hb
    obtain ⟨hohead, horest⟩ := List.pairwise_cons.1 ho
    have hbefore : Before reverse oenc benc := (not_before.1 hlt).resolve_left hne
    have hafter : ∀ a ∈ (benc, be) :: base, Before reverse oenc a.1 := by
      intro a ha
      rcases List.mem_cons.1 ha with rfl | ha
      · exact hbefore
      · exact before_trans hbefore (hbhead a ha)
    intro k e
    rw [mem_emit_merged (ih hb horest) (merged_before hafter hohead)]
    have h2 := not_mem_of_before hafter
    by_cases hk : k = oenc
    · subst hk
      have h1 := not_mem_of_before hohead
      simp [Merged, h1, h2, eq_comm]
    · simp [Merged, hk]

theorem ascending_emit {reverse : Bool} {cover : Option K} {enc : K} {v : Version E}
    {rest : List (K × E)} (h : Ascending reverse rest)
    (hafter : ∀ a ∈ rest, Before reverse enc a.1) :
    Ascending reverse (emit reverse cover enc v rest) := by
  unfold emit
  by_cases hp : Past reverse cover enc
  · rw [if_pos hp]
    exact List.Pairwise.nil
  · rw [if_neg hp]
    cases v
    · exact List.pairwise_cons.2 ⟨hafter, h⟩
    · exact h
    · exact h

theorem ascending_mergeLoop {reverse : Bool} {cover : Option K} {base : List (K × E)}
    {overlay : List (K × Version E)} (hb : Ascending reverse base)
    (ho : Ascending reverse overlay) :
    Ascending reverse (mergeLoop reverse cover base overlay) := by
  have hrows : ∀ {base : List (K × E)} {overlay : List (K × Version E)} {enc : K},
      Ascending reverse base → Ascending reverse overlay →
      (∀ a ∈ base, Before reverse enc a.1) → (∀ a ∈ overlay, Before reverse enc a.1) →
      ∀ a ∈ mergeLoop reverse cover base overlay, Before reverse enc a.1 :=
    fun h h' hb ho a ha => merged_before hb ho a.1 a.2 ((mem_mergeLoop _ h h' a.1 a.2).1 ha).2
  fun_induction mergeLoop reverse cover base overlay with
  | case1 => exact List.Pairwise.nil
  | case2 enc e' base ih =>
    obtain ⟨hhead, hrest⟩ := List.pairwise_cons.1 hb
    exact ascending_emit (ih hrest ho) (hrows hrest ho hhead (by simp))
  | case3 enc overlay ih => exact ih hb (List.pairwise_cons.1 ho).2
  | case4 enc overlay ih =>
    obtain ⟨hhead, hrest⟩ := List.pairwise_cons.1 ho
    exact ascending_emit (ih hb hrest) (hrows hb hrest (by simp) hhead)
  | case5 enc e' overlay ih =>
    obtain ⟨hhead, hrest⟩ := List.pairwise_cons.1 ho
    exact ascending_emit (ih hb hrest) (hrows hb hrest (by simp) hhead)
  | case6 be base oenc o overlay ih =>
    obtain ⟨hbhead, hbrest⟩ := List.pairwise_cons.1 hb
    obtain ⟨hohead, horest⟩ := List.pairwise_cons.1 ho
    exact ascending_emit (ih hbrest horest) (hrows hbrest horest hbhead hohead)
  | case7 benc be base oenc o overlay hne hlt ih =>
    obtain ⟨hbhead, hbrest⟩ := List.pairwise_cons.1 hb
    refine ascending_emit (ih hbrest ho) (hrows hbrest ho hbhead fun a ha => ?_)
    rcases List.mem_cons.1 ha with rfl | ha
    · exact hlt
    · exact before_trans hlt ((List.pairwise_cons.1 ho).1 a ha)
  | case8 benc be base oenc o overlay hne hlt hlive ih =>
    exact ih hb (List.pairwise_cons.1 ho).2
  | case9 benc be base oenc o overlay hne hlt hlive ih =>
    obtain ⟨hohead, horest⟩ := List.pairwise_cons.1 ho
    have hbefore : Before reverse oenc benc := (not_before.1 hlt).resolve_left hne
    refine ascending_emit (ih hb horest) (hrows hb horest (fun a ha => ?_) hohead)
    rcases List.mem_cons.1 ha with rfl | ha
    · exact hbefore
    · exact before_trans hbefore ((List.pairwise_cons.1 hb).1 a ha)

/-! ## Merging two listings page by page -/

omit [LinearOrder K] in
/-- The map an overlay makes of a base map. -/
def overlaid (base : K → Option E) (overlay : K → Option (Version E)) (k : K) : Option E :=
  match overlay k with
  | none => base k
  | some .LIVE => base k
  | some .ABSENT => none
  | some (.entry e) => some e

/-- A row not past the cover is in the page it was cut from. -/
theorem mem_take_of_not_past {A : Type} {reverse : Bool} {cover : Option K} {n : Nat} (hn : 0 < n)
    {rows : List (K × A)} (h : Ascending reverse rows)
    (hcover : ∀ a, fullLast (rows.take n) n = some a → ∃ c ∈ cover, ¬ Before reverse a c)
    {x : K × A} (hx : ¬ Past reverse cover x.1) : x ∈ rows.take n ↔ x ∈ rows := by
  refine ⟨List.mem_of_mem_take, fun hmem => h.mem_take hmem (fun c hc hlen hcx => hx ?_) hn⟩
  obtain ⟨c', hc', hcc'⟩ := hcover c.1 (by simp [fullLast, hlen, hc])
  refine ⟨c', hc', ?_⟩
  rcases not_before.1 hcc' with h' | h'
  · rwa [← h']
  · exact before_trans h' hcx

theorem coverOf_spec (base : List (K × E)) (overlay : List (K × Version E)) (n : Nat)
    (reverse : Bool) :
    (∀ a, fullLast base n = some a → ∃ c ∈ coverOf base overlay n reverse, ¬ Before reverse a c) ∧
    (∀ a, fullLast overlay n = some a →
      ∃ c ∈ coverOf base overlay n reverse, ¬ Before reverse a c) ∧
    (∀ c ∈ coverOf base overlay n reverse,
      fullLast base n = some c ∨ fullLast overlay n = some c) := by
  unfold coverOf
  rcases fullLast base n with _ | a <;> rcases fullLast overlay n with _ | b
  · simp
  · simp [before_irrefl]
  · simp [before_irrefl]
  · cases reverse <;> simp only [Before, Option.mem_def, Option.some.injEq, forall_eq',
      exists_eq_left', Bool.false_eq_true, if_false, if_true] <;>
      split_ifs with h <;> simp_all [le_of_lt]

/-- (PROVED) Pages of `n` rows of a base listing and of an overlay listing merge to a page of the
    overlaid map. -/
theorem mergePages_isPage {reverse : Bool} {P : K → Prop} {base : K → Option E}
    {overlay : K → Option (Version E)} {rows : List (K × E)} {entries : List (K × Version E)}
    {known : K → Prop} {n : Nat} (hn : 0 < n) (hb : IsListing reverse P base rows)
    (ho : IsListing reverse P overlay entries) (hkb : ∀ k, (base k).isSome → known k)
    (hko : ∀ k, (overlay k).isSome → known k) :
    IsPage reverse P (overlaid base overlay) known
      (mergePages (rows.take n) (entries.take n) n reverse) := by
  have hab : Ascending reverse (rows.take n) := hb.ascending.sublist (List.take_sublist _ _)
  have hao : Ascending reverse (entries.take n) := ho.ascending.sublist (List.take_sublist _ _)
  obtain ⟨hc1, hc2, hc3⟩ := coverOf_spec (rows.take n) (entries.take n) n reverse
  refine ⟨⟨ascending_mergeLoop hab hao, fun k e => ?_⟩, fun c hc => ?_, rfl⟩
  · have hmem := mem_mergeLoop (coverOf (rows.take n) (entries.take n) n reverse)
      hab hao k e
    simp only [mergePages]
    rw [hmem]
    have hpast : (∀ c, coverOf (rows.take n) (entries.take n) n reverse = some c →
        ¬ Before reverse c k) ↔ ¬ Past reverse
          (coverOf (rows.take n) (entries.take n) n reverse) k := by
      simp [Past]
    rw [hpast, and_comm (a := P k), ← and_assoc, and_comm (a := overlaid base overlay k = some e),
      and_assoc]
    refine and_congr_right fun hnp => ?_
    have hbm : ∀ v, (k, v) ∈ rows.take n ↔ base k = some v ∧ P k := fun v =>
      (mem_take_of_not_past hn hb.ascending hc1 hnp).trans (hb.mem k v)
    have hom : ∀ v, (k, v) ∈ entries.take n ↔ overlay k = some v ∧ P k := fun v =>
      (mem_take_of_not_past hn ho.ascending hc2 hnp).trans (ho.mem k v)
    simp only [Merged, hbm, hom, overlaid]
    by_cases hP : P k
    · rcases overlay k with _ | (e' | _ | _) <;> simp [hP]
    · simp [hP]
  · have hc' : c ∈ coverOf (rows.take n) (entries.take n) n reverse := hc
    rcases hc3 c hc' with h | h
    · obtain ⟨v, hv⟩ := mem_of_fullLast h
      have := (hb.mem c v).1 hv
      exact ⟨this.2, hkb c (by simp [this.1])⟩
    · obtain ⟨v, hv⟩ := mem_of_fullLast h
      have := (ho.mem c v).1 hv
      exact ⟨this.2, hko c (by simp [this.1])⟩

end Merge

end Virtuals.Mem
