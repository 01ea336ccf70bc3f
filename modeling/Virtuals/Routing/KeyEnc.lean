/-
  The bytes of key segments and of routing hints.

  A segment is encoded so that its end shows, and segments that Python calls equal have the same
  bytes (`encSeg_eq_iff`). A hint becomes a `(kind, field, enc)` triple; the triples of hints are
  told apart by their index keys (`setKey_inj`).
-/
import Virtuals.Routing.Hints
import Mathlib.Data.List.Nodup

namespace Virtuals.Routing

open Lib

/-- `(kind, field, enc)`. -/
abbrev HintEntry := Bytes × Bytes × Bytes

/-! ## Segments -/

/-- `enc_seg` of a key segment. -/
def encSeg : KeySegment → Bytes
  | .int v => ascii "i" ++ intDecimal v ++ ascii ";"
  | .bool v => ascii "i" ++ intDecimal v.toInt ++ ascii ";"
  | .str v => ascii "s" ++ decimal (utf8 v).length ++ ascii ":" ++ utf8 v

/-- `enc_seg`; `none` where it raises `TypeError`. -/
def encSegment (s : Segment) : Option Bytes := s.map encSeg

/-- `b"".join(enc_key(segments))`. -/
def encSegments (segments : List Segment) : Option Bytes :=
  (segments.mapM encSegment).map List.flatten

/-- The bytes of what `==` compares. -/
def encNorm : Int ⊕ PyStr → Bytes
  | .inl v => ascii "i" ++ intDecimal v ++ ascii ";"
  | .inr v => ascii "s" ++ decimal (utf8 v).length ++ ascii ":" ++ utf8 v

theorem encSeg_eq (s : KeySegment) : encSeg s = encNorm s.norm := by cases s <;> rfl

theorem intDecimal_not_end {i : Int} {b : UInt8} (hb : b ∈ intDecimal i) : b ≠ 59 := by
  obtain ⟨c, hc, rfl⟩ := List.mem_map.1 hb
  have hn := intText_isNumeric hc
  intro h
  have h59 : c.toNat = 59 := toUInt8_inj (isNumeric_toNat_lt hn) (by decide) h
  have : c = ';' := by rw [← Char.ofNat_toNat c, h59]
  subst this
  cases hn

theorem prefixFree_encNorm : PrefixFree encNorm := by
  have hdelimits : Delimits (Ends fun b => decide (b ≠ 59)) intDecimal :=
    .of_forall (fun i b hb => by simpa using intDecimal_not_end hb) intDecimal_injective
  have hint : PrefixFree fun v : Int => intDecimal v ++ ascii ";" :=
    hdelimits.prefixFree_append fun x => ends_cons rfl
  have hlen : PrefixFree fun n : Nat => decimal n ++ ascii ":" :=
    delimits_decimal.prefixFree_append fun x => ends_cons (by decide)
  rintro (v | v) (w | w) x y - - h
  · simp only [encNorm, List.append_assoc] at h
    have h := hint (a := v) (b := w) trivial trivial (by
      simpa only [List.append_assoc] using List.append_cancel_left h)
    exact ⟨congrArg Sum.inl h.1, h.2⟩
  · exact absurd (List.cons.inj h).1 (by decide)
  · exact absurd (List.cons.inj h).1 (by decide)
  · simp only [encNorm, List.append_assoc] at h
    have h := hlen (a := (utf8 v).length) (b := (utf8 w).length) trivial trivial (by
      simpa only [List.append_assoc] using List.append_cancel_left h)
    obtain ⟨hvw, hxy⟩ := List.append_inj h.2 h.1
    exact ⟨congrArg Sum.inr (utf8_injective hvw), hxy⟩

theorem encNorm_ne_nil (v : Int ⊕ PyStr) : encNorm v ≠ [] := by cases v <;> simp [encNorm, ascii]

/-- (PROVED) Segments have the same bytes exactly when Python calls them equal. -/
theorem encSeg_eq_iff (a b : KeySegment) : encSeg a = encSeg b ↔ a.norm = b.norm := by
  rw [encSeg_eq, encSeg_eq]
  exact (prefixFree_encNorm.injective trivial).eq_iff

theorem encSegments_eq_some {segments : List Segment} {enc : Bytes} :
    encSegments segments = some enc ↔
      ∃ k : Key, segments = k.map some ∧ enc = (k.map encSeg).flatten := by
  unfold encSegments
  induction segments generalizing enc with
  | nil =>
    simp only [List.mapM_nil, Option.pure_def, Option.map_some, List.flatten_nil,
      Option.some.injEq]
    constructor
    · rintro rfl
      exact ⟨[], rfl, rfl⟩
    · rintro ⟨k, hk, rfl⟩
      rw [List.map_eq_nil_iff.1 hk.symm]
      rfl
  | cons s segments ih =>
    rw [List.mapM_cons]
    constructor
    · intro h
      rcases s with _ | s
      · simp [encSegment] at h
      · rcases hm : segments.mapM encSegment with _ | l
        · simp [encSegment, hm] at h
        · obtain ⟨k, rfl, hk⟩ := (@ih l.flatten).1 (by rw [hm]; rfl)
          refine ⟨s :: k, rfl, ?_⟩
          simp only [encSegment, Option.map_some, hm, Option.bind_eq_bind, Option.bind_some,
            Option.pure_def, Option.some.injEq, List.flatten_cons] at h
          rw [← h, hk]
          rfl
    · rintro ⟨k, hk, rfl⟩
      rcases k with _ | ⟨a, k⟩
      · cases hk
      · obtain ⟨rfl, rfl⟩ := List.cons.inj hk
        have := (@ih (k.map encSeg).flatten).2 ⟨k, rfl, rfl⟩
        obtain ⟨l, hl, hflat⟩ := Option.map_eq_some_iff.1 this
        simp [encSegment, hl, hflat]

/-- Joined segments have the same bytes exactly when Python calls them equal. -/
theorem encode_eq_iff (k l : Key) :
    (k.map encSeg).flatten = (l.map encSeg).flatten ↔ sameTuple k (l.map some) = true := by
  have hflat : ∀ k : Key, (k.map encSeg).flatten = (k.map KeySegment.norm).flatMap encNorm := by
    intro k
    rw [List.flatMap_map, ← List.flatMap_def]
    exact List.flatMap_congr fun a _ => encSeg_eq a
  rw [hflat, hflat, sameTuple_iff,
    (prefixFree_encNorm.flatMap_injective encNorm_ne_nil).eq_iff]
  rw [List.map_map, ← (List.map_injective_iff.2 (Option.some_injective _)).eq_iff, List.map_map,
    List.map_map]
  rfl

/-! ## Hints -/

/-- `_ALL_ENTRY`. -/
def ALL_ENTRY : HintEntry := (ascii "a", [], [])

/-- `b",".join(b"%d" % p for p in positions)`. -/
def positionsText (positions : List Nat) : Bytes := separated 44 (positions.map decimal)

/-- `_entry`; `none` where it raises `TypeError`. -/
def entry : RoutingHint → Option HintEntry
  | .prefixHint segments =>
    (encSegments segments).map fun enc => (ascii "p", decimal segments.length, enc)
  | .suffixHint segments =>
    (encSegments segments).map fun enc => (ascii "s", decimal segments.length, enc)
  | .lengthHint n => some (ascii "l", intDecimal n, [])
  | .wildcardHint n fixed _ =>
    (encSegments (fixed.map Prod.snd)).map fun enc =>
      (ascii "w", decimal n ++ ascii ":" ++ positionsText (fixed.map Prod.fst), enc)
  | .allHint => some ALL_ENTRY

/-- The loop of `hint_entries`, with the entries so far. -/
def hintEntriesLoop (out : List HintEntry) : List RoutingHint → List HintEntry
  | [] => out
  | h :: hs =>
    match entry h with
    | none => [ALL_ENTRY]
    | some e =>
      if e = ALL_ENTRY then [ALL_ENTRY]
      else if e ∈ out then hintEntriesLoop out hs
      else hintEntriesLoop (out ++ [e]) hs

/-- `hint_entries`. -/
def hintEntries (hints : List RoutingHint) : List HintEntry := hintEntriesLoop [] hints

/-- The entry of some hint. -/
def IsEntry (e : HintEntry) : Prop := ∃ h, entry h = some e

theorem isEntry_ALL : IsEntry ALL_ENTRY := ⟨.allHint, rfl⟩

theorem hintEntriesLoop_isEntry {out : List HintEntry} (hout : ∀ e ∈ out, IsEntry e)
    (hs : List RoutingHint) : ∀ e ∈ hintEntriesLoop out hs, IsEntry e := by
  induction hs generalizing out with
  | nil => exact hout
  | cons h hs ih =>
    rw [hintEntriesLoop]
    split
    · simpa using isEntry_ALL
    · rename_i e he
      split_ifs
      · simpa using isEntry_ALL
      · exact ih hout
      · refine ih fun x hx => ?_
        rcases List.mem_append.1 hx with hx | hx
        · exact hout x hx
        · exact List.mem_singleton.1 hx ▸ ⟨h, he⟩

theorem hintEntries_isEntry (hints : List RoutingHint) : ∀ e ∈ hintEntries hints, IsEntry e :=
  hintEntriesLoop_isEntry (by simp) hints

theorem hintEntriesLoop_nodup {out : List HintEntry} (hout : out.Nodup) (hs : List RoutingHint) :
    (hintEntriesLoop out hs).Nodup := by
  induction hs generalizing out with
  | nil => exact hout
  | cons h hs ih =>
    rw [hintEntriesLoop]
    split
    · exact List.nodup_singleton _
    · split_ifs with _ hmem
      · exact List.nodup_singleton _
      · exact ih hout
      · exact ih (List.Nodup.append hout (List.nodup_singleton _) (by simpa using hmem))

theorem hintEntries_nodup (hints : List RoutingHint) : (hintEntries hints).Nodup :=
  hintEntriesLoop_nodup List.nodup_nil hints

/-- Either the entry of every hint is there and no other, or there is `_ALL_ENTRY`, which some
    hint makes or stands for one that cannot be encoded. -/
theorem hintEntriesLoop_cases (out : List HintEntry) (hs : List RoutingHint) :
    (∀ e, e ∈ hintEntriesLoop out hs ↔ e ∈ out ∨ ∃ h ∈ hs, entry h = some e) ∨
      hintEntriesLoop out hs = [ALL_ENTRY] ∧
        ((∃ h ∈ hs, entry h = none) ∨ .allHint ∈ hs) := by
  induction hs generalizing out with
  | nil => exact Or.inl fun e => by simp [hintEntriesLoop]
  | cons h hs ih =>
    have all_cons : ((∃ g ∈ hs, entry g = none) ∨ .allHint ∈ hs) →
        (∃ g ∈ h :: hs, entry g = none) ∨ .allHint ∈ h :: hs := by
      rintro (⟨g, hg, hn⟩ | hg)
      · exact Or.inl ⟨g, List.mem_cons_of_mem h hg, hn⟩
      · exact Or.inr (List.mem_cons_of_mem h hg)
    rw [hintEntriesLoop]
    split
    · rename_i he
      exact Or.inr ⟨rfl, Or.inl ⟨h, by simp, he⟩⟩
    · rename_i e he
      split_ifs with hall hmem
      · refine Or.inr ⟨rfl, Or.inr ?_⟩
        subst hall
        cases h <;> simp [entry, ALL_ENTRY, ascii] at he ⊢
      · refine (ih out).imp (fun h' x => ?_) fun hall => ⟨hall.1, all_cons hall.2⟩
        rw [h']
        constructor
        · rintro (hx | ⟨g, hg, hx⟩)
          · exact Or.inl hx
          · exact Or.inr ⟨g, by simp [hg], hx⟩
        · rintro (hx | ⟨g, hg, hx⟩)
          · exact Or.inl hx
          · rcases List.mem_cons.1 hg with rfl | hg
            · exact Or.inl (Option.some.inj (he.symm.trans hx) ▸ hmem)
            · exact Or.inr ⟨g, hg, hx⟩
      · refine (ih (out ++ [e])).imp (fun h' x => ?_) fun hall => ⟨hall.1, all_cons hall.2⟩
        rw [h']
        constructor
        · rintro (hx | ⟨g, hg, hx⟩)
          · rcases List.mem_append.1 hx with hx | hx
            · exact Or.inl hx
            · exact Or.inr ⟨h, by simp, List.mem_singleton.1 hx ▸ he⟩
          · exact Or.inr ⟨g, by simp [hg], hx⟩
        · rintro (hx | ⟨g, hg, hx⟩)
          · exact Or.inl (by simp [hx])
          · rcases List.mem_cons.1 hg with rfl | hg
            · exact Or.inl (by simp [Option.some.inj (he.symm.trans hx)])
            · exact Or.inr ⟨g, hg, hx⟩

end Virtuals.Routing
