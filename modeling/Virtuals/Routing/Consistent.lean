/-
  The index stays consistent: its SETs and counters say what `refs` records.

  The entries of hints have index keys of their own (`setKey_inj`), so removing one of a hash
  leaves the others. From this one turn of a loop of `reg` or `unreg` keeps `Indexed`, and a whole
  call keeps `Consistent` (`consistent_reg`, `consistent_unreg`).
-/
import Virtuals.Routing.Index

namespace Virtuals.Routing

open Lib

variable {P : Bytes} {cm : Cmsgpack} {ix : Index} {R : Bytes → List HintEntry}

/-! ## Index keys -/

theorem intDecimal_ne {i : Int} {b : UInt8} (hb : b ∈ intDecimal i) {c : Char}
    (hc : isNumeric c = false) (hlt : c.toNat < 256) : b ≠ c.toNat.toUInt8 := by
  obtain ⟨d, hd, rfl⟩ := List.mem_map.1 hb
  have hn := intText_isNumeric hd
  intro h
  have hcd : d.toNat = c.toNat := toUInt8_inj (isNumeric_toNat_lt hn) hlt h
  have hdc : d = c := by rw [← Char.ofNat_toNat d, hcd, Char.ofNat_toNat]
  rw [hdc, hc] at hn
  cases hn

/-- What stands before a colon. -/
theorem append_colon_inj {f g x y : Bytes} (hf : ∀ b ∈ f, b ≠ 58) (hg : ∀ b ∈ g, b ≠ 58)
    (h : f ++ 58 :: x = g ++ 58 :: y) : f = g ∧ x = y := by
  have hcut : ∀ {w z : Bytes}, (∀ b ∈ w, b ≠ 58) →
      (w ++ 58 :: z).takeWhile (fun b => decide (b ≠ 58)) = w := fun hw =>
    takeWhile_append_of_ends (fun b hb => by simpa using hw b hb) (ends_cons (by decide))
  have hfg : f = g := by rw [← hcut hf, h, hcut hg]
  subst hfg
  exact ⟨rfl, (List.cons.inj (List.append_cancel_left h)).2⟩

theorem intDecimal_noColon {i : Int} : ∀ b ∈ intDecimal i, b ≠ 58 := fun _ hb =>
  intDecimal_ne hb (c := ':') rfl (by decide)

theorem mem_separated {s b : UInt8} {ws : List Bytes} (h : b ∈ separated s ws) :
    b = s ∨ ∃ w ∈ ws, b ∈ w := by
  cases ws with
  | nil => cases h
  | cons w ws =>
    rcases List.mem_append.1 h with h | h
    · exact Or.inr ⟨w, by simp, h⟩
    · obtain ⟨v, hv, hb⟩ := List.mem_flatMap.1 h
      rcases List.mem_cons.1 hb with hb | hb
      · exact Or.inl hb
      · exact Or.inr ⟨v, by simp [hv], hb⟩

theorem positionsText_noColon (ps : List Nat) : ∀ b ∈ positionsText ps, b ≠ 58 := by
  intro b hb
  rcases mem_separated hb with rfl | ⟨w, hw, hb⟩
  · decide
  · obtain ⟨p, -, rfl⟩ := List.mem_map.1 hw
    exact intDecimal_noColon (i := p) b hb

/-- An entry is `_ALL_ENTRY`, or of another kind with a field without a colon, or a wildcard's. -/
theorem isEntry_cases {e : HintEntry} (h : IsEntry e) :
    e = ALL_ENTRY ∨
    ((e.1 = ascii "p" ∨ e.1 = ascii "s" ∨ e.1 = ascii "l") ∧ ∀ b ∈ e.2.1, b ≠ 58) ∨
    (e.1 = ascii "w" ∧ ∃ n ps, e.2.1 = decimal n ++ ascii ":" ++ positionsText ps) := by
  obtain ⟨g, hg⟩ := h
  cases g with
  | prefixHint s =>
    obtain ⟨enc, -, rfl⟩ := Option.map_eq_some_iff.1 hg
    exact Or.inr (Or.inl ⟨Or.inl rfl, intDecimal_noColon (i := (s.length : Int))⟩)
  | suffixHint s =>
    obtain ⟨enc, -, rfl⟩ := Option.map_eq_some_iff.1 hg
    exact Or.inr (Or.inl ⟨Or.inr (Or.inl rfl), intDecimal_noColon (i := (s.length : Int))⟩)
  | lengthHint n =>
    obtain rfl := Option.some.inj hg
    exact Or.inr (Or.inl ⟨Or.inr (Or.inr rfl), intDecimal_noColon⟩)
  | wildcardHint n fixed inside =>
    obtain ⟨enc, -, rfl⟩ := Option.map_eq_some_iff.1 hg
    exact Or.inr (Or.inr ⟨rfl, n, _, rfl⟩)
  | allHint =>
    obtain rfl := Option.some.inj hg
    exact Or.inl rfl

/-- The key of an entry after the namespace. -/
theorem setKey_eq (e : HintEntry) : setKey P e = P ++ NS ++
    (if e.1 = ascii "a" then ascii "a" else e.1 ++ ascii ":" ++ e.2.1 ++ ascii ":" ++ e.2.2) := by
  unfold setKey
  split_ifs <;> simp only [List.append_assoc]

/-- (PROVED) Entries of hints have index keys of their own. -/
theorem setKey_inj {e e' : HintEntry} (he : IsEntry e) (he' : IsEntry e')
    (h : setKey P e = setKey P e') : e = e' := by
  obtain ⟨k, f, enc⟩ := e
  obtain ⟨k', f', enc'⟩ := e'
  rw [setKey_eq, setKey_eq] at h
  have h := List.append_cancel_left h
  dsimp only at h
  have hw : ascii "w" ≠ ascii "a" := by decide
  have hplain : ∀ {k f x k' f' y : Bytes}, k.length = 1 → k'.length = 1 → (∀ b ∈ f, b ≠ 58) →
      (∀ b ∈ f', b ≠ 58) → k ++ ascii ":" ++ f ++ ascii ":" ++ x =
        k' ++ ascii ":" ++ f' ++ ascii ":" ++ y → k = k' ∧ f = f' ∧ x = y := by
    intro k f x k' f' y hk hk' hf hf' h
    simp only [List.append_assoc] at h
    obtain ⟨hkk, hrest⟩ := List.append_inj h (by rw [hk, hk'])
    obtain ⟨hff, hxy⟩ := append_colon_inj hf hf' (List.cons.inj hrest).2
    exact ⟨hkk, hff, hxy⟩
  have hlen : ∀ {k : Bytes}, k = ascii "p" ∨ k = ascii "s" ∨ k = ascii "l" → k.length = 1 ∧
      k ≠ ascii "a" ∧ k ≠ ascii "w" := by
    rintro k (rfl | rfl | rfl) <;> decide
  have hhead : ∀ {k x : Bytes}, k ≠ ascii "a" → k.length = 1 → ascii "a" ≠ k ++ x := by
    rintro k x hk hk1 h
    obtain ⟨b, rfl⟩ := List.length_eq_one_iff.1 hk1
    exact hk (by rw [show ascii "a" = [97] by decide] at h ⊢; rw [(List.cons.inj h).1])
  rcases isEntry_cases he with he | ⟨hk, hf⟩ | ⟨hk, n, ps, hf⟩ <;>
    rcases isEntry_cases he' with he' | ⟨hk', hf'⟩ | ⟨hk', m, qs, hf'⟩
  · exact he.trans he'.symm
  · obtain ⟨rfl, -⟩ := Prod.mk.inj he
    dsimp only at hk'
    rw [if_pos rfl, if_neg (hlen hk').2.1] at h
    simp only [List.append_assoc] at h
    exact absurd h (hhead (hlen hk').2.1 (hlen hk').1)
  · obtain ⟨rfl, -⟩ := Prod.mk.inj he
    dsimp only at hk'
    subst hk'
    rw [if_pos rfl, if_neg hw] at h
    simp only [List.append_assoc] at h
    exact absurd h (hhead (by decide) rfl)
  · obtain ⟨rfl, -⟩ := Prod.mk.inj he'
    dsimp only at hk
    rw [if_pos rfl, if_neg (hlen hk).2.1] at h
    simp only [List.append_assoc] at h
    exact absurd h.symm (hhead (hlen hk).2.1 (hlen hk).1)
  · dsimp only at hk hk' hf hf'
    rw [if_neg (hlen hk).2.1, if_neg (hlen hk').2.1] at h
    obtain ⟨rfl, rfl, rfl⟩ := hplain (hlen hk).1 (hlen hk').1 hf hf' h
    rfl
  · dsimp only at hk hk' hf hf'
    subst hk' hf'
    rw [if_neg (hlen hk).2.1, if_neg hw] at h
    simp only [List.append_assoc] at h
    exact absurd (List.append_inj h (by rw [(hlen hk).1]; rfl)).1 (hlen hk).2.2
  · obtain ⟨rfl, -⟩ := Prod.mk.inj he'
    dsimp only at hk
    subst hk
    rw [if_pos rfl, if_neg hw] at h
    simp only [List.append_assoc] at h
    exact absurd h.symm (hhead (by decide) rfl)
  · dsimp only at hk hk' hf hf'
    subst hk hf
    rw [if_neg (hlen hk').2.1, if_neg hw] at h
    simp only [List.append_assoc] at h
    exact absurd (List.append_inj h (by rw [(hlen hk').1]; rfl)).1.symm (hlen hk').2.2
  · dsimp only at hk hk' hf hf'
    subst hk hk' hf hf'
    rw [if_neg hw, if_neg hw] at h
    have h1 : decimal n ++ 58 :: (positionsText ps ++ 58 :: enc) =
        decimal m ++ 58 :: (positionsText qs ++ 58 :: enc') := by
      simp only [List.append_assoc] at h
      exact (List.cons.inj (List.cons.inj h).2).2
    obtain ⟨hnm, h2⟩ := append_colon_inj (intDecimal_noColon (i := (n : Int)))
      (intDecimal_noColon (i := (m : Int))) h1
    obtain ⟨hps, rfl⟩ := append_colon_inj (positionsText_noColon ps) (positionsText_noColon qs) h2
    rw [decimal_eq, decimal_eq, hnm, hps]

/-! ## One entry -/

/-- An entry of `h` is added. -/
theorem Indexed.regEntry (hix : Indexed P ix R) {h : Bytes} {e : HintEntry} (he : e ∉ R h) :
    Indexed P (Routing.regEntry P h ix e) (Function.update R h (R h ++ [e])) where
  sets := by
    intro key h'
    rw [regEntry_sets, mem_sadd, hix.sets]
    by_cases hh : h' = h
    · subst hh
      simp only [Function.update_self, List.mem_append, List.mem_singleton, and_true]
      constructor
      · rintro (⟨x, hx, rfl⟩ | rfl)
        · exact ⟨x, Or.inl hx, rfl⟩
        · exact ⟨e, Or.inr rfl, rfl⟩
      · rintro ⟨x, hx | rfl, rfl⟩
        · exact Or.inl ⟨x, hx, rfl⟩
        · exact Or.inr rfl
    · simp [hh]
  counters := by
    intro c field
    obtain ⟨n, hn, hget⟩ := hix.counters c field
    rw [regEntry_counters]
    have hmem : ∀ x : Bytes × HintEntry, x.2 ∈ Function.update R h (R h ++ [e]) x.1 ↔
        x = (h, e) ∨ x.2 ∈ R x.1 := by
      rintro ⟨h', x⟩
      by_cases hh : h' = h
      · subst hh
        simp [or_comm]
      · simp [hh]
    split_ifs with hc
    · refine ⟨n + 1, hn.join (c := (h, e)) (fun hx => he hx.1) fun x => ?_, ?_⟩
      · rw [hmem]
        constructor
        · rintro ⟨hx | hx, hrest⟩
          · exact Or.inl hx
          · exact Or.inr ⟨hx, hrest⟩
        · rintro (rfl | ⟨hx, hrest⟩)
          · exact ⟨Or.inl rfl, hc⟩
          · exact ⟨Or.inr hx, hrest⟩
      · rw [if_neg (Nat.succ_ne_zero n), hget]
        split_ifs with h0
        · simp [h0]
        · simp
    · refine ⟨n, hn.congr fun x => ?_, hget⟩
      rw [hmem]
      constructor
      · rintro ⟨hx, hrest⟩
        exact ⟨Or.inr hx, hrest⟩
      · rintro ⟨rfl | hx, hrest⟩
        · exact absurd hrest hc
        · exact ⟨hx, hrest⟩

/-- The first entry of `h` is removed. -/
theorem Indexed.unregEntry (hix : Indexed P ix R) {h : Bytes} {e : HintEntry}
    {rest : List HintEntry} (hR : R h = e :: rest) (hkeys : ((R h).map (setKey P)).Nodup) :
    Indexed P (Routing.unregEntry P h ix e) (Function.update R h rest) where
  sets := by
    intro key h'
    rw [unregEntry_sets, mem_srem, hix.sets]
    by_cases hh : h' = h
    · subst hh
      rw [hR, List.map_cons, List.nodup_cons] at hkeys
      simp only [Function.update_self, hR, and_true]
      constructor
      · rintro ⟨⟨x, hx, rfl⟩, hne⟩
        rcases List.mem_cons.1 hx with rfl | hx
        · exact absurd rfl hne
        · exact ⟨x, hx, rfl⟩
      · rintro ⟨x, hx, rfl⟩
        exact ⟨⟨x, List.mem_cons_of_mem _ hx, rfl⟩,
          fun he => hkeys.1 (he ▸ List.mem_map_of_mem hx)⟩
    · simp [hh]
  counters := by
    intro c field
    obtain ⟨n, hn, hget⟩ := hix.counters c field
    rw [unregEntry_counters]
    have hnot : e ∉ rest := by
      rw [hR, List.map_cons, List.nodup_cons] at hkeys
      exact fun he => hkeys.1 (List.mem_map_of_mem he)
    have hmem : ∀ x : Bytes × HintEntry, x.2 ∈ Function.update R h rest x.1 ↔
        x ≠ (h, e) ∧ x.2 ∈ R x.1 := by
      rintro ⟨h', x⟩
      by_cases hh : h' = h
      · subst hh
        simp only [Function.update_self, hR, List.mem_cons, ne_eq, Prod.mk.injEq, true_and]
        exact ⟨fun hx => ⟨fun he => hnot (he ▸ hx), Or.inr hx⟩, fun hx => hx.2.resolve_left hx.1⟩
      · simp [hh]
    split_ifs with hc hle
    · have hpos := hn.pos (c := (h, e)) ⟨by simp [hR], hc⟩
      rw [hget, if_neg (by omega)] at hle
      simp only [Option.getD_some] at hle
      obtain rfl : n = 1 := by omega
      refine ⟨0, ?_, by simp⟩
      refine hn.leave (c := (h, e)) ⟨by simp [hR], hc⟩ fun x => ?_
      rw [hmem, and_assoc]
    · have hpos := hn.pos (c := (h, e)) ⟨by simp [hR], hc⟩
      rw [hget, if_neg (by omega)] at hle ⊢
      simp only [Option.getD_some] at hle ⊢
      refine ⟨n - 1, hn.leave (c := (h, e)) ⟨by simp [hR], hc⟩ fun x => ?_, ?_⟩
      · rw [hmem, and_assoc]
      · rw [if_neg (by omega)]
        exact congrArg some (by omega)
    · refine ⟨n, hn.congr fun x => ?_, hget⟩
      rw [hmem]
      constructor
      · rintro ⟨hx, hrest⟩
        exact ⟨⟨fun he => hc (by rw [he] at hrest; exact hrest), hx⟩, hrest⟩
      · rintro ⟨hx, hrest⟩
        exact ⟨hx.2, hrest⟩

/-! ## Whole calls -/

theorem Indexed.foldl_regEntry (hix : Indexed P ix R) {h : Bytes} {entries : List HintEntry}
    (hnodup : (R h ++ entries).Nodup) :
    Indexed P (entries.foldl (Routing.regEntry P h) ix) (Function.update R h (R h ++ entries)) := by
  induction entries generalizing ix R with
  | nil => simpa using hix
  | cons e entries ih =>
    have he : e ∉ R h := fun hm => (List.nodup_append.1 hnodup).2.2 e hm e (by simp) rfl
    have := ih (hix.regEntry he) (by simpa using hnodup)
    simpa using this

theorem Indexed.foldl_unregEntry (hix : Indexed P ix R) {h : Bytes} {entries : List HintEntry}
    (hR : R h = entries) (hkeys : (entries.map (setKey P)).Nodup) :
    Indexed P (entries.foldl (Routing.unregEntry P h) ix) (Function.update R h []) := by
  induction entries generalizing ix R with
  | nil =>
    have : Function.update R h [] = R := by rw [← hR, Function.update_eq_self]
    rw [this]
    exact hix
  | cons e entries ih =>
    have := ih (hix.unregEntry hR (by rwa [hR])) (by simp) (List.nodup_cons.1 hkeys).2
    simpa using this

theorem foldl_refs {f : Index → HintEntry → Index} (hf : ∀ ix e, (f ix e).refs = ix.refs)
    (entries : List HintEntry) (ix : Index) : (entries.foldl f ix).refs = ix.refs := by
  induction entries generalizing ix with
  | nil => rfl
  | cons e entries ih => rw [List.foldl_cons, ih, hf]

/-- What every call keeps: SETs and counters say what `refs` records, which are hints' entries. -/
structure Consistent (P : Bytes) (cm : Cmsgpack) (ix : Index) : Prop where
  indexed : Indexed P ix (ix.entriesOf cm)
  isEntry : ∀ h, ∀ e ∈ ix.entriesOf cm h, IsEntry e
  nodup : ∀ h, (ix.entriesOf cm h).Nodup

theorem consistent_empty : Consistent P cm .empty where
  indexed :=
    { sets := fun key h => by simp [Index.empty, Index.entriesOf, recorded]
      counters := fun c field =>
        ⟨0, Tally.of_none fun x hx => by simp [Index.empty, Index.entriesOf, recorded] at hx, rfl⟩ }
  isEntry := by simp [Index.empty, Index.entriesOf, recorded]
  nodup := by simp [Index.empty, Index.entriesOf, recorded]

theorem Consistent.keys_nodup (hix : Consistent P cm ix) (h : Bytes) :
    ((ix.entriesOf cm h).map (setKey P)).Nodup :=
  (hix.nodup h).map_on fun _ he _ he' => setKey_inj (hix.isEntry h _ he) (hix.isEntry h _ he')

/-- What `refs` records after it was changed for one hash. -/
theorem entriesOf_update (cm : Cmsgpack) (ix ix' : Index) (h : Bytes) {v : Option Bytes}
    (hrefs : ix'.refs = Function.update ix.refs h v) :
    ix'.entriesOf cm = Function.update (ix.entriesOf cm) h (recorded cm v) := by
  have := Function.comp_update (recorded cm) ix.refs h v
  rw [← hrefs] at this
  exact this

theorem reg_of_absent {h : Bytes} (habsent : ix.refs h = none) (entries : List HintEntry) :
    reg P cm h (flat entries) ix = ({ entries.foldl (Routing.regEntry P h) ix with
      refs := Function.update ix.refs h (some (cm.pack (flat entries))) }, 1) := by
  unfold reg
  rw [habsent]
  simp only [Option.isSome_none, Bool.false_eq_true, if_false, triples_flat]
  rw [foldl_refs (fun ix e => regEntry_refs h e)]

theorem unreg_of_present {h : Bytes} (hpresent : ix.refs h ≠ none) :
    unreg P cm h ix = { (ix.entriesOf cm h).foldl (Routing.unregEntry P h) ix with
      refs := Function.update ix.refs h none } := by
  obtain ⟨packed, hp⟩ := Option.ne_none_iff_exists'.1 hpresent
  unfold unreg Index.entriesOf
  rw [hp]
  dsimp only [recorded]
  rw [foldl_refs (fun ix e => unregEntry_refs h e)]

/-- (PROVED) A registration keeps the index consistent. -/
theorem consistent_reg (hix : Consistent P cm ix) (h : Bytes) (hints : List RoutingHint) :
    Consistent P cm (reg P cm h (flat (hintEntries hints)) ix).1 := by
  rcases hr : ix.refs h with _ | packed
  · rw [reg_of_absent hr]
    have hnone : ix.entriesOf cm h = [] := by simp [Index.entriesOf, recorded, hr]
    have heq := entriesOf_update cm ix
      { (hintEntries hints).foldl (Routing.regEntry P h) ix with
        refs := Function.update ix.refs h (some (cm.pack (flat (hintEntries hints)))) } h rfl
    simp only [recorded, cm.unpack_pack, triples_flat] at heq
    have hat : ∀ h', (Function.update (ix.entriesOf cm) h (hintEntries hints)) h' =
        if h' = h then hintEntries hints else ix.entriesOf cm h' := Function.update_apply _ _ _
    constructor
    · rw [heq]
      have hnodup : (ix.entriesOf cm h ++ hintEntries hints).Nodup := by
        simpa [hnone] using hintEntries_nodup hints
      have := hix.indexed.foldl_regEntry hnodup
      rw [hnone, List.nil_append] at this
      exact ⟨this.sets, this.counters⟩
    · intro h' e he
      rw [heq, hat] at he
      split_ifs at he
      · exact hintEntries_isEntry hints e he
      · exact hix.isEntry h' e he
    · intro h'
      rw [heq, hat]
      split_ifs
      · exact hintEntries_nodup hints
      · exact hix.nodup h'
  · unfold reg
    rw [hr]
    exact hix

/-- (PROVED) So does a removal. -/
theorem consistent_unreg (hix : Consistent P cm ix) (h : Bytes) :
    Consistent P cm (unreg P cm h ix) := by
  rcases hr : ix.refs h with _ | packed
  · unfold unreg
    rw [hr]
    exact hix
  · rw [unreg_of_present (by simp [hr])]
    have heq := entriesOf_update cm ix
      { (ix.entriesOf cm h).foldl (Routing.unregEntry P h) ix with
        refs := Function.update ix.refs h none } h rfl
    have hat : ∀ h', (Function.update (ix.entriesOf cm) h (recorded cm none)) h' =
        if h' = h then [] else ix.entriesOf cm h' := Function.update_apply _ _ _
    constructor
    · rw [heq]
      have := hix.indexed.foldl_unregEntry (h := h) rfl (hix.keys_nodup h)
      exact ⟨this.sets, this.counters⟩
    · intro h' e he
      rw [heq, hat] at he
      split_ifs at he
      · cases he
      · exact hix.isEntry h' e he
    · intro h'
      rw [heq, hat]
      split_ifs
      · exact List.nodup_nil
      · exact hix.nodup h'

end Virtuals.Routing
