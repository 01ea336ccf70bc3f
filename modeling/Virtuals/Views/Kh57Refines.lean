/-
  `Kh57View` simulates a dict by the keys themselves, and its counter is right.

  What is used of `kh57` is only that the key is the low 57 bits (`decode_encode`); for iteration also
  that a level stays below 64.
-/
import Mathlib.Data.Finset.Dedup
import Mathlib.Data.List.Sort
import Mathlib.Tactic.ByContra
import Virtuals.Views.Kh57View

namespace Virtuals.Views.Kh57View

open Virtuals.Lib

variable {P S C X : Type} {level : Key → Nat} {env : Env P S C X}

theorem encode_mod (k : Key) : encode level k % 2 ^ 57 = k := by
  rw [encode, Nat.mul_add_mod_self_right, Nat.mod_eq_of_lt k.isLt]

theorem encode_div (k : Key) : encode level k / 2 ^ 57 = level k := by
  rw [encode, Nat.mul_comm, Nat.mul_add_div (by decide), Nat.div_eq_of_lt k.isLt, Nat.add_zero]

theorem encode_injective : Function.Injective (encode level) := fun k j h =>
  Fin.ext (by rw [← @encode_mod level k, h, encode_mod])

/-- The rows are the dict's items under their encoded keys, and the counter is right. -/
structure Rel (level : Key → Nat) (s : Site P S C) (m : DictModel Key (Child P S C)) : Prop where
  counts : s.Counts
  created : s.created = m.created
  rows : ∀ k, s.children.get? (encode level k) = m.dict.get? k
  encoded : ∀ e, e ∈ s.children.keys → ∃ k, encode level k = e

theorem rel_absent : Rel level (Counted.absent : Site P S C) DictModel.absent where
  counts := Counted.counts_absent
  created := rfl
  rows k := by simp [Counted.absent, DictModel.absent, PyDict.get?, PyDict.lookupItem]
  encoded e h := by simp [Counted.absent] at h

variable {s : Site P S C} {m : DictModel Key (Child P S C)}

theorem Rel.keys (h : Rel level s m) :
    s.children.keys = (m.dict.keys.map (encode level)).toFinset := by
  ext e
  rw [List.mem_toFinset, List.mem_map]
  constructor
  · intro he
    obtain ⟨k, rfl⟩ := h.encoded e he
    rw [Table.mem_keys, h.rows, ← PyDict.mem_keys] at he
    exact ⟨k, he, rfl⟩
  · rintro ⟨k, hk, rfl⟩
    rwa [Table.mem_keys, h.rows, ← PyDict.mem_keys]

/-- The counter is the number of items. -/
theorem Rel.length (h : Rel level s m) : s.len = m.dict.items.length := by
  rw [h.counts.len, Table.size, h.keys,
    List.toFinset_card_of_nodup (m.dict.keys_nodup.map encode_injective), List.length_map,
    PyDict.keys, List.length_map]

theorem get?_put_encode (t : Table Nat (Child P S C)) (c : Child P S C) (k j : Key) :
    (t.put (encode level k) c).get? (encode level j) =
      if j = k then some c else t.get? (encode level j) := by
  rw [Table.get?_put]
  by_cases h : j = k
  · rw [if_pos h, if_pos (congrArg _ h)]
  · rw [if_neg h, if_neg fun he => h (encode_injective he)]

theorem Rel.put (h : Rel level s m) (k : Key) (c : Child P S C) :
    (∀ j, (s.children.put (encode level k) c).get? (encode level j) = (m.dict.set k c).get? j) ∧
      ∀ e, e ∈ (s.children.put (encode level k) c).keys → ∃ k, encode level k = e := by
  refine ⟨fun j => ?_, fun e he => ?_⟩
  · rw [get?_put_encode, PyDict.get?_set, h.rows]
  · rw [Table.keys_put, Finset.mem_insert] at he
    obtain rfl | he := he
    · exact ⟨k, rfl⟩
    · exact h.encoded e he

/-- The base class of the view follows the dict. -/
theorem refines : Refines (base : ViewBase (Site P S C) Nat P S C) (DictModel.base refusesKey)
    (encode level) (Rel level) where
  created h := h.created
  markCreated h _ := { h with counts := h.counts.mark, created := rfl }
  marked _ := rfl
  childMarked _ _ := rfl
  refusesKey _ := rfl
  child h j := h.rows j
  overwrite h j _ c' hc :=
    { counts := h.counts.overwrite c' hc
      created := h.created
      rows := (h.put j c').1
      encoded := (h.put j c').2 }
  record h hs j c hc :=
    ⟨rfl, { counts := h.counts.record c hc hs
            created := h.created
            rows := (h.put j c).1
            encoded := (h.put j c).2 }⟩

theorem Rel.erase (h : Rel level s m) (k : Key) {c : Child P S C}
    (hk : s.children.get? (encode level k) = some c) :
    Rel level
      { s with children := s.children.erase (encode level k), length := some (s.len - 1) }
      { m with dict := m.dict.erase k } where
  counts := h.counts.erase hk
  created := h.created
  rows j := by
    simp only [Table.get?_erase, PyDict.get?_erase, encode_injective.eq_iff, h.rows]
  encoded e he := by
    rw [Table.keys_erase, Finset.mem_erase] at he
    exact h.encoded e he.2

theorem Rel.created_of_some (h : Rel level s m) {e : Nat} {c : Child P S C}
    (hk : s.children.get? e = some c) : s.created = true := by
  by_contra hs
  rw [(h.counts.absent (by simpa using hs)).1, Table.get?_empty] at hk
  cases hk

theorem exists_sim (k : Key) :
    Coupled (Rel level : Site P S C → DictModel Key (Child P S C) → Prop)
      (base.existsChild (encode level k)) ((DictModel.base refusesKey).existsChild k)
      (fun found s m => Rel level s m ∧ (s.children.get? (encode level k)).isSome = found)
      (Rel level) :=
  fun _ _ h => ⟨congrArg Option.isSome (h.rows k), h, rfl⟩

/-- A present item deleted and counted down. -/
theorem deletePresent_sim (k : Key) :
    Coupled (fun (s : Site P S C) m => Rel level s m ∧
        (s.children.get? (encode level k)).isSome = true)
      (do Counted.deleteChild (encode level k); Counted.decrementLength)
      (modify fun m => { m with dict := m.dict.erase k }) (fun _ => Rel level) (Rel level) := by
  refine Coupled.of_ok fun s m ⟨h, hsome⟩ => ?_
  obtain ⟨c, hk⟩ := Option.isSome_iff_exists.1 hsome
  refine ⟨(), _, _, ?_, rfl, h.erase k hk⟩
  rw [bind_of_ok (Counted.deleteChild_made _ (h.created_of_some hk))]
  exact Counted.decrementLength_pos (h.counts.pos hk)

theorem delItem_sim (address : Kh57Address) :
    Sim (Rel level) (delItem level address : EStateM ViewError (Site P S C) Unit)
      (DictModel.delItem checks refusesKey address) := by
  refine Sim.keyed fun k => Coupled.bind (exists_sim k) fun found => ?_
  cases found with
  | true => exact deletePresent_sim k
  | false => exact Coupled.throw _ fun _ _ h => h.1

/-- The backend's delete, of a key that may be absent. -/
theorem deleteEncoded_sim (k : Key) :
    Sim (Rel level) (deleteEncoded env (encode level k))
      (do
        let found ← (DictModel.base refusesKey).existsChild k
        if found then modify fun m => { m with dict := m.dict.erase k } else pure ()) := by
  refine Coupled.bind (exists_sim k) fun found => ?_
  cases found with
  | true =>
    refine Coupled.of_ok fun s m ⟨h, hsome⟩ => ?_
    obtain ⟨c, hk⟩ := Option.isSome_iff_exists.1 hsome
    have hs := h.created_of_some hk
    refine ⟨(), _, _, ?_, rfl, h.erase k hk⟩
    refine (bind_of_ok (ViewBase.ensureCreated_made base env hs)).trans ?_
    refine (bind_of_ok (Counted.deleteChild_made _ hs)).trans ?_
    exact Counted.decrementLength_pos (h.counts.pos hk)
  | false => exact Coupled.pure _ fun _ _ h => h.1

theorem Rel.clear (h : Rel level s m) (hs : s.created = true) :
    Rel level { s with children := s.children.eraseAll s.children.scan, length := some 0 }
      { m with dict := ⟨[], List.nodup_nil⟩ } where
  counts := Counted.Counts.cleared hs
  created := h.created
  rows k := by simp [Table.eraseAll_scan, PyDict.get?, PyDict.lookupItem]
  encoded e he := by simp [Table.eraseAll_scan] at he

theorem Rel.items_absent (h : Rel level s m) (hs : s.created = false) : m.dict.items = [] := by
  have := h.length
  rw [Counted.len, (h.counts.absent hs).2] at this
  exact List.eq_nil_of_length_eq_zero this.symm

theorem clear_sim : Sim (Rel level) (clear env) (DictModel.clear (K := Key)) := by
  refine Coupled.of_ok fun s m h => ?_
  cases hs : s.created with
  | true => exact ⟨(), _, _, Counted.clear_made _ _ hs, rfl, h.clear hs⟩
  | false =>
    refine ⟨(), s, _, Counted.clear_absent _ _ hs, rfl, { h with rows := fun k => ?_ }⟩
    rw [(h.counts.absent hs).1]
    simp [PyDict.get?, PyDict.lookupItem]

theorem len_sim : Sim (Rel level) (Counted.size : EStateM ViewError (Site P S C) Nat)
    (DictModel.len refusesKey) := by
  intro s m h
  rw [h.counts.size_apply, DictModel.len_apply, ← h.created, h.length]
  cases s.created with
  | true => exact ⟨rfl, h⟩
  | false => exact ⟨rfl, h⟩

/-- The view simulates the dict. -/
theorem simulates : Simulates (view level env : DictView (Site P S C) _ _ _ _ _)
    (DictModel.view checks refusesKey) (encode level) (Rel level) where
  refines := refines
  write _ := rfl
  store _ := rfl
  read _ := rfl
  nested _ := rfl
  delItem := delItem_sim
  clear := clear_sim
  len := len_sim
  contains := containsKey_sim refines fun _ => rfl

/-! ## Iteration -/

/-- A list split by levels. -/
theorem levels_perm (n : Nat) (l : List Nat) :
    (((List.range n).map fun i => l.filter fun e => e / 2 ^ 57 = i).flatten).Perm
      (l.filter fun e => e / 2 ^ 57 < n) := by
  induction n with
  | zero => simp
  | succ n ih =>
    have hsplit := List.filter_append_perm (fun e => e / 2 ^ 57 < n)
      (l.filter fun e => e / 2 ^ 57 < n + 1)
    rw [List.filter_filter, List.filter_filter] at hsplit
    have hlt : (l.filter fun e => e / 2 ^ 57 < n) =
        l.filter fun e => decide (e / 2 ^ 57 < n) && decide (e / 2 ^ 57 < n + 1) := by
      refine List.filter_congr fun e _ => ?_
      rw [← Bool.decide_and, decide_eq_decide]
      omega
    have heq : (l.filter fun e => e / 2 ^ 57 = n) =
        l.filter fun e => !decide (e / 2 ^ 57 < n) && decide (e / 2 ^ 57 < n + 1) := by
      refine List.filter_congr fun e _ => ?_
      rw [← decide_not, ← Bool.decide_and, decide_eq_decide]
      omega
    rw [← hlt, ← heq] at hsplit
    rw [List.range_succ, List.map_append, List.flatten_append]
    simpa using (ih.append_right _).trans hsplit

/-- The rows of one level. -/
theorem iterLevelKeys_eq (s : Site P S C) {l : Nat} (hl : l < 64) :
    iterLevelKeys s l = (s.children.scan.filter fun e => e / 2 ^ 57 = l).map (· % 2 ^ 57) := by
  rw [iterLevelKeys, scanEncodedRange]
  congr 1
  refine List.filter_congr fun e _ => ?_
  rw [decide_eq_decide]
  omega

theorem mem_scanEncodedRange {s : Site P S C} {lo hi e : Nat} (h : e ∈ scanEncodedRange s lo hi) :
    lo ≤ e ∧ e < hi := by
  have he := of_decide_eq_true (List.mem_filter.1 h).2
  omega

/-- A scan meets the encoded keys in order, and so the keys of a level in theirs. -/
theorem scanEncodedRange_mod (s : Site P S C) (l : Nat) {lo hi : Nat} (hlo : l * 2 ^ 57 ≤ lo)
    (hhi : hi ≤ l * 2 ^ 57 + 2 ^ 57) :
    (scanEncodedRange s lo hi).Pairwise fun e e' => e % 2 ^ 57 < e' % 2 ^ 57 := by
  have hsorted : (scanEncodedRange s lo hi).Pairwise (· < ·) := s.children.scan_sorted.filter _
  refine hsorted.imp_of_mem fun {e e'} he he' hlt => ?_
  have := mem_scanEncodedRange he
  have := mem_scanEncodedRange he'
  omega

/-- The keys of a level ascend. -/
theorem iterLevelKeys_ascending (s : Site P S C) (l : Nat) :
    HeapMerge.Ascending id (iterLevelKeys s l) :=
  List.pairwise_map.2 ((scanEncodedRange_mod s l (Nat.le_refl _) (Nat.le_refl _)).imp le_of_lt)

/-- What the levels hold together: the rows of the scan. -/
theorem levels_scan (h : Rel level s m) (hlevel : ∀ k, level k < 64) :
    ((List.range 64).map (iterLevelKeys s)).flatten.Perm (s.children.scan.map (· % 2 ^ 57)) := by
  have hmap : (List.range 64).map (iterLevelKeys s) = ((List.range 64).map fun l =>
      s.children.scan.filter fun e => e / 2 ^ 57 = l).map (List.map (· % 2 ^ 57)) := by
    rw [List.map_map]
    exact List.map_congr_left fun l hl => iterLevelKeys_eq s (List.mem_range.1 hl)
  have hall : (s.children.scan.filter fun e => e / 2 ^ 57 < 64) = s.children.scan := by
    refine List.filter_eq_self.2 fun e he => ?_
    obtain ⟨k, rfl⟩ := h.encoded e ((Table.mem_scan _ e).1 he)
    rw [encode_div]
    exact decide_eq_true (hlevel k)
  have hlevels := levels_perm 64 s.children.scan
  rw [hall] at hlevels
  rw [hmap, ← List.map_flatten]
  exact hlevels.map _

/-- The scanned rows are the dict's keys, encoded. -/
theorem scan_perm (h : Rel level s m) :
    s.children.scan.Perm (m.dict.keys.map (encode level)) := by
  refine (List.perm_ext_iff_of_nodup (Table.nodup_scan _)
    (m.dict.keys_nodup.map encode_injective)).2 fun e => ?_
  rw [Table.mem_scan, h.keys, List.mem_toFinset]

/-- The low bits of the encoded keys are the keys. -/
theorem map_mod (ks : List Key) :
    (ks.map (encode level)).map (· % 2 ^ 57) = ks.map Fin.val := by
  induction ks with
  | nil => rfl
  | cons k ks ih => rw [List.map_cons, List.map_cons, List.map_cons, encode_mod, ih]

theorem iter_made (hs : s.created = true) :
    iter s = .ok (HeapMerge.merge id ((List.range 64).map (iterLevelKeys s))) s := by
  rw [iter]
  refine (bind_of_ok (get_apply s)).trans ?_
  generalize HeapMerge.merge id ((List.range 64).map (iterLevelKeys s)) = rows
  simp only [hs, Bool.true_or, if_true]
  rfl

/-- **Iteration yields the keys of the dict, ascending, each once** (PROVED). -/
theorem iter_keys (h : Rel level s m) (hs : s.created = true) (hlevel : ∀ k, level k < 64) :
    ∃ ks : List Nat, iter s = .ok ks s ∧ ks.Pairwise (· ≤ ·) ∧
      ks.Perm (m.dict.keys.map Fin.val) := by
  refine ⟨_, iter_made hs, HeapMerge.ascending fun ks hks => ?_, (HeapMerge.perm id _).trans ?_⟩
  · obtain ⟨l, -, rfl⟩ := List.mem_map.1 hks
    exact iterLevelKeys_ascending s l
  rw [← @map_mod level]
  exact (levels_scan h hlevel).trans ((scan_perm h).map _)

end Virtuals.Views.Kh57View
