/-
  Pending writes over a map.

  `overlay ops m` is `m` under a dictionary of pending writes, the last one of each key: `some v` for
  a put, `none` for a delete. Writing one more operation in the dictionary writes it in the overlay
  (`overlay_set`), and replaying the dictionary on the map, in whatever order it keeps its keys, gives
  the overlay and tells which deletes found nothing (`replay_fst`, `mem_replay_snd`).
-/
import Mathlib.Logic.Function.Basic
import Virtuals.Lib.PyDict

namespace Virtuals.Lib

variable {K V : Type} [DecidableEq K]

/-- `m` under the pending writes `ops`. -/
def overlay (ops : PyDict K (Option V)) (m : K → Option V) : K → Option V := fun k =>
  match ops.get? k with
  | some v => v
  | none => m k

/-- Apply one write; the keys of the deletes that found nothing are collected. -/
def replayOne (a : (K → Option V) × List K) (op : K × Option V) : (K → Option V) × List K :=
  match op with
  | (k, some v) => (Function.update a.1 k (some v), a.2)
  | (k, none) => (Function.update a.1 k none, if (a.1 k).isSome then a.2 else a.2 ++ [k])

/-- Apply the writes one after the other. -/
def replay (ops : PyDict K (Option V)) (m : K → Option V) : (K → Option V) × List K :=
  ops.items.foldl replayOne (m, [])

theorem overlay_set (ops : PyDict K (Option V)) (m : K → Option V) (k : K) (v : Option V) :
    overlay (ops.set k v) m = Function.update (overlay ops m) k v := by
  funext j
  by_cases hj : j = k
  · subst hj
    simp [overlay]
  · simp [overlay, PyDict.get?_set_of_ne _ _ hj, hj]

theorem replayOne_fst (a : (K → Option V) × List K) (op : K × Option V) :
    (replayOne a op).1 = Function.update a.1 op.1 op.2 := by
  obtain ⟨k, _ | v⟩ := op <;> rfl

/-- Writes of other keys do not touch `k`. -/
theorem foldl_replayOne_of_notMem {l : List (K × Option V)} {k : K} (hk : k ∉ l.map Prod.fst)
    (a : (K → Option V) × List K) :
    (l.foldl replayOne a).1 k = a.1 k ∧ (k ∈ (l.foldl replayOne a).2 ↔ k ∈ a.2) := by
  induction l generalizing a with
  | nil => exact ⟨rfl, Iff.rfl⟩
  | cons op l ih =>
    rw [List.map_cons, List.mem_cons, not_or] at hk
    obtain ⟨hmap, hmissing⟩ := ih hk.2 (replayOne a op)
    rw [List.foldl_cons, hmap, hmissing, replayOne_fst, Function.update_of_ne hk.1]
    refine ⟨rfl, ?_⟩
    obtain ⟨j, _ | v⟩ := op
    · unfold replayOne
      dsimp only
      split_ifs
      · exact Iff.rfl
      · rw [List.mem_append, List.mem_singleton]
        exact or_iff_left hk.1
    · exact Iff.rfl

/-- The last write of `k` is the one that counts, and its delete finds what was there before. -/
theorem foldl_replayOne {l : List (K × Option V)} (hl : (l.map Prod.fst).Nodup) {k : K} {v : Option V}
    (hk : (k, v) ∈ l) (a : (K → Option V) × List K) :
    (l.foldl replayOne a).1 k = v ∧
      (k ∈ (l.foldl replayOne a).2 ↔ k ∈ a.2 ∨ (v = none ∧ a.1 k = none)) := by
  induction l generalizing a with
  | nil => cases hk
  | cons op l ih =>
    rw [List.map_cons, List.nodup_cons] at hl
    rcases List.mem_cons.1 hk with rfl | hmem
    · obtain ⟨hmap, hmissing⟩ := foldl_replayOne_of_notMem hl.1 (replayOne a (k, v))
      rw [List.foldl_cons, hmap, hmissing, replayOne_fst, Function.update_self]
      refine ⟨rfl, ?_⟩
      rcases v with _ | v
      · unfold replayOne
        dsimp only
        rcases ha : a.1 k with _ | w
        · simp
        · simp
      · simp [replayOne]
    · have hne : k ≠ op.1 := by
        rintro rfl
        exact hl.1 (List.mem_map.2 ⟨_, hmem, rfl⟩)
      obtain ⟨hmap, hmissing⟩ := ih hl.2 hmem (replayOne a op)
      rw [List.foldl_cons, hmap, hmissing, replayOne_fst, Function.update_of_ne hne]
      refine ⟨rfl, or_congr ?_ Iff.rfl⟩
      exact (foldl_replayOne_of_notMem (l := [op]) (by simpa using hne) a).2

/-- (PROVED) A replay gives the overlay. -/
theorem replay_fst (ops : PyDict K (Option V)) (m : K → Option V) :
    (replay ops m).1 = overlay ops m := by
  funext k
  unfold replay overlay
  rcases hk : ops.get? k with _ | v
  · exact (foldl_replayOne_of_notMem ((ops.get?_eq_none k).1 hk) (m, [])).1
  · exact (foldl_replayOne ops.nodup ((ops.mem_items k v).2 hk) (m, [])).1

/-- (PROVED) What it reports are the deletes of keys that were not there. -/
theorem mem_replay_snd (ops : PyDict K (Option V)) (m : K → Option V) (k : K) :
    k ∈ (replay ops m).2 ↔ ops.get? k = some none ∧ m k = none := by
  unfold replay
  rcases hk : ops.get? k with _ | v
  · rw [(foldl_replayOne_of_notMem ((ops.get?_eq_none k).1 hk) (m, [])).2]
    simp
  · rw [(foldl_replayOne ops.nodup ((ops.mem_items k v).2 hk) (m, [])).2]
    simp

end Virtuals.Lib
