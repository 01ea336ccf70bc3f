/-
  Two tables, each the inverse of the other.

  `Inverse t u` says that a row `k ↦ v` stands in `t` exactly if `v ↦ k` stands in `u`: no value of
  either repeats, and they hold as many rows. A pair with a new key on both sides may be added, a pair
  taken out.
-/
import Virtuals.Lib.Table

namespace Virtuals.Lib

variable {K V : Type} [DecidableEq K] [DecidableEq V]

/-- Each table holds the rows of the other, turned round. -/
def Inverse (t : Table K V) (u : Table V K) : Prop := ∀ k v, t.get? k = some v ↔ u.get? v = some k

namespace Inverse

variable {t : Table K V} {u : Table V K}

theorem empty : Inverse (∅ : Table K V) ∅ := fun k v => by simp

theorem symm (h : Inverse t u) : Inverse u t := fun v k => (h k v).symm

theorem unique (h : Inverse t u) {k j : K} {v : V} (hk : t.get? k = some v)
    (hj : t.get? j = some v) : k = j :=
  Option.some.inj (((h k v).1 hk).symm.trans ((h j v).1 hj))

theorem get?_eq_none (h : Inverse t u) {k : K} (hk : t.get? k = none) (v : V) :
    u.get? v ≠ some k := fun hv => by
  rw [(h k v).2 hv] at hk
  cases hk

/-- A pair new to both tables. -/
theorem put (h : Inverse t u) {k : K} {v : V} (hk : t.get? k = none) (hv : u.get? v = none) :
    Inverse (t.put k v) (u.put v k) := by
  intro j w
  rw [Table.get?_put, Table.get?_put]
  by_cases hj : j = k <;> by_cases hw : w = v
  · simp [hj, hw]
  · rw [if_pos hj, if_neg hw, hj]
    exact ⟨fun e => absurd (Option.some.inj e).symm hw, fun e => absurd e (h.get?_eq_none hk w)⟩
  · rw [if_neg hj, if_pos hw, hw]
    exact ⟨fun e => absurd e (h.symm.get?_eq_none hv j),
      fun e => absurd (Option.some.inj e).symm hj⟩
  · rw [if_neg hj, if_neg hw]
    exact h j w

/-- A pair taken out of both. -/
theorem erase (h : Inverse t u) {k : K} {v : V} (hk : t.get? k = some v) :
    Inverse (t.erase k) (u.erase v) := by
  intro j w
  rw [Table.get?_erase, Table.get?_erase]
  by_cases hj : j = k <;> by_cases hw : w = v
  · simp [hj, hw]
  · rw [if_pos hj, if_neg hw, hj]
    refine ⟨(fun e => nomatch e), fun e => ?_⟩
    exact absurd (Option.some.inj (((h k w).2 e).symm.trans hk)) hw
  · rw [if_neg hj, if_pos hw, hw]
    refine ⟨fun e => ?_, (fun e => nomatch e)⟩
    exact absurd (h.unique e hk) hj
  · rw [if_neg hj, if_neg hw]
    exact h j w

theorem nodup_values [LinearOrder K] (h : Inverse t u) : (t.rows.map Prod.snd).Nodup := by
  refine (List.nodup_map_iff_inj_on (List.Nodup.of_map _ t.nodup_rows)).2 ?_
  rintro ⟨k, v⟩ hk ⟨j, w⟩ hj rfl
  rw [h.unique (Table.mem_rows.1 hk) (Table.mem_rows.1 hj)]

/-- The values of one are the keys of the other. -/
theorem mem_values [LinearOrder K] (h : Inverse t u) (v : V) :
    v ∈ t.rows.map Prod.snd ↔ (u.get? v).isSome := by
  rw [List.mem_map, Option.isSome_iff_exists]
  constructor
  · rintro ⟨⟨k, w⟩, hk, rfl⟩
    exact ⟨k, (h k w).1 (Table.mem_rows.1 hk)⟩
  · rintro ⟨k, hk⟩
    exact ⟨(k, v), Table.mem_rows.2 ((h k v).2 hk), rfl⟩

end Inverse

end Virtuals.Lib
