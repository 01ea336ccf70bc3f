/-
  Tokens at places.

  `Balanced held issued` says that every issued token is at exactly one place, there once, and that
  no other token is anywhere: what it means that nothing is lost or counted twice. The rules follow
  what a step can do: rearrange a place, move tokens from one place to another, issue new ones.
-/
import Mathlib.Data.List.Nodup
import Mathlib.Data.List.Perm.Basic

namespace Virtuals.Lib

variable {P τ : Type*}

structure Balanced (held : P → List τ) (issued : τ → Prop) : Prop where
  nodup : ∀ p, (held p).Nodup
  apart : ∀ {p q t}, t ∈ held p → t ∈ held q → p = q
  total : ∀ t, issued t ↔ ∃ p, t ∈ held p

namespace Balanced

variable {held held' : P → List τ} {issued : τ → Prop} {p q : P} {ts : List τ}

/-- Places are rearranged. -/
theorem arrange (h : Balanced held issued) (hall : ∀ r, (held' r).Perm (held r)) :
    Balanced held' issued where
  nodup r := (hall r).nodup_iff.2 (h.nodup r)
  apart hp hq := h.apart ((hall _).mem_iff.1 hp) ((hall _).mem_iff.1 hq)
  total t := (h.total t).trans (exists_congr fun r => (hall r).mem_iff.symm)

/-- `ts` go from `p` to `q`. -/
theorem move (h : Balanced held issued) (hpq : p ≠ q) (hp : (held p).Perm (ts ++ held' p))
    (hq : (held' q).Perm (held q ++ ts)) (hrest : ∀ r, r ≠ p → r ≠ q → held' r = held r) :
    Balanced held' issued := by
  have hmemp : ∀ t, t ∈ held p ↔ t ∈ ts ∨ t ∈ held' p := fun t => by
    rw [hp.mem_iff, List.mem_append]
  have hmemq : ∀ t, t ∈ held' q ↔ t ∈ held q ∨ t ∈ ts := fun t => by
    rw [hq.mem_iff, List.mem_append]
  have hnodup : (ts ++ held' p).Nodup := hp.nodup_iff.1 (h.nodup p)
  obtain ⟨hts, hleft, hdisj⟩ := List.nodup_append.1 hnodup
  -- a token is at `q` now because it came with `ts`, or where it was and did not
  have hat : ∀ {r t}, t ∈ held' r → (r = q ∧ t ∈ ts) ∨ (t ∈ held r ∧ t ∉ ts) := by
    intro r t ht
    by_cases hrq : r = q
    · subst hrq
      by_cases hm : t ∈ ts
      · exact Or.inl ⟨rfl, hm⟩
      · exact Or.inr ⟨((hmemq t).1 ht).resolve_right hm, hm⟩
    · refine Or.inr ?_
      by_cases hrp : r = p
      · subst hrp
        exact ⟨(hmemp t).2 (Or.inr ht), fun hm => hdisj t hm t ht rfl⟩
      · rw [hrest r hrp hrq] at ht
        exact ⟨ht, fun hm => hrp (h.apart ht ((hmemp t).2 (Or.inl hm)))⟩
  refine ⟨fun r => ?_, fun hr hr' => ?_, fun t => ⟨fun hi => ?_, fun ⟨r, hr⟩ => ?_⟩⟩
  · by_cases hrq : r = q
    · subst hrq
      refine hq.nodup_iff.2 (List.Nodup.append (h.nodup r) hts fun t ht hm => ?_)
      exact hpq (h.apart ((hmemp t).2 (Or.inl hm)) ht)
    · by_cases hrp : r = p
      · subst hrp
        exact hleft
      · rw [hrest r hrp hrq]
        exact h.nodup r
  · rcases hat hr with ⟨rfl, hm⟩ | ⟨ht, hm⟩ <;> rcases hat hr' with ⟨rfl, hm'⟩ | ⟨ht', hm'⟩
    · rfl
    · exact absurd hm hm'
    · exact absurd hm' hm
    · exact h.apart ht ht'
  · obtain ⟨r, hr⟩ := (h.total t).1 hi
    by_cases hm : t ∈ ts
    · exact ⟨q, (hmemq t).2 (Or.inr hm)⟩
    · by_cases hrp : r = p
      · subst hrp
        exact ⟨r, ((hmemp t).1 hr).resolve_left hm⟩
      · by_cases hrq : r = q
        · subst hrq
          exact ⟨r, (hmemq t).2 (Or.inl hr)⟩
        · refine ⟨r, ?_⟩
          rw [hrest r hrp hrq]
          exact hr
  · rcases hat hr with ⟨-, hm⟩ | ⟨ht, -⟩
    · exact (h.total t).2 ⟨p, (hmemp t).2 (Or.inl hm)⟩
    · exact (h.total t).2 ⟨r, ht⟩

/-- `ts` are new, at `q`. -/
theorem issue (h : Balanced held issued) (hnew : ∀ t ∈ ts, ¬ issued t) (hts : ts.Nodup)
    (hq : (held' q).Perm (held q ++ ts)) (hrest : ∀ r, r ≠ q → held' r = held r) :
    Balanced held' fun t => issued t ∨ t ∈ ts := by
  have hmemq : ∀ t, t ∈ held' q ↔ t ∈ held q ∨ t ∈ ts := fun t => by
    rw [hq.mem_iff, List.mem_append]
  have hnot : ∀ {r t}, t ∈ held r → t ∉ ts := fun {r t} ht hm =>
    hnew t hm ((h.total t).2 ⟨r, ht⟩)
  have hat : ∀ {r t}, t ∈ held' r → (r = q ∧ t ∈ ts) ∨ t ∈ held r := by
    intro r t ht
    by_cases hrq : r = q
    · subst hrq
      exact ((hmemq t).1 ht).symm.imp_left fun hm => ⟨rfl, hm⟩
    · rw [hrest r hrq] at ht
      exact Or.inr ht
  refine ⟨fun r => ?_, fun hr hr' => ?_, fun t => ⟨?_, fun ⟨r, hr⟩ => ?_⟩⟩
  · by_cases hrq : r = q
    · subst hrq
      exact hq.nodup_iff.2 (List.Nodup.append (h.nodup r) hts fun t ht hm => hnot ht hm)
    · rw [hrest r hrq]
      exact h.nodup r
  · rcases hat hr with ⟨rfl, hm⟩ | ht <;> rcases hat hr' with ⟨rfl, hm'⟩ | ht'
    · rfl
    · exact absurd hm (hnot ht')
    · exact absurd hm' (hnot ht)
    · exact h.apart ht ht'
  · rintro (hi | hm)
    · obtain ⟨r, hr⟩ := (h.total t).1 hi
      by_cases hrq : r = q
      · subst hrq
        exact ⟨r, (hmemq t).2 (Or.inl hr)⟩
      · refine ⟨r, ?_⟩
        rw [hrest r hrq]
        exact hr
    · exact ⟨q, (hmemq t).2 (Or.inr hm)⟩
  · rcases hat hr with ⟨-, hm⟩ | ht
    · exact Or.inr hm
    · exact Or.inl ((h.total t).2 ⟨r, ht⟩)

end Balanced

end Virtuals.Lib
