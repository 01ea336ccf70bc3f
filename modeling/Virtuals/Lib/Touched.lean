/-
  Touched keys.

  A writer names the keys it touches, the store holds them encoded. `Covers encode keys m m'` says
  that `keys` is enough to tell what changed from the map `m` to `m'`: whatever differs is the
  encoding of a key in it. A write adds its key (`Covers.update`); a key goes out of the set only
  where nothing changed (`Covers.erase`). `Handed` is what a unit of writes has told when it is over.
-/
import Mathlib.Data.Finset.Erase
import Mathlib.Data.Finset.Insert
import Mathlib.Logic.Function.Basic

namespace Virtuals.Lib

variable {K E V : Type}

/-- Whatever differs between the maps is the encoding of a key in `keys`. -/
def Covers (encode : K → Option E) (keys : Finset K) (m m' : E → Option V) : Prop :=
  ∀ e, m' e ≠ m e → ∃ k ∈ keys, encode k = some e

variable {encode : K → Option E} {keys keys' : Finset K} {m m' m'' : E → Option V}

theorem Covers.refl (keys : Finset K) (m : E → Option V) : Covers encode keys m m :=
  fun _ h => absurd rfl h

/-- Where keys encode apart, the key itself is in the set. -/
theorem Covers.mem (h : Covers encode keys m m')
    (hapart : ∀ k k' e, encode k = some e → encode k' = some e → k = k') {k : K} {e : E}
    (hk : encode k = some e) (hne : m' e ≠ m e) : k ∈ keys := by
  obtain ⟨k', hmem, hk'⟩ := h e hne
  exact hapart k' k e hk' hk ▸ hmem

/-- A key that still has its old value may go. -/
theorem Covers.erase [DecidableEq K] (h : Covers encode keys m m') {k : K} {e : E}
    (hk : encode k = some e) (heq : m' e = m e) : Covers encode (keys.erase k) m m' :=
  fun e' hne => by
    obtain ⟨k', hmem, hk'⟩ := h e' hne
    refine ⟨k', Finset.mem_erase.2 ⟨?_, hmem⟩, hk'⟩
    rintro rfl
    exact hne (Option.some.inj (hk.symm.trans hk') ▸ heq)

/-- What differs in a part of the values differs. -/
theorem Covers.map {W : Type} (h : Covers encode keys m m') (f : V → W) :
    Covers encode keys (fun e => (m e).map f) fun e => (m' e).map f :=
  fun e hne => h e fun heq => hne (congrArg (Option.map f) heq)

variable [DecidableEq E]

/-- A write with its key. -/
theorem Covers.update (h : Covers encode keys m m') [DecidableEq K] {k : K} {e : E}
    (hk : encode k = some e) (v : Option V) :
    Covers encode (insert k keys) m (Function.update m' e v) := fun e' hne => by
  by_cases he : e' = e
  · exact ⟨k, Finset.mem_insert_self k keys, he ▸ hk⟩
  · rw [Function.update_of_ne he] at hne
    obtain ⟨k', hmem, hk'⟩ := h e' hne
    exact ⟨k', Finset.mem_insert_of_mem hmem, hk'⟩

/-- Writes of covered keys. -/
theorem Covers.foldl {A : Type} (key : A → E) (value : A → Option V) (l : List A)
    (hl : ∀ a ∈ l, ∃ k ∈ keys, encode k = some (key a)) (h : Covers encode keys m m') :
    Covers encode keys m (l.foldl (fun m a => Function.update m (key a) (value a)) m') := by
  induction l generalizing m' with
  | nil => exact h
  | cons a l ih =>
    refine ih (fun b hb => hl b (List.mem_cons_of_mem a hb)) fun e hne => ?_
    dsimp only at hne
    by_cases he : e = key a
    · exact he ▸ hl a List.mem_cons_self
    · rw [Function.update_of_ne he] at hne
      exact h e hne

/-- Deleting what is not there changes nothing. -/
theorem update_absent {m : E → Option V} {e : E} (h : m e = none) :
    Function.update m e none = m := by
  rw [← h]
  exact Function.update_eq_self e m

/-! ## What a unit has told -/

/-- The sets of keys handed over: none where there is nothing to tell. -/
def handOver [DecidableEq K] (keys : Finset K) : List (Finset K) := if keys = ∅ then [] else [keys]

/-- A unit that is over: committed, it has handed over keys that cover what it changed; else it
    changed nothing and handed over none. -/
structure Handed [DecidableEq K] (encode : K → Option E) (before after : E → Option V)
    (handed : List (Finset K)) (committed : Bool) : Prop where
  untold : committed = false → after = before ∧ handed = []
  told : committed = true → ∃ keys, handed = handOver keys ∧ Covers encode keys before after

omit [DecidableEq E] in
theorem handed_none [DecidableEq K] (encode : K → Option E) (m : E → Option V) :
    Handed encode m m [] false :=
  ⟨fun _ => ⟨rfl, rfl⟩, fun h => by cases h⟩

omit [DecidableEq E] in
theorem handed_commit [DecidableEq K] (h : Covers encode keys m m') :
    Handed encode m m' (handOver keys) true :=
  ⟨fun h => (by cases h), fun _ => ⟨keys, rfl, h⟩⟩

omit [DecidableEq E] in
/-- (PROVED) A key whose value changed was handed over. -/
theorem Handed.mem [DecidableEq K] {handed : List (Finset K)} {committed : Bool}
    (h : Handed encode m m' handed committed)
    (hapart : ∀ k k' e, encode k = some e → encode k' = some e → k = k') {k : K} {e : E}
    (hk : encode k = some e) (hne : m' e ≠ m e) : ∃ keys ∈ handed, k ∈ keys := by
  cases committed
  · exact absurd (congrFun (h.untold rfl).1 e) hne
  · obtain ⟨keys, rfl, hcovers⟩ := h.told rfl
    have hmem := hcovers.mem hapart hk hne
    have hkeys : keys ≠ ∅ := Finset.ne_empty_of_mem hmem
    exact ⟨keys, by simp [handOver, hkeys], hmem⟩

end Virtuals.Lib
