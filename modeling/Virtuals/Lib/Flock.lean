/-
  An advisory lock on one file, as the kernel keeps it (`flock`).

  The lock belongs to an open file description, not to a descriptor: descriptors that are duplicates
  of each other name one description, a take on a description that has the lock already succeeds at
  once, and the lock goes with the last descriptor on its description.
-/
import Mathlib.Logic.Function.Basic

namespace Virtuals

/-- The lock of a file: the description that has it, and how many descriptors are open on each
    description. -/
structure Flock (D : Type) where
  holder : Option D
  refs : D → Nat

namespace Flock

variable {D : Type}

def take (k : Flock D) (d : D) : Flock D := { k with holder := some d }

variable [DecidableEq D] (k : Flock D) {d d' : D}

/-- A take on the description is granted at once. -/
def Free (d : D) : Prop := k.holder = none ∨ k.holder = some d

instance (d : D) : Decidable (k.Free d) := by unfold Free; infer_instance

/-- A new description, with one descriptor. -/
def openFile (d : D) : Flock D := { k with refs := Function.update k.refs d 1 }

/-- One more descriptor on the description. -/
def dup (d : D) : Flock D := { k with refs := Function.update k.refs d (k.refs d + 1) }

/-- `LOCK_UN` on a descriptor of the description. -/
def unlock (d : D) : Flock D := { k with holder := if k.holder = some d then none else k.holder }

/-- Close one descriptor on the description: with the last one the lock goes. -/
def close (d : D) : Flock D where
  holder := if k.refs d ≤ 1 ∧ k.holder = some d then none else k.holder
  refs := Function.update k.refs d (k.refs d - 1)

@[simp] theorem openFile_refs_self : (k.openFile d).refs d = 1 := Function.update_self ..

@[simp] theorem dup_refs_self : (k.dup d).refs d = k.refs d + 1 := Function.update_self ..

@[simp] theorem close_refs_self : (k.close d).refs d = k.refs d - 1 := Function.update_self ..

theorem close_refs_of_ne (h : d' ≠ d) : (k.close d).refs d' = k.refs d' :=
  Function.update_of_ne h ..

/-- A description keeps what it had when another one unlocks. -/
theorem unlock_holder_of_ne (h : d' ≠ d) : (k.unlock d).holder = some d' ↔ k.holder = some d' := by
  by_cases hk : k.holder = some d
  · have hd : ¬ d = d' := fun hd => h hd.symm
    simp [unlock, hk, hd]
  · simp [unlock, hk]

theorem unlock_holder_self : (k.unlock d).holder ≠ some d := by
  by_cases hk : k.holder = some d
  · simp [unlock, hk]
  · simp [unlock, hk]

/-- Nobody comes to the lock by a close. -/
theorem holder_of_close (h : (k.close d).holder = some d') : k.holder = some d' := by
  unfold close at h
  by_cases hk : k.refs d ≤ 1 ∧ k.holder = some d
  · simp [hk] at h
  · simpa [hk] using h

/-- A description keeps what it had when another one is closed. -/
theorem close_holder_of_ne (h : d' ≠ d) : (k.close d).holder = some d' ↔ k.holder = some d' := by
  refine ⟨k.holder_of_close, fun hk => ?_⟩
  have hd : ¬ (k.refs d ≤ 1 ∧ k.holder = some d) :=
    fun he => h (Option.some.inj (hk.symm.trans he.2))
  exact (if_neg hd).trans hk

/-- The lock stays while another descriptor is open on its description. -/
theorem close_holder_of_refs (h : 2 ≤ k.refs d) : (k.close d).holder = k.holder := by
  have hr : ¬ (k.refs d ≤ 1 ∧ k.holder = some d) := fun hk => by omega
  exact if_neg hr

end Flock

end Virtuals
