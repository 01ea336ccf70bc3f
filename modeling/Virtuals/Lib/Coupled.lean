/-
  Two programs run side by side.

  A program is a computation over a state that a raised error does not roll back (`EStateM`): what
  was written before the error stays written, as in a language with exceptions and mutable storage.
  `Coupled P m n Q E` says that from states related by `P` the two programs end the same way: both
  return the same result, in states related by `Q`, or both raise the same error, in states related
  by `E`. `Sim R m n` is the case in which one relation is kept throughout; the rules follow the
  shape of the programs, and `Sim.outcomes` lifts them to whole runs in which the caller catches
  every error and goes on.
-/
import Mathlib.Data.List.Basic

namespace Virtuals.Lib

variable {ε σ τ α β : Type}

/-- Two ends that agree: the same result, or the same error. -/
def Agree (Q : α → σ → τ → Prop) (E : σ → τ → Prop) :
    EStateM.Result ε σ α → EStateM.Result ε τ α → Prop
  | .ok a s, .ok b t => a = b ∧ Q a s t
  | .error e s, .error f t => e = f ∧ E s t
  | _, _ => False

theorem Agree.mono {Q Q' : α → σ → τ → Prop} {E E' : σ → τ → Prop}
    {r : EStateM.Result ε σ α} {r' : EStateM.Result ε τ α} (h : Agree Q E r r')
    (hQ : ∀ a s t, Q a s t → Q' a s t) (hE : ∀ s t, E s t → E' s t) : Agree Q' E' r r' := by
  cases r <;> cases r'
  · exact ⟨h.1, hQ _ _ _ h.2⟩
  · exact h
  · exact h
  · exact ⟨h.1, hE _ _ h.2⟩

theorem Agree.of_ok {Q : α → σ → τ → Prop} {E : σ → τ → Prop} {r : EStateM.Result ε σ α}
    {r' : EStateM.Result ε τ α} {a : α} {s : σ} {t : τ} (hr : r = .ok a s) (hr' : r' = .ok a t)
    (h : Q a s t) : Agree Q E r r' := by
  rw [hr, hr']
  exact ⟨rfl, h⟩

theorem Agree.of_error {Q : α → σ → τ → Prop} {E : σ → τ → Prop} {r : EStateM.Result ε σ α}
    {r' : EStateM.Result ε τ α} {e : ε} {s : σ} {t : τ} (hr : r = .error e s) (hr' : r' = .error e t)
    (h : E s t) : Agree Q E r r' := by
  rw [hr, hr']
  exact ⟨rfl, h⟩

/-- From related states the programs end the same way, in related states. -/
def Coupled (P : σ → τ → Prop) (m : EStateM ε σ α) (n : EStateM ε τ α)
    (Q : α → σ → τ → Prop) (E : σ → τ → Prop) : Prop :=
  ∀ s t, P s t → Agree Q E (m s) (n t)

/-- The programs end the same way, and keep the relation. -/
def Sim (R : σ → τ → Prop) (m : EStateM ε σ α) (n : EStateM ε τ α) : Prop :=
  Coupled R m n (fun _ => R) R

/-- Raise the error, if there is one. -/
def raiseIf : Option ε → EStateM ε σ Unit
  | some e => throw e
  | none => pure ()

/-- Run a computation only under a condition. -/
def onlyIf (c : Bool) (m : EStateM ε σ Unit) : EStateM ε σ Unit := if c then m else pure ()

/-- A computation that does not touch the state. -/
def liftResult : Except ε α → EStateM ε σ α
  | .ok a => pure a
  | .error e => throw e

/-- Run a computation on a part of the state. -/
def within {ρ : Type} (part : σ → ρ) (put : ρ → σ → σ) (m : EStateM ε ρ α) : EStateM ε σ α := fun s =>
  match m (part s) with
  | .ok a r => .ok a (put r s)
  | .error e r => .error e (put r s)

theorem within_of_ok {ρ : Type} {part : σ → ρ} {put : ρ → σ → σ} {m : EStateM ε ρ α} {s : σ} {a : α}
    {r : ρ} (h : m (part s) = .ok a r) : within part put m s = .ok a (put r s) := by
  rw [within, h]

theorem get_apply (s : σ) : (get : EStateM ε σ σ) s = .ok s s := rfl

theorem bind_of_ok {m : EStateM ε σ α} {f : α → EStateM ε σ β} {s s' : σ} {a : α}
    (h : m s = .ok a s') : (m >>= f) s = f a s' := by
  simp only [Bind.bind, EStateM.bind, h]

theorem bind_of_error {m : EStateM ε σ α} {f : α → EStateM ε σ β} {s s' : σ} {e : ε}
    (h : m s = .error e s') : (m >>= f) s = .error e s' := by
  simp only [Bind.bind, EStateM.bind, h]

theorem ok_of_bind {m : EStateM ε σ α} {f : α → EStateM ε σ β} {s s' : σ} {b : β}
    (h : (m >>= f) s = .ok b s') : ∃ a s₁, m s = .ok a s₁ ∧ f a s₁ = .ok b s' := by
  simp only [Bind.bind, EStateM.bind] at h
  cases hm : m s with
  | ok a s₁ =>
    rw [hm] at h
    exact ⟨a, s₁, rfl, h⟩
  | error e s₁ =>
    rw [hm] at h
    cases h

theorem map_of_ok {m : EStateM ε σ α} {f : α → β} {s s' : σ} {a : α} (h : m s = .ok a s') :
    (f <$> m) s = .ok (f a) s' := by
  simp only [Functor.map, EStateM.map, h]

theorem map_of_error {m : EStateM ε σ α} {f : α → β} {s s' : σ} {e : ε} (h : m s = .error e s') :
    (f <$> m) s = .error e s' := by
  simp only [Functor.map, EStateM.map, h]

theorem raiseIf_ok {e : Option ε} {s s' : σ} (h : raiseIf e s = .ok () s') : s = s' := by
  cases e with
  | none => exact (EStateM.Result.ok.inj h).2
  | some e => cases h

theorem tryCatch_of_error {m : EStateM ε σ α} {f : ε → EStateM ε σ α} {s s' : σ} {e : ε}
    (h : m s = .error e s') : MonadExcept.tryCatch m f s = f e s' := by
  simp only [MonadExcept.tryCatch, tryCatchThe, MonadExceptOf.tryCatch, EStateM.tryCatch, h,
    EStateM.Backtrackable.restore, EStateM.dummyRestore]

theorem tryCatch_of_ok {m : EStateM ε σ α} {f : ε → EStateM ε σ α} {s s' : σ} {a : α}
    (h : m s = .ok a s') : MonadExcept.tryCatch m f s = .ok a s' := by
  simp only [MonadExcept.tryCatch, tryCatchThe, MonadExceptOf.tryCatch, EStateM.tryCatch, h]

/-- A loop of reads at one state. -/
theorem mapM_reads {g : α → EStateM ε σ β} {f : α → Except ε β} {s : σ} (l : List α)
    (h : ∀ a ∈ l, g a s = liftResult (f a) s) : (l.mapM g) s = liftResult (l.mapM f) s := by
  induction l with
  | nil => rfl
  | cons a l ih =>
    have ha := h a List.mem_cons_self
    have hl := ih fun b hb => h b (List.mem_cons_of_mem a hb)
    rw [List.mapM_cons, List.mapM_cons]
    cases hf : f a with
    | error e =>
      rw [hf] at ha
      exact bind_of_error ha
    | ok b =>
      rw [hf] at ha
      refine (bind_of_ok ha).trans ?_
      cases hm : l.mapM f with
      | error e =>
        rw [hm] at hl
        exact bind_of_error hl
      | ok bs =>
        rw [hm] at hl
        exact bind_of_ok hl

/-! ## Rules -/

namespace Coupled

variable {P : σ → τ → Prop} {E : σ → τ → Prop}

theorem throw (e : ε) {Q : α → σ → τ → Prop} (h : ∀ s t, P s t → E s t) :
    Coupled P (throw e : EStateM ε σ α) (throw e : EStateM ε τ α) Q E :=
  fun s t hP => ⟨rfl, h s t hP⟩

theorem raiseIf (e : Option ε) (h : ∀ s t, P s t → E s t) :
    Coupled P (raiseIf e) (raiseIf e) (fun _ => P) E := by
  cases e with
  | none => exact fun _ _ hP => ⟨rfl, hP⟩
  | some e => exact Coupled.throw e h

theorem pure (a : α) {Q : α → σ → τ → Prop} (h : ∀ s t, P s t → Q a s t) :
    Coupled P (pure a : EStateM ε σ α) (pure a : EStateM ε τ α) Q E :=
  fun s t hP => ⟨rfl, h s t hP⟩

/-- Programs whose ends are known. -/
theorem of_ok {m : EStateM ε σ α} {n : EStateM ε τ α} {Q : α → σ → τ → Prop}
    (h : ∀ s t, P s t → ∃ a s' t', m s = .ok a s' ∧ n t = .ok a t' ∧ Q a s' t') :
    Coupled P m n Q E := by
  intro s t hP
  obtain ⟨a, s', t', hm, hn, hQ⟩ := h s t hP
  exact Agree.of_ok hm hn hQ

theorem bind {m : EStateM ε σ α} {n : EStateM ε τ α} {f : α → EStateM ε σ β}
    {g : α → EStateM ε τ β} {Q : α → σ → τ → Prop} {Q' : β → σ → τ → Prop}
    (hm : Coupled P m n Q E) (hf : ∀ a, Coupled (Q a) (f a) (g a) Q' E) :
    Coupled P (m >>= f) (n >>= g) Q' E := by
  intro s t hP
  have h := hm s t hP
  simp only [Bind.bind, EStateM.bind]
  cases hms : m s <;> cases hnt : n t <;> rw [hms, hnt] at h
  · obtain ⟨rfl, hQ⟩ := h
    exact hf _ _ _ hQ
  · exact h.elim
  · exact h.elim
  · exact h

theorem tryCatch {m : EStateM ε σ α} {n : EStateM ε τ α} {f : ε → EStateM ε σ α}
    {g : ε → EStateM ε τ α} {Q : α → σ → τ → Prop} {E' : σ → τ → Prop}
    (hm : Coupled P m n Q E') (hf : ∀ e, Coupled E' (f e) (g e) Q E) :
    Coupled P (MonadExcept.tryCatch m f) (MonadExcept.tryCatch n g) Q E := by
  intro s t hP
  have h := hm s t hP
  simp only [MonadExcept.tryCatch, tryCatchThe, MonadExceptOf.tryCatch, EStateM.tryCatch,
    EStateM.Backtrackable.restore, EStateM.dummyRestore]
  cases hms : m s <;> cases hnt : n t <;> rw [hms, hnt] at h
  · exact h
  · exact h.elim
  · exact h.elim
  · obtain ⟨rfl, hE⟩ := h
    exact hf _ _ _ hE

theorem mono {m : EStateM ε σ α} {n : EStateM ε τ α} {Q Q' : α → σ → τ → Prop}
    {P' : σ → τ → Prop} (h : Coupled P m n Q E) (hP : ∀ s t, P' s t → P s t)
    (hQ : ∀ a s t, Q a s t → Q' a s t) : Coupled P' m n Q' E :=
  fun s t hs => (h s t (hP s t hs)).mono hQ fun _ _ h => h

end Coupled

namespace Sim

variable {R : σ → τ → Prop}

theorem pure (a : α) : Sim R (pure a : EStateM ε σ α) (pure a : EStateM ε τ α) :=
  fun _ _ h => ⟨rfl, h⟩

theorem throw (e : ε) : Sim R (throw e : EStateM ε σ α) (throw e : EStateM ε τ α) :=
  fun _ _ h => ⟨rfl, h⟩

theorem bind {m : EStateM ε σ α} {n : EStateM ε τ α} {f : α → EStateM ε σ β}
    {g : α → EStateM ε τ β} (hm : Sim R m n) (hf : ∀ a, Sim R (f a) (g a)) :
    Sim R (m >>= f) (n >>= g) :=
  Coupled.bind hm hf

theorem tryCatch {m : EStateM ε σ α} {n : EStateM ε τ α} {f : ε → EStateM ε σ α}
    {g : ε → EStateM ε τ α} (hm : Sim R m n) (hf : ∀ e, Sim R (f e) (g e)) :
    Sim R (MonadExcept.tryCatch m f) (MonadExcept.tryCatch n g) :=
  Coupled.tryCatch hm hf

/-- Programs that read the same from related states. -/
theorem gets {f : σ → α} {g : τ → α} (h : ∀ s t, R s t → f s = g t) :
    Sim R (f <$> get : EStateM ε σ α) (g <$> get : EStateM ε τ α) :=
  fun s t hR => ⟨h s t hR, hR⟩

theorem raiseIf (e : Option ε) : Sim R (raiseIf e) (raiseIf e) :=
  Coupled.raiseIf e fun _ _ h => h

/-- One side goes on with the result of a check, the other only checks. -/
theorem checked {x : Except ε α} {f : α → EStateM ε σ β} {n : EStateM ε τ β}
    (h : ∀ a, x = .ok a → Sim R (f a) n) :
    Sim R (liftResult x >>= f) (liftResult (x.map fun _ => ()) >>= fun _ => n) := by
  cases hx : x with
  | error e => exact Sim.throw e
  | ok a => exact h a hx

theorem map {m : EStateM ε σ α} {n : EStateM ε τ α} (f : α → β) (h : Sim R m n) :
    Sim R (f <$> m) (f <$> n) := by
  intro s t hR
  have hst := h s t hR
  simp only [Functor.map, EStateM.map]
  cases hm : m s <;> cases hn : n t <;> rw [hm, hn] at hst
  · exact ⟨congrArg f hst.1, hst.2⟩
  · exact hst.elim
  · exact hst.elim
  · exact hst

theorem onlyIf {m : EStateM ε σ Unit} {n : EStateM ε τ Unit} (c : Bool) (h : Sim R m n) :
    Sim R (onlyIf c m) (onlyIf c n) := by
  cases c with
  | true => exact h
  | false => exact Sim.pure ()

theorem liftResult (x : Except ε α) : Sim R (liftResult x) (liftResult x) := by
  cases x with
  | ok a => exact Sim.pure a
  | error e => exact Sim.throw e

theorem ite {c : Prop} [Decidable c] {m m' : EStateM ε σ α} {n n' : EStateM ε τ α}
    (h : Sim R m n) (h' : Sim R m' n') :
    Sim R (if c then m else m') (if c then n else n') := by
  by_cases hc : c
  · simpa only [if_pos hc] using h
  · simpa only [if_neg hc] using h'

/-- A loop over a list keeps what its body keeps. -/
theorem forM {f : α → EStateM ε σ PUnit} {g : α → EStateM ε τ PUnit} (l : List α)
    (h : ∀ a, Sim R (f a) (g a)) : Sim R (l.forM f) (l.forM g) := by
  induction l with
  | nil => exact Sim.pure PUnit.unit
  | cons a l ih => exact Sim.bind (h a) fun _ => ih

end Sim

/-! ## Runs -/

/-- What one program after another returns or raises, each error caught, and the last state. -/
def outcomes : List (EStateM ε σ α) → σ → List (Except ε α) × σ
  | [], s => ([], s)
  | m :: ms, s =>
    match m s with
    | .ok a s' => ((.ok a :: (outcomes ms s').1), (outcomes ms s').2)
    | .error e s' => ((.error e :: (outcomes ms s').1), (outcomes ms s').2)

/-- Runs of programs that simulate one another return and raise the same, in related states. -/
theorem Sim.outcomes {ι : Type} {R : σ → τ → Prop} {m : ι → EStateM ε σ α}
    {n : ι → EStateM ε τ α} (ops : List ι) (h : ∀ i ∈ ops, Sim R (m i) (n i)) {s : σ} {t : τ}
    (hR : R s t) :
    (outcomes (ops.map m) s).1 = (outcomes (ops.map n) t).1 ∧
      R (outcomes (ops.map m) s).2 (outcomes (ops.map n) t).2 := by
  induction ops generalizing s t with
  | nil => exact ⟨rfl, hR⟩
  | cons i ops ih =>
    have hi := h i List.mem_cons_self s t hR
    have ih := @ih fun j hj => h j (List.mem_cons_of_mem i hj)
    simp only [List.map_cons, Virtuals.Lib.outcomes]
    cases hm : m i s <;> cases hn : n i t <;> rw [hm, hn] at hi
    · obtain ⟨rfl, hR'⟩ := hi
      exact ⟨congrArg _ (ih hR').1, (ih hR').2⟩
    · exact hi.elim
    · exact hi.elim
    · obtain ⟨rfl, hR'⟩ := hi
      exact ⟨congrArg _ (ih hR').1, (ih hR').2⟩

/-- The state in which a program ends, having returned or raised. -/
def endState : EStateM.Result ε σ α → σ
  | .ok _ s => s
  | .error _ s => s

theorem endState_map (f : α → β) (m : EStateM ε σ α) (s : σ) :
    endState ((f <$> m) s) = endState (m s) := by
  simp only [Functor.map, EStateM.map]
  cases m s <;> rfl

theorem endState_bind_pure (m : EStateM ε σ α) (b : β) (s : σ) :
    endState ((m >>= fun _ => pure b) s) = endState (m s) := by
  simp only [Bind.bind, EStateM.bind]
  cases m s <;> rfl

/-- A run whose first program is known. -/
theorem outcomes_cons (m : EStateM ε σ α) (l : List (EStateM ε σ α)) (s : σ) :
    (outcomes (m :: l) s).2 = (outcomes l (endState (m s))).2 := by
  simp only [outcomes]
  cases m s <;> rfl

/-- A run with one more program. -/
theorem outcomes_concat (l : List (EStateM ε σ α)) (m : EStateM ε σ α) (s : σ) :
    (outcomes (l ++ [m]) s).2 = endState (m (outcomes l s).2) := by
  induction l generalizing s with
  | nil =>
    simp only [List.nil_append, outcomes]
    cases m s <;> rfl
  | cons n l ih =>
    simp only [List.cons_append, outcomes]
    cases n s with
    | ok a s' => exact ih s'
    | error e s' => exact ih s'

/-- The program ends, in whichever way, in a state of `I` if it starts in one. -/
def Keeps (I : σ → Prop) (m : EStateM ε σ α) : Prop := ∀ s, I s → I (endState (m s))

namespace Keeps

variable {I : σ → Prop}

theorem pure (a : α) : Keeps I (pure a : EStateM ε σ α) := fun _ h => h

theorem bind {m : EStateM ε σ α} {f : α → EStateM ε σ β} (hm : Keeps I m)
    (hf : ∀ a, Keeps I (f a)) : Keeps I (m >>= f) := by
  intro s hs
  have h := hm s hs
  simp only [Bind.bind, EStateM.bind]
  cases hms : m s <;> rw [hms] at h
  · exact hf _ _ h
  · exact h

theorem map {m : EStateM ε σ α} (f : α → β) (h : Keeps I m) : Keeps I (f <$> m) := by
  intro s hs
  have h := h s hs
  simp only [Functor.map, EStateM.map]
  cases hms : m s <;> rw [hms] at h
  · exact h
  · exact h

theorem throw (e : ε) : Keeps I (throw e : EStateM ε σ α) := fun _ h => h

theorem modify {f : σ → σ} (h : ∀ s, I s → I (f s)) : Keeps I (modify f : EStateM ε σ Unit) := h

theorem raiseIf (e : Option ε) : Keeps I (raiseIf e) := by
  cases e with
  | none => exact Keeps.pure ()
  | some e => exact Keeps.throw e

theorem liftResult (x : Except ε α) : Keeps I (liftResult x) := by
  cases x with
  | ok a => exact Keeps.pure a
  | error e => exact Keeps.throw e

/-- A reading of the state, and what follows it at a state of `I`. -/
theorem get_bind {f : σ → EStateM ε σ α} (h : ∀ s, I s → Keeps I (f s)) : Keeps I (get >>= f) :=
  fun s hs => h s hs s hs

theorem tryCatch {m : EStateM ε σ α} {f : ε → EStateM ε σ α} (hm : Keeps I m)
    (hf : ∀ e, Keeps I (f e)) : Keeps I (MonadExcept.tryCatch m f) := by
  intro s hs
  have h := hm s hs
  cases hms : m s with
  | ok a s' =>
    rw [tryCatch_of_ok hms]
    rwa [hms] at h
  | error e s' =>
    rw [tryCatch_of_error hms]
    rw [hms] at h
    exact hf e s' h

theorem onlyIf {m : EStateM ε σ Unit} (c : Bool) (h : Keeps I m) : Keeps I (onlyIf c m) := by
  cases c with
  | true => exact h
  | false => exact Keeps.pure ()

theorem forM {f : α → EStateM ε σ PUnit} (l : List α) (h : ∀ a ∈ l, Keeps I (f a)) :
    Keeps I (l.forM f) := by
  induction l with
  | nil => exact Keeps.pure PUnit.unit
  | cons a l ih =>
    exact (h a List.mem_cons_self).bind fun _ => ih fun b hb => h b (List.mem_cons_of_mem a hb)

/-- What every program keeps, a run keeps. -/
theorem outcomes {ι : Type} {m : ι → EStateM ε σ α} (h : ∀ i, Keeps I (m i)) (ops : List ι)
    {s : σ} (hs : I s) : I (outcomes (ops.map m) s).2 := by
  induction ops generalizing s with
  | nil => exact hs
  | cons i ops ih =>
    have hi := h i s hs
    simp only [List.map_cons, Virtuals.Lib.outcomes]
    cases hms : m i s <;> rw [hms] at hi
    · exact ih hi
    · exact ih hi

end Keeps

/-- A program that simulates another ends in a state related to one of the other's. -/
theorem Agree.endState {R : σ → τ → Prop} {r : EStateM.Result ε σ α} {r' : EStateM.Result ε τ α}
    (h : Agree (fun _ => R) R r r') : R (endState r) (endState r') := by
  cases r <;> cases r'
  · exact h.2
  · exact h.elim
  · exact h.elim
  · exact h.2

end Virtuals.Lib
