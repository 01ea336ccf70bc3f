/-
  Mutual exclusion of the writer slot over every interleaving.

  It holds of every run in which no interrupted wait gives back a lock that `close` replaced
  after the thread took it (`exclusive`). `staleRun` is what happens otherwise: thread 2 gives
  back the old lock by unlocking the new one, which call 3 holds, and call 4 takes it too.
-/
import Virtuals.WriteSlot.Turn

namespace Virtuals.WriteSlot

namespace System

/-- (PROVED) A step other than `close` leaves the lock with the call that has it, unless it is a
    step of that call or takes the grant of a closed loop back. -/
theorem keeps_natively {s : System} (h : Core s) {a : Act} (hclean : ¬ s.StaleGiveBack a)
    (hclose : a ≠ .close) {c : Nat} (hc : s.Natively s.slot.lock c) (hcall : a.call ≠ some c)
    (hdead : ¬ (s.slot.pending = some c ∧ s.slot.Dead c)) :
    Natively (s.effect a) s.slot.lock c := by
  have ht := turn h a hclean
  unfold Natively Owns
  rw [ht.place c hcall, ht.lock hclose]
  refine hc.imp_right fun ⟨hl, ho⟩ => ⟨hl, ho.imp_right fun hp => ?_⟩
  rcases ht.ended c hp with hp' | ⟨-, hend⟩
  · exact hp'
  · -- a grant ends by a step of its own call, by `close`, or because its loop is closed
    rcases hend with ⟨ha, -⟩ | ⟨-, -, rfl | hd⟩ | ⟨ha, -⟩
    · cases a <;> cases ha
      rename_i d
      by_cases hdc : d = c
      · exact absurd (hdc ▸ rfl) hcall
      · -- `_granted` of another call does not touch this grant
        have hg : (s.slot.waiter d).state ≠ .granted ∨ ∀ since, s.place d ≠ .ending since := by
          by_contra hno
          simp only [not_or, not_not, not_forall] at hno
          obtain ⟨hg, since, hq⟩ := hno
          have := h.grant d (by rw [hq]; rfl) hg
          exact hdc (Option.some.inj (this.symm.trans hp))
        unfold effect
        dsimp only
        split
        · rename_i since hq
          rcases hg with hg | hg
          · rw [WriterLock.granted_of_not _ _ hg]
            exact hp
          · exact absurd hq (hg since)
        · exact hp
    · exact absurd rfl hcall
    · exact absurd ⟨hp, hd⟩ hdead
    · cases a <;> cases ha
      exact absurd rfl hclose

theorem natively_note {before s : System} {a : Act} {l c : Nat} :
    Natively (note before a s) l c ↔ s.Natively l c := by
  unfold note
  split_ifs <;> exact Iff.rfl

theorem slot_note (before : System) (a : Act) (s : System) : (note before a s).slot = s.slot := by
  unfold note
  split_ifs <;> rfl

/-- (PROVED) In every state of a clean run at most one call has the current lock, which is locked
    while it has it; nothing ever raised; and no clean step of another party takes the lock from
    the call that has it, except `close`, or the reclaim of a grant whose loop has closed. -/
theorem exclusive (acts : List Act) (hclean : Clean start acts) :
    (∀ c c', (run acts).Owns c → (run acts).Owns c' → c = c') ∧
    (∀ c c', (run acts).Natively (run acts).slot.lock c →
      (run acts).Natively (run acts).slot.lock c' → c = c') ∧
    (run acts).raised = false ∧
    ∀ a c, ¬ (run acts).StaleGiveBack a → a ≠ .close → a.call ≠ some c →
      (run acts).Natively (run acts).slot.lock c →
      ¬ ((run acts).slot.pending = some c ∧ (run acts).slot.Dead c) →
      ((run acts).step a).slot.lock = (run acts).slot.lock ∧
        ((run acts).step a).Natively (run acts).slot.lock c ∧
        ((run acts).step a).slot.locked (run acts).slot.lock = true := by
  have h := inv_run acts hclean
  refine ⟨fun c c' hc hc' => ?_, h.core.excl _, h.raised, fun a c hstale hclose hcall hc hdead => ?_⟩
  · exact h.core.excl _ c c' (Or.inr ⟨rfl, Or.inl hc⟩) (Or.inr ⟨rfl, Or.inl hc'⟩)
  · have hnat := keeps_natively h.core hstale hclose hc hcall hdead
    have hcore := (inv_effect h a hstale).core
    refine ⟨?_, natively_note.2 hnat, ?_⟩ <;> rw [step, slot_note]
    · exact (turn h.core a hstale).lock hclose
    · exact hcore.locked _ c hnat

/-- A run with a blocked thread, a queued coroutine, a `close` and an interrupted wait. -/
def cleanRun : List Act :=
  [.startAcquire 1 1, .tryFast 1, .heldBy 1, .startAcquire 2 2, .tryFast 2, .count 2,
    .startReserve 3 3, .reserve 3 0, .interrupt 2, .giveBack 2, .release 1]

theorem exclusive_cleanRun :
    Clean start cleanRun ∧ (∀ c c', (run cleanRun).Owns c → (run cleanRun).Owns c' → c = c') := by
  have hclean : Clean start cleanRun := by
    simp only [cleanRun, Clean, StaleGiveBack, not_false_eq_true, true_and, and_true]
    rintro ⟨lock, hq, -⟩
    cases hq
  exact ⟨hclean, (exclusive cleanRun hclean).1⟩

/-- Call 2 blocks on the lock of call 1; `close` replaces it; call 2 wins the old lock and is
    interrupted before it can tell. Meanwhile call 3 takes the new lock, which call 2 unlocks. -/
def staleRun : List Act :=
  [.startAcquire 1 1, .tryFast 1, .heldBy 1, .startAcquire 2 2, .tryFast 2, .count 2, .close,
    .win 2, .startAcquire 3 3, .tryFast 3, .heldBy 3, .interrupt 2, .giveBack 2,
    .startAcquire 4 4, .tryFast 4, .heldBy 4]

/-- (PROVED) Two calls own the current lock. -/
theorem not_exclusive_staleRun :
    ∃ acts c c', c ≠ c' ∧ (run acts).Owns c ∧ (run acts).Owns c' :=
  ⟨staleRun, 3, 4, by decide, rfl, rfl⟩

end System

end Virtuals.WriteSlot
