/-
  The readiness of a hash whose first registrant has no confirmation yet.

  Whoever subscribes the same filter meanwhile waits for this readiness, so nobody is subscribed. Of
  the steps that set a readiness only the end of a re-registration asks for no confirmation, and
  `EarlyMark` leaves out the runs in which it comes in between.
-/
import Virtuals.Observer.Moves

namespace Virtuals.Observer

namespace System

variable {hints : Nat → List HintEntry} {s : System} {a : Act} {h c r : Nat}

/-- Call `c` is the first registrant of `h`, and its SUBSCRIBE is not confirmed. One of a hash without
    hints needs no confirmation once it has seen that. -/
structure Unconfirmed (hints : Nat → List HintEntry) (s : System) (h c r : Nat) : Prop where
  first : (s.place c).firstOf = some (h, r)
  ack : ¬ (s.client.ack c).Confirmed
  owes : hints h ≠ [] ∨ s.place c = .first h r

/-- Such a registrant has the readiness of the hash, which is unset, and nobody is subscribed. -/
def Withheld (hints : Nat → List HintEntry) (s : System) (h : Nat) : Prop :=
  ∀ c r, Unconfirmed hints s h c r →
    s.client.ready h = some r ∧ (s.client.obj h r).set = false ∧ ∀ d, s.place d ≠ .opened h

theorem withheld_start : Withheld hints start h := fun c r hc => by
  cases hc.first

/-- A confirmation stays. -/
theorem confirmed_step (hacks : Acks hints s) (hc : (s.client.ack c).Confirmed) :
    ((step hints s a).client.ack c).Confirmed := by
  rcases ack_step hints s a c with heq | ⟨x, hq, -⟩ | ⟨x, -, -, heq⟩
  · rw [heq]
    exact hc
  · exact absurd hc.1 (by rw [(hacks.queued x c hq).1]; decide)
  · rw [heq]
    exact ⟨rfl, hc.2⟩

/-- The first registrants are those that were, and one that found nobody. -/
theorem firstOf_step (hc : ((step hints s a).place c).firstOf = some (h, r)) :
    (s.place c).firstOf = some (h, r) ∨
      a = .subscribe c h ∧ s.place c = .idle ∧ (s.client.refcount h).getD 0 = 0 ∧
        r = s.client.made h := by
  rcases place_step hints s a c with hsame | hgo
  · exact .inl (hsame ▸ hc)
  · generalize hp : s.place c = p at hgo ⊢
    generalize (step hints s a).place c = q at hgo hc
    cases hgo with
    | first x hrefs =>
      obtain ⟨rfl, rfl⟩ := Prod.mk.inj (Option.some.inj hc)
      exact .inr ⟨rfl, rfl, hrefs, rfl⟩
    | _ => first | exact .inl hc | cases hc

/-- A first registrant that has listed nothing had listed nothing before. -/
theorem first_stays (hfirst : (s.place c).firstOf = some (h, r))
    (hc : (step hints s a).place c = .first h r) : s.place c = .first h r := by
  rcases place_step hints s a c with hsame | hgo
  · exact hsame ▸ hc
  · rw [hc] at hgo
    generalize s.place c = p at hgo hfirst
    cases hgo with
    | first => cases hfirst

/-- A first registrant under way is the only one, also for a call that the step would take on. -/
theorem Account.only_of_place (hs : Account hints s h) {d r' : Nat} {p : Place}
    (hc : (s.place c).firstOf = some (h, r)) (hd : s.place d = p) (hp : p.firstOf = some (h, r')) :
    d = c := hs.only d c r' r (hd ▸ hp) hc

/-- (PROVED) What a registrant without a confirmation withholds stays so, in a safe step. -/
theorem withheld_step (hacc : ∀ x, Account hints s x) (hacks : Acks hints s)
    (hs : Withheld hints s h) (hsafe : ¬ s.Unsafe a) : Withheld hints (step hints s a) h := by
  intro c r hc
  have hclient := client_step hints s a
  rcases firstOf_step hc.first with hfirst | ⟨rfl, hidle, hrefs, rfl⟩
  swap
  · -- the first registrant comes: nobody is counted
    have hnobody := (hacc h).count.eq_zero_iff.1 hrefs
    have hstep : (step hints s (.subscribe c h)).client.ready h = some (s.client.made h) ∧
        (step hints s (.subscribe c h)).client.obj = s.client.obj := by
      simp [step, hidle, Client.register, hrefs, setClient, move]
    refine ⟨hstep.1, by rw [hstep.2, (hacc h).unmade _ le_rfl], fun d hd => ?_⟩
    rcases place_step hints s (.subscribe c h) d with hsame | hgo
    · exact hnobody d (.inr (.inr (hsame ▸ hd)))
    · rw [hd] at hgo
      generalize s.place d = p at hgo
      cases hgo
  have hbefore : Unconfirmed hints s h c r :=
    ⟨hfirst, fun hconf => hc.ack (confirmed_step hacks hconf), hc.owes.imp_right (first_stays hfirst)⟩
  obtain ⟨hready, hunset, hnone⟩ := hs c r hbefore
  -- a rollback of this hash ends the registrant
  have hfailing : ∀ d r' subscribed, ¬ RollsBack s d h r' subscribed a := by
    intro d r' subscribed hroll
    obtain rfl := (hacc h).only d c r' r hroll.firstOf hfirst
    have hfailed := hc.first
    rw [hroll.place_step] at hfailed
    cases hfailed
  refine ⟨?_, ?_, fun d hd => ?_⟩
  · rcases hclient.ready h with hsame | ⟨d, -, hrefs, -⟩ | ⟨d, r', _, hroll, -⟩ | ⟨d, -, hd, -⟩ |
      ⟨-, hreset, -⟩
    · exact hsame.trans hready
    · obtain ⟨n, hn⟩ := Option.ne_none_iff_exists'.1 fun hnone' =>
        absurd (hready.symm.trans ((hacc h).tables.1 hnone')) (by simp)
      rw [hn] at hrefs
      exact absurd (hn.trans (congrArg some hrefs)) (hacc h).positive
    · exact absurd hroll (hfailing d r' _)
    · exact absurd hd (hnone d)
    · simp [Client.resets, hready, hunset] at hreset
  · rcases hclient.obj h r with hsame | ⟨-, -, hsets, -⟩ | ⟨d, _, hroll, -⟩
    · rw [hsame]
      exact hunset
    · cases hsets with
      | check d hd =>
        obtain rfl := (hacc h).only_of_place hfirst hd rfl
        exact absurd (hacks.late d (by rw [hd]; rfl)) hbefore.ack
      | finish d hd =>
        obtain rfl := (hacc h).only_of_place hfirst hd rfl
        have hne : hints h ≠ [] := hbefore.owes.resolve_right fun hp => by
          rw [hd] at hp
          cases hp
        exact absurd (hacks.late d (by rw [hd]; exact decide_eq_true hne)) hbefore.ack
      | mark hmaint _ hentries =>
        exact absurd ⟨h, _, c, r, hmaint, rfl, hentries, hfirst, hbefore.ack⟩ hsafe
    · exact absurd hroll (hfailing d r _)
  · rcases place_step hints s a d with hsame | hgo
    · exact hnone d (hsame ▸ hd)
    · generalize hp : s.place d = p at hgo
      rw [hd] at hgo
      cases hgo with
      | opened _ r' =>
        obtain rfl := (hacc h).only_of_place hfirst hp rfl
        have hopened := hc.first
        rw [hd] at hopened
        cases hopened
      | woken _ r' hset herror =>
        -- a waiter that may wake has the readiness of the registrant
        obtain ⟨r₁, hr₁, hle⟩ := (hacc h).waits d r' (by rw [hp]; rfl) herror
        have hge := (hacc h).oldest c d r r' hfirst (by rw [hp]; rfl) herror
        obtain rfl := Option.some.inj (hready.symm.trans hr₁)
        obtain rfl := le_antisymm hle hge
        exact absurd (hset.symm.trans hunset) (by decide)

theorem Withheld.alone (hacks : Acks hints s) (hs : ∀ h, Withheld hints s h) : s.Alone := by
  intro c x r hc
  have hack : ¬ (s.client.ack c).Confirmed := fun hconf => by
    rw [hacks.fresh c (by rw [hc]; rfl)] at hconf
    cases hconf.1
  obtain ⟨hready, -, hnone⟩ := hs x c r ⟨by rw [hc]; rfl, hack, .inr hc⟩
  exact ⟨hready, hnone⟩

end System

end Virtuals.Observer
