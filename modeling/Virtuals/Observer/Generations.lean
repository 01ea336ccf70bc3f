/-
  The connection generations of a successful subscribe.

  A readiness is set without an error on a generation on which the channel was confirmed and the hints
  were registered (`Routed`), and it is the generation of the connection as long as the hash has this
  readiness. A first registrant waited for a confirmation of that generation or an older one, and a
  waiter began on it or on an older one (`Since`), so that is what both return with.
-/
import Virtuals.Observer.Reregister

namespace Virtuals.Observer

/-- Set, and not by a failure. -/
def Ready.Succeeded (r : Ready) : Prop := r.set = true ∧ r.error = false

namespace System

variable {hints : Nat → List HintEntry} {s t : System} {a : Act} {h c r g : Nat}

/-- The channel of `h` was confirmed and its hints were registered on generation `g`. -/
def Routed (s : System) (h g : Nat) : Prop := (h, g) ∈ s.confirms ∧ (h, g) ∈ s.hinted

/-- Generation `g` is no older than the subscribe call `c` and the confirmation it waited for. -/
def Since (s : System) (c g : Nat) : Prop :=
  s.began c ≤ g ∧ ∀ g', (s.client.ack c).gen = some g' → g' ≤ g

/-- What the generations of a hash with hints keep. -/
structure Gens (s : System) (h : Nat) : Prop where
  began : ∀ c, s.began c ≤ s.client.connGen
  confirmed : ∀ c, (s.client.ack c).Confirmed → (s.client.ack c).gen ≠ none
  ack : ∀ c g, (s.place c).hash = some h → (s.client.ack c).gen = some g → (h, g) ∈ s.confirms
  ready : ∀ r, (s.client.obj h r).Succeeded → s.Routed h (s.client.obj h r).gen
  current : ∀ r, s.client.ready h = some r → (s.client.obj h r).set = true →
    (s.client.obj h r).gen = s.client.connGen
  since : ∀ c r, (s.place c).firstOf = some (h, r) ∨ (s.place c).waitOf = some (h, r) →
    (s.client.obj h r).Succeeded → s.Since c (s.client.obj h r).gen
  finishing : ∀ c r, s.place c = .finishing h r → (s.client.obj h r).set = true
  registered : ∀ c r, s.place c = .registered h r →
    ∃ g g', (s.client.ack c).gen = some g ∧ (h, g') ∈ s.hinted ∧ g ≤ g'
  opened : ∀ c, s.place c = .opened h → ∃ g, s.Since c g ∧ s.Routed h g

theorem gens_start : Gens start h where
  began := fun c => Nat.zero_le _
  confirmed := fun c hc => by cases hc.1
  ack := fun c g hc => by cases hc
  ready := fun r hr => by cases hr.1
  current := fun r hr => by cases hr
  since := fun c r hc => by rcases hc with hc | hc <;> cases hc
  finishing := fun c r hc => by cases hc
  registered := fun c r hc => by cases hc
  opened := fun c hc => by cases hc

/-! ## What a step keeps -/

theorem Routed.step (hr : s.Routed h g) (a : Act) : (step hints s a).Routed h g :=
  ⟨(records_step hints s a).1 hr.1, (records_step hints s a).2 hr.2⟩

theorem SentAt.place_hash {p : Place} (hp : SentAt p h) : p.hash = some h := by
  rcases hp with ⟨r, rfl | rfl⟩ | rfl <;> rfl

/-- The ack of a call changes only while its SUBSCRIBE is on its way. -/
theorem Acks.ack_kept (hacks : Acks hints s) (hnot : ∀ x, ¬ s.Sent x c) :
    (step hints s a).client.ack c = s.client.ack c := by
  rcases ack_step hints s a c with hsame | ⟨x, hq, -⟩ | ⟨x, hp, -⟩
  · exact hsame
  · exact absurd (hacks.queued x c hq) (hnot x)
  · exact absurd (hacks.waiting x c hp) (hnot x)

theorem began_kept (hplace : s.place c ≠ .idle) : (step hints s a).began c = s.began c :=
  (began_step hints s a c).resolve_right fun hc => hplace hc.1

theorem hash_step (hplace : s.place c ≠ .idle) : ((step hints s a).place c).hash = (s.place c).hash := by
  rcases place_step hints s a c with hsame | hgo
  · rw [hsame]
  · generalize s.place c = p at hgo hplace
    generalize (step hints s a).place c = q at hgo
    cases hgo with
    | first => exact absurd rfl hplace
    | wait => exact absurd rfl hplace
    | refused => exact absurd rfl hplace
    | _ => rfl

theorem Since.step (hs : s.Since c g) (hacks : Acks hints s) (hplace : s.place c ≠ .idle)
    (hnot : ∀ x, ¬ s.Sent x c) : (step hints s a).Since c g := by
  unfold Since
  rw [began_kept hplace, hacks.ack_kept hnot]
  exact hs

/-- A readiness stays set. -/
theorem set_step (hset : (s.client.obj h r).set = true) :
    ((step hints s a).client.obj h r).set = true := by
  rcases (client_step hints s a).obj h r with hsame | ⟨-, -, -, heq⟩ | ⟨-, -, -, heq⟩
  · rw [hsame]
    exact hset
  · rw [heq]
  · rw [heq]

/-- A readiness that succeeded did so before, or succeeds now, on the generation of the moment. -/
theorem succeeded_step (hr : ((step hints s a).client.obj h r).Succeeded) :
    (s.client.obj h r).Succeeded ∧ (step hints s a).client.obj h r = s.client.obj h r ∨
      (s.client.obj h r).set = false ∧ (step hints s a).client.connGen = s.client.connGen ∧
        Sets s h r a ∧ ((step hints s a).client.obj h r).gen = s.client.connGen := by
  rcases (client_step hints s a).obj h r with hsame | ⟨hunset, hgen, hsets, heq⟩ | ⟨-, -, -, heq⟩
  · exact .inl ⟨hsame ▸ hr, hsame⟩
  · exact .inr ⟨hunset, hgen, hsets, by rw [heq]⟩
  · rw [heq] at hr
    cases hr.2

/-- The readiness to be made next is not set. -/
theorem Account.unset_made (hacc : Account hints s h) (hkept : ∀ r, ¬ Sets s h r a) :
    ¬ ((step hints s a).client.obj h (s.client.made h)).Succeeded := fun hr => by
  rcases succeeded_step hr with ⟨hold, -⟩ | ⟨-, -, hsets, -⟩
  · rw [hacc.unmade _ le_rfl] at hold
    cases hold.1
  · exact hkept _ hsets

theorem subscribe_not_sets (c x : Nat) : ¬ Sets s h r (.subscribe c x) := nofun

theorem breaks_not_sets (ha : breaks a = true) : ¬ Sets s h r a := fun hsets => by
  cases hsets <;> cases ha

theorem connGen_step (ha : breaks a = false) :
    (step hints s a).client.connGen = s.client.connGen :=
  (client_step hints s a).connGen.resolve_right fun hc => by
    rw [hc.1] at ha
    cases ha

theorem connGen_le (hints : Nat → List HintEntry) (s : System) (a : Act) :
    s.client.connGen ≤ (step hints s a).client.connGen := by
  rcases (client_step hints s a).connGen with hsame | ⟨-, hnext, -⟩
  · exact hsame.ge
  · exact (Nat.le_succ _).trans hnext.ge

/-! ## Each clause -/

theorem began_gens (hs : Gens s h) (c : Nat) :
    (step hints s a).began c ≤ (step hints s a).client.connGen := by
  rcases began_step hints s a c with hsame | ⟨-, hnow⟩
  · rw [hsame]
    exact (hs.began c).trans (connGen_le hints s a)
  · rw [hnow]
    exact connGen_le hints s a

theorem confirmed_gens (hs : Gens s h) (hc : ((step hints s a).client.ack c).Confirmed) :
    ((step hints s a).client.ack c).gen ≠ none := by
  rcases ack_step hints s a c with hsame | ⟨-, -, heq⟩ | ⟨-, -, -, heq⟩
  · rw [hsame] at hc ⊢
    exact hs.confirmed c hc
  · rw [heq] at hc
    cases hc.2
  · rw [heq]
    exact Option.some_ne_none _

theorem ack_gens (hacks : Acks hints s) (hs : Gens s h)
    (hc : ((step hints s a).place c).hash = some h)
    (hg : ((step hints s a).client.ack c).gen = some g) : (h, g) ∈ (step hints s a).confirms := by
  have hold : (s.client.ack c).gen = some g → (h, g) ∈ (step hints s a).confirms := fun hgen => by
    have hplace : s.place c ≠ .idle := fun hidle => by
      rw [hacks.fresh c (by rw [hidle]; rfl)] at hgen
      cases hgen
    exact (records_step hints s a).1 (hs.ack c g (hash_step hplace ▸ hc) hgen)
  rcases ack_step hints s a c with hsame | ⟨-, -, heq⟩ | ⟨x, hp, hin, heq⟩
  · exact hold (hsame ▸ hg)
  · exact hold (by rw [heq] at hg; exact hg)
  · have hsent := (hacks.waiting x c hp).2
    have hplace : s.place c ≠ .idle := fun hidle => hsent.not_early (by rw [hidle]; rfl)
    have hx := hsent.place_hash.symm.trans ((hash_step hplace).symm.trans hc)
    rw [heq] at hg
    obtain rfl := Option.some.inj hx
    obtain rfl := Option.some.inj hg
    exact hin

/-- Whoever sets a readiness does so once the channel is confirmed and its hints are registered. -/
theorem Sets.routed (hrereg : Rereg s h) (hs : Gens s h) (hsets : Sets s h r a)
    (hunset : (s.client.obj h r).set = false) : s.Routed h s.client.connGen := by
  cases hsets with
  | check c hplace hgen =>
    obtain ⟨g, g', hack, hin, hle⟩ := hs.registered c r hplace
    obtain rfl := Option.some.inj (hack.symm.trans hgen)
    obtain rfl := le_antisymm (hrereg.hinted_le g' hin) hle
    exact ⟨hs.ack c _ (by rw [hplace]; rfl) hack, hin⟩
  | finish c hplace => exact absurd (hunset.symm.trans (hs.finishing c r hplace)) (by decide)
  | mark hmaint =>
    obtain ⟨g', hin, hle⟩ := hrereg.done _ hmaint
    obtain rfl := le_antisymm (hrereg.hinted_le g' hin) hle
    exact ⟨hrereg.taken _ (.inr (.inr hmaint)), hin⟩

theorem ready_gens (hrereg : Rereg s h) (hs : Gens s h)
    (hr : ((step hints s a).client.obj h r).Succeeded) :
    (step hints s a).Routed h ((step hints s a).client.obj h r).gen := by
  rcases succeeded_step hr with ⟨hold, heq⟩ | ⟨hunset, -, hsets, heq⟩
  · rw [heq]
    exact (hs.ready r hold).step a
  · rw [heq]
    exact (hsets.routed hrereg hs hunset).step a

/-- A hash whose readiness is set has its entries in the local tables. -/
theorem entries_of_set (hne : hints h ≠ []) (hacc : Account hints s h) (hacks : Acks hints s)
    (hheld : Withheld hints s h) (hr : s.client.ready h = some r)
    (hset : (s.client.obj h r).set = true) : (s.client.entries h).isSome := by
  rcases hacc.listed (by simp [hr]) hne with hentries | ⟨c, r', hc⟩
  · rw [hentries]
    rfl
  · have hack : ¬ (s.client.ack c).Confirmed := fun hconf => by
      rw [hacks.fresh c (by rw [hc]; rfl)] at hconf
      cases hconf.1
    obtain ⟨hr', hunset, -⟩ := hheld c r' ⟨by rw [hc]; rfl, hack, .inl hne⟩
    obtain rfl := Option.some.inj (hr.symm.trans hr')
    exact absurd (hset.symm.trans hunset) (by decide)

theorem current_gens (hne : hints h ≠ []) (hacc : Account hints s h) (hacks : Acks hints s)
    (hheld : Withheld hints s h) (hs : Gens s h)
    (hr : (step hints s a).client.ready h = some r)
    (hsucc : ((step hints s a).client.obj h r).Succeeded) :
    ((step hints s a).client.obj h r).gen = (step hints s a).client.connGen := by
  rcases (client_step hints s a).connGen with hgen | ⟨ha, -, hsame⟩
  · rw [hgen]
    have hold : s.client.ready h = some r →
        ((step hints s a).client.obj h r).gen = s.client.connGen := fun hr' => by
      rcases succeeded_step hsucc with ⟨hold, heq⟩ | ⟨-, -, -, heq⟩
      · rw [heq]
        exact hs.current r hr' hold.1
      · exact heq
    have hmade : (∀ r, ¬ Sets s h r a) →
        (step hints s a).client.ready h = some (s.client.made h) →
        ((step hints s a).client.obj h r).gen = s.client.connGen := fun hkept hmade => by
      obtain rfl := Option.some.inj (hr.symm.trans hmade)
      exact absurd hsucc (hacc.unset_made hkept)
    rcases (client_step hints s a).ready h with hsame | ⟨c, rfl, -, hmade'⟩ | ⟨-, -, -, -, hnone⟩ |
      ⟨-, -, -, -, hnone⟩ | ⟨ha, -, hmade'⟩
    · exact hold (hsame ▸ hr)
    · exact hmade (fun _ => subscribe_not_sets c h) hmade'
    · rw [hr] at hnone
      cases hnone
    · rw [hr] at hnone
      cases hnone
    · exact hmade (fun _ => breaks_not_sets ha) hmade'
  · -- the connection broke: a readiness that was set is replaced
    have hready := hr
    rw [hsame.ready] at hready
    simp only [Client.invalidateReady] at hready
    split_ifs at hready with hreset
    · obtain rfl := Option.some.inj hready
      exact absurd hsucc (hacc.unset_made fun _ => breaks_not_sets ha)
    · have hobj : (step hints s a).client.obj h r = s.client.obj h r :=
        congrFun (congrFun hsame.obj h) r
      rw [hobj] at hsucc
      refine absurd ?_ hreset
      simp [Client.resets, entries_of_set hne hacc hacks hheld hready hsucc.1, hready, hsucc.1,
        hsucc.2]

theorem hash_of_ready {p : Place} (hp : p.firstOf = some (h, r) ∨ p.waitOf = some (h, r)) :
    p.hash = some h := by
  cases p <;> simp_all [Place.firstOf, Place.waitOf, Place.hash]

/-- A call takes its readiness when it begins. -/
theorem readyOf_step (hc : ((step hints s a).place c).firstOf = some (h, r) ∨
    ((step hints s a).place c).waitOf = some (h, r)) :
    (s.place c ≠ .idle ∧ ((s.place c).firstOf = some (h, r) ∨ (s.place c).waitOf = some (h, r))) ∨
      a = .subscribe c h ∧ (r = s.client.made h ∨ s.client.ready h = some r) := by
  rcases place_step hints s a c with hsame | hgo
  · rw [hsame] at hc
    refine .inl ⟨fun hidle => ?_, hc⟩
    rw [hidle] at hc
    rcases hc with hc | hc <;> cases hc
  · generalize s.place c = p at hgo ⊢
    generalize (step hints s a).place c = q at hgo hc
    cases hgo with
    | first x hrefs =>
      rcases hc with hc | hc
      · obtain ⟨rfl, rfl⟩ := Prod.mk.inj (Option.some.inj hc)
        exact .inr ⟨rfl, .inl rfl⟩
      · cases hc
    | wait x r' hrefs hready =>
      rcases hc with hc | hc
      · cases hc
      · obtain ⟨rfl, rfl⟩ := Prod.mk.inj (Option.some.inj hc)
        exact .inr ⟨rfl, .inr hready⟩
    | refused => rcases hc with hc | hc <;> cases hc
    | _ => exact .inl ⟨nofun, by first | exact hc | rcases hc with hc | hc <;> cases hc⟩

theorem since_gens (hne : hints h ≠ []) (hacc : Account hints s h) (hacks : Acks hints s)
    (hheld : Withheld hints s h) (hs : Gens s h)
    (hnow : ∀ c, ((step hints s a).place c).hash = some h →
      (step hints s a).Since c (step hints s a).client.connGen)
    (hc : ((step hints s a).place c).firstOf = some (h, r) ∨
      ((step hints s a).place c).waitOf = some (h, r))
    (hsucc : ((step hints s a).client.obj h r).Succeeded) :
    (step hints s a).Since c ((step hints s a).client.obj h r).gen := by
  have hcnow := hnow c (hash_of_ready hc)
  rcases succeeded_step hsucc with ⟨hold, heq⟩ | ⟨-, hgen, -, heq⟩
  swap
  · rw [heq, ← hgen]
    exact hcnow
  rw [heq]
  rcases readyOf_step hc with ⟨hplace, hready⟩ | ⟨rfl, rfl | hready⟩
  · refine (hs.since c r hready hold).step hacks hplace fun x hsent => ?_
    -- its SUBSCRIBE is on its way, so its readiness is not set
    have hack : ¬ (s.client.ack c).Confirmed := fun hconf => by
      rw [hsent.1] at hconf
      cases hconf.1
    rcases hready with hfirst | hwait
    · obtain ⟨-, hunset, -⟩ := hheld c r ⟨hfirst, hack, .inl hne⟩
      exact absurd (hold.1.symm.trans hunset) (by decide)
    · rcases hsent.2 with ⟨r', hp | hp⟩ | hp <;> rw [hp] at hwait <;> cases hwait
  · rw [hacc.unmade _ le_rfl] at hold
    cases hold.1
  · have hgen : (step hints s (.subscribe c h)).client.connGen = s.client.connGen := connGen_step rfl
    rw [hs.current r hready hold.1, ← hgen]
    exact hcnow

theorem set_setReady (s : Client) (h r : Nat) : ((s.setReady h r).obj h r).set = true := by
  rcases obj_setReady s h r h r with hsame | ⟨-, -, -, heq⟩
  · unfold Client.setReady at hsame ⊢
    split_ifs with hset
    · exact hset
    · simp
  · rw [heq]

theorem finishing_gens (hne : hints h ≠ []) (hs : Gens s h)
    (hc : (step hints s a).place c = .finishing h r) :
    ((step hints s a).client.obj h r).set = true := by
  rcases place_step hints s a c with hsame | hgo
  · exact set_step (hs.finishing c r (hsame ▸ hc))
  · rw [hc] at hgo
    generalize hp : s.place c = p at hgo
    cases hgo with
    | listNone _ _ hnil => exact absurd hnil hne
    | current _ _ hgen =>
      simp only [step, hp, if_pos hgen]
      exact set_setReady s.client h r
    | ready _ _ hset => exact set_step hset

/-- A call whose place says that its SUBSCRIBE was confirmed has nothing on its way. -/
theorem not_sent {p : Place} (hp : s.place c = p) (hnot : ∀ x, ¬ SentAt p x) (x : Nat) :
    ¬ s.Sent x c := fun hsent => hnot x (hp ▸ hsent.2)

theorem registered_gens (hacks : Acks hints s) (hrereg : Rereg s h) (hs : Gens s h)
    (hc : (step hints s a).place c = .registered h r) :
    ∃ g g', ((step hints s a).client.ack c).gen = some g ∧ (h, g') ∈ (step hints s a).hinted ∧
      g ≤ g' := by
  have hkept : ∀ p, s.place c = p → System.late hints p = true →
      (step hints s a).client.ack c = s.client.ack c := fun p hp hlate =>
    hacks.ack_kept (not_sent hp fun x hsent => hsent.not_late hlate)
  rcases place_step hints s a c with hsame | hgo
  · have hp := hsame ▸ hc
    rw [hkept _ hp rfl]
    obtain ⟨g, g', hack, hin, hle⟩ := hs.registered c r hp
    exact ⟨g, g', hack, (records_step hints s a).2 hin, hle⟩
  · rw [hc] at hgo
    generalize hp : s.place c = p at hgo
    cases hgo with
    | registered _ _ =>
      -- the hints are registered on the generation of the moment
      rw [hkept _ hp rfl]
      obtain ⟨g, hg⟩ := Option.ne_none_iff_exists'.1
        (hs.confirmed c (hacks.late c (by rw [hp]; rfl)))
      refine ⟨g, s.client.connGen, hg, ?_,
        hrereg.confirms_le g (hs.ack c g (by rw [hp]; rfl) hg)⟩
      simp [step, hp]

theorem opened_gens (hacc : Account hints s h) (hacks : Acks hints s)
    (hs : Gens s h) (hc : (step hints s a).place c = .opened h) :
    ∃ g, (step hints s a).Since c g ∧ (step hints s a).Routed h g := by
  rcases place_step hints s a c with hsame | hgo
  · have hp := hsame ▸ hc
    obtain ⟨g, hsince, hrouted⟩ := hs.opened c hp
    refine ⟨g, hsince.step hacks (by rw [hp]; exact nofun) (not_sent hp fun x hsent => ?_),
      hrouted.step a⟩
    rcases hsent with ⟨r', hq | hq⟩ | hq <;> cases hq
  · rw [hc] at hgo
    generalize hp : s.place c = p at hgo
    have hreturn : ∀ r, p ≠ .idle → (∀ x, ¬ SentAt p x) →
        p.firstOf = some (h, r) ∨ p.waitOf = some (h, r) → (s.client.obj h r).Succeeded →
        ∃ g, (step hints s a).Since c g ∧ (step hints s a).Routed h g := fun r hidle hnot hr hsucc =>
      ⟨_, (hs.since c r (hp.symm ▸ hr) hsucc).step hacks (hp.symm ▸ hidle) (not_sent hp hnot),
        (hs.ready r hsucc).step a⟩
    cases hgo with
    | opened _ r =>
      refine hreturn r nofun (fun x hsent => ?_) (.inl rfl)
        ⟨hs.finishing c r hp, (hacc.first c r (by rw [hp]; rfl)).1⟩
      rcases hsent with ⟨r', hq | hq⟩ | hq <;> cases hq
    | woken _ r hset herror =>
      refine hreturn r nofun (fun x hsent => ?_) (.inr rfl) ⟨hset, herror⟩
      rcases hsent with ⟨r', hq | hq⟩ | hq <;> cases hq

/-- (PROVED) Every step that keeps the account keeps the generations. -/
theorem gens_step (hne : hints h ≠ []) (hacc : Account hints s h)
    (hacc' : Account hints (step hints s a) h) (hacks : Acks hints s) (hheld : Withheld hints s h)
    (hrereg : Rereg s h) (hs : Gens s h) : Gens (step hints s a) h := by
  have hnow : ∀ c, ((step hints s a).place c).hash = some h →
      (step hints s a).Since c (step hints s a).client.connGen := fun c hc =>
    ⟨began_gens hs c, fun g hg => (rereg_step hrereg a).confirms_le g (ack_gens hacks hs hc hg)⟩
  constructor
  case began => exact began_gens hs
  case confirmed => exact fun c => confirmed_gens hs
  case ack => exact fun c g => ack_gens hacks hs
  case ready => exact fun r => ready_gens hrereg hs
  case current =>
    exact fun r hr hset => current_gens hne hacc hacks hheld hs hr
      ⟨hset, (hacc'.current r hr).2⟩
  case since => exact fun c r => since_gens hne hacc hacks hheld hs hnow
  case finishing => exact fun c r => finishing_gens hne hs
  case registered => exact fun c r => registered_gens hacks hrereg hs
  case opened => exact fun c => opened_gens hacc hacks hs

end System

end Virtuals.Observer
