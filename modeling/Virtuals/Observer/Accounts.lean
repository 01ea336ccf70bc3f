/-
  The reference counts of a hash and the readiness its calls wait for.

  `Counted s h c` says that call `c` holds one of the counts of hash `h`: it is the first
  registrant under way, a waiter whose readiness carries no error, or an open subscription.
  `Account` keeps the count equal to the number of such calls. Two steps of the source break
  it: a waiter that gives up when its readiness is not the hash's any more or when nobody else is
  counted, and a first registrant that fails when its readiness is not the hash's any more or when
  others already subscribed on it. `Unsafe` names them and a third, which breaks what a readiness
  stands for.
-/
import Virtuals.Lib.Tally
import Virtuals.Observer.System

namespace Virtuals.Observer

open Lib

/-- The hash and readiness of a first registrant under way. -/
def Place.firstOf : Place → Option (Nat × Nat)
  | .first h r | .listed h r | .awaiting h r | .confirmed h r | .registered h r | .stale h r
  | .failing h r | .finishing h r => some (h, r)
  | _ => none

/-- The hash and readiness of a waiter. -/
def Place.waitOf : Place → Option (Nat × Nat)
  | .waiting h r | .givingUp h r => some (h, r)
  | _ => none

/-- The hash a call is about. -/
def Place.hash : Place → Option Nat
  | .idle => none
  | .first h _ | .listed h _ | .awaiting h _ | .confirmed h _ | .registered h _ | .stale h _
  | .failing h _ | .finishing h _ | .waiting h _ | .givingUp h _ | .opened h | .closed h
  | .failed h => some h

/-- A SUBSCRIBE confirmed. -/
def Ack.Confirmed (a : Ack) : Prop := a.set = true ∧ a.error = false

/-- A call at this place holds one of the counts of `h`. -/
def Client.Counts (s : Client) (h : Nat) (p : Place) : Prop :=
  (∃ r, p.firstOf = some (h, r)) ∨ (∃ r, p.waitOf = some (h, r) ∧ (s.obj h r).error = false) ∨
    p = .opened h

theorem Client.counts_congr {s t : Client} {h : Nat}
    (herror : ∀ r, (t.obj h r).error = (s.obj h r).error) (p : Place) :
    t.Counts h p ↔ s.Counts h p := by
  unfold Client.Counts
  simp only [herror]

namespace System

/-- Call `c` holds one of the counts of `h`. -/
def Counted (s : System) (h c : Nat) : Prop := s.client.Counts h (s.place c)

/-- A waiter gives up and its count stays: its readiness carries no error, and either is not the
    hash's any more or the count is the last. -/
def LeakyRelease (s : System) (c : Nat) : Prop :=
  ∃ h r, s.place c = .givingUp h r ∧ (s.client.obj h r).error = false ∧
    (s.client.ready h ≠ some r ∨ s.client.refcount h = some 1)

/-- A first registrant fails and does not roll back what it should: its readiness is not the
    hash's any more, or a subscription of the hash is open. -/
def LateRollBack (s : System) (c : Nat) : Prop :=
  ∃ h r, s.place c = .failing h r ∧ (s.client.ready h ≠ some r ∨ ∃ d, s.place d = .opened h)

/-- A re-registration marks the readiness of a first registrant that has no confirmation yet. -/
def EarlyMark (s : System) : Prop :=
  ∃ h gen c r, s.maint = .hinted h gen ∧ gen = s.client.connGen ∧
    (s.client.entries h).isSome ∧ (s.place c).firstOf = some (h, r) ∧ ¬ (s.client.ack c).Confirmed

/-- The steps that go wrong. -/
def Unsafe (s : System) : Act → Prop
  | .release c => s.LeakyRelease c
  | .rollBack c => s.LateRollBack c
  | .mark => s.EarlyMark
  | _ => False

/-- What the count and the readiness of hash `h` keep. -/
structure Account (hints : Nat → List HintEntry) (s : System) (h : Nat) : Prop where
  count : Tally (s.Counted h) ((s.client.refcount h).getD 0)
  positive : s.client.refcount h ≠ some 0
  tables : s.client.refcount h = none ↔ s.client.ready h = none
  entries : ∀ x, s.client.entries h = some x → x = hints h ∧ x ≠ [] ∧ s.client.ready h ≠ none
  listed : s.client.ready h ≠ none → hints h ≠ [] →
    s.client.entries h = some (hints h) ∨ ∃ c r, s.place c = .first h r
  current : ∀ r, s.client.ready h = some r → r < s.client.made h ∧ (s.client.obj h r).error = false
  unmade : ∀ r, s.client.made h ≤ r → s.client.obj h r = {}
  only : ∀ c c' r r', (s.place c).firstOf = some (h, r) → (s.place c').firstOf = some (h, r') →
    c = c'
  first : ∀ c r, (s.place c).firstOf = some (h, r) →
    (s.client.obj h r).error = false ∧ ∃ r', s.client.ready h = some r' ∧ r ≤ r'
  waits : ∀ c r, (s.place c).waitOf = some (h, r) → (s.client.obj h r).error = false →
    ∃ r', s.client.ready h = some r' ∧ r ≤ r'
  oldest : ∀ c c' r r', (s.place c).firstOf = some (h, r) → (s.place c').waitOf = some (h, r') →
    (s.client.obj h r').error = false → r ≤ r'

variable {hints : Nat → List HintEntry} {s t : System} {h : Nat}

theorem account_start (h : Nat) : Account hints start h where
  count := Tally.of_none fun c => by
    simp [Counted, Client.Counts, start, Place.firstOf, Place.waitOf]
  positive := by simp [start, Client.new]
  tables := by simp [start, Client.new]
  entries := by simp [start, Client.new]
  listed := by simp [start, Client.new]
  current := by simp [start, Client.new]
  unmade := by simp [start, Client.new]
  only := by simp [start, Place.firstOf]
  first := by simp [start, Place.firstOf]
  waits := by simp [start, Place.waitOf]
  oldest := by simp [start, Place.firstOf]

/-! ## Steps that leave the count of a hash alone -/

/-- A call may go from `q` to `p` without a change of the count of `h`. -/
structure Follows (hints : Nat → List HintEntry) (s : Client) (h : Nat) (p q : Place) : Prop where
  firstOf : ∀ r, p.firstOf = some (h, r) → q.firstOf = some (h, r)
  waitOf : ∀ r, p.waitOf = some (h, r) → q.waitOf = some (h, r)
  counts : s.Counts h p ↔ s.Counts h q
  first : ∀ r, q = .first h r → hints h ≠ [] → p = .first h r

theorem Follows.refl (s : Client) (p : Place) : Follows hints s h p p :=
  ⟨fun _ => id, fun _ => id, Iff.rfl, fun _ he _ => he⟩

/-- Two places of one part of the body count alike. -/
theorem Follows.of_same {s : Client} {p q : Place} (hfirst : p.firstOf = q.firstOf)
    (hwait : p.waitOf = q.waitOf) (hopen : ∀ h, p ≠ .opened h ∧ q ≠ .opened h)
    (hnot : ∀ h r, q ≠ .first h r) : Follows hints s h p q where
  firstOf := fun r he => hfirst ▸ he
  waitOf := fun r he => hwait ▸ he
  counts := by simp [Client.Counts, hfirst, hwait, (hopen h).1, (hopen h).2]
  first := fun r he => absurd he (hnot h r)

/-- Two places about other hashes. -/
theorem Follows.of_other {s : Client} {p q : Place} (hp : p.hash ≠ some h) (hq : q.hash ≠ some h) :
    Follows hints s h p q := by
  have hnot : ∀ p : Place, p.hash ≠ some h →
      (∀ r, p.firstOf ≠ some (h, r)) ∧ (∀ r, p.waitOf ≠ some (h, r)) ∧ p ≠ .opened h ∧
        ∀ r, p ≠ .first h r := by
    intro p hp
    cases p <;> simp_all [Place.hash, Place.firstOf, Place.waitOf]
  obtain ⟨h1, h2, h3, -⟩ := hnot p hp
  obtain ⟨h1', h2', h3', h4'⟩ := hnot q hq
  exact ⟨fun r he => absurd he (h1 r), fun r he => absurd he (h2 r),
    by simp [Client.Counts, h1, h2, h3, h1', h2', h3'], fun r he => absurd he (h4' r)⟩

/-- (PROVED) A step that leaves what the tables say of `h`, and the counts of `h`, alone. -/
theorem Account.frame (hs : Account hints s h)
    (hplace : ∀ c, Follows hints s.client h (t.place c) (s.place c))
    (href : t.client.refcount h = s.client.refcount h)
    (hready : t.client.ready h = s.client.ready h)
    (hentries : t.client.entries h = s.client.entries h) (hmade : t.client.made h = s.client.made h)
    (herror : ∀ r, (t.client.obj h r).error = (s.client.obj h r).error)
    (hunmade : ∀ r, s.client.made h ≤ r → t.client.obj h r = {}) : Account hints t h where
  count := by
    rw [href]
    refine hs.count.congr fun c => ?_
    unfold Counted
    rw [Client.counts_congr herror, (hplace c).counts]
  positive := by rw [href]; exact hs.positive
  tables := by rw [href, hready]; exact hs.tables
  entries := by rw [hentries, hready]; exact hs.entries
  listed := by
    rw [hentries, hready]
    intro hx hne
    exact (hs.listed hx hne).imp_right fun ⟨c, r, hc⟩ => ⟨c, r, (hplace c).first r hc hne⟩
  current := by rw [hready, hmade]; simp only [herror]; exact hs.current
  unmade := by rw [hmade]; exact hunmade
  only := fun c c' r r' hc hc' =>
    hs.only c c' r r' ((hplace c).firstOf r hc) ((hplace c').firstOf r' hc')
  first := fun c r hc => by rw [hready, herror]; exact hs.first c r ((hplace c).firstOf r hc)
  waits := fun c r hc hr => by
    rw [herror] at hr
    rw [hready]
    exact hs.waits c r ((hplace c).waitOf r hc) hr
  oldest := fun c c' r r' hc hc' hr => by
    rw [herror] at hr
    exact hs.oldest c c' r r' ((hplace c).firstOf r hc) ((hplace c').waitOf r' hc') hr

theorem place_move (s : System) (c : Nat) (p : Place) (a : Nat) :
    (s.move c p).place a = if a = c then p else s.place a := Function.update_apply _ _ _ _

theorem place_moved (s : System) (client : Client) (c : Nat) (p : Place) (a : Nat) :
    ((s.setClient client).move c p).place a = if a = c then p else s.place a :=
  place_move (s.setClient client) c p a

theorem follows_move {c : Nat} {p : Place} (hp : Follows hints s.client h p (s.place c)) (a : Nat) :
    Follows hints s.client h ((s.move c p).place a) (s.place a) := by
  rw [place_move]
  split_ifs with hac
  · exact hac ▸ hp
  · exact .refl _ _

/-- A call that goes on with the count it has. -/
theorem Account.move (hs : Account hints s h) {c : Nat} {p : Place}
    (hp : Follows hints s.client h p (s.place c)) : Account hints (s.move c p) h :=
  hs.frame (follows_move hp) rfl rfl rfl rfl (fun _ => rfl) hs.unmade

/-- A change of the client next to the tables. -/
theorem Account.setClient (hs : Account hints s h) (client : Client)
    (href : client.refcount = s.client.refcount) (hready : client.ready = s.client.ready)
    (hentries : client.entries = s.client.entries) (hmade : client.made = s.client.made)
    (hobj : client.obj = s.client.obj) : Account hints (s.setClient client) h :=
  hs.frame (fun _ => .refl _ _) (congrFun href h) (congrFun hready h) (congrFun hentries h)
    (congrFun hmade h) (fun _ => by rw [System.setClient, hobj])
    (by rw [System.setClient, hobj]; exact hs.unmade)

theorem error_setReady (s : Client) (h r x y : Nat) :
    ((s.setReady h r).obj x y).error = (s.obj x y).error := by
  unfold Client.setReady
  split_ifs
  · rfl
  · by_cases hx : x = h
    · subst hx
      by_cases hy : y = r
      · subst hy
        simp
      · simp [hy]
    · simp [hx]

theorem setReady_fields (s : Client) (h r : Nat) :
    (s.setReady h r).refcount = s.refcount ∧ (s.setReady h r).ready = s.ready ∧
      (s.setReady h r).entries = s.entries ∧ (s.setReady h r).made = s.made := by
  unfold Client.setReady
  split_ifs <;> exact ⟨rfl, rfl, rfl, rfl⟩

theorem obj_setReady_of_ne (s : Client) {h r x y : Nat} (hne : ¬ (x = h ∧ y = r)) :
    (s.setReady h r).obj x y = s.obj x y := by
  unfold Client.setReady
  split_ifs
  · rfl
  · by_cases hx : x = h
    · subst hx
      have hy : y ≠ r := fun hy => hne ⟨rfl, hy⟩
      simp [hy]
    · simp [hx]

theorem Account.setReady (hs : Account hints s h) {x r : Nat} (hr : r < s.client.made x) :
    Account hints (s.setClient (s.client.setReady x r)) h := by
  obtain ⟨h1, h2, h3, h4⟩ := setReady_fields s.client x r
  refine hs.frame (fun _ => .refl _ _) (congrFun h1 h) (congrFun h2 h) (congrFun h3 h)
    (congrFun h4 h) (error_setReady s.client x r h) fun y hy => ?_
  rw [System.setClient, obj_setReady_of_ne s.client fun ⟨hx, hyr⟩ => by subst hx hyr; omega]
  exact hs.unmade y hy

theorem Account.made_of_first (hs : Account hints s h) {c r : Nat}
    (hc : (s.place c).firstOf = some (h, r)) : r < s.client.made h := by
  obtain ⟨-, r', hr, hle⟩ := hs.first c r hc
  exact hle.trans_lt (hs.current r' hr).1

/-- A counted call keeps the tables of its hash. -/
theorem Account.ready_of_counted (hs : Account hints s h) {c : Nat} (hc : s.Counted h c) :
    ∃ r, s.client.ready h = some r := by
  have hpos := hs.count.pos hc
  have hne : s.client.ready h ≠ none := fun hn => by
    rw [hs.tables.2 hn] at hpos
    exact absurd hpos (by simp)
  exact Option.ne_none_iff_exists'.1 hne

/-! ## Steps that change the count of a hash -/

/-- Who is counted after call `c` moved, the errors as they were. -/
theorem counted_move {client : Client} {c : Nat} {p : Place}
    (herror : ∀ r, (client.obj h r).error = (s.client.obj h r).error) (a : Nat) :
    ((s.setClient client).move c p).Counted h a ↔
      (a = c ∧ s.client.Counts h p) ∨ (a ≠ c ∧ s.Counted h a) := by
  unfold Counted
  rw [place_move]
  by_cases hac : a = c
  · rw [if_pos hac]
    simp only [hac, true_and, ne_eq, not_true_eq_false, false_and, or_false]
    exact Client.counts_congr herror p
  · rw [if_neg hac]
    simp only [hac, false_and, ne_eq, not_false_eq_true, true_and, false_or]
    exact Client.counts_congr herror _

/-- A first registrant of a hash nobody is counted for. -/
theorem account_register (hs : Account hints s h) {c : Nat}
    (hprior : (s.client.refcount h).getD 0 = 0) :
    Account hints ((s.setClient { s.client with
      refcount := Function.update s.client.refcount h (some 1)
      ready := Function.update s.client.ready h (some (s.client.made h))
      made := Function.update s.client.made h (s.client.made h + 1) }).move c
        (.first h (s.client.made h))) h := by
  have hnobody : ∀ a, ¬ s.Counted h a := hs.count.eq_zero_iff.1 hprior
  have hnone : s.client.refcount h = none := by
    rcases hr : s.client.refcount h with _ | n
    · rfl
    · rw [hr] at hprior
      exact absurd (hr.trans (congrArg some hprior)) hs.positive
  have hready := hs.tables.1 hnone
  have hentries : s.client.entries h = none := by
    rcases he : s.client.entries h with _ | x
    · rfl
    · exact absurd hready (hs.entries x he).2.2
  have hfirst : ∀ a r, a ≠ c → (s.place a).firstOf ≠ some (h, r) := fun a r _ he =>
    hnobody a (Or.inl ⟨r, he⟩)
  have hwait : ∀ a r, (s.place a).waitOf = some (h, r) → (s.client.obj h r).error ≠ false :=
    fun a r he hr => hnobody a (Or.inr (Or.inl ⟨r, he, hr⟩))
  constructor
  case count =>
    simp only [move, setClient, Function.update_self, Option.getD_some]
    rw [show (1 : Nat) = 0 + 1 from rfl]
    refine Tally.join (p := s.Counted h) (c := c) ?_ (hnobody c) fun a => ?_
    · rw [← hprior]
      exact hs.count
    · refine (counted_move (fun _ => rfl) a).trans ?_
      simp [Client.Counts, Place.firstOf, hnobody]
  case positive => simp [move, setClient]
  case tables => simp [move, setClient]
  case entries =>
    intro x hx
    exact absurd (hentries.symm.trans hx) (by simp)
  case listed =>
    intro _ _
    exact Or.inr ⟨c, _, by rw [place_move, if_pos rfl]⟩
  case current =>
    intro r hr
    simp only [move, setClient, Function.update_self, Option.some.injEq] at hr ⊢
    subst hr
    exact ⟨by omega, by rw [hs.unmade _ le_rfl]⟩
  case unmade =>
    intro r hr
    simp only [move, setClient, Function.update_self] at hr ⊢
    exact hs.unmade r (by omega)
  case only =>
    intro a b r r' ha hb
    rw [place_move] at ha hb
    split_ifs at ha hb with hac hbc hbc
    · exact hac.trans hbc.symm
    · exact absurd hb (hfirst b r' hbc)
    · exact absurd ha (hfirst a r hac)
    · exact absurd ha (hfirst a r hac)
  case first =>
    intro a r ha
    rw [place_move] at ha
    split_ifs at ha with hac
    · simp only [Place.firstOf, Option.some.injEq, Prod.mk.injEq, true_and] at ha
      subst ha
      refine ⟨by simp only [move, setClient]; rw [hs.unmade _ le_rfl], s.client.made h, ?_, le_rfl⟩
      simp [move, setClient]
    · exact absurd ha (hfirst a r hac)
  case waits =>
    intro a r ha hr
    rw [place_move] at ha
    split_ifs at ha with hac
    · cases ha
    · exact absurd hr (hwait a r ha)
  case oldest =>
    intro a b r r' ha hb hr
    rw [place_move] at hb
    split_ifs at hb with hbc
    · cases hb
    · exact absurd hr (hwait b r' hb)

/-- Another registrant: it waits for the readiness there is. -/
theorem account_wait (hs : Account hints s h) {c r n : Nat} (hidle : s.place c = .idle)
    (hn : s.client.refcount h = some n) (hr : s.client.ready h = some r) :
    Account hints ((s.setClient { s.client with
      refcount := Function.update s.client.refcount h (some (n + 1)) }).move c (.waiting h r)) h := by
  have hcount := hs.count
  rw [hn, Option.getD_some] at hcount
  have hnot : ¬ s.Counted h c := by
    simp [Counted, Client.Counts, hidle, Place.firstOf, Place.waitOf]
  have herr := (hs.current r hr).2
  have hplace : ∀ a, (((s.setClient { s.client with
      refcount := Function.update s.client.refcount h (some (n + 1)) }).move c
        (.waiting h r)).place a) = if a = c then .waiting h r else s.place a := fun a =>
    place_move _ c _ a
  have hfirst : ∀ a r1, ((if a = c then .waiting h r else s.place a : Place)).firstOf = some (h, r1) →
      (s.place a).firstOf = some (h, r1) := by
    intro a r1 ha
    split_ifs at ha
    · cases ha
    · exact ha
  constructor
  case count =>
    simp only [move, setClient, Function.update_self, Option.getD_some]
    refine hcount.join hnot fun a => ?_
    refine (counted_move (fun _ => rfl) a).trans ?_
    by_cases hac : a = c
    · simp [hac, Client.Counts, Place.waitOf, herr]
    · simp [hac]
  case positive => simp [move, setClient]
  case tables => simp [move, setClient, hr]
  case entries => exact hs.entries
  case listed =>
    intro h1 h2
    refine (hs.listed h1 h2).imp_right fun ⟨a, r', ha⟩ => ⟨a, r', ?_⟩
    rw [hplace, if_neg fun hac => by rw [hac, hidle] at ha; cases ha]
    exact ha
  case current => exact hs.current
  case unmade => exact hs.unmade
  case only =>
    intro a b r1 r2 ha hb
    rw [hplace] at ha hb
    exact hs.only a b r1 r2 (hfirst a r1 ha) (hfirst b r2 hb)
  case first =>
    intro a r1 ha
    rw [hplace] at ha
    exact hs.first a r1 (hfirst a r1 ha)
  case waits =>
    intro a r1 ha hr1
    rw [hplace] at ha
    split_ifs at ha
    · simp only [Place.waitOf, Option.some.injEq, Prod.mk.injEq, true_and] at ha
      exact ⟨r, hr, ha.ge⟩
    · exact hs.waits a r1 ha hr1
  case oldest =>
    intro a b r1 r2 ha hb hr2
    rw [hplace] at ha hb
    have ha := hfirst a r1 ha
    split_ifs at hb
    · simp only [Place.waitOf, Option.some.injEq, Prod.mk.injEq, true_and] at hb
      obtain ⟨-, r', hr', hle⟩ := hs.first a r1 ha
      obtain rfl := Option.some.inj (hr.symm.trans hr')
      exact hle.trans hb.le
    · exact hs.oldest a b r1 r2 ha hb hr2

/-- A call of another hash moves and changes the tables there. -/
theorem Account.elsewhere (hs : Account hints s h) {client : Client} {c x : Nat} {p : Place}
    (hx : h ≠ x) (hq : (s.place c).hash ≠ some h) (hp : p.hash ≠ some h)
    (href : ∀ y, y ≠ x → client.refcount y = s.client.refcount y)
    (hready : ∀ y, y ≠ x → client.ready y = s.client.ready y)
    (hentries : ∀ y, y ≠ x → client.entries y = s.client.entries y)
    (hmade : ∀ y, y ≠ x → client.made y = s.client.made y)
    (hobj : ∀ y, y ≠ x → client.obj y = s.client.obj y) :
    Account hints ((s.setClient client).move c p) h := by
  refine hs.frame (fun a => ?_) (href h hx) (hready h hx) (hentries h hx) (hmade h hx)
    (fun r => congrArg Ready.error (congrFun (hobj h hx) r)) fun r hr => ?_
  · rw [place_move]
    split_ifs with hac
    · exact hac ▸ .of_other hp hq
    · exact .refl _ _
  · exact (congrFun (hobj h hx) r).trans (hs.unmade r hr)

theorem account_subscribe (hs : ∀ x, Account hints s x) (c x : Nat) (h : Nat) :
    Account hints (step hints s (.subscribe c x)) h := by
  unfold step
  dsimp only
  split_ifs with hidle
  swap
  · exact hs h
  -- the generation a call began on is no part of the tables
  have hbegan : ∀ began : Nat → Nat, Account hints { s with began := began } h := fun began =>
    (hs h).frame (fun _ => .refl _ _) rfl rfl rfl rfl (fun _ => rfl) (hs h).unmade
  unfold Client.register
  by_cases hprior : (s.client.refcount x).getD 0 = 0
  · simp only [hprior, if_true]
    by_cases hx : h = x
    · subst hx
      exact account_register (hbegan _) hprior
    · refine (hbegan _).elsewhere hx (by simp [hidle, Place.hash])
        (by simpa [Place.hash] using Ne.symm hx) ?_ ?_ ?_ ?_ ?_ <;> intro y hy <;> simp [hy]
  · simp only [hprior, if_false]
    obtain ⟨n, hn⟩ : ∃ n, s.client.refcount x = some n := by
      refine Option.ne_none_iff_exists'.1 fun hnone => hprior ?_
      rw [hnone]
      rfl
    obtain ⟨r, hr⟩ : ∃ r, s.client.ready x = some r := by
      refine Option.ne_none_iff_exists'.1 fun hnone => ?_
      rw [(hs x).tables.2 hnone] at hn
      cases hn
    rw [hr, hn]
    by_cases hx : h = x
    · subst hx
      exact account_wait (hbegan _) hidle hn hr
    · refine (hbegan _).elsewhere hx (by simp [hidle, Place.hash])
        (by simpa [Place.hash] using Ne.symm hx) ?_ ?_ ?_ ?_ ?_ <;> intro y hy <;> simp [hy]

theorem account_list (hs : Account hints s h) (c : Nat) :
    Account hints (step hints s (.list c)) h := by
  unfold step
  dsimp only
  split
  swap
  · exact hs
  rename_i x r hq
  split_ifs with hne
  · by_cases hx : h = x
    · subst hx
      have hready : s.client.ready h ≠ none := by
        obtain ⟨-, r', hr', -⟩ := hs.first c r (by rw [hq]; rfl)
        simp [hr']
      have hplace : ∀ a, Place.firstOf (if a = c then .listed h r else s.place a) =
          (s.place a).firstOf ∧ Place.waitOf (if a = c then .listed h r else s.place a) =
            (s.place a).waitOf := fun a => by
        split_ifs with hac
        · rw [hac, hq]
          exact ⟨rfl, rfl⟩
        · exact ⟨rfl, rfl⟩
      constructor
      case count =>
        refine hs.count.congr fun a => ((counted_move (fun _ => rfl) a).trans ?_).symm
        by_cases hac : a = c
        · simp [hac, Counted, Client.Counts, hq, Place.firstOf]
        · simp [hac]
      case positive => exact hs.positive
      case tables => exact hs.tables
      case entries =>
        intro y hy
        simp only [move, setClient, Function.update_self, Option.some.injEq] at hy
        exact ⟨hy.symm, hy ▸ hne, hready⟩
      case listed =>
        intro _ _
        exact Or.inl (by simp [move, setClient])
      case current => exact hs.current
      case unmade => exact hs.unmade
      case only =>
        intro a b r1 r2 ha hb
        rw [place_moved, (hplace _).1] at ha hb
        exact hs.only a b r1 r2 ha hb
      case first =>
        intro a r1 ha
        rw [place_moved, (hplace _).1] at ha
        exact hs.first a r1 ha
      case waits =>
        intro a r1 ha
        rw [place_moved, (hplace _).2] at ha
        exact hs.waits a r1 ha
      case oldest =>
        intro a b r1 r2 ha hb
        rw [place_moved, (hplace _).1] at ha
        rw [place_moved, (hplace _).2] at hb
        exact hs.oldest a b r1 r2 ha hb
    · refine hs.elsewhere hx (by rw [hq]; simpa [Place.hash] using Ne.symm hx)
        (by simpa [Place.hash] using Ne.symm hx) ?_ ?_ ?_ ?_ ?_ <;> intro y hy <;> simp [hy]
  · -- a hash without entries stays local: no listing is owed
    refine hs.move ⟨fun r' he => ?_, fun r' he => ?_, ?_, fun r' he hne' => ?_⟩
    · rw [hq]; exact he
    · cases he
    · rw [hq]; simp [Client.Counts, Place.firstOf, Place.waitOf]
    · rw [hq] at he
      cases he
      exact absurd hne' hne

theorem Place.hash_of_firstOf {p : Place} {r : Nat} (hp : p.firstOf = some (h, r)) :
    p.hash = some h := by
  cases p <;> simp_all [Place.firstOf, Place.hash]

theorem rollBack_fields {s : Client} {h r : Nat} (hready : s.ready h = some r) (subscribed : Bool) :
    (s.rollBack h r subscribed).refcount = Function.update s.refcount h none ∧
      (s.rollBack h r subscribed).ready = Function.update s.ready h none ∧
      (s.rollBack h r subscribed).entries = Function.update s.entries h none ∧
      (s.rollBack h r subscribed).made = s.made ∧
      (s.rollBack h r subscribed).obj = Function.update s.obj h
        (Function.update (s.obj h) r { s.obj h r with error := true, set := true }) := by
  unfold Client.rollBack
  simp only [hready, if_true]
  cases subscribed <;> exact ⟨rfl, rfl, rfl, rfl, rfl⟩

/-- (PROVED) A first registrant that fails in time takes every count of its hash with it. -/
theorem account_rolledBack (hs : Account hints s h) {c x r : Nat}
    (hq : (s.place c).firstOf = some (x, r)) (hready : s.client.ready x = some r)
    (hopen : ∀ d, s.place d ≠ .opened x) (subscribed : Bool) :
    Account hints ((s.setClient (s.client.rollBack x r subscribed)).move c (.failed x)) h := by
  obtain ⟨hrefs, htables, hentries, hmade, hobj⟩ := rollBack_fields hready subscribed
  generalize s.client.rollBack x r subscribed = client at hrefs htables hentries hmade hobj
  by_cases hx : h = x
  swap
  · refine hs.elsewhere hx (by rw [Place.hash_of_firstOf hq]; simpa using Ne.symm hx)
      (by simpa [Place.hash] using Ne.symm hx) ?_ ?_ ?_ ?_ ?_ <;> intro y hy <;>
      simp [hrefs, htables, hentries, hmade, hobj, hy]
  subst hx
  have hfirst : ∀ a r', a ≠ c → (s.place a).firstOf ≠ some (h, r') := fun a r' hac he =>
    hac (hs.only a c r' r he hq)
  -- whoever waits without an error waits for this very readiness, which gets one now
  have hwait : ∀ a r', (s.place a).waitOf = some (h, r') → (s.client.obj h r').error = false →
      r' = r := by
    intro a r' ha hr'
    obtain ⟨r2, hr2, hle⟩ := hs.waits a r' ha hr'
    obtain rfl := Option.some.inj (hready.symm.trans hr2)
    exact le_antisymm hle (hs.oldest c a r r' hq ha hr')
  have hr := hs.made_of_first (c := c) (r := r) hq
  have herror : ∀ a r', (s.place a).waitOf = some (h, r') →
      (Function.update (s.client.obj h) r { s.client.obj h r with error := true, set := true } r').error
        = true := by
    intro a r' ha
    by_cases hrr : r' = r
    · rw [hrr, Function.update_self]
    · rw [Function.update_of_ne hrr]
      by_contra hne
      exact hrr (hwait a r' ha (by simpa using hne))
  constructor
  case count =>
    simp only [move, setClient, hrefs, Function.update_self, Option.getD_none]
    refine Tally.of_none fun a ha => ?_
    unfold Counted Client.Counts at ha
    simp only [hobj, Function.update_apply, if_true] at ha
    split_ifs at ha with hac
    · rcases ha with ⟨_, ha⟩ | ⟨_, ha, -⟩ | ha <;> cases ha
    · rcases ha with ⟨r', ha⟩ | ⟨r', ha, hr'⟩ | ha
      · exact hfirst a r' hac ha
      · have := herror a r' ha
        rw [Function.update_apply] at this
        rw [this] at hr'
        cases hr'
      · exact hopen a ha
  case positive => simp [move, setClient, hrefs]
  case tables => simp [move, setClient, hrefs, htables]
  case entries => simp [move, setClient, hentries]
  case listed => simp [move, setClient, htables]
  case current => simp [move, setClient, htables]
  case unmade =>
    intro r' hr'
    simp only [move, setClient, hmade] at hr'
    have hne : r' ≠ r := fun he => by subst he; exact absurd hr (not_lt.2 hr')
    simp only [move, setClient, hobj, Function.update_self, Function.update_of_ne hne]
    exact hs.unmade r' hr'
  case only =>
    intro a b r1 r2 ha hb
    rw [place_move] at ha
    split_ifs at ha with hac
    · cases ha
    · exact absurd ha (hfirst a r1 hac)
  case first =>
    intro a r1 ha
    rw [place_move] at ha
    split_ifs at ha with hac
    · cases ha
    · exact absurd ha (hfirst a r1 hac)
  case waits =>
    intro a r1 ha hr1
    rw [place_move] at ha
    split_ifs at ha with hac
    · cases ha
    · simp only [move, setClient, hobj, Function.update_self] at hr1
      rw [herror a r1 ha] at hr1
      cases hr1
  case oldest =>
    intro a b r1 r2 ha
    rw [place_move] at ha
    split_ifs at ha with hac
    · cases ha
    · exact absurd ha (hfirst a r1 hac)

theorem account_rollBack (hs : Account hints s h) (c : Nat) (hsafe : ¬ s.LateRollBack c) :
    Account hints (step hints s (.rollBack c)) h := by
  unfold step
  dsimp only
  split
  swap
  · exact hs
  rename_i x r hq
  have hcur : s.client.ready x = some r ∧ ∀ d, s.place d ≠ .opened x := by
    by_contra hno
    refine hsafe ⟨x, r, hq, ?_⟩
    rw [not_and_or, not_forall] at hno
    exact hno.imp_right fun ⟨d, hd⟩ => ⟨d, not_not.1 hd⟩
  exact account_rolledBack hs (by rw [hq]; rfl) hcur.1 hcur.2 true

/-- A first registrant that has listed nothing has the readiness of its hash and nobody is
    subscribed. -/
def Alone (s : System) : Prop := ∀ c x r, s.place c = .first x r →
  s.client.ready x = some r ∧ ∀ d, s.place d ≠ .opened x

theorem account_listFails (hs : Account hints s h) (c : Nat) (halone : s.Alone) :
    Account hints (step hints s (.listFails c)) h := by
  unfold step
  dsimp only
  split
  · rename_i x r hq
    exact account_rolledBack hs (by rw [hq]; rfl) (halone c x r hq).1 (halone c x r hq).2 false
  · exact hs

/-- One of several counted calls of a hash ends. -/
theorem account_leave (hs : Account hints s h) {c n : Nat} {p : Place} (hc : s.Counted h c)
    (hnot : ∀ r, s.place c ≠ .first h r)
    (hp : p.firstOf = none ∧ p.waitOf = none ∧ ∀ x, p ≠ .opened x)
    (hn : s.client.refcount h = some n) (hn1 : 1 < n) :
    Account hints ((s.setClient { s.client with
      refcount := Function.update s.client.refcount h (some (n - 1)) }).move c p) h := by
  have hcount := hs.count
  rw [hn, Option.getD_some] at hcount
  have hready : s.client.ready h ≠ none := fun hr => by
    rw [hs.tables.2 hr] at hn
    cases hn
  have hfirst : ∀ a r, (if a = c then p else s.place a).firstOf = some (h, r) →
      (s.place a).firstOf = some (h, r) := by
    intro a r ha
    split_ifs at ha
    · cases hp.1.symm.trans ha
    · exact ha
  have hwait : ∀ a r, (if a = c then p else s.place a).waitOf = some (h, r) →
      (s.place a).waitOf = some (h, r) := by
    intro a r ha
    split_ifs at ha
    · cases hp.2.1.symm.trans ha
    · exact ha
  constructor
  case count =>
    simp only [move, setClient, Function.update_self, Option.getD_some]
    refine hcount.leave hc fun a => (counted_move (fun _ => rfl) a).trans ?_
    simp [Client.Counts, hp]
  case positive =>
    simp only [move, setClient, Function.update_self, ne_eq, Option.some.injEq]
    omega
  case tables => simp [move, setClient, hready]
  case entries => exact hs.entries
  case listed =>
    intro h1 h2
    refine (hs.listed h1 h2).imp_right fun ⟨a, r, ha⟩ => ⟨a, r, ?_⟩
    rw [place_moved, if_neg fun hac => hnot r (by rw [← hac]; exact ha)]
    exact ha
  case current => exact hs.current
  case unmade => exact hs.unmade
  case only =>
    intro a b r1 r2 ha hb
    rw [place_moved] at ha hb
    exact hs.only a b r1 r2 (hfirst a r1 ha) (hfirst b r2 hb)
  case first =>
    intro a r1 ha
    rw [place_moved] at ha
    exact hs.first a r1 (hfirst a r1 ha)
  case waits =>
    intro a r1 ha
    rw [place_moved] at ha
    exact hs.waits a r1 (hwait a r1 ha)
  case oldest =>
    intro a b r1 r2 ha hb
    rw [place_moved] at ha hb
    exact hs.oldest a b r1 r2 (hfirst a r1 ha) (hwait b r2 hb)

/-- (PROVED) A waiter that gives up in time takes its own count, or has none. -/
theorem account_release (hs : Account hints s h) (c : Nat) (hsafe : ¬ s.LeakyRelease c) :
    Account hints (step hints s (.release c)) h := by
  unfold step
  dsimp only
  split
  swap
  · exact hs
  rename_i x r hq
  by_cases hx : h = x
  swap
  · have hother : ∀ y, y ≠ x → (s.client.release x r).refcount y = s.client.refcount y := by
      intro y hy
      unfold Client.release
      dsimp only
      split_ifs <;> simp [hy]
    have hsame : ∀ y, (s.client.release x r).ready y = s.client.ready y ∧
        (s.client.release x r).entries y = s.client.entries y ∧
        (s.client.release x r).made y = s.client.made y ∧
        (s.client.release x r).obj y = s.client.obj y := by
      intro y
      unfold Client.release
      dsimp only
      split_ifs <;> exact ⟨rfl, rfl, rfl, rfl⟩
    exact hs.elsewhere hx (by rw [hq]; simpa [Place.hash] using Ne.symm hx)
      (by simpa [Place.hash] using Ne.symm hx) hother (fun y _ => (hsame y).1)
      (fun y _ => (hsame y).2.1) (fun y _ => (hsame y).2.2.1) (fun y _ => (hsame y).2.2.2)
  subst hx
  by_cases herr : (s.client.obj h r).error = true
  · -- rolled back already: the readiness is not the hash's and nothing is counted
    have hready : s.client.ready h ≠ some r := fun hr => by
      have := (hs.current r hr).2
      rw [herr] at this
      cases this
    rw [Client.release, if_pos hready]
    refine hs.move ⟨fun r' he => ?_, fun r' he => ?_, ?_, fun r' he => ?_⟩
    · cases he
    · cases he
    · rw [hq]
      simp [Client.Counts, Place.firstOf, Place.waitOf, herr]
    · rw [hq] at he
      cases he
  have herr : (s.client.obj h r).error = false := by simpa using herr
  have hgood : s.client.ready h = some r ∧ s.client.refcount h ≠ some 1 := by
    by_contra hno
    refine hsafe ⟨h, r, hq, herr, ?_⟩
    rw [not_and_or, not_not] at hno
    exact hno
  obtain ⟨hready, hone⟩ := hgood
  have hcounted : s.Counted h c := Or.inr (Or.inl ⟨r, by rw [hq]; rfl, herr⟩)
  obtain ⟨n, hn⟩ : ∃ n, s.client.refcount h = some n :=
    Option.ne_none_iff_exists'.1 fun hnone => by
      rw [hs.tables.1 hnone] at hready
      cases hready
  have hcount := hs.count
  rw [hn, Option.getD_some] at hcount
  have hpos := hcount.pos hcounted
  have hn1 : n ≠ 1 := fun he => hone (he ▸ hn)
  have hrel : s.client.release h r =
      { s.client with refcount := Function.update s.client.refcount h (some (n - 1)) } := by
    unfold Client.release
    rw [if_neg (by simp [hready])]
    simp only [hn, Option.getD_some]
    rw [if_pos (by omega)]
    congr 3
    omega
  rw [hrel]
  exact account_leave hs hcounted (fun r' he => by rw [hq] at he; cases he)
    ⟨rfl, rfl, fun _ he => by cases he⟩ hn (by omega)

/-- The last subscription of a hash closes: its tables go. -/
theorem account_unregister_last (hs : Account hints s h) {c : Nat} {client : Client}
    (hq : s.place c = .opened h) (hn : s.client.refcount h = some 1)
    (href : client.refcount h = none) (hready : client.ready h = none)
    (hentries : client.entries h = none) (hmade : client.made = s.client.made)
    (hobj : client.obj = s.client.obj) :
    Account hints ((s.setClient client).move c (.closed h)) h := by
  have hcount := hs.count
  rw [hn, Option.getD_some] at hcount
  have hcounted : s.Counted h c := Or.inr (Or.inr hq)
  have hnobody : ∀ a, ¬ ((s.setClient client).move c (.closed h)).Counted h a := by
    intro a ha
    rcases (counted_move (fun r => by rw [hobj]) a).1 ha with ⟨-, hp⟩ | ⟨hac, ha⟩
    · rcases hp with ⟨_, hp⟩ | ⟨_, hp, -⟩ | hp <;> cases hp
    · exact hac (hcount.eq_of_one ha hcounted)
  have hnofirst : ∀ a r1, (((s.setClient client).move c (.closed h)).place a).firstOf ≠ some (h, r1) :=
    fun a r1 ha => hnobody a (Or.inl ⟨r1, ha⟩)
  constructor
  case count =>
    simp only [move, setClient, href, Option.getD_none]
    exact Tally.of_none hnobody
  case positive => simp [move, setClient, href]
  case tables => simp [move, setClient, href, hready]
  case entries => simp [move, setClient, hentries]
  case listed => simp [move, setClient, hready]
  case current => simp [move, setClient, hready]
  case unmade =>
    intro r hr
    simp only [move, setClient, hmade, hobj] at hr ⊢
    exact hs.unmade r hr
  case only => exact fun a b r1 r2 ha => absurd ha (hnofirst a r1)
  case first => exact fun a r1 ha => absurd ha (hnofirst a r1)
  case waits => exact fun a r1 ha hr => absurd (Or.inr (Or.inl ⟨r1, ha, hr⟩)) (hnobody a)
  case oldest => exact fun a b r1 r2 ha => absurd ha (hnofirst a r1)

theorem account_unsubscribe (hs : Account hints s h) (c : Nat) :
    Account hints (step hints s (.unsubscribe c)) h := by
  unfold step
  dsimp only
  split
  swap
  · exact hs
  rename_i x hq
  by_cases hx : h = x
  swap
  · have hother : ∀ y, y ≠ x → (s.client.unregister x).refcount y = s.client.refcount y ∧
        (s.client.unregister x).ready y = s.client.ready y ∧
        (s.client.unregister x).entries y = s.client.entries y := by
      intro y hy
      unfold Client.unregister Client.dispatch
      dsimp only
      split_ifs <;> simp [hy]
    have hsame : (s.client.unregister x).made = s.client.made ∧
        (s.client.unregister x).obj = s.client.obj := by
      unfold Client.unregister Client.dispatch
      dsimp only
      split_ifs <;> exact ⟨rfl, rfl⟩
    exact hs.elsewhere hx (by rw [hq]; simpa [Place.hash] using Ne.symm hx)
      (by simpa [Place.hash] using Ne.symm hx) (fun y hy => (hother y hy).1)
      (fun y hy => (hother y hy).2.1) (fun y hy => (hother y hy).2.2)
      (fun y _ => congrFun hsame.1 y) (fun y _ => congrFun hsame.2 y)
  subst hx
  have hc : s.Counted h c := Or.inr (Or.inr hq)
  obtain ⟨r, hr⟩ := hs.ready_of_counted hc
  obtain ⟨n, hn⟩ : ∃ n, s.client.refcount h = some n :=
    Option.ne_none_iff_exists'.1 fun hnone => by
      rw [hs.tables.1 hnone] at hr
      cases hr
  have hn0 : n ≠ 0 := fun he => hs.positive (he ▸ hn)
  unfold Client.unregister Client.dispatch
  simp only [hn, Option.getD_some]
  by_cases hn1 : n > 1
  · rw [if_pos hn1]
    exact account_leave hs hc (fun r' he => by rw [hq] at he; cases he)
      ⟨rfl, rfl, fun _ he => by cases he⟩ hn hn1
  · rw [if_neg hn1]
    have hone : s.client.refcount h = some 1 := by rw [hn, show n = 1 by omega]
    split_ifs <;> exact account_unregister_last hs hq hone (by simp) (by simp) (by simp) rfl rfl

/-- (PROVED) A lost or replaced connection gives a set readiness a fresh successor. -/
theorem account_invalidateReady (hs : Account hints s h) {client : Client}
    (href : client.refcount = s.client.refcount)
    (hready : client.ready = s.client.invalidateReady.ready)
    (hentries : client.entries = s.client.entries)
    (hmade : client.made = s.client.invalidateReady.made) (hobj : client.obj = s.client.obj) :
    Account hints (s.setClient client) h := by
  have hle : s.client.made h ≤ client.made h := by
    rw [hmade]
    simp only [Client.invalidateReady]
    split_ifs <;> omega
  have hsucc : ∀ r, s.client.ready h = some r → ∃ r', client.ready h = some r' ∧ r ≤ r' := by
    intro r hr
    rw [hready]
    simp only [Client.invalidateReady]
    split_ifs
    · exact ⟨_, rfl, (hs.current r hr).1.le⟩
    · exact ⟨r, hr, le_rfl⟩
  have hnone : client.ready h = none ↔ s.client.ready h = none := by
    rw [hready]
    simp only [Client.invalidateReady]
    split_ifs with hres
    · simp only [false_iff]
      intro hr
      simp [Client.resets, hr] at hres
    · exact Iff.rfl
  constructor
  case count =>
    simp only [setClient, href]
    exact hs.count.congr fun a => (Client.counts_congr (fun r => by rw [hobj]) _).symm
  case positive => simp only [setClient, href]; exact hs.positive
  case tables => simp only [setClient, href, hnone]; exact hs.tables
  case entries => simp only [setClient, hentries, ne_eq, hnone]; exact hs.entries
  case listed => simp only [setClient, hentries, ne_eq, hnone]; exact hs.listed
  case current =>
    intro r hr
    simp only [setClient, hready, hmade, hobj, Client.invalidateReady] at hr ⊢
    split_ifs at hr ⊢ with hres
    · obtain rfl := Option.some.inj hr
      exact ⟨by omega, by rw [hs.unmade _ le_rfl]⟩
    · exact hs.current r hr
  case unmade =>
    intro r hr
    simp only [setClient, hobj] at hr ⊢
    exact hs.unmade r (hle.trans hr)
  case only => exact hs.only
  case first =>
    intro a r ha
    obtain ⟨he, r', hr', hrr⟩ := hs.first a r ha
    obtain ⟨r2, hr2, hrr2⟩ := hsucc r' hr'
    exact ⟨by simp only [setClient, hobj]; exact he, r2, hr2, hrr.trans hrr2⟩
  case waits =>
    intro a r ha he
    simp only [setClient, hobj] at he
    obtain ⟨r', hr', hrr⟩ := hs.waits a r ha he
    obtain ⟨r2, hr2, hrr2⟩ := hsucc r' hr'
    exact ⟨r2, hr2, hrr.trans hrr2⟩
  case oldest =>
    intro a b r1 r2 ha hb he
    simp only [setClient, hobj] at he
    exact hs.oldest a b r1 r2 ha hb he

/-! ## Every step -/

/-- A part of the client that holds neither the tables nor the readiness of any hash. -/
structure SameTables (s t : Client) : Prop where
  refcount : t.refcount = s.refcount
  ready : t.ready = s.ready
  entries : t.entries = s.entries
  made : t.made = s.made
  obj : t.obj = s.obj

theorem sameTables_runCmd (s : Client) (sent : Bool) : SameTables s (s.runCmd sent) := by
  unfold Client.runCmd
  split
  · exact ⟨rfl, rfl, rfl, rfl, rfl⟩
  · split <;> exact ⟨rfl, rfl, rfl, rfl, rfl⟩
  · exact ⟨rfl, rfl, rfl, rfl, rfl⟩

theorem sameTables_onSubscribed (s : Client) (h : Nat) : SameTables s (s.onSubscribed h).1 := by
  unfold Client.onSubscribed
  split <;> exact ⟨rfl, rfl, rfl, rfl, rfl⟩

theorem sameTables_unsubscribeOrphan (s : Client) (h : Nat) (sent : Bool) :
    SameTables s (s.unsubscribeOrphan h sent) := by
  unfold Client.unsubscribeOrphan
  split_ifs <;> exact ⟨rfl, rfl, rfl, rfl, rfl⟩

theorem SameTables.account {client : Client} (hc : SameTables s.client client)
    (hs : Account hints s h) : Account hints (s.setClient client) h :=
  hs.setClient _ hc.refcount hc.ready hc.entries hc.made hc.obj

/-- What a step changes next to the client and the places says nothing of the counts. -/
theorem Account.record (hs : Account hints s h) {t : System} (hclient : t.client = s.client)
    (hplace : t.place = s.place) : Account hints t h :=
  hs.frame (fun _ => by rw [hplace]; exact .refl _ _) (by rw [hclient]) (by rw [hclient])
    (by rw [hclient]) (by rw [hclient]) (fun _ => by rw [hclient]) (by rw [hclient]; exact hs.unmade)

theorem account_read (hs : Account hints s h) : Account hints s.read h := by
  unfold System.read
  split
  · exact hs
  · exact hs.setClient _ rfl rfl rfl rfl rfl
  · rename_i x rest hwire
    have hsame := sameTables_onSubscribed
      { s.client with pubsub := { s.client.pubsub with wire := rest } } x
    dsimp only
    split
    all_goals
      rename_i client heq
      rw [heq] at hsame
      exact (hs.setClient client hsame.refcount hsame.ready hsame.entries hsame.made
        hsame.obj).record rfl rfl

/-- A first registrant under way goes on. -/
theorem Account.goOn (hs : Account hints s h) {c : Nat} {p q : Place} (hq : s.place c = q)
    (hfirst : p.firstOf = q.firstOf) (hwait : p.waitOf = q.waitOf)
    (hopen : ∀ h, p ≠ .opened h ∧ q ≠ .opened h) (hnot : ∀ h r, q ≠ .first h r) :
    Account hints (s.move c p) h := by
  subst hq
  exact hs.move (.of_same hfirst hwait hopen hnot)

theorem account_finish (hs : ∀ x, Account hints s x) (c : Nat) (h : Nat) :
    Account hints (step hints s (.finish c)) h := by
  unfold step
  dsimp only
  split
  swap
  · exact hs h
  rename_i x r hq
  have h1 := (hs h).setReady (r := r) ((hs x).made_of_first (c := c) (by rw [hq]; rfl))
  refine h1.move ⟨fun r' he => ?_, fun r' he => ?_, ?_, fun r' he => ?_⟩
  · cases he
  · cases he
  · rw [show (s.setClient (s.client.setReady x r)).place c = _ from hq]
    simp [Client.Counts, Place.firstOf, Place.waitOf]
  · rw [show (s.setClient (s.client.setReady x r)).place c = _ from hq] at he
    cases he

theorem account_wake (hs : Account hints s h) (c : Nat) : Account hints (step hints s (.wake c)) h := by
  unfold step
  dsimp only
  split
  swap
  · exact hs
  rename_i x r hq
  split_ifs with hset herr
  · refine hs.move ⟨fun r' he => ?_, fun r' he => ?_, ?_, fun r' he => ?_⟩
    · cases he
    · cases he
    · rw [hq]
      simp only [Client.Counts, Place.firstOf, Place.waitOf]
      simp
      rintro rfl
      exact herr
    · rw [hq] at he
      cases he
  · refine hs.move ⟨fun r' he => ?_, fun r' he => ?_, ?_, fun r' he => ?_⟩
    · cases he
    · cases he
    · rw [hq]
      simp only [Client.Counts, Place.firstOf, Place.waitOf]
      simp
      rintro rfl
      simpa using herr
    · rw [hq] at he
      cases he
  · exact hs

theorem account_mark (hs : ∀ x, Account hints s x) (h : Nat) : Account hints (step hints s .mark) h := by
  unfold step
  dsimp only
  split
  swap
  · exact hs h
  rename_i x gen hm
  unfold Client.markReady
  split
  · exact (hs h).record rfl rfl
  · rename_i r hr
    split_ifs
    · exact ((hs h).setReady ((hs x).current r hr).1).record rfl rfl
    · exact (hs h).record rfl rfl

/-- (PROVED) Every safe step keeps the accounts of every hash. -/
theorem account_step (hs : ∀ x, Account hints s x) (halone : s.Alone) (a : Act)
    (hsafe : ¬ s.Unsafe a) (h : Nat) :
    Account hints (step hints s a) h := by
  cases a with
  | subscribe c x => exact account_subscribe hs c x h
  | list c => exact account_list (hs h) c
  | listFails c => exact account_listFails (hs h) c halone
  | rollBack c => exact account_rollBack (hs h) c hsafe
  | finish c => exact account_finish hs c h
  | wake c => exact account_wake (hs h) c
  | release c => exact account_release (hs h) c hsafe
  | unsubscribe c => exact account_unsubscribe (hs h) c
  | mark => exact account_mark hs h
  | dispatch c =>
    unfold step
    dsimp only
    split
    · rename_i x r hq
      exact ((hs h).setClient (s.client.dispatch (.sub x c)) rfl rfl rfl rfl rfl).goOn hq
        rfl rfl (by simp) (by simp)
    · exact hs h
  | ackWake c =>
    unfold step
    dsimp only
    split
    · rename_i x r hq
      split_ifs
      · exact (hs h).goOn hq rfl rfl (by simp) (by simp)
      · exact (hs h).goOn hq rfl rfl (by simp) (by simp)
      · exact hs h
    · exact hs h
  | ackTimeout c =>
    unfold step
    dsimp only
    split
    · rename_i x r hq
      exact (hs h).goOn hq rfl rfl (by simp) (by simp)
    · exact hs h
  | hint c ok =>
    unfold step
    dsimp only
    split
    · rename_i x r hq
      split_ifs
      · exact ((hs h).goOn (p := .registered x r) hq rfl rfl (by simp) (by simp)).record rfl rfl
      · exact (hs h).goOn hq rfl rfl (by simp) (by simp)
    · exact hs h
  | check c =>
    unfold step
    dsimp only
    split
    · rename_i x r hq
      split_ifs
      · exact ((hs h).setReady ((hs x).made_of_first (c := c) (by rw [hq]; rfl))).goOn hq rfl rfl
          (by simp) (by simp)
      · exact (hs h).goOn hq rfl rfl (by simp) (by simp)
    · exact hs h
  | readyWake c =>
    unfold step
    dsimp only
    split
    · rename_i x r hq
      split_ifs
      · exact (hs h).goOn hq rfl rfl (by simp) (by simp)
      · exact hs h
    · exact hs h
  | readyTimeout c =>
    unfold step
    dsimp only
    split
    · rename_i x r hq
      exact (hs h).goOn hq rfl rfl (by simp) (by simp)
    · exact hs h
  | timeout c =>
    unfold step
    dsimp only
    split
    · rename_i x r hq
      exact (hs h).goOn hq rfl rfl (by simp) (by simp)
    · exact hs h
  | runCmd sent =>
    unfold step
    dsimp only
    split_ifs
    · exact (sameTables_runCmd s.client sent).account (hs h)
    · exact hs h
  | read =>
    unfold step
    dsimp only
    split_ifs
    · exact account_read (hs h)
    · exact hs h
  | look =>
    unfold step
    dsimp only
    split
    · split_ifs <;> exact (hs h).record rfl rfl
    · rename_i x hl
      split_ifs
      · exact ((hs h).setClient ({ s.client with
          rereg := s.client.rereg ++ [(x, s.client.connGen)] }) rfl rfl rfl rfl rfl).record rfl rfl
      · exact (hs h).record rfl rfl
    · exact hs h
  | unsubscribeOrphan sent =>
    unfold step
    dsimp only
    split
    · exact ((sameTables_unsubscribeOrphan s.client _ sent).account (hs h)).record rfl rfl
    · exact hs h
  | drop => exact (hs h).setClient _ rfl rfl rfl rfl rfl
  | lost =>
    unfold step
    dsimp only
    split_ifs
    · exact account_invalidateReady (hs h) rfl rfl rfl rfl rfl
    · exact hs h
  | reconnect order =>
    unfold step
    dsimp only
    split_ifs
    · exact account_invalidateReady (hs h) rfl rfl rfl rfl rfl
    · exact hs h
  | take =>
    unfold step
    dsimp only
    split
    · rename_i x gen rest hm hr
      exact ((hs h).setClient ({ s.client with rereg := rest }) rfl rfl rfl rfl rfl).record
        rfl rfl
    · exact hs h
  | readEntries =>
    unfold step
    dsimp only
    split
    · split_ifs <;> exact (hs h).record rfl rfl
    · exact hs h
  | reregister ok =>
    unfold step
    dsimp only
    split
    · split_ifs <;> exact (hs h).record rfl rfl
    · exact hs h

end System

end Virtuals.Observer
