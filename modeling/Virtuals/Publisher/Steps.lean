/-
  What a step can do.

  `work_cases` and `go_cases` say it once for the steps of a worker and of a call; the account, the
  numbers of the attempts and the queues that somebody still empties are followed along them.
-/
import Virtuals.Publisher.Account

namespace Virtuals.Publisher

namespace PublisherBase

variable {T : Type} {cfg : Config} {s s' : PublisherBase T} {c : T} {w : Nat} {choice : Choice}

/-! ## A worker -/

/-- The next step of the worker is its return. -/
def Returns (s : PublisherBase T) (w : Nat) : Prop :=
  s.worker w = .chunks [] .done ∨ (s.worker w = .empty ∧ s.stop w = true)

instance (s : PublisherBase T) (w : Nat) : Decidable (s.Returns w) :=
  inferInstanceAs (Decidable (_ ∨ _))

inductive WorkStep (s : PublisherBase T) (w : Nat) : PublisherBase T → Prop where
  | goOn {s' : PublisherBase T} {pc : Worker} (hq : Quiet s s')
      (hpc : pc.working.Perm (s.worker w).working) (halive : pc.isAlive = true) :
      WorkStep s w (s'.setWorker w pc)
  | take {batch : List Nat} {item : Item} {items : List Item}
      (hbatch : (s.worker w).working = batch) (hitems : s.items w = item :: items) :
      WorkStep s w ((s.setItems w items).setWorker w (taken batch item))
  | drop {pc : Worker} {ts : List Nat} (hpc : (s.worker w).working.Perm (ts ++ pc.working))
      (halive : pc.isAlive = true) : WorkStep s w ((s.recordDrop ts).setWorker w pc)
  | send {pc : Worker} {ts : List Nat} (hpc : (s.worker w).working.Perm (ts ++ pc.working))
      (halive : pc.isAlive = true) :
      WorkStep s w ({ s with sent := s.sent ++ ts }.setWorker w pc)
  | returns (hret : s.Returns w) (hpc : (s.worker w).working = []) :
      WorkStep s w (s.setWorker w .returned)

/-- The worker goes on from `pc` to `pc'`. -/
theorem WorkStep.next {pc pc' : Worker} (hw : s.worker w = pc) (h : pc'.working = pc.working)
    (halive : pc'.isAlive = true) : WorkStep s w (s.setWorker w pc') :=
  .goOn (.refl s) (.of_eq (by rw [hw, h])) halive

/-- (PROVED) What a step of a worker can do. -/
theorem work_cases (h : s.work cfg w choice = some s') :
    WorkStep s w s' ∧ (s.worker w).isAlive = true := by
  unfold work at h
  split at h
  case h_1 => cases h
  case h_2 => cases h
  case h_3 hw =>
    refine ⟨?_, by rw [hw]; rfl⟩
    split at h
    · rename_i item items hitems
      obtain rfl := Option.some.inj h
      exact .take (by rw [hw]; rfl) hitems
    · obtain rfl := Option.some.inj h
      exact .next hw rfl rfl
    · cases h
  case h_4 hw =>
    refine ⟨?_, by rw [hw]; rfl⟩
    obtain rfl := Option.some.inj h
    split_ifs with hstop
    · exact .returns (Or.inr ⟨hw, hstop⟩) (by rw [hw]; rfl)
    · exact .next hw rfl rfl
  case h_5 batch hw =>
    refine ⟨?_, by rw [hw]; rfl⟩
    split at h
    · rename_i item items hitems
      obtain rfl := Option.some.inj h
      exact .take (by rw [hw]; rfl) hitems
    · obtain rfl := Option.some.inj h
      exact .next hw rfl rfl
  case h_6 hw =>
    obtain rfl := Option.some.inj h
    exact ⟨.next hw rfl rfl, by rw [hw]; rfl⟩
  case h_7 hw =>
    obtain rfl := Option.some.inj h
    exact ⟨.next hw rfl rfl, by rw [hw]; rfl⟩
  case h_8 hw =>
    obtain rfl := Option.some.inj h
    exact ⟨.returns (Or.inl hw) (by rw [hw]; rfl), by rw [hw]; rfl⟩
  case h_9 t rest after hw =>
    obtain rfl := Option.some.inj h
    exact ⟨.next hw (List.take_append_drop _ _) rfl, by rw [hw]; rfl⟩
  case h_10 chunk rest after hw =>
    refine ⟨?_, by rw [hw]; rfl⟩
    split at h
    · obtain rfl := Option.some.inj h
      exact .next hw rfl rfl
    · obtain rfl := Option.some.inj h
      exact .drop (by rw [hw]; exact .refl _) rfl
  case h_11 t todo kept rest after hw =>
    refine ⟨?_, by rw [hw]; rfl⟩
    split at h
    · obtain rfl := Option.some.inj h
      exact .next hw (by simp [Worker.working]) rfl
    · obtain rfl := Option.some.inj h
      refine .drop ?_ rfl
      rw [hw]
      simp only [Worker.working, List.append_assoc, List.cons_append, List.nil_append]
      exact List.perm_middle
  case h_12 rest after hw =>
    obtain rfl := Option.some.inj h
    exact ⟨.next hw rfl rfl, by rw [hw]; rfl⟩
  case h_13 kept rest after _ hw =>
    obtain rfl := Option.some.inj h
    exact ⟨.next hw (by simp [Worker.working]) rfl, by rw [hw]; rfl⟩
  case h_14 kept rest after hw =>
    refine ⟨?_, by rw [hw]; rfl⟩
    obtain rfl := Option.some.inj h
    split_ifs
    · exact .next hw rfl rfl
    · exact .next hw rfl rfl
  case h_15 kept rest after hw =>
    refine ⟨?_, by rw [hw]; rfl⟩
    split_ifs at h
    · obtain rfl := Option.some.inj h
      exact .drop (by rw [hw]; exact .refl _) rfl
    · obtain rfl := Option.some.inj h
      exact .next hw rfl rfl
  case h_16 kept rest after hw =>
    refine ⟨?_, by rw [hw]; rfl⟩
    split at h
    · obtain rfl := Option.some.inj h
      exact .send (by rw [hw]; exact .refl _) rfl
    · split_ifs at h
      · obtain rfl := Option.some.inj h
        exact .drop (by rw [hw]; exact .refl _) rfl
      · obtain rfl := Option.some.inj h
        exact .next hw rfl rfl
    · obtain rfl := Option.some.inj h
      exact .drop (by rw [hw]; exact .refl _) rfl
  case h_17 rest after hw =>
    obtain rfl := Option.some.inj h
    exact ⟨.goOn ⟨rfl, rfl, rfl, rfl, rfl, rfl, rfl, rfl, rfl, rfl⟩ (by rw [hw]; exact .refl _) rfl,
      by rw [hw]; rfl⟩
  case h_18 rest after hw =>
    obtain rfl := Option.some.inj h
    exact ⟨.goOn ⟨rfl, rfl, rfl, rfl, rfl, rfl, rfl, rfl, rfl, rfl⟩ (by rw [hw]; exact .refl _) rfl,
      by rw [hw]; rfl⟩

/-! ## A call -/

theorem Quiet.of_flags (thread : Option Nat) (stop : Nat → Bool) (stopEvent : Nat)
    (stalled drainFailed : Bool) :
    Quiet s { s with
      thread := thread, stop := stop, stopEvent := stopEvent, stalled := stalled,
      drainFailed := drainFailed } :=
  ⟨rfl, rfl, rfl, rfl, rfl, rfl, rfl, rfl, rfl, rfl⟩

variable [DecidableEq T]

inductive CallStep (cfg : Config) (s : PublisherBase T) (c : T) : PublisherBase T → Prop where
  | quiet {s' : PublisherBase T} {pc : Call} (hq : Quiet s s')
      (hcalling : pc.calling = (s.call c).calling) (hdraining : pc.draining = (s.call c).draining)
      (hattempt : pc.attempt = none ∨ pc.attempt = (s.call c).attempt) :
      CallStep cfg s c (s'.setCall c pc)
  | put {q t : Nat} {rest : List Nat}
      (hcall : s.call c = .put q (t :: rest) ∨ s.call c = .wait q (t :: rest))
      (hroom : s.hasRoom cfg q = true) :
      CallStep cfg s c ((s.append q (.key t)).setCall c (.put q rest))
  | mark {q : Nat} {i : Item} {pc : Call} (hi : keysOf [i] = [])
      (hcalling : pc.calling = (s.call c).calling) (hdraining : pc.draining = (s.call c).draining)
      (hattempt : pc.attempt = none) : CallStep cfg s c ((s.append q i).setCall c pc)
  | countCalling (pc : Call) (hcalling : pc.calling = [])
      (hdraining : pc.draining = (s.call c).draining) (hattempt : pc.attempt = none) :
      CallStep cfg s c ((s.recordDrop (s.call c).calling).setCall c pc)
  | countDraining (pc : Call) (hdraining : pc.draining = [])
      (hcalling : pc.calling = (s.call c).calling) (hattempt : pc.attempt = none) :
      CallStep cfg s c ((s.recordDrop (s.call c).draining).setCall c pc)
  | leftover {q : Nat} {i : Item} {items : List Item} {pc : Call}
      (hitems : s.items q = i :: items) (hdraining : pc.draining = (s.call c).draining ++ keysOf [i])
      (hcalling : pc.calling = (s.call c).calling) (hattempt : pc.attempt = none) :
      CallStep cfg s c ((s.setItems q items).setCall c pc)
  | attempt (hcall : s.call c = .freshStop) :
      CallStep cfg s c ({ s with stopEvent := s.attempts, attempts := s.attempts + 1 }.setCall c
        (.freshQueue s.attempts))
  | freshQueue {n : Nat} (hcall : s.call c = .freshQueue n) :
      CallStep cfg s c ({ s with queue := n }.setCall c (.clearDrainFailed n))
  | start {n : Nat} (hcall : s.call c = .start n) :
      CallStep cfg s c ((s.setWorker n .get).setCall c .opened)
  | opens (hcall : s.call c = .opened) :
      CallStep cfg s c ({ s with connected := true }.setCall c .idle)
  | closes (hcall : s.call c = .closed ∨ s.call c = .abandonConnect) :
      CallStep cfg s c ({ s with connected := false }.setCall c .idle)
  | recount {batch : List Nat} (hcall : s.call c = .ensureConnected batch)
      (hconnected : s.connected = true) : CallStep cfg s c (s.setCall c (.readQueue batch))

/-- The call goes on from `pc` to `pc'`, with a flag or the thread changed. -/
theorem CallStep.next {pc pc' : Call} (hc : s.call c = pc) (hq : Quiet s s')
    (hcalling : pc'.calling = pc.calling) (hdraining : pc'.draining = pc.draining)
    (hattempt : pc'.attempt = none ∨ pc'.attempt = pc.attempt) :
    CallStep cfg s c (s'.setCall c pc') :=
  .quiet hq (by rw [hc, hcalling]) (by rw [hc, hdraining]) (by rw [hc]; exact hattempt)

/-- (PROVED) What a step of a call can do. -/
theorem go_cases (h : s.go cfg c choice = some s') : CallStep cfg s c s' := by
  have hflags := @Quiet.of_flags T s
  cases hc : s.call c with
  | idle =>
    simp only [go, hc] at h
    cases h
  | notify batch =>
    simp only [go, hc] at h
    split_ifs at h
    · obtain rfl := Option.some.inj h
      exact .next hc (.refl s) rfl rfl (Or.inl rfl)
    · obtain rfl := Option.some.inj h
      have hstep : CallStep cfg s c _ :=
        .countCalling (.ensureConnected batch) rfl (by rw [hc]; rfl) rfl
      rwa [hc] at hstep
  | ensureConnected batch =>
    simp only [go, hc] at h
    obtain rfl := Option.some.inj h
    split_ifs with hconn
    · exact .recount hc hconn
    · exact .next hc (.refl s) rfl rfl (Or.inl rfl)
  | readQueue batch =>
    simp only [go, hc] at h
    obtain rfl := Option.some.inj h
    exact .next hc (.refl s) rfl rfl (Or.inl rfl)
  | put q rest =>
    cases rest with
    | nil =>
      simp only [go, hc] at h
      obtain rfl := Option.some.inj h
      exact .next hc (.refl s) rfl rfl (Or.inl rfl)
    | cons t rest =>
      simp only [go, hc] at h
      split_ifs at h with hroom
      · obtain rfl := Option.some.inj h
        exact .put (Or.inl hc) hroom
      · obtain rfl := Option.some.inj h
        exact .next hc (.refl s) rfl rfl (Or.inl rfl)
  | full q rest =>
    simp only [go, hc] at h
    obtain rfl := Option.some.inj h
    split_ifs
    · exact .next hc (.refl s) rfl rfl (Or.inl rfl)
    · exact .next hc (.refl s) rfl rfl (Or.inl rfl)
  | wait q rest =>
    cases rest with
    | nil =>
      simp only [go, hc] at h
      cases h
    | cons t rest =>
      simp only [go, hc] at h
      split_ifs at h with hroom
      · obtain rfl := Option.some.inj h
        exact .put (Or.inr hc) hroom
      · obtain rfl := Option.some.inj h
        exact .next hc (.refl s) rfl rfl (Or.inl rfl)
  | stall rest =>
    simp only [go, hc] at h
    obtain rfl := Option.some.inj h
    exact .next hc (hflags _ _ _ _ _) rfl rfl (Or.inl rfl)
  | drop rest =>
    simp only [go, hc] at h
    obtain rfl := Option.some.inj h
    have hstep : CallStep cfg s c _ := .countCalling .idle rfl (by rw [hc]; rfl) rfl
    rwa [hc] at hstep
  | putEvent q =>
    simp only [go, hc] at h
    split_ifs at h
    · obtain rfl := Option.some.inj h
      exact .mark rfl (by rw [hc]; rfl) (by rw [hc]; rfl) rfl
    · obtain rfl := Option.some.inj h
      exact .next hc (.refl s) rfl rfl (Or.inl rfl)
  | putMarker q =>
    simp only [go, hc] at h
    split_ifs at h
    · obtain rfl := Option.some.inj h
      exact .mark rfl (by rw [hc]; rfl) (by rw [hc]; rfl) rfl
    · obtain rfl := Option.some.inj h
      exact .next hc (.refl s) rfl rfl (Or.inl rfl)
  | readOld =>
    simp only [go, hc] at h
    split at h
    · obtain rfl := Option.some.inj h
      exact .next hc (.refl s) rfl rfl (Or.inl rfl)
    · obtain rfl := Option.some.inj h
      exact .next hc (.refl s) rfl rfl (Or.inl rfl)
  | readThread =>
    simp only [go, hc] at h
    split at h
    · obtain rfl := Option.some.inj h
      exact .next hc (.refl s) rfl rfl (Or.inl rfl)
    · obtain rfl := Option.some.inj h
      exact .next hc (.refl s) rfl rfl (Or.inl rfl)
  | freshStop =>
    simp only [go, hc] at h
    obtain rfl := Option.some.inj h
    exact .attempt hc
  | freshQueue n =>
    simp only [go, hc] at h
    obtain rfl := Option.some.inj h
    exact .freshQueue hc
  | clearDrainFailed n =>
    simp only [go, hc] at h
    obtain rfl := Option.some.inj h
    exact .next hc (hflags _ _ _ _ _) rfl rfl (Or.inr rfl)
  | clearStalled n =>
    simp only [go, hc] at h
    obtain rfl := Option.some.inj h
    exact .next hc (hflags _ _ _ _ _) rfl rfl (Or.inr rfl)
  | onConnect n =>
    simp only [go, hc] at h
    obtain rfl := Option.some.inj h
    split_ifs
    · exact .next hc (.refl s) rfl rfl (Or.inr rfl)
    · exact .next hc (.refl s) rfl rfl (Or.inl rfl)
  | makeThread n =>
    simp only [go, hc] at h
    obtain rfl := Option.some.inj h
    exact .next hc (hflags _ _ _ _ _) rfl rfl (Or.inr rfl)
  | start n =>
    simp only [go, hc] at h
    split_ifs at h
    · obtain rfl := Option.some.inj h
      exact .start hc
    · obtain rfl := Option.some.inj h
      exact .next hc (.refl s) rfl rfl (Or.inl rfl)
  | opened =>
    simp only [go, hc] at h
    obtain rfl := Option.some.inj h
    exact .opens hc
  | abandonConnect =>
    simp only [go, hc] at h
    obtain rfl := Option.some.inj h
    exact .closes (Or.inr hc)
  | closed =>
    simp only [go, hc] at h
    obtain rfl := Option.some.inj h
    exact .closes (Or.inl hc)
  | setStop =>
    simp only [go, hc] at h
    obtain rfl := Option.some.inj h
    exact .next hc (hflags _ _ _ _ _) rfl rfl (Or.inl rfl)
  | clearThread =>
    simp only [go, hc] at h
    obtain rfl := Option.some.inj h
    exact .next hc (hflags _ _ _ _ _) rfl rfl (Or.inl rfl)
  | leftovers n =>
    simp only [go, hc] at h
    obtain rfl := Option.some.inj h
    exact .next hc (.refl s) rfl rfl (Or.inl rfl)
  | getLeftover q n =>
    simp only [go, hc] at h
    split at h
    · obtain rfl := Option.some.inj h
      exact .next hc (.refl s) rfl rfl (Or.inl rfl)
    · rename_i t items hitems
      obtain rfl := Option.some.inj h
      exact .leftover hitems (by rw [hc]; rfl) (by rw [hc]; rfl) rfl
    · rename_i i items hnot hitems
      obtain rfl := Option.some.inj h
      refine .leftover hitems ?_ (by rw [hc]; rfl) rfl
      rw [hc]
      cases i with
      | key t => exact (hnot t rfl).elim
      | _ => exact (List.append_nil n).symm
  | recordLeftovers n =>
    simp only [go, hc] at h
    obtain rfl := Option.some.inj h
    have hstep : CallStep cfg s c _ := .countDraining .closed rfl (by rw [hc]; rfl) rfl
    rwa [hc] at hstep
  | _ =>
    simp only [go, hc] at h
    obtain rfl := Option.some.inj h
    first
      | exact .next hc (.refl s) rfl rfl (Or.inl rfl)
      | split_ifs <;> exact .next hc (.refl s) rfl rfl (Or.inl rfl)

end PublisherBase

end Virtuals.Publisher
