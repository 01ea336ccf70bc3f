/-
  The re-registrations after a reconnect, with the generations they are for.

  The confirmation of a resubscribed channel is read on a generation, the listener queues the hash
  with that generation, and the maintenance thread registers its hints later. It marks the hash ready
  only where the generation still is the connection's, so the hints were registered on that
  generation too.
-/
import Virtuals.Observer.Live

namespace Virtuals.Observer

namespace System

variable {hints : Nat → List HintEntry} {s t : System} {a : Act} {h g : Nat}

/-- The maintenance thread is at work on the hash, for generation `g`. -/
def Taken (m : Maint) (h g : Nat) : Prop := m = .took h g ∨ m = .hinting h g ∨ m = .hinted h g

/-- What the re-registrations of a hash keep. -/
structure Rereg (s : System) (h : Nat) : Prop where
  confirms_le : ∀ g, (h, g) ∈ s.confirms → g ≤ s.client.connGen
  hinted_le : ∀ g, (h, g) ∈ s.hinted → g ≤ s.client.connGen
  listener : s.listener = .resubscribed h → (h, s.client.connGen) ∈ s.confirms
  queued : ∀ g, (h, g) ∈ s.client.rereg → (h, g) ∈ s.confirms
  taken : ∀ g, Taken s.maint h g → (h, g) ∈ s.confirms
  done : ∀ g, s.maint = .hinted h g → ∃ g', (h, g') ∈ s.hinted ∧ g ≤ g'

theorem rereg_start : Rereg start h where
  confirms_le := fun g hg => absurd hg List.not_mem_nil
  hinted_le := fun g hg => absurd hg List.not_mem_nil
  listener := nofun
  queued := fun g hg => absurd hg List.not_mem_nil
  taken := fun g hg => by rcases hg with hg | hg | hg <;> cases hg
  done := nofun

/-- What the re-registrations work on. -/
structure SameRereg (s t : System) : Prop where
  confirms : t.confirms = s.confirms
  hinted : t.hinted = s.hinted
  rereg : t.client.rereg = s.client.rereg
  maint : t.maint = s.maint
  listener : ∀ h, t.listener = .resubscribed h → s.listener = .resubscribed h
  connGen : t.client.connGen = s.client.connGen

theorem SameRereg.refl (s : System) : SameRereg s s := ⟨rfl, rfl, rfl, rfl, fun _ => id, rfl⟩

/-- A change of the client, and of the place of one call. -/
theorem SameRereg.of_client (s : System) {client : Client} (hrereg : client.rereg = s.client.rereg)
    (hgen : client.connGen = s.client.connGen) : SameRereg s (s.setClient client) :=
  ⟨rfl, rfl, hrereg, rfl, fun _ => id, hgen⟩

theorem SameRereg.move (hs : SameRereg s t) (c : Nat) (p : Place) : SameRereg s (t.move c p) :=
  ⟨hs.confirms, hs.hinted, hs.rereg, hs.maint, hs.listener, hs.connGen⟩

theorem Rereg.frame (hs : Rereg s h) (hsame : SameRereg s t) : Rereg t h where
  confirms_le := by rw [hsame.confirms, hsame.connGen]; exact hs.confirms_le
  hinted_le := by rw [hsame.hinted, hsame.connGen]; exact hs.hinted_le
  listener := fun hl => by
    rw [hsame.confirms, hsame.connGen]
    exact hs.listener (hsame.listener h hl)
  queued := by rw [hsame.confirms, hsame.rereg]; exact hs.queued
  taken := by rw [hsame.confirms, hsame.maint]; exact hs.taken
  done := by rw [hsame.hinted, hsame.maint]; exact hs.done

theorem rollBack_rereg (s : Client) (h r : Nat) (subscribed : Bool) :
    (s.rollBack h r subscribed).rereg = s.rereg ∧
      (s.rollBack h r subscribed).connGen = s.connGen := by
  unfold Client.rollBack
  dsimp only
  split_ifs <;> exact ⟨rfl, rfl⟩

/-- An act of a call or of the connection, a registration and a loss apart. -/
def offRereg : Act → Bool
  | .hint _ _ | .read | .look | .lost | .reconnect _ | .take | .readEntries | .reregister _
  | .mark => false
  | _ => true

theorem sameRereg_step (hints : Nat → List HintEntry) (s : System) (ha : offRereg a = true) :
    SameRereg s (step hints s a) := by
  cases a with
  | hint c ok => cases ha
  | read => cases ha
  | look => cases ha
  | lost => cases ha
  | reconnect order => cases ha
  | take => cases ha
  | readEntries => cases ha
  | reregister ok => cases ha
  | mark => cases ha
  | subscribe c x =>
    have hreg : (s.client.register x).1.rereg = s.client.rereg ∧
        (s.client.register x).1.connGen = s.client.connGen := by
      unfold Client.register
      dsimp only
      split_ifs <;> exact ⟨rfl, rfl⟩
    unfold step
    dsimp only
    split_ifs
    · split
      all_goals
        rename_i heq
        rw [heq] at hreg
        exact ⟨rfl, rfl, hreg.1, rfl, fun _ => id, hreg.2⟩
    · exact .refl s
  | check c =>
    unfold step
    dsimp only
    split
    · rename_i x r hq
      have hset : (s.client.setReady x r).rereg = s.client.rereg ∧
          (s.client.setReady x r).connGen = s.client.connGen := by
        unfold Client.setReady
        split_ifs <;> exact ⟨rfl, rfl⟩
      split_ifs
      · exact (SameRereg.of_client s hset.1 hset.2).move _ _
      · exact (SameRereg.refl s).move _ _
    · exact .refl s
  | finish c =>
    unfold step
    dsimp only
    split
    · rename_i x r hq
      have hset : (s.client.setReady x r).rereg = s.client.rereg ∧
          (s.client.setReady x r).connGen = s.client.connGen := by
        unfold Client.setReady
        split_ifs <;> exact ⟨rfl, rfl⟩
      exact (SameRereg.of_client s hset.1 hset.2).move _ _
    · exact .refl s
  | rollBack c =>
    unfold step
    dsimp only
    split
    · rename_i x r hq
      have hroll := rollBack_rereg s.client x r true
      exact (SameRereg.of_client s hroll.1 hroll.2).move _ _
    · exact .refl s
  | listFails c =>
    unfold step
    dsimp only
    split
    · rename_i x r hq
      have hroll := rollBack_rereg s.client x r false
      exact (SameRereg.of_client s hroll.1 hroll.2).move _ _
    · exact .refl s
  | release c =>
    unfold step
    dsimp only
    split
    · rename_i x r hq
      have hrel : (s.client.release x r).rereg = s.client.rereg ∧
          (s.client.release x r).connGen = s.client.connGen := by
        unfold Client.release
        dsimp only
        split_ifs <;> exact ⟨rfl, rfl⟩
      exact (SameRereg.of_client s hrel.1 hrel.2).move _ _
    · exact .refl s
  | unsubscribe c =>
    unfold step
    dsimp only
    split
    · rename_i x hq
      have hunreg : (s.client.unregister x).rereg = s.client.rereg ∧
          (s.client.unregister x).connGen = s.client.connGen := by
        unfold Client.unregister
        dsimp only
        split_ifs <;> exact ⟨rfl, rfl⟩
      exact (SameRereg.of_client s hunreg.1 hunreg.2).move _ _
    · exact .refl s
  | runCmd sent =>
    unfold step
    dsimp only
    split_ifs
    · refine .of_client s ?_ (connGen_runCmd s.client sent)
      unfold Client.runCmd
      split
      · rfl
      · split <;> rfl
      · rfl
    · exact .refl s
  | unsubscribeOrphan sent =>
    unfold step
    dsimp only
    split
    · unfold Client.unsubscribeOrphan
      split_ifs <;> exact ⟨rfl, rfl, rfl, rfl, fun _ => nofun, rfl⟩
    · exact .refl s
  | _ =>
    unfold step
    dsimp only
    repeat' split
    all_goals exact ⟨rfl, rfl, rfl, rfl, fun _ => id, rfl⟩

/-- Reading one confirmation: it is recorded, and one that nobody waits for is to be re-registered. -/
theorem rereg_read (hs : Rereg s h) (hidle : s.listener = .idle) : Rereg s.read h := by
  have hnot : ∀ x, s.listener ≠ .resubscribed x := fun x => by
    rw [hidle]
    exact nofun
  unfold System.read
  split
  · exact hs
  · refine hs.frame ⟨rfl, rfl, rfl, rfl, fun _ => id, rfl⟩
  · rename_i x rest hwire
    have hclient : ∀ client progress, Client.onSubscribed
        { s.client with pubsub := { s.client.pubsub with wire := rest } } x = (client, progress) →
        client.rereg = s.client.rereg ∧ client.connGen = s.client.connGen := by
      intro client progress heq
      unfold Client.onSubscribed at heq
      split at heq <;> obtain ⟨rfl, -⟩ := Prod.mk.inj heq <;> exact ⟨rfl, rfl⟩
    have hrecord : ∀ t : System, t.confirms = s.confirms ++ [(x, s.client.connGen)] →
        t.hinted = s.hinted → t.client.rereg = s.client.rereg → t.maint = s.maint →
        (t.listener = .resubscribed h → x = h) → t.client.connGen = s.client.connGen →
        Rereg t h := by
      intro t hconfirms hhinted hrereg hmaint hlistener hgen
      constructor
      · intro g hg
        rw [hconfirms] at hg
        rw [hgen]
        rcases List.mem_append.1 hg with hg | hg
        · exact hs.confirms_le g hg
        · exact (Prod.mk.inj (List.mem_singleton.1 hg)).2.le
      · rw [hhinted, hgen]
        exact hs.hinted_le
      · intro hl
        rw [hconfirms, hgen, hlistener hl]
        exact List.mem_append_right _ (List.mem_singleton_self _)
      · rw [hconfirms, hrereg]
        exact fun g hg => List.mem_append_left _ (hs.queued g hg)
      · rw [hconfirms, hmaint]
        exact fun g hg => List.mem_append_left _ (hs.taken g hg)
      · rw [hhinted, hmaint]
        exact hs.done
    dsimp only
    split
    all_goals
      rename_i client heq
      obtain ⟨hrereg, hgen⟩ := hclient client _ heq
      refine hrecord _ rfl rfl hrereg rfl (fun hl => ?_) hgen
      first
        | exact absurd hl (hnot h)
        | exact Listener.resubscribed.inj hl
        | cases hl

/-- A loss or a reconnect begins a generation. -/
theorem rereg_later (hs : Rereg s h) {client : Client} (hrereg : client.rereg = s.client.rereg)
    (hgen : s.client.connGen ≤ client.connGen) (hnot : s.listener ≠ .resubscribed h) :
    Rereg (s.setClient client) h where
  confirms_le := fun g hg => (hs.confirms_le g hg).trans hgen
  hinted_le := fun g hg => (hs.hinted_le g hg).trans hgen
  listener := fun hl => absurd hl hnot
  queued := fun g hg => hs.queued g (hrereg ▸ hg)
  taken := hs.taken
  done := hs.done

/-- (PROVED) Every step keeps what the re-registrations keep. -/
theorem rereg_step (hs : Rereg s h) (a : Act) : Rereg (step hints s a) h := by
  cases ha : offRereg a with
  | true => exact hs.frame (sameRereg_step hints s ha)
  | false =>
    -- hints are registered on the generation of the moment
    have hhint : ∀ t : System, ∀ x, t.hinted = s.hinted ++ [(x, s.client.connGen)] →
        t.client = s.client → ∀ g, (h, g) ∈ t.hinted → g ≤ t.client.connGen := by
      intro t x hhinted hclient g hg
      rw [hhinted] at hg
      rw [hclient]
      rcases List.mem_append.1 hg with hg | hg
      · exact hs.hinted_le g hg
      · exact (Prod.mk.inj (List.mem_singleton.1 hg)).2.le
    cases a with
    | hint c ok =>
      unfold step
      dsimp only
      split
      · rename_i x r hq
        split_ifs
        · refine ⟨hs.confirms_le, hhint _ x rfl rfl, hs.listener, hs.queued, hs.taken, ?_⟩
          exact fun g hg => (hs.done g hg).imp fun g' hg' =>
            ⟨List.mem_append_left _ hg'.1, hg'.2⟩
        · exact hs.frame ((SameRereg.refl s).move _ _)
      · exact hs
    | read =>
      unfold step
      dsimp only
      split_ifs with hidle
      · exact rereg_read hs hidle
      · exact hs
    | look =>
      unfold step
      dsimp only
      split
      · split_ifs <;> exact hs.frame ⟨rfl, rfl, rfl, rfl, fun _ => nofun, rfl⟩
      · rename_i x hl
        split_ifs
        · refine ⟨hs.confirms_le, hs.hinted_le, nofun, fun g hg => ?_, hs.taken, hs.done⟩
          rcases List.mem_append.1 hg with hg | hg
          · exact hs.queued g hg
          · obtain ⟨rfl, rfl⟩ := Prod.mk.inj (List.mem_singleton.1 hg)
            exact hs.listener hl
        · exact hs.frame ⟨rfl, rfl, rfl, rfl, fun _ => nofun, rfl⟩
      · exact hs
    | lost =>
      unfold step
      dsimp only
      split_ifs with hc
      · refine rereg_later hs rfl (Nat.le_succ _) ?_
        rw [hc.1]
        exact nofun
      · exact hs
    | reconnect order =>
      unfold step
      dsimp only
      split_ifs with hc
      · refine rereg_later hs rfl (Nat.le_succ _) fun hl => ?_
        rw [hl] at hc
        cases hc.1
      · exact hs
    | take =>
      unfold step
      dsimp only
      split
      · rename_i x g rest hm hrereg
        refine ⟨hs.confirms_le, hs.hinted_le, hs.listener, fun g' hg => ?_, fun g' hg => ?_, nofun⟩
        · exact hs.queued g' (hrereg ▸ List.mem_cons_of_mem _ hg)
        · rcases hg with hg | hg | hg
          · obtain ⟨rfl, rfl⟩ := Maint.took.inj hg
            exact hs.queued _ (hrereg ▸ List.mem_cons_self)
          · cases hg
          · cases hg
      · exact hs
    | readEntries =>
      unfold step
      dsimp only
      split
      · rename_i x g hm
        split_ifs
        · refine ⟨hs.confirms_le, hs.hinted_le, hs.listener, hs.queued, fun g' hg => ?_, nofun⟩
          rcases hg with hg | hg | hg
          · cases hg
          · obtain ⟨rfl, rfl⟩ := Maint.hinting.inj hg
            exact hs.taken _ (.inl hm)
          · cases hg
        · refine ⟨hs.confirms_le, hs.hinted_le, hs.listener, hs.queued, fun g' hg => ?_, nofun⟩
          rcases hg with hg | hg | hg <;> cases hg
      · exact hs
    | reregister ok =>
      unfold step
      dsimp only
      split
      · rename_i x g hm
        split_ifs
        · refine ⟨hs.confirms_le, hhint _ x rfl rfl, hs.listener, hs.queued, fun g' hg => ?_,
            fun g' hg => ?_⟩
          · rcases hg with hg | hg | hg
            · cases hg
            · cases hg
            · obtain ⟨rfl, rfl⟩ := Maint.hinted.inj hg
              exact hs.taken _ (.inr (.inl hm))
          · obtain ⟨rfl, rfl⟩ := Maint.hinted.inj hg
            exact ⟨_, List.mem_append_right _ (List.mem_singleton_self _),
              hs.confirms_le _ (hs.taken _ (.inr (.inl hm)))⟩
        · refine ⟨hs.confirms_le, hs.hinted_le, hs.listener, hs.queued, fun g' hg => ?_, nofun⟩
          rcases hg with hg | hg | hg
          · obtain ⟨rfl, rfl⟩ := Maint.took.inj hg
            exact hs.taken _ (.inr (.inl hm))
          · cases hg
          · cases hg
      · exact hs
    | mark =>
      unfold step
      dsimp only
      split
      · rename_i x g hm
        have hmark : (s.client.markReady x g).rereg = s.client.rereg ∧
            (s.client.markReady x g).connGen = s.client.connGen := by
          unfold Client.markReady Client.setReady
          split
          · exact ⟨rfl, rfl⟩
          · split_ifs <;> exact ⟨rfl, rfl⟩
        refine ⟨?_, ?_, ?_, ?_, fun g' hg => ?_, nofun⟩
        · simp only [setClient, hmark.2]
          exact hs.confirms_le
        · simp only [setClient, hmark.2]
          exact hs.hinted_le
        · simp only [setClient, hmark.2]
          exact hs.listener
        · simp only [setClient, hmark.1]
          exact hs.queued
        · rcases hg with hg | hg | hg <;> cases hg
      · exact hs
    | _ => cases ha

end System

end Virtuals.Observer
