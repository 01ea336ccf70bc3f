/-
  The begins of the writer thread, and who is handed their results.

  A request is made once, and a begin that succeeded has its result in one place: on the thread, in a
  job, in its future, or where it came to its end (`Requests`).
-/
import Virtuals.Lmdb.WriterThread

namespace Virtuals.Lmdb.WriterThread

/-! ## Where the result of a begin is -/

/-- The request whose begin a job or a call is to make. -/
def Job.asks : Job → List Nat
  | .begin r => [r]
  | _ => []

def Caller.asks : Caller → List Nat
  | .request r => [r]
  | .retry => []

def Frame.asks : Frame → List Nat
  | .checking r => [r]
  | .entering c | .beginning c | .registering _ c | .refusing _ c => c.asks
  | _ => []

/-- The request whose result a job or a call is to hand over. -/
def Job.hands : Job → List Nat
  | .abandoned _ r => [r]
  | _ => []

def Frame.hands : Frame → List Nat
  | .landed _ r | .handing _ r | .abandoned _ r => [r]
  | _ => []

namespace State

variable {s s' : State} {f : Frame} {rest : List Frame}

/-- The requests whose begin is still to be made. -/
def asked (s : State) : List Nat := s.queue.flatMap Job.asks ++ s.thread.flatMap Frame.asks

/-- The requests whose result is on its way. -/
def inTransit (s : State) : List Nat :=
  s.queue.flatMap Job.hands ++ s.thread.flatMap Frame.hands ++ s.results.map Prod.snd

/-- The requests whose result has come to its end. -/
def settled (s : State) : List Nat := s.received ++ s.handled ++ s.dropped

/-- Each request is made once, and the result of its begin is in one place. -/
structure Requests (s : State) : Prop where
  once : ∀ r, s.asked.count r + s.granted.count r ≤ 1
  new : ∀ r, s.future r = .absent → s.asked.count r + s.granted.count r = 0
  placed : ∀ r, s.inTransit.count r + s.settled.count r = s.granted.count r

/-- A request or its result goes from one place to another. -/
theorem Requests.moved (h : s.Requests) (hfuture : ∀ r, s'.future r = .absent → s.future r = .absent)
    (hasked : ∀ r, s'.asked.count r + s'.granted.count r ≤ s.asked.count r + s.granted.count r)
    (hplaced : ∀ r, s.granted.count r + s'.inTransit.count r + s'.settled.count r =
      s'.granted.count r + s.inTransit.count r + s.settled.count r) : s'.Requests := by
  constructor
  · intro r
    exact Nat.le_trans (hasked r) (h.once r)
  · intro r hr
    have hnew := h.new r (hfuture r hr)
    have hle := hasked r
    omega
  · intro r
    have hr := h.placed r
    have hmoved := hplaced r
    omega

/-- Nothing happens to requests. -/
theorem Requests.kept (h : s.Requests) (hfuture : ∀ r, s'.future r = .absent → s.future r = .absent)
    (hasked : s'.asked = s.asked) (htransit : s'.inTransit = s.inTransit)
    (hsettled : s'.settled = s.settled) (hgranted : s'.granted = s.granted) : s'.Requests :=
  h.moved hfuture (fun r => Nat.le_of_eq (by rw [hasked, hgranted]))
    fun r => by rw [htransit, hsettled, hgranted]

theorem update_absent {g : Nat → Future} {q r : Nat} {t : Future} (ht : t ≠ .absent)
    (h : Function.update g q t r = .absent) : g r = .absent := by
  rw [Function.update_apply] at h
  split_ifs at h
  · exact absurd h ht
  · exact h

theorem raises_absent {c : Caller} {r : Nat} (h : (s.raises c).future r = .absent) :
    s.future r = .absent := by
  cases c with
  | retry => exact h
  | request q =>
    rw [raises] at h
    dsimp only at h
    split_ifs at h
    · exact h
    · exact update_absent (by decide) h

theorem asked_cons (hthread : s.thread = f :: rest) :
    s.asked = s.queue.flatMap Job.asks ++ (f.asks ++ rest.flatMap Frame.asks) := by
  rw [asked, hthread, List.flatMap_cons]

theorem inTransit_cons (hthread : s.thread = f :: rest) :
    s.inTransit = s.queue.flatMap Job.hands ++ (f.hands ++ rest.flatMap Frame.hands) ++
      s.results.map Prod.snd := by
  rw [inTransit, hthread, List.flatMap_cons]

/-- A begin that fails is made, and has no result. -/
theorem requests_raises (h : s.Requests) (hthread : s.thread = f :: rest) (hhands : f.hands = [])
    (c : Caller) (log : List Event) :
    ({ s.raises c with log := log, thread := rest } : State).Requests := by
  refine h.moved (fun _ => raises_absent) (fun r => ?_) fun r => ?_
  · rw [asked_cons hthread]
    simp [asked, raises]
  · rw [inTransit_cons hthread, hhands]
    simp [inTransit, settled, raises]

theorem requests_returns (h : s.Requests) {x : Nat} {c : Caller}
    (hthread : s.thread = .registering x c :: rest) :
    ({ s with live := x :: s.live }.returns x rest c).Requests := by
  cases c with
  | request r =>
    refine h.moved (fun _ h => h) (fun q => ?_) fun q => ?_
    · rw [asked_cons hthread]
      simp [asked, returns, Frame.asks, Caller.asks, List.count_cons]
      omega
    · rw [inTransit_cons hthread]
      simp [inTransit, settled, returns, Frame.hands, List.count_cons]
      omega
  | retry =>
    refine h.kept (fun _ h => h) ?_ ?_ rfl rfl
    · rw [asked_cons hthread]
      rfl
    · rw [inTransit_cons hthread]
      rfl

/-- The handler's job is queued, or dropped: the result is in one place more. -/
theorem abandonLater_counts (s : State) (x r q : Nat) :
    (s.abandonLater x r).asked = s.asked ∧
      (s.abandonLater x r).inTransit.count q + (s.abandonLater x r).settled.count q =
        s.inTransit.count q + s.settled.count q + if r = q then 1 else 0 := by
  cases hstopped : s.stopped with
  | false =>
    constructor
    · simp [asked, abandonLater, submit, hstopped, Job.asks]
    · simp [inTransit, settled, abandonLater, submit, hstopped, Job.hands, List.count_cons]
      omega
  | true =>
    constructor
    · simp [asked, abandonLater, submit, hstopped]
    · simp [inTransit, settled, abandonLater, submit, hstopped, List.count_cons]
      omega

theorem requests_setResult (h : s.Requests) {x r : Nat} (hthread : s.thread = .handing x r :: rest) :
    (s.setResult x r rest).Requests := by
  have hasked := asked_cons hthread
  have htransit := inTransit_cons hthread
  unfold setResult
  dsimp only
  split_ifs
  · have hcounts := abandonLater_counts { s.setFuture r .finished with thread := rest } x r
    refine h.moved (fun _ => update_absent (by decide)) (fun q => ?_) fun q => ?_
    · rw [(hcounts q).1, hasked]
      simp [abandonLater, submit, asked, setFuture, Frame.asks]
    · have hq := (hcounts q).2
      rw [htransit]
      simp [inTransit, settled, abandonLater, submit, setFuture, Frame.hands, List.count_cons] at hq ⊢
      omega
  · refine h.moved (fun _ => update_absent (by decide)) (fun q => ?_) fun q => ?_
    · rw [hasked]
      simp [asked, setFuture, Frame.asks]
    · rw [htransit]
      simp [inTransit, settled, setFuture, Frame.hands, List.count_cons]
      omega
  · refine h.moved (fun _ => update_absent (by decide)) (fun q => ?_) fun q => ?_
    · rw [hasked]
      simp [asked, setFuture, Frame.asks]
    · rw [htransit]
      simp [inTransit, settled, setFuture, Frame.hands, List.count_cons]
      omega

theorem requests_abandon (h : s.Requests) {x r : Nat} (hthread : s.thread = .abandoned x r :: rest) :
    (s.abandon x r rest).Requests := by
  have hasked := asked_cons hthread
  have htransit := inTransit_cons hthread
  unfold abandon
  dsimp only
  split_ifs
  all_goals
    refine h.moved (fun _ h => h) (fun q => ?_) fun q => ?_
    · rw [hasked]
      simp [asked, Frame.asks]
    · rw [htransit]
      simp [inTransit, settled, Frame.hands, List.count_cons]
      omega

theorem requests_frameStep (h : s.Requests) (hthread : s.thread = f :: rest)
    (e : Native) : (s.frameStep rest e f).Requests := by
  have hasked := asked_cons hthread
  have htransit := inTransit_cons hthread
  cases f with
  | checking r =>
    rw [frameStep]
    split_ifs
    · exact h.kept (fun _ hr => hr) hasked.symm htransit.symm rfl rfl
    · exact requests_raises h hthread rfl _ s.log
  | entering c =>
    rw [frameStep]
    split_ifs
    · exact h.kept (fun _ hr => hr) hasked.symm htransit.symm rfl rfl
    · exact requests_raises h hthread rfl c s.log
  | beginning c =>
    rw [frameStep]
    split_ifs
    · exact h.kept (fun _ hr => hr) hasked.symm htransit.symm rfl rfl
    · exact requests_raises h hthread rfl c s.log
  | registering x c =>
    rw [frameStep]
    split_ifs
    · exact requests_returns h hthread
    · exact h.kept (fun _ hr => hr) hasked.symm htransit.symm rfl rfl
  | refusing x c => exact requests_raises h hthread rfl c _
  | landed x r =>
    rw [frameStep]
    split_ifs
    · exact h.kept (fun _ hr => hr) hasked.symm htransit.symm rfl rfl
    · exact h.kept (fun _ => update_absent (by decide)) hasked.symm htransit.symm rfl rfl
  | handing x r => exact requests_setResult h hthread
  | applying x swept =>
    rw [frameStep]
    split_ifs <;> exact h.kept (fun _ hr => hr) hasked.symm htransit.symm rfl rfl
  | ending x commit =>
    rw [frameStep]
    split_ifs <;> exact h.kept (fun _ hr => hr) hasked.symm htransit.symm rfl rfl
  | native x commit => exact h.kept (fun _ hr => hr) hasked.symm htransit.symm rfl rfl
  | abandoned x r => exact requests_abandon h hthread

theorem requests_threadStep (h : s.Requests) (e : Native) : (s.threadStep e).Requests := by
  unfold threadStep
  cases hthread : s.thread with
  | cons f rest => exact requests_frameStep h hthread e
  | nil =>
    cases hqueue : s.queue with
    | nil => exact h
    | cons job queue =>
      have hfirst : (s.firstFrame job).asks = job.asks ∧ (s.firstFrame job).hands = job.hands := by
        cases job with
        | begin r =>
          rw [firstFrame]
          split_ifs <;> exact ⟨rfl, rfl⟩
        | «end» x commit => exact ⟨rfl, rfl⟩
        | abandoned x r => exact ⟨rfl, rfl⟩
      refine h.moved (fun _ h => h) (fun r => ?_) fun r => ?_
      · simp [asked, hthread, hqueue, hfirst.1]
        omega
      · simp [inTransit, settled, hthread, hqueue, hfirst.2]
        omega

/-- A result that is taken out of its future. -/
theorem count_results {x r : Nat} (hin : (x, r) ∈ s.results) (q : Nat) :
    (s.results.map Prod.snd).count q =
      ((s.results.erase (x, r)).map Prod.snd).count q + if r = q then 1 else 0 := by
  rw [((List.perm_cons_erase hin).map Prod.snd).count_eq q, List.map_cons, List.count_cons]
  simp

/-- To ask for an end answers no begin. -/
theorem submit_end (s : State) (x : Nat) (commit : Bool) :
    (s.submit (.end x commit)).asked = s.asked ∧
      (s.submit (.end x commit)).inTransit = s.inTransit := by
  cases hstopped : s.stopped with
  | false => exact ⟨by simp [asked, submit, hstopped, Job.asks],
      by simp [inTransit, submit, hstopped, Job.hands]⟩
  | true => exact ⟨by simp [asked, submit, hstopped], by simp [inTransit, submit, hstopped]⟩

theorem requests_step (h : s.Requests) (a : Act) : (s.step a).Requests := by
  have hmoves := s.step_moves a
  generalize s.step a = s' at hmoves
  cases hmoves with
  | thread e => exact requests_threadStep h e
  | asked r w hnew hopen =>
    have hr := h.new r hnew
    obtain ⟨honce, hnew, hplaced⟩ := h
    refine ⟨fun q => ?_, fun q hq => ?_, fun q => ?_⟩
    · have hq := honce q
      simp [asked, setFuture, Job.asks, List.count_cons] at hq hr ⊢
      split_ifs with heq
      · subst heq
        omega
      · omega
    · simp only [setFuture, Function.update_apply] at hq
      split_ifs at hq with heq
      have hq := hnew q hq
      simp [asked, setFuture, Job.asks, Ne.symm heq] at hq ⊢
      exact hq
    · have hq := hplaced q
      simp [inTransit, settled, setFuture, Job.hands] at hq ⊢
      omega
  | told r t hold ht => exact h.kept (fun _ => update_absent ht) rfl rfl rfl rfl
  | abandoned x r hin =>
    have hcounts := abandonLater_counts { s with results := s.results.erase (x, r) } x r
    refine h.moved (fun _ h => h) (fun q => ?_) fun q => ?_
    · rw [(hcounts q).1]
      exact Nat.le_refl _
    · have hq := (hcounts q).2
      have herase := count_results hin q
      simp [inTransit, settled, abandonLater, submit] at hq herase ⊢
      omega
  | received x r hin =>
    refine h.moved (fun _ h => h) (fun q => Nat.le_refl _) fun q => ?_
    have herase := count_results hin q
    simp [inTransit, settled, List.count_cons] at herase ⊢
    omega
  | submitted b refused x commit =>
    obtain ⟨hasked, htransit⟩ := submit_end { s with begun := b, refused := refused } x commit
    exact h.kept (fun _ h => h) hasked htransit rfl rfl
  | endNext x left hcloser =>
    obtain ⟨hasked, htransit⟩ := submit_end { s with closer := .ending left } x false
    exact h.kept (fun _ h => h) hasked htransit rfl rfl
  | nothing => exact h
  | _ => exact h.kept (fun _ h => h) rfl rfl rfl rfl

end State

end Virtuals.Lmdb.WriterThread
