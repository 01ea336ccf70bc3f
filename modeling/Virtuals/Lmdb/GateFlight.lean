/-
  The waits in flight.

  A queue and its helper have at most one request of the current generation between them, and they
  have it while `_waiting` is set. Requests of other generations are of queues that a close replaced,
  and two queues never have requests of one generation.
-/
import Virtuals.Lmdb.WriterGate

namespace Virtuals.Lmdb

namespace WriterGate

variable {s t : WriterGate} {q q' : Nat} {r r' : WaitRequest}

/-- The requests of a queue whose descriptors are open: its helper's, then the queued ones. -/
def inFlight (s : WriterGate) (q : Nat) : List WaitRequest :=
  (s.helper q).request.toList ++ (s.requests q).filterMap id

/-- What is known of the requests. -/
structure Flight (s : WriterGate) : Prop where
  fd : ∀ d, s.fd = some d → d = s.generation
  closed : s.fd = none → s.waiting = false
  current : s.inFlight s.queue =
    if s.waiting = true then [⟨s.generation, s.generation, s.waitSeq⟩] else []
  request : ∀ q, ∀ r ∈ s.inFlight q, r.description = r.generation ∧ r.generation ≤ s.generation ∧
    (r.generation = s.generation → q = s.queue)
  apart : ∀ q q' r r', r ∈ s.inFlight q → r' ∈ s.inFlight q' →
    r.generation = r'.generation → q = q'
  refs : ∀ d, s.fd = some d → s.lock.refs (.ours d) = 1 + (s.inFlight s.queue).length

/-- What is known of the queues, their helpers and the closes. -/
structure Threads (s : WriterGate) : Prop where
  thread : s.thread = none → s.helper s.queue = .unstarted
  served : ∀ q, s.thread = some q → q = s.queue
  unused : ∀ q, s.queue < q → s.helper q = .unstarted ∧ s.requests q = []
  stopping : ∀ c q fd, s.caller c = .stopping q fd → q < s.queue
  fds : ∀ c d, (s.caller c).fd = some d → d < s.generation

/-! ## Reading a state -/

theorem mem_inFlight (h : (s.helper q).request = some r) : r ∈ s.inFlight q := by
  simp [inFlight, h]

/-- A request of the queue in use is the wait in flight. -/
theorem Flight.live (h : s.Flight) (hr : r ∈ s.inFlight s.queue) :
    s.waiting = true ∧ r = ⟨s.generation, s.generation, s.waitSeq⟩ := by
  rw [h.current] at hr
  by_cases hw : s.waiting = true
  · exact ⟨hw, by simpa [hw] using hr⟩
  · simp [hw] at hr

theorem Flight.current_iff (h : s.Flight) (hr : r ∈ s.inFlight q) :
    r.generation = s.generation ↔ q = s.queue := by
  refine ⟨(h.request q r hr).2.2, ?_⟩
  rintro rfl
  rw [(h.live hr).2]

/-- A request of a replaced queue is on a description that the file in use is not on. -/
theorem Flight.stale (h : s.Flight) (hr : r ∈ s.inFlight q) (hq : q ≠ s.queue) {d : Nat}
    (hd : s.fd = some d) : Description.ours d ≠ .ours r.description := by
  rw [h.fd d hd, (h.request q r hr).1]
  intro he
  exact hq ((h.current_iff hr).1 (Description.ours.inj he).symm)

theorem Flight.nil_of_not_waiting (h : s.Flight) (hw : ¬ s.waiting = true) :
    s.inFlight s.queue = [] := by
  rw [h.current, if_neg hw]

/-! ## The start -/

theorem flight_start (peer : Option Nat) : (start peer).Flight where
  fd := fun _ h => by cases h
  closed := fun _ => rfl
  current := rfl
  request := fun _ _ h => by cases h
  apart := fun _ _ _ _ h => by cases h
  refs := fun _ h => by cases h

theorem threads_start (peer : Option Nat) : (start peer).Threads where
  thread := fun _ => rfl
  served := fun _ h => by cases h
  unused := fun _ _ => ⟨rfl, rfl⟩
  stopping := fun _ _ _ h => by cases h
  fds := fun _ _ h => by cases h

/-! ## Steps that leave the requests -/

theorem Flight.congr (h : s.Flight) (hfd : t.fd = s.fd) (hg : t.generation = s.generation)
    (hw : t.waiting = s.waiting) (hseq : s.waiting = true → t.waitSeq = s.waitSeq)
    (hq : t.queue = s.queue) (hf : t.inFlight = s.inFlight)
    (hr : ∀ d, s.fd = some d → t.lock.refs (.ours d) = s.lock.refs (.ours d)) : t.Flight where
  fd := by rw [hfd, hg]; exact h.fd
  closed := by rw [hfd, hw]; exact h.closed
  current := by
    rw [hq, hf, hg, hw, h.current]
    by_cases hws : s.waiting = true
    · rw [if_pos hws, if_pos hws, hseq hws]
    · rw [if_neg hws, if_neg hws]
  request := by rw [hq, hf, hg]; exact h.request
  apart := by rw [hf]; exact h.apart
  refs := by
    rw [hfd, hq, hf]
    exact fun d hd => (hr d hd).trans (h.refs d hd)

theorem inFlight_setHelper {helper : Helper} (h : helper.request = (s.helper q).request) :
    (s.setHelper q helper).inFlight = s.inFlight := by
  funext q'
  unfold inFlight setHelper
  by_cases hq : q' = q
  · subst hq
    simp [h]
  · simp [hq]

/-- A helper that keeps its request. -/
theorem Flight.setHelper (h : s.Flight) {helper : Helper}
    (hr : helper.request = (s.helper q).request) : (s.setHelper q helper).Flight :=
  h.congr rfl rfl rfl (fun _ => rfl) rfl (inFlight_setHelper hr) fun _ _ => rfl

theorem Threads.setHelper (h : s.Threads) {helper : Helper} (hne : s.helper q ≠ .unstarted) :
    (s.setHelper q helper).Threads where
  thread := fun ht => by
    have hu := h.thread ht
    have hq : s.queue ≠ q := fun hq => hne (hq ▸ hu)
    exact (Function.update_of_ne hq ..).trans hu
  served := h.served
  unused := fun q' hq' => by
    have hu := h.unused q' hq'
    have hq : q' ≠ q := fun hq => hne (hq ▸ hu.1)
    exact ⟨(Function.update_of_ne hq ..).trans hu.1, hu.2⟩
  stopping := h.stopping
  fds := h.fds

theorem Threads.setCaller (h : s.Threads) {c : Nat} {caller : Caller}
    (hs : ∀ q fd, caller = .stopping q fd → q < s.queue)
    (hd : ∀ d, caller.fd = some d → d < s.generation) : (s.setCaller c caller).Threads where
  thread := h.thread
  served := h.served
  unused := h.unused
  stopping := fun c' q fd hc => by
    have hc' : Function.update s.caller c caller c' = .stopping q fd := hc
    by_cases he : c' = c
    · subst he
      rw [Function.update_self] at hc'
      exact hs q fd hc'
    · rw [Function.update_of_ne he] at hc'
      exact h.stopping c' q fd hc'
  fds := fun c' d hc => by
    have hc' : (Function.update s.caller c caller c').fd = some d := hc
    by_cases he : c' = c
    · subst he
      rw [Function.update_self] at hc'
      exact hd d hc'
    · rw [Function.update_of_ne he] at hc'
      exact h.fds c' d hc'

/-! ## The thread -/

theorem startThread_cases (s : WriterGate) (h : s.Threads) : s.startThread = s ∨
    ((s.helper s.queue).request = none ∧ (s.helper s.queue).hand = none ∧
      s.startThread = { s.setHelper s.queue .idle with thread := some s.queue }) := by
  unfold WriterGate.startThread
  by_cases ha : s.threadAlive = true
  · exact .inl (if_pos ha)
  · have hnone : (s.helper s.queue).request = none ∧ (s.helper s.queue).hand = none := by
      cases ht : s.thread with
      | none =>
        rw [h.thread ht]
        exact ⟨rfl, rfl⟩
      | some q =>
        have hq := h.served q ht
        subst hq
        unfold threadAlive at ha
        rw [ht] at ha
        dsimp only at ha
        cases hh : s.helper s.queue with
        | exited => exact ⟨rfl, rfl⟩
        | _ => simp [hh] at ha
    exact .inr ⟨hnone.1, hnone.2, if_neg ha⟩

theorem Threads.startThread (h : s.Threads) : s.startThread.Threads := by
  obtain he | ⟨-, -, he⟩ := startThread_cases s h
  · rw [he]
    exact h
  · rw [he]
    exact {
      thread := fun ht => by cases ht
      served := fun q hq => (Option.some.inj hq).symm
      unused := fun q' hq' => by
        have hu := h.unused q' hq'
        exact ⟨(Function.update_of_ne (Nat.ne_of_gt hq') ..).trans hu.1, hu.2⟩
      stopping := h.stopping
      fds := h.fds }

theorem Flight.startThread (h : s.Flight) (ht : s.Threads) : s.startThread.Flight := by
  obtain he | ⟨hr, -, he⟩ := startThread_cases s ht
  · rw [he]
    exact h
  · rw [he]
    exact h.congr rfl rfl rfl (fun _ => rfl) rfl (inFlight_setHelper hr.symm) fun _ _ => rfl

theorem startThread_fields (s : WriterGate) : s.startThread.fd = s.fd ∧
    s.startThread.generation = s.generation ∧ s.startThread.waiting = s.waiting ∧
    s.startThread.consumer = s.consumer ∧ s.startThread.waitSeq = s.waitSeq ∧
    s.startThread.queue = s.queue ∧ s.startThread.lock = s.lock ∧
    s.startThread.caller = s.caller := by
  unfold WriterGate.startThread
  by_cases ha : s.threadAlive = true
  · rw [if_pos ha]
    exact ⟨rfl, rfl, rfl, rfl, rfl, rfl, rfl, rfl⟩
  · rw [if_neg ha]
    exact ⟨rfl, rfl, rfl, rfl, rfl, rfl, rfl, rfl⟩

/-- A wait is queued while none is in flight. -/
theorem Flight.queueWait (h : s.Flight) {d : Nat} (hd : s.fd = some d)
    (hw : ¬ s.waiting = true) : (s.queueWait d).Flight := by
  have hnil := h.nil_of_not_waiting hw
  have hd' := h.fd d hd
  subst hd'
  have hself : (s.queueWait s.generation).inFlight s.queue =
      [⟨s.generation, s.generation, s.waitSeq + 1⟩] := by
    simp only [inFlight, List.append_eq_nil_iff] at hnil
    simp only [inFlight, WriterGate.queueWait, Function.update_self, List.filterMap_append, hnil.1,
      hnil.2]
    rfl
  have hne : ∀ q, q ≠ s.queue → (s.queueWait s.generation).inFlight q = s.inFlight q := by
    intro q hq
    simp [inFlight, WriterGate.queueWait, Function.update_of_ne hq]
  have hreq : ∀ q, ∀ r ∈ (s.queueWait s.generation).inFlight q,
      r.description = r.generation ∧ r.generation ≤ s.generation ∧
        (r.generation = s.generation → q = s.queue) := by
    intro q r hr
    by_cases hq : q = s.queue
    · subst hq
      rw [hself, List.mem_singleton] at hr
      subst hr
      exact ⟨rfl, Nat.le_refl _, fun _ => rfl⟩
    · rw [hne q hq] at hr
      exact h.request q r hr
  have hgen : ∀ q, ∀ r ∈ (s.queueWait s.generation).inFlight q, q = s.queue →
      r.generation = s.generation := by
    rintro q r hr rfl
    rw [hself, List.mem_singleton] at hr
    rw [hr]
  exact {
    fd := h.fd
    closed := fun hn => by
      have hn' : s.fd = none := hn
      rw [hd] at hn'
      cases hn'
    current := by
      show (s.queueWait s.generation).inFlight s.queue = _
      rw [hself]
      rfl
    request := hreq
    apart := fun q q' r r' hr hr' he => by
      by_cases hq : q = s.queue
      · exact hq.trans ((hreq q' r' hr').2.2 (he.symm.trans (hgen q r hr hq))).symm
      · by_cases hq' : q' = s.queue
        · exact absurd ((hreq q r hr).2.2 (he.trans (hgen q' r' hr' hq'))) hq
        · rw [hne q hq] at hr
          rw [hne q' hq'] at hr'
          exact h.apart q q' r r' hr hr' he
    refs := fun d hd => by
      have hd' : d = s.generation := h.fd d hd
      subst hd'
      show (s.lock.dup (.ours s.generation)).refs (.ours s.generation) =
        1 + ((s.queueWait s.generation).inFlight s.queue).length
      rw [Flock.dup_refs_self, h.refs _ hd, hnil, hself]
      rfl }

/-! ## Opening and closing -/

theorem Flight.openFile (h : s.Flight) : s.openFile.Flight := by
  unfold WriterGate.openFile
  cases hfd : s.fd with
  | some d => exact h
  | none =>
    have hnil : s.inFlight s.queue = [] :=
      h.nil_of_not_waiting (by rw [h.closed hfd]; exact Bool.false_ne_true)
    exact {
      fd := fun d hd => (Option.some.inj hd).symm
      closed := fun hn => by cases hn
      current := hnil
      request := fun q r hr => by
        obtain ⟨hd, hle, -⟩ := h.request q r hr
        exact ⟨hd, Nat.le_succ_of_le hle, fun he => absurd he (by simp only; omega)⟩
      apart := h.apart
      refs := fun d hd => by
        have hd' : d = s.generation + 1 := (Option.some.inj hd).symm
        subst hd'
        show (s.lock.openFile _).refs _ = 1 + (s.inFlight s.queue).length
        rw [Flock.openFile_refs_self, hnil]
        rfl }

theorem Threads.openFile (h : s.Threads) : s.openFile.Threads := by
  unfold WriterGate.openFile
  cases s.fd with
  | some d => exact h
  | none => exact ⟨h.thread, h.served, h.unused, h.stopping,
      fun c d hd => Nat.lt_succ_of_lt (h.fds c d hd)⟩

theorem Flight.closeSection (h : s.Flight) (ht : s.Threads) (c : Nat) :
    (s.closeSection c).Flight where
  fd := fun _ hd => by cases hd
  closed := fun _ => rfl
  current := by
    obtain ⟨hh, hr⟩ := ht.unused (s.queue + 1) (Nat.lt_succ_self _)
    show (s.helper (s.queue + 1)).request.toList ++ (s.requests (s.queue + 1)).filterMap id = []
    rw [hh, hr]
    rfl
  request := fun q r hr => by
    obtain ⟨hd, hle, -⟩ := h.request q r hr
    have hlt : r.generation < s.generation + 1 := Nat.lt_succ_of_le hle
    exact ⟨hd, Nat.le_of_lt hlt, fun he => absurd he (Nat.ne_of_lt hlt)⟩
  apart := h.apart
  refs := fun _ hd => by cases hd

theorem Threads.closeSection (h : s.Threads) (hf : s.Flight) (c : Nat) :
    (s.closeSection c).Threads := by
  refine Threads.setCaller ?_ ?_ ?_
  · exact {
      thread := fun _ => (h.unused (s.queue + 1) (Nat.lt_succ_self _)).1
      served := fun _ hq => by cases hq
      unused := fun q hq => h.unused q (Nat.lt_of_succ_lt hq)
      stopping := fun c q fd hc => Nat.lt_succ_of_lt (h.stopping c q fd hc)
      fds := fun c d hc => Nat.lt_succ_of_lt (h.fds c d hc) }
  · rintro q fd hq
    cases hq
    exact Nat.lt_succ_self _
  · intro d hd
    exact (hf.fd d hd).symm ▸ Nat.lt_succ_self _

theorem inFlight_putNone (c : Nat) (fd : Option Nat) :
    (s.putNone c q fd).inFlight = s.inFlight := by
  funext q'
  by_cases hq : q' = q
  · subst hq
    simp [inFlight, putNone, setCaller]
  · simp [inFlight, putNone, setCaller, Function.update_of_ne hq]

theorem Threads.putNone (h : s.Threads) {c : Nat} {fd : Option Nat}
    (hc : s.caller c = .stopping q fd) : (s.putNone c q fd).Threads := by
  refine Threads.setCaller ?_ (fun _ _ he => by cases he) fun d hd => h.fds c d (by rw [hc]; exact hd)
  refine ⟨h.thread, h.served, fun q' hq' => ?_, h.stopping, h.fds⟩
  have hq : q' ≠ q := fun he => absurd (h.stopping c q fd hc) (by rw [← he]; exact Nat.lt_asymm hq')
  exact ⟨(h.unused q' hq').1, (Function.update_of_ne hq ..).trans (h.unused q' hq').2⟩

theorem Flight.closeFd (h : s.Flight) (ht : s.Threads) {c : Nat} {fd : Option Nat}
    (hc : s.caller c = .dropping fd) : (s.closeFd c fd).Flight := by
  refine h.congr rfl rfl rfl (fun _ => rfl) rfl rfl fun d hd => ?_
  cases fd with
  | none => rfl
  | some d' =>
    have hlt : d' < s.generation := ht.fds c d' (by rw [hc]; rfl)
    refine s.lock.close_refs_of_ne fun he => ?_
    rw [h.fd d hd] at he
    exact Nat.ne_of_gt hlt (Description.ours.inj he)

/-! ## The helper -/

theorem inFlight_get {request : Option WaitRequest} {rest : List (Option WaitRequest)}
    (hq : s.helper q = .idle) (hr : s.requests q = request :: rest) :
    (s.get q request rest).inFlight = s.inFlight := by
  funext q'
  by_cases he : q' = q
  · subst he
    cases request <;> simp [inFlight, get, setHelper, hq, hr, Helper.request]
  · simp [inFlight, get, setHelper, Function.update_of_ne he]

theorem Threads.get (h : s.Threads) {request : Option WaitRequest}
    {rest : List (Option WaitRequest)} (hq : s.helper q = .idle) :
    (s.get q request rest).Threads := by
  have hne : s.helper q ≠ .unstarted := by rw [hq]; exact Helper.noConfusion
  refine Threads.setHelper ?_ hne
  refine ⟨h.thread, h.served, fun q' hq' => ?_, h.stopping, h.fds⟩
  have hu := h.unused q' hq'
  have he : q' ≠ q := fun he => hne (he ▸ hu.1)
  exact ⟨hu.1, (Function.update_of_ne he ..).trans hu.2⟩

/-- A helper that closes its descriptor has one request less in flight. -/
theorem inFlight_drop (h : (s.helper q).request = some r) {helper : Helper}
    (hn : helper.request = none) :
    s.inFlight q = r :: (s.setHelper q helper).inFlight q ∧
    ∀ q', q' ≠ q → (s.setHelper q helper).inFlight q' = s.inFlight q' := by
  refine ⟨?_, fun q' hq' => ?_⟩
  · simp [inFlight, WriterGate.setHelper, h, hn]
  · simp [inFlight, WriterGate.setHelper, Function.update_of_ne hq']

/-- The same, of what is known of the requests. -/
theorem Flight.drop (h : s.Flight) (hr : (s.helper q).request = some r) {helper : Helper}
    (hn : helper.request = none) :
    (∀ q', ∀ r' ∈ (s.setHelper q helper).inFlight q', r' ∈ s.inFlight q') ∧
    (q = s.queue → (s.setHelper q helper).inFlight q = []) := by
  obtain ⟨hcons, hne⟩ := inFlight_drop hr hn
  refine ⟨fun q' r' hr' => ?_, ?_⟩
  · by_cases hq : q' = q
    · subst hq
      rw [hcons]
      exact List.mem_cons_of_mem _ hr'
    · rw [← hne q' hq]
      exact hr'
  · rintro rfl
    have hcur := h.current
    rw [hcons] at hcur
    by_cases hw : s.waiting = true
    · rw [if_pos hw] at hcur
      exact (List.cons.inj hcur).2
    · rw [if_neg hw] at hcur
      cases hcur

/-- A helper drops a request of a queue that a close replaced. -/
theorem Flight.dropStale (h : s.Flight) (hr : (s.helper q).request = some r)
    (hq : q ≠ s.queue) {helper : Helper} (hn : helper.request = none) :
    ({ s with lock := s.lock.close (.ours r.description) }.setHelper q helper).Flight := by
  obtain ⟨hsub, -⟩ := h.drop hr hn
  have hne := (inFlight_drop hr hn).2 s.queue fun he => hq he.symm
  exact {
    fd := h.fd
    closed := h.closed
    current := hne.trans h.current
    request := fun q' r' hr' => h.request q' r' (hsub q' r' hr')
    apart := fun q₁ q₂ r₁ r₂ h₁ h₂ => h.apart q₁ q₂ r₁ r₂ (hsub q₁ r₁ h₁) (hsub q₂ r₂ h₂)
    refs := fun d hd => by
      show (s.lock.close (.ours r.description)).refs (.ours d) =
        1 + ((s.setHelper q helper).inFlight s.queue).length
      rw [hne, s.lock.close_refs_of_ne (h.stale (mem_inFlight hr) hq hd), h.refs d hd] }

/-- The helper of the queue in use ends the wait in flight. -/
theorem Flight.dropLive (h : s.Flight) (hr : (s.helper s.queue).request = some r)
    {helper : Helper} (hn : helper.request = none) (consumer : Option Nat)
    {lock : Flock Description} (hlock : lock.refs = s.lock.refs) :
    ({ s with
        waiting := false
        consumer := consumer
        lock := lock.close (.ours r.description) }.setHelper s.queue helper).Flight := by
  obtain ⟨hsub, hnil⟩ := h.drop hr hn
  have hnil := hnil rfl
  have hcons := (inFlight_drop hr hn).1
  exact {
    fd := h.fd
    closed := fun _ => rfl
    current := hnil
    request := fun q' r' hr' => h.request q' r' (hsub q' r' hr')
    apart := fun q₁ q₂ r₁ r₂ h₁ h₂ => h.apart q₁ q₂ r₁ r₂ (hsub q₁ r₁ h₁) (hsub q₂ r₂ h₂)
    refs := fun d hd => by
      have hrd : r.description = d := by
        rw [(h.live (mem_inFlight hr)).2]
        exact (h.fd d hd).symm
      subst hrd
      show (lock.close (.ours r.description)).refs (.ours r.description) =
        1 + ((s.setHelper s.queue helper).inFlight s.queue).length
      rw [Flock.close_refs_self, hlock, h.refs _ hd, hcons, hnil]
      rfl }

/-- A helper takes up the wait in flight, and drops every other request. -/
theorem check_eq (h : s.Flight) (hr : r ∈ s.inFlight q) :
    s.check q r = if q = s.queue then s.setHelper q (.flocking r) else
      { s with lock := s.lock.close (.ours r.description) }.setHelper q .idle := by
  by_cases hq : q = s.queue
  · subst hq
    obtain ⟨hw, rfl⟩ := h.live hr
    simp [check, hw]
  · have hg : r.generation ≠ s.generation := fun he => hq ((h.current_iff hr).1 he)
    simp [check, hg, hq]

theorem Flight.check (h : s.Flight) (hq : s.helper q = .got r) : (s.check q r).Flight := by
  have hr : (s.helper q).request = some r := by rw [hq]; rfl
  rw [check_eq h (mem_inFlight hr)]
  by_cases he : q = s.queue
  · rw [if_pos he]
    exact h.setHelper hr.symm
  · rw [if_neg he]
    exact h.dropStale hr he rfl

theorem Threads.check (h : s.Threads) (hq : s.helper q = .got r) : (s.check q r).Threads := by
  have hne : s.helper q ≠ .unstarted := by rw [hq]; exact Helper.noConfusion
  unfold WriterGate.check
  split
  · exact (⟨h.thread, h.served, h.unused, h.stopping, h.fds⟩ :
      { s with lock := s.lock.close (.ours r.description) }.Threads).setHelper hne
  · exact h.setHelper hne

/-- The lock as the section after the `flock` finds it, less what nobody wants any more. -/
def endLock (s : WriterGate) (r : WaitRequest) (landing : Landing) : Flock Description :=
  match s.consumer, landing with
  | none, .ok () => s.lock.unlock (.ours r.description)
  | _, _ => s.lock

def endHelper (s : WriterGate) (landing : Landing) : Helper :=
  match s.consumer with
  | none => .idle
  | some f => .delivering f landing

/-- The section after the `flock` of the queue in use. -/
def endLive (s : WriterGate) (r : WaitRequest) (landing : Landing) : WriterGate :=
  { s with
    waiting := false
    consumer := none
    lock := (s.endLock r landing).close (.ours r.description) }.setHelper s.queue
    (s.endHelper landing)

/-- The section after the `flock`, by the queue of its helper. -/
theorem endWait_eq (h : s.Flight) (hr : r ∈ s.inFlight q) (landing : Landing) :
    s.endWait q r landing = if q = s.queue then s.endLive r landing
      else { s with lock := s.lock.close (.ours r.description) }.setHelper q .idle := by
  by_cases hq : q = s.queue
  · rw [if_pos hq]
    subst hq
    exact if_pos ((h.current_iff hr).2 rfl)
  · rw [if_neg hq]
    exact if_neg fun he => hq ((h.current_iff hr).1 he)

theorem endLock_refs (landing : Landing) : (s.endLock r landing).refs = s.lock.refs := by
  unfold endLock
  split <;> rfl

theorem endHelper_request (landing : Landing) : (s.endHelper landing).request = none := by
  unfold endHelper
  split <;> rfl

theorem Flight.endWait (h : s.Flight) {landing : Landing} (hq : s.helper q = .landed r landing) :
    (s.endWait q r landing).Flight := by
  have hr : (s.helper q).request = some r := by rw [hq]; rfl
  rw [endWait_eq h (mem_inFlight hr)]
  by_cases he : q = s.queue
  · rw [if_pos he]
    subst he
    exact h.dropLive hr (endHelper_request landing) none (endLock_refs landing)
  · rw [if_neg he]
    exact h.dropStale hr he rfl

theorem Threads.endWait (h : s.Threads) (hf : s.Flight) {landing : Landing}
    (hq : s.helper q = .landed r landing) : (s.endWait q r landing).Threads := by
  have hne : s.helper q ≠ .unstarted := by rw [hq]; exact Helper.noConfusion
  have hr : (s.helper q).request = some r := by rw [hq]; rfl
  rw [endWait_eq hf (mem_inFlight hr)]
  by_cases he : q = s.queue
  · rw [if_pos he]
    subst he
    have hset : (s.setHelper s.queue (s.endHelper landing)).Threads := h.setHelper hne
    exact ⟨hset.thread, hset.served, hset.unused, hset.stopping, hset.fds⟩
  · rw [if_neg he]
    exact (⟨h.thread, h.served, h.unused, h.stopping, h.fds⟩ :
      { s with lock := s.lock.close (.ours r.description) }.Threads).setHelper hne

/-! ## Every step -/

/-- What an attach does. -/
theorem attach_cases (s : WriterGate) (loop : Bool) (fault : Fault) :
    (s.waiting = true ∧ s.attach loop fault = s.attachConsumer loop) ∨
    (∃ error, s.attach loop fault = s.raise error) ∨
    (¬ s.waiting = true ∧ ∃ d, s.fd = some d ∧
      ((s.lock.Free (.ours d) ∧ s.attach loop fault =
        { s with lock := s.lock.take (.ours d), requester := .took s.generation }) ∨
      (¬ s.lock.Free (.ours d) ∧
        (s.attach loop fault = { s.startThread with waitSeq := s.waitSeq + 1 }.raise .OSError ∨
        s.attach loop fault = (s.startThread.queueWait d).attachConsumer loop)))) := by
  unfold attach
  by_cases hw : s.waiting = true
  · exact .inl ⟨hw, if_pos hw⟩
  rw [if_neg hw]
  cases hfd : s.fd with
  | none => exact .inr (.inl ⟨_, rfl⟩)
  | some d =>
    dsimp only
    by_cases hflock : fault = .flock
    · exact .inr (.inl ⟨_, if_pos hflock⟩)
    rw [if_neg hflock]
    refine .inr (.inr ⟨hw, d, rfl, ?_⟩)
    by_cases hfree : s.lock.Free (.ours d)
    · exact .inl ⟨hfree, if_pos hfree⟩
    rw [if_neg hfree]
    by_cases hdup : fault = .dup
    · exact .inr ⟨hfree, .inl (if_pos hdup)⟩
    · exact .inr ⟨hfree, .inr (if_neg hdup)⟩

/-- What a release does. -/
theorem release_cases (s : WriterGate) (generation : Option Nat) :
    s.release generation = s ∨ ∃ d, s.fd = some d ∧
      (¬ ∃ g, generation = some g ∧ g ≠ s.generation) ∧ s.release generation =
        { s with lock := s.lock.unlock (.ours d), log := .released s.generation :: s.log } := by
  unfold release
  cases hfd : s.fd with
  | none => exact .inl rfl
  | some d =>
    dsimp only
    by_cases hg : ∃ g, generation = some g ∧ g ≠ s.generation
    · exact .inl (if_pos hg)
    · exact .inr ⟨d, rfl, hg, if_neg hg⟩

/-- What is left of `wake_waiters` after its section does. -/
theorem woken_cases (s : WriterGate) (c : Nat) (consumer : Option Nat) (error : GateError)
    (closing : Bool) : ∃ caller, (caller = .idle ∨ (caller = .closing ∧ closing = true)) ∧
      s.woken c consumer error closing =
        (consumer.elim s fun f => s.complete f (.error error)).setCaller c caller := by
  cases consumer with
  | none =>
    by_cases hc : closing = true
    · exact ⟨.closing, .inr ⟨rfl, hc⟩, by simp [woken, hc]⟩
    · exact ⟨.idle, .inl rfl, by simp [woken, hc]⟩
  | some f =>
    by_cases hc : closing = true ∧ s.futures f = none
    · exact ⟨.closing, .inr ⟨rfl, hc.1⟩, by simp only [woken, if_pos hc, Option.elim_some]⟩
    · exact ⟨.idle, .inl rfl, by simp only [woken, if_neg hc, Option.elim_some]⟩

theorem Flight.attach (h : s.Flight) (ht : s.Threads) (loop : Bool) (fault : Fault) :
    (s.attach loop fault).Flight := by
  obtain ⟨hfd, -, hw, -, hseq, -, -, -⟩ := startThread_fields s
  obtain ⟨-, he⟩ | ⟨error, he⟩ | ⟨hnw, d, hd, ⟨-, he⟩ | ⟨-, he | he⟩⟩ := attach_cases s loop fault
  · rw [he]
    exact h.congr rfl rfl rfl (fun _ => rfl) rfl rfl fun _ _ => rfl
  · rw [he]
    exact h.congr rfl rfl rfl (fun _ => rfl) rfl rfl fun _ _ => rfl
  · rw [he]
    exact h.congr rfl rfl rfl (fun _ => rfl) rfl rfl fun _ _ => rfl
  · rw [he]
    refine (h.startThread ht).congr rfl rfl rfl (fun hw' => ?_) rfl rfl fun _ _ => rfl
    exact absurd (hw.symm.trans hw') hnw
  · rw [he]
    exact ((h.startThread ht).queueWait (hfd.trans hd) (by rw [hw]; exact hnw)).congr
      rfl rfl rfl (fun _ => rfl) rfl rfl fun _ _ => rfl

theorem Threads.attach (h : s.Threads) (loop : Bool) (fault : Fault) :
    (s.attach loop fault).Threads := by
  have ht := h.startThread
  obtain ⟨-, he⟩ | ⟨error, he⟩ | ⟨-, d, -, ⟨-, he⟩ | ⟨-, he | he⟩⟩ := attach_cases s loop fault
  · rw [he]
    exact ⟨h.thread, h.served, h.unused, h.stopping, h.fds⟩
  · rw [he]
    exact ⟨h.thread, h.served, h.unused, h.stopping, h.fds⟩
  · rw [he]
    exact ⟨h.thread, h.served, h.unused, h.stopping, h.fds⟩
  · rw [he]
    exact ⟨ht.thread, ht.served, ht.unused, ht.stopping, ht.fds⟩
  · rw [he]
    refine ⟨ht.thread, ht.served, fun q hq => ⟨(ht.unused q hq).1, ?_⟩, ht.stopping, ht.fds⟩
    exact (Function.update_of_ne (Nat.ne_of_gt hq) ..).trans (ht.unused q hq).2

theorem Flight.release (h : s.Flight) (generation : Option Nat) : (s.release generation).Flight := by
  obtain he | ⟨d, -, -, he⟩ := release_cases s generation
  · rw [he]
    exact h
  · rw [he]
    exact h.congr rfl rfl rfl (fun _ => rfl) rfl rfl fun _ _ => rfl

theorem Threads.release (h : s.Threads) (generation : Option Nat) :
    (s.release generation).Threads := by
  obtain he | ⟨d, -, -, he⟩ := release_cases s generation
  · rw [he]
    exact h
  · rw [he]
    exact ⟨h.thread, h.served, h.unused, h.stopping, h.fds⟩

/-- Every step keeps what is known of the requests. -/
theorem Flight.step (h : s.Flight) (ht : s.Threads) (hs : s.Step t) : t.Flight := by
  have hsame : ∀ u : WriterGate, u.fd = s.fd → u.generation = s.generation →
      u.waiting = s.waiting → u.waitSeq = s.waitSeq → u.queue = s.queue →
      u.inFlight = s.inFlight → u.lock.refs = s.lock.refs → u.Flight :=
    fun u h₁ h₂ h₃ h₄ h₅ h₆ h₇ => h.congr h₁ h₂ h₃ (fun _ => h₄) h₅ h₆ fun _ _ => by rw [h₇]
  cases hs with
  | openFile => exact h.openFile
  | attach loop fault hr hc => exact h.attach ht loop fault
  | returns generation hr => exact hsame _ rfl rfl rfl rfl rfl rfl rfl
  | read loop f generation landing hr hf =>
    cases landing with
    | ok => exact hsame _ rfl rfl rfl rfl rfl rfl rfl
    | error e =>
      unfold read
      dsimp only
      split <;> exact hsame _ rfl rfl rfl rfl rfl rfl rfl
  | timeOut loop f generation hr =>
    unfold WriterGate.timeOut
    split <;> exact hsame _ rfl rfl rfl rfl rfl rfl rfl
  | cancel f generation hr => exact hsame _ rfl rfl rfl rfl rfl rfl rfl
  | leave f generation error hr =>
    unfold WriterGate.leave
    split <;> exact hsame _ rfl rfl rfl rfl rfl rfl rfl
  | reread f generation error landing hr hf =>
    cases landing <;> exact hsame _ rfl rfl rfl rfl rfl rfl rfl
  | giveBack generation error hr =>
    exact (h.release _).congr rfl rfl rfl (fun _ => rfl) rfl rfl fun _ _ => rfl
  | release generation hr => exact h.release generation
  | wakeWaiters c error closing hc he => exact hsame _ rfl rfl rfl rfl rfl rfl rfl
  | woken c consumer error closing hc =>
    cases consumer <;> exact hsame _ rfl rfl rfl rfl rfl rfl rfl
  | closeSection c hc => exact h.closeSection ht c
  | putNone c q fd hc => exact hsame _ rfl rfl rfl rfl rfl (inFlight_putNone c fd) rfl
  | closeFd c fd hc => exact h.closeFd ht hc
  | get q request rest hq hr => exact hsame _ rfl rfl rfl rfl rfl (inFlight_get hq hr) rfl
  | check q r hq => exact h.check hq
  | lands q r hq hf =>
    exact hsame _ rfl rfl rfl rfl rfl (inFlight_setHelper (by rw [hq]; rfl)) rfl
  | fails q r hq => exact h.setHelper (by rw [hq]; rfl)
  | endWait q r landing hq => exact h.endWait hq
  | deliver q f landing hq =>
    refine hsame _ rfl rfl rfl rfl rfl (inFlight_setHelper ?_) rfl
    show _ = (s.helper q).request
    rw [hq]
    split <;> rfl
  | peerTakes p hl => exact hsame _ rfl rfl rfl rfl rfl rfl rfl
  | peerGives p hl => exact hsame _ rfl rfl rfl rfl rfl rfl rfl

theorem Threads.step (h : s.Threads) (hf : s.Flight) (hs : s.Step t) : t.Threads := by
  have hsame : ∀ u : WriterGate, u.generation = s.generation → u.queue = s.queue →
      u.thread = s.thread → u.helper = s.helper → u.requests = s.requests →
      u.caller = s.caller → u.Threads := by
    rintro u h₁ h₂ h₃ h₄ h₅ h₆
    refine ⟨?_, ?_, ?_, ?_, ?_⟩
    · rw [h₂, h₃, h₄]; exact h.thread
    · rw [h₂, h₃]; exact h.served
    · rw [h₂, h₄, h₅]; exact h.unused
    · rw [h₂, h₆]; exact h.stopping
    · rw [h₁, h₆]; exact h.fds
  have hbusy : ∀ q helper, s.helper q = helper → helper ≠ .unstarted →
      ∀ helper', (s.setHelper q helper').Threads :=
    fun q helper hq hne helper' => h.setHelper (hq ▸ hne)
  cases hs with
  | openFile => exact h.openFile
  | attach loop fault hr hc => exact h.attach loop fault
  | returns generation hr => exact hsame _ rfl rfl rfl rfl rfl rfl
  | read loop f generation landing hr hf =>
    cases landing with
    | ok => exact hsame _ rfl rfl rfl rfl rfl rfl
    | error e =>
      unfold read
      dsimp only
      split <;> exact hsame _ rfl rfl rfl rfl rfl rfl
  | timeOut loop f generation hr =>
    unfold WriterGate.timeOut
    split <;> exact hsame _ rfl rfl rfl rfl rfl rfl
  | cancel f generation hr => exact hsame _ rfl rfl rfl rfl rfl rfl
  | leave f generation error hr =>
    unfold WriterGate.leave
    split <;> exact hsame _ rfl rfl rfl rfl rfl rfl
  | reread f generation error landing hr hf =>
    cases landing <;> exact hsame _ rfl rfl rfl rfl rfl rfl
  | giveBack generation error hr =>
    have hrel := h.release (some generation)
    exact ⟨hrel.thread, hrel.served, hrel.unused, hrel.stopping, hrel.fds⟩
  | release generation hr => exact h.release generation
  | wakeWaiters c error closing hc he =>
    exact (hsame { s with consumer := none } rfl rfl rfl rfl rfl rfl).setCaller
      (fun _ _ hq => by cases hq) fun _ hd => by cases hd
  | woken c consumer error closing hc =>
    obtain ⟨caller, hcaller, hw⟩ := woken_cases s c consumer error closing
    rw [hw]
    have hs : (consumer.elim s fun f => s.complete f (.error error)).Threads := by
      cases consumer with
      | none => exact h
      | some f => exact hsame (s.complete f _) rfl rfl rfl rfl rfl rfl
    obtain rfl | ⟨rfl, -⟩ := hcaller
    · exact hs.setCaller (fun _ _ hq => by cases hq) fun _ hd => by cases hd
    · exact hs.setCaller (fun _ _ hq => by cases hq) fun _ hd => by cases hd
  | closeSection c hc => exact h.closeSection hf c
  | putNone c q fd hc => exact h.putNone hc
  | closeFd c fd hc =>
    have hset : (s.setCaller c .idle).Threads :=
      h.setCaller (fun _ _ hq => by cases hq) fun _ hd => by cases hd
    exact ⟨hset.thread, hset.served, hset.unused, hset.stopping, hset.fds⟩
  | get q request rest hq hr => exact h.get hq
  | check q r hq => exact h.check hq
  | lands q r hq hf =>
    have hset := hbusy q _ hq Helper.noConfusion (.landed r (.ok ()))
    exact ⟨hset.thread, hset.served, hset.unused, hset.stopping, hset.fds⟩
  | fails q r hq => exact hbusy q _ hq Helper.noConfusion _
  | endWait q r landing hq => exact h.endWait hf hq
  | deliver q f landing hq =>
    have hset := hbusy q _ hq Helper.noConfusion (if s.futures f = none then .idle else .exited)
    exact ⟨hset.thread, hset.served, hset.unused, hset.stopping, hset.fds⟩
  | peerTakes p hl => exact hsame _ rfl rfl rfl rfl rfl rfl
  | peerGives p hl => exact hsame _ rfl rfl rfl rfl rfl rfl

/-- Two blocking `flock` calls are never in flight on one description, nor a non-blocking one
    beside one. -/
theorem Flight.one_flock (h : s.Flight) (hq : s.helper q = .flocking r)
    (hq' : s.helper q' = .flocking r') (he : r.description = r'.description) : q = q' := by
  have hr : r ∈ s.inFlight q := mem_inFlight (by rw [hq]; rfl)
  have hr' : r' ∈ s.inFlight q' := mem_inFlight (by rw [hq']; rfl)
  refine h.apart q q' r r' hr hr' ?_
  rw [← (h.request q r hr).1, he, (h.request q' r' hr').1]

theorem Flight.no_flock_beside (h : s.Flight) (hw : ¬ s.waiting = true) {d : Nat}
    (hd : s.fd = some d) (hq : s.helper q = .flocking r) : r.description ≠ d := by
  have hr : r ∈ s.inFlight q := mem_inFlight (by rw [hq]; rfl)
  intro he
  rw [(h.request q r hr).1, h.fd d hd] at he
  have hqueue := (h.current_iff hr).1 he
  subst hqueue
  exact hw (h.live hr).1

end WriterGate

end Virtuals.Lmdb
