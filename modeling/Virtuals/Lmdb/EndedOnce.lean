/-
  Every write transaction of LMDB is ended once, whoever asks for it.

  A transaction that was begun is in one place: carried by a call on the thread, live, or ended; the
  sections of `_begin_lmdb_write` and `_end_live` move it on (`Txns`). Once `close` has marked the
  storage nothing becomes live, and what is live was listed or its abort is asked for (`Closing`).
-/
import Virtuals.Lmdb.Delivered

namespace Virtuals.Lmdb.WriterThread

/-! ## Where a transaction is -/

/-- The transaction that a call has begun, or taken off the live set. -/
def Frame.carries : Frame → List Nat
  | .registering x _ | .refusing x _ | .native x _ => [x]
  | _ => []

def Event.begins : Event → List Nat
  | .began x => [x]
  | _ => []

def Event.ends : Event → List Nat
  | .ended x _ => [x]
  | _ => []

namespace State

variable {s s' : State} {f : Frame} {rest : List Frame}

/-- The transactions that calls on the thread carry. -/
def carried (s : State) : List Nat := s.thread.flatMap Frame.carries

def began (s : State) : List Nat := s.log.flatMap Event.begins

/-- The transactions that were ended, as often as they were. -/
def ended (s : State) : List Nat := s.log.flatMap Event.ends

/-- Each transaction was begun once, and is in one place. -/
structure Txns (s : State) : Prop where
  begun : ∀ x, s.began.count x = if x < s.next then 1 else 0
  placed : ∀ x, s.carried.count x + s.live.count x + s.ended.count x = s.began.count x

/-- A transaction goes from one place to another. -/
theorem Txns.moved (h : s.Txns) (hnext : s'.next = s.next) (hbegan : s'.began = s.began)
    (hplaced : ∀ x, s'.carried.count x + s'.live.count x + s'.ended.count x =
      s.carried.count x + s.live.count x + s.ended.count x) : s'.Txns := by
  constructor
  · intro x
    rw [hbegan, hnext]
    exact h.begun x
  · intro x
    rw [hplaced, hbegan]
    exact h.placed x

/-- Nothing happens to transactions. -/
theorem Txns.kept (h : s.Txns) (hcarried : s'.carried = s.carried) (hlive : s'.live = s.live)
    (hlog : s'.log = s.log) (hnext : s'.next = s.next) : s'.Txns :=
  h.moved hnext (congrArg (List.flatMap Event.begins) hlog) fun x => by
    rw [hcarried, hlive, ended, ended, hlog]

theorem carried_cons (hthread : s.thread = f :: rest) :
    s.carried = f.carries ++ rest.flatMap Frame.carries := by
  rw [carried, hthread, List.flatMap_cons]

theorem txns_returns (h : s.Txns) {x : Nat} {c : Caller}
    (hthread : s.thread = .registering x c :: rest) :
    ({ s with live := x :: s.live }.returns x rest c).Txns := by
  refine h.moved ?_ ?_ fun y => ?_
  · cases c <;> rfl
  · cases c <;> rfl
  · rw [carried_cons hthread]
    cases c with
    | request r =>
      simp [returns, carried, ended, Frame.carries, List.count_cons]
      omega
    | retry =>
      simp [returns, carried, ended, Frame.carries, List.count_cons]
      omega

theorem txns_setResult (h : s.Txns) {x r : Nat} (hthread : s.thread = .handing x r :: rest) :
    (s.setResult x r rest).Txns := by
  have hcarried := carried_cons hthread
  unfold setResult
  dsimp only
  split_ifs <;> exact h.kept hcarried.symm rfl rfl rfl

theorem txns_abandon (h : s.Txns) {x r : Nat} (hthread : s.thread = .abandoned x r :: rest) :
    (s.abandon x r rest).Txns := by
  have hcarried := carried_cons hthread
  unfold abandon
  dsimp only
  split_ifs <;> exact h.kept hcarried.symm rfl rfl rfl

theorem txns_frameStep (h : s.Txns) (hthread : s.thread = f :: rest)
    (e : Native) : (s.frameStep rest e f).Txns := by
  have hcarried := carried_cons hthread
  cases f with
  | checking r =>
    rw [frameStep]
    split_ifs <;> exact h.kept hcarried.symm rfl rfl rfl
  | entering c =>
    rw [frameStep]
    split_ifs <;> exact h.kept hcarried.symm rfl rfl rfl
  | beginning c =>
    rw [frameStep]
    split_ifs
    · obtain ⟨hbegun, hplaced⟩ := h
      constructor
      · intro x
        have hx := hbegun x
        simp only [began, Event.begins, List.flatMap_cons, List.count_append, List.count_singleton,
          beq_iff_eq] at hx ⊢
        split_ifs at hx ⊢ <;> omega
      · intro x
        have hx := hplaced x
        rw [hcarried] at hx
        simp [carried, ended, began, Frame.carries, Event.ends, Event.begins,
          List.count_cons] at hx ⊢
        omega
    · exact h.kept hcarried.symm rfl rfl rfl
  | registering x c =>
    rw [frameStep]
    split_ifs
    · exact txns_returns h hthread
    · exact h.kept hcarried.symm rfl rfl rfl
  | refusing x c =>
    refine h.moved rfl rfl fun y => ?_
    rw [hcarried]
    simp [frameStep, carried, ended, raises, Frame.carries, Event.ends, List.count_cons]
    omega
  | landed x r =>
    rw [frameStep]
    split_ifs <;> exact h.kept hcarried.symm rfl rfl rfl
  | handing x r => exact txns_setResult h hthread
  | applying x swept =>
    rw [frameStep]
    split_ifs <;> exact h.kept hcarried.symm rfl rfl rfl
  | ending x commit =>
    rw [frameStep]
    split_ifs with hlive
    · refine h.moved rfl rfl fun y => ?_
      have hpos := List.count_pos_iff.2 hlive
      rw [hcarried]
      simp [carried, ended, Frame.carries, List.count_erase, List.count_cons]
      split_ifs with hy
      · subst hy
        omega
      · omega
    · exact h.kept hcarried.symm rfl rfl rfl
    · exact h.kept hcarried.symm rfl rfl rfl
  | native x commit =>
    refine h.moved rfl rfl fun y => ?_
    rw [hcarried]
    simp [frameStep, carried, ended, Frame.carries, Event.ends, List.count_cons]
    omega
  | abandoned x r => exact txns_abandon h hthread

theorem firstFrame_carries (job : Job) : (s.firstFrame job).carries = [] := by
  cases job with
  | begin r =>
    rw [firstFrame]
    split_ifs <;> rfl
  | «end» x commit => rfl
  | abandoned x r => rfl

theorem txns_threadStep (h : s.Txns) (e : Native) : (s.threadStep e).Txns := by
  unfold threadStep
  cases hthread : s.thread with
  | cons f rest => exact txns_frameStep h hthread e
  | nil =>
    cases s.queue with
    | nil => exact h
    | cons job queue =>
      refine h.kept ?_ rfl rfl rfl
      rw [carried, carried, hthread, List.flatMap_singleton, firstFrame_carries]
      rfl

/-- No party but the thread touches a transaction. -/
theorem txns_step (h : s.Txns) (a : Act) : (s.step a).Txns := by
  have hmoves := s.step_moves a
  generalize s.step a = s' at hmoves
  cases hmoves with
  | thread e => exact txns_threadStep h e
  | nothing => exact h
  | joined hcloser hthread hqueue => exact h.moved rfl rfl fun _ => rfl
  | _ => exact h.kept rfl rfl rfl rfl

end State

/-! ## What `close` has still to end -/

/-- Whether the storage is open at a place of `close`. -/
def Closer.opened : Closer → Bool
  | .idle => true
  | _ => false

def Closer.stopped : Closer → Bool
  | .joining | .closed | .left => true
  | _ => false

/-- The transactions that `close` will ask to end, once it has listed them. -/
def Closer.due : Closer → Option (List Nat)
  | .idle | .marked => none
  | .ending due => some due
  | .joining | .closed | .left => some []

namespace State

variable {s s' : State} {f : Frame} {rest : List Frame}

/-- The abort of a transaction is queued, or about to run. -/
def Asked (s : State) (x : Nat) : Prop :=
  Job.end x false ∈ s.queue ∨ Frame.ending x false ∈ s.thread

/-- What is live was listed by `close`, or its abort is asked for; the environment is closed last. -/
structure Closing (s : State) : Prop where
  opened : s.opened = s.closer.opened
  stopped : s.stopped = s.closer.stopped
  due : ∀ due, s.closer.due = some due → ∀ x ∈ s.live, x ∈ due ∨ s.Asked x
  dropped : s.dropped ≠ [] → s.stopped = true
  before : s.closer ≠ .closed → Event.envClosed ∉ s.log
  after : s.closer = .closed → s.thread = [] ∧ s.queue = [] ∧
    ∃ earlier, s.log = .envClosed :: earlier ∧ Event.envClosed ∉ earlier

/-- What a step of the thread leaves of the rest. -/
structure Apart (s s' : State) (rest : List Frame) : Prop where
  opened : s'.opened = s.opened
  stopped : s'.stopped = s.stopped
  closer : s'.closer = s.closer
  queue : s.queue <+: s'.queue
  thread : rest <:+ s'.thread
  dropped : s'.dropped ≠ [] → s.dropped ≠ [] ∨ s.stopped = true
  log : Event.envClosed ∈ s'.log → Event.envClosed ∈ s.log

/-- Jobs are only added, at the end. -/
theorem prefix_submit (s : State) (job : Job) : s.queue <+: (s.submit job).queue := by
  cases hstopped : s.stopped with
  | false => simp [submit, hstopped]
  | true => simp [submit, hstopped]

theorem dropped_abandonLater (s : State) (x r : Nat) (h : (s.abandonLater x r).dropped ≠ []) :
    s.dropped ≠ [] ∨ s.stopped = true := by
  cases hstopped : s.stopped with
  | false =>
    simp only [abandonLater, hstopped] at h
    exact .inl h
  | true => exact .inr rfl

theorem apart_frameStep (f : Frame) (rest : List Frame) (e : Native) :
    Apart s (s.frameStep rest e f) rest := by
  have hsame : ∀ {thread : List Frame}, rest <:+ thread → Apart s { s with thread := thread } rest :=
    fun h => ⟨rfl, rfl, rfl, List.prefix_rfl, h, Or.inl, fun h => h⟩
  cases f with
  | checking r =>
    rw [frameStep]
    split_ifs
    · exact hsame (List.suffix_cons _ _)
    · exact ⟨rfl, rfl, rfl, List.prefix_rfl, List.suffix_rfl, Or.inl, fun h => h⟩
  | entering c =>
    rw [frameStep]
    split_ifs
    · exact hsame (List.suffix_cons _ _)
    · exact ⟨rfl, rfl, rfl, List.prefix_rfl, List.suffix_rfl, Or.inl, fun h => h⟩
  | beginning c =>
    rw [frameStep]
    split_ifs
    · exact ⟨rfl, rfl, rfl, List.prefix_rfl, List.suffix_cons _ _, Or.inl,
        fun h => (List.mem_cons.1 h).resolve_left (fun h => by cases h)⟩
    · exact ⟨rfl, rfl, rfl, List.prefix_rfl, List.suffix_rfl, Or.inl, fun h => h⟩
  | registering x c =>
    rw [frameStep]
    split_ifs
    · cases c <;>
        exact ⟨rfl, rfl, rfl, List.prefix_rfl, List.suffix_cons _ _, Or.inl, fun h => h⟩
    · exact hsame (List.suffix_cons _ _)
  | refusing x c =>
    exact ⟨rfl, rfl, rfl, List.prefix_rfl, List.suffix_rfl, Or.inl,
      fun h => (List.mem_cons.1 h).resolve_left (fun h => by cases h)⟩
  | landed x r =>
    rw [frameStep]
    split_ifs
    · exact hsame (List.suffix_cons _ _)
    · exact ⟨rfl, rfl, rfl, List.prefix_rfl, List.suffix_cons _ _, Or.inl, fun h => h⟩
  | handing x r =>
    rw [frameStep, setResult]
    split_ifs
    · refine ⟨rfl, rfl, rfl, ?_, List.suffix_rfl, ?_, fun h => h⟩
      · exact prefix_submit _ _
      · exact dropped_abandonLater { s.setFuture r .finished with thread := rest } x r
    · exact ⟨rfl, rfl, rfl, List.prefix_rfl, List.suffix_cons _ _, Or.inl, fun h => h⟩
    · exact ⟨rfl, rfl, rfl, List.prefix_rfl, List.suffix_rfl, Or.inl, fun h => h⟩
  | applying x swept =>
    rw [frameStep]
    split_ifs
    · exact hsame (List.suffix_cons _ _)
    · exact hsame ((List.suffix_cons _ _).trans (List.suffix_cons _ _))
    · exact hsame (List.suffix_cons _ _)
  | ending x commit =>
    rw [frameStep]
    split_ifs
    · exact ⟨rfl, rfl, rfl, List.prefix_rfl, List.suffix_cons _ _, Or.inl, fun h => h⟩
    · exact ⟨rfl, rfl, rfl, List.prefix_rfl, List.suffix_rfl, Or.inl, fun h => h⟩
    · exact hsame List.suffix_rfl
  | native x commit =>
    exact ⟨rfl, rfl, rfl, List.prefix_rfl, List.suffix_rfl, Or.inl,
      fun h => (List.mem_cons.1 h).resolve_left (fun h => by cases h)⟩
  | abandoned x r =>
    rw [frameStep, abandon]
    dsimp only
    split_ifs
    · exact ⟨rfl, rfl, rfl, List.prefix_rfl, List.suffix_cons _ _, Or.inl, fun h => h⟩
    · exact ⟨rfl, rfl, rfl, List.prefix_rfl, List.suffix_rfl, Or.inl, fun h => h⟩
    · exact ⟨rfl, rfl, rfl, List.prefix_rfl, List.suffix_cons _ _, Or.inl, fun h => h⟩

/-- On a storage that is closed nothing becomes live, and an end takes its transaction off. -/
theorem live_frameStep (hclosed : s.opened = false) (hcount : ∀ x, s.live.count x ≤ 1) (e : Native)
    {x : Nat} (hx : x ∈ (s.frameStep rest e f).live) :
    x ∈ s.live ∧ f ≠ .ending x false := by
  cases f with
  | registering y c =>
    rw [frameStep, hclosed] at hx
    exact ⟨hx, fun h => by cases h⟩
  | ending y commit =>
    rw [frameStep] at hx
    split_ifs at hx with hlive
    · refine ⟨List.mem_of_mem_erase hx, ?_⟩
      intro heq
      cases heq
      have hpos := List.count_pos_iff.2 hx
      have hone := hcount x
      rw [List.count_erase_self] at hpos
      omega
    · refine ⟨hx, ?_⟩
      intro heq
      cases heq
      exact hlive hx
    · refine ⟨hx, ?_⟩
      intro heq
      cases heq
      exact hlive hx
  | checking r =>
    rw [frameStep] at hx
    split_ifs at hx <;> exact ⟨hx, fun h => by cases h⟩
  | entering c =>
    rw [frameStep] at hx
    split_ifs at hx <;> exact ⟨hx, fun h => by cases h⟩
  | beginning c =>
    rw [frameStep] at hx
    split_ifs at hx <;> exact ⟨hx, fun h => by cases h⟩
  | refusing y c => exact ⟨hx, fun h => by cases h⟩
  | landed y r =>
    rw [frameStep] at hx
    split_ifs at hx <;> exact ⟨hx, fun h => by cases h⟩
  | handing y r =>
    rw [frameStep, setResult] at hx
    split_ifs at hx <;> exact ⟨hx, fun h => by cases h⟩
  | applying y swept =>
    rw [frameStep] at hx
    split_ifs at hx <;> exact ⟨hx, fun h => by cases h⟩
  | native y commit => exact ⟨hx, fun h => by cases h⟩
  | abandoned y r =>
    rw [frameStep, abandon] at hx
    split_ifs at hx <;> exact ⟨hx, fun h => by cases h⟩

/-- The abort of what stays live stays asked for. -/
theorem asked_frameStep (hthread : s.thread = f :: rest) {e : Native} {x : Nat}
    (hf : f ≠ .ending x false) (h : s.Asked x) : (s.frameStep rest e f).Asked x := by
  have hapart : Apart s (s.frameStep rest e f) rest := apart_frameStep f rest e
  refine h.imp (fun hq => hapart.queue.subset hq) fun ht => ?_
  rw [hthread] at ht
  exact hapart.thread.subset ((List.mem_cons.1 ht).resolve_left fun heq => hf heq.symm)

theorem closing_threadStep (h : s.Closing) (htxns : s.Txns) (e : Native) :
    (s.threadStep e).Closing := by
  have hcount : ∀ x, s.live.count x ≤ 1 := by
    intro x
    have hplaced := htxns.placed x
    have hbegun := htxns.begun x
    split_ifs at hbegun <;> omega
  unfold threadStep
  cases hthread : s.thread with
  | cons f rest =>
    have hapart : Apart s (s.frameStep rest e f) rest := apart_frameStep f rest e
    dsimp only
    refine ⟨?_, ?_, fun due hdue x hx => ?_, fun hd => ?_, fun hc => ?_, fun hc => ?_⟩
    · rw [hapart.opened, hapart.closer, h.opened]
    · rw [hapart.stopped, hapart.closer, h.stopped]
    · rw [hapart.closer] at hdue
      have hclosed : s.opened = false := by
        rw [h.opened]
        cases hcloser : s.closer with
        | idle =>
          rw [hcloser] at hdue
          cases hdue
        | _ => rfl
      obtain ⟨hlive, hf⟩ := live_frameStep hclosed hcount e hx
      exact (h.due due hdue x hlive).imp_right (asked_frameStep hthread hf)
    · rw [hapart.stopped]
      exact (hapart.dropped hd).elim h.dropped fun h => h
    · rw [hapart.closer] at hc
      exact fun hlog => h.before hc (hapart.log hlog)
    · rw [hapart.closer] at hc
      have hnil := (h.after hc).1
      rw [hthread] at hnil
      cases hnil
  | nil =>
    cases hqueue : s.queue with
    | nil => exact h
    | cons job queue =>
      refine ⟨h.opened, h.stopped, fun due hdue x hx => ?_, h.dropped, h.before, fun hc => ?_⟩
      · refine (h.due due hdue x hx).imp_right fun hasked => ?_
        obtain hq | ht := hasked
        · rw [hqueue] at hq
          obtain rfl | hq := List.mem_cons.1 hq
          · exact .inr (List.mem_singleton.2 rfl)
          · exact .inl hq
        · rw [hthread] at ht
          cases ht
      · have hnil := (h.after hc).2.1
        rw [hqueue] at hnil
        cases hnil

/-- A step of another party that only adds jobs. -/
theorem Closing.queued (h : s.Closing) (hopened : s'.opened = s.opened)
    (hstopped : s'.stopped = s.stopped) (hcloser : s'.closer = s.closer) (hlive : s'.live = s.live)
    (hlog : s'.log = s.log) (hqueue : s.queue <+: s'.queue) (hthread : s.thread <:+ s'.thread)
    (hdropped : s'.dropped ≠ [] → s.dropped ≠ [] ∨ s.stopped = true)
    (hafter : s.stopped = true → s'.queue = s.queue ∧ (s.thread = [] → s'.thread = [])) :
    s'.Closing := by
  refine ⟨?_, ?_, fun due hdue x hx => ?_, fun hd => ?_, fun hc => ?_, fun hc => ?_⟩
  · rw [hopened, hcloser, h.opened]
  · rw [hstopped, hcloser, h.stopped]
  · rw [hcloser] at hdue
    rw [hlive] at hx
    exact (h.due due hdue x hx).imp_right fun hasked =>
      hasked.imp (fun hq => hqueue.subset hq) fun ht => hthread.subset ht
  · rw [hstopped]
    exact (hdropped hd).elim h.dropped fun h => h
  · rw [hcloser] at hc
    rw [hlog]
    exact h.before hc
  · rw [hcloser] at hc
    obtain ⟨hnil, hempty, hlast⟩ := h.after hc
    have hdone : s.stopped = true := by rw [h.stopped, hc]; rfl
    obtain ⟨hq, ht⟩ := hafter hdone
    rw [hq, hlog]
    exact ⟨ht hnil, hempty, hlast⟩

theorem queue_submit_of_stopped {job : Job} (hstopped : s.stopped = true) :
    (s.submit job).queue = s.queue := by
  simp [submit, hstopped]

theorem Closing.at (h : s.Closing) {p : Closer} (hp : s.closer = p) :
    s.opened = p.opened ∧ s.stopped = p.stopped ∧ (p ≠ .closed → Event.envClosed ∉ s.log) := by
  rw [← hp]
  exact ⟨h.opened, h.stopped, h.before⟩

/-- Every step keeps it. -/
theorem closing_step (h : s.Closing) (htxns : s.Txns) (a : Act) : (s.step a).Closing := by
  have hmoves := s.step_moves a
  generalize s.step a = s' at hmoves
  cases hmoves with
  | nothing => exact h
  | thread e => exact closing_threadStep h htxns e
  | asked r w hnew hopen =>
    exact h.queued rfl rfl rfl rfl rfl (List.prefix_append _ _) List.suffix_rfl Or.inl fun hstopped =>
      absurd (hopen.symm.trans hstopped) Bool.false_ne_true
  | told r t hold ht => exact ⟨h.opened, h.stopped, h.due, h.dropped, h.before, h.after⟩
  | abandoned x r hin =>
    exact h.queued rfl rfl rfl rfl rfl (prefix_submit _ _) List.suffix_rfl
      (dropped_abandonLater { s with results := s.results.erase (x, r) } x r) fun hstopped =>
      ⟨queue_submit_of_stopped hstopped, fun h => h⟩
  | received x r hin => exact ⟨h.opened, h.stopped, h.due, h.dropped, h.before, h.after⟩
  | begun b => exact ⟨h.opened, h.stopped, h.due, h.dropped, h.before, h.after⟩
  | submitted b refused x commit =>
    exact h.queued rfl rfl rfl rfl rfl (prefix_submit _ _) List.suffix_rfl Or.inl fun hstopped =>
      ⟨queue_submit_of_stopped hstopped, fun h => h⟩
  | finalized x hthread =>
    exact h.queued rfl rfl rfl rfl rfl List.prefix_rfl (List.suffix_cons _ _) Or.inl fun _ =>
      ⟨rfl, fun hnil => absurd hnil hthread⟩
  | marked hopen =>
    have hidle : s.closer = .idle := by
      have hopened := h.opened
      cases hcloser : s.closer with
      | idle => rfl
      | _ =>
        rw [hopen, hcloser] at hopened
        cases hopened
    obtain ⟨-, hstopped, hlog⟩ := h.at hidle
    exact ⟨rfl, hstopped, fun _ hdue => (by cases hdue), h.dropped,
      fun _ => hlog fun hc => (by cases hc), fun hc => (by cases hc)⟩
  | listed hcloser =>
    obtain ⟨hopened, hstopped, hlog⟩ := h.at hcloser
    refine ⟨hopened, hstopped, fun due hdue x hx => ?_, h.dropped,
      fun _ => hlog fun hc => (by cases hc), fun hc => (by cases hc)⟩
    cases hdue
    exact .inl hx
  | endNext x left hcloser =>
    obtain ⟨hopened, hstopped, hlog⟩ := h.at hcloser
    refine ⟨hopened, hstopped, fun due hdue y hy => ?_, h.dropped,
      fun _ => hlog fun hc => (by cases hc), fun hc => (by cases hc)⟩
    cases hdue
    have hqueue : (({ s with closer := .ending left } : State).submit (.end x false)).queue =
        s.queue ++ [.end x false] := if_neg (by rw [hstopped]; exact Bool.false_ne_true)
    have hasked : s.Asked y →
        (({ s with closer := .ending left } : State).submit (.end x false)).Asked y := by
      refine fun h => h.imp_left fun hin => ?_
      rw [hqueue]
      exact List.mem_append_left _ hin
    obtain hlisted | hy := h.due (x :: left) (by rw [hcloser]; rfl) y hy
    · obtain rfl | hleft := List.mem_cons.1 hlisted
      · refine .inr (.inl ?_)
        rw [hqueue]
        exact List.mem_append_right _ (List.mem_singleton.2 rfl)
      · exact .inl hleft
    · exact .inr (hasked hy)
  | stopped hcloser =>
    obtain ⟨hopened, -, hlog⟩ := h.at hcloser
    exact ⟨hopened, rfl, fun due hdue => (by cases hdue; exact h.due [] (by rw [hcloser]; rfl)),
      fun _ => rfl, fun _ => hlog fun hc => (by cases hc), fun hc => (by cases hc)⟩
  | joined hcloser hthread hqueue =>
    obtain ⟨hopened, hstopped, hlog⟩ := h.at hcloser
    exact ⟨hopened, hstopped, fun due hdue => (by cases hdue; exact h.due [] (by rw [hcloser]; rfl)),
      h.dropped, fun hc => absurd rfl hc,
      fun _ => ⟨hthread, hqueue, s.log, rfl, hlog fun hc => (by cases hc)⟩⟩
  | left hcloser =>
    obtain ⟨hopened, hstopped, hlog⟩ := h.at hcloser
    exact ⟨hopened, hstopped, fun due hdue => (by cases hdue; exact h.due [] (by rw [hcloser]; rfl)),
      h.dropped, fun _ => hlog fun hc => (by cases hc), fun hc => (by cases hc)⟩

/-! ## Runs -/

/-- What holds in every state of a run. -/
structure Inv (s : State) : Prop where
  txns : s.Txns
  requests : s.Requests
  closing : s.Closing

theorem inv_step (h : s.Inv) (a : Act) : (s.step a).Inv :=
  ⟨txns_step h.txns a, requests_step h.requests a, closing_step h.closing h.txns a⟩

theorem inv_run (h : s.Inv) (acts : List Act) : (s.run acts).Inv := by
  induction acts generalizing s with
  | nil => exact h
  | cons a acts ih => exact ih (inv_step h a)

end State

namespace State

/-! ## Ends and answers -/

variable {s : State}

/-- Steps of the thread whose native calls succeed. -/
def turns (n : Nat) : List Act := List.replicate n (.thread ⟨true, true⟩)

/-- A commit whose replay fails once, swept and done again; a reservation whose transaction a finalizer
ends before a commit of it; a begin that times out as it lands; and `close`. -/
def busy : List Act :=
  .ask 0 .staged :: turns 6 ++ [.thread ⟨false, true⟩] ++ turns 8 ++
    .ask 1 .arun :: turns 7 ++ [.take 1, .keep 1, .tryFire 2, .endWrite 2 true] ++ turns 5 ++
    .ask 2 .run :: turns 4 ++ [.timeOut 2, .close, .list] ++ turns 2 ++ [.endNext] ++ turns 4 ++
    [.stop, .endWrite 2 true, .join]

end State

end Virtuals.Lmdb.WriterThread
