/-
  Where the keys are.

  Every key that was passed to notify is at one place: sent, counted, in the hand of a call or of a
  worker, or in a queue. Each step of a worker and each step of a call but one moves keys from one
  place to another or leaves them (`work_account`, `go_account`). The exception is notify's second
  look at `_connected`: when it finds it true, keys that were counted are queued (`Recount`).
-/
import Virtuals.Lib.Ledger
import Virtuals.Publisher.System

namespace Virtuals.Publisher

open Lib

/-- The places of a key. -/
inductive Place (T : Type) where
  | sent
  | counted
  | calling (c : T)
  | draining (c : T)
  | queued (q : Nat)
  | working (w : Nat)
  deriving DecidableEq

/-- The keys in the hand of a notify call. -/
def Call.calling : Call → List Nat
  | .notify batch => batch
  | .readQueue batch => batch
  | .put _ rest => rest
  | .full _ rest => rest
  | .wait _ rest => rest
  | .stall rest => rest
  | .drop rest => rest
  | _ => []

/-- The keys that a disconnect has taken out of the queue and not yet counted. -/
def Call.draining : Call → List Nat
  | .leftovers n => n
  | .getLeftover _ n => n
  | .recordLeftovers n => n
  | _ => []

/-- The number of the attempt that a connect has made and not yet started a worker for. -/
def Call.attempt : Call → Option Nat
  | .freshQueue n => some n
  | .clearDrainFailed n => some n
  | .clearStalled n => some n
  | .onConnect n => some n
  | .makeThread n => some n
  | .start n => some n
  | _ => none

/-- The keys in the hand of a worker. -/
def Worker.working : Worker → List Nat
  | .more batch => batch
  | .chunks rest _ => rest
  | .prepare chunk rest _ => chunk ++ rest
  | .encode todo kept rest _ => kept ++ todo ++ rest
  | .drainFailed kept rest _ => kept ++ rest
  | .stopped kept rest _ => kept ++ rest
  | .send kept rest _ => kept ++ rest
  | .sent rest _ => rest
  | .failed rest _ => rest
  | _ => []

/-- The keys of a queue. -/
def keysOf (items : List Item) : List Nat :=
  items.filterMap fun i => match i with
    | .key t => some t
    | _ => none

namespace PublisherBase

variable {T : Type} {cfg : Config} {s s' : PublisherBase T} {c : T} {w : Nat} {choice : Choice}

/-- The keys at a place. -/
def held (s : PublisherBase T) : Place T → List Nat
  | .sent => s.sent
  | .counted => s.counted
  | .calling c => (s.call c).calling
  | .draining c => (s.call c).draining
  | .queued q => keysOf (s.items q)
  | .working w => (s.worker w).working

/-- The account: each key passed to notify is at one place, once, and the counter is right. -/
structure Account (s : PublisherBase T) : Prop where
  balanced : Lib.Balanced s.held fun t => t < s.issued
  droppedKeys : s.droppedKeys = s.counted.length

theorem keysOf_cons (i : Item) (items : List Item) :
    keysOf (i :: items) = keysOf [i] ++ keysOf items := by
  cases i <;> rfl

theorem keysOf_append (l m : List Item) : keysOf (l ++ m) = keysOf l ++ keysOf m :=
  List.filterMap_append

/-! ## What a step changes -/

/-- `ts` go from `p` to `q`, as far as the keys are concerned. -/
structure Moves (s s' : PublisherBase T) (p q : Place T) (ts : List Nat) : Prop where
  left : (s.held p).Perm (ts ++ s'.held p)
  came : s'.held q = s.held q ++ ts
  rest : ∀ r, r ≠ p → r ≠ q → s'.held r = s.held r
  issued : s'.issued = s.issued
  counted : s'.droppedKeys + s.counted.length = s.droppedKeys + s'.counted.length

theorem Account.move (hs : s.Account) (p q : Place T) (ts : List Nat) (hpq : p ≠ q)
    (h : Moves s s' p q ts) : s'.Account where
  balanced := by
    rw [h.issued]
    exact hs.balanced.move hpq h.left (h.came ▸ .refl _) h.rest
  droppedKeys := by
    have := hs.droppedKeys
    have := h.counted
    omega

/-- No key goes anywhere. -/
theorem Account.stay (hs : s.Account) (hheld : ∀ r, (s'.held r).Perm (s.held r))
    (hissued : s'.issued = s.issued) (hdropped : s'.droppedKeys = s.droppedKeys) : s'.Account where
  balanced := by
    rw [hissued]
    exact hs.balanced.arrange hheld
  droppedKeys := by
    rw [hdropped, hs.droppedKeys]
    exact (hheld .counted).length_eq.symm

/-- `s'` is `s` but for the thread, the stop events and the flags of the drain. -/
structure Quiet (s s' : PublisherBase T) : Prop where
  items : s'.items = s.items
  worker : s'.worker = s.worker
  call : s'.call = s.call
  connected : s'.connected = s.connected
  queue : s'.queue = s.queue
  attempts : s'.attempts = s.attempts
  issued : s'.issued = s.issued
  droppedKeys : s'.droppedKeys = s.droppedKeys
  sent : s'.sent = s.sent
  counted : s'.counted = s.counted

theorem Quiet.refl (s : PublisherBase T) : Quiet s s := ⟨rfl, rfl, rfl, rfl, rfl, rfl, rfl, rfl, rfl, rfl⟩

theorem Quiet.held (hq : Quiet s s') : s'.held = s.held := by
  funext r
  cases r with
  | sent => exact hq.sent
  | counted => exact hq.counted
  | calling c => exact congrArg Call.calling (congrFun hq.call c)
  | draining c => exact congrArg Call.draining (congrFun hq.call c)
  | queued q => exact congrArg keysOf (congrFun hq.items q)
  | working w => exact congrArg Worker.working (congrFun hq.worker w)

variable [DecidableEq T]

theorem held_setWorker (pc : Worker) (r : Place T) :
    (s.setWorker w pc).held r = if r = .working w then pc.working else s.held r := by
  cases r with
  | working v =>
    by_cases hv : v = w
    · subst hv
      simp [held, setWorker]
    · simp [held, setWorker, hv]
  | _ => simp [held, setWorker]

theorem held_setItems (q : Nat) (l : List Item) (r : Place T) :
    (s.setItems q l).held r = if r = .queued q then keysOf l else s.held r := by
  cases r with
  | queued p =>
    by_cases hp : p = q
    · subst hp
      simp [held, setItems]
    · simp [held, setItems, hp]
  | _ => simp [held, setItems]

theorem held_recordDrop (ts : List Nat) (r : Place T) :
    (s.recordDrop ts).held r = if r = .counted then s.counted ++ ts else s.held r := by
  cases r <;> simp [held, recordDrop]

theorem held_sent (ts : List Nat) (r : Place T) :
    held { s with sent := s.sent ++ ts } r = if r = .sent then s.sent ++ ts else s.held r := by
  cases r <;> simp [held]

/-! ## Steps of a worker -/

/-- A worker goes on with the keys it has. -/
theorem Account.goOn (hs : s.Account) (hq : Quiet s s') {pc : Worker}
    (hpc : pc.working.Perm (s.worker w).working) : (s'.setWorker w pc).Account := by
  refine hs.stay (fun r => ?_) hq.issued hq.droppedKeys
  rw [held_setWorker, hq.held]
  split_ifs with hr
  · subst hr
    exact hpc
  · exact .refl _

/-- A worker takes an item. -/
theorem Account.take (hs : s.Account) {batch : List Nat} {item : Item} {items : List Item}
    (hbatch : (s.worker w).working = batch) (hitems : s.items w = item :: items) :
    ((s.setItems w items).setWorker w (taken batch item)).Account := by
  have hq : s.held (.queued w) = keysOf [item] ++ keysOf items := by
    simp only [held]
    rw [hitems, keysOf_cons]
  have htaken : (taken batch item).working = batch ++ keysOf [item] := by
    cases item <;> simp [taken, Worker.working, keysOf]
  refine hs.move (.queued w) (.working w) (keysOf [item]) (by simp)
    ⟨?_, ?_, fun r hp hq => ?_, rfl, rfl⟩
  · rw [hq, held_setWorker, held_setItems]
    simp
  · rw [held_setWorker, if_pos rfl, htaken]
    simp only [held]
    rw [hbatch]
  · rw [held_setWorker, if_neg hq, held_setItems, if_neg hp]

/-- A worker drops some of its keys. -/
theorem Account.recordDrop (hs : s.Account) {pc : Worker} {ts : List Nat}
    (hpc : (s.worker w).working.Perm (ts ++ pc.working)) :
    ((s.recordDrop ts).setWorker w pc).Account := by
  refine hs.move (.working w) .counted ts (by simp)
    ⟨?_, ?_, fun r hp hq => ?_, rfl, ?_⟩
  · rw [held_setWorker, if_pos rfl]
    exact hpc
  · rw [held_setWorker, if_neg (by simp), held_recordDrop, if_pos rfl]
    rfl
  · rw [held_setWorker, if_neg hp, held_recordDrop, if_neg hq]
  · simp only [PublisherBase.recordDrop, setWorker, List.length_append]
    omega

/-- A send returned. -/
theorem Account.send (hs : s.Account) {pc : Worker} {ts : List Nat}
    (hpc : (s.worker w).working.Perm (ts ++ pc.working)) :
    ({ s with sent := s.sent ++ ts }.setWorker w pc).Account := by
  refine hs.move (.working w) .sent ts (by simp)
    ⟨?_, ?_, fun r hp hq => ?_, rfl, rfl⟩
  · rw [held_setWorker, if_pos rfl]
    exact hpc
  · rw [held_setWorker, if_neg (by simp), held_sent, if_pos rfl]
    rfl
  · rw [held_setWorker, if_neg hp, held_sent, if_neg hq]

/-! ## Steps of a call -/

theorem held_setCall (pc : Call) (r : Place T) : (s.setCall c pc).held r =
    if r = .calling c then pc.calling else if r = .draining c then pc.draining else s.held r := by
  cases r with
  | calling a =>
    by_cases ha : a = c
    · subst ha
      simp [held, setCall]
    · simp [held, setCall, ha]
  | draining a =>
    by_cases ha : a = c
    · subst ha
      simp [held, setCall]
    · simp [held, setCall, ha]
  | _ => simp [held, setCall]

/-- A call goes on with the keys it has, in a state that holds the same keys. -/
theorem Account.callOn (hs : s.Account) (hsame : s'.held = s.held) (hissued : s'.issued = s.issued)
    (hdropped : s'.droppedKeys = s.droppedKeys) {pc : Call}
    (hcalling : pc.calling = (s.call c).calling) (hdraining : pc.draining = (s.call c).draining) :
    (s'.setCall c pc).Account := by
  refine hs.stay (fun r => ?_) hissued hdropped
  rw [held_setCall]
  split_ifs with hr hr'
  · subst hr
    exact .of_eq hcalling
  · subst hr'
    exact .of_eq hdraining
  · rw [hsame]

/-- A call queues an item: a key of its hand, or none. -/
theorem Account.append (hs : s.Account) {q : Nat} {i : Item} {pc : Call}
    (hcalling : (s.call c).calling = keysOf [i] ++ pc.calling)
    (hdraining : pc.draining = (s.call c).draining) :
    ((s.append q i).setCall c pc).Account := by
  refine hs.move (.calling c) (.queued q) (keysOf [i]) (by simp)
    ⟨?_, ?_, fun r hp hq => ?_, rfl, rfl⟩
  · rw [held_setCall, if_pos rfl]
    exact .of_eq hcalling
  · rw [held_setCall, if_neg (by simp), if_neg (by simp), PublisherBase.append, held_setItems,
      if_pos rfl, keysOf_append]
    rfl
  · rw [held_setCall, if_neg hp, PublisherBase.append, held_setItems, if_neg hq]
    split_ifs with hr
    · subst hr
      exact hdraining
    · rfl

/-- A call counts the keys of its hand. -/
theorem Account.countCalling (hs : s.Account) {pc : Call} (hcalling : pc.calling = [])
    (hdraining : pc.draining = (s.call c).draining) :
    ((s.recordDrop (s.call c).calling).setCall c pc).Account := by
  refine hs.move (.calling c) .counted ((s.call c).calling) (by simp)
    ⟨?_, ?_, fun r hp hq => ?_, rfl, ?_⟩
  · rw [held_setCall, if_pos rfl, hcalling, List.append_nil]
    exact .refl _
  · rw [held_setCall, if_neg (by simp), if_neg (by simp), held_recordDrop, if_pos rfl]
    rfl
  · rw [held_setCall, if_neg hp, held_recordDrop, if_neg hq]
    split_ifs with hr
    · subst hr
      exact hdraining
    · rfl
  · simp only [PublisherBase.recordDrop, setCall, List.length_append]
    omega

/-- A disconnect counts the keys it took out. -/
theorem Account.countDraining (hs : s.Account) {pc : Call} (hdraining : pc.draining = [])
    (hcalling : pc.calling = (s.call c).calling) :
    ((s.recordDrop (s.call c).draining).setCall c pc).Account := by
  refine hs.move (.draining c) .counted ((s.call c).draining) (by simp)
    ⟨?_, ?_, fun r hp hq => ?_, rfl, ?_⟩
  · rw [held_setCall, if_neg (by simp), if_pos rfl, hdraining, List.append_nil]
    exact .refl _
  · rw [held_setCall, if_neg (by simp), if_neg (by simp), held_recordDrop, if_pos rfl]
    rfl
  · rw [held_setCall, if_neg hp, held_recordDrop, if_neg hq]
    split_ifs with hr
    · subst hr
      exact hcalling
    · rfl
  · simp only [PublisherBase.recordDrop, setCall, List.length_append]
    omega

/-- A disconnect takes an item out of a queue. -/
theorem Account.getLeftover (hs : s.Account) {q : Nat} {i : Item} {items : List Item} {pc : Call}
    (hitems : s.items q = i :: items) (hdraining : pc.draining = (s.call c).draining ++ keysOf [i])
    (hcalling : pc.calling = (s.call c).calling) :
    ((s.setItems q items).setCall c pc).Account := by
  refine hs.move (.queued q) (.draining c) (keysOf [i]) (by simp)
    ⟨?_, ?_, fun r hp hq => ?_, rfl, rfl⟩
  · rw [held_setCall, if_neg (by simp), if_neg (by simp), held_setItems, if_pos rfl, ← keysOf_cons,
      ← hitems]
    exact .refl _
  · rw [held_setCall, if_neg (by simp), if_pos rfl]
    exact hdraining
  · rw [held_setCall, if_neg hq, held_setItems, if_neg hp]
    split_ifs with hr
    · subst hr
      exact hcalling
    · rfl

end PublisherBase

end Virtuals.Publisher
