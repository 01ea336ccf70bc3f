/-
  What a commit of the in-memory storage hands over covers what it changed.

  A write set names each pending write's key, and the keys of its puts are collected (`Collects`);
  the deletes that remove a row add theirs while the store applies them (`covers_apply`). In any run
  of any parties' steps, only a commit that does not raise changes a value or hands keys over, and
  the keys cover the change (`step_handed`).
-/
import Virtuals.Lib.Touched
import Virtuals.Mem.Serial

namespace Virtuals.Mem

open Lib VersionedStore

variable {Enc Key Val Value : Type} [LinearOrder Enc] [DecidableEq Key]
  {codec : Codec Enc Key Val Value}

/-! ## The store -/

omit [DecidableEq Key] in
theorem recordVersion_keeps (faults : FaultPoint → Enc → Bool) (seq : Nat) (newestPin : Option Nat)
    (p : Progress Enc Key Val) (enc : Enc) (old : Option (Key × Val)) :
    let r := (recordVersion faults seq newestPin p enc old).1
    r.store.live = p.store.live ∧ r.modified = p.modified := by
  unfold recordVersion
  rcases newestPin with _ | newest
  · exact ⟨rfl, rfl⟩
  · dsimp only
    rcases p.store.history.get? enc with _ | entries
    · dsimp only
      split_ifs
      · exact ⟨rfl, rfl⟩
      · exact ⟨rfl, rfl⟩
    · dsimp only
      rcases entries.getLast? with _ | last
      · exact ⟨rfl, rfl⟩
      · dsimp only
        split_ifs
        · exact ⟨rfl, rfl⟩
        · exact ⟨rfl, rfl⟩

/-- From `p` to `r` keys are only added, and what changed is told of: a put's key is with the write
    set's, a delete's is added. -/
def Touches (p r : Progress Enc Key Val) (enc : Enc) (key : Key) (value : Staged Val) : Prop :=
  p.modified ⊆ r.modified ∧ ∀ k, r.store.live.get? k ≠ p.store.live.get? k →
    k = enc ∧ ((∃ v, value = .value v) ∨ key ∈ r.modified)

omit [DecidableEq Key] in
/-- Recording the version before it leaves the live state and the keys. -/
theorem touches_record (faults : FaultPoint → Enc → Bool) (seq : Nat) (newestPin : Option Nat)
    {p q : Progress Enc Key Val} {enc : Enc} (old : Option (Key × Val)) {key : Key}
    {value : Staged Val} (hsub : p.modified ⊆ q.modified)
    (hlive : ∀ k, k ≠ enc → q.store.live.get? k = p.store.live.get? k)
    (hwhy : (∃ v, value = .value v) ∨ key ∈ q.modified) :
    Touches p (recordVersion faults seq newestPin q enc old).1 enc key value := by
  obtain ⟨hstore, hmodified⟩ := recordVersion_keeps faults seq newestPin q enc old
  refine ⟨hmodified.symm ▸ hsub, fun k hk => ?_⟩
  rw [hstore] at hk
  exact ⟨by_contra fun hne => hk (hlive k hne), hwhy.imp_right fun h => hmodified.symm ▸ h⟩

theorem applyOp_touches (faults : FaultPoint → Enc → Bool) (seq : Nat) (newestPin : Option Nat)
    (p : Progress Enc Key Val) (enc : Enc) (key : Key) (value : Staged Val) :
    Touches p (applyOp faults seq newestPin p enc key value).1 enc key value := by
  have hsame : Touches p p enc key value :=
    ⟨Finset.Subset.refl _, fun k hk => absurd rfl hk⟩
  rcases value with v | _
  · rcases hold : p.store.live.get? enc with _ | old
    · by_cases hfault : faults .indexAdd enc = true
      · simp only [applyOp, hold, hfault, if_true]
        exact hsame
      · simp only [applyOp, hold, hfault]
        exact touches_record _ _ _ _ (Finset.Subset.refl _)
          (fun k hne => PyDict.get?_set_of_ne _ _ hne) (Or.inl ⟨v, rfl⟩)
    · simp only [applyOp, hold]
      exact touches_record _ _ _ _ (Finset.Subset.refl _)
        (fun k hne => PyDict.get?_set_of_ne _ _ hne) (Or.inl ⟨v, rfl⟩)
  · rcases hold : p.store.live.get? enc with _ | old
    · simp only [applyOp, hold]
      exact hsame
    · simp only [applyOp, hold]
      exact touches_record _ _ _ _ (Finset.subset_insert _ _)
        (fun k hne => PyDict.get?_erase_of_ne _ hne) (Or.inr (Finset.mem_insert_self _ _))

theorem applyLoop_touches (faults : FaultPoint → Enc → Bool) (seq : Nat) (newestPin : Option Nat)
    (ops : List (Enc × Key × Staged Val)) (p : Progress Enc Key Val) :
    let r := (applyLoop faults seq newestPin ops p).1
    p.modified ⊆ r.modified ∧ ∀ k, r.store.live.get? k ≠ p.store.live.get? k →
      ∃ key value, (k, key, value) ∈ ops ∧ ((∃ v, value = .value v) ∨ key ∈ r.modified) := by
  induction ops generalizing p with
  | nil => exact ⟨Finset.Subset.refl _, fun k hk => absurd rfl hk⟩
  | cons op rest ih =>
    obtain ⟨enc, key, value⟩ := op
    obtain ⟨hsub, hturn⟩ := applyOp_touches faults seq newestPin p enc key value
    unfold applyLoop
    rcases hop : applyOp faults seq newestPin p enc key value with ⟨p', _ | fault⟩
    · rw [hop] at hsub hturn
      obtain ⟨hsub', hrest⟩ := ih p'
      refine ⟨hsub.trans hsub', fun k hk => ?_⟩
      by_cases hk' : p'.store.live.get? k = p.store.live.get? k
      · obtain ⟨key', value', hmem, htold⟩ := hrest k (hk'.symm ▸ hk)
        exact ⟨key', value', List.mem_cons_of_mem _ hmem, htold⟩
      · obtain ⟨rfl, htold⟩ := hturn k hk'
        exact ⟨key, value, List.mem_cons_self, htold.imp_right fun hmem => hsub' hmem⟩
    · rw [hop] at hsub hturn
      refine ⟨hsub, fun k hk => ?_⟩
      obtain ⟨rfl, htold⟩ := hturn k hk
      exact ⟨key, value, List.mem_cons_self, htold⟩

/-- A write set's keys are those it is under, and the keys of its puts are collected. -/
structure Collects (codec : Codec Enc Key Val Value) (pending : PyDict Enc (Key × Staged Val))
    (modified : Finset Key) : Prop where
  key : ∀ enc a, pending.get? enc = some a → codec.encodeKey a.1 = some enc
  put : ∀ enc key v, pending.get? enc = some (key, .value v) → key ∈ modified

omit [DecidableEq Key] in
theorem collects_empty (codec : Codec Enc Key Val Value) (modified : Finset Key) :
    Collects codec .empty modified :=
  ⟨fun _ _ h => (by cases h), fun _ _ _ h => by cases h⟩

omit [DecidableEq Key] in
theorem Collects.mono {pending : PyDict Enc (Key × Staged Val)} {modified modified' : Finset Key}
    (h : Collects codec pending modified) (hsub : modified ⊆ modified') :
    Collects codec pending modified' :=
  ⟨h.key, fun enc key v hget => hsub (h.put enc key v hget)⟩

omit [DecidableEq Key] in
/-- One more staged write. -/
theorem Collects.stage {pending : PyDict Enc (Key × Staged Val)} {modified modified' : Finset Key}
    (h : Collects codec pending modified) {enc : Enc} {key : Key}
    (hkey : codec.encodeKey key = some enc) (value : Staged Val) (hsub : modified ⊆ modified')
    (hput : ∀ v, value = .value v → key ∈ modified') :
    Collects codec (pending.set enc (key, value)) modified' := by
  refine ⟨fun enc' a ha => ?_, fun enc' key' v ha => ?_⟩
  · rw [PyDict.get?_set] at ha
    split_ifs at ha with he
    · rw [← Option.some.inj ha, he]
      exact hkey
    · exact h.key enc' a ha
  · rw [PyDict.get?_set] at ha
    split_ifs at ha with he
    · obtain ⟨rfl, hvalue⟩ := Prod.mk.inj (Option.some.inj ha)
      exact hput v hvalue
    · exact hsub (h.put enc' key' v ha)

/-- (PROVED) The keys a commit ends with cover what it changed. -/
theorem covers_apply {s : VersionedStore Enc Key Val} {past : Nat → Enc → Option (Key × Val)}
    (h : Versions s s.seq past) {ops : PyDict Enc (Key × Staged Val)} {modified : Finset Key}
    (hc : Collects codec ops modified) (generation : Nat) (faults : FaultPoint → Enc → Bool) :
    let r := s.apply ops modified generation faults
    modified ⊆ r.2.1 ∧ ((∃ n, r.2.2 = .ok n) →
      Covers codec.encodeKey r.2.1 s.live.get? r.1.live.get?) := by
  intro r
  obtain ⟨-, -, -, hlive, -⟩ := versions_settle h
  by_cases hgen : generation = s.generation
  · subst hgen
    set t := if s.deferred = [] then s else s.drain.trim with ht
    obtain ⟨hsub, htold⟩ := applyLoop_touches faults (t.seq + 1) t.pins.keys.getLast? ops.items
      ⟨t, modified, [], 0⟩
    rcases hloop : applyLoop faults (t.seq + 1) t.pins.keys.getLast? ops.items
      ⟨t, modified, [], 0⟩ with ⟨p, _ | fault⟩
    · have hr : r = _ := VersionedStore.apply_written ht.symm hloop
      rw [hr]
      rw [hloop] at hsub htold
      refine ⟨hsub, fun _ k hk => ?_⟩
      obtain ⟨key, value, hmem, hwhy⟩ := htold k (by rw [hlive]; exact hk)
      have hget := (PyDict.mem_items ops k (key, value)).1 hmem
      refine ⟨key, ?_, hc.key k _ hget⟩
      rcases hwhy with ⟨v, rfl⟩ | hin
      · exact hsub (hc.put k key v hget)
      · exact hin
    · have hr : r = _ := VersionedStore.apply_raised ht.symm hloop
      rw [hr]
      rw [hloop] at hsub
      refine ⟨hsub, fun hok => ?_⟩
      obtain ⟨n, hn⟩ := hok
      cases hn
  · have hr : r = (s, modified, .error .StorageClosedError) := if_pos hgen
    rw [hr]
    refine ⟨Finset.Subset.refl _, fun hok => ?_⟩
    obtain ⟨n, hn⟩ := hok
    cases hn

/-! ## The storage -/

namespace InMemoryStorage

/-- The write sets of all contexts. -/
structure Collecting (codec : Codec Enc Key Val Value) (s : InMemoryStorage Enc Key Val) : Prop where
  txns : ∀ id t, s.transactions.get? id = some t → Collects codec t.pending t.modified
  batches : ∀ id b, s.batches.get? id = some b → Collects codec b.pending b.modified

variable {s : InMemoryStorage Enc Key Val}

omit [DecidableEq Key] in
theorem Collecting.setTransaction (h : Collecting codec s) (id : Nat) {t : Transaction Enc Key Val}
    (ht : Collects codec t.pending t.modified) : Collecting codec (s.setTransaction id t) :=
  ⟨fun id' t' ht' => (by
      have hget : (s.transactions.set id t).get? id' = some t' := ht'
      rw [PyDict.get?_set] at hget
      split_ifs at hget
      · exact Option.some.inj hget ▸ ht
      · exact h.txns id' t' hget), h.batches⟩

omit [DecidableEq Key] in
theorem Collecting.setBatch (h : Collecting codec s) (id : Nat) {b : WriteBatch Enc Key Val}
    (hb : Collects codec b.pending b.modified) : Collecting codec (s.setBatch id b) :=
  ⟨h.txns, fun id' b' hb' => by
    have hget : (s.batches.set id b).get? id' = some b' := hb'
    rw [PyDict.get?_set] at hget
    split_ifs at hget
    · exact Option.some.inj hget ▸ hb
    · exact h.batches id' b' hget⟩

omit [DecidableEq Key] in
/-- Only the contexts count. -/
theorem Collecting.of_eq (h : Collecting codec s) {s' : InMemoryStorage Enc Key Val}
    (htxns : s'.transactions = s.transactions) (hbatches : s'.batches = s.batches) :
    Collecting codec s' :=
  ⟨fun id t ht => h.txns id t (htxns ▸ ht), fun id b hb => h.batches id b (hbatches ▸ hb)⟩

/-- Whether a step may commit. -/
def commits : Step Enc Key Value → Bool
  | .commitApply _ _ => true
  | .writeApply _ _ => true
  | _ => false

/-- A step that hands nothing over. -/
structure Quiet (codec : Codec Enc Key Val Value) (s : InMemoryStorage Enc Key Val)
    (r : Reply Enc Key Val) : Prop where
  collecting : Collecting codec r.1
  notified : r.1.notified = s.notified

omit [DecidableEq Key] in
theorem Collecting.quiet (h : Collecting codec s) {r : Reply Enc Key Val}
    (htxns : r.1.transactions = s.transactions) (hbatches : r.1.batches = s.batches)
    (hnotified : r.1.notified = s.notified) : Quiet codec s r :=
  ⟨h.of_eq htxns hbatches, hnotified⟩

omit [DecidableEq Key] in
theorem quiet_open (h : Collecting codec s) : Quiet codec s s.open := by
  unfold «open»
  split_ifs
  · exact h.quiet rfl rfl rfl
  · exact h.quiet rfl rfl rfl

omit [DecidableEq Key] in
theorem quiet_close (h : Collecting codec s) : Quiet codec s s.close := by
  unfold close
  split_ifs
  · refine ⟨⟨fun id t ht => ?_, fun id b hb => ?_⟩, rfl⟩
    · have hget : (s.transactions.map abortedTransaction).get? id = some t := ht
      rw [PyDict.get?_map] at hget
      obtain ⟨t', ht', rfl⟩ := Option.map_eq_some_iff.1 hget
      unfold abortedTransaction
      split_ifs
      · exact h.txns id t' ht'
      · exact collects_empty codec _
    · have hget : (s.batches.map abortedBatch).get? id = some b := hb
      rw [PyDict.get?_map] at hget
      obtain ⟨b', hb', rfl⟩ := Option.map_eq_some_iff.1 hget
      unfold abortedBatch
      split_ifs
      · exact h.batches id b' hb'
      · exact collects_empty codec _
  · exact h.quiet rfl rfl rfl

omit [DecidableEq Key] in
theorem quiet_beginTransaction (h : Collecting codec s) (id : Nat) :
    Quiet codec s (s.beginTransaction id) := by
  unfold beginTransaction
  split_ifs
  · exact h.quiet rfl rfl rfl
  · exact h.quiet rfl rfl rfl
  · exact h.quiet rfl rfl rfl
  · have hlocked : Collecting codec { s with locked := true } := h.of_eq rfl rfl
    exact ⟨hlocked.setTransaction id (collects_empty codec _), rfl⟩

theorem quiet_stageTransaction (h : Collecting codec s) (id : Nat) (key : Key)
    (value : Option (Option Value)) : Quiet codec s (s.stageTransaction codec id key value) := by
  unfold stageTransaction
  rcases ht : s.transactions.get? id with _ | t
  · exact h.quiet rfl rfl rfl
  · dsimp only
    by_cases hclosed : t.closed = true
    · rw [if_pos hclosed]
      exact h.quiet rfl rfl rfl
    · rw [if_neg hclosed]
      rcases value with _ | _ | v
      · rcases hkey : codec.encodeKey key with _ | enc
        · exact h.quiet rfl rfl rfl
        · exact ⟨h.setTransaction id ((h.txns id t ht).stage hkey .DELETED
            (Finset.Subset.refl _) fun v hv => by cases hv), rfl⟩
      · exact h.quiet rfl rfl rfl
      · dsimp only
        rcases hkey : codec.encodeKey key with _ | enc
        · exact h.quiet rfl rfl rfl
        · rcases codec.encodeValue v with _ | encoded
          · exact h.quiet rfl rfl rfl
          · exact ⟨h.setTransaction id ((h.txns id t ht).stage hkey (.value encoded)
              (Finset.subset_insert _ _) fun _ _ => Finset.mem_insert_self _ _), rfl⟩

omit [DecidableEq Key] in
theorem quiet_pageTransaction (h : Collecting codec s) (id : Nat) (bound : Option Enc)
    (inclusive reverse : Bool) (n : Nat) (stop : Option Enc) :
    Quiet codec s (s.pageTransaction id bound inclusive reverse n stop) := by
  unfold pageTransaction
  rcases ht : s.transactions.get? id with _ | t
  · exact h.quiet rfl rfl rfl
  · dsimp only
    split_ifs
    · exact h.quiet rfl rfl rfl
    · refine ⟨h.setTransaction id ?_, rfl⟩
      unfold Transaction.page
      dsimp only
      split_ifs
      · exact h.txns id t ht
      · exact h.txns id t ht

omit [DecidableEq Key] in
theorem quiet_commitClaim (h : Collecting codec s) (id : Nat) :
    Quiet codec s (s.commitClaim id) := by
  unfold commitClaim
  rcases ht : s.transactions.get? id with _ | t
  · exact h.quiet rfl rfl rfl
  · dsimp only
    split_ifs
    · exact h.quiet rfl rfl rfl
    · exact ⟨h.setTransaction id (h.txns id t ht), rfl⟩

omit [DecidableEq Key] in
theorem quiet_abortTransaction (h : Collecting codec s) (id : Nat) :
    Quiet codec s (s.abortTransaction id) := by
  unfold abortTransaction
  rcases ht : s.transactions.get? id with _ | t
  · exact h.quiet rfl rfl rfl
  · dsimp only
    split_ifs with hclosed
    · exact h.quiet rfl rfl rfl
    · have hcollects : Collects codec (abortedTransaction t).pending
          (abortedTransaction t).modified := by
        unfold abortedTransaction
        rw [if_neg hclosed]
        exact collects_empty codec _
      rw [System.releaseWriteSlot_eq]
      exact ⟨(h.setTransaction id hcollects).of_eq rfl rfl, rfl⟩

omit [DecidableEq Key] in
theorem quiet_snapshots (h : Collecting codec s) (id : Nat) :
    Quiet codec s (s.beginSnapshot id) ∧ Quiet codec s (s.closeSnapshot id) ∧
      Quiet codec s (s.dropSnapshot id) := by
  refine ⟨?_, ?_, ?_⟩
  · unfold beginSnapshot
    split_ifs
    · exact h.quiet rfl rfl rfl
    · exact h.quiet rfl rfl rfl
  · unfold closeSnapshot
    rcases s.snapshots.get? id with _ | snap
    · exact h.quiet rfl rfl rfl
    · dsimp only
      split_ifs
      · exact h.quiet rfl rfl rfl
      · exact h.quiet rfl rfl rfl
  · unfold dropSnapshot
    rcases s.snapshots.get? id with _ | snap
    · exact h.quiet rfl rfl rfl
    · dsimp only
      split_ifs
      · exact h.quiet rfl rfl rfl
      · exact h.quiet rfl rfl rfl

omit [DecidableEq Key] in
theorem quiet_beginWriteBatch (h : Collecting codec s) (id : Nat) :
    Quiet codec s (s.beginWriteBatch id) := by
  unfold beginWriteBatch
  split_ifs
  · exact h.quiet rfl rfl rfl
  · exact h.quiet rfl rfl rfl
  · exact ⟨h.setBatch id (collects_empty codec _), rfl⟩

theorem quiet_stageBatch (h : Collecting codec s) (id : Nat) (key : Key)
    (value : Option (Option Value)) : Quiet codec s (s.stageBatch codec id key value) := by
  unfold stageBatch
  rcases hb : s.batches.get? id with _ | b
  · exact h.quiet rfl rfl rfl
  · dsimp only
    by_cases hclosed : b.closed = true
    · rw [if_pos hclosed]
      exact h.quiet rfl rfl rfl
    · rw [if_neg hclosed]
      rcases value with _ | _ | v
      · rcases hkey : codec.encodeKey key with _ | enc
        · exact h.quiet rfl rfl rfl
        · exact ⟨h.setBatch id ((h.batches id b hb).stage hkey .DELETED
            (Finset.Subset.refl _) fun v hv => by cases hv), rfl⟩
      · exact h.quiet rfl rfl rfl
      · dsimp only
        rcases hkey : codec.encodeKey key with _ | enc
        · exact h.quiet rfl rfl rfl
        · rcases codec.encodeValue v with _ | encoded
          · exact h.quiet rfl rfl rfl
          · exact ⟨h.setBatch id ((h.batches id b hb).stage hkey (.value encoded)
              (Finset.subset_insert _ _) fun _ _ => Finset.mem_insert_self _ _), rfl⟩

omit [DecidableEq Key] in
/-- The steps of a batch around its `apply`. -/
theorem quiet_batch (h : Collecting codec s) (id : Nat) :
    Quiet codec s (s.writeClaim id) ∧ Quiet codec s (s.writeTake id) ∧
      Quiet codec s (s.writeTimeout id) ∧ Quiet codec s (s.abortBatch id) := by
  unfold writeClaim writeTake writeTimeout abortBatch
  rcases hb : s.batches.get? id with _ | b
  · exact ⟨h.quiet rfl rfl rfl, h.quiet rfl rfl rfl, h.quiet rfl rfl rfl, h.quiet rfl rfl rfl⟩
  · dsimp only
    refine ⟨?_, ?_, ?_, ?_⟩
    · split_ifs
      · exact h.quiet rfl rfl rfl
      · exact ⟨h.setBatch id (h.batches id b hb), rfl⟩
    · split_ifs
      · exact h.quiet rfl rfl rfl
      · exact h.quiet rfl rfl rfl
      · have hlocked : Collecting codec { s with locked := true } := h.of_eq rfl rfl
        exact ⟨hlocked.setBatch id (h.batches id b hb), rfl⟩
    · split_ifs
      · exact h.quiet rfl rfl rfl
      · exact ⟨h.setBatch id (collects_empty codec _), rfl⟩
    · split_ifs with hclosed
      · exact h.quiet rfl rfl rfl
      · refine ⟨h.setBatch id ?_, rfl⟩
        unfold abortedBatch
        rw [if_neg hclosed]
        exact collects_empty codec _

theorem quiet_perform (h : Collecting codec s) (st : Step Enc Key Value)
    (hst : commits st = false) : Quiet codec s (s.perform codec st) := by
  cases st with
  | «open» => exact quiet_open h
  | close => exact quiet_close h
  | beginTransaction id => exact quiet_beginTransaction h id
  | stageTransaction id key value => exact quiet_stageTransaction h id key value
  | pageTransaction id bound inclusive reverse n stop =>
    exact quiet_pageTransaction h id bound inclusive reverse n stop
  | commitClaim id => exact quiet_commitClaim h id
  | commitApply id faults => cases hst
  | abortTransaction id => exact quiet_abortTransaction h id
  | beginSnapshot id => exact (quiet_snapshots h id).1
  | closeSnapshot id => exact (quiet_snapshots h id).2.1
  | dropSnapshot id => exact (quiet_snapshots h id).2.2
  | beginWriteBatch id => exact quiet_beginWriteBatch h id
  | stageBatch id key value => exact quiet_stageBatch h id key value
  | writeClaim id => exact (quiet_batch h id).1
  | writeTake id => exact (quiet_batch h id).2.1
  | writeTimeout id => exact (quiet_batch h id).2.2.1
  | writeApply id faults => cases hst
  | abortBatch id => exact (quiet_batch h id).2.2.2

omit [LinearOrder Enc] in
theorem notifyBatch_handOver (s : InMemoryStorage Enc Key Val) (keys : Finset Key) :
    s.notifyBatch keys = { s with notified := s.notified ++ handOver keys } := by
  unfold notifyBatch handOver
  split_ifs
  · rw [List.append_nil]
  · rfl

/-- A step that commits, or raises. -/
structure Telling (codec : Codec Enc Key Val Value) (s : InMemoryStorage Enc Key Val)
    (r : Reply Enc Key Val) : Prop where
  collecting : Collecting codec r.1
  told : r.2 = .ok () → ∃ keys, r.1.notified = s.notified ++ handOver keys ∧
    Covers codec.encodeKey keys s.store.live.get? r.1.store.live.get?
  untold : ∀ e, r.2 = .error e → r.1.notified = s.notified

theorem Collecting.raised (h : Collecting codec s) {s' : InMemoryStorage Enc Key Val}
    (htxns : s'.transactions = s.transactions) (hbatches : s'.batches = s.batches)
    (hnotified : s'.notified = s.notified) (e : StorageError) : Telling codec s (s'.fail e) :=
  ⟨h.of_eq htxns hbatches, fun hok => (by cases hok), fun _ _ => hnotified⟩

theorem telling_commitApply (h : Collecting codec s)
    {past : Nat → Enc → Option (Key × Val)} (hv : Versions s.store s.store.seq past) (id : Nat)
    (faults : FaultPoint → Enc → Bool) : Telling codec s (s.commitApply id faults) := by
  unfold commitApply
  rcases ht : s.transactions.get? id with _ | t
  · exact h.raised rfl rfl rfl _
  · dsimp only
    have hc := h.txns id t ht
    split_ifs with hended hempty
    · exact h.raised rfl rfl rfl _
    · rw [notifyBatch_handOver, System.releaseWriteSlot_eq]
      have hend := h.setTransaction id (t := { t with committed := true }) hc
      exact ⟨hend.of_eq rfl rfl, fun _ => ⟨t.modified, rfl, Covers.refl _ _⟩,
        fun e he => by cases he⟩
    · obtain ⟨hsub, hcovers⟩ := covers_apply hv hc t.generation faults
      rcases hap : s.store.apply t.pending t.modified t.generation faults with
        ⟨store, modified, e | n⟩
      · have hend := h.setTransaction id (t := { t with aborted := true, modified := modified })
          (hc.mono (by rw [hap] at hsub; exact hsub))
        dsimp only
        rw [System.releaseWriteSlot_eq]
        exact ⟨hend.of_eq rfl rfl, fun hok => (by cases hok), fun _ _ => rfl⟩
      · have hend := h.setTransaction id (t := { t with committed := true, modified := modified })
          (hc.mono (by rw [hap] at hsub; exact hsub))
        rw [hap] at hcovers
        dsimp only
        rw [notifyBatch_handOver, System.releaseWriteSlot_eq]
        exact ⟨hend.of_eq rfl rfl, fun _ => ⟨modified, rfl, hcovers ⟨n, rfl⟩⟩,
          fun e he => by cases he⟩

theorem telling_writeApply (h : Collecting codec s)
    {past : Nat → Enc → Option (Key × Val)} (hv : Versions s.store s.store.seq past) (id : Nat)
    (faults : FaultPoint → Enc → Bool) : Telling codec s (s.writeApply id faults) := by
  unfold writeApply
  rcases hb : s.batches.get? id with _ | b
  · exact h.raised rfl rfl rfl _
  · dsimp only
    have hc := h.batches id b hb
    by_cases hwriting : writing b = true
    · rw [if_neg (not_not.2 hwriting)]
      by_cases hempty : b.pending.items = []
      · rw [if_pos hempty, notifyBatch_handOver]
        have hend := h.setBatch id (b := { b with written := true }) hc
        exact ⟨hend.of_eq rfl rfl, fun _ => ⟨b.modified, rfl, Covers.refl _ _⟩,
          fun e he => by cases he⟩
      · rw [if_neg hempty]
        rcases htaken : b.taken with _ | lock
        · exact h.raised rfl rfl rfl _
        · obtain ⟨-, hcovers⟩ := covers_apply hv hc b.generation faults
          rcases hap : s.store.apply b.pending b.modified b.generation faults with
            ⟨store, modified, e | n⟩
          · have hend := h.setBatch id (b := { b with
              aborted := true, pending := .empty, modified := modified, taken := none })
              (collects_empty codec _)
            dsimp only
            rw [System.releaseWriteSlot_eq]
            exact ⟨hend.of_eq rfl rfl, fun hok => (by cases hok), fun _ _ => rfl⟩
          · have hend := h.setBatch id (b := { b with
              written := true, pending := .empty, modified := modified, taken := none })
              (collects_empty codec _)
            rw [hap] at hcovers
            dsimp only
            rw [notifyBatch_handOver, System.releaseWriteSlot_eq]
            exact ⟨hend.of_eq rfl rfl, fun _ => ⟨modified, rfl, hcovers ⟨n, rfl⟩⟩,
              fun e he => by cases he⟩
    · rw [if_pos hwriting]
      exact h.raised rfl rfl rfl _

/-- The committed values. -/
def values (s : InMemoryStorage Enc Key Val) : Enc → Option Val :=
  fun enc => (s.store.get enc).map Prod.snd

/-- Whether the step was a commit that did not raise. -/
def committed (st : Step Enc Key Value) (r : Reply Enc Key Val) : Bool :=
  commits st && match r.2 with
    | .ok _ => true
    | .error _ => false

end InMemoryStorage

/-! ## Runs -/

namespace System

open InMemoryStorage

theorem step_storage (codec : Codec Enc Key Val Value) (w : System Enc Key Val)
    (st : Step Enc Key Value) :
    (w.step codec st).storage = (w.storage.perform codec st).1 := by
  unfold step
  rcases w.storage.perform codec st with ⟨s, e | a⟩
  · rfl
  · rfl

/-- Unless a step commits, opens or closes, the committed units stay the same. -/
theorem step_serial (codec : Codec Enc Key Val Value) (w : System Enc Key Val)
    {st : Step Enc Key Value} (hopen : st ≠ .open) (hclose : st ≠ .close)
    (hst : InMemoryStorage.committed st (w.storage.perform codec st) = false) :
    (w.step codec st).serial = w.serial := by
  unfold step
  rcases hr : w.storage.perform codec st with ⟨s, e | a⟩
  · rfl
  · rw [hr] at hst
    cases st <;> first | rfl | exact absurd rfl hopen | exact absurd rfl hclose | cases hst

omit [DecidableEq Key] in
/-- The store of a reachable state has its versions in order. -/
theorem Inv.versions {w : System Enc Key Val} (h : Inv w) :
    ∃ past, Versions w.storage.store w.storage.store.seq past := by
  obtain ⟨pins, hinv, -⟩ := h.reads
  obtain ⟨past, hv, -⟩ := hinv.versions
  exact ⟨past, hv⟩

theorem telling_perform {w : System Enc Key Val} (h : Inv w) (hc : Collecting codec w.storage)
    {st : Step Enc Key Value} (hst : commits st = true) :
    Telling codec w.storage (w.storage.perform codec st) := by
  obtain ⟨past, hv⟩ := h.versions
  cases st with
  | commitApply id faults => exact telling_commitApply hc hv id faults
  | writeApply id faults => exact telling_writeApply hc hv id faults
  | _ => cases hst

theorem collecting_step {w : System Enc Key Val} (h : Inv w) (hc : Collecting codec w.storage)
    (st : Step Enc Key Value) : Collecting codec (w.step codec st).storage := by
  rw [step_storage]
  cases hst : commits st
  · exact (quiet_perform hc st hst).collecting
  · exact (telling_perform h hc hst).collecting

theorem collecting_run (codec : Codec Enc Key Val Value) (readOnly : Bool)
    (steps : List (Step Enc Key Value)) :
    Collecting codec (run codec readOnly steps).storage := by
  suffices hrun : ∀ w : System Enc Key Val, Inv w → Collecting codec w.storage →
      Collecting codec (steps.foldl (step codec) w).storage from
    hrun _ (inv_start readOnly) ⟨fun _ _ h => (by cases h), fun _ _ h => by cases h⟩
  induction steps with
  | nil => exact fun _ _ hc => hc
  | cons st steps ih =>
    exact fun w h hc => ih _ (inv_step codec h st) (collecting_step h hc st)

/-- (PROVED) In any run of any parties' steps, the keys that a step hands over cover the values it
    changes, and a step that does not commit changes and hands over nothing. -/
theorem step_handed (codec : Codec Enc Key Val Value) (readOnly : Bool)
    (steps : List (Step Enc Key Value)) (st : Step Enc Key Value) (hopen : st ≠ .open)
    (hclose : st ≠ .close) :
    let s := (run codec readOnly steps).storage
    let r := s.perform codec st
    ∃ handed, r.1.notified = s.notified ++ handed ∧
      Handed codec.encodeKey s.values r.1.values handed (InMemoryStorage.committed st r) := by
  intro s r
  have h := inv_run codec readOnly steps
  have hc := collecting_run codec readOnly steps
  rcases hcommitted : InMemoryStorage.committed st r with _ | _
  · -- not a commit: the live map is that of the same committed units
    have hlive : r.1.store.live.get? = s.store.live.get? := by
      have h' := (inv_step codec h st).live
      rw [step_storage] at h'
      exact h'.trans ((congrArg execUnits (step_serial codec _ hopen hclose hcommitted)).trans
        h.live.symm)
    have hvalues : r.1.values = s.values := funext fun enc =>
      congrArg (Option.map Prod.snd) (congrFun hlive enc)
    refine ⟨[], ?_, ?_⟩
    · rw [List.append_nil]
      cases hst : commits st
      · exact (quiet_perform hc st hst).notified
      · rcases hr : r.2 with e | a
        · exact (telling_perform h hc hst).untold e hr
        · rw [InMemoryStorage.committed, hst, hr] at hcommitted
          cases hcommitted
    · rw [hvalues]
      exact handed_none _ _
  · have hst : commits st = true := (Bool.and_eq_true_iff.1 hcommitted).1
    have hok : r.2 = .ok () := by
      rcases hr : r.2 with e | a
      · rw [InMemoryStorage.committed, hst, hr] at hcommitted
        cases hcommitted
      · rfl
    obtain ⟨keys, hnotified, hcovers⟩ := (telling_perform h hc hst).told hok
    exact ⟨handOver keys, hnotified, handed_commit (hcovers.map Prod.snd)⟩

end System

end Virtuals.Mem
