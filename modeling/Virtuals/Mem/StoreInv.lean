/-
  The invariant of `VersionedStore` that makes snapshot reads right, and that every
  operation keeps it.

  `Versions s top past` says: the two indexes are in step with their dicts, the undo
  log and the per-key versions are two views of the same records, and every pinned
  sequence `p` still reads as `past p`, the live map when it was pinned. Releasing
  and trimming keep it because they only drop pins and versions older than every pin
  (`versions_release`, `versions_trim`). A commit keeps it record by record
  (`versions_applyOp`). A commit that raises is taken back step by step: `Rollback`
  says that undoing what was done so far gives the store at the start, and `applyOp`
  keeps that too (`rollback_applyOp`), so `undo` returns to it (`same_undo`).
-/
import Virtuals.Mem.Store

namespace Virtuals.Mem

open ScanOrder

namespace VersionedStore

variable {Enc Key Val : Type} [LinearOrder Enc]

/-! ## Indexes in step with dicts -/

/-- The index holds exactly the keys of the dict. -/
def InStep {A : Type} (index : SortedKeys Enc) (d : PyDict Enc A) : Prop :=
  index.WF ∧ ∀ k, k ∈ index.toList ↔ (d.get? k).isSome

section InStep

variable {A : Type} {index : SortedKeys Enc} {d : PyDict Enc A}

theorem inStep_empty : InStep (.empty : SortedKeys Enc) (.empty : PyDict Enc A) :=
  ⟨SortedKeys.wf_empty, by simp⟩

theorem InStep.set_new (h : InStep index d) {k : Enc} (hk : d.get? k = none) (v : A) :
    InStep (index.add k) (d.set k v) := by
  obtain ⟨h1, h2⟩ := SortedKeys.wf_add h.1 k (by rw [h.2]; simp [hk])
  refine ⟨h1, fun j => ?_⟩
  rw [h2, h.2, PyDict.get?_set]
  by_cases hj : j = k <;> simp [hj]

theorem InStep.set_old (h : InStep index d) {k : Enc} (hk : (d.get? k).isSome) (v : A) :
    InStep index (d.set k v) := by
  refine ⟨h.1, fun j => ?_⟩
  rw [h.2, PyDict.get?_set]
  by_cases hj : j = k <;> simp [hj, hk]

theorem InStep.erase (h : InStep index d) (k : Enc) :
    InStep (index.discard k).1 (d.erase k) := by
  obtain ⟨h1, h2, -⟩ := SortedKeys.wf_discard h.1 k
  refine ⟨h1, fun j => ?_⟩
  rw [h2, h.2, PyDict.get?_erase]
  by_cases hj : j = k <;> simp [hj]

end InStep

/-! ## Versions of one key -/

/-- The recorded versions of a key, oldest first. -/
def entriesOf (s : VersionedStore Enc Key Val) (enc : Enc) : List (Nat × Option (Key × Val)) :=
  (s.history.get? enc).getD []

/-- The value of the oldest version written after `seq`. -/
def firstAfter {A : Type} (entries : List (Nat × A)) (seq : Nat) : Option A :=
  (entries.dropWhile fun r => r.1 ≤ seq).head?.map Prod.snd

theorem firstAfter_append {A : Type} (entries : List (Nat × A)) {seq c : Nat} (v : A)
    (hc : seq < c) :
    firstAfter (entries ++ [(c, v)]) seq = some ((firstAfter entries seq).getD v) := by
  induction entries with
  | nil => simp [firstAfter, hc]
  | cons r rest ih =>
    by_cases h : r.1 ≤ seq
    · simpa [firstAfter, h] using ih
    · simp [firstAfter, h]

theorem firstAfter_drop {A : Type} {entries : List (Nat × A)} {seq n : Nat}
    (h : ∀ r ∈ entries.take n, r.1 ≤ seq) :
    firstAfter (entries.drop n) seq = firstAfter entries seq := by
  conv_rhs => rw [← List.take_append_drop n entries]
  rw [firstAfter, firstAfter, List.dropWhile_append_of_pos (by simpa using h)]

theorem firstAfter_of_le {A : Type} {entries : List (Nat × A)} {seq : Nat}
    (h : ∀ r ∈ entries, r.1 ≤ seq) : firstAfter entries seq = none := by
  rw [firstAfter, List.dropWhile_eq_nil_iff.2 (by simpa using h)]
  rfl

theorem firstAfter_of_last {A : Type} {entries : List (Nat × A)} {seq c : Nat} {v : A}
    (h : entries.getLast? = some (c, v)) (hc : seq < c) : (firstAfter entries seq).isSome := by
  obtain ⟨l, rfl⟩ := List.getLast?_eq_some_iff.1 h
  simp [firstAfter_append l v hc]

theorem getAt_eq (s : VersionedStore Enc Key Val) (enc : Enc) (seq : Nat) :
    s.getAt enc seq = (firstAfter (s.entriesOf enc) seq).getD (s.live.get? enc) := by
  unfold getAt versionAt entriesOf firstAfter
  rcases s.history.get? enc with _ | entries
  · simp
  · simp only [Option.getD_some]
    generalize (entries.dropWhile fun r => decide (r.1 ≤ seq)).head? = o
    rcases o with _ | ⟨c, _ | e⟩ <;> rfl

/-! ## The invariant -/

/-- Every pinned sequence reads as `past` says, and the records that make it so are in order.
    `top` bounds the commit sequences recorded. -/
structure Versions (s : VersionedStore Enc Key Val) (top : Nat)
    (past : Nat → Enc → Option (Key × Val)) : Prop where
  live : InStep s.index s.live
  hist : InStep s.historyIndex s.history
  nonempty : ∀ enc entries, s.history.get? enc = some entries → entries ≠ []
  log : ∀ enc, (s.undoLog.filter fun r => r.2 = enc).map Prod.fst = (s.entriesOf enc).map Prod.fst
  logSorted : (s.undoLog.map Prod.fst).Pairwise (· ≤ ·)
  logTop : ∀ r ∈ s.undoLog, r.1 ≤ top
  sorted : ∀ enc, ((s.entriesOf enc).map Prod.fst).Pairwise (· < ·)
  pinsSorted : s.pins.keys.Pairwise (· < ·)
  pinsTop : ∀ p ∈ s.pins.keys, p ≤ s.seq
  reads : ∀ p ∈ s.pins.keys, ∀ enc, s.getAt enc p = past p enc

theorem Versions.entries_le {s : VersionedStore Enc Key Val} {top : Nat}
    {past : Nat → Enc → Option (Key × Val)} (h : Versions s top past) (enc : Enc) :
    ∀ r ∈ s.entriesOf enc, r.1 ≤ top := by
  intro r hr
  have : r.1 ∈ (s.entriesOf enc).map Prod.fst := List.mem_map_of_mem hr
  rw [← h.log enc] at this
  obtain ⟨q, hq, hqr⟩ := List.mem_map.1 this
  rw [← hqr]
  exact h.logTop q (List.mem_of_mem_filter hq)

theorem versions_new (past : Nat → Enc → Option (Key × Val)) :
    Versions (new : VersionedStore Enc Key Val) 0 past :=
  ⟨inStep_empty, inStep_empty, by simp [new], by simp [new, entriesOf], by simp [new],
    by simp [new], by simp [new, entriesOf], by simp [new], by simp [new], by simp [new]⟩

/-! ## Pins and releases -/

theorem Versions.of_pins {s t : VersionedStore Enc Key Val} {top : Nat}
    {past : Nat → Enc → Option (Key × Val)} (h : Versions s top past)
    (hlive : t.live = s.live) (hindex : t.index = s.index) (hhist : t.history = s.history)
    (hhindex : t.historyIndex = s.historyIndex) (hlog : t.undoLog = s.undoLog)
    (hseq : t.seq = s.seq) (hpins : t.pins.keys.Sublist s.pins.keys) : Versions t top past := by
  have hent : ∀ enc, t.entriesOf enc = s.entriesOf enc := fun enc => by rw [entriesOf, hhist]; rfl
  refine ⟨by rw [hindex, hlive]; exact h.live, by rw [hhindex, hhist]; exact h.hist,
    by rw [hhist]; exact h.nonempty, fun enc => by rw [hlog, hent]; exact h.log enc,
    by rw [hlog]; exact h.logSorted, by rw [hlog]; exact h.logTop,
    fun enc => by rw [hent]; exact h.sorted enc, h.pinsSorted.sublist hpins,
    fun p hp => by rw [hseq]; exact h.pinsTop p (hpins.subset hp), fun p hp enc => ?_⟩
  rw [getAt_eq, hent, hlive, ← getAt_eq]
  exact h.reads p (hpins.subset hp) enc

omit [LinearOrder Enc] in
/-- What `_release` touches: nothing but the pins, whose sequences can only get fewer. -/
theorem release_frame (s : VersionedStore Enc Key Val) (token : Nat × Nat) :
    ∃ pins : PyDict Nat Nat, s.release token = { s with pins := pins } ∧
      pins.keys.Sublist s.pins.keys ∧
      ∀ q, (pins.get? q).getD 0 =
        (s.pins.get? q).getD 0 - (if token = (s.generation, q) then 1 else 0) := by
  by_cases hg : token.1 = s.generation
  · by_cases hc : (s.pins.get? token.2).getD 0 - 1 > 0
    · refine ⟨s.pins.set token.2 ((s.pins.get? token.2).getD 0 - 1), by simp [release, hg, hc],
        ?_, fun q => ?_⟩
      · have hmem : token.2 ∈ s.pins.keys := by
          rw [PyDict.mem_keys]
          rcases hp : s.pins.get? token.2 with _ | c
          · simp [hp] at hc
          · rfl
        rw [PyDict.keys_set, if_pos hmem]
      · rw [PyDict.get?_set]
        by_cases hq : q = token.2
        · subst hq; simp [← hg]
        · have : token ≠ (s.generation, q) := fun he => hq (congrArg Prod.snd he).symm
          simp [hq, this]
    · refine ⟨s.pins.erase token.2, by simp [release, hg, hc], ?_, fun q => ?_⟩
      · rw [PyDict.keys_erase]; exact List.filter_sublist
      · rw [PyDict.get?_erase]
        by_cases hq : q = token.2
        · subst hq
          simp [← hg]
          omega
        · have : token ≠ (s.generation, q) := fun he => hq (congrArg Prod.snd he).symm
          simp [hq, this]
  · refine ⟨s.pins, by simp [release, hg], List.Sublist.refl _, fun q => ?_⟩
    have : token ≠ (s.generation, q) := fun he => hg (congrArg Prod.fst he)
    simp [this]

omit [LinearOrder Enc] in
theorem foldl_release_frame (tokens : List (Nat × Nat)) (s : VersionedStore Enc Key Val) :
    ∃ pins : PyDict Nat Nat, tokens.foldl release s = { s with pins := pins } ∧
      pins.keys.Sublist s.pins.keys ∧
      ∀ q, (pins.get? q).getD 0 = (s.pins.get? q).getD 0 - tokens.count (s.generation, q) := by
  induction tokens generalizing s with
  | nil => exact ⟨s.pins, rfl, List.Sublist.refl _, by simp⟩
  | cons token rest ih =>
    obtain ⟨pins, hrel, hsub, hcount⟩ := release_frame s token
    obtain ⟨pins', hrest, hsub', hcount'⟩ := ih (s.release token)
    rw [hrel] at hrest hsub' hcount'
    refine ⟨pins', by rw [List.foldl_cons, hrel, hrest], hsub'.trans hsub, fun q => ?_⟩
    rw [hcount' q, hcount q, List.count_cons]
    simp only [beq_iff_eq]
    omega

omit [LinearOrder Enc] in
/-- What `_drain` does: the deferred releases are applied and forgotten. -/
theorem drain_frame (s : VersionedStore Enc Key Val) :
    ∃ pins : PyDict Nat Nat, s.drain = { s with pins := pins, deferred := [] } ∧
      pins.keys.Sublist s.pins.keys ∧
      ∀ q, (pins.get? q).getD 0 = (s.pins.get? q).getD 0 - s.deferred.count (s.generation, q) :=
  foldl_release_frame s.deferred { s with deferred := [] }

theorem versions_release {s : VersionedStore Enc Key Val} {top : Nat}
    {past : Nat → Enc → Option (Key × Val)} (h : Versions s top past) (token : Nat × Nat) :
    Versions (s.release token) top past := by
  obtain ⟨pins, hrel, hsub, -⟩ := release_frame s token
  rw [hrel]
  exact h.of_pins rfl rfl rfl rfl rfl rfl hsub

theorem versions_drain {s : VersionedStore Enc Key Val} {top : Nat}
    {past : Nat → Enc → Option (Key × Val)} (h : Versions s top past) :
    Versions s.drain top past := by
  obtain ⟨pins, hdr, hsub, -⟩ := drain_frame s
  rw [hdr]
  exact h.of_pins rfl rfl rfl rfl rfl rfl hsub

/-! ## Trimming -/

/-- The history part of the invariant: index in step, no key with an empty list of versions. -/
def HistoryOk {A : Type} (index : SortedKeys Enc) (d : PyDict Enc (List A)) : Prop :=
  InStep index d ∧ ∀ enc entries, d.get? enc = some entries → entries ≠ []

theorem Versions.historyOk {s : VersionedStore Enc Key Val} {top : Nat}
    {past : Nat → Enc → Option (Key × Val)} (h : Versions s top past) :
    HistoryOk s.historyIndex s.history := ⟨h.hist, h.nonempty⟩

theorem HistoryOk.erase {A : Type} {index : SortedKeys Enc} {d : PyDict Enc (List A)}
    (h : HistoryOk index d) (k : Enc) : HistoryOk (index.discard k).1 (d.erase k) := by
  refine ⟨h.1.erase k, fun enc entries he => h.2 enc entries ?_⟩
  rw [PyDict.get?_erase] at he
  split_ifs at he
  exact he

theorem HistoryOk.set_old {A : Type} {index : SortedKeys Enc} {d : PyDict Enc (List A)}
    (h : HistoryOk index d) {k : Enc} (hk : (d.get? k).isSome) {v : List A} (hv : v ≠ []) :
    HistoryOk index (d.set k v) := by
  refine ⟨h.1.set_old hk v, fun enc entries he => ?_⟩
  rw [PyDict.get?_set] at he
  split_ifs at he
  · exact (Option.some.inj he) ▸ hv
  · exact h.2 enc entries he

theorem HistoryOk.set_new {A : Type} {index : SortedKeys Enc} {d : PyDict Enc (List A)}
    (h : HistoryOk index d) {k : Enc} (hk : d.get? k = none) {v : List A} (hv : v ≠ []) :
    HistoryOk (index.add k) (d.set k v) := by
  refine ⟨h.1.set_new hk v, fun enc entries he => ?_⟩
  rw [PyDict.get?_set] at he
  split_ifs at he
  · exact (Option.some.inj he) ▸ hv
  · exact h.2 enc entries he

theorem dropVersions_frame (s : VersionedStore Enc Key Val) (enc : Enc) (count : Nat)
    (h : HistoryOk s.historyIndex s.history) :
    ∃ history index, s.dropVersions enc count =
        { s with history := history, historyIndex := index } ∧
      HistoryOk index history ∧ ∀ e, (history.get? e).getD [] =
        (s.entriesOf e).drop (if e = enc then count else 0) := by
  rcases he : s.history.get? enc with _ | entries
  · refine ⟨s.history, s.historyIndex, by simp [dropVersions, he], h, fun e => ?_⟩
    by_cases hee : e = enc
    · simp [entriesOf, hee, he]
    · simp [entriesOf, hee]
  · by_cases hc : count ≥ entries.length
    · refine ⟨s.history.erase enc, (s.historyIndex.discard enc).1, by simp [dropVersions, he, hc],
        h.erase enc, fun e => ?_⟩
      rw [PyDict.get?_erase]
      by_cases hee : e = enc
      · simp [entriesOf, hee, he, hc]
      · simp [entriesOf, hee]
    · refine ⟨s.history.set enc (entries.drop count), s.historyIndex, by simp [dropVersions, he, hc],
        h.set_old (by simp [he]) (by simpa using hc), fun e => ?_⟩
      rw [PyDict.get?_set]
      by_cases hee : e = enc
      · simp [entriesOf, hee, he]
      · simp [entriesOf, hee]

theorem foldl_dropVersions_frame (items : List (Enc × Nat)) (s : VersionedStore Enc Key Val)
    (hnd : (items.map Prod.fst).Nodup) (h : HistoryOk s.historyIndex s.history) :
    ∃ history index, items.foldl (fun s (enc, count) => s.dropVersions enc count) s =
        { s with history := history, historyIndex := index } ∧
      HistoryOk index history ∧ ∀ e, (history.get? e).getD [] =
        (s.entriesOf e).drop ((PyDict.lookupItem e items).getD 0) := by
  induction items generalizing s with
  | nil => exact ⟨s.history, s.historyIndex, rfl, h, fun e => by simp [PyDict.lookupItem, entriesOf]⟩
  | cons item rest ih =>
    obtain ⟨enc, count⟩ := item
    simp only [List.map_cons, List.nodup_cons] at hnd
    obtain ⟨history, index, heq, hok, hent⟩ := dropVersions_frame s enc count h
    obtain ⟨history', index', heq', hok', hent'⟩ := ih { s with history := history, historyIndex := index }
      hnd.2 hok
    refine ⟨history', index', by simp only [List.foldl_cons, heq]; exact heq', hok', fun e => ?_⟩
    rw [hent' e]
    simp only [entriesOf] at hent ⊢
    rw [hent e]
    by_cases hee : e = enc
    · subst hee
      have hnone : PyDict.lookupItem e rest = none := (PyDict.lookupItem_eq_none e rest).2 hnd.1
      simp [hnone, PyDict.lookupItem]
    · simp [hee, Ne.symm hee, PyDict.lookupItem]

/-- `drop[enc]` counts the dropped records of `enc`. -/
theorem dropCounts_get? (records : List (Nat × Enc)) (enc : Enc) :
    ((dropCounts records).get? enc).getD 0 = (records.filter fun r => r.2 = enc).length := by
  have hgen : ∀ (records : List (Nat × Enc)) (d : PyDict Enc Nat),
      ((records.foldl (fun drop r => drop.set r.2 ((drop.get? r.2).getD 0 + 1)) d).get? enc).getD 0
        = (d.get? enc).getD 0 + (records.filter fun r => r.2 = enc).length := by
    intro records
    induction records with
    | nil => simp
    | cons r rest ih =>
      intro d
      rw [List.foldl_cons, ih, PyDict.get?_set]
      by_cases h : r.2 = enc
      · simp [h]; omega
      · simp [h, Ne.symm h]
  simpa [dropCounts] using hgen records .empty

/-- What `_trim` does to the records: each key loses the versions whose records it drops. -/
theorem trim_frame (s : VersionedStore Enc Key Val) (h : HistoryOk s.historyIndex s.history) :
    ∃ history index, s.trim = { s with
        history := history, historyIndex := index
        undoLog := s.undoLog.dropWhile (trimmable s.pins.keys.head?) } ∧
      HistoryOk index history ∧ ∀ e, (history.get? e).getD [] =
        (s.entriesOf e).drop ((s.undoLog.takeWhile (trimmable s.pins.keys.head?)).filter
          fun r => r.2 = e).length := by
  obtain ⟨history, index, heq, hok, hent⟩ := foldl_dropVersions_frame
    (dropCounts (s.undoLog.takeWhile (trimmable s.pins.keys.head?))).items
    { s with undoLog := s.undoLog.dropWhile (trimmable s.pins.keys.head?) }
    (PyDict.keys_nodup _) h
  refine ⟨history, index, heq, hok, fun e => ?_⟩
  rw [hent e, ← dropCounts_get?]
  rfl

theorem map_fst_take {A B : Type} (l : List (A × B)) (n : Nat) :
    (l.take n).map Prod.fst = (l.map Prod.fst).take n := List.map_take

theorem versions_trim {s : VersionedStore Enc Key Val} {top : Nat}
    {past : Nat → Enc → Option (Key × Val)} (h : Versions s top past) :
    Versions s.trim top past := by
  obtain ⟨history, index, heq, hok, hent⟩ := trim_frame s h.historyOk
  rw [heq]
  set keep := s.undoLog.dropWhile (trimmable s.pins.keys.head?) with hkeep
  set gone := s.undoLog.takeWhile (trimmable s.pins.keys.head?) with hgone
  have hsplit : gone ++ keep = s.undoLog := List.takeWhile_append_dropWhile
  have hlog : ∀ e, (s.entriesOf e).map Prod.fst =
      (gone.filter fun r => r.2 = e).map Prod.fst ++ (keep.filter fun r => r.2 = e).map Prod.fst := by
    intro e
    rw [← h.log e, ← hsplit, List.filter_append, List.map_append]
  have hkeepsub : keep.Sublist s.undoLog := List.dropWhile_sublist _
  refine ⟨h.live, hok.1, hok.2, fun e => ?_, h.logSorted.sublist (hkeepsub.map _),
    fun r hr => h.logTop r (hkeepsub.subset hr), fun e => ?_, h.pinsSorted, h.pinsTop,
    fun p hp e => ?_⟩
  · rw [entriesOf, hent e, List.map_drop, hlog e]
    exact (List.drop_left' (by simp)).symm
  · rw [entriesOf, hent e]
    exact (h.sorted e).sublist ((List.drop_sublist _ _).map _)
  · rw [← h.reads p hp e, getAt_eq, getAt_eq, entriesOf, hent e]
    congr 1
    -- what was dropped is no later than the oldest pin, so `p` never read it
    apply firstAfter_drop
    intro r hr
    have hfst : r.1 ∈ ((s.entriesOf e).take (gone.filter fun r => r.2 = e).length).map Prod.fst :=
      List.mem_map_of_mem hr
    rw [map_fst_take, hlog e, List.take_left' (by simp)] at hfst
    obtain ⟨q, hq, hqr⟩ := List.mem_map.1 hfst
    have htrim : trimmable s.pins.keys.head? q = true :=
      List.mem_takeWhile_imp (hgone ▸ List.mem_of_mem_filter hq)
    rcases hk : s.pins.keys with _ | ⟨f, rest⟩
    · rw [hk] at hp; simp at hp
    · have hs := h.pinsSorted
      rw [hk] at hp hs htrim
      have hfp : f ≤ p := by
        rcases List.mem_cons.1 hp with rfl | hp
        · exact le_refl _
        · exact ((List.pairwise_cons.1 hs).1 p hp).le
      have hqf : q.1 ≤ f := by simpa [trimmable] using htrim
      omega

/-! ## Commits -/

/-- The entry a staged write leaves. -/
def stagedEntry (key : Key) : Staged Val → Option (Key × Val)
  | .value v => some (key, v)
  | .DELETED => none

/-- What every step of a commit keeps besides versions: sequence, generation, pins. -/
structure SameHeader (s t : VersionedStore Enc Key Val) : Prop where
  generation : t.generation = s.generation
  seq : t.seq = s.seq
  pins : t.pins = s.pins
  deferred : t.deferred = s.deferred

/-- What `recordVersion` does: nothing, or one record at the end of the log and of the versions
    of the key, when the newest pin still reads the key live. -/
theorem recordVersion_cases (faults : FaultPoint → Enc → Bool) (seq : Nat)
    (newestPin : Option Nat) {p : Progress Enc Key Val} (enc : Enc) (old : Option (Key × Val))
    (h : HistoryOk p.store.historyIndex p.store.history) :
    ((recordVersion faults seq newestPin p enc old).1 = p ∧
      ((recordVersion faults seq newestPin p enc old).2 = none →
        newestPin = none ∨ ∃ newest c v, newestPin = some newest ∧
          (p.store.entriesOf enc).getLast? = some (c, v) ∧ newest < c)) ∨
    ((recordVersion faults seq newestPin p enc old).2 = none ∧
      ∃ history index, (recordVersion faults seq newestPin p enc old).1 =
          { p with
            store := { p.store with
              history := history, historyIndex := index
              undoLog := p.store.undoLog ++ [(seq, enc)] }
            recorded := p.recorded + 1 } ∧
        HistoryOk index history ∧
        (∀ e, (history.get? e).getD [] =
          if e = enc then p.store.entriesOf enc ++ [(seq, old)] else p.store.entriesOf e)) := by
  rcases newestPin with _ | newest
  · exact Or.inl ⟨rfl, fun _ => Or.inl rfl⟩
  · rcases he : p.store.history.get? enc with _ | entries
    · by_cases hf : faults .historyIndexAdd enc = true
      · left
        simp [recordVersion, he, hf]
      · right
        refine ⟨by simp [recordVersion, he, hf], p.store.history.set enc [(seq, old)],
          p.store.historyIndex.add enc, by simp [recordVersion, he, hf],
          h.set_new he (by simp), fun e => ?_⟩
        rw [PyDict.get?_set]
        by_cases hee : e = enc <;> simp [hee, entriesOf, he]
    · have hne := h.2 enc entries he
      obtain ⟨⟨c, v⟩, hlast⟩ := Option.ne_none_iff_exists'.1 (mt List.getLast?_eq_none_iff.1 hne)
      by_cases hc : c ≤ newest
      · right
        refine ⟨by simp [recordVersion, he, hlast, hc],
          p.store.history.set enc (entries ++ [(seq, old)]), p.store.historyIndex,
          by simp [recordVersion, he, hlast, hc], h.set_old (by simp [he]) (by simp), fun e => ?_⟩
        rw [PyDict.get?_set]
        by_cases hee : e = enc <;> simp [hee, entriesOf, he]
      · left
        refine ⟨by simp [recordVersion, he, hlast, hc], fun _ => Or.inr ⟨newest, c, v, rfl, ?_, ?_⟩⟩
        · simp [entriesOf, he, hlast]
        · omega

/-- What one turn of the commit loop does to the live state before it records. -/
theorem applyOp_cases (faults : FaultPoint → Enc → Bool) (seq : Nat) (newestPin : Option Nat)
    {p : Progress Enc Key Val} (enc : Enc) (key : Key) (value : Staged Val) [DecidableEq Key]
    (h : InStep p.store.index p.store.live) :
    ((applyOp faults seq newestPin p enc key value).1 = p ∧
      ((applyOp faults seq newestPin p enc key value).2 = none →
        stagedEntry key value = none ∧ p.store.live.get? enc = none)) ∨
    ∃ live index modified, applyOp faults seq newestPin p enc key value =
        recordVersion faults seq newestPin
          { p with
            store := { p.store with live := live, index := index }
            modified := modified
            done := p.done ++ [(enc, p.store.live.get? enc)] } enc (p.store.live.get? enc) ∧
      InStep index live ∧
      ∀ k, live.get? k = if k = enc then stagedEntry key value else p.store.live.get? k := by
  rcases value with v | _ <;> rcases ho : p.store.live.get? enc with _ | old
  · by_cases hf : faults .indexAdd enc = true
    · left
      simp [applyOp, ho, hf]
    · right
      refine ⟨p.store.live.set enc (key, v), p.store.index.add enc, p.modified,
        by simp [applyOp, ho, hf], h.set_new ho _, fun k => ?_⟩
      rw [PyDict.get?_set]
      rfl
  · right
    refine ⟨p.store.live.set enc (key, v), p.store.index, p.modified,
      by simp [applyOp, ho], h.set_old (by simp [ho]) _, fun k => ?_⟩
    rw [PyDict.get?_set]
    rfl
  · left
    simp [applyOp, ho, stagedEntry]
  · right
    refine ⟨p.store.live.erase enc, (p.store.index.discard enc).1, insert key p.modified,
      by simp [applyOp, ho], h.erase enc, fun k => ?_⟩
    rw [PyDict.get?_erase]
    rfl

theorem le_newest {pins : List Nat} (h : pins.Pairwise (· < ·)) {newest p : Nat}
    (hn : pins.getLast? = some newest) (hp : p ∈ pins) : p ≤ newest :=
  SortedKeys.le_getLast h hn hp

section Commit

variable {s : VersionedStore Enc Key Val} {seq : Nat} {past : Nat → Enc → Option (Key × Val)}
  {live : PyDict Enc (Key × Val)} {index : SortedKeys Enc} {enc : Enc}
  {new : Option (Key × Val)}

/-- Overwriting a key no open snapshot reads live needs no record. -/
theorem versions_overwrite (h : Versions s seq past) (hlive : InStep index live)
    (hget : ∀ k, live.get? k = if k = enc then new else s.live.get? k)
    (hskip : s.pins.keys.getLast? = none ∨ ∃ newest c v, s.pins.keys.getLast? = some newest ∧
      (s.entriesOf enc).getLast? = some (c, v) ∧ newest < c) :
    Versions { s with live := live, index := index } seq past := by
  refine ⟨hlive, h.hist, h.nonempty, h.log, h.logSorted, h.logTop, h.sorted, h.pinsSorted,
    h.pinsTop, fun p hp e => ?_⟩
  rw [← h.reads p hp e, getAt_eq, getAt_eq]
  change (firstAfter (s.entriesOf e) p).getD (live.get? e) = _
  rw [hget e]
  by_cases he : e = enc
  · subst he
    rcases hskip with hnone | ⟨newest, c, v, hn, hlast, hc⟩
    · rw [List.getLast?_eq_none_iff.1 hnone] at hp
      simp at hp
    · have hpn := le_newest h.pinsSorted hn hp
      obtain ⟨w, hw⟩ := Option.isSome_iff_exists.1 (firstAfter_of_last hlast (by omega : p < c))
      rw [hw]; rfl
  · rw [if_neg he]

/-- Overwriting a key after recording the value it had. -/
theorem versions_record (h : Versions s seq past) (hlive : InStep index live)
    (hget : ∀ k, live.get? k = if k = enc then new else s.live.get? k)
    (hseq : s.seq < seq) (hfresh : ∀ r ∈ s.entriesOf enc, r.1 < seq)
    {history : PyDict Enc (List (Nat × Option (Key × Val)))} {hindex : SortedKeys Enc}
    (hok : HistoryOk hindex history)
    (hent : ∀ e, (history.get? e).getD [] =
      if e = enc then s.entriesOf enc ++ [(seq, s.live.get? enc)] else s.entriesOf e) :
    Versions { s with
      live := live, index := index, history := history, historyIndex := hindex
      undoLog := s.undoLog ++ [(seq, enc)] } seq past := by
  refine ⟨hlive, hok.1, hok.2, fun e => ?_, ?_, ?_, fun e => ?_, h.pinsSorted, h.pinsTop,
    fun p hp e => ?_⟩
  · rw [entriesOf, hent e, List.filter_append, List.map_append, h.log e]
    by_cases he : e = enc
    · simp [he]
    · simp [he, Ne.symm he]
  · rw [List.map_append, List.pairwise_append]
    refine ⟨h.logSorted, by simp, fun a ha b hb => ?_⟩
    obtain ⟨r, hr, rfl⟩ := List.mem_map.1 ha
    obtain rfl : b = seq := by simpa using hb
    exact h.logTop r hr
  · intro r hr
    rcases List.mem_append.1 hr with hr | hr
    · exact h.logTop r hr
    · rw [List.mem_singleton.1 hr]
  · rw [entriesOf, hent e]
    by_cases he : e = enc
    · rw [if_pos he, List.map_append, List.pairwise_append]
      refine ⟨h.sorted enc, by simp, fun a ha b hb => ?_⟩
      obtain ⟨r, hr, rfl⟩ := List.mem_map.1 ha
      obtain rfl : b = seq := by simpa using hb
      exact hfresh r hr
    · rw [if_neg he]
      exact h.sorted e
  · rw [← h.reads p hp e, getAt_eq, getAt_eq, entriesOf, hent e]
    change (firstAfter _ p).getD (live.get? e) = _
    rw [hget e]
    by_cases he : e = enc
    · subst he
      have hp' : p < seq := lt_of_le_of_lt (h.pinsTop p hp) hseq
      rw [if_pos rfl, firstAfter_append _ _ hp']
      rfl
    · rw [if_neg he, if_neg he]

end Commit

section Loop

variable [DecidableEq Key]

/-- (PROVED) One turn of the commit loop keeps the invariant and writes one key of the live map. -/
theorem versions_applyOp {faults : FaultPoint → Enc → Bool} {seq : Nat}
    {past : Nat → Enc → Option (Key × Val)} {p : Progress Enc Key Val} {enc : Enc} (key : Key)
    (value : Staged Val) (h : Versions p.store seq past) (hseq : p.store.seq < seq)
    (hfresh : ∀ r ∈ p.store.entriesOf enc, r.1 < seq)
    (hok : (applyOp faults seq p.store.pins.keys.getLast? p enc key value).2 = none) :
    let p' := (applyOp faults seq p.store.pins.keys.getLast? p enc key value).1
    Versions p'.store seq past ∧ SameHeader p.store p'.store ∧
      (∀ k, p'.store.live.get? k =
        if k = enc then stagedEntry key value else p.store.live.get? k) ∧
      (∀ k, k ≠ enc → p'.store.entriesOf k = p.store.entriesOf k) := by
  rcases applyOp_cases faults seq p.store.pins.keys.getLast? enc key value h.live
    with ⟨heq, hsame⟩ | ⟨live, index, modified, heq, hlive, hget⟩
  · obtain ⟨hst, hold⟩ := hsame hok
    rw [heq]
    refine ⟨h, ⟨rfl, rfl, rfl, rfl⟩, fun k => ?_, fun k _ => rfl⟩
    by_cases hk : k = enc
    · rw [if_pos hk, hst, hk, hold]
    · rw [if_neg hk]
  · rw [heq] at hok ⊢
    rcases recordVersion_cases faults seq p.store.pins.keys.getLast? enc (p.store.live.get? enc)
      (p := { p with
            store := { p.store with live := live, index := index }
            modified := modified
            done := p.done ++ [(enc, p.store.live.get? enc)] }) h.historyOk
      with ⟨heq', hskip⟩ | ⟨-, history, hindex, heq', hhok, hent⟩
    · rw [heq']
      exact ⟨versions_overwrite h hlive hget (hskip hok), ⟨rfl, rfl, rfl, rfl⟩, hget,
        fun k _ => rfl⟩
    · simp only [heq']
      refine ⟨versions_record h hlive hget hseq hfresh hhok hent, ⟨rfl, rfl, rfl, rfl⟩, hget,
        fun k hk => ?_⟩
      rw [entriesOf, hent k, if_neg hk]
      rfl

/-- The map a write set makes of another. -/
def overwrite (m : Enc → Option (Key × Val)) (ops : List (Enc × Key × Staged Val)) (k : Enc) :
    Option (Key × Val) :=
  match PyDict.lookupItem k ops with
  | none => m k
  | some (key, value) => stagedEntry key value

/-- (PROVED) A commit loop that did not raise keeps the invariant and overwrites the live map with
    the write set. -/
theorem versions_applyLoop {faults : FaultPoint → Enc → Bool} {seq : Nat}
    {past : Nat → Enc → Option (Key × Val)} (newestPin : Option Nat)
    (ops : List (Enc × Key × Staged Val)) (hnd : (ops.map Prod.fst).Nodup) :
    ∀ (p : Progress Enc Key Val), Versions p.store seq past → p.store.seq < seq →
      newestPin = p.store.pins.keys.getLast? →
      (∀ enc ∈ ops.map Prod.fst, ∀ r ∈ p.store.entriesOf enc, r.1 < seq) →
      (applyLoop faults seq newestPin ops p).2 = none →
      Versions (applyLoop faults seq newestPin ops p).1.store seq past ∧
        SameHeader p.store (applyLoop faults seq newestPin ops p).1.store ∧
        ∀ k, (applyLoop faults seq newestPin ops p).1.store.live.get? k =
          overwrite p.store.live.get? ops k := by
  induction ops with
  | nil =>
    intro p h _ _ _ _
    exact ⟨h, ⟨rfl, rfl, rfl, rfl⟩, fun k => rfl⟩
  | cons op rest ih =>
    obtain ⟨enc, key, value⟩ := op
    simp only [List.map_cons, List.nodup_cons] at hnd
    intro p h hseq hpin hfresh hok
    subst hpin
    rcases hop : applyOp faults seq p.store.pins.keys.getLast? p enc key value with ⟨p', _ | fault⟩
    · have hstep := versions_applyOp key value h hseq
        (hfresh enc (by simp)) (by rw [hop])
      simp only [hop] at hstep
      obtain ⟨h', hhead, hget, hother⟩ := hstep
      simp only [applyLoop, hop] at hok ⊢
      obtain ⟨h2, hhead2, hget2⟩ := ih hnd.2 p' h' (by rw [hhead.seq]; exact hseq)
        (by rw [hhead.pins]) (fun e he r hr => by
          have hne : e ≠ enc := fun heq => hnd.1 (heq ▸ he)
          rw [hother e hne] at hr
          exact hfresh e (by simp at he ⊢; exact Or.inr he) r hr) hok
      refine ⟨h2, ⟨hhead2.generation.trans hhead.generation, hhead2.seq.trans hhead.seq,
        hhead2.pins.trans hhead.pins, hhead2.deferred.trans hhead.deferred⟩, fun k => ?_⟩
      rw [hget2 k]
      unfold overwrite
      by_cases hk : enc = k
      · subst hk
        have hnone : PyDict.lookupItem enc rest = none :=
          (PyDict.lookupItem_eq_none enc rest).2 hnd.1
        simp [PyDict.lookupItem, hnone, hget]
      · simp [PyDict.lookupItem, hk, hget, Ne.symm hk]
    · simp [applyLoop, hop] at hok

/-! ## Rollback -/

/-- Undo of the live entries, on maps: the oldest entry of each key wins. -/
def restoreMap (m : Enc → Option (Key × Val)) (done : List (Enc × Option (Key × Val))) :
    Enc → Option (Key × Val) :=
  done.foldr (fun d m => Function.update m d.1 d.2) m

/-- Undo of one version record, on a log and the versions of each key. -/
def popMap (x : List (Nat × Enc) × (Enc → List (Nat × Option (Key × Val)))) :
    List (Nat × Enc) × (Enc → List (Nat × Option (Key × Val))) :=
  match x.1.getLast? with
  | none => x
  | some (_, enc) => (x.1.dropLast, Function.update x.2 enc (x.2 enc).dropLast)

omit [DecidableEq Key] in
theorem popMap_record (log : List (Nat × Enc)) (m : Enc → List (Nat × Option (Key × Val)))
    (seq : Nat) (enc : Enc) (old : Option (Key × Val)) :
    popMap (log ++ [(seq, enc)], Function.update m enc (m enc ++ [(seq, old)])) = (log, m) := by
  simp [popMap]

/-- Undoing what a commit did so far gives back the store `s` it started from. -/
structure Rollback (s : VersionedStore Enc Key Val) (p : Progress Enc Key Val) : Prop where
  header : SameHeader s p.store
  live : InStep p.store.index p.store.live
  hist : HistoryOk p.store.historyIndex p.store.history
  liveBack : restoreMap p.store.live.get? p.done = s.live.get?
  histBack : popMap^[p.recorded] (p.store.undoLog, p.store.entriesOf) = (s.undoLog, s.entriesOf)

omit [DecidableEq Key] in
theorem rollback_start {s : VersionedStore Enc Key Val} (h : InStep s.index s.live)
    (h' : HistoryOk s.historyIndex s.history) (modified : Finset Key) :
    Rollback s ⟨s, modified, [], 0⟩ :=
  ⟨⟨rfl, rfl, rfl, rfl⟩, h, h', rfl, rfl⟩

omit [DecidableEq Key] in
theorem rollback_record {s : VersionedStore Enc Key Val} {p : Progress Enc Key Val}
    (h : Rollback s p) (faults : FaultPoint → Enc → Bool) (seq : Nat) (newestPin : Option Nat)
    (enc : Enc) (old : Option (Key × Val)) :
    Rollback s (recordVersion faults seq newestPin p enc old).1 := by
  rcases recordVersion_cases faults seq newestPin enc old h.hist
    with ⟨heq, -⟩ | ⟨-, history, index, heq, hok, hent⟩
  · rw [heq]; exact h
  · rw [heq]
    refine ⟨⟨h.header.generation, h.header.seq, h.header.pins, h.header.deferred⟩, h.live, hok,
      h.liveBack, ?_⟩
    have hfun : (fun e => (history.get? e).getD []) =
        Function.update p.store.entriesOf enc (p.store.entriesOf enc ++ [(seq, old)]) := by
      funext e
      rw [hent e, Function.update_apply]
    rw [← h.histBack, Function.iterate_succ_apply]
    congr 1
    exact (congrArg (fun m => popMap (p.store.undoLog ++ [(seq, enc)], m)) hfun).trans
      (popMap_record _ _ _ _ _)

/-- (PROVED) One turn of the commit loop, raising or not, stays undoable. -/
theorem rollback_applyOp {s : VersionedStore Enc Key Val} {p : Progress Enc Key Val}
    (h : Rollback s p) (faults : FaultPoint → Enc → Bool) (seq : Nat) (newestPin : Option Nat)
    (enc : Enc) (key : Key) (value : Staged Val) :
    Rollback s (applyOp faults seq newestPin p enc key value).1 := by
  rcases applyOp_cases faults seq newestPin enc key value h.live
    with ⟨heq, -⟩ | ⟨live, index, modified, heq, hlive, hget⟩
  · rw [heq]; exact h
  · rw [heq]
    apply rollback_record
    refine ⟨⟨h.header.generation, h.header.seq, h.header.pins, h.header.deferred⟩, hlive, h.hist,
      ?_, h.histBack⟩
    rw [← h.liveBack, restoreMap, restoreMap, List.foldr_append]
    congr 1
    funext k
    simp only [List.foldr_cons, List.foldr_nil, Function.update_apply, hget k]
    by_cases hk : k = enc <;> simp [hk]

theorem rollback_applyLoop {s : VersionedStore Enc Key Val} (faults : FaultPoint → Enc → Bool)
    (seq : Nat) (newestPin : Option Nat) (ops : List (Enc × Key × Staged Val)) :
    ∀ p : Progress Enc Key Val, Rollback s p →
      Rollback s (applyLoop faults seq newestPin ops p).1 := by
  induction ops with
  | nil => exact fun p h => h
  | cons op rest ih =>
    obtain ⟨enc, key, value⟩ := op
    intro p h
    have h' := rollback_applyOp h faults seq newestPin enc key value
    rcases hop : applyOp faults seq newestPin p enc key value with ⟨p', _ | fault⟩
    · rw [hop] at h'
      simpa only [applyLoop, hop] using ih p' h'
    · rw [hop] at h'
      simpa only [applyLoop, hop] using h'

omit [DecidableEq Key] in
theorem restoreOne_frame (s : VersionedStore Enc Key Val) (enc : Enc) (old : Option (Key × Val))
    (h : InStep s.index s.live) :
    ∃ live index, s.restoreOne enc old = { s with live := live, index := index } ∧
      InStep index live ∧ live.get? = Function.update s.live.get? enc old := by
  rcases old with _ | entry <;> rcases ho : s.live.get? enc with _ | e
  · refine ⟨s.live, s.index, by simp [restoreOne, ho], h, ?_⟩
    rw [← ho, Function.update_eq_self]
  · refine ⟨s.live.erase enc, (s.index.discard enc).1, by simp [restoreOne, ho], h.erase enc, ?_⟩
    funext k
    rw [PyDict.get?_erase, Function.update_apply]
  · refine ⟨s.live.set enc entry, s.index.add enc, by simp [restoreOne, ho], h.set_new ho _, ?_⟩
    funext k
    rw [PyDict.get?_set, Function.update_apply]
  · refine ⟨s.live.set enc entry, s.index, by simp [restoreOne, ho],
      h.set_old (by simp [ho]) _, ?_⟩
    funext k
    rw [PyDict.get?_set, Function.update_apply]

omit [DecidableEq Key] in
theorem foldl_restoreOne_frame (done : List (Enc × Option (Key × Val)))
    (s : VersionedStore Enc Key Val) (h : InStep s.index s.live) :
    ∃ live index, done.reverse.foldl (fun s (enc, old) => s.restoreOne enc old) s =
        { s with live := live, index := index } ∧
      InStep index live ∧ live.get? = restoreMap s.live.get? done := by
  induction done with
  | nil => exact ⟨s.live, s.index, rfl, h, rfl⟩
  | cons d rest ih =>
    obtain ⟨live, index, heq, hstep, hget⟩ := ih
    obtain ⟨live', index', heq', hstep', hget'⟩ :=
      restoreOne_frame { s with live := live, index := index } d.1 d.2 hstep
    refine ⟨live', index', ?_, hstep', ?_⟩
    · rw [List.reverse_cons, List.foldl_append, heq]
      exact heq'
    · rw [hget', hget]
      rfl

omit [DecidableEq Key] in
theorem popRecord_frame (s : VersionedStore Enc Key Val) (h : HistoryOk s.historyIndex s.history) :
    ∃ history index log, s.popRecord = { s with
        history := history, historyIndex := index, undoLog := log } ∧
      HistoryOk index history ∧
      (log, fun e => (history.get? e).getD []) = popMap (s.undoLog, s.entriesOf) := by
  rcases hl : s.undoLog.getLast? with _ | ⟨c, enc⟩
  · refine ⟨s.history, s.historyIndex, s.undoLog, by simp [popRecord, hl], h, ?_⟩
    simp only [popMap, hl]
    rfl
  · rcases he : s.history.get? enc with _ | entries
    · refine ⟨s.history, s.historyIndex, s.undoLog.dropLast, by simp [popRecord, hl, he], h, ?_⟩
      have hnil : s.entriesOf enc = [] := by simp [entriesOf, he]
      have hsame : Function.update s.entriesOf enc [] = s.entriesOf := by
        rw [← hnil, Function.update_eq_self]
      simp only [popMap, hl, hnil, List.dropLast_nil, hsame]
      rfl
    · by_cases hd : entries.dropLast = []
      · refine ⟨s.history.erase enc, (s.historyIndex.discard enc).1, s.undoLog.dropLast,
          by simp [popRecord, hl, he, hd], h.erase enc, ?_⟩
        simp only [popMap, hl, Prod.mk.injEq, true_and]
        funext e
        rw [PyDict.get?_erase, Function.update_apply]
        by_cases hee : e = enc <;> simp [hee, entriesOf, he, hd]
      · refine ⟨s.history.set enc entries.dropLast, s.historyIndex, s.undoLog.dropLast,
          by simp [popRecord, hl, he, hd], h.set_old (by simp [he]) hd, ?_⟩
        simp only [popMap, hl, Prod.mk.injEq, true_and]
        funext e
        rw [PyDict.get?_set, Function.update_apply]
        by_cases hee : e = enc <;> simp [hee, entriesOf, he]

omit [DecidableEq Key] in
theorem iterate_popRecord_frame (n : Nat) (s : VersionedStore Enc Key Val)
    (h : HistoryOk s.historyIndex s.history) :
    ∃ history index log, popRecord^[n] s = { s with
        history := history, historyIndex := index, undoLog := log } ∧
      HistoryOk index history ∧
      (log, fun e => (history.get? e).getD []) = popMap^[n] (s.undoLog, s.entriesOf) := by
  induction n generalizing s with
  | zero => exact ⟨s.history, s.historyIndex, s.undoLog, rfl, h, rfl⟩
  | succ n ih =>
    obtain ⟨history, index, log, heq, hok, hmap⟩ := popRecord_frame s h
    obtain ⟨history', index', log', heq', hok', hmap'⟩ :=
      ih { s with history := history, historyIndex := index, undoLog := log } hok
    refine ⟨history', index', log', by rw [Function.iterate_succ_apply, heq, heq'], hok', ?_⟩
    rw [hmap', Function.iterate_succ_apply, ← hmap]
    rfl

omit [DecidableEq Key] in
/-- (PROVED) `_undo` gives back the live map, the versions and the log the commit started from. -/
theorem versions_undo {s : VersionedStore Enc Key Val} {top : Nat}
    {past : Nat → Enc → Option (Key × Val)} (hs : Versions s top past)
    {p : Progress Enc Key Val} (h : Rollback s p) :
    let t := p.store.undo p.done p.recorded
    Versions t top past ∧ SameHeader s t ∧ t.live.get? = s.live.get? := by
  obtain ⟨live, index, heq, hlive, hget⟩ := foldl_restoreOne_frame p.done p.store h.live
  obtain ⟨history, hindex, log, heq', hok, hmap⟩ := iterate_popRecord_frame p.recorded
    { p.store with live := live, index := index } h.hist
  have hundo : p.store.undo p.done p.recorded = { p.store with
      live := live, index := index, history := history, historyIndex := hindex, undoLog := log } := by
    rw [undo, heq, heq']
  have hmap2 : (log, fun e => (history.get? e).getD []) = (s.undoLog, s.entriesOf) :=
    hmap.trans h.histBack
  have hlog : log = s.undoLog := congrArg Prod.fst hmap2
  have hent : ∀ e, (history.get? e).getD [] = s.entriesOf e := congrFun (congrArg Prod.snd hmap2)
  have hl : live.get? = s.live.get? := hget.trans h.liveBack
  simp only [hundo]
  refine ⟨⟨hlive, hok.1, hok.2, fun e => ?_, by rw [hlog]; exact hs.logSorted,
    by rw [hlog]; exact hs.logTop, fun e => ?_, by rw [h.header.pins]; exact hs.pinsSorted,
    fun q hq => ?_, fun q hq e => ?_⟩,
    ⟨h.header.generation, h.header.seq, h.header.pins, h.header.deferred⟩, hl⟩
  · rw [entriesOf, hent e, hlog]; exact hs.log e
  · rw [entriesOf, hent e]; exact hs.sorted e
  · rw [h.header.seq]
    exact hs.pinsTop q (h.header.pins ▸ hq)
  · rw [getAt_eq, entriesOf, hent e]
    change (firstAfter _ q).getD (live.get? e) = _
    rw [hl, ← getAt_eq]
    exact hs.reads q (h.header.pins ▸ hq) e

end Loop

end VersionedStore

end Virtuals.Mem
