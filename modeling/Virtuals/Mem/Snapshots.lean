/-
  Snapshot reads of `VersionedStore` over whole runs.

  `World` runs the store next to what the store is for: the live map that the
  successful commits made, and for every pin not yet released the live map at the
  moment it was taken. `snapshot_reads`: after any run of pins, releases, commits
  (raising or not) and resets, every open pin reads exactly its map, key by key and
  page by page.
-/
import Virtuals.Mem.StoreInv

namespace Virtuals.Mem

open ScanOrder

namespace VersionedStore

variable {Enc Key Val : Type} [LinearOrder Enc]

/-! ## Pages as of a sequence -/

/-- The rows of the live map, page by page. -/
theorem page_eq_take {s : VersionedStore Enc Key Val} (h : InStep s.index s.live)
    (bound : Option Enc) (inclusive reverse : Bool) (n : Nat) (stop : Option Enc) :
    ∃ rows, IsListing reverse (InRange reverse bound inclusive stop) s.live.get? rows ∧
      s.page bound inclusive reverse n stop = rows.take n := by
  refine ⟨rowsOf s.live.get? (s.index.keysInRange bound inclusive reverse stop),
    isListing_rowsOf (SortedKeys.keysInRange_sorted h.1 _ _ _ _) fun k hk => ?_, ?_⟩
  · rw [SortedKeys.mem_keysInRange, h.2, and_iff_right hk]
  · rw [page, SortedKeys.page_eq h.1]
    exact rowsOf_take (fun k hk => (h.2 k).1 (SortedKeys.mem_keysInRange.1 hk).1) n

/-- The overlay a snapshot reads: the versions of the keys that have any. -/
def versionsAt (s : VersionedStore Enc Key Val) (seq : Nat) (enc : Enc) :
    Option (Version (Key × Val)) :=
  (s.history.get? enc).map fun _ => s.versionAt enc seq

theorem overlaid_versionsAt (s : VersionedStore Enc Key Val) (seq : Nat) :
    overlaid s.live.get? (s.versionsAt seq) = fun enc => s.getAt enc seq := by
  funext enc
  unfold overlaid versionsAt getAt
  rcases he : s.history.get? enc with _ | entries
  · simp [versionAt, he]
  · simp only [Option.map_some]
    rcases s.versionAt enc seq with e | _ | _ <;> rfl

/-- The keys a page of the store can name. -/
def knownKeys (s : VersionedStore Enc Key Val) : Finset Enc :=
  (s.index.toList ++ s.historyIndex.toList).toFinset

theorem card_knownKeys_le {s : VersionedStore Enc Key Val} (h : s.index.WF)
    (h' : s.historyIndex.WF) : s.knownKeys.card ≤ s.index.len + s.historyIndex.len := by
  refine (List.toFinset_card_le _).trans ?_
  rw [List.length_append, h.len, h'.len]

/-- (PROVED) `page_at` keeps the page contract for the map `get_at` reads at that sequence. -/
theorem pageAt_isPage {s : VersionedStore Enc Key Val} (h : InStep s.index s.live)
    (h' : InStep s.historyIndex s.history) (seq : Nat) (bound : Option Enc)
    (inclusive reverse : Bool) {n : Nat} (hn : 0 < n) (stop : Option Enc) :
    IsPage reverse (InRange reverse bound inclusive stop) (fun enc => s.getAt enc seq)
      (· ∈ s.knownKeys) (s.pageAt seq bound inclusive reverse n stop) := by
  obtain ⟨rows, hrows, hpage⟩ := page_eq_take h bound inclusive reverse n stop
  have hknown : ∀ k, (s.live.get? k).isSome → k ∈ s.knownKeys := fun k hk => by
    simp [knownKeys, (h.2 k).2 hk]
  by_cases hemp : s.history.items = []
  · have hlive : (fun enc => s.getAt enc seq) = s.live.get? := by
      funext enc
      have hnone : s.history.get? enc = none := by simp [PyDict.get?_eq_none, PyDict.keys, hemp]
      simp [getAt, versionAt, hnone]
    have := isPage_take hrows hn hknown
    rw [hlive, pageAt, if_pos hemp, hpage]
    exact this
  · have hentries : IsListing reverse (InRange reverse bound inclusive stop) (s.versionsAt seq)
        (rowsOf (s.versionsAt seq) (s.historyIndex.keysInRange bound inclusive reverse stop)) := by
      refine isListing_rowsOf (SortedKeys.keysInRange_sorted h'.1 _ _ _ _) fun k hk => ?_
      rw [SortedKeys.mem_keysInRange, h'.2, and_iff_right]
      simpa [versionsAt] using hk
    have hpresent : ∀ k ∈ s.historyIndex.keysInRange bound inclusive reverse stop,
        (s.versionsAt seq k).isSome := fun k hk => by
      simpa [versionsAt] using (h'.2 k).1 (SortedKeys.mem_keysInRange.1 hk).1
    have hoverlay : (s.historyIndex.page bound inclusive reverse n stop).map
        (fun e => (e, s.versionAt e seq)) =
        (rowsOf (s.versionsAt seq)
          (s.historyIndex.keysInRange bound inclusive reverse stop)).take n := by
      rw [SortedKeys.page_eq h'.1, ← rowsOf_take hpresent]
      unfold rowsOf
      rw [← List.filterMap_eq_map]
      refine List.filterMap_congr fun k hk => ?_
      obtain ⟨v, hv⟩ := Option.isSome_iff_exists.1 (hpresent k (List.mem_of_mem_take hk))
      have : v = s.versionAt k seq := by
        rcases he : s.history.get? k with _ | es
        · simp [versionsAt, he] at hv
        · simpa [versionsAt, he, eq_comm] using hv
      simp [hv, this]
    have hmerge := mergePages_isPage hn hrows hentries hknown fun k hk => by
      have : (s.history.get? k).isSome := by simpa [versionsAt] using hk
      simp [knownKeys, (h'.2 k).2 this]
    rw [overlaid_versionsAt] at hmerge
    simp only [pageAt, if_neg hemp, hpage, hoverlay]
    exact hmerge

/-- (PROVED) The pages read at a sequence, of any size and in either direction, concatenate to the
    listing of what `get_at` reads at it. -/
theorem readAll_pageAt {s : VersionedStore Enc Key Val} (h : InStep s.index s.live)
    (h' : InStep s.historyIndex s.history) (seq : Nat) (bound : Option Enc)
    (inclusive reverse : Bool) {n : Nat} (hn : 0 < n) (stop : Option Enc) {fuel : Nat}
    (hfuel : s.index.len + s.historyIndex.len < fuel) :
    ∃ rows, readAll (fun b i => s.pageAt seq b i reverse n stop) fuel bound inclusive = some rows ∧
      IsListing reverse (InRange reverse bound inclusive stop) (fun enc => s.getAt enc seq) rows := by
  refine readAll_isListing (fun b i => pageAt_isPage h h' seq b i reverse hn stop) fuel bound
    inclusive ?_
  refine lt_of_le_of_lt (Finset.card_filter_le _ _) ?_
  exact lt_of_le_of_lt (card_knownKeys_le h.1 h'.1) hfuel

/-! ## One commit -/

section Apply

variable [DecidableEq Key]

omit [DecidableEq Key] in
/-- The store a commit starts writing to: deferred releases applied first. -/
theorem versions_settle {s : VersionedStore Enc Key Val} {top : Nat}
    {past : Nat → Enc → Option (Key × Val)} (h : Versions s top past) :
    let t := if s.deferred = [] then s else s.drain.trim
    Versions t top past ∧ t.generation = s.generation ∧ t.seq = s.seq ∧ t.live = s.live ∧
      t.deferred = [] ∧ t.pins.keys.Sublist s.pins.keys ∧
      ∀ q, (t.pins.get? q).getD 0 =
        (s.pins.get? q).getD 0 - s.deferred.count (s.generation, q) := by
  intro t
  by_cases hd : s.deferred = []
  · have ht : t = s := if_pos hd
    rw [ht]
    exact ⟨h, rfl, rfl, rfl, hd, List.Sublist.refl _, by simp [hd]⟩
  · have ht : t = s.drain.trim := if_neg hd
    rw [ht]
    have hdr := versions_drain h
    refine ⟨versions_trim hdr, ?_⟩
    obtain ⟨pins, heq, hsub, hcount⟩ := drain_frame s
    obtain ⟨history, index, heq', -, -⟩ := trim_frame s.drain hdr.historyOk
    rw [heq', heq]
    exact ⟨rfl, rfl, rfl, rfl, hsub, hcount⟩

/-- A commit whose loop ends without a fault. -/
theorem apply_written {s t : VersionedStore Enc Key Val} {ops : PyDict Enc (Key × Staged Val)}
    {modified : Finset Key} {faults : FaultPoint → Enc → Bool} {p : Progress Enc Key Val}
    (ht : (if s.deferred = [] then s else s.drain.trim) = t)
    (hloop : applyLoop faults (t.seq + 1) t.pins.keys.getLast? ops.items ⟨t, modified, [], 0⟩ =
      (p, none)) :
    s.apply ops modified s.generation faults =
      ({ p.store with seq := t.seq + 1 }, p.modified, .ok (t.seq + 1)) := by
  rw [apply, if_neg (not_not_intro rfl)]
  simp only [ht, hloop]

/-- A commit whose loop raises takes its changes back. -/
theorem apply_raised {s t : VersionedStore Enc Key Val} {ops : PyDict Enc (Key × Staged Val)}
    {modified : Finset Key} {faults : FaultPoint → Enc → Bool} {p : Progress Enc Key Val}
    {fault : FaultPoint} (ht : (if s.deferred = [] then s else s.drain.trim) = t)
    (hloop : applyLoop faults (t.seq + 1) t.pins.keys.getLast? ops.items ⟨t, modified, [], 0⟩ =
      (p, some fault)) :
    s.apply ops modified s.generation faults =
      (p.store.undo p.done p.recorded, p.modified, .error (.raised fault)) := by
  rw [apply, if_neg (not_not_intro rfl)]
  simp only [ht, hloop]

/-- What a commit does: refused, taken back, or written as a whole at the next sequence. -/
theorem apply_cases {s : VersionedStore Enc Key Val} {past : Nat → Enc → Option (Key × Val)}
    (h : Versions s s.seq past) (ops : PyDict Enc (Key × Staged Val)) (modified : Finset Key)
    (generation : Nat) (faults : FaultPoint → Enc → Bool) :
    let r := s.apply ops modified generation faults
    (r.1 = s ∧ r.2.2 = .error .StorageClosedError) ∨
    (r.1.generation = s.generation ∧ r.1.deferred = [] ∧ r.1.pins.keys.Sublist s.pins.keys ∧
      (∀ q, (r.1.pins.get? q).getD 0 =
        (s.pins.get? q).getD 0 - s.deferred.count (s.generation, q)) ∧
      ((∃ fault, r.2.2 = .error (.raised fault) ∧ r.1.seq = s.seq ∧
          r.1.live.get? = s.live.get? ∧ Versions r.1 s.seq past) ∨
        (r.2.2 = .ok (s.seq + 1) ∧ r.1.seq = s.seq + 1 ∧
          r.1.live.get? = overwrite s.live.get? ops.items ∧ Versions r.1 (s.seq + 1) past))) := by
  by_cases hg : generation = s.generation
  · subst hg
    right
    obtain ⟨ht, hgen, hseq, hlive, hdef, hsub, hpins⟩ := versions_settle h
    set t := if s.deferred = [] then s else s.drain.trim with htdef
    set start : Progress Enc Key Val := ⟨t, modified, [], 0⟩ with hstart
    have htop : Versions t (t.seq + 1) past :=
      { ht with logTop := fun r hr => by have := ht.logTop r hr; omega }
    have hroll := rollback_applyLoop faults (t.seq + 1) t.pins.keys.getLast? ops.items start
      (rollback_start ht.live ht.historyOk modified)
    rcases hloop : applyLoop faults (t.seq + 1) t.pins.keys.getLast? ops.items start
      with ⟨p, _ | fault⟩
    · rw [apply_written htdef.symm hloop]
      obtain ⟨hv, hhead, hget⟩ := versions_applyLoop t.pins.keys.getLast? ops.items ops.nodup start htop (Nat.lt_succ_self _) rfl
        (fun enc _ r hr => by
          have := ht.entries_le enc r hr
          have : start.store.seq = s.seq := hseq
          omega) (by rw [hloop])
      rw [hloop] at hv hhead hget
      refine ⟨hhead.generation.trans hgen, hhead.deferred.trans hdef,
        by rw [← hhead.pins] at hsub; exact hsub,
        fun q => by rw [← hpins q]; exact congrArg (fun d => (PyDict.get? d q).getD 0) hhead.pins,
        Or.inr ⟨by rw [hseq], by rw [hseq], funext fun k => (hget k).trans ?_, ?_⟩⟩
      · simp only [hstart, hlive]
      · rw [← hseq]
        exact { hv with
          pinsTop := fun q hq => by
            have := hv.pinsTop q hq
            rw [hhead.seq] at this
            exact this.trans (Nat.le_succ _) }
    · rw [apply_raised htdef.symm hloop]
      rw [hloop] at hroll
      obtain ⟨hv, hhead, hget⟩ := versions_undo ht hroll
      refine ⟨hhead.generation.trans hgen, hhead.deferred.trans hdef,
        by rw [← hhead.pins] at hsub; exact hsub,
        fun q => by rw [← hpins q]; exact congrArg (fun d => (PyDict.get? d q).getD 0) hhead.pins,
        Or.inl ⟨fault, rfl, hhead.seq.trans hseq, hget.trans (by rw [hlive]), hv⟩⟩
  · left
    simp [apply, hg]

end Apply

/-! ## Runs -/

/-- An open pin, with the live map as it was when the pin was taken. -/
structure Pin (Enc Key Val : Type) where
  token : Nat × Nat
  map : Enc → Option (Key × Val)

/-- The store next to what it is for: the live map the successful commits made, and the pins of
    the current generation not yet released. -/
structure World (Enc Key Val : Type) where
  store : VersionedStore Enc Key Val
  map : Enc → Option (Key × Val)
  pins : List (Pin Enc Key Val)

/-- One call on the store. -/
inductive Op (Enc Key Val : Type) where
  | pin
  | unpin (token : Nat × Nat)
  | unpinLater (token : Nat × Nat)
  | apply (ops : PyDict Enc (Key × Staged Val)) (modified : Finset Key) (generation : Nat)
      (faults : FaultPoint → Enc → Bool)
  | reset

namespace World

/-- Nothing stored, nothing pinned. -/
def start : World Enc Key Val := ⟨.new, fun _ => none, []⟩

/-- The pins left when one with `token` is released. -/
def dropPin (pins : List (Pin Enc Key Val)) (token : Nat × Nat) : List (Pin Enc Key Val) :=
  pins.eraseP fun p => p.token = token

variable [DecidableEq Key]

/-- One step: the call on the store, and what it means for the maps. A commit that raised leaves
    them as they were. -/
def step (w : World Enc Key Val) : Op Enc Key Val → World Enc Key Val
  | .pin => ⟨w.store.pin.1, w.map, w.pins ++ [⟨w.store.pin.2, w.map⟩]⟩
  | .unpin token => ⟨w.store.unpin token, w.map, dropPin w.pins token⟩
  | .unpinLater token => ⟨w.store.unpinLater token, w.map, dropPin w.pins token⟩
  | .apply ops modified generation faults =>
    let r := w.store.apply ops modified generation faults
    ⟨r.1, match r.2.2 with
      | .ok _ => overwrite w.map ops.items
      | .error _ => w.map, w.pins⟩
  | .reset => ⟨w.store.reset, fun _ => none, []⟩

/-- The state after a run of calls. -/
def run (ops : List (Op Enc Key Val)) : World Enc Key Val := ops.foldl step start

/-- How many open pins hold the token `(generation, q)`. -/
def openCount (w : World Enc Key Val) (q : Nat) : Nat :=
  w.pins.countP fun p => p.token = (w.store.generation, q)

omit [LinearOrder Enc] [DecidableEq Key] in
theorem countP_dropPin (pins : List (Pin Enc Key Val)) (token token' : Nat × Nat) :
    (dropPin pins token).countP (fun p => p.token = token') =
      pins.countP (fun p => p.token = token') - (if token = token' then 1 else 0) := by
  induction pins with
  | nil => simp [dropPin]
  | cons p rest ih =>
    unfold dropPin at ih ⊢
    by_cases hp : p.token = token
    · rw [List.eraseP_cons_of_pos (by simpa using hp)]
      by_cases ht : token = token'
      · simp [hp, ht]
      · simp [hp, ht]
    · rw [List.eraseP_cons_of_neg (by simpa using hp), List.countP_cons, List.countP_cons, ih]
      by_cases ht : token = token'
      · subst ht
        simp [hp]
      · simp [ht]

/-- What every reachable state keeps. -/
structure Inv (w : World Enc Key Val) : Prop where
  versions : ∃ past, Versions w.store w.store.seq past ∧ past w.store.seq = w.map ∧
    ∀ p ∈ w.pins, p.map = past p.token.2
  live : w.store.live.get? = w.map
  tokens : ∀ p ∈ w.pins, p.token.1 = w.store.generation
  counts : ∀ q, w.openCount q = (w.store.pins.get? q).getD 0 -
    w.store.deferred.count (w.store.generation, q)

omit [DecidableEq Key] in
theorem Inv.pinned {w : World Enc Key Val} (h : Inv w) {p : Pin Enc Key Val} (hp : p ∈ w.pins) :
    p.token.2 ∈ w.store.pins.keys := by
  have hpos : 0 < w.openCount p.token.2 := by
    rw [openCount, List.countP_pos_iff]
    exact ⟨p, hp, by simp [← h.tokens p hp]⟩
  rw [h.counts] at hpos
  rw [PyDict.mem_keys]
  rcases hg : w.store.pins.get? p.token.2 with _ | c
  · simp [hg] at hpos
  · rfl

omit [DecidableEq Key] in
theorem inv_start : Inv (start : World Enc Key Val) :=
  ⟨⟨fun _ _ => none, versions_new _, rfl, by simp [start]⟩, rfl, by simp [start],
    by simp [start, openCount, new]⟩

omit [LinearOrder Enc] [DecidableEq Key] in
theorem mem_of_dropPin {pins : List (Pin Enc Key Val)} {token : Nat × Nat} {p : Pin Enc Key Val}
    (h : p ∈ dropPin pins token) : p ∈ pins := List.mem_of_mem_eraseP h

theorem inv_pin {w : World Enc Key Val} (h : Inv w) : Inv (w.step .pin) := by
  obtain ⟨past, hv, hpast, hmaps⟩ := h.versions
  obtain ⟨pins, heq, hsub, hcount⟩ := drain_frame w.store
  have hdr := versions_drain hv
  rw [heq] at hdr
  have hpin : w.store.pin = ({ w.store with
      pins := pins.set w.store.seq ((pins.get? w.store.seq).getD 0 + 1), deferred := [] },
      (w.store.generation, w.store.seq)) := by
    simp only [pin, heq]
  have hlive : ∀ enc, w.store.getAt enc w.store.seq = past w.store.seq enc := by
    intro enc
    rw [getAt_eq, firstAfter_of_le (hv.entries_le enc), hpast, ← h.live]
    rfl
  refine ⟨⟨past, ?_, ?_, ?_⟩, ?_, ?_, ?_⟩
  · simp only [step, hpin]
    refine { hdr with
      pinsSorted := ?_
      pinsTop := fun q hq => ?_
      reads := fun q hq enc => ?_ }
    · simp only [PyDict.keys_set]
      split_ifs with hin
      · exact hdr.pinsSorted
      · refine List.pairwise_append.2 ⟨hdr.pinsSorted, by simp, fun a ha b hb => ?_⟩
        obtain rfl : b = w.store.seq := by simpa using hb
        have ha' : a ∈ pins.keys := ha
        exact lt_of_le_of_ne (hdr.pinsTop a ha') fun he => hin (he ▸ ha')
    · simp only [PyDict.keys_set] at hq
      split_ifs at hq with hin
      · exact hdr.pinsTop q hq
      · rcases List.mem_append.1 hq with hq | hq
        · exact hdr.pinsTop q hq
        · exact (List.mem_singleton.1 hq).le
    · simp only [PyDict.keys_set] at hq
      have hq' : q ∈ pins.keys ∨ q = w.store.seq := by
        split_ifs at hq with hin
        · exact Or.inl hq
        · simpa using hq
      rcases hq' with hq' | rfl
      · exact hdr.reads q hq' enc
      · exact hlive enc
  · simp only [step, hpin]
    exact hpast
  · intro p hp
    simp only [step, hpin] at hp
    rcases List.mem_append.1 hp with hp | hp
    · exact hmaps p hp
    · rw [List.mem_singleton.1 hp]
      exact hpast.symm
  · simp only [step, hpin]
    exact h.live
  · intro p hp
    simp only [step, hpin] at hp ⊢
    rcases List.mem_append.1 hp with hp | hp
    · exact h.tokens p hp
    · rw [List.mem_singleton.1 hp]
  · intro q
    have hold := h.counts q
    simp only [openCount] at hold
    simp only [openCount, step, hpin, List.countP_append, hold, PyDict.get?_set, List.count_nil]
    by_cases hq : q = w.store.seq
    · subst hq
      simp [hcount]
    · simp [hq, Ne.symm hq, hcount]

/-- Releasing a pin, now: the invariant and the pins left. -/
theorem inv_unpin {w : World Enc Key Val} (h : Inv w) (token : Nat × Nat) :
    Inv (w.step (.unpin token)) := by
  obtain ⟨past, hv, hpast, hmaps⟩ := h.versions
  have hrel := versions_release hv token
  have hdr := versions_drain hrel
  obtain ⟨pins, heq, -, hcount⟩ := release_frame w.store token
  obtain ⟨pins', heq', -, hcount'⟩ := drain_frame (w.store.release token)
  obtain ⟨history, index, heq'', -, -⟩ := trim_frame _ hdr.historyOk
  have hunpin : w.store.unpin token = { w.store with
      pins := pins', deferred := [], history := history, historyIndex := index
      undoLog := w.store.undoLog.dropWhile (trimmable pins'.keys.head?) } := by
    rw [unpin, heq'', heq', heq]
  refine ⟨⟨past, ?_, ?_, fun p hp => hmaps p (mem_of_dropPin hp)⟩, ?_, ?_, fun q => ?_⟩
  · have : (w.store.unpin token).seq = w.store.seq := by rw [hunpin]
    simp only [step, this]
    exact versions_trim hdr
  · simp only [step, hunpin]
    exact hpast
  · simp only [step, hunpin]
    exact h.live
  · intro p hp
    simp only [step, hunpin]
    exact h.tokens p (mem_of_dropPin hp)
  · have hold := h.counts q
    simp only [openCount] at hold
    simp only [openCount, step, hunpin, countP_dropPin, hold, hcount', heq, hcount, List.count_nil]
    omega

omit [LinearOrder Enc] [DecidableEq Key] in
/-- Only a reset moves the generation. -/
theorem pin_generation (s : VersionedStore Enc Key Val) :
    s.pin.1.generation = s.generation ∧ s.pin.2 = (s.generation, s.seq) := by
  obtain ⟨pins, heq, -⟩ := drain_frame s
  simp only [pin, heq, and_self]

omit [DecidableEq Key] in
theorem Inv.unpin_generation {w : World Enc Key Val} (h : Inv w) (token : Nat × Nat) :
    (w.store.unpin token).generation = w.store.generation := by
  obtain ⟨past, hv, -⟩ := h.versions
  obtain ⟨pins, heq, -⟩ := release_frame w.store token
  obtain ⟨pins', heq', -⟩ := drain_frame (w.store.release token)
  obtain ⟨history, index, heq'', -⟩ :=
    trim_frame _ (versions_drain (versions_release hv token)).historyOk
  rw [unpin, heq'', heq', heq]

theorem inv_unpinLater {w : World Enc Key Val} (h : Inv w) (token : Nat × Nat) :
    Inv (w.step (.unpinLater token)) := by
  obtain ⟨past, hv, hpast, hmaps⟩ := h.versions
  refine ⟨⟨past, ?_, hpast, fun p hp => hmaps p (mem_of_dropPin hp)⟩, h.live,
    fun p hp => h.tokens p (mem_of_dropPin hp), fun q => ?_⟩
  · exact hv.of_pins rfl rfl rfl rfl rfl rfl (List.Sublist.refl _)
  · have hold := h.counts q
    change (dropPin w.pins token).countP (fun p => p.token = (w.store.generation, q)) =
      (w.store.pins.get? q).getD 0 - (w.store.deferred ++ [token]).count (w.store.generation, q)
    rw [countP_dropPin, ← openCount, hold, List.count_append, List.count_singleton]
    simp only [beq_iff_eq]
    omega

theorem inv_apply {w : World Enc Key Val} (h : Inv w) (ops : PyDict Enc (Key × Staged Val))
    (modified : Finset Key) (generation : Nat) (faults : FaultPoint → Enc → Bool) :
    Inv (w.step (.apply ops modified generation faults)) := by
  obtain ⟨past, hv, hpast, hmaps⟩ := h.versions
  rcases apply_cases hv ops modified generation faults with
    ⟨hs, hr⟩ | ⟨hgen, hdef, hsub, hpins, ⟨fault, hr, hseq, hlive, hv'⟩ | ⟨hr, hseq, hlive, hv'⟩⟩
  · have : w.step (.apply ops modified generation faults) = w := by
      simp only [step, hs, hr]
    rw [this]
    exact h
  · have hstep : w.step (.apply ops modified generation faults) =
        ⟨(w.store.apply ops modified generation faults).1, w.map, w.pins⟩ := by
      simp only [step, hr]
    rw [hstep]
    refine ⟨⟨past, by simpa only [hseq] using hv', by simpa only [hseq] using hpast, hmaps⟩,
      hlive.trans h.live, fun p hp => (h.tokens p hp).trans hgen.symm, fun q => ?_⟩
    have hold := h.counts q
    simp only [openCount] at hold
    simp only [openCount, hgen, hold, hpins, hdef, List.count_nil, Nat.sub_zero]
  · have hstep : w.step (.apply ops modified generation faults) =
        ⟨(w.store.apply ops modified generation faults).1, overwrite w.map ops.items, w.pins⟩ := by
      simp only [step, hr]
    rw [hstep]
    -- the new sequence gets the new live map; every pinned one is older
    have hlt : ∀ q ∈ w.store.pins.keys, q ≠ w.store.seq + 1 := fun q hq => by
      have := hv.pinsTop q hq
      omega
    refine ⟨⟨Function.update past (w.store.seq + 1) (overwrite w.map ops.items), ?_, ?_, ?_⟩,
      hlive.trans (by rw [h.live]), fun p hp => (h.tokens p hp).trans hgen.symm, fun q => ?_⟩
    · simp only [hseq]
      refine { hv' with reads := fun q hq enc => ?_ }
      rw [Function.update_of_ne (hlt q (hsub.subset hq))]
      exact hv'.reads q hq enc
    · simp only [hseq, Function.update_self]
    · intro p hp
      rw [Function.update_of_ne (hlt _ (h.pinned hp))]
      exact hmaps p hp
    · have hold := h.counts q
      simp only [openCount] at hold
      simp only [openCount, hgen, hold, hpins, hdef, List.count_nil, Nat.sub_zero]

omit [DecidableEq Key] in
theorem inv_reset (w : World Enc Key Val) : Inv (⟨w.store.reset, fun _ => none, []⟩ :
    World Enc Key Val) :=
  ⟨⟨fun _ _ => none, (versions_new _).of_pins rfl rfl rfl rfl rfl rfl (List.Sublist.refl _), rfl,
    by simp⟩, rfl, by simp, by simp [openCount, reset, new]⟩

theorem inv_step {w : World Enc Key Val} (h : Inv w) (op : Op Enc Key Val) : Inv (w.step op) := by
  cases op with
  | pin => exact inv_pin h
  | unpin token => exact inv_unpin h token
  | unpinLater token => exact inv_unpinLater h token
  | apply ops modified generation faults => exact inv_apply h ops modified generation faults
  | reset => exact inv_reset w

theorem inv_foldl (ops : List (Op Enc Key Val)) {w : World Enc Key Val} (h : Inv w) :
    Inv (ops.foldl step w) := by
  induction ops generalizing w with
  | nil => exact h
  | cons op rest ih => exact ih (inv_step h op)

theorem inv_run (ops : List (Op Enc Key Val)) : Inv (run ops : World Enc Key Val) :=
  inv_foldl ops inv_start

omit [DecidableEq Key] in
theorem Inv.getAt {w : World Enc Key Val} (h : Inv w) {p : Pin Enc Key Val} (hp : p ∈ w.pins)
    (enc : Enc) : w.store.getAt enc p.token.2 = p.map enc := by
  obtain ⟨past, hv, -, hmaps⟩ := h.versions
  rw [hv.reads _ (h.pinned hp) enc, hmaps p hp]

omit [DecidableEq Key] in
/-- Every page an open pin reads is a page of the live map it was taken at. -/
theorem Inv.pageAt {w : World Enc Key Val} (h : Inv w) {p : Pin Enc Key Val} (hp : p ∈ w.pins)
    (bound : Option Enc) (inclusive reverse : Bool) {n : Nat} (hn : 0 < n) (stop : Option Enc) :
    IsPage reverse (InRange reverse bound inclusive stop) p.map (· ∈ w.store.knownKeys)
      (w.store.pageAt p.token.2 bound inclusive reverse n stop) := by
  obtain ⟨past, hv, -, -⟩ := h.versions
  have := pageAt_isPage hv.live hv.hist p.token.2 bound inclusive reverse hn stop
  rwa [show (fun enc => w.store.getAt enc p.token.2) = p.map from funext (h.getAt hp)] at this

omit [LinearOrder Enc] [DecidableEq Key] in
theorem dropPin_of_not_mem {pins : List (Pin Enc Key Val)} {token : Nat × Nat}
    (h : ∀ p ∈ pins, p.token ≠ token) : dropPin pins token = pins :=
  List.eraseP_of_forall_not fun p hp => by simpa using h p hp

/-- A release of a token from before a reset leaves the maps, the pins and what they read. -/
theorem stale_release {w : World Enc Key Val} (h : Inv w) {token : Nat × Nat}
    (hstale : token.1 ≠ w.store.generation) {op : Op Enc Key Val}
    (hop : op = .unpin token ∨ op = .unpinLater token) :
    (w.step op).pins = w.pins ∧ (w.step op).store.live.get? = w.store.live.get? ∧
      ∀ p ∈ w.pins, ∀ enc, (w.step op).store.getAt enc p.token.2 =
        w.store.getAt enc p.token.2 := by
  have hpins : (w.step op).pins = w.pins := by
    have hne : ∀ p ∈ w.pins, p.token ≠ token := fun p hp he =>
      hstale (by rw [← he]; exact h.tokens p hp)
    rcases hop with rfl | rfl <;> exact dropPin_of_not_mem hne
  have hmap : (w.step op).map = w.map := by rcases hop with rfl | rfl <;> rfl
  have h' := inv_step h op
  refine ⟨hpins, by rw [h'.live, hmap, h.live], fun p hp enc => ?_⟩
  rw [h'.getAt (hpins ▸ hp) enc, h.getAt hp enc]

/-- (PROVED) **Snapshot reads.** After any run of pins, releases (now or later), commits (written,
    refused, or raised midway and undone) and resets: the live map is what the successful commits
    made; every pin of the current generation still open reads, key by key and by concatenated
    pages of any size in either direction, the live map as it was when it was taken; and a release
    of a pin from before a reset changes nothing. -/
theorem snapshot_reads (ops : List (Op Enc Key Val)) :
    let w : World Enc Key Val := run ops
    w.store.live.get? = w.map ∧
    (∀ p ∈ w.pins, p.token.1 = w.store.generation ∧
      (∀ enc, w.store.getAt enc p.token.2 = p.map enc) ∧
      ∀ (bound : Option Enc) (inclusive reverse : Bool) (n : Nat) (stop : Option Enc) (fuel : Nat),
        1 ≤ n → w.store.index.len + w.store.historyIndex.len < fuel →
        ∃ rows, readAll (fun b i => w.store.pageAt p.token.2 b i reverse n stop) fuel bound
            inclusive = some rows ∧
          IsListing reverse (InRange reverse bound inclusive stop) p.map rows) ∧
    (∀ token, token.1 ≠ w.store.generation → w.store.release token = w.store ∧
      ∀ op, op = .unpin token ∨ op = .unpinLater token →
        (w.step op).pins = w.pins ∧ (w.step op).store.live.get? = w.store.live.get? ∧
        ∀ p ∈ w.pins, ∀ enc, (w.step op).store.getAt enc p.token.2 =
          w.store.getAt enc p.token.2) := by
  intro w
  have h : Inv w := inv_run ops
  refine ⟨h.live, fun p hp => ⟨h.tokens p hp, h.getAt hp, ?_⟩, fun token hstale => ⟨?_, ?_⟩⟩
  · intro bound inclusive reverse n stop fuel hn hfuel
    obtain ⟨past, hv, -, -⟩ := h.versions
    have := readAll_pageAt hv.live hv.hist p.token.2 bound inclusive reverse hn stop hfuel
    rwa [show (fun enc => w.store.getAt enc p.token.2) = p.map from funext (h.getAt hp)] at this
  · simp [release, hstale]
  · exact fun op hop => stale_release h hstale hop

/-- A pin taken before two commits, the second of which raises midway. -/
def pinnedRun : List (Op Nat Nat Nat) :=
  [.apply ⟨[(1, 1, .value 10)], by decide⟩ ∅ 0 fun _ _ => false, .pin,
    .apply ⟨[(1, 1, .DELETED), (2, 2, .value 20)], by decide⟩ ∅ 0 fun _ _ => false,
    .apply ⟨[(2, 2, .DELETED), (3, 3, .value 30)], by decide⟩ ∅ 0
      fun point k => point = .indexAdd ∧ k = 3]

theorem snapshot_reads_pinnedRun :
    (run pinnedRun).store.getAt 1 1 = some (1, 10) ∧ (run pinnedRun).store.live.get? 1 = none ∧
      (run pinnedRun).store.live.get? 2 = some (2, 20) := by
  have hpins : (run pinnedRun).pins = [⟨(0, 1), overwrite (fun _ => none) [(1, 1, .value 10)]⟩] :=
    rfl
  have h := snapshot_reads pinnedRun
  refine ⟨(h.2.1 _ (by rw [hpins]; exact List.mem_singleton.2 rfl)).2.1 1, ?_, ?_⟩
  · rw [h.1]; rfl
  · rw [h.1]; rfl

end World

end VersionedStore

end Virtuals.Mem
