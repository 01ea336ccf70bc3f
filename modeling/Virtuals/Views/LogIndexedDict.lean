/-
  The three areas of a log indexed dict describe one bijection.

  `Indexed s`: `__keys__` and `__log__` are inverse to each other and `__log__` has a row for exactly the
  keys of `__data__`. Every operation keeps it; `rebuild_bookkeeping` brings it about from any rows.
  Two log keys drawn in one process differ in their counter, so a log key just drawn is new.

  The view simulates the dict with its data, and keeps besides whatever the five changes of its rows
  keep (`Carried`).
-/
import Virtuals.Views.LogIndexedDictView
import Virtuals.Views.IndexedDict

namespace Virtuals.Views.LogIndexedDictView

open Virtuals.Lib

variable {K P S C X : Type} [LinearOrder K]
variable {draws : Draws} {refusesKey : K → Option Nat} {env : Env P S C X}

/-! ## Log keys -/

/-- A digit, by its code point. -/
def isDigitCode (c : CodePoint) : Bool := decide (48 ≤ c ∧ c ≤ 57)

theorem padded_delimits (width : Nat) :
    Delimits (Ends isDigitCode) fun n => (padded width n).map code := by
  refine Delimits.of_forall (fun n c hc => ?_) fun m n h => ?_
  · obtain ⟨d, hd, rfl⟩ := List.mem_map.1 hc
    exact decide_eq_true (code_digit (padded_isDigit hd))
  · have hmn := List.map_injective_iff.2 code_injective h
    rw [← ofDigitChars_padded width m, hmn, ofDigitChars_padded]

/-- A log key tells the counter it was drawn at. -/
theorem logKey_injective (draws : Draws) : Function.Injective draws.logKey := by
  intro m n h
  have hdash : ∀ x, Ends isDigitCode (code '-' :: x) := fun x => ends_cons (by decide)
  obtain ⟨-, hrest⟩ := padded_delimits 13 (hdash _) (hdash _) h
  exact (padded_delimits 6 (hdash _) (hdash _) (List.cons.inj hrest).2).1

/-! ## The invariant -/

/-- The log keys still to be drawn are in no row. -/
def Fresh (draws : Draws) (s : Logged K P S C) : Prop :=
  ∀ i, s.counter < i → s.keys.get? (draws.logKey i) = none

/-- Log key and key, each found from the other, for exactly the keys with data. -/
structure Indexed (draws : Draws) (s : Logged K P S C) : Prop where
  inverse : Inverse s.keys s.log
  covers : ∀ k, (s.log.get? k).isSome ↔ (s.data.get? k).isSome
  fresh : Fresh draws s
  absent : s.created = false → ∀ k, s.data.get? k = none

theorem indexed_absent (draws : Draws) (counter : Nat) :
    Indexed draws (absent counter : Logged K P S C) where
  inverse := Inverse.empty
  covers k := by simp [absent]
  fresh i _ := by simp [absent]
  absent _ k := by simp [absent]

/-- The view indexes the keys of a dict with its data. -/
structure Rel (draws : Draws) (s : Logged K P S C) (m : DictModel K (Child P S C)) : Prop where
  indexed : Indexed draws s
  created : s.created = m.created
  data : ∀ k, s.data.get? k = m.dict.get? k

variable {s : Logged K P S C} {m : DictModel K (Child P S C)}

theorem Indexed.rel (h : Indexed draws s) : ∃ m, Rel draws s m := by
  refine ⟨⟨s.created, ⟨s.data.rows, s.data.nodup_rows⟩⟩, h, rfl, fun k => ?_⟩
  ext c
  rw [← PyDict.mem_items, Table.mem_rows]

theorem Indexed.log_none (h : Indexed draws s) {k : K} (hk : s.data.get? k = none) :
    s.log.get? k = none := by
  rw [← Option.not_isSome_iff_eq_none, h.covers, hk]
  exact Bool.false_ne_true

/-! ## Drawing and dropping log keys -/

/-- The state after a log key was drawn and logged for a key. -/
def logged (draws : Draws) (k : K) (s : Logged K P S C) : Logged K P S C :=
  { s with
    counter := s.counter + 1
    keys := s.keys.put (draws.logKey (s.counter + 1)) k
    log := s.log.put k (draws.logKey (s.counter + 1)) }

theorem appendLogKey_apply (k : K) (s : Logged K P S C) :
    appendLogKey draws k s = .ok () (logged draws k s) := rfl

omit [LinearOrder K] in
theorem Fresh.drawn (h : Fresh draws s) : Fresh draws { s with counter := s.counter + 1 } :=
  fun i hi => h i (Nat.lt_of_succ_lt hi)

theorem Fresh.logged (h : Fresh draws s) (k : K) : Fresh draws (logged draws k s) := by
  intro i hi
  have hne : draws.logKey i ≠ draws.logKey (s.counter + 1) := fun e =>
    absurd (logKey_injective draws e) (Nat.ne_of_gt hi)
  exact (Table.get?_put _ _ _ _).trans ((if_neg hne).trans (h i (Nat.lt_of_succ_lt hi)))

/-- A key logged for the first time, under a log key just drawn. -/
theorem logged_inverse (hinv : Inverse s.keys s.log) (hf : Fresh draws s) {k : K}
    (hk : s.log.get? k = none) : Inverse (logged draws k s).keys (logged draws k s).log :=
  hinv.put (hf _ (Nat.lt_succ_self _)) hk

/-- A key that gains data and a log key. -/
theorem Indexed.record (h : Indexed draws s) (hs : s.created = true) {k : K} (c : Child P S C)
    (hk : s.data.get? k = none) :
    Indexed draws (logged draws k { s with data := s.data.put k c }) where
  inverse := logged_inverse (s := { s with data := s.data.put k c }) h.inverse h.fresh
    (h.log_none hk)
  covers j := by
    show ((s.log.put k _).get? j).isSome ↔ ((s.data.put k c).get? j).isSome
    rw [Table.get?_put, Table.get?_put]
    split_ifs
    · simp
    · exact h.covers j
  fresh := Fresh.logged (s := { s with data := s.data.put k c }) h.fresh k
  absent hs' := by rw [show s.created = false from hs'] at hs; cases hs

/-- A child rewritten keeps its log key. -/
theorem Indexed.overwrite (h : Indexed draws s) {k : K} {c : Child P S C} (c' : Child P S C)
    (hk : s.data.get? k = some c) : Indexed draws { s with data := s.data.put k c' } where
  inverse := h.inverse
  covers j := by
    rw [h.covers, Table.get?_put]
    split_ifs with hj
    · simp [hj, hk]
    · rfl
  fresh := h.fresh
  absent hs := by rw [h.absent hs] at hk; cases hk

theorem Rel.put_data (h : Rel draws s m) (k : K) (c : Child P S C) (j : K) :
    (s.data.put k c).get? j = (m.dict.set k c).get? j := by
  rw [Table.get?_put, PyDict.get?_set, h.data]

/-- The view with the rows of the three areas gone. -/
def emptied (s : Logged K P S C) : Logged K P S C := { s with data := ∅, keys := ∅, log := ∅ }

/-- What the changes of the rows keep, those of the dict beside them. -/
structure Carried (draws : Draws) (Q : Logged K P S C → DictModel K (Child P S C) → Prop) : Prop where
  markCreated : ∀ {s m}, Rel draws s m → Q s m → Q { s with created := true } { m with created := true }
  overwrite : ∀ {s m k c}, Rel draws s m → Q s m → ∀ c', s.data.get? k = some c →
    Q { s with data := s.data.put k c' } { m with dict := m.dict.set k c' }
  record : ∀ {s m k}, Rel draws s m → Q s m → ∀ c, s.data.get? k = none →
    Q (logged draws k { s with data := s.data.put k c }) { m with dict := m.dict.set k c }
  erase : ∀ {s m k logKey}, Rel draws s m → Q s m → s.keys.get? logKey = some k →
    Q { s with
        data := s.data.erase k
        keys := s.keys.erase logKey
        log := s.log.erase k } { m with dict := m.dict.erase k }
  emptied : ∀ {s m}, Rel draws s m → Q s m → Q (emptied s) { m with dict := ⟨[], List.nodup_nil⟩ }

/-- The view indexes the keys of the dict, and `Q` holds of the two. -/
def RelWith (draws : Draws) (Q : Logged K P S C → DictModel K (Child P S C) → Prop)
    (s : Logged K P S C) (m : DictModel K (Child P S C)) : Prop := Rel draws s m ∧ Q s m

variable {Q : Logged K P S C → DictModel K (Child P S C) → Prop}

/-- Nothing besides. -/
theorem carried_true : Carried (K := K) (P := P) (S := S) (C := C) draws fun _ _ => True where
  markCreated _ h := h
  overwrite _ h _ _ := h
  record _ h _ _ := h
  erase _ h _ := h
  emptied _ h := h

theorem Carried.refines (hQ : Carried draws Q) :
    Refines (base draws refusesKey : ViewBase (Logged K P S C) K P S C)
      (DictModel.base refusesKey) id (RelWith draws Q) where
  created h := h.1.created
  markCreated h _ :=
    ⟨{ indexed :=
         { inverse := h.1.indexed.inverse
           covers := h.1.indexed.covers
           fresh := h.1.indexed.fresh
           absent := fun hs => nomatch hs }
       created := rfl
       data := h.1.data }, hQ.markCreated h.1 h.2⟩
  marked _ := rfl
  childMarked _ _ := rfl
  refusesKey _ := rfl
  child h j := h.1.data j
  overwrite h _ _ c' hc :=
    ⟨{ indexed := h.1.indexed.overwrite c' hc
       created := h.1.created
       data := h.1.put_data _ _ }, hQ.overwrite h.1 h.2 c' hc⟩
  record h hs j c hc := Agree.of_ok (appendLogKey_apply j _) rfl
    ⟨{ indexed := h.1.indexed.record hs c hc
       created := h.1.created
       data := h.1.put_data _ _ }, hQ.record h.1 h.2 c hc⟩

theorem recordedLogKey_eq (h : Inverse s.keys s.log) {k : K} {logKey : LogKey}
    (hk : s.log.get? k = some logKey) : recordedLogKey s k = some logKey := by
  rw [recordedLogKey, hk, Option.filter_some, if_pos (decide_eq_true ((h logKey k).2 hk))]

theorem deleteChild_made (k : K) (hs : s.created = true) :
    deleteChild draws refusesKey k s = .ok () { s with data := s.data.erase k } := by
  have hreq := ViewBase.requireExists_apply (base draws refusesKey) s
  rw [show (base draws refusesKey).created s = true from hs, if_pos rfl] at hreq
  exact bind_of_ok hreq

/-- `__log__` names the one log row of a key with data. -/
theorem Indexed.logKey_of_data (h : Indexed draws s) {k : K} (hk : (s.data.get? k).isSome) :
    ∃ logKey, s.log.get? k = some logKey ∧ s.keys.get? logKey = some k := by
  obtain ⟨logKey, hlog⟩ := Option.isSome_iff_exists.1 ((h.covers k).2 hk)
  exact ⟨logKey, hlog, (h.inverse logKey k).2 hlog⟩

/-- A key that loses its data and its log key. -/
theorem Indexed.erase (h : Indexed draws s) (hs : s.created = true) {k : K} {logKey : LogKey}
    (hk : s.keys.get? logKey = some k) :
    Indexed draws { s with
      data := s.data.erase k
      keys := s.keys.erase logKey
      log := s.log.erase k } where
  inverse := h.inverse.erase hk
  covers j := by
    rw [Table.get?_erase, Table.get?_erase]
    split_ifs
    · simp
    · exact h.covers j
  fresh i hi := by
    rw [Table.get?_erase]
    split_ifs
    · rfl
    · exact h.fresh i hi
  absent hs' := by rw [show s.created = false from hs'] at hs; cases hs

/-- A delete finds the log key by its reverse row. -/
theorem delete_made (h : Indexed draws s) (hs : s.created = true) {k : K} {logKey : LogKey}
    (hk : s.log.get? k = some logKey) :
    (do
      deleteChild draws refusesKey k
      let logKey ← findLogKey k
      dropLogKey k logKey : EStateM ViewError (Logged K P S C) Unit) s =
      .ok () { s with
        data := s.data.erase k
        keys := s.keys.erase logKey
        log := s.log.erase k } := by
  have hrec : recordedLogKey { s with data := s.data.erase k } k = some logKey :=
    recordedLogKey_eq (s := { s with data := s.data.erase k }) h.inverse hk
  have hfind : findLogKey k { s with data := s.data.erase k } =
      .ok (some logKey) { s with data := s.data.erase k } := by
    have hget : ((recordedLogKey · k) <$> get : EStateM ViewError (Logged K P S C) _)
        { s with data := s.data.erase k } = .ok (some logKey) { s with data := s.data.erase k } :=
      congrArg (EStateM.Result.ok · _) hrec
    exact bind_of_ok hget
  exact (bind_of_ok (deleteChild_made k hs)).trans (bind_of_ok hfind)

theorem Indexed.created_of_data (h : Indexed draws s) {k : K} (hk : (s.data.get? k).isSome) :
    s.created = true := by
  cases hs : s.created with
  | true => rfl
  | false =>
    rw [h.absent hs] at hk
    cases hk

theorem Carried.exists_sim (hQ : Carried draws Q) (k : K) :
    Coupled (RelWith draws Q)
      ((base draws refusesKey).existsChild k) ((DictModel.base refusesKey).existsChild k)
      (fun found s m => RelWith draws Q s m ∧ (s.data.get? k).isSome = found) (RelWith draws Q) :=
  Coupled.bind (hQ.refines.nodeInfo k fun _ _ h => h) fun _ =>
    Coupled.pure _ fun _ _ h => ⟨h.1, congrArg Option.isSome h.2⟩

theorem Carried.delItem_sim (hQ : Carried draws Q) (address : Address K) :
    Sim (RelWith draws Q) (delItem draws refusesKey address)
      (DictModel.delItem dictChecks refusesKey address) := by
  refine Sim.bind (Sim.liftResult _) fun k => Coupled.bind (hQ.exists_sim k) fun found => ?_
  cases found with
  | true =>
    refine Coupled.of_ok fun s m ⟨⟨h, hq⟩, hsome⟩ => ?_
    have hs := h.indexed.created_of_data hsome
    obtain ⟨logKey, hlog, hkey⟩ := h.indexed.logKey_of_data hsome
    exact ⟨(), _, _, delete_made h.indexed hs hlog, rfl,
      { indexed := h.indexed.erase hs hkey
        created := h.created
        data := fun j => by rw [Table.get?_erase, PyDict.get?_erase, h.data] },
      hQ.erase h hq hkey⟩
  | false => exact Coupled.throw _ fun _ _ h => h.1

/-! ## Scans -/

theorem Indexed.keys_empty (h : Indexed draws s) (hs : s.created = false) : s.keys = ∅ := by
  refine Table.ext fun logKey => ?_
  rw [Table.get?_empty, Option.eq_none_iff_forall_ne_some]
  intro k hk
  have hlog := (h.inverse logKey k).1 hk
  have hsome := (h.covers k).1 (by rw [hlog]; rfl)
  rw [h.absent hs] at hsome
  cases hsome

omit [LinearOrder K] in
theorem scanLogKeys_made (hs : s.created = true) : scanLogKeys s = .ok s.keys.rows s := by
  refine (bind_of_ok (get_apply s)).trans ?_
  rw [hs]
  rfl

theorem scanLogKeys_absent (h : Indexed draws s) (hs : s.created = false) :
    scanLogKeys s = .error .containerNotFound s := by
  refine (bind_of_ok (get_apply s)).trans ?_
  rw [hs, h.keys_empty hs, Table.rows_empty]
  rfl

/-- As many rows in the log as keys with data. -/
theorem Indexed.length_rows (h : Indexed draws s) : s.keys.rows.length = s.data.size := by
  have hkeys : ∀ k, k ∈ s.keys.rows.map Prod.snd ↔ k ∈ s.data.keys := fun k => by
    rw [h.inverse.mem_values, h.covers, Table.mem_keys]
  rw [← List.length_map (f := Prod.snd), Table.size,
    ← List.toFinset_card_of_nodup h.inverse.nodup_values]
  refine congrArg Finset.card (Finset.ext fun k => ?_)
  rw [List.mem_toFinset, hkeys]

/-- As many keys with data as items in the dict. -/
theorem Rel.size_eq (h : Rel draws s m) : s.data.size = m.dict.items.length := by
  have hkeys : ∀ k, k ∈ s.data.keys ↔ k ∈ m.dict.keys := fun k => by
    rw [Table.mem_keys, PyDict.mem_keys, h.data]
  have hcard := List.toFinset_card_of_nodup m.dict.keys_nodup
  rw [PyDict.keys, List.length_map] at hcard
  rw [← hcard, Table.size]
  refine congrArg Finset.card (Finset.ext fun k => ?_)
  rw [List.mem_toFinset, hkeys, PyDict.keys]

theorem len_sim : Sim (RelWith (P := P) (S := S) (C := C) draws Q) len
    (DictModel.len refusesKey) := by
  intro s m hq
  have h := hq.1
  rw [DictModel.len_apply, ← h.created]
  cases hs : s.created with
  | true =>
    refine Agree.of_ok (map_of_ok (scanLogKeys_made hs)) ?_ hq
    rw [if_pos rfl, h.indexed.length_rows, h.size_eq]
  | false =>
    have hlen : len s = .error .containerNotFound s := by
      show EStateM.map _ _ _ = _
      rw [EStateM.map, scanLogKeys_absent h.indexed hs]
    rw [hlen]
    exact ⟨rfl, hq⟩

/-! ## Clearing -/

theorem indexed_emptied (draws : Draws) (s : Logged K P S C) : Indexed draws (emptied s) where
  inverse := Inverse.empty
  covers k := by simp [emptied]
  fresh i _ := by simp [emptied]
  absent _ k := by simp [emptied]

omit [LinearOrder K] in
theorem created_eq {b : Bool} (hs : s.created = b) :
    (Logged.created <$> get : EStateM ViewError (Logged K P S C) Bool) s = .ok b s :=
  congrArg (EStateM.Result.ok · s) hs

/-- Every row a scan meets is deleted. -/
theorem emptied_eq (s : Logged K P S C) :
    { s with
      data := s.data.eraseAll s.data.scan
      keys := s.keys.eraseAll s.keys.scan
      log := s.log.eraseAll s.log.scan } = emptied s := by
  rw [emptied, Table.eraseAll_scan, Table.eraseAll_scan, Table.eraseAll_scan]

theorem clear_made (hs : s.created = true) :
    clear draws refusesKey env s = .ok () (emptied s) := by
  refine (bind_of_ok (created_eq hs)).trans
    ((bind_of_ok (ViewBase.ensureCreated_made (base draws refusesKey) env hs)).trans ?_)
  exact congrArg (EStateM.Result.ok ()) (emptied_eq s)

theorem Rel.emptied (h : Rel draws s m) :
    Rel draws (emptied s) { m with dict := ⟨[], List.nodup_nil⟩ } where
  indexed := indexed_emptied draws s
  created := h.created
  data k := by simp [LogIndexedDictView.emptied, PyDict.get?, PyDict.lookupItem]

theorem Carried.clear_sim (hQ : Carried draws Q) :
    Sim (RelWith draws Q) (clear draws refusesKey env) (DictModel.clear (K := K)) := by
  refine Coupled.of_ok fun s m ⟨h, hq⟩ => ?_
  cases hs : s.created with
  | true =>
    exact ⟨(), LogIndexedDictView.emptied s, _, clear_made hs, rfl, h.emptied, hQ.emptied h hq⟩
  | false =>
    have hnil : m.dict.items = [] := by
      rw [← List.length_eq_zero_iff, ← h.size_eq, ← h.indexed.length_rows,
        h.indexed.keys_empty hs, Table.rows_empty, List.length_nil]
    exact ⟨(), s, m, bind_of_ok (created_eq hs), DictModel.clear_of_nil m hnil, h, hq⟩

theorem Carried.simulates (hQ : Carried draws Q) :
    Simulates (view draws refusesKey env : DictView (Logged K P S C) _ _ _ _ _)
      (DictModel.view dictChecks refusesKey) id (RelWith draws Q) where
  refines := hQ.refines
  write a := by cases a <;> rfl
  store a := by cases a <;> rfl
  read a := by cases a <;> rfl
  nested a := by cases a <;> rfl
  delItem := hQ.delItem_sim
  clear := hQ.clear_sim
  len := len_sim
  contains := containsKey_sim hQ.refines fun a => by cases a <;> rfl

omit [LinearOrder K] in
theorem firstKey_made (hs : s.created = true) : firstKey s = .ok s.keys.rows.head? s :=
  map_of_ok (scanLogKeys_made hs)

/-- `store` clears a dict that has items: one log row says so as well as a count does. -/
theorem Carried.clearStored_sim (hQ : Carried draws Q) (replace : Bool) :
    Coupled (Refines.Made (base draws refusesKey) (RelWith draws Q))
      (onlyIf replace do
        let first ← firstKey
        onlyIf first.isSome (clear draws refusesKey env))
      (do
        let n ← DictModel.len refusesKey
        onlyIf (replace && decide (0 < n)) DictModel.clear)
      (fun _ => RelWith draws Q) (RelWith draws Q) := by
  refine Coupled.of_ok fun s m ⟨⟨h, hq⟩, hs⟩ => ?_
  have hlen : DictModel.len refusesKey m = .ok m.dict.items.length m := by
    rw [DictModel.len_apply, ← h.created, show s.created = true from hs, if_pos rfl]
  have hfirst : s.keys.rows.head?.isSome = decide (0 < m.dict.items.length) := by
    rw [← h.size_eq, ← h.indexed.length_rows]
    cases s.keys.rows <;> simp
  cases replace with
  | false => exact ⟨(), s, m, rfl, bind_of_ok hlen, h, hq⟩
  | true =>
    cases hd : decide (0 < m.dict.items.length) with
    | true =>
      refine ⟨(), LogIndexedDictView.emptied s, { m with dict := ⟨[], List.nodup_nil⟩ },
        (bind_of_ok (firstKey_made hs)).trans ?_, (bind_of_ok hlen).trans ?_, h.emptied,
        hQ.emptied h hq⟩
      · rw [hfirst, hd]
        exact clear_made hs
      · rw [hd]
        rfl
    | false =>
      refine ⟨(), s, m, (bind_of_ok (firstKey_made hs)).trans ?_, (bind_of_ok hlen).trans ?_, h, hq⟩
      · rw [hfirst, hd]
        rfl
      · rw [hd]
        rfl

/-- A log key drawn and not used. -/
theorem Indexed.drawn (h : Indexed draws s) :
    Indexed draws { s with counter := s.counter + 1 } where
  inverse := h.inverse
  covers := h.covers
  fresh := h.fresh.drawn
  absent := h.absent

/-- What simulates a program over dicts keeps the indexes. -/
theorem Indexed.of_sim {α : Type} {prog : EStateM ViewError (Logged K P S C) α}
    {model : EStateM ViewError (DictModel K (Child P S C)) α}
    (hsim : Sim (RelWith draws fun _ _ => True) prog model) : Keeps (Indexed draws) prog := by
  intro s h
  obtain ⟨m, hrel⟩ := h.rel
  exact (hsim s m ⟨hrel, trivial⟩).endState.1.indexed

theorem generateLogKey_keeps :
    Keeps (Indexed (K := K) (P := P) (S := S) (C := C) draws) (generateLogKey draws) :=
  fun _ h => h.drawn

variable [DecidableEq S]

theorem Carried.store_sim (hQ : Carried draws Q) (value : Bulk (Address K) (Value P S C))
    (replace : Bool) :
    Sim (RelWith draws Q) (store draws refusesKey env value replace)
      ((DictModel.view dictChecks refusesKey).store env value replace) := by
  refine Sim.bind (rejectEmptyIn_sim value) fun _ => ?_
  refine Coupled.bind (hQ.refines.ensureCreated env) fun _ => ?_
  rw [← bind_assoc (DictModel.view dictChecks refusesKey).len]
  refine Coupled.bind (Q := fun _ => RelWith draws Q) ?_ fun _ => ?_
  · exact hQ.clearStored_sim replace
  · refine Sim.bind (items_sim value) fun items => Sim.forM items fun a => ?_
    cases a.1 with
    | other => exact Sim.throw _
    | key k => exact hQ.refines.setChildValue env (.key k) a.2

/-- An append keeps the indexes, whether or not the value is taken. -/
theorem append_keeps (strKey : LogKey → K) (value : Value P S C) :
    Keeps (Indexed draws) (append draws refusesKey env strKey value) := by
  refine generateLogKey_keeps.bind fun logKey => ?_
  refine (Indexed.of_sim (carried_true.simulates.setItem env _ value)).bind fun _ => ?_
  exact Keeps.pure logKey

end Virtuals.Views.LogIndexedDictView
