/-
  `rebuild_bookkeeping` makes the indexes of a log indexed dict from any rows.

  One sweep over each index, and one over the keys with data: `Kept` says what the first has done of
  `__keys__`, `Aligned` what the second has done of `__log__`, `Logging` what is left to log. What the
  rows held before does not matter, but that no row has a log key still to be drawn.
-/
import Virtuals.Views.LogIndexedDict

namespace Virtuals.Views.LogIndexedDictView

open Virtuals.Lib

variable {K P S C X : Type} [LinearOrder K]
variable {draws : Draws} {refusesKey : K → Option Nat} {env : Env P S C X}

/-- Rows with one key each: a later row has another key. -/
theorem key_ne_of_mem {A B : Type} {a : A} {b : B} {rest : List (A × B)}
    (h : (((a, b) :: rest).map Prod.fst).Nodup) {c : A} {d : B} (hc : (c, d) ∈ rest) : c ≠ a := by
  rintro rfl
  exact (List.nodup_cons.1 h).1 (List.mem_map.2 ⟨_, hc, rfl⟩)

/-! ## The log rows kept -/

/-- The sweep of `__keys__`, with the rows `rest` to come: what is seen stands, and all else that
stands is to come. -/
structure Kept (present : K → Bool) (keys : Table LogKey K) (rest : List (LogKey × K))
    (acc : PyDict K LogKey × Table LogKey K) : Prop where
  seen : ∀ k logKey, acc.1.get? k = some logKey → acc.2.get? logKey = some k ∧ present k = true
  stands : ∀ logKey k, acc.2.get? logKey = some k →
    acc.1.get? k = some logKey ∨ (logKey, k) ∈ rest
  toCome : ∀ logKey k, (logKey, k) ∈ rest →
    acc.2.get? logKey = some k ∧ acc.1.get? k ≠ some logKey
  once : (rest.map Prod.fst).Nodup
  deleted : ∀ logKey, keys.get? logKey = none → acc.2.get? logKey = none

variable {present : K → Bool} {keys : Table LogKey K} {rest : List (LogKey × K)}
  {acc : PyDict K LogKey × Table LogKey K}

theorem Kept.start (present : K → Bool) (keys : Table LogKey K) :
    Kept present keys keys.rows (PyDict.empty, keys) where
  seen _ _ h := nomatch h
  stands _ _ h := Or.inr (Table.mem_rows.2 h)
  toCome _ _ h := ⟨Table.mem_rows.1 h, fun h => nomatch h⟩
  once := keys.nodup_rows
  deleted _ h := h

/-- The first row of a key with data is seen. -/
theorem Kept.keep {logKey : LogKey} {k : K} (h : Kept present keys ((logKey, k) :: rest) acc)
    (hp : present k = true) (hk : acc.1.get? k = none) :
    Kept present keys rest (acc.1.set k logKey, acc.2) where
  seen j other hj := by
    rw [PyDict.get?_set] at hj
    split_ifs at hj with hjk
    · obtain rfl := Option.some.inj hj
      exact ⟨hjk ▸ (h.toCome logKey k List.mem_cons_self).1, hjk ▸ hp⟩
    · exact h.seen j other hj
  stands other j hj := by
    rw [PyDict.get?_set]
    rcases h.stands other j hj with hs | hs
    · rw [if_neg fun hjk => by rw [hjk, hk] at hs; cases hs]
      exact Or.inl hs
    · rcases List.mem_cons.1 hs with he | hs
      · obtain ⟨rfl, rfl⟩ := Prod.mk.inj he
        exact Or.inl (if_pos rfl)
      · exact Or.inr hs
  toCome other j hj := by
    obtain ⟨hget, hne⟩ := h.toCome other j (List.mem_cons_of_mem _ hj)
    refine ⟨hget, ?_⟩
    rw [PyDict.get?_set]
    split_ifs
    · exact fun he => key_ne_of_mem h.once hj (Option.some.inj he).symm
    · exact hne
  once := (List.nodup_cons.1 h.once).2
  deleted := h.deleted

/-- Any other row is deleted. -/
theorem Kept.drop {logKey : LogKey} {k : K} (h : Kept present keys ((logKey, k) :: rest) acc) :
    Kept present keys rest (acc.1, acc.2.erase logKey) where
  seen j other hj := by
    obtain ⟨hget, hp⟩ := h.seen j other hj
    obtain ⟨hrow, hne⟩ := h.toCome logKey k List.mem_cons_self
    refine ⟨?_, hp⟩
    rw [Table.get?_erase, if_neg, hget]
    rintro rfl
    obtain rfl := Option.some.inj (hget.symm.trans hrow)
    exact hne hj
  stands other j hj := by
    rw [Table.get?_erase] at hj
    split_ifs at hj with ho
    rcases h.stands other j hj with hs | hs
    · exact Or.inl hs
    · exact Or.inr ((List.mem_cons.1 hs).resolve_left fun he => ho (Prod.mk.inj he).1)
  toCome other j hj := by
    obtain ⟨hget, hne⟩ := h.toCome other j (List.mem_cons_of_mem _ hj)
    refine ⟨?_, hne⟩
    rw [Table.get?_erase, if_neg (key_ne_of_mem h.once hj), hget]
  once := (List.nodup_cons.1 h.once).2
  deleted other ho := by
    rw [Table.get?_erase]
    split_ifs
    · rfl
    · exact h.deleted other ho

theorem Kept.step {row : LogKey × K} (h : Kept present keys (row :: rest) acc) :
    Kept present keys rest (keepFirst present acc row) := by
  obtain ⟨logKey, k⟩ := row
  rw [keepFirst]
  split_ifs with hc
  · rw [Bool.and_eq_true, Option.isNone_iff_eq_none] at hc
    exact h.keep hc.1 hc.2
  · exact h.drop

theorem Kept.foldl (h : Kept present keys rest acc) :
    Kept present keys [] (rest.foldl (keepFirst present) acc) := by
  induction rest generalizing acc with
  | nil => exact h
  | cons row rest ih => exact ih h.step

variable {s : Logged K P S C}

theorem keptRows_kept (s : Logged K P S C) :
    Kept (fun k => (s.data.get? k).isSome) s.keys [] (keptRows s) :=
  (Kept.start _ s.keys).foldl

/-- The log rows that are left are those seen. -/
theorem keptRows_iff (s : Logged K P S C) (logKey : LogKey) (k : K) :
    (keptRows s).2.get? logKey = some k ↔ (keptRows s).1.get? k = some logKey := by
  have h := keptRows_kept s
  refine ⟨fun hget => ?_, fun hseen => (h.seen k logKey hseen).1⟩
  exact (h.stands logKey k hget).resolve_right List.not_mem_nil

/-! ## The reverse rows -/

/-- The sweep of `__log__`, with the rows `rest` to come. -/
structure Aligned (seen : PyDict K LogKey) (rest : List (K × LogKey))
    (acc : List K × Table K LogKey) : Prop where
  stands : ∀ k logKey, acc.2.get? k = some logKey →
    seen.get? k = some logKey ∨ (k, logKey) ∈ rest
  indexed : ∀ k ∈ acc.1, acc.2.get? k = seen.get? k
  toCome : ∀ k logKey, (k, logKey) ∈ rest → acc.2.get? k = some logKey ∧ k ∉ acc.1
  once : (rest.map Prod.fst).Nodup

theorem Aligned.start (seen : PyDict K LogKey) (log : Table K LogKey) :
    Aligned seen log.rows ([], log) where
  stands _ _ h := Or.inr (Table.mem_rows.2 h)
  indexed _ h := nomatch h
  toCome _ _ h := ⟨Table.mem_rows.1 h, List.not_mem_nil⟩
  once := log.nodup_rows

theorem Aligned.step {seen : PyDict K LogKey} {row : K × LogKey} {rest : List (K × LogKey)}
    {acc : List K × Table K LogKey} (h : Aligned seen (row :: rest) acc) :
    Aligned seen rest (realign seen acc row) := by
  obtain ⟨k, logKey⟩ := row
  obtain ⟨hrow, hnot⟩ := h.toCome k logKey List.mem_cons_self
  have hother : ∀ j other, (j, other) ∈ rest → j ≠ k := fun j other hj =>
    key_ne_of_mem h.once hj
  have hrest : ∀ j other, j ≠ k → acc.2.get? j = some other →
      seen.get? j = some other ∨ (j, other) ∈ rest := by
    intro j other hj hget
    refine (h.stands j other hget).imp_right fun hm => ?_
    exact (List.mem_cons.1 hm).resolve_left fun he => hj (Prod.mk.inj he).1
  simp only [realign]
  cases hseen : seen.get? k with
  | none =>
    exact
      { stands := fun j other hj => by
          rw [Table.get?_erase] at hj
          split_ifs at hj with hjk
          exact hrest j other hjk hj
        indexed := fun j hj => by
          rw [Table.get?_erase, if_neg fun hjk : j = k => hnot (hjk ▸ hj)]
          exact h.indexed j hj
        toCome := fun j other hj => by
          rw [Table.get?_erase, if_neg (hother j other hj)]
          exact h.toCome j other (List.mem_cons_of_mem _ hj)
        once := (List.nodup_cons.1 h.once).2 }
  | some want =>
    have hget : ∀ j, (if logKey = want then acc.2 else acc.2.put k want).get? j =
        if j = k then some want else acc.2.get? j := by
      intro j
      split_ifs with hw hj hj
      · rw [hj, hrow, hw]
      · rfl
      · rw [hj, Table.get?_put_self]
      · rw [Table.get?_put, if_neg hj]
    exact
      { stands := fun j other hj => by
          rw [hget] at hj
          split_ifs at hj with hjk
          · exact Or.inl (by rw [hjk, hseen, hj])
          · exact hrest j other hjk hj
        indexed := fun j hj => by
          rw [hget]
          split_ifs with hjk
          · rw [hjk, hseen]
          · exact h.indexed j ((List.mem_cons.1 hj).resolve_left hjk)
        toCome := fun j other hj => by
          obtain ⟨hj', hn⟩ := h.toCome j other (List.mem_cons_of_mem _ hj)
          rw [hget, if_neg (hother j other hj), List.mem_cons, not_or]
          exact ⟨hj', hother j other hj, hn⟩
        once := (List.nodup_cons.1 h.once).2 }

theorem Aligned.foldl {seen : PyDict K LogKey} {rest : List (K × LogKey)}
    {acc : List K × Table K LogKey} (h : Aligned seen rest acc) :
    Aligned seen [] (rest.foldl (realign seen) acc) := by
  induction rest generalizing acc with
  | nil => exact h
  | cons row rest ih => exact ih h.step

/-- `__log__` while the rows of `rest` that it misses are added. -/
structure Adding (seen : PyDict K LogKey) (indexed : List K) (rest : List (K × LogKey))
    (log : Table K LogKey) : Prop where
  stands : ∀ k logKey, log.get? k = some logKey → seen.get? k = some logKey
  indexed : ∀ k ∈ indexed, log.get? k = seen.get? k
  toCome : ∀ k logKey, (k, logKey) ∈ rest → seen.get? k = some logKey
  covered : ∀ k logKey, seen.get? k = some logKey →
    log.get? k = some logKey ∨ (k, logKey) ∈ rest

theorem Adding.step {seen : PyDict K LogKey} {indexed : List K} {row : K × LogKey}
    {rest : List (K × LogKey)} {log : Table K LogKey}
    (h : Adding seen indexed (row :: rest) log) :
    Adding seen indexed rest (addMissing indexed log row) := by
  obtain ⟨k, logKey⟩ := row
  have hseen := h.toCome k logKey List.mem_cons_self
  have hget : ∀ j, (addMissing indexed log (k, logKey)).get? j =
      if j = k then some logKey else log.get? j := by
    intro j
    simp only [addMissing]
    split_ifs with hi hj hj
    · rw [hj, h.indexed k hi, hseen]
    · rfl
    · rw [hj, Table.get?_put_self]
    · rw [Table.get?_put, if_neg hj]
  exact
    { stands := fun j other hj => by
        rw [hget] at hj
        split_ifs at hj with hjk
        · rw [hjk, hseen, hj]
        · exact h.stands j other hj
      indexed := fun j hj => by
        rw [hget]
        split_ifs with hjk
        · rw [hjk, hseen]
        · exact h.indexed j hj
      toCome := fun j other hj => h.toCome j other (List.mem_cons_of_mem _ hj)
      covered := fun j other hj => by
        rw [hget]
        split_ifs with hjk
        · exact Or.inl (hseen.symm.trans (hjk ▸ hj))
        · refine (h.covered j other hj).imp_right fun hm => ?_
          exact (List.mem_cons.1 hm).resolve_left fun he => hjk (Prod.mk.inj he).1 }

theorem Adding.foldl {seen : PyDict K LogKey} {indexed : List K} {rest : List (K × LogKey)}
    {log : Table K LogKey} (h : Adding seen indexed rest log) :
    Adding seen indexed [] (rest.foldl (addMissing indexed) log) := by
  induction rest generalizing log with
  | nil => exact h
  | cons row rest ih => exact ih h.step

/-- `__log__` comes to hold what was seen. -/
theorem alignedLog_get? (seen : PyDict K LogKey) (log : Table K LogKey) (k : K) :
    (alignedLog seen log).get? k = seen.get? k := by
  have ha := (Aligned.start seen log).foldl
  have hadd : Adding seen _ seen.items (log.rows.foldl (realign seen) ([], log)).2 :=
    { stands := fun j other hj => (ha.stands j other hj).resolve_right List.not_mem_nil
      indexed := ha.indexed
      toCome := fun j other hj => (PyDict.mem_items seen j other).1 hj
      covered := fun j other hj => Or.inr ((PyDict.mem_items seen j other).2 hj) }
  have h := hadd.foldl
  ext logKey
  refine ⟨h.stands k logKey, fun hk => ?_⟩
  exact (h.covered k logKey hk).resolve_right List.not_mem_nil

/-! ## The keys never logged -/

/-- The indexes while the keys of `todo` are still to be logged. -/
structure Logging (draws : Draws) (todo : List K) (s : Logged K P S C) : Prop where
  inverse : Inverse s.keys s.log
  fresh : Fresh draws s
  covers : ∀ k, (s.log.get? k).isSome ∨ k ∈ todo ↔ (s.data.get? k).isSome
  missing : ∀ k ∈ todo, s.log.get? k = none
  once : todo.Nodup

theorem Logging.step {k : K} {todo : List K} (h : Logging draws (k :: todo) s) :
    Logging draws todo (logged draws k s) where
  inverse := logged_inverse h.inverse h.fresh (h.missing k List.mem_cons_self)
  fresh := h.fresh.logged k
  covers j := by
    rw [show (logged draws k s).data = s.data from rfl, ← h.covers, List.mem_cons,
      show (logged draws k s).log = s.log.put k _ from rfl, Table.get?_put]
    split_ifs with hj
    · simp [hj]
    · simp [hj]
  missing j hj := by
    have hjk : j ≠ k := by
      rintro rfl
      exact (List.nodup_cons.1 h.once).1 hj
    exact (Table.get?_put _ _ _ _).trans
      ((if_neg hjk).trans (h.missing j (List.mem_cons_of_mem _ hj)))
  once := (List.nodup_cons.1 h.once).2

theorem Logging.forM {todo : List K} (h : Logging draws todo s) :
    ∃ s', todo.forM (appendLogKey draws) s = .ok PUnit.unit s' ∧ Logging draws [] s' ∧
      s'.created = s.created ∧ s'.data = s.data := by
  induction todo generalizing s with
  | nil => exact ⟨s, rfl, h, rfl, rfl⟩
  | cons k todo ih =>
    obtain ⟨s', hrun, hs'⟩ := ih h.step
    exact ⟨s', (bind_of_ok (appendLogKey_apply k s)).trans hrun, hs'⟩

/-- Both sweeps done, the keys with data that no log row names are left to log. -/
theorem logging_start (hf : Fresh draws s) :
    Logging draws (s.data.scan.filter fun k => ((keptRows s).1.get? k).isNone)
      { s with keys := (keptRows s).2, log := alignedLog (keptRows s).1 s.log } where
  inverse logKey k := by rw [alignedLog_get?, keptRows_iff]
  fresh i hi := (keptRows_kept s).deleted _ (hf i hi)
  covers k := by
    rw [alignedLog_get?, List.mem_filter, Table.mem_scan, Table.mem_keys]
    cases hk : (keptRows s).1.get? k with
    | none => simp
    | some logKey => simp [((keptRows_kept s).seen k logKey hk).2]
  missing k hk := by
    rw [alignedLog_get?]
    simpa using (List.mem_filter.1 hk).2
  once := s.data.nodup_scan.filter _

/-- **`_rebuild_bookkeeping` makes the indexes from any rows** (PROVED). -/
theorem rebuildIndexes_made (hs : s.created = true) (hf : Fresh draws s) :
    ∃ s', rebuildIndexes draws s = .ok () s' ∧ Indexed draws s' := by
  obtain ⟨s', hrun, hlog, hc, -⟩ := (logging_start hf).forM
  refine ⟨s', (bind_of_ok (get_apply s)).trans ((bind_of_ok rfl).trans hrun), ?_⟩
  exact
    { inverse := hlog.inverse
      covers := fun k => by simpa using hlog.covers k
      fresh := hlog.fresh
      absent := fun hs' => by rw [hc, hs] at hs'; cases hs' }

/-! ## The children first -/

/-- A view that exists, its rows under none of the log keys to come. -/
def Existing (draws : Draws) (s : Logged K P S C) : Prop := s.created = true ∧ Fresh draws s

variable (rebuild : S → C → C × Option ViewError)

/-- A child's rebuild only rewrites a child. -/
theorem rebuildChild_of {I : Logged K P S C → Prop}
    (h : ∀ s k c c', I s → s.data.get? k = some c → I { s with data := s.data.put k c' }) (k : K) :
    Keeps I (rebuildChild rebuild k) := by
  intro s hs
  have hget : ((fun s => s.data.get? k) <$> get : EStateM ViewError (Logged K P S C) _) s =
      .ok (s.data.get? k) s := rfl
  rw [rebuildChild, bind_of_ok hget]
  match hk : s.data.get? k with
  | none => exact hs
  | some (.primitive value) => exact hs
  | some (.container structureId content) =>
    have hput := h s k _ (.container structureId (rebuild structureId content).1) hs hk
    cases hr : (rebuild structureId content).2 with
    | none =>
      simp only [hr]
      exact hput
    | some e =>
      simp only [hr]
      exact hput

theorem rebuildChild_existing (k : K) :
    Keeps (Existing (K := K) (P := P) draws) (rebuildChild rebuild k) :=
  rebuildChild_of rebuild (fun _ _ _ _ hs _ => hs) k

theorem rebuildChild_keeps (k : K) :
    Keeps (Indexed (K := K) (P := P) draws) (rebuildChild rebuild k) :=
  rebuildChild_of rebuild (fun _ _ _ c' hs hk => hs.overwrite c' hk) k

/-- Rebuilds that never raise. -/
theorem rebuildChildren_return (h : ∀ structureId content, (rebuild structureId content).2 = none)
    (l : List K) (s : Logged K P S C) :
    ∃ s', l.forM (rebuildChild rebuild) s = .ok PUnit.unit s' := by
  induction l generalizing s with
  | nil => exact ⟨s, rfl⟩
  | cons k l ih =>
    have hk : ∃ s', rebuildChild rebuild k s = .ok () s' := by
      have hget : ((fun s => s.data.get? k) <$> get : EStateM ViewError (Logged K P S C) _) s =
          .ok (s.data.get? k) s := rfl
      rw [rebuildChild, bind_of_ok hget]
      match s.data.get? k with
      | none => exact ⟨s, rfl⟩
      | some (.primitive value) => exact ⟨s, rfl⟩
      | some (.container structureId content) =>
        simp only [h]
        exact ⟨_, rfl⟩
    obtain ⟨s₁, hk⟩ := hk
    obtain ⟨s₂, hl⟩ := ih s₁
    exact ⟨s₂, (bind_of_ok hk).trans hl⟩

/-- On an existing view a child's rebuild raises, or the indexes are made. -/
theorem rebuild_cases (h : Existing draws s) :
    (∃ e s', s.data.scan.forM (rebuildChild rebuild) s = .error e s' ∧
      rebuildBookkeeping draws rebuild s = .error e s') ∨
    ∃ s', rebuildBookkeeping draws rebuild s = .ok () s' ∧ Indexed draws s' := by
  have hchildren := Keeps.forM s.data.scan (fun d _ => rebuildChild_existing rebuild d) s h
  have hstart : rebuildBookkeeping draws rebuild s =
      (s.data.scan.forM (rebuildChild rebuild) >>= fun _ => rebuildIndexes draws) s := by
    rw [rebuildBookkeeping, bind_of_ok (get_apply s), h.1]
    rfl
  cases hc : s.data.scan.forM (rebuildChild rebuild) s with
  | error e s₁ => exact Or.inl ⟨e, s₁, rfl, hstart.trans (bind_of_error hc)⟩
  | ok a s₁ =>
    rw [hc] at hchildren
    obtain ⟨s₂, hmade, hidx⟩ := rebuildIndexes_made hchildren.1 hchildren.2
    exact Or.inr ⟨s₂, hstart.trans ((bind_of_ok hc).trans hmade), hidx⟩

/-- A rebuild keeps the indexes, whether or not a child's raises. -/
theorem rebuild_keeps :
    Keeps (Indexed (K := K) (P := P) draws) (rebuildBookkeeping draws rebuild) := by
  intro s h
  cases hs : s.created with
  | false =>
    rw [rebuildBookkeeping, bind_of_ok (get_apply s), hs]
    exact h
  | true =>
    rcases rebuild_cases rebuild ⟨hs, h.fresh⟩ with ⟨e, s', hc, hrun⟩ | ⟨s', hrun, hidx⟩
    · have hchildren := Keeps.forM s.data.scan (fun d _ => rebuildChild_keeps rebuild d) s h
      rw [hc] at hchildren
      rw [hrun]
      exact hchildren
    · rw [hrun]
      exact hidx

/-! ## The bijection over runs -/

variable [DecidableEq S]

/-- Every operation keeps the indexes, whether it returns or raises. -/
theorem exec_keeps (strKey : LogKey → K) (op : LogOp K P S C) :
    Keeps (Indexed draws) (exec draws refusesKey env strKey rebuild op) := by
  have hdict : ∀ op, Keeps (Indexed draws) ((view draws refusesKey env).exec env op) :=
    fun op => Indexed.of_sim (carried_true.simulates.exec env op)
  cases op with
  | dict op =>
    cases op with
    | store value replace => exact (Indexed.of_sim (carried_true.store_sim value replace)).map _
    | set address value => exact hdict (.set address value)
    | nested address structureId write => exact hdict (.nested address structureId write)
    | del address => exact hdict (.del address)
    | pop address default => exact hdict (.pop address default)
    | clear => exact hdict .clear
    | update value kwargs => exact hdict (.update value kwargs)
    | get address default => exact hdict (.get address default)
    | contains address => exact hdict (.contains address)
    | len => exact hdict .len
    | missing => exact hdict .missing
  | append value => exact (append_keeps strKey value).map _
  | rebuildBookkeeping => exact (rebuild_keeps rebuild).map _
  | drawnElsewhere => exact generateLogKey_keeps.map _

/-- What the rows of the three areas say together. -/
structure Bijective (s : Logged K P S C) : Prop where
  /-- an id with data has one log row, which its reverse row names -/
  logged : ∀ k, (s.data.get? k).isSome → ∃ logKey, s.keys.get? logKey = some k ∧
    s.log.get? k = some logKey ∧ ∀ other, s.keys.get? other = some k → other = logKey
  /-- no other log row -/
  keysRow : ∀ logKey k, s.keys.get? logKey = some k →
    (s.data.get? k).isSome ∧ s.log.get? k = some logKey
  /-- no other reverse row -/
  logRow : ∀ k logKey, s.log.get? k = some logKey →
    (s.data.get? k).isSome ∧ s.keys.get? logKey = some k
  /-- a view that does not exist has no rows -/
  absent : s.created = false → ∀ k, s.data.get? k = none
  len : s.created = true → len s = .ok s.data.size s
  iterates : s.created = true → ∃ l : List K, iter s = .ok l s ∧ reversed s = .ok l.reverse s ∧
    l.Nodup ∧ ∀ k, k ∈ l ↔ (s.data.get? k).isSome

omit [DecidableEq S] in
theorem Indexed.bijective (h : Indexed draws s) : Bijective s where
  logged k hk := by
    obtain ⟨logKey, hlog, hkey⟩ := h.logKey_of_data hk
    exact ⟨logKey, hkey, hlog, fun other ho => h.inverse.unique ho hkey⟩
  keysRow logKey k hk := by
    have hlog := (h.inverse logKey k).1 hk
    exact ⟨(h.covers k).1 (by rw [hlog]; rfl), hlog⟩
  logRow k logKey hk := ⟨(h.covers k).1 (by rw [hk]; rfl), (h.inverse logKey k).2 hk⟩
  absent := h.absent
  len hs := (map_of_ok (scanLogKeys_made hs)).trans (by rw [h.length_rows])
  iterates hs := by
    refine ⟨s.keys.rows.map Prod.snd, map_of_ok (scanLogKeys_made hs),
      map_of_ok (scanLogKeys_made hs), h.inverse.nodup_values, fun k => ?_⟩
    rw [h.inverse.mem_values, h.covers]

/-- **The three areas describe one bijection** (PROVED): after every run of the public operations
from a view never written, and, whatever the rows of an existing view were, after a rebuild that
returns and every run that follows it. Only a child's own rebuild can make it raise. -/
theorem areas_bijective (draws : Draws) (refusesKey : K → Option Nat) (env : Env P S C X)
    (strKey : LogKey → K) :
    (∀ counter (ops : List (LogOp K P S C)), Bijective
      (outcomes (ops.map (exec draws refusesKey env strKey rebuild)) (absent counter)).2) ∧
    ∀ s, s.created = true → Fresh draws s →
      (∃ e s', s.data.scan.forM (rebuildChild rebuild) s = .error e s' ∧
        rebuildBookkeeping draws rebuild s = .error e s') ∨
      ∃ s', rebuildBookkeeping draws rebuild s = .ok () s' ∧
        ∀ ops : List (LogOp K P S C), Bijective
          (outcomes (ops.map (exec draws refusesKey env strKey rebuild)) s').2 := by
  refine ⟨fun counter ops => ?_, fun s hs hf => ?_⟩
  · exact (Keeps.outcomes (exec_keeps rebuild strKey) ops
      (indexed_absent draws counter)).bijective
  · refine (rebuild_cases rebuild ⟨hs, hf⟩).imp_right ?_
    rintro ⟨s', hrun, hidx⟩
    exact ⟨s', hrun, fun ops =>
      (Keeps.outcomes (exec_keeps rebuild strKey) ops hidx).bijective⟩

end Virtuals.Views.LogIndexedDictView

namespace Virtuals.Views.LogIndexedDictView

open Virtuals.Lib

/-! ## A view with stale rows -/

namespace Stale

/-- A clock and a random source. -/
def draws : Draws where
  ts n := 1711446123456 + n
  uid _ := "a1b2c3".toList.map code

/-- A log row of a key without data, a reverse row of another, and a key with data never logged. -/
def site : Logged Nat Unit Unit Unit where
  created := true
  data := Table.put ∅ 9 (.primitive ())
  keys := Table.put ∅ (draws.logKey 0) 7
  log := Table.put ∅ 8 (draws.logKey 0)
  counter := 0

/-- A store that creates and takes everything. -/
def env : Env Unit Unit Unit Unit where
  blocked := none
  refusesValue _ := none
  layout _ _ := ()
  read _ _ := .ok ()

theorem fresh : Fresh draws site := by
  intro i hi
  have hne : draws.logKey i ≠ draws.logKey 0 := fun e =>
    absurd (logKey_injective draws e) (Nat.ne_of_gt hi)
  exact (Table.get?_put _ _ _ _).trans ((if_neg hne).trans (Table.get?_empty _))

end Stale

/-- A rebuild of a view with stale rows, and a run that deletes what it logged. -/
theorem areas_bijective_stale :
    ∃ s', rebuildBookkeeping Stale.draws (fun _ c => (c, none)) Stale.site = .ok () s' ∧
      Bijective (outcomes ([.dict (.del (.key 9)), .append (.primitive ())].map
        (exec Stale.draws (fun _ => none) Stale.env List.length fun _ c => (c, none))) s').2 := by
  rcases (areas_bijective (fun _ c => (c, none)) Stale.draws (fun _ => none) Stale.env
    List.length).2 Stale.site rfl Stale.fresh with ⟨e, s', hraise, -⟩ | ⟨s', hrun, hops⟩
  · obtain ⟨s₁, hok⟩ := rebuildChildren_return (fun _ c => (c, none)) (fun _ _ => rfl)
      Stale.site.data.scan Stale.site
    rw [hok] at hraise
    cases hraise
  · exact ⟨s', hrun, hops _⟩

end Virtuals.Views.LogIndexedDictView
