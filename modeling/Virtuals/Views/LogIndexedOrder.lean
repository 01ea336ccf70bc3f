/-
  A log indexed dict iterates in the order of insertion, while no field of a log key outgrows its
  padding.

  A log key is ordered by its time, then by its counter, as text. Of two numerals that are padded to one
  width the longer one comes after the other only if its number is at least the other's with as many
  zeros after it (`InField`); up to the width that holds of itself. `ascending_iff` says it of the log
  keys that a process draws one after another, `insertion_order_iff` of what a view then lists: the keys
  of a dict that the same operations were done to, in its order.
-/
import Virtuals.Views.LogIndexedDict

namespace Virtuals.Views

open Virtuals.Lib

/-! ## The order of log keys -/

/-- A numeral and then a dash: the order of the numerals. -/
theorem numeral_lt {l m : List Char} (hm : ∀ c ∈ m, c.isDigit = true) (h : l < m) (x y : PyStr) :
    l.map code ++ code '-' :: x < m.map code ++ code '-' :: y := by
  induction h with
  | @nil c m =>
    have hc := (code_digit (hm c List.mem_cons_self)).1
    exact List.Lex.rel (lt_of_lt_of_le (by decide) hc)
  | cons _ ih => exact List.Lex.cons (ih fun d hd => hm d (List.mem_cons_of_mem _ hd))
  | rel hcd => exact List.Lex.rel (code_lt hcd)

theorem numeral_lt_iff {l m : List Char} (hl : ∀ c ∈ l, c.isDigit = true)
    (hm : ∀ c ∈ m, c.isDigit = true) (hne : l ≠ m) (x y : PyStr) :
    l.map code ++ code '-' :: x < m.map code ++ code '-' :: y ↔ l < m := by
  refine ⟨fun h => ?_, fun h => numeral_lt hm h x y⟩
  by_contra hnot
  exact lt_asymm h (numeral_lt hl (lt_of_le_of_ne (not_lt.1 hnot) (Ne.symm hne)) y x)

theorem padded_ne {width m n : Nat} (h : m ≠ n) : padded width m ≠ padded width n := fun he =>
  h (by rw [← ofDigitChars_padded width m, he, ofDigitChars_padded])

/-- Padded to the width, the later of two numbers comes after the earlier. -/
def InField (width m n : Nat) : Prop := 10 ^ (digits width n - digits width m) * m ≤ n

instance (width m n : Nat) : Decidable (InField width m n) := inferInstanceAs (Decidable (_ ≤ _))

variable {draws : Draws} {start counter : Nat}

/-- No field of the next log key outgrows its padding. -/
def Draws.Fits (draws : Draws) (i : Nat) : Prop :=
  if draws.ts i = draws.ts (i + 1) then InField 6 i (i + 1)
  else InField 13 (draws.ts i) (draws.ts (i + 1))

/-- Log keys drawn one after another, by a clock that does not go back. -/
theorem logKey_lt_succ_iff {i : Nat} (h : draws.ts i ≤ draws.ts (i + 1)) :
    draws.logKey i < draws.logKey (i + 1) ↔ draws.Fits i := by
  rw [Draws.logKey, Draws.logKey, Draws.Fits]
  split_ifs with hts
  · rw [← hts, append_left_lt_iff]
    refine (append_left_lt_iff [code '-']).trans ?_
    exact (numeral_lt_iff (fun _ => padded_isDigit) (fun _ => padded_isDigit)
      (padded_ne (Nat.ne_of_lt (Nat.lt_succ_self i))) _ _).trans (padded_lt_iff (Nat.lt_succ_self i))
  · exact (numeral_lt_iff (fun _ => padded_isDigit) (fun _ => padded_isDigit)
      (padded_ne hts) _ _).trans (padded_lt_iff (Nat.lt_of_le_of_ne h hts))

/-- The log keys drawn after the counter stood at `start` ascend. -/
def Ascending (draws : Draws) (start counter : Nat) : Prop :=
  ∀ i j, start < i → i < j → j ≤ counter → draws.logKey i < draws.logKey j

/-- No field outgrows its padding on the way. -/
def Fitting (draws : Draws) (start counter : Nat) : Prop :=
  ∀ i, start < i → i < counter → draws.Fits i

/-- A clock that never goes back. -/
def Forward (draws : Draws) (start : Nat) : Prop :=
  ∀ i, start < i → draws.ts i ≤ draws.ts (i + 1)

theorem Ascending.mono (h : Ascending draws start (counter + 1)) : Ascending draws start counter :=
  fun i j hi hij hj => h i j hi hij (Nat.le_succ_of_le hj)

/-- (PROVED) The log keys drawn ascend just if no field outgrows its padding on the way. -/
theorem ascending_iff (h : Forward draws start) :
    Ascending draws start counter ↔ Fitting draws start counter := by
  constructor
  · intro hasc i hi hlt
    exact (logKey_lt_succ_iff (h i hi)).1 (hasc i (i + 1) hi (Nat.lt_succ_self i) hlt)
  · intro hfit i j hi hij
    -- one draw after another
    induction j with
    | zero => exact absurd hij (Nat.not_lt_zero i)
    | succ j ih =>
      intro hj
      have hstep : start < j → draws.logKey j < draws.logKey (j + 1) := fun hs =>
        (logKey_lt_succ_iff (h j hs)).2 (hfit j hs hj)
      rcases Nat.lt_succ_iff_lt_or_eq.1 hij with hlt | rfl
      · exact lt_trans (ih hlt (Nat.le_of_succ_le hj)) (hstep (Nat.lt_trans hi hlt))
      · exact hstep hi

namespace LogIndexedDictView

variable {K P S C X : Type} [LinearOrder K]
variable {refusesKey : K → Option Nat} {env : Env P S C X}
variable {s : Logged K P S C} {m : DictModel K (Child P S C)}

/-! ## The order of the keys -/

/-- Every log row has a log key drawn since `start`; if those ascend, the log lists the keys in the
order of the dict. -/
structure InOrder (draws : Draws) (start : Nat) (s : Logged K P S C)
    (m : DictModel K (Child P S C)) : Prop where
  started : start ≤ s.counter
  drawn : ∀ row ∈ s.keys.rows, ∃ i, start < i ∧ i ≤ s.counter ∧ row.1 = draws.logKey i
  lists : Ascending draws start s.counter → s.keys.rows.map Prod.snd = m.dict.keys

omit [LinearOrder K] in
theorem inOrder_absent (draws : Draws) (start : Nat) :
    InOrder draws start (absent start : Logged K P S C) DictModel.absent where
  started := Nat.le_refl start
  drawn row h := by
    rw [absent, Table.rows_empty] at h
    cases h
  lists _ := by
    rw [absent, Table.rows_empty]
    rfl

omit [LinearOrder K] in
/-- The log key just drawn comes after all others. -/
theorem InOrder.rows_logged (h : InOrder draws start s m) (k : K)
    (hasc : Ascending draws start (s.counter + 1)) :
    (s.keys.put (draws.logKey (s.counter + 1)) k).rows =
      s.keys.rows ++ [(draws.logKey (s.counter + 1), k)] := by
  refine Table.rows_put_last _ _ fun row hrow => ?_
  obtain ⟨i, hi, hle, he⟩ := h.drawn row hrow
  rw [he]
  exact hasc i _ hi (Nat.lt_succ_of_le hle) (Nat.le_refl _)

theorem InOrder.record (h : InOrder draws start s m) (hrel : Rel draws s m) {k : K}
    (c : Child P S C) (hk : s.data.get? k = none) :
    InOrder draws start (logged draws k { s with data := s.data.put k c })
      { m with dict := m.dict.set k c } where
  started := Nat.le_succ_of_le h.started
  drawn row hrow := by
    have hget : (s.keys.put (draws.logKey (s.counter + 1)) k).get? row.1 = some row.2 :=
      Table.mem_rows.1 hrow
    rw [Table.get?_put] at hget
    split_ifs at hget with he
    · exact ⟨s.counter + 1, Nat.lt_succ_of_le h.started, Nat.le_refl _, he⟩
    · obtain ⟨i, hi, hle, hi'⟩ := h.drawn row (Table.mem_rows.2 hget)
      exact ⟨i, hi, Nat.le_succ_of_le hle, hi'⟩
  lists hasc := by
    have hnot : k ∉ m.dict.keys := by
      rw [PyDict.mem_keys, ← hrel.data, hk]
      exact Bool.false_ne_true
    have hrows : (logged draws k { s with data := s.data.put k c }).keys.rows = _ :=
      h.rows_logged k hasc
    rw [hrows, List.map_append, h.lists hasc.mono, PyDict.keys_set, if_neg hnot]
    rfl

theorem InOrder.erase (h : InOrder draws start s m) (hrel : Rel draws s m) {k : K}
    {logKey : LogKey} (hk : s.keys.get? logKey = some k) :
    InOrder draws start { s with
      data := s.data.erase k
      keys := s.keys.erase logKey
      log := s.log.erase k } { m with dict := m.dict.erase k } where
  started := h.started
  drawn row hrow := by
    rw [Table.rows_erase] at hrow
    exact h.drawn row (List.mem_filter.1 hrow).1
  lists hasc := by
    have hinv := hrel.indexed.inverse
    have hiff : ∀ row ∈ s.keys.rows, (decide (row.1 ≠ logKey)) = decide (row.2 ≠ k) := by
      intro row hrow
      have hget : s.keys.get? row.1 = some row.2 := Table.mem_rows.1 hrow
      refine decide_eq_decide.2 (not_congr ⟨fun he => ?_, fun he => ?_⟩)
      · rw [he, hk] at hget
        exact (Option.some.inj hget).symm
      · have hlog := (hinv row.1 row.2).1 hget
        rw [he, (hinv logKey k).1 hk] at hlog
        exact (Option.some.inj hlog).symm
    show (s.keys.erase logKey).rows.map Prod.snd = (m.dict.erase k).keys
    rw [Table.rows_erase, PyDict.keys_erase, ← h.lists hasc, List.filter_map,
      List.filter_congr hiff]
    rfl

theorem carried_inOrder (draws : Draws) (start : Nat) :
    Carried (K := K) (P := P) (S := S) (C := C) draws (InOrder draws start) where
  markCreated _ h := ⟨h.started, h.drawn, h.lists⟩
  overwrite {s m k c} hrel h c' hk := by
    refine ⟨h.started, h.drawn, fun hasc => ?_⟩
    have hmem : k ∈ m.dict.keys := by
      rw [PyDict.mem_keys, ← hrel.data, hk]
      rfl
    rw [PyDict.keys_set, if_pos hmem]
    exact h.lists hasc
  record hrel h c hk := h.record hrel c hk
  erase hrel h hk := h.erase hrel hk
  emptied _ h :=
    { started := h.started
      drawn := fun row hrow => by
        rw [emptied, Table.rows_empty] at hrow
        cases hrow
      lists := fun _ => by
        rw [emptied, Table.rows_empty]
        rfl }

/-! ## Runs -/

/-- What a process does: an operation of the view, an append to it, or a log key drawn by another of its
views. -/
inductive LogStep (K P S C : Type)
  | dict (op : DictOp (Address K) P S C)
  | append (value : Value P S C)
  | drawnElsewhere

def LogStep.op : LogStep K P S C → LogOp K P S C
  | .dict op => .dict op
  | .append value => .append value
  | .drawnElsewhere => .drawnElsewhere

variable [DecidableEq S]

/-- The same done to a dict: an append sets the value under the log key that is drawn for it. -/
def LogStep.onDict (draws : Draws) (refusesKey : K → Option Nat) (env : Env P S C X)
    (strKey : LogKey → K) (counter : Nat) :
    LogStep K P S C → EStateM ViewError (DictModel K (Child P S C)) (Out P X)
  | .dict op => (DictModel.view dictChecks refusesKey).exec env op
  | .append value => (fun _ => .unit) <$> (DictModel.view dictChecks refusesKey).setItem env
      (.key (strKey (draws.logKey (counter + 1)))) value
  | .drawnElsewhere => pure .unit

/-- The states of the view and of the dict after one step after another, each error caught. -/
def runBoth (draws : Draws) (refusesKey : K → Option Nat) (env : Env P S C X)
    (strKey : LogKey → K) (rebuild : S → C → C × Option ViewError) :
    List (LogStep K P S C) → Logged K P S C → DictModel K (Child P S C) →
      Logged K P S C × DictModel K (Child P S C)
  | [], s, m => (s, m)
  | step :: steps, s, m => runBoth draws refusesKey env strKey rebuild steps
      (endState (exec draws refusesKey env strKey rebuild step.op s))
      (endState (step.onDict draws refusesKey env strKey s.counter m))

omit [LinearOrder K] [DecidableEq S] in
/-- A log key drawn and not used. -/
theorem InOrder.counted (h : InOrder draws start s m) :
    InOrder draws start { s with counter := s.counter + 1 } m where
  started := Nat.le_succ_of_le h.started
  drawn row hrow := by
    obtain ⟨i, hi, hle, he⟩ := h.drawn row hrow
    exact ⟨i, hi, Nat.le_succ_of_le hle, he⟩
  lists hasc := h.lists hasc.mono

omit [DecidableEq S] in
theorem drawn_relWith (h : RelWith draws (InOrder draws start) s m) :
    RelWith draws (InOrder draws start) { s with counter := s.counter + 1 } m :=
  ⟨⟨h.1.indexed.drawn, h.1.created, h.1.data⟩, h.2.counted⟩

/-- One step keeps the view beside the dict. -/
theorem step_relWith {strKey : LogKey → K} {rebuild : S → C → C × Option ViewError}
    (step : LogStep K P S C) (h : RelWith draws (InOrder draws start) s m) :
    RelWith draws (InOrder draws start)
      (endState (exec draws refusesKey env strKey rebuild step.op s))
      (endState (step.onDict draws refusesKey env strKey s.counter m)) := by
  have hcarried := carried_inOrder (K := K) (P := P) (S := S) (C := C) draws start
  have hdict : ∀ op, RelWith draws (InOrder draws start)
      (endState ((view draws refusesKey env).exec env op s))
      (endState ((DictModel.view dictChecks refusesKey).exec env op m)) := fun op =>
    (hcarried.simulates.exec env op s m h).endState
  cases step with
  | dict op =>
    cases op with
    | store value replace =>
      exact (Sim.map (fun _ => Out.unit) (hcarried.store_sim value replace) s m h).endState
    | set address value => exact hdict (.set address value)
    | nested address structureId write => exact hdict (.nested address structureId write)
    | del address => exact hdict (.del address)
    | pop address default => exact hdict (.pop address default)
    | clear => exact hdict .clear
    | update value kwargs => exact hdict (.update value kwargs)
    | get address default => exact hdict (.get address default)
    | contains address => exact hdict (.contains address)
    | len => exact hdict .len
    | missing => exact hdict .missing
  | append value =>
    have hset : Sim (RelWith draws (InOrder draws start))
        ((view draws refusesKey env).setItem env
          (.key (strKey (draws.logKey (s.counter + 1)))) value)
        ((DictModel.view dictChecks refusesKey).setItem env
          (.key (strKey (draws.logKey (s.counter + 1)))) value) :=
      hcarried.simulates.setItem env _ value
    have hview : endState (exec draws refusesKey env strKey rebuild (.append value) s) =
        endState ((view draws refusesKey env).setItem env
          (.key (strKey (draws.logKey (s.counter + 1)))) value
          { s with counter := s.counter + 1 }) :=
      (endState_map _ _ s).trans (endState_bind_pure _ _ { s with counter := s.counter + 1 })
    rw [LogStep.op, hview, LogStep.onDict, endState_map]
    exact (hset _ _ (drawn_relWith h)).endState
  | drawnElsewhere => exact drawn_relWith h

theorem runBoth_relWith {strKey : LogKey → K} {rebuild : S → C → C × Option ViewError}
    (steps : List (LogStep K P S C)) (h : RelWith draws (InOrder draws start) s m) :
    RelWith draws (InOrder draws start)
      (runBoth draws refusesKey env strKey rebuild steps s m).1
      (runBoth draws refusesKey env strKey rebuild steps s m).2 := by
  induction steps generalizing s m with
  | nil => exact h
  | cons step steps ih => exact ih (step_relWith step h)

/-- What the view shows, against a dict. -/
structure Listed (env : Env P S C X) (s : Logged K P S C) (m : DictModel K (Child P S C)) : Prop where
  created : s.created = m.created
  data : ∀ k, s.data.get? k = m.dict.get? k
  keys : s.created = true → iter s = .ok m.dict.keys s
  /-- items and values are those of the dict, read in its order -/
  items : s.created = true → iterItems env s = liftResult
    (m.dict.items.mapM fun a => (a.1, ·) <$> ViewBase.childValue env (some a.2)) s
  values : s.created = true → iterValues env s = liftResult
    (m.dict.items.mapM fun a => ViewBase.childValue env (some a.2)) s
  /-- a view never written has no row, and says that it is absent -/
  absent : s.created = false → m.dict.items = [] ∧ iter s = .error .containerNotFound s

omit [DecidableEq S] in
theorem readListed_made (h : Rel draws s m) {k : K} {c : Child P S C} (hk : (k, c) ∈ m.dict.items) :
    readListed env k s = liftResult (ViewBase.childValue env (some c)) s := by
  have hget : s.data.get? k = some c := (h.data k).trans ((PyDict.mem_items _ _ _).1 hk)
  rw [← hget]
  rfl

omit [LinearOrder K] [DecidableEq S] in
/-- A loop over the rows is one over the items of the dict. -/
theorem mapM_rows {α : Type} {f : K → EStateM ViewError (Logged K P S C) α}
    {g : K × Child P S C → Except ViewError α} (hs : s.created = true)
    (hkeys : s.keys.rows.map Prod.snd = m.dict.keys)
    (h : ∀ a ∈ m.dict.items, f a.1 s = liftResult (g a) s) :
    (scanLogKeys >>= fun rows => rows.mapM fun row => f row.2) s =
      liftResult (m.dict.items.mapM g) s := by
  have hmap : (s.keys.rows.mapM fun row => f row.2) = m.dict.keys.mapM f := by
    rw [← hkeys, List.mapM_map]
    rfl
  rw [bind_of_ok (scanLogKeys_made hs), hmap, PyDict.keys, List.mapM_map]
  exact mapM_reads _ h

omit [DecidableEq S] in
theorem listed_of_inOrder (h : RelWith draws (InOrder draws start) s m)
    (hasc : Ascending draws start s.counter) : Listed env s m where
  created := h.1.created
  data := h.1.data
  keys hs := by
    rw [← h.2.lists hasc]
    exact map_of_ok (scanLogKeys_made hs)
  items hs := by
    refine mapM_rows (f := fun k => (k, ·) <$> readListed env k)
      (g := fun a => (a.1, ·) <$> ViewBase.childValue env (some a.2)) hs (h.2.lists hasc)
      fun a ha => ?_
    show EStateM.map _ _ _ = _
    rw [EStateM.map, readListed_made h.1 ha]
    cases ViewBase.childValue env (some a.2) <;> rfl
  values hs := mapM_rows hs (h.2.lists hasc) fun a ha => readListed_made h.1 ha
  absent hs := by
    have hnil : m.dict.items = [] := by
      rw [← List.length_eq_zero_iff, ← h.1.size_eq, ← h.1.indexed.length_rows,
        h.1.indexed.keys_empty hs, Table.rows_empty, List.length_nil]
    refine ⟨hnil, ?_⟩
    show EStateM.map _ _ _ = _
    rw [EStateM.map, scanLogKeys_absent h.1.indexed hs]

/-- **The view iterates in the order of insertion just if no field outgrows its padding** (PROVED): over
every run, from a view never written and any value of the counter, with a clock that never goes back,
the log keys drawn ascend, and keys, items and values come in the order of the dict, if and only if
every two log keys drawn one after the other fit their fields. -/
theorem insertion_order_iff (draws : Draws) (start : Nat) (hclock : Forward draws start)
    (refusesKey : K → Option Nat) (env : Env P S C X) (strKey : LogKey → K)
    (rebuild : S → C → C × Option ViewError) (steps : List (LogStep K P S C)) :
    (Ascending draws start
        (runBoth draws refusesKey env strKey rebuild steps (absent start) DictModel.absent).1.counter ∧
      Listed env
        (runBoth draws refusesKey env strKey rebuild steps (absent start) DictModel.absent).1
        (runBoth draws refusesKey env strKey rebuild steps (absent start) DictModel.absent).2) ↔
    Fitting draws start
      (runBoth draws refusesKey env strKey rebuild steps (absent start)
        DictModel.absent).1.counter := by
  have hstart : RelWith draws (InOrder draws start) (absent start : Logged K P S C)
      DictModel.absent :=
    ⟨⟨indexed_absent draws start, rfl, fun k => by
      simp [absent, DictModel.absent, PyDict.get?, PyDict.lookupItem]⟩, inOrder_absent draws start⟩
  rw [← ascending_iff hclock]
  exact ⟨fun h => h.1, fun hasc => ⟨hasc, listed_of_inOrder (runBoth_relWith steps hstart) hasc⟩⟩

end LogIndexedDictView

end Virtuals.Views

namespace Virtuals.Views.LogIndexedDictView

open Virtuals.Lib

namespace OneMillisecond

/-- A clock that stands. -/
def draws : Draws where
  ts _ := 1711446123456
  uid _ := "a1b2c3".toList.map code

/-- A store that creates and takes everything. -/
def env : Env Unit Unit Unit Unit where
  blocked := none
  refusesValue _ := none
  layout _ _ := ()
  read _ _ := .ok ()

/-- Two insertions, one after the other. -/
def steps : List (LogStep Nat Unit Unit Unit) :=
  [.dict (.set (.key 1) (.primitive ())), .dict (.set (.key 2) (.primitive ()))]

theorem forward : Forward draws 999998 := fun _ _ => Nat.le_refl _

end OneMillisecond

/-- The millionth log key sorts before the one drawn before it, in the same millisecond: the key
inserted second is listed first. -/
theorem millionth_log_key : Forward OneMillisecond.draws 999998 ∧
    (∃ s m, runBoth OneMillisecond.draws (fun _ => none) OneMillisecond.env List.length
        (fun _ c => (c, none)) OneMillisecond.steps (absent 999998) DictModel.absent = (s, m) ∧
      s.counter = 1000000 ∧ ¬ Ascending OneMillisecond.draws 999998 s.counter ∧
      m.dict.keys = [1, 2] ∧ iter s = .ok [2, 1] s) := by
  have hlt : OneMillisecond.draws.logKey 1000000 < OneMillisecond.draws.logKey 999999 := by
    decide +kernel
  refine ⟨OneMillisecond.forward, _, _, rfl, rfl, fun h => ?_, rfl, ?_⟩
  · exact lt_asymm hlt (h 999999 1000000 (by decide) (by decide) (Nat.le_refl _))
  · have hone : (Table.put ∅ (OneMillisecond.draws.logKey 999999) 1).rows =
        [(OneMillisecond.draws.logKey 999999, 1)] :=
      (Table.rows_put_last ∅ 1 fun row hrow => by
        rw [Table.rows_empty] at hrow
        cases hrow).trans (by rw [Table.rows_empty, List.nil_append])
    have htwo : ((Table.put ∅ (OneMillisecond.draws.logKey 999999) 1).put
        (OneMillisecond.draws.logKey 1000000) 2).rows =
        [(OneMillisecond.draws.logKey 1000000, 2), (OneMillisecond.draws.logKey 999999, 1)] := by
      refine Table.rows_put_between 2 (l := []) hone nofun fun row hrow => ?_
      rw [List.mem_singleton.1 hrow]
      exact hlt
    refine (map_of_ok (scanLogKeys_made rfl)).trans ?_
    show EStateM.Result.ok (List.map Prod.snd ((Table.put ∅ (OneMillisecond.draws.logKey 999999) 1).put
        (OneMillisecond.draws.logKey 1000000) 2).rows) _ = _
    rw [htwo]
    rfl

/-- The first insertions of a process. -/
theorem insertion_order_first :
    (Ascending OneMillisecond.draws 0
        (runBoth OneMillisecond.draws (fun _ => none) OneMillisecond.env List.length
          (fun _ c => (c, none)) OneMillisecond.steps (absent 0) DictModel.absent).1.counter ∧
      Listed OneMillisecond.env
        (runBoth OneMillisecond.draws (fun _ => none) OneMillisecond.env List.length
          (fun _ c => (c, none)) OneMillisecond.steps (absent 0) DictModel.absent).1
        (runBoth OneMillisecond.draws (fun _ => none) OneMillisecond.env List.length
          (fun _ c => (c, none)) OneMillisecond.steps (absent 0) DictModel.absent).2) ↔
    Fitting OneMillisecond.draws 0
      (runBoth OneMillisecond.draws (fun _ => none) OneMillisecond.env List.length
        (fun _ c => (c, none)) OneMillisecond.steps (absent 0) DictModel.absent).1.counter :=
  insertion_order_iff OneMillisecond.draws 0 (fun _ _ => Nat.le_refl _) _ _ _ _ _

end Virtuals.Views.LogIndexedDictView
