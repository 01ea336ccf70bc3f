/-
  `IndexedDictView` simulates the insertion-ordered dict.

  `Rel`: the flat list `__keys__` is the list of the dict's keys, `__data__` holds the dict's children.
  Setting a new key appends it to both; deleting one leaves both lists without it, so no position is
  ever stale.
-/
import Mathlib.Tactic.SplitIfs
import Virtuals.Views.IndexedDictView

namespace Virtuals.Views.IndexedDictView

open Virtuals.Lib

variable {K P S C X : Type} [LinearOrder K]
variable {refusesKey : K → Option Nat} {env : Env P S C X}

/-- The key index lists the keys of the dict, the data rows are its items. -/
structure Rel (s : Indexed K P S C) (m : DictModel K (Child P S C)) : Prop where
  created : s.created = m.created
  marked : s.keys.created = s.created
  lists : s.keys.Lists m.dict.keys
  data : ∀ k, s.data.get? k = m.dict.get? k
  absent : s.created = false → m.dict.items = []

theorem rel_absent : Rel (absent : Indexed K P S C) DictModel.absent where
  created := rfl
  marked := rfl
  lists := FlatList.lists_nil false none rfl
  data k := by simp [absent, DictModel.absent, PyDict.get?, PyDict.lookupItem]
  absent _ := rfl

variable {s : Indexed K P S C} {m : DictModel K (Child P S C)}

theorem Rel.mem_keys (h : Rel s m) (k : K) : k ∈ m.dict.keys ↔ (s.data.get? k).isSome := by
  rw [PyDict.mem_keys, h.data]

theorem Rel.overwrite (h : Rel s m) {k : K} {c : Child P S C} (c' : Child P S C)
    (hc : s.data.get? k = some c) :
    Rel { s with data := s.data.put k c' } { m with dict := m.dict.set k c' } where
  created := h.created
  marked := h.marked
  lists := by
    have hk : k ∈ m.dict.keys := (h.mem_keys k).2 (by simp [hc])
    rw [PyDict.keys_set, if_pos hk]
    exact h.lists
  data j := by rw [Table.get?_put, PyDict.get?_set, h.data]
  absent hs := by
    rw [h.data, PyDict.get?, h.absent hs] at hc
    cases hc

/-- A new child: its key is appended. -/
theorem Rel.record (h : Rel s m) (hs : s.created = true) {k : K} (c : Child P S C)
    (hc : s.data.get? k = none) :
    ∃ s', onKeys (FlatList.append none k) { s with data := s.data.put k c } = .ok () s' ∧
      Rel s' { m with dict := m.dict.set k c } := by
  have hrun := FlatList.append_made none k (h.marked.trans hs) h.lists
  refine ⟨_, within_of_ok hrun, ?_⟩
  have hk : k ∉ m.dict.keys := fun hk => by simpa [hc] using (h.mem_keys k).1 hk
  exact
    { created := h.created
      marked := h.marked
      lists := by
        rw [PyDict.keys_set, if_neg hk]
        exact h.lists.append k
      data := fun j => by rw [Table.get?_put, PyDict.get?_set, h.data]
      absent := fun hs' => by rw [show s.created = false from hs'] at hs; cases hs }

theorem refines : Refines (base refusesKey : ViewBase (Indexed K P S C) K P S C)
    (DictModel.base refusesKey) id Rel where
  created h := h.created
  markCreated h hs :=
    { created := rfl
      marked := rfl
      lists := ⟨h.lists.len, h.lists.rows⟩
      data := h.data
      absent := fun hs' => by cases hs' }
  marked _ := rfl
  childMarked _ _ := rfl
  refusesKey _ := rfl
  child h j := h.data j
  overwrite h _ _ c' hc := h.overwrite c' hc
  record h hs j c hc := by
    obtain ⟨s', hrun, hrel⟩ := h.record hs c hc
    exact Agree.of_ok hrun rfl hrel

omit [LinearOrder K] in
theorem iterOrderedKeys_made {l : List K} (hs : s.keys.created = true) (h : s.keys.Lists l) :
    iterOrderedKeys s = .ok l s := by
  rw [iterOrderedKeys]
  refine (bind_of_ok (get_apply s)).trans ?_
  rw [h.rows_eq]
  simp only [hs, Bool.true_or, if_true]
  rfl

theorem deleteChild_made (k : K) (hs : s.created = true) :
    deleteChild refusesKey k s = .ok () { s with data := s.data.erase k } := by
  have hreq := ViewBase.requireExists_apply (base refusesKey) s
  rw [show (base refusesKey).created s = true from hs, if_pos rfl] at hreq
  exact bind_of_ok hreq

/-- The key index without a deleted key. -/
theorem Rel.erase (h : Rel s m) (hs : s.created = true) (k : K) :
    ∃ s', (do
        deleteChild refusesKey k
        let keys ← iterOrderedKeys
        onKeys (FlatList.store none (keys.filter (· ≠ k)) true) :
          EStateM ViewError (Indexed K P S C) Unit) s = .ok () s' ∧
      Rel s' { m with dict := m.dict.erase k } := by
  obtain ⟨keys, hrun, hmade, hlists⟩ := FlatList.store_made none
    (m.dict.keys.filter (· ≠ k)) (h.marked.trans hs)
  have hread : iterOrderedKeys { s with data := s.data.erase k } =
      .ok m.dict.keys { s with data := s.data.erase k } :=
    iterOrderedKeys_made (h.marked.trans hs) h.lists
  refine ⟨_, (bind_of_ok (deleteChild_made k hs)).trans ((bind_of_ok hread).trans
    (within_of_ok hrun)), ?_⟩
  exact
    { created := h.created
      marked := hmade.trans hs.symm
      lists := by rwa [PyDict.keys_erase]
      data := fun j => by rw [Table.get?_erase, PyDict.get?_erase, h.data]
      absent := fun hs' => by rw [show s.created = false from hs'] at hs; cases hs }

theorem exists_sim (k : K) :
    Coupled (Rel : Indexed K P S C → DictModel K (Child P S C) → Prop)
      ((base refusesKey).existsChild k) ((DictModel.base refusesKey).existsChild k)
      (fun found s m => Rel s m ∧ (s.data.get? k).isSome = found) Rel :=
  Coupled.bind (refines.nodeInfo k fun _ _ h => h) fun _ =>
    Coupled.pure _ fun _ _ h => ⟨h.1, congrArg Option.isSome h.2⟩

theorem Rel.created_of_some (h : Rel s m) {k : K} (hk : (s.data.get? k).isSome = true) :
    s.created = true := by
  cases hs : s.created with
  | true => rfl
  | false =>
    rw [h.data, PyDict.get?, h.absent hs] at hk
    cases hk

theorem delItem_sim (address : Address K) :
    Sim Rel (delItem refusesKey address : EStateM ViewError (Indexed K P S C) Unit)
      (DictModel.delItem dictChecks refusesKey address) := by
  refine Sim.bind (Sim.liftResult _) fun k => Coupled.bind (exists_sim k) fun found => ?_
  cases found with
  | true =>
    refine Coupled.of_ok fun s m ⟨h, hsome⟩ => ?_
    obtain ⟨s', hrun, hrel⟩ := h.erase (h.created_of_some hsome) k
    exact ⟨(), s', _, hrun, rfl, hrel⟩
  | false => exact Coupled.throw _ fun _ _ h => h.1

theorem len_made (h : Rel s m) :
    len refusesKey s =
      if s.created then .ok m.dict.items.length s else .error .containerNotFound s := by
  have hlen : s.keys.len = m.dict.items.length := by
    rw [h.lists.len, PyDict.keys, List.length_map]
  have hreq := ViewBase.requireExists_apply (base refusesKey) s
  have hof : (ofKeys Counted.len : EStateM ViewError (Indexed K P S C) Nat) s =
      .ok m.dict.items.length s := congrArg (EStateM.Result.ok · s) hlen
  refine (bind_of_ok hof).trans ?_
  cases hs : s.created with
  | true =>
    rw [show (base refusesKey).created s = true from hs, if_pos rfl] at hreq
    by_cases hn : m.dict.items.length = 0
    · rw [if_pos hn]
      exact bind_of_ok hreq
    · rw [if_neg hn]
      rfl
  | false =>
    rw [show (base refusesKey).created s = false from hs, if_neg Bool.false_ne_true] at hreq
    rw [h.absent hs, if_pos List.length_nil]
    exact bind_of_error hreq

theorem len_sim : Sim Rel (len refusesKey : EStateM ViewError (Indexed K P S C) Nat)
    (DictModel.len refusesKey) := by
  intro s m h
  show Agree _ _ (len refusesKey s) (DictModel.len refusesKey m)
  rw [len_made h, DictModel.len_apply, ← h.created]
  cases s.created with
  | true => exact ⟨rfl, h⟩
  | false => exact ⟨rfl, h⟩

omit [LinearOrder K] in
theorem created_eq {b : Bool} (hs : s.created = b) :
    (Indexed.created <$> get : EStateM ViewError (Indexed K P S C) Bool) s = .ok b s :=
  congrArg (EStateM.Result.ok · s) hs

theorem clear_sim : Sim Rel (clear refusesKey env) (DictModel.clear (K := K)) := by
  refine Coupled.of_ok fun s m h => ?_
  cases hs : s.created with
  | true =>
    have hkeys := FlatList.clear_made none (h.marked.trans hs)
    refine ⟨(), { s with
      data := s.data.eraseAll s.data.scan
      keys := { s.keys with children := ∅, length := some 0 } }, _, ?_, rfl, ?_⟩
    · rw [clear, bind_of_ok (created_eq hs)]
      refine (bind_of_ok (ViewBase.ensureCreated_made (base refusesKey) env hs)).trans ?_
      exact (bind_of_ok rfl).trans (within_of_ok hkeys)
    · exact
        { created := h.created
          marked := h.marked
          lists := FlatList.lists_nil _ _ rfl
          data := fun k => by simp [Table.eraseAll_scan, PyDict.get?, PyDict.lookupItem]
          absent := fun _ => rfl }
  | false =>
    refine ⟨(), s, m, ?_, DictModel.clear_of_nil m (h.absent hs), h⟩
    rw [clear, bind_of_ok (created_eq hs)]
    rfl

/-- The view simulates the dict. -/
theorem simulates : Simulates (view refusesKey env : DictView (Indexed K P S C) _ _ _ _ _)
    (DictModel.view dictChecks refusesKey) id Rel where
  refines := refines
  write a := by cases a <;> rfl
  store a := by cases a <;> rfl
  read a := by cases a <;> rfl
  nested a := by cases a <;> rfl
  delItem := delItem_sim
  clear := clear_sim
  len := len_sim
  contains := containsKey_sim refines fun a => by cases a <;> rfl

/-! ## The order of the keys -/

/-- What the view shows of its contents, against the insertion-ordered dict. -/
structure Agrees (env : Env P S C X) (s : Indexed K P S C) (m : DictModel K (Child P S C)) :
    Prop where
  created : s.created = m.created
  /-- `__keys__` lists the keys of the dict, in its order -/
  keys : FlatList.rows s.keys = m.dict.keys
  /-- these are the ids that have data -/
  data : ∀ k, s.data.get? k = m.dict.get? k
  listed : ∀ k, k ∈ FlatList.rows s.keys ↔ (s.data.get? k).isSome
  /-- each once -/
  nodup : (FlatList.rows s.keys).Nodup
  /-- the stored length agrees -/
  length : s.keys.len = m.dict.items.length
  iterates : s.created = true → iterOrderedKeys s = .ok m.dict.keys s
  reverses : s.created = true → reversed s = .ok m.dict.keys.reverse s
  keyAt : ∀ i (hi : i < m.dict.keys.length), keyAt i s = .ok m.dict.keys[i] s
  /-- items and values are those of the dict, read in its order -/
  items : s.created = true → iterItems env s = liftResult
    (m.dict.items.mapM fun a => (a.1, ·) <$> ViewBase.childValue env (some a.2)) s
  values : s.created = true → iterValues env s = liftResult
    (m.dict.items.mapM fun a => ViewBase.childValue env (some a.2)) s

theorem readListed_made (h : Rel s m) {k : K} {c : Child P S C} (hk : (k, c) ∈ m.dict.items) :
    readListed env k s = liftResult (ViewBase.childValue env (some c)) s := by
  have hget : s.data.get? k = some c := (h.data k).trans ((PyDict.mem_items _ _ _).1 hk)
  rw [← hget]
  rfl

theorem Rel.agrees (h : Rel s m) : Agrees env s m where
  created := h.created
  keys := h.lists.rows_eq
  data := h.data
  listed k := by rw [h.lists.rows_eq, h.mem_keys]
  nodup := h.lists.rows_eq ▸ m.dict.keys_nodup
  length := by rw [h.lists.len, PyDict.keys, List.length_map]
  iterates hs := iterOrderedKeys_made (h.marked.trans hs) h.lists
  reverses hs := by
    have := iterOrderedKeys_made (h.marked.trans hs) h.lists
    show EStateM.map _ _ _ = _
    rw [EStateM.map, this]
  keyAt i hi := by
    rw [IndexedDictView.keyAt, onKeys]
    exact within_of_ok (h.lists.getItem hi)
  items hs := by
    refine (bind_of_ok (iterOrderedKeys_made (h.marked.trans hs) h.lists)).trans ?_
    rw [PyDict.keys, List.mapM_map]
    refine mapM_reads _ fun a ha => ?_
    have hread : readListed env a.1 s = liftResult (ViewBase.childValue env (some a.2)) s :=
      readListed_made h ha
    show EStateM.map _ _ _ = _
    rw [EStateM.map, hread]
    cases ViewBase.childValue env (some a.2) <;> rfl
  values hs := by
    refine (bind_of_ok (iterOrderedKeys_made (h.marked.trans hs) h.lists)).trans ?_
    rw [PyDict.keys, List.mapM_map]
    exact mapM_reads _ fun a ha => readListed_made h ha

/-- **The key index follows the insertion-ordered dict** (PROVED): over every run of the public
operations, from a view never written, each operation returns or raises what the dict's does, and
`__keys__` lists exactly the ids that have data, each once, in the dict's order. -/
theorem index_follows_dict [DecidableEq S] (refusesKey : K → Option Nat) (env : Env P S C X)
    (ops : List (DictOp (Address K) P S C)) :
    (outcomes (ops.map ((view refusesKey env).exec env)) absent).1 =
        (outcomes (ops.map ((DictModel.view dictChecks refusesKey).exec env)) DictModel.absent).1 ∧
      Agrees env (outcomes (ops.map ((view refusesKey env).exec env)) absent).2
        (outcomes (ops.map ((DictModel.view dictChecks refusesKey).exec env))
          DictModel.absent).2 := by
  obtain ⟨hout, hrel⟩ := Sim.outcomes ops (fun op _ => simulates.exec env op) rel_absent
  exact ⟨hout, hrel.agrees⟩

end Virtuals.Views.IndexedDictView
