/-
  The set views simulate a Python set in which two values are one member exactly when they have the
  same member key.
-/
import Virtuals.Views.SetView
import Mathlib.Data.Finset.Dedup
import Mathlib.Data.List.Nodup
import Mathlib.Tactic.ByContra
import Mathlib.Tactic.SplitIfs

namespace Virtuals.Views

open Virtuals.Lib

variable {V K N S C X : Type} [LinearOrder K]

namespace SetView

variable (check : MemberCheck V K N) (env : Env V S C X)

/-- Two values are one member: they have the same key. -/
def sameMember (v w : V) : Bool :=
  match check.makeKey v, check.makeKey w with
  | .ok k, .ok j => k = j
  | _, _ => false

/-- The rows are the members' keys, each with a member under it, and the counter is right. With `old`
some rows may be child containers that an older release wrote. -/
structure Rel (old : Bool) (s : Site K V S C) (m : PySet V) : Prop where
  counts : s.Counts
  created : s.created = m.created
  keys : ∃ ks : List K, m.members.map check.makeKey = ks.map .ok ∧ ks.Nodup ∧
    ∀ k, k ∈ s.children.keys ↔ k ∈ ks
  hashable : ∀ v ∈ m.members, check.hashable v = true
  rows : ∀ k c, s.children.get? k = some c →
    (∃ v, c = .primitive v ∧ check.hashable v = true ∧ check.makeKey v = .ok k) ∨ old = true

theorem rel_absent (old : Bool) :
    Rel check old (Counted.absent : Site K V S C) PySet.absent where
  counts := Counted.counts_absent
  created := rfl
  keys := ⟨[], rfl, List.nodup_nil, fun k => by simp [Counted.absent]⟩
  hashable v hv := by cases hv
  rows k c h := by simp [Counted.absent] at h

variable {check env} {old : Bool} {s : Site K V S C} {m : PySet V} {k : K} {v : V}

theorem sameMember_of_ok {w : V} {j : K} (hv : check.makeKey v = .ok k)
    (hw : check.makeKey w = .ok j) : sameMember check v w = decide (k = j) := by
  simp [sameMember, hv, hw]

omit [LinearOrder K] in
/-- Values under one key are equal, and hashable together. -/
theorem determines_of_ok {w : V} (hv : check.makeKey v = .ok k) (hw : check.makeKey w = .ok k) :
    check.value v = check.value w ∧ check.hashable v = check.hashable w := by
  have hkey : ∀ {v : V}, check.makeKey v = .ok k → check.unpicklable v = none ∧ check.key v = k := by
    intro v hv
    rw [MemberCheck.makeKey] at hv
    cases hp : check.unpicklable v with
    | some e => rw [hp] at hv; cases hv
    | none => rw [hp] at hv; exact ⟨rfl, Except.ok.inj hv⟩
  exact check.determines v w (hkey hv).1 (hkey hw).1 ((hkey hv).2.trans (hkey hw).2.symm)

omit [LinearOrder K] in
/-- Lists with the same keys hold the same values. -/
theorem map_value {vs ws : List V} {ks : List K} (hv : vs.map check.makeKey = ks.map .ok)
    (hw : ws.map check.makeKey = ks.map .ok) : vs.map check.value = ws.map check.value := by
  induction ks generalizing vs ws with
  | nil =>
    obtain rfl : vs = [] := by simpa using hv
    obtain rfl : ws = [] := by simpa using hw
    rfl
  | cons k ks ih =>
    cases vs with
    | nil => simp at hv
    | cons v vs =>
      cases ws with
      | nil => simp at hw
      | cons w ws =>
        simp only [List.map_cons, List.cons.injEq] at hv hw ⊢
        exact ⟨(determines_of_ok hv.1 hw.1).1, ih hv.2 hw.2⟩

/-- A value is a member when its key is among the keys of the members. -/
theorem any_same (hv : check.makeKey v = .ok k) {l : List V} {ks : List K}
    (hl : l.map check.makeKey = ks.map .ok) :
    l.any (sameMember check v) = decide (k ∈ ks) := by
  induction l generalizing ks with
  | nil =>
    obtain rfl : ks = [] := by simpa using hl.symm
    simp
  | cons w l ih =>
    cases ks with
    | nil => simp at hl
    | cons j ks =>
      simp only [List.map_cons, List.cons.injEq] at hl
      rw [List.any_cons, sameMember_of_ok hv hl.1, ih hl.2]
      simp [List.mem_cons, Bool.decide_or]

/-- The keys of the members that are left. -/
theorem map_delete (hv : check.makeKey v = .ok k) {l : List V} {ks : List K}
    (hl : l.map check.makeKey = ks.map .ok) :
    (PySet.delete (sameMember check) v l).map check.makeKey =
      (ks.filter (· ≠ k)).map .ok := by
  induction l generalizing ks with
  | nil =>
    obtain rfl : ks = [] := by simpa using hl.symm
    rfl
  | cons w l ih =>
    cases ks with
    | nil => simp at hl
    | cons j ks =>
      simp only [List.map_cons, List.cons.injEq] at hl
      have := ih hl.2
      rw [PySet.delete] at this ⊢
      rw [List.filter_cons, sameMember_of_ok hv hl.1]
      by_cases hj : k = j
      · subst hj
        simpa using this
      · simp [hj, Ne.symm hj, hl.1, this]

theorem Rel.mem_iff (h : Rel check old s m) (hv : check.makeKey v = .ok k) :
    m.members.any (sameMember check v) = (s.children.get? k).isSome := by
  obtain ⟨ks, hks, -, hmem⟩ := h.keys
  rw [any_same hv hks, Bool.eq_iff_iff, decide_eq_true_iff, ← hmem, Table.mem_keys]

/-- An unhashable value has no row: its key is no member's. -/
theorem Rel.has_iff (h : Rel check old s m) (hv : check.makeKey v = .ok k) :
    PySet.has (sameMember check) check.toPyObjects v m = (s.children.get? k).isSome := by
  rw [PySet.has, ← h.mem_iff hv]
  cases hh : check.hashable v with
  | true => rfl
  | false =>
    rw [Bool.false_and, eq_comm, List.any_eq_false]
    intro w hw hsame
    rw [sameMember, hv] at hsame
    cases hj : check.makeKey w with
    | error e => simp [hj] at hsame
    | ok j =>
      obtain rfl : k = j := by simpa [hj] using hsame
      have := (determines_of_ok hv hj).2
      rw [hh, h.hashable w hw] at this
      cases this

/-- The counter is the number of members. -/
theorem Rel.length (h : Rel check old s m) : s.len = m.members.length := by
  obtain ⟨ks, hks, hnd, hmem⟩ := h.keys
  have hset : s.children.keys = ks.toFinset := by
    ext k
    rw [hmem, List.mem_toFinset]
  have hlen := congrArg List.length hks
  rw [h.counts.len, Table.size, hset, List.toFinset_card_of_nodup hnd]
  simpa using hlen.symm

/-! ## What one write does to the relation -/

theorem Rel.mark (h : Rel check old s m) :
    Rel check old { s with created := true } { m with created := true } :=
  { h with counts := h.counts.mark, created := rfl }

/-- A new row for a new member, counted. -/
theorem Rel.record (h : Rel check old s m) (hv : check.makeKey v = .ok k)
    (hh : check.hashable v = true)
    (hs : s.created = true) (hk : s.children.get? k = none) :
    Rel check old
      { s with children := s.children.put k (.primitive v), length := some (s.len + 1) }
      { m with members := PySet.insert (sameMember check) v m.members } := by
  have hnew : m.members.any (sameMember check v) = false := by rw [h.mem_iff hv, hk]; rfl
  obtain ⟨ks, hks, hnd, hmem⟩ := h.keys
  have hfresh : k ∉ ks := by rwa [← hmem, ← Table.get?_eq_none]
  refine ⟨h.counts.record _ hk hs, h.created, ⟨ks ++ [k], ?_, ?_, fun j => ?_⟩, fun w hw => ?_,
    fun j c hc => ?_⟩
  · simp only [PySet.insert, hnew, Bool.false_eq_true, if_false, List.map_append, hks,
      List.map_cons, List.map_nil, hv]
  · exact List.Nodup.append hnd (List.nodup_singleton k) (by simpa using hfresh)
  · rw [Table.keys_put, Finset.mem_insert, hmem, List.mem_append, List.mem_singleton, or_comm]
  · simp only [PySet.insert, hnew, Bool.false_eq_true, if_false, List.mem_append,
      List.mem_singleton] at hw
    obtain hw | rfl := hw
    · exact h.hashable w hw
    · exact hh
  · simp only [Table.get?_put] at hc
    by_cases hj : j = k
    · subst hj
      rw [if_pos rfl, Option.some.injEq] at hc
      exact Or.inl ⟨v, hc.symm, hh, hv⟩
    · exact h.rows j c (by rwa [if_neg hj] at hc)

/-- A row written over the row of the same member. -/
theorem Rel.overwrite (h : Rel check old s m) (hv : check.makeKey v = .ok k)
    (hh : check.hashable v = true) {c : Child V S C} (hk : s.children.get? k = some c) :
    Rel check old { s with children := s.children.put k (.primitive v) }
      { m with members := PySet.insert (sameMember check) v m.members } := by
  have hin : m.members.any (sameMember check v) = true := by rw [h.mem_iff hv, hk]; rfl
  have hmem : k ∈ s.children.keys := (Table.mem_keys _ _).2 (by simp [hk])
  obtain ⟨ks, hks, hnd, hkeys⟩ := h.keys
  refine ⟨h.counts.overwrite _ hk, h.created, ⟨ks, ?_, hnd, fun j => ?_⟩, fun w hw => ?_,
    fun j d hd => ?_⟩
  · simp only [PySet.insert, hin, if_true, hks]
  · rw [Table.keys_put_of_mem _ _ hmem, hkeys]
  · simp only [PySet.insert, hin, if_true] at hw
    exact h.hashable w hw
  · simp only [Table.get?_put] at hd
    by_cases hj : j = k
    · subst hj
      rw [if_pos rfl, Option.some.injEq] at hd
      exact Or.inl ⟨v, hd.symm, hh, hv⟩
    · exact h.rows j d (by rwa [if_neg hj] at hd)

/-- A member's row deleted, and counted down. -/
theorem Rel.erase (h : Rel check old s m) (hv : check.makeKey v = .ok k)
    {c : Child V S C} (hk : s.children.get? k = some c) :
    Rel check old
      { s with children := s.children.erase k, length := some (s.len - 1) }
      { m with members := PySet.delete (sameMember check) v m.members } := by
  obtain ⟨ks, hks, hnd, hmem⟩ := h.keys
  refine ⟨h.counts.erase hk, h.created, ⟨ks.filter (· ≠ k), map_delete hv hks, hnd.filter _, fun j => ?_⟩,
    fun w hw => h.hashable w (List.mem_filter.1 hw).1, fun j d hd => ?_⟩
  · rw [Table.keys_erase, Finset.mem_erase, hmem, List.mem_filter, decide_eq_true_iff, and_comm]
  · simp only [Table.get?_erase] at hd
    by_cases hj : j = k
    · rw [if_pos hj] at hd; cases hd
    · exact h.rows j d (by rwa [if_neg hj] at hd)

/-- The members of a site never written are none. -/
theorem Rel.members_absent (h : Rel check old s m) (hs : s.created = false) : m.members = [] := by
  have := h.length
  rw [Counted.len, (h.counts.absent hs).2] at this
  exact List.eq_nil_of_length_eq_zero this.symm

theorem Rel.clear (h : Rel check old s m) (hs : s.created = true) :
    Rel check old { s with children := s.children.eraseAll s.children.scan, length := some 0 }
      { m with members := [] } where
  counts := Counted.Counts.cleared hs
  created := h.created
  keys := ⟨[], rfl, List.nodup_nil, fun k => by simp [Table.eraseAll_scan]⟩
  hashable v hv := by cases hv
  rows k c hc := by simp [Table.eraseAll_scan] at hc

/-! ## The programs -/

/-- The states of an existing set. -/
def Made (check : MemberCheck V K N) (old : Bool) (s : Site K V S C) (m : PySet V) : Prop :=
  Rel check old s m ∧ s.created = true

/-- The counter written again as it is. -/
theorem Rel.recount (h : Rel check old s m) (hs : s.created = true) :
    Rel check old { s with length := some s.len } m :=
  { h with
    counts := ⟨h.counts.len, fun h' => by rw [show s.created = false from h'] at hs; cases hs⟩ }

theorem ensureCreated_sim : Coupled (Rel check old) (base.ensureCreated env)
    (PySet.ensureCreated env) (fun _ => Made check old) (Rel check old) := by
  intro s m h
  cases hs : s.created with
  | true =>
    have hm : m.created = true := h.created ▸ hs
    rw [ViewBase.ensureCreated_made base env hs]
    simp only [PySet.ensureCreated, Bind.bind, EStateM.bind, Functor.map, EStateM.map, get_apply, hm]
    exact ⟨rfl, h, hs⟩
  | false =>
    have hm : m.created = false := h.created ▸ hs
    simp only [ViewBase.ensureCreated, PySet.ensureCreated, Bind.bind, EStateM.bind, Functor.map,
      EStateM.map, get_apply, hm]
    rw [show (base : ViewBase (Site K V S C) K V S C).created s = false from hs]
    cases env.blocked with
    | some e => exact ⟨rfl, h⟩
    | none => exact ⟨rfl, h.mark, rfl⟩

theorem nodeInfo_apply (s : Site K V S C) : base.nodeInfo k s = .ok (s.children.get? k) s := rfl

theorem putChildPrimitive_container {t : S} {c : C} (hk : s.children.get? k = some (.container t c)) :
    base.putChildPrimitive env k v s = .error .containerType s := by
  rw [ViewBase.putChildPrimitive, bind_of_ok (nodeInfo_apply s), hk]
  rfl

/-- A value that the store refuses is reported unless a container is there. -/
theorem putChildPrimitive_refused {e : Nat} (hk : ∀ t c, s.children.get? k ≠ some (.container t c))
    (hr : env.refusesValue v = some e) :
    base.putChildPrimitive env k v s = .error (.other e) s := by
  rw [ViewBase.putChildPrimitive, bind_of_ok (nodeInfo_apply s)]
  rcases hc : s.children.get? k with _ | _ | ⟨t, c⟩
  · rw [hr]
    rfl
  · rw [hr]
    rfl
  · exact absurd hc (hk t c)

theorem putChildPrimitive_present {w : V} (hk : s.children.get? k = some (.primitive w))
    (hr : env.refusesValue v = none) : base.putChildPrimitive env k v s =
      .ok () { s with children := s.children.put k (.primitive v) } := by
  rw [ViewBase.putChildPrimitive, bind_of_ok (nodeInfo_apply s), hk, hr]
  rfl

theorem putChildPrimitive_missing (hk : s.children.get? k = none)
    (hr : env.refusesValue v = none) : base.putChildPrimitive env k v s = .ok () { s with
      children := s.children.put k (.primitive v), length := some (s.len + 1) } := by
  rw [ViewBase.putChildPrimitive, bind_of_ok (nodeInfo_apply s), hk, hr]
  rfl

theorem put_refused {e : Nat} (hr : env.refusesValue v = some e) (m : PySet V) :
    PySet.put (sameMember check) env v m = .error (.other e) m := by
  rw [PySet.put, hr]
  rfl

theorem put_stored (hr : env.refusesValue v = none) (m : PySet V) :
    PySet.put (sameMember check) env v m =
      .ok () { m with members := PySet.insert (sameMember check) v m.members } := by
  rw [PySet.put, hr]
  rfl

/-- An old member is deleted, counted down and written again: one member as before. -/
theorem putMember_old {t : S} {c : C} (h : Rel check old s m) (hs : s.created = true)
    (hk : s.children.get? k = some (.container t c))
    (hr : env.refusesValue v = none) :
    putMember env k v s = .ok ()
      { s with children := s.children.put k (.primitive v), length := some s.len } := by
  have hput : base.putChildPrimitive env k v s = .error .containerType s := by
    exact putChildPrimitive_container hk
  have hpos := h.counts.pos hk
  have hrow : (s.children.erase k).put k (.primitive v) = s.children.put k (.primitive v) :=
    Table.ext fun j => by
      simp only [Table.get?_put, Table.get?_erase]
      split_ifs <;> rfl
  have hnone : (s.children.erase k).get? k = none := by simp [Table.get?_erase]
  rw [putMember, tryCatch_of_error hput, if_pos rfl, bind_of_ok (Counted.deleteChild_made k hs)]
  refine (bind_of_ok (Counted.decrementLength_pos (s := { s with
    children := s.children.erase k }) hpos)).trans ?_
  refine (putChildPrimitive_missing hnone hr).trans ?_
  simp only [hrow, Counted.len, Option.getD_some] at hpos ⊢
  rw [Nat.sub_add_cancel hpos]

/-- A member present or not, counted once. -/
theorem putMember_sim (hold : old = true → ∀ w, env.refusesValue w = none)
    (hv : check.makeKey v = .ok k) (hh : check.hashable v = true) :
    Coupled (Made check old) (putMember env k v) (PySet.put (sameMember check) env v)
      (fun _ => Made check old) (Rel check old) := by
  intro s m ⟨h, hs⟩
  by_cases hc : ∃ t c, s.children.get? k = some (.container t c)
  · obtain ⟨t, c, hk⟩ := hc
    -- only an older release wrote such a member
    have hno : env.refusesValue v = none := by
      rcases h.rows k _ hk with ⟨w, hw, -⟩ | hold'
      · cases hw
      · exact hold hold' v
    rw [put_stored hno, putMember_old h hs hk hno]
    exact ⟨rfl, (h.overwrite hv hh hk).recount hs, hs⟩
  cases hr : env.refusesValue v with
  | some e =>
    rw [put_refused hr, putMember, tryCatch_of_error
      (putChildPrimitive_refused (fun t c hk => hc ⟨t, c, hk⟩) hr)]
    exact ⟨rfl, h⟩
  | none =>
    rw [put_stored hr, putMember]
    rcases hk : s.children.get? k with _ | w | ⟨t, c⟩
    · rw [tryCatch_of_ok (putChildPrimitive_missing hk hr)]
      exact ⟨rfl, h.record hv hh hs hk, hs⟩
    · rw [tryCatch_of_ok (putChildPrimitive_present hk hr)]
      exact ⟨rfl, h.overwrite hv hh hk, hs⟩
    · exact absurd ⟨t, c, hk⟩ hc

omit [LinearOrder K] in
theorem makeKey_map (value : V) :
    (check.makeKey value).map (fun _ => ()) = check.toPyObjects.pickles value := by
  rw [MemberCheck.makeKey, PyObjects.pickles]
  cases check.unpicklable value <;> rfl

omit [LinearOrder K] in
/-- The check of the view raises what a set's does. -/
theorem checkMember_map (value : V) :
    (checkMember check value).map (fun _ => ()) = PySet.admits check.toPyObjects value := by
  rw [checkMember, PySet.admits]
  split_ifs
  · rfl
  · exact makeKey_map value
  · rfl

omit [LinearOrder K] in
theorem checkMember_ok (h : checkMember check v = .ok k) :
    check.makeKey v = .ok k ∧ check.hashable v = true := by
  rw [checkMember] at h
  split_ifs at h with _ hh
  exact ⟨h, hh⟩

/-- One side goes on with the member's key, the other only asks whether the value pickles. -/
theorem keyed_sim {α : Type} {f : K → EStateM ViewError (Site K V S C) α}
    {n : EStateM ViewError (PySet V) α} (value : V)
    (h : ∀ k, check.makeKey value = .ok k → Sim (Rel check old) (f k) n) :
    Sim (Rel check old) (liftResult (check.makeKey value) >>= f)
      (liftResult (check.toPyObjects.pickles value) >>= fun _ => n) := by
  rw [← makeKey_map]
  exact Sim.checked h

theorem add_sim (hold : old = true → ∀ w, env.refusesValue w = none) (value : V) :
    Sim (Rel check old) (add check env value)
      (PySet.add (sameMember check) check.toPyObjects env value) := by
  rw [PySet.add, ← checkMember_map]
  refine Sim.checked fun k hk => Coupled.bind ensureCreated_sim fun _ => ?_
  obtain ⟨hv, hh⟩ := checkMember_ok hk
  exact (putMember_sim hold hv hh).mono (fun _ _ h => h) fun _ _ _ h => h.1

/-- Whether a member is there, read both ways. -/
theorem exists_sim (hv : check.makeKey v = .ok k) :
    Coupled (Rel check old : Site K V S C → PySet V → Prop) (base.existsChild k)
      (PySet.has (sameMember check) check.toPyObjects v <$> get)
      (fun found s m => Rel check old s m ∧ (s.children.get? k).isSome = found)
      (Rel check old) :=
  fun _ _ h => ⟨(h.has_iff hv).symm, h, rfl⟩

theorem requireExists_sim :
    Sim (Rel check old) (base : ViewBase (Site K V S C) K V S C).requireExists
      PySet.requireExists :=
  Sim.bind (Sim.gets fun _ _ h => h.created) fun _ => Sim.raiseIf _

theorem Rel.created_of_some (h : Rel check old s m) {c : Child V S C}
    (hk : s.children.get? k = some c) : s.created = true := by
  by_contra hs
  rw [(h.counts.absent (by simpa using hs)).1, Table.get?_empty] at hk
  cases hk

theorem deleteMember_sim (hv : check.makeKey v = .ok k) :
    Coupled (fun s m => Rel check old s m ∧ (s.children.get? k).isSome = true)
      (deleteMember env k)
      (modify fun m => { m with members := PySet.delete (sameMember check) v m.members })
      (fun _ => Rel check old) (Rel check old) := by
  refine Coupled.of_ok fun s m ⟨h, hsome⟩ => ?_
  obtain ⟨c, hk⟩ := Option.isSome_iff_exists.1 hsome
  have hs := h.created_of_some hk
  refine ⟨(), _, _, ?_, rfl, h.erase hv hk⟩
  rw [deleteMember, bind_of_ok (ViewBase.ensureCreated_made base env hs),
    bind_of_ok (Counted.deleteChild_made k hs)]
  exact Counted.decrementLength_pos (h.counts.pos hk)

theorem remove_sim (value : V) :
    Sim (Rel check old) (remove check env value)
      (PySet.remove (sameMember check) check.toPyObjects value) := by
  refine keyed_sim value fun k hv => Coupled.bind (exists_sim hv) fun found => ?_
  cases found with
  | true => exact deleteMember_sim hv
  | false => exact Coupled.throw _ fun _ _ h => h.1

theorem discard_sim (value : V) :
    Sim (Rel check old) (discard check env value)
      (PySet.discard (sameMember check) check.toPyObjects value) := by
  refine keyed_sim value fun k hv => Coupled.bind (exists_sim hv) fun found => ?_
  cases found with
  | true => exact deleteMember_sim hv
  | false => exact Coupled.pure _ fun _ _ h => h.1

theorem contains_sim (value : V) :
    Sim (Rel check old) (contains check value : EStateM ViewError (Site K V S C) Bool)
      (PySet.contains (sameMember check) check.toPyObjects value) := by
  refine keyed_sim value fun k hv => Coupled.bind (exists_sim hv) fun found => ?_
  cases found with
  | true => exact Coupled.pure _ fun _ _ h => h.1
  | false =>
    exact (Sim.bind requireExists_sim fun _ => Sim.pure false).mono (fun _ _ h => h.1)
      fun _ _ _ h => h

theorem size_sim : Sim (Rel check old) (Counted.size : EStateM ViewError (Site K V S C) Nat)
    PySet.len := by
  intro s m h
  rw [h.counts.size_apply, PySet.len_apply, ← h.created, h.length]
  cases s.created with
  | true => exact ⟨rfl, h⟩
  | false => exact ⟨rfl, h⟩

theorem clear_sim : Sim (Rel check old) (clear env) PySet.clear := by
  refine Coupled.of_ok fun s m h => ?_
  cases hs : s.created with
  | false =>
    refine ⟨(), s, _, Counted.clear_absent _ _ hs, rfl, ?_⟩
    show Rel check old s { m with members := [] }
    rwa [← h.members_absent hs]
  | true => exact ⟨(), _, _, Counted.clear_made _ _ hs, rfl, h.clear hs⟩

/-- The members of a bulk write, one after another. -/
theorem putMembers_sim (hold : old = true → ∀ w, env.refusesValue w = none) {items : List V}
    {keyed : List (K × V)}
    (hk : items.mapM (fun item => (·, item) <$> checkMember check item) = .ok keyed) :
    Coupled (Made check old) (keyed.forM fun a => putMember env a.1 a.2)
      (items.forM fun item => PySet.put (sameMember check) env item)
      (fun _ => Made check old) (Rel check old) := by
  induction items generalizing keyed with
  | nil =>
    rw [List.mapM_nil] at hk
    cases hk
    exact Coupled.pure _ fun _ _ h => h
  | cons item items ih =>
    rw [List.mapM_cons] at hk
    cases hc : checkMember check item with
    | error e => rw [hc] at hk; cases hk
    | ok k =>
      cases hrest : items.mapM (fun item => (·, item) <$> checkMember check item) with
      | error e => rw [hc, hrest] at hk; cases hk
      | ok rest =>
        rw [hc, hrest] at hk
        change Except.ok ((k, item) :: rest) = Except.ok keyed at hk
        cases hk
        obtain ⟨hv, hh⟩ := checkMember_ok hc
        exact Coupled.bind (putMember_sim hold hv hh) fun _ => ih hrest

omit [LinearOrder K] in
/-- Checking the members of a bulk write, with and without their keys. -/
theorem checkAll (items : List V) :
    items.forM (PySet.admits check.toPyObjects) =
      (items.mapM fun item => (·, item) <$> checkMember check item).map fun _ => () := by
  induction items with
  | nil => rfl
  | cons item items ih =>
    have hcons : (item :: items).forM (PySet.admits check.toPyObjects) =
        (PySet.admits check.toPyObjects item >>= fun _ =>
          items.forM (PySet.admits check.toPyObjects)) := rfl
    rw [hcons, List.mapM_cons, ih, ← checkMember_map]
    cases checkMember check item with
    | error e => rfl
    | ok k => cases items.mapM fun item => (·, item) <$> checkMember check item <;> rfl

/-- Clearing an existing set. -/
theorem clear_made_sim : Coupled (Made check old) (clear env) PySet.clear
    (fun _ => Made check old) (Rel check old) :=
  Coupled.of_ok fun _ _ h =>
    ⟨(), _, _, Counted.clear_made _ _ h.2, rfl, h.1.clear h.2, h.2⟩

/-- The frozenset view clears by hand, to the same end. -/
theorem clearByHand_sim : Coupled (Made check old)
    ((do Counted.clearChildren; Counted.setLength 0) : EStateM ViewError (Site K V S C) Unit)
    PySet.clear (fun _ => Made check old) (Rel check old) :=
  Coupled.of_ok fun _ _ h => ⟨(), _, _, rfl, rfl, h.1.clear h.2, h.2⟩

/-- A bulk write of a set view, by whatever clears an existing one. -/
theorem storing_sim (hold : old = true → ∀ w, env.refusesValue w = none) (items : List V)
    (replace : Bool) {clearing : EStateM ViewError (Site K V S C) Unit}
    (hclear : Coupled (Made check old) clearing PySet.clear (fun _ => Made check old)
      (Rel check old)) :
    Sim (Rel check old)
      (do
        let keyed ← liftResult (items.mapM fun item => (·, item) <$> checkMember check item)
        base.ensureCreated env
        if replace then clearing else pure ()
        keyed.forM fun a => putMember env a.1 a.2)
      (PySet.store (sameMember check) check.toPyObjects env items replace) := by
  rw [PySet.store, checkAll]
  refine Sim.checked fun keyed hk => Coupled.bind ensureCreated_sim fun _ => ?_
  have hput : Coupled (Made check old) (keyed.forM fun a => putMember env a.1 a.2)
      (items.forM fun item => PySet.put (sameMember check) env item)
      (fun _ => Rel check old) (Rel check old) :=
    (putMembers_sim hold hk).mono (fun _ _ h => h) fun _ _ _ h => h.1
  cases replace with
  | true => exact Coupled.bind hclear fun _ => hput
  | false => exact Coupled.bind (Coupled.pure () fun _ _ h => h) fun _ => hput

theorem store_sim (hold : old = true → ∀ w, env.refusesValue w = none) (items : List V)
    (replace : Bool) :
    Sim (Rel check old) (store check env items replace)
      (PySet.store (sameMember check) check.toPyObjects env items replace) :=
  storing_sim hold items replace clear_made_sim

/-- The members under a list of keys, read one after another. -/
theorem readMembers (h : Rel check false s m) (l : List K) (hl : ∀ k ∈ l, k ∈ s.children.keys) :
    ∃ vs : List V, vs.map check.makeKey = l.map .ok ∧ vs.all check.hashable = true ∧
      ∀ u : Site K V S C,
      (l.mapM fun key => match s.children.get? key with
        | none => return none
        | some (.primitive value) => return some value
        | some (.container _ _) => throw .containerType :
        EStateM ViewError (Site K V S C) (List (Option V))) u = .ok (vs.map some) u := by
  induction l with
  | nil => exact ⟨[], rfl, rfl, fun _ => rfl⟩
  | cons k l ih =>
    obtain ⟨vs, hvs, hall, hrun⟩ := ih fun j hj => hl j (List.mem_cons_of_mem k hj)
    obtain ⟨c, hk⟩ := Option.isSome_iff_exists.1
      ((Table.mem_keys _ _).1 (hl k List.mem_cons_self))
    obtain ⟨v, rfl, hh, hv⟩ := (h.rows k c hk).resolve_right Bool.false_ne_true
    refine ⟨v :: vs, ?_, ?_, fun u => ?_⟩
    · rw [List.map_cons, List.map_cons, hv, hvs]
    · rw [List.all_cons, hh, hall, Bool.true_and]
    · rw [List.mapM_cons, hk]
      exact (bind_of_ok rfl).trans ((bind_of_ok (hrun u)).trans rfl)

/-- **Iterating yields each member of the set once** (PROVED), up to values with one member key, which
are equal. -/
theorem iter_members (h : Rel check false s m) (hs : s.created = true) :
    ∃ vs : List V, iter s = .ok vs s ∧ vs.all check.hashable = true ∧
      (vs.map check.makeKey).Perm (m.members.map check.makeKey) ∧
      (vs.map check.value).Perm (m.members.map check.value) := by
  obtain ⟨vs, hvs, hall, hrun⟩ :=
    readMembers h s.children.scan fun k hk => (Table.mem_scan _ k).1 hk
  obtain ⟨ks, hks, hnd, hmem⟩ := h.keys
  have hperm : (vs.map check.makeKey).Perm (m.members.map check.makeKey) := by
    rw [hvs, hks]
    refine List.Perm.map _ ((List.perm_ext_iff_of_nodup (Table.nodup_scan _) hnd).2 fun k => ?_)
    rw [Table.mem_scan, hmem]
  refine ⟨vs, ?_, hall, hperm, ?_⟩
  · rw [iter]
    refine (bind_of_ok (get_apply s)).trans ?_
    simp only [hs, Bool.true_or, if_true]
    refine (bind_of_ok (hrun s)).trans ?_
    rw [List.filterMap_map, show (id ∘ some : V → Option V) = some from rfl, List.filterMap_some]
    rfl
  · -- the members in the order of the scan
    obtain ⟨ms, hms, hmembers⟩ :=
      (congrFun₂ (List.eq_map_comp_perm check.makeKey) _ m.members).mpr hperm
    rw [map_value hvs (hms.symm.trans hvs)]
    exact hmembers.map _

theorem iter_absent (h : s.Counts) (hs : s.created = false) :
    iter s = .error .containerNotFound s := by
  have hscan : s.children.scan.isEmpty = true := by
    rw [List.isEmpty_iff, List.eq_nil_iff_forall_not_mem]
    intro k
    rw [Table.mem_scan, (h.absent hs).1]
    exact Finset.notMem_empty k
  rw [iter]
  refine (bind_of_ok (get_apply s)).trans ?_
  rw [hs, hscan]
  rfl

/-- **An operator returns the set of the same values** (PROVED): a view is read and left as it is. -/
theorem operator_sim [DecidableEq N] (hold : old = false) (op : SetOperator) (other : Operand V) :
    Sim (Rel check old : Site K V S C → PySet V → Prop) (operator check op other)
      (PySet.operator check.toPyObjects op other) := by
  subst hold
  intro s m h
  have hmade := PySet.requireExists_apply m
  cases hs : s.created with
  | false =>
    rw [← h.created, hs] at hmade
    exact Agree.of_error (bind_of_error (iter_absent h.counts hs)) (bind_of_error hmade) h
  | true =>
    rw [← h.created, hs] at hmade
    obtain ⟨vs, hiter, hall, -, hvalues⟩ := iter_members h hs
    have hmine : check.toSet vs = .ok (m.members.map check.value).toFinset := by
      rw [PyObjects.toSet, if_pos hall, List.toFinset_eq_of_perm _ _ hvalues]
    rw [operator, bind_of_ok hiter, hmine, PySet.operator, bind_of_ok hmade]
    exact Sim.bind (Sim.liftResult (check.operandSet other)) (fun _ => Sim.pure _) s m h

end SetView

theorem FrozenSetView.store_sim {check : MemberCheck V K N} {env : Env V S C X} {old : Bool}
    (hold : old = true → ∀ w, env.refusesValue w = none) (items : List V) (replace : Bool) :
    Sim (SetView.Rel check old) (FrozenSetView.store check env items replace)
      (PySet.store (SetView.sameMember check) check.toPyObjects env items replace) :=
  SetView.storing_sim hold items replace SetView.clearByHand_sim

end Virtuals.Views
