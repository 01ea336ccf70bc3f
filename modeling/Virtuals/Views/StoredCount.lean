/-
  The stored count of the set views and of `Kh57View`, over whole runs of their public operations.

  A run starts at any site in the relation to its model, so at one never written, an empty one or a
  populated one; every error is caught and the run goes on. Two values are one member of a set view
  when they have the same member key: `1` and `True`, which Python's own set takes for one member, are
  two.
-/
import Mathlib.Data.String.Basic
import Virtuals.Views.Kh57Refines
import Virtuals.Views.SetRefines

namespace Virtuals.Views

open Virtuals.Lib

/-- The public operations of `SetView`. -/
inductive SetOp (V : Type)
  | add (value : V)
  | remove (value : V)
  | discard (value : V)
  | clear
  | store (items : List V) (replace : Bool)
  | contains (value : V)
  | len
  /-- `view | other`, `view |= other` and the like -/
  | operator (op : SetOperator) (other : Operand V)
  /-- a method of `set` that the view does not have: `pop`, `update` and the other updates -/
  | missing

/-- The public operations of `FrozenSetView`. -/
inductive FrozenSetOp (V : Type)
  | store (items : List V) (replace : Bool)
  | contains (value : V)
  | len
  | operator (op : SetOperator) (other : Operand V)
  /-- a method of `set` that the view does not have, `add` among them -/
  | missing

/-- What an operation of a set returns. -/
inductive SetOut (N : Type)
  | unit
  | bool (b : Bool)
  | nat (n : Nat)
  /-- a set, or a frozenset, of its own -/
  | set (values : Finset N)
  deriving DecidableEq

/-- The members are read. -/
def SetOp.reads {V : Type} : SetOp V → Bool
  | .operator _ _ => true
  | _ => false

variable {V K N S C X : Type} [LinearOrder K] [DecidableEq N]

def SetView.exec (check : MemberCheck V K N) (env : Env V S C X) :
    SetOp V → EStateM ViewError (SetView.Site K V S C) (SetOut N)
  | .add value => (fun _ => .unit) <$> SetView.add check env value
  | .remove value => (fun _ => .unit) <$> SetView.remove check env value
  | .discard value => (fun _ => .unit) <$> SetView.discard check env value
  | .clear => (fun _ => .unit) <$> SetView.clear env
  | .store items replace => (fun _ => .unit) <$> SetView.store check env items replace
  | .contains value => .bool <$> SetView.contains check value
  | .len => .nat <$> Counted.size
  | .operator op other => .set <$> SetView.operator check op other
  | .missing => throw .attributeError

def FrozenSetView.exec (check : MemberCheck V K N) (env : Env V S C X) :
    FrozenSetOp V → EStateM ViewError (SetView.Site K V S C) (SetOut N)
  | .store items replace => (fun _ => .unit) <$> FrozenSetView.store check env items replace
  | .contains value => .bool <$> SetView.contains check value
  | .len => .nat <$> Counted.size
  | .operator op other => .set <$> SetView.operator check op other
  | .missing => throw .attributeError

/-- The same operations of a Python set whose members are told apart by `same`. -/
def PySet.exec (same : V → V → Bool) (objects : PyObjects V N) (env : Env V S C X) :
    SetOp V → EStateM ViewError (PySet V) (SetOut N)
  | .add value => (fun _ => .unit) <$> PySet.add same objects env value
  | .remove value => (fun _ => .unit) <$> PySet.remove same objects value
  | .discard value => (fun _ => .unit) <$> PySet.discard same objects value
  | .clear => (fun _ => .unit) <$> PySet.clear
  | .store items replace => (fun _ => .unit) <$> PySet.store same objects env items replace
  | .contains value => .bool <$> PySet.contains same objects value
  | .len => .nat <$> PySet.len
  | .operator op other => .set <$> PySet.operator objects op other
  | .missing => throw .attributeError

/-- The operations of a frozenset view are among those of a set. -/
def FrozenSetOp.op {V : Type} : FrozenSetOp V → SetOp V
  | .store items replace => .store items replace
  | .contains value => .contains value
  | .len => .len
  | .operator op other => .operator op other
  | .missing => .missing

section Runs

variable {check : MemberCheck V K N} {env : Env V S C X} {old : Bool}

theorem SetView.exec_sim (hold : old = true → ∀ w, env.refusesValue w = none) (op : SetOp V)
    (hop : old = true → op.reads = false) :
    Sim (SetView.Rel check old) (SetView.exec check env op)
      (PySet.exec (SetView.sameMember check) check.toPyObjects env op) := by
  cases op with
  | add value => exact Sim.map _ (SetView.add_sim hold value)
  | remove value => exact Sim.map _ (SetView.remove_sim value)
  | discard value => exact Sim.map _ (SetView.discard_sim value)
  | clear => exact Sim.map _ SetView.clear_sim
  | store items replace => exact Sim.map _ (SetView.store_sim hold items replace)
  | contains value => exact Sim.map _ (SetView.contains_sim value)
  | len => exact Sim.map _ SetView.size_sim
  | operator op other =>
    have hold : old = false := Bool.eq_false_iff.2 fun h => Bool.noConfusion (hop h)
    exact Sim.map _ (SetView.operator_sim hold op other)
  | missing => exact Sim.throw _

theorem FrozenSetView.exec_sim (hold : old = true → ∀ w, env.refusesValue w = none)
    (op : FrozenSetOp V) (hop : old = true → op.op.reads = false) :
    Sim (SetView.Rel check old) (FrozenSetView.exec check env op)
      (PySet.exec (SetView.sameMember check) check.toPyObjects env op.op) := by
  cases op with
  | store items replace => exact Sim.map _ (FrozenSetView.store_sim hold items replace)
  | contains value => exact SetView.exec_sim hold (.contains value) hop
  | len => exact SetView.exec_sim hold .len hop
  | operator op other => exact SetView.exec_sim hold (.operator op other) hop
  | missing => exact SetView.exec_sim hold .missing hop

end Runs

/-- What a set view shows of its contents, against the model's. -/
structure SetView.Agrees (check : MemberCheck V K N) (old : Bool) (s : SetView.Site K V S C)
    (m : PySet V) : Prop where
  /-- the stored count is the number of rows -/
  count : s.len = s.children.size
  /-- which is the number of members -/
  members : s.len = m.members.length
  created : s.created = m.created
  /-- the rows are the members' keys -/
  rows : ∀ v k, check.makeKey v = .ok k →
    ((s.children.get? k).isSome ↔ m.members.any (SetView.sameMember check v) = true)
  /-- iterating yields each member once: a value of its key, equal to it -/
  iterates : old = false → s.created = true → ∃ vs : List V, SetView.iter s = .ok vs s ∧
    (vs.map check.makeKey).Perm (m.members.map check.makeKey) ∧
    (vs.map check.value).Perm (m.members.map check.value)

omit [DecidableEq N] in
theorem SetView.Rel.agrees {check : MemberCheck V K N} {old : Bool} {s : SetView.Site K V S C}
    {m : PySet V} (h : SetView.Rel check old s m) : SetView.Agrees check old s m where
  count := h.counts.len
  members := h.length
  created := h.created
  rows v k hv := by rw [h.mem_iff hv]
  iterates hold hs := by
    subst hold
    obtain ⟨vs, hiter, -, hkeys, hvalues⟩ := SetView.iter_members h hs
    exact ⟨vs, hiter, hkeys, hvalues⟩

/-- What a `Kh57View` shows of its contents, against the model's. -/
structure Kh57View.Agrees {P : Type} (level : Kh57View.Key → Nat) (s : Kh57View.Site P S C)
    (m : DictModel Kh57View.Key (Child P S C)) : Prop where
  /-- the stored count is the number of rows -/
  count : s.len = s.children.size
  /-- which is the number of items -/
  items : s.len = m.dict.items.length
  created : s.created = m.created
  /-- the rows are the items under their encoded keys -/
  rows : ∀ k, s.children.get? (Kh57View.encode level k) = m.dict.get? k
  /-- iterating yields each key once, ascending -/
  iterates : s.created = true → ∃ ks : List Nat, Kh57View.iter s = .ok ks s ∧
    ks.Pairwise (· ≤ ·) ∧ ks.Perm (m.dict.keys.map Fin.val)

/-- **Stored count equals live count, and the contents are the model's** (PROVED): for every run of
the public operations, each returning or raising what the model's does. Members that an older release
wrote as containers (`old`) cannot be iterated over, so the operators are left out there. -/
theorem stored_count :
    (∀ (V K N S C X : Type) [LinearOrder K] [DecidableEq N] (check : MemberCheck V K N)
      (env : Env V S C X) (old : Bool) (_ : old = true → ∀ w, env.refusesValue w = none)
      (s : SetView.Site K V S C) (m : PySet V) (_ : SetView.Rel check old s m),
      let model := PySet.exec (SetView.sameMember check) check.toPyObjects env
      (∀ ops : List (SetOp V), (old = true → ∀ op ∈ ops, op.reads = false) →
        (outcomes (ops.map (SetView.exec check env)) s).1 = (outcomes (ops.map model) m).1 ∧
        SetView.Agrees check old (outcomes (ops.map (SetView.exec check env)) s).2
          (outcomes (ops.map model) m).2) ∧
      ∀ ops : List (FrozenSetOp V), (old = true → ∀ op ∈ ops, op.op.reads = false) →
        (outcomes (ops.map (FrozenSetView.exec check env)) s).1 =
          (outcomes (ops.map fun op => model op.op) m).1 ∧
        SetView.Agrees check old (outcomes (ops.map (FrozenSetView.exec check env)) s).2
          (outcomes (ops.map fun op => model op.op) m).2) ∧
    ∀ (P S C X : Type) [DecidableEq S] (level : Kh57View.Key → Nat) (env : Env P S C X)
      (_ : ∀ k, level k < 64) (s : Kh57View.Site P S C)
      (m : DictModel Kh57View.Key (Child P S C)) (_ : Kh57View.Rel level s m)
      (ops : List (DictOp Kh57Address P S C)),
      let view := (Kh57View.view level env).exec env
      let model := (DictModel.view Kh57View.checks Kh57View.refusesKey).exec env
      (outcomes (ops.map view) s).1 = (outcomes (ops.map model) m).1 ∧
      Kh57View.Agrees level (outcomes (ops.map view) s).2 (outcomes (ops.map model) m).2 := by
  refine ⟨?_, ?_⟩
  · intro V K N S C X _ _ check env old hold s m h
    refine ⟨fun ops hops => ?_, fun ops hops => ?_⟩
    · obtain ⟨hout, hrel⟩ :=
        Sim.outcomes ops (fun op hop => SetView.exec_sim hold op fun h => hops h op hop) h
      exact ⟨hout, hrel.agrees⟩
    · obtain ⟨hout, hrel⟩ :=
        Sim.outcomes ops (fun op hop => FrozenSetView.exec_sim hold op fun h => hops h op hop) h
      exact ⟨hout, hrel.agrees⟩
  · intro P S C X _ level env hlevel s m h ops
    obtain ⟨hout, hrel⟩ := Sim.outcomes ops (fun op _ => Kh57View.simulates.exec env op) h
    exact ⟨hout, hrel.counts.len, hrel.length, hrel.created, hrel.rows,
      fun hs => Kh57View.iter_keys hrel hs hlevel⟩

/-! ## `1` and `True` -/

/-- Some Python values: `1`, `True`, `2`, the empty list and a lambda. -/
inductive Sample
  | one
  | true
  | two
  | list
  | lambda
  deriving DecidableEq

namespace Sample

/-- `True == 1`. -/
def value : Sample → Nat
  | one => 1
  | true => 1
  | two => 2
  | list => 3
  | lambda => 4

/-- `hashlib.sha256(pickle.dumps(value, protocol=4)).hexdigest()`. -/
def digest : Sample → String
  | one => "018f5c4626b56e8489da7abb6c8b62331933c42c35d1342037a5242b8ed148f6"
  | true => "112bda3b495d867b6a98c899fac7c25eb60ca4b6e6fe5ec7ab9299f93e8274bc"
  | two => "7c7ad8f01f1cce88987a5a5db1eae050bdbc5af435254f314c8f8cc79168c203"
  | list => "ec0a6ccf9debf1c16781445c4b9106080d00478b0559469336db7c7b7b9711c8"
  | lambda => ""

theorem digest_injective (v w : Sample) (h : digest v = digest w) : v = w := by
  cases v <;> cases w <;> first | rfl | exact absurd h (by decide)

/-- `member_key`: a list has no hash, a lambda no pickle. -/
def check : MemberCheck Sample String Nat where
  containsEmpty _ := false
  hashable v := v ≠ list
  unpicklable v := if v = lambda then some (.other 0) else none
  value := value
  key := digest
  determines v w _ _ h := by
    obtain rfl := digest_injective v w h
    exact ⟨rfl, rfl⟩

/-- A store that creates and takes everything. -/
def env : Env Sample Unit Unit Unit where
  blocked := none
  refusesValue _ := none
  layout _ _ := ()
  read _ _ := .ok ()

/-- `1` and `True` added, then counted. -/
def pair : List (SetOp Sample) := [.add one, .add true, .len]

/-- Members added twice, refused and removed, an operator in place, a method that is not there. -/
def run : List (SetOp Sample) :=
  [.remove one, .add one, .add true, .add list, .add lambda, .operator .or ⟨[two, true], none⟩,
    .len, .store [two, one] false, .add two, .discard list, .discard one, .discard one,
    .operator .and ⟨[one, list], none⟩, .missing, .operator .xor ⟨[two], none⟩, .len]

/-- Items set, set again, popped and deleted, and a child container written through its view. -/
def items : List (DictOp Kh57Address Sample Unit Unit) :=
  [.set (.int 5) (.primitive one), .set (.int 3) (.primitive two), .set (.int 5) (.primitive two),
    .nested (.int 8) () fun _ => ((), none), .set (.int (-1)) (.primitive one), .pop (.int 3) false,
    .del (.int 3), .len]

end Sample

/-- Python's set takes `True` for the member `1`; the view counts two members. -/
theorem true_and_one_are_two :
    (outcomes (Sample.pair.map (SetView.exec Sample.check Sample.env))
        (Counted.absent : SetView.Site String Sample Unit Unit)).1 =
      [.ok .unit, .ok .unit, .ok (.nat 2)] ∧
    (outcomes (Sample.pair.map (PySet.exec (fun v w => v.value == w.value)
        Sample.check.toPyObjects Sample.env)) PySet.absent).1 =
      [.ok .unit, .ok .unit, .ok (.nat 1)] := by
  constructor
  · rfl
  · rfl

/-- A run of a set view and one of a `Kh57View`, from sites never written. -/
theorem stored_count_absent :
    ((outcomes (Sample.run.map (SetView.exec Sample.check Sample.env))
        (Counted.absent : SetView.Site String Sample Unit Unit)).1 =
      [.error .keyError, .ok .unit, .ok .unit, .error .typeError, .error (.other 0),
        .ok (.set {2, 1}), .ok (.nat 2), .ok .unit, .ok .unit, .ok .unit, .ok .unit, .ok .unit,
        .error .typeError, .error .attributeError, .ok (.set {1}), .ok (.nat 2)] ∧
      SetView.Agrees Sample.check false
        (outcomes (Sample.run.map (SetView.exec Sample.check Sample.env))
          (Counted.absent : SetView.Site String Sample Unit Unit)).2
        (outcomes (Sample.run.map (PySet.exec (SetView.sameMember Sample.check)
          Sample.check.toPyObjects Sample.env)) PySet.absent).2) ∧
    (outcomes (Sample.items.map ((Kh57View.view (fun k => k % 4) Sample.env).exec Sample.env))
        (Counted.absent : Kh57View.Site Sample Unit Unit)).1 =
      [.ok .unit, .ok .unit, .ok .unit, .ok .unit, .error .valueError, .ok (.value (.inl .two)),
        .error .keyError, .ok (.nat 2)] ∧
      Kh57View.Agrees (fun k => k % 4)
        (outcomes (Sample.items.map ((Kh57View.view (fun k => k % 4) Sample.env).exec Sample.env))
          (Counted.absent : Kh57View.Site Sample Unit Unit)).2
        (outcomes (Sample.items.map
          ((DictModel.view Kh57View.checks Kh57View.refusesKey).exec Sample.env))
          DictModel.absent).2 := by
  have hset := (stored_count.1 Sample String Nat Unit Unit Unit Sample.check Sample.env false
    (fun h => Bool.noConfusion h) _ _ (SetView.rel_absent Sample.check false)).1 Sample.run
    fun h => Bool.noConfusion h
  have hitems := stored_count.2 Sample Unit Unit Unit (fun k => k % 4) Sample.env
    (fun k => by omega) _ _ Kh57View.rel_absent Sample.items
  refine ⟨⟨hset.1.trans ?_, hset.2⟩, hitems.1.trans ?_, hitems.2⟩
  · decide +kernel
  · decide +kernel

end Virtuals.Views
