/-
  `pickle`, protocol 4: the opcodes for the values that a set member is made of.

  The pickler keeps a memo. An object that it meets again is written as a reference to its place in
  the memo, so that the opcodes depend on which objects a value shares. `run` reads them back on a
  stack; what it reads is the value with each object under its place in the memo (`loads_opcodes`), and
  hence opcodes tell values apart exactly up to a renaming of their objects (`opcodes_eq_iff`).
-/
import Virtuals.Lib.Sharing
import Virtuals.Lib.Text
import Mathlib.Data.List.Induction

namespace Virtuals.MemberKey

open Virtuals.Lib

/-! ## Values -/

/-- What is never memoised. -/
inductive Atom
  | none
  | int (n : Int)
  | emptyTuple
  deriving DecidableEq

/-- An object without items. -/
inductive Leaf
  | str (s : PyStr)
  | bytes (b : Bytes)
  deriving DecidableEq

/-- A value that has no unordered container inside. -/
abbrev Obj (I : Type) := Shared I Atom Leaf

/-! ## Opcodes -/

/-- The opcodes of a value, and the last of a pickle. -/
inductive Op
  | none
  | int (n : Int)
  | str (s : PyStr)
  | bytes (b : Bytes)
  | get (place : Nat)
  | memoize
  | mark
  | emptyTuple
  | tuple1
  | tuple2
  | tuple3
  | tuple
  | stop
  deriving DecidableEq

def Op.ofAtom : Atom → Op
  | .none => .none
  | .int n => .int n
  | .emptyTuple => .emptyTuple

def Op.ofLeaf : Leaf → Op
  | .str s => .str s
  | .bytes b => .bytes b

variable {I : Type} [DecidableEq I]

/-- The opcodes around those of the items, of which there are `n + 1`. -/
def tupleOps (n : Nat) (items : List Op) : List Op :=
  match n with
  | 0 => items ++ [.tuple1]
  | 1 => items ++ [.tuple2]
  | 2 => items ++ [.tuple3]
  | _ => .mark :: (items ++ [.tuple])

mutual

/-- `Pickler.save`: the opcodes of a value, and the memo after them. -/
def save (memo : List I) : Obj I → List Op × List I
  | .atom a => ([.ofAtom a], memo)
  | .leaf i label =>
    if i ∈ memo then ([.get (memo.idxOf i)], memo)
    else ([.ofLeaf label, .memoize], memo ++ [i])
  | .node i first rest =>
    if i ∈ memo then ([.get (memo.idxOf i)], memo)
    else
      let (ops, memo) := save memo first
      let (more, memo) := saveAll memo rest
      (tupleOps rest.length (ops ++ more) ++ [.memoize], memo ++ [i])

def saveAll (memo : List I) : List (Obj I) → List Op × List I
  | [] => ([], memo)
  | x :: xs =>
    let (ops, memo) := save memo x
    let (more, memo) := saveAll memo xs
    (ops ++ more, memo)

end

/-- The opcodes of `dumps`, between the first and the last. -/
def opcodes (o : Obj I) : List Op := (save [] o).1

/-! ## Reading -/

/-- The unpickler: a stack, with the marks on it, and the memo. -/
structure Machine where
  stack : List (Option (Obj Nat))
  memo : List (Obj Nat)

/-- The items above the topmost mark, and what is below it. -/
def popMark : List (Obj Nat) → List (Option (Obj Nat)) → Option (List (Obj Nat) ×
    List (Option (Obj Nat)))
  | _, [] => none
  | items, none :: stack => some (items, stack)
  | items, some x :: stack => popMark (x :: items) stack

/-- A tuple of the items of the stack. An object is named by the place that it gets in the memo. -/
def Machine.push (m : Machine) (stack : List (Option (Obj Nat))) (items : List (Obj Nat)) :
    Option Machine :=
  match items with
  | [] => none
  | first :: rest => some ⟨some (.node m.memo.length first rest) :: stack, m.memo⟩

def Machine.step (m : Machine) : Op → Option Machine
  | .none => some ⟨some (.atom .none) :: m.stack, m.memo⟩
  | .int n => some ⟨some (.atom (.int n)) :: m.stack, m.memo⟩
  | .emptyTuple => some ⟨some (.atom .emptyTuple) :: m.stack, m.memo⟩
  | .str s => some ⟨some (.leaf m.memo.length (.str s)) :: m.stack, m.memo⟩
  | .bytes b => some ⟨some (.leaf m.memo.length (.bytes b)) :: m.stack, m.memo⟩
  | .get place => (m.memo[place]?).map fun x => ⟨some x :: m.stack, m.memo⟩
  | .memoize =>
    match m.stack with
    | some x :: stack => some ⟨some x :: stack, m.memo ++ [x]⟩
    | _ => none
  | .mark => some ⟨none :: m.stack, m.memo⟩
  | .tuple1 =>
    match m.stack with
    | some a :: stack => m.push stack [a]
    | _ => none
  | .tuple2 =>
    match m.stack with
    | some b :: some a :: stack => m.push stack [a, b]
    | _ => none
  | .tuple3 =>
    match m.stack with
    | some c :: some b :: some a :: stack => m.push stack [a, b, c]
    | _ => none
  | .tuple => (popMark [] m.stack).bind fun (items, stack) => m.push stack items
  | .stop => some m

def run : List Op → Machine → Option Machine
  | [], m => some m
  | op :: ops, m => (m.step op).bind (run ops)

theorem run_append (ops more : List Op) (m : Machine) :
    run (ops ++ more) m = (run ops m).bind (run more) := by
  induction ops generalizing m with
  | nil => rfl
  | cons op ops ih =>
    rw [List.cons_append, run, run]
    cases m.step op with
    | none => rfl
    | some m' => exact ih m'

/-! ## The memo -/

mutual

/-- The memo grows by objects of the value. -/
theorem save_memo : ∀ (memo : List I) (o : Obj I),
    ∃ l, (save memo o).2 = memo ++ l ∧ ∀ i ∈ l, i ∈ o.names
  | memo, .atom a => ⟨[], (List.append_nil memo).symm, nofun⟩
  | memo, .leaf i label => by
    rw [save]
    split_ifs with hi
    · exact ⟨[], (List.append_nil memo).symm, nofun⟩
    · exact ⟨[i], rfl, fun j hj => hj⟩
  | memo, .node i first rest => by
    rw [save]
    split_ifs with hi
    · exact ⟨[], (List.append_nil memo).symm, nofun⟩
    · obtain ⟨l, hl, hmem⟩ := save_memo memo first
      obtain ⟨l', hl', hmem'⟩ := saveAll_memo (save memo first).2 rest
      refine ⟨l ++ l' ++ [i], ?_, fun j hj => ?_⟩
      · show (saveAll (save memo first).2 rest).2 ++ [i] = _
        rw [hl', hl]
        simp only [List.append_assoc]
      · rw [List.mem_append, List.mem_append] at hj
        rw [Shared.names, List.mem_append, List.mem_append]
        rcases hj with (hj | hj) | hj
        · exact Or.inl (hmem j hj)
        · exact Or.inr (Or.inl (hmem' j hj))
        · exact Or.inr (Or.inr hj)

theorem saveAll_memo : ∀ (memo : List I) (l : List (Obj I)),
    ∃ l', (saveAll memo l).2 = memo ++ l' ∧ ∀ i ∈ l', i ∈ Shared.namesAll l
  | memo, [] => ⟨[], (List.append_nil memo).symm, nofun⟩
  | memo, x :: xs => by
    obtain ⟨l, hl, hmem⟩ := save_memo memo x
    obtain ⟨l', hl', hmem'⟩ := saveAll_memo (save memo x).2 xs
    refine ⟨l ++ l', ?_, fun j hj => ?_⟩
    · show (saveAll (save memo x).2 xs).2 = _
      rw [hl', hl, List.append_assoc]
    · rw [Shared.namesAll, List.mem_append]
      exact (List.mem_append.1 hj).imp (hmem j) (hmem' j)

end

theorem idxOf_new {memo l : List I} {i : I} (hi : i ∉ memo) (h : memo ++ [i] <+: l) :
    l.idxOf i = memo.length := by
  obtain ⟨t, rfl⟩ := h
  rw [List.append_assoc, List.idxOf_append_of_notMem hi, List.singleton_append,
    List.idxOf_cons_self, Nat.add_zero]

/-! ## The round trip -/

omit [DecidableEq I] in
theorem popMark_items (items l : List (Obj Nat)) (stack : List (Option (Obj Nat))) :
    popMark items (l.reverse.map some ++ none :: stack) = some (l ++ items, stack) := by
  induction l using List.reverseRecOn generalizing items with
  | nil => rfl
  | append_singleton l x ih =>
    rw [List.reverse_append, List.reverse_singleton, List.singleton_append, List.map_cons,
      List.cons_append, popMark, ih, List.append_assoc, List.singleton_append]

/-- A tuple is made of the items that its opcodes push. -/
theorem run_tupleOps {items : List Op} {x : Obj Nat} {xs memo memo' : List (Obj Nat)}
    (h : ∀ stack, run items ⟨stack, memo⟩ = some ⟨(x :: xs).reverse.map some ++ stack, memo'⟩)
    (stack : List (Option (Obj Nat))) :
    run (tupleOps xs.length items) ⟨stack, memo⟩ =
      some ⟨some (.node memo'.length x xs) :: stack, memo'⟩ := by
  match xs with
  | [] =>
    show run (items ++ [.tuple1]) _ = _
    rw [run_append, h]
    rfl
  | [a] =>
    show run (items ++ [.tuple2]) _ = _
    rw [run_append, h]
    rfl
  | [a, b] =>
    show run (items ++ [.tuple3]) _ = _
    rw [run_append, h]
    rfl
  | a :: b :: c :: l =>
    have hmark := popMark_items [] (x :: a :: b :: c :: l) stack
    rw [List.append_nil] at hmark
    show run (items ++ [.tuple]) ⟨none :: stack, memo⟩ = _
    rw [run_append, h, Option.bind_some, run, Machine.step, hmark]
    rfl

/-- What the memo has under the identities, each object by its place in a list of all. -/
def named (heap : I → Obj I) (l : List I) (i : I) : Obj Nat := (heap i).map l.idxOf

theorem step_ofAtom (a : Atom) (m : Machine) :
    m.step (.ofAtom a) = some ⟨some (.atom a) :: m.stack, m.memo⟩ := by
  cases a <;> rfl

theorem step_ofLeaf (label : Leaf) (m : Machine) :
    m.step (.ofLeaf label) = some ⟨some (.leaf m.memo.length label) :: m.stack, m.memo⟩ := by
  cases label <;> rfl

/-- A reference to the memo. -/
theorem run_get {heap : I → Obj I} {memo : List I} (l : List I) {i : I} (hi : i ∈ memo)
    (stack : List (Option (Obj Nat))) :
    run [.get (memo.idxOf i)] ⟨stack, memo.map (named heap l)⟩ =
      some ⟨some ((heap i).map l.idxOf) :: stack, memo.map (named heap l)⟩ := by
  have hget : (memo.map (named heap l))[memo.idxOf i]? = some (named heap l i) := by
    rw [List.getElem?_map, List.getElem?_idxOf hi]
    rfl
  rw [run, Machine.step, hget]
  rfl

/-- The object that was made last is memoised. -/
theorem run_memoize {heap : I → Obj I} {memo l : List I} {i : I} {x : Obj Nat}
    (hx : named heap l i = x) (stack : List (Option (Obj Nat))) :
    run [.memoize] ⟨some x :: stack, memo.map (named heap l)⟩ =
      some ⟨some x :: stack, (memo ++ [i]).map (named heap l)⟩ := by
  rw [List.map_append, List.map_singleton, hx]
  rfl

mutual

/-- What is written is read, on top of the stack. -/
theorem run_save (heap : I → Obj I) (l : List I) : ∀ (memo : List I) (o : Obj I),
    Shared.InHeap heap o → (save memo o).2 <+: l → ∀ stack,
    run (save memo o).1 ⟨stack, memo.map (named heap l)⟩ =
      some ⟨some (o.map l.idxOf) :: stack, (save memo o).2.map (named heap l)⟩
  | memo, .atom a, _, _, stack => by
    rw [save, run, step_ofAtom]
    rfl
  | memo, .leaf i label, h, hl, stack => by
    rw [save] at hl ⊢
    have hi' : heap i = .leaf i label := h
    split_ifs at hl ⊢ with hi
    · rw [run_get l hi, hi']
    · have hplace : memo.length = l.idxOf i := (idxOf_new hi hl).symm
      rw [run, step_ofLeaf, Option.bind_some, List.length_map, hplace]
      exact run_memoize (by rw [named, hi', Shared.map]) stack
  | memo, .node i first rest, h, hl, stack => by
    obtain ⟨hfirst', hrest'⟩ := Shared.not_mem_items h
    obtain ⟨hi', hfirst, hrest⟩ := h
    rw [save] at hl ⊢
    split_ifs at hl ⊢ with hi
    · rw [run_get l hi, hi']
    · have hl : (saveAll (save memo first).2 rest).2 ++ [i] <+: l := hl
      obtain ⟨t, ht, hmem⟩ := save_memo memo first
      obtain ⟨t', ht', hmem'⟩ := saveAll_memo (save memo first).2 rest
      have hnew : i ∉ (saveAll (save memo first).2 rest).2 := by
        rw [ht', ht]
        refine fun hin => ?_
        rcases List.mem_append.1 hin with hin | hin
        · exact (List.mem_append.1 hin).elim hi fun hin => hfirst' (hmem i hin)
        · exact hrest' (hmem' i hin)
      have hplace := idxOf_new hnew hl
      have hl' : (saveAll (save memo first).2 rest).2 <+: l := (List.prefix_append _ _).trans hl
      have hpre : (save memo first).2 <+: (saveAll (save memo first).2 rest).2 := by
        rw [ht']
        exact List.prefix_append _ _
      have hitems : ∀ stack, run ((save memo first).1 ++ (saveAll (save memo first).2 rest).1)
          ⟨stack, memo.map (named heap l)⟩ =
          some ⟨(first.map l.idxOf :: Shared.mapAll l.idxOf rest).reverse.map some ++ stack,
            (saveAll (save memo first).2 rest).2.map (named heap l)⟩ := fun stack => by
        rw [run_append, run_save heap l memo first hfirst (hpre.trans hl') stack, Option.bind_some,
          runAll_save heap l (save memo first).2 rest hrest hl']
        simp only [List.reverse_cons, List.map_append, List.map_singleton, List.append_assoc,
          List.singleton_append]
      have hlen : rest.length = (Shared.mapAll l.idxOf rest).length := by
        rw [Shared.mapAll_eq, List.length_map]
      show run (tupleOps rest.length ((save memo first).1 ++ (saveAll (save memo first).2 rest).1) ++
        [.memoize]) _ = _
      rw [run_append, hlen, run_tupleOps hitems, Option.bind_some, List.length_map, ← hplace]
      exact run_memoize (by rw [named, hi', Shared.map]) stack

theorem runAll_save (heap : I → Obj I) (l : List I) : ∀ (memo : List I) (xs : List (Obj I)),
    Shared.AllInHeap heap xs → (saveAll memo xs).2 <+: l → ∀ stack,
    run (saveAll memo xs).1 ⟨stack, memo.map (named heap l)⟩ =
      some ⟨(Shared.mapAll l.idxOf xs).reverse.map some ++ stack,
        (saveAll memo xs).2.map (named heap l)⟩
  | memo, [], _, _, stack => rfl
  | memo, x :: xs, h, hl, stack => by
    have hl : (saveAll (save memo x).2 xs).2 <+: l := hl
    have hpre : (save memo x).2 <+: (saveAll (save memo x).2 xs).2 := by
      obtain ⟨t, ht, -⟩ := saveAll_memo (save memo x).2 xs
      rw [ht]
      exact List.prefix_append _ _
    show run ((save memo x).1 ++ (saveAll (save memo x).2 xs).1) _ = _
    rw [run_append, run_save heap l memo x h.1 (hpre.trans hl) stack, Option.bind_some,
      runAll_save heap l (save memo x).2 xs h.2 hl, Shared.mapAll, List.reverse_cons,
      List.map_append, List.append_assoc]
    rfl

end

/-- **The opcodes of a value in memory are read back as the value, its objects under their places in
the memo** (PROVED). -/
theorem loads_opcodes {heap : I → Obj I} {o : Obj I} (h : Shared.InHeap heap o) :
    ∃ f : I → Nat, Set.InjOn f {i | i ∈ o.names} ∧
      ∃ memo, run (opcodes o) ⟨[], []⟩ = some ⟨[some (o.map f)], memo⟩ := by
  refine ⟨((save [] o).2 ++ o.names).idxOf, ?_, _,
    run_save heap _ [] o h (List.prefix_append _ _) []⟩
  exact (idxOf_injOn _).mono fun i hi => List.mem_append_right _ hi

/-! ## Opcodes of renamed objects -/

section Renamed

variable {J : Type} [DecidableEq J]

mutual

/-- The opcodes do not depend on what the objects are called. -/
theorem save_map {f : I → J} : ∀ (memo : List I) (o : Obj I),
    Set.InjOn f {i | i ∈ memo ++ o.names} →
    save (memo.map f) (o.map f) = ((save memo o).1, (save memo o).2.map f)
  | memo, .atom a, _ => rfl
  | memo, .leaf i label, hf => by
    have hmem : f i ∈ memo.map f ↔ i ∈ memo := mem_map_iff hf (List.mem_append_right _ (by
      rw [Shared.names, List.mem_singleton]))
    rw [Shared.map, save, save]
    split_ifs with hi hi' hi'
    · rw [idxOf_map (hf.mono fun _ h => List.mem_append_left _ h) hi']
    · exact absurd (hmem.1 hi) hi'
    · exact absurd (hmem.2 hi') hi
    · rw [List.map_append, List.map_singleton]
  | memo, .node i first rest, hf => by
    have hmem : f i ∈ memo.map f ↔ i ∈ memo := mem_map_iff hf (List.mem_append_right _ (by
      rw [Shared.names, List.mem_append, List.mem_append, List.mem_singleton]
      exact Or.inr (Or.inr rfl)))
    rw [Shared.map, save, save]
    split_ifs with hi hi' hi'
    · rw [idxOf_map (hf.mono fun _ h => List.mem_append_left _ h) hi']
    · exact absurd (hmem.1 hi) hi'
    · exact absurd (hmem.2 hi') hi
    · have hsub : ∀ j ∈ (save memo first).2 ++ Shared.namesAll rest,
          j ∈ memo ++ (Shared.node i first rest : Obj I).names := fun j hj => by
        obtain ⟨t, ht, htmem⟩ := save_memo memo first
        rw [ht, List.append_assoc] at hj
        rw [Shared.names]
        simp only [List.mem_append] at hj ⊢
        exact hj.imp_right fun hj => hj.imp (htmem j) Or.inl
      have hfirst := save_map memo first (hf.mono fun j hj => by
        rw [Set.mem_ofPred_eq, Shared.names]
        simp only [Set.mem_ofPred_eq, List.mem_append] at hj ⊢
        exact hj.imp_right Or.inl)
      have hrest := saveAll_map (save memo first).2 rest (hf.mono hsub)
      have hlen : (Shared.mapAll f rest).length = rest.length := by
        rw [Shared.mapAll_eq, List.length_map]
      simp only [hfirst, hrest, hlen, List.map_append, List.map_singleton]

theorem saveAll_map {f : I → J} : ∀ (memo : List I) (l : List (Obj I)),
    Set.InjOn f {i | i ∈ memo ++ Shared.namesAll l} →
    saveAll (memo.map f) (Shared.mapAll f l) = ((saveAll memo l).1, (saveAll memo l).2.map f)
  | memo, [], _ => rfl
  | memo, x :: xs, hf => by
    have hx := save_map memo x (hf.mono fun j hj => by
      rw [Set.mem_ofPred_eq, Shared.namesAll]
      simp only [Set.mem_ofPred_eq, List.mem_append] at hj ⊢
      exact hj.imp_right Or.inl)
    have hxs := saveAll_map (save memo x).2 xs (hf.mono fun j hj => by
      obtain ⟨t, ht, htmem⟩ := save_memo memo x
      rw [Set.mem_ofPred_eq, ht, List.append_assoc] at hj
      rw [Set.mem_ofPred_eq, Shared.namesAll]
      simp only [List.mem_append] at hj ⊢
      exact hj.imp_right fun hj => hj.imp (htmem j) id)
    simp only [Shared.mapAll, saveAll, hx, hxs]

end

theorem opcodes_map {f : I → J} (o : Obj I) (hf : Set.InjOn f {i | i ∈ o.names}) :
    opcodes (o.map f) = opcodes o :=
  congrArg Prod.fst (save_map [] o hf)

/-- **Two values have the same opcodes exactly when they are equal and share alike** (PROVED). -/
theorem opcodes_eq_iff {heap : I → Obj I} {heap' : J → Obj J} {o : Obj I} {o' : Obj J}
    (h : Shared.InHeap heap o) (h' : Shared.InHeap heap' o') :
    opcodes o = opcodes o' ↔ o.erase = o'.erase ∧ pattern o.names = pattern o'.names := by
  rw [← Shared.renamed_iff]
  constructor
  · intro he
    obtain ⟨f, hf, memo, hrun⟩ := loads_opcodes h
    obtain ⟨g, hg, memo', hrun'⟩ := loads_opcodes h'
    rw [he, hrun', Option.some.injEq, Machine.mk.injEq, List.cons.injEq, Option.some.injEq] at hrun
    exact ⟨f, g, hf, hg, hrun.1.1.symm⟩
  · rintro ⟨f, g, hf, hg, hfg⟩
    rw [← opcodes_map o hf, hfg, opcodes_map o' hg]

end Renamed

end Virtuals.MemberKey
