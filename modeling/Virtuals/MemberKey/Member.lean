/-
  `_views/_member_key.py`: the storage key of a set member.

  A member is keyed by the hash of its pickle. A frozenset is first replaced by a tuple of a tag and the
  sorted pickles of its elements, each pickled by itself; tuples are walked for that. The members are
  modelled with the identities of their objects, which the pickle depends on.
-/
import Virtuals.MemberKey.Dumps
import Mathlib.Data.List.Sort

namespace Virtuals.MemberKey

open Virtuals.Lib

/-! ## Members -/

/-- A hashable value in memory, with the identities of its objects. A frozenset has its elements in the
order in which it is iterated. -/
inductive Member
  | none
  | int (n : Int)
  | str (id : Nat) (s : PyStr)
  | bytes (id : Nat) (b : Bytes)
  | tuple (id : Nat) (items : List Member)
  | frozenset (id : Nat) (elements : List Member)

namespace Member

mutual

/-- `==`, with equal types at every position. -/
def Same : Member → Member → Prop
  | .none, .none => True
  | .int a, .int b => a = b
  | .str _ s, .str _ t => s = t
  | .bytes _ a, .bytes _ b => a = b
  | .tuple _ l, .tuple _ l' => SameAll l l'
  | .frozenset _ l, .frozenset _ l' => ∃ l'', l''.Perm l' ∧ SameAll l l''
  | _, _ => False

def SameAll : List Member → List Member → Prop
  | [], [] => True
  | x :: xs, y :: ys => Same x y ∧ SameAll xs ys
  | _, _ => False

end

mutual

/-- The objects of a member are those that the memory has under their identities. -/
def InMemory (heap : Nat → Member) : Member → Prop
  | .none | .int _ => True
  | .str i s => heap i = .str i s
  | .bytes i b => heap i = .bytes i b
  | .tuple i items => heap i = .tuple i items ∧ AllInMemory heap items
  | .frozenset i elements => heap i = .frozenset i elements ∧ AllInMemory heap elements

def AllInMemory (heap : Nat → Member) : List Member → Prop
  | [] => True
  | x :: xs => InMemory heap x ∧ AllInMemory heap xs

end

end Member

/-! ## The canonical value -/

/-- `_UNORDERED_TAG`. -/
def UNORDERED_TAG : Bytes := 0 :: (ascii "virtuals.set-member.unordered" ++ [0])

/-- The identity of the tag, which is one object. -/
def TAG_ID : Nat := 0

/-- A member that is in memory, beside the tag. -/
def Member.Valid (m : Member) : Prop :=
  ∃ heap : Nat → Member, heap TAG_ID = .bytes TAG_ID UNORDERED_TAG ∧ m.InMemory heap

/-- The identity of an object that is pickled: its own, or that of an object which `_canonical` makes at
a place of the member. -/
inductive Ident
  | own (id : Nat)
  | made (place : List Nat) (part : Nat)
  deriving DecidableEq

/-- Lexicographic, as bytes are compared. -/
def bytesLe : Bytes → Bytes → Bool
  | [], _ => true
  | _ :: _, [] => false
  | a :: as, b :: bs => decide (a.toNat < b.toNat) || (a == b && bytesLe as bs)

/-- `sorted`. -/
def sorted (l : List Bytes) : List Bytes := l.insertionSort fun a b => bytesLe a b

/-- A tuple; the empty one is not memoised. -/
def tupleOf (i : Ident) : List (Obj Ident) → Obj Ident
  | [] => .atom .emptyTuple
  | first :: rest => .node i first rest

/-- New bytes objects. -/
def pickleObjects (place : List Nat) : Nat → List Bytes → List (Obj Ident)
  | _, [] => []
  | part, b :: bs => .leaf (.made place part) (.bytes b) :: pickleObjects place (part + 1) bs

/-- The tuple in the place of a frozenset. -/
def tagged (place : List Nat) (pickles : List Bytes) : Obj Ident :=
  .node (.made place 0) (.leaf (.own TAG_ID) (.bytes UNORDERED_TAG))
    [tupleOf (.made place 1) (pickleObjects place 2 pickles)]

/-- Whether `_canonical` returned something else than its argument. -/
def isMade : Obj Ident → Bool
  | .node (.made _ _) _ _ => true
  | _ => false

mutual

/-- `_canonical`, at a place of the member. -/
def canonical (place : List Nat) : Member → Except PickleError (Obj Ident)
  | .none => .ok (.atom .none)
  | .int n => .ok (.atom (.int n))
  | .str i s => .ok (.leaf (.own i) (.str s))
  | .bytes i b => .ok (.leaf (.own i) (.bytes b))
  | .tuple i items => do
    let items ← canonicalAll place 0 items
    return tupleOf (if items.all fun o => !isMade o then .own i else .made place 0) items
  | .frozenset _ elements => do
    let pickles ← dumpsAll elements
    return tagged place (sorted pickles)

def canonicalAll (place : List Nat) : Nat → List Member → Except PickleError (List (Obj Ident))
  | _, [] => .ok []
  | k, x :: xs => do
    let o ← canonical (k :: place) x
    let os ← canonicalAll place (k + 1) xs
    return o :: os

/-- `pickle.dumps(_canonical(e), protocol=_PROTOCOL)`, of every element. -/
def dumpsAll : List Member → Except PickleError (List Bytes)
  | [] => .ok []
  | x :: xs => do
    let o ← canonical [] x
    let b ← dumps o
    let bs ← dumpsAll xs
    return b :: bs

end

/-- `pickle.dumps(_canonical(value), protocol=_PROTOCOL)`. -/
def pickled (m : Member) : Except PickleError Bytes := do
  let o ← canonical [] m
  dumps o

/-- `member_key`, under a hash. -/
def memberKey {H : Type} (sha256 : Bytes → H) (m : Member) : Except PickleError H :=
  sha256 <$> pickled m

/-! ## Sorted pickles -/

theorem bytesLe_total (a b : Bytes) : bytesLe a b ∨ bytesLe b a := by
  induction a generalizing b with
  | nil => exact Or.inl rfl
  | cons x a ih =>
    cases b with
    | nil => exact Or.inr rfl
    | cons y b =>
      simp only [bytesLe, Bool.or_eq_true, Bool.and_eq_true, decide_eq_true_eq, beq_iff_eq]
      rcases Nat.lt_trichotomy x.toNat y.toNat with hlt | heq | hgt
      · exact Or.inl (Or.inl hlt)
      · obtain rfl := uint8_ext heq
        exact (ih b).imp (fun h => Or.inr ⟨rfl, h⟩) fun h => Or.inr ⟨rfl, h⟩
      · exact Or.inr (Or.inl hgt)

theorem bytesLe_antisymm {a b : Bytes} (hab : bytesLe a b) (hba : bytesLe b a) : a = b := by
  induction a generalizing b with
  | nil =>
    cases b with
    | nil => rfl
    | cons y b => cases hba
  | cons x a ih =>
    cases b with
    | nil => cases hab
    | cons y b =>
      simp only [bytesLe, Bool.or_eq_true, Bool.and_eq_true, decide_eq_true_eq, beq_iff_eq] at hab hba
      rcases hab with hab | ⟨rfl, hab⟩
      · rcases hba with hba | ⟨rfl, -⟩
        · exact absurd hab (Nat.lt_asymm hba)
        · exact absurd hab (Nat.lt_irrefl _)
      · rcases hba with hba | ⟨-, hba⟩
        · exact absurd hba (Nat.lt_irrefl _)
        · rw [ih hab hba]

theorem bytesLe_trans {a b c : Bytes} (hab : bytesLe a b) (hbc : bytesLe b c) : bytesLe a c := by
  induction a generalizing b c with
  | nil => rfl
  | cons x a ih =>
    cases b with
    | nil => cases hab
    | cons y b =>
      cases c with
      | nil => cases hbc
      | cons z c =>
        simp only [bytesLe, Bool.or_eq_true, Bool.and_eq_true, decide_eq_true_eq,
          beq_iff_eq] at hab hbc ⊢
        rcases hab with hab | ⟨rfl, hab⟩
        · rcases hbc with hbc | ⟨rfl, -⟩
          · exact Or.inl (Nat.lt_trans hab hbc)
          · exact Or.inl hab
        · exact hbc.imp_right fun hbc => ⟨hbc.1, ih hab hbc.2⟩

theorem sorted_perm (l : List Bytes) : (sorted l).Perm l := List.perm_insertionSort _ l

/-- Two lists are the same when sorted exactly when they hold the same, each as often. -/
theorem sorted_eq_iff {l l' : List Bytes} : sorted l = sorted l' ↔ l.Perm l' := by
  have : Std.Total fun a b : Bytes => bytesLe a b = true := ⟨bytesLe_total⟩
  have : IsTrans Bytes fun a b => bytesLe a b = true := ⟨fun _ _ _ => bytesLe_trans⟩
  constructor
  · intro h
    exact ((sorted_perm l).symm.trans (List.Perm.of_eq h)).trans (sorted_perm l')
  · intro h
    refine List.Perm.eq_of_pairwise (fun a b _ _ => bytesLe_antisymm)
      (List.pairwise_insertionSort _ l) (List.pairwise_insertionSort _ l') ?_
    exact ((sorted_perm l).trans h).trans (sorted_perm l').symm

end Virtuals.MemberKey
