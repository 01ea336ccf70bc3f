/-
  When two set members have the same key.

  `Twin` says it of the members: they are equal as far as `_canonical` can tell, which takes a tuple of
  the tag and the pickles for the frozenset that it stands for, and outside their frozensets they hold
  one object at the same places; the elements of frozensets are matched with twins. Equal keys are
  those of twins, and twins are equal where no tuple begins with the tag (`same_key_iff`). Equal members
  that share differently are no twins: they have two keys (`equal_share_key_iff`).
-/
import Virtuals.MemberKey.Member
import Mathlib.Data.List.Perm.Basic

namespace Virtuals.MemberKey

open Virtuals.Lib

namespace Member

/-! ## Twins -/

mutual

/-- No unordered container inside. -/
def plain : Member → Bool
  | .frozenset _ _ => false
  | .tuple _ items => plainAll items
  | _ => true

def plainAll : List Member → Bool
  | [] => true
  | x :: xs => plain x && plainAll xs

end

mutual

/-- The objects that the pickler meets in a member, outside its frozensets. A frozenset, and a tuple
with one inside, is replaced by new objects at every place. -/
def met (place : List Nat) : Member → List Ident
  | .none | .int _ => []
  | .str i _ | .bytes i _ => [.own i]
  | .tuple i items => metAll place 0 items ++
      if items.isEmpty then [] else [if plainAll items then .own i else .made place 0]
  | .frozenset _ elements => .own TAG_ID :: ((List.range elements.length).map fun k =>
      .made place (k + 2)) ++
      (if elements.isEmpty then [] else [.made place 1]) ++ [.made place 0]

def metAll (place : List Nat) : Nat → List Member → List Ident
  | _, [] => []
  | k, x :: xs => met (k :: place) x ++ metAll place (k + 1) xs

end

/-- The contents of bytes objects. -/
def contents : List Member → Option (List Bytes)
  | [] => some []
  | .bytes _ b :: xs => (contents xs).map (b :: ·)
  | _ => Option.none

/-- A tuple of the tag and the sorted pickles of some elements. -/
def Spells (items elements : List Member) : Prop :=
  ∃ i j l pickles, items = [.bytes i UNORDERED_TAG, .tuple j l] ∧ dumpsAll elements = .ok pickles ∧
    contents l = some (sorted pickles)

/-- The same places of two members hold one object. -/
def ShareAlike (m n : Member) : Prop := pattern (met [] m) = pattern (met [] n)

mutual

/-- Equal as far as `_canonical` can tell. -/
def Like : Member → Member → Prop
  | .none, .none => True
  | .int a, .int b => a = b
  | .str _ s, .str _ t => s = t
  | .bytes _ a, .bytes _ b => a = b
  | .tuple _ l, .tuple _ l' => LikeAll l l'
  | .frozenset _ l, .frozenset _ l' => ∃ l'', l''.Perm l' ∧ TwinAll l l''
  | .tuple _ l, .frozenset _ l' => Spells l l'
  | .frozenset _ l, .tuple _ l' => Spells l' l
  | _, _ => False

def LikeAll : List Member → List Member → Prop
  | [], [] => True
  | x :: xs, y :: ys => Like x y ∧ LikeAll xs ys
  | _, _ => False

def TwinAll : List Member → List Member → Prop
  | [], [] => True
  | x :: xs, y :: ys => (Like x y ∧ ShareAlike x y) ∧ TwinAll xs ys
  | _, _ => False

end

def Twin (m n : Member) : Prop := Like m n ∧ ShareAlike m n

end Member

open Member

/-! ## The canonical value -/

theorem canonicalAll_cons {place : List Nat} {k : Nat} {x : Member} {xs : List Member}
    {os : List (Obj Ident)} :
    canonicalAll place k (x :: xs) = .ok os ↔ ∃ o os', canonical (k :: place) x = .ok o ∧
      canonicalAll place (k + 1) xs = .ok os' ∧ os = o :: os' := by
  rw [canonicalAll]
  cases canonical (k :: place) x with
  | error e => exact iff_of_false nofun fun ⟨_, _, h, _⟩ => nomatch h
  | ok o =>
    cases canonicalAll place (k + 1) xs with
    | error e => exact iff_of_false nofun fun ⟨_, _, _, h, _⟩ => nomatch h
    | ok os' =>
      constructor
      · intro h
        exact ⟨o, os', rfl, rfl, (Except.ok.inj h).symm⟩
      · rintro ⟨_, _, ho, hos, rfl⟩
        rw [← Except.ok.inj ho, ← Except.ok.inj hos]
        rfl

theorem canonical_tuple {place : List Nat} {i : Nat} {items : List Member} {o : Obj Ident} :
    canonical place (.tuple i items) = .ok o ↔ ∃ os, canonicalAll place 0 items = .ok os ∧
      o = tupleOf (if os.all fun o => !isMade o then .own i else .made place 0) os := by
  rw [canonical]
  cases canonicalAll place 0 items with
  | error e => exact iff_of_false nofun fun ⟨_, h, _⟩ => nomatch h
  | ok os =>
    constructor
    · intro h
      exact ⟨os, rfl, (Except.ok.inj h).symm⟩
    · rintro ⟨_, hos, rfl⟩
      rw [← Except.ok.inj hos]
      rfl

theorem canonical_frozenset {place : List Nat} {i : Nat} {elements : List Member} {o : Obj Ident} :
    canonical place (.frozenset i elements) = .ok o ↔ ∃ pickles, dumpsAll elements = .ok pickles ∧
      o = tagged place (sorted pickles) := by
  rw [canonical]
  cases dumpsAll elements with
  | error e => exact iff_of_false nofun fun ⟨_, h, _⟩ => nomatch h
  | ok pickles =>
    constructor
    · intro h
      exact ⟨pickles, rfl, (Except.ok.inj h).symm⟩
    · rintro ⟨_, hp, rfl⟩
      rw [← Except.ok.inj hp]
      rfl

theorem pickled_eq_ok {m : Member} {b : Bytes} :
    pickled m = .ok b ↔ ∃ o, canonical [] m = .ok o ∧ dumps o = .ok b := by
  rw [pickled]
  cases canonical [] m with
  | error e => exact iff_of_false nofun fun ⟨_, h, _⟩ => nomatch h
  | ok o =>
    constructor
    · intro h
      exact ⟨o, rfl, h⟩
    · rintro ⟨_, ho, h⟩
      rw [← Except.ok.inj ho] at h
      exact h

/-- The pickles are those of the elements, one by one. -/
theorem dumpsAll_iff {l : List Member} {bs : List Bytes} :
    dumpsAll l = .ok bs ↔ List.Forall₂ (fun b x => pickled x = .ok b) bs l := by
  induction l generalizing bs with
  | nil =>
    rw [dumpsAll, List.forall₂_nil_right_iff]
    exact ⟨fun h => (Except.ok.inj h).symm, fun h => congrArg Except.ok h.symm⟩
  | cons x xs ih =>
    have hx : dumpsAll (x :: xs) = (do
        let b ← pickled x
        let bs ← dumpsAll xs
        return b :: bs) := by
      rw [dumpsAll, pickled]
      cases canonical [] x <;> rfl
    rw [hx, List.forall₂_cons_right_iff]
    cases hb : pickled x with
    | error e => exact iff_of_false nofun fun ⟨_, _, h, _⟩ => nomatch h
    | ok b =>
      cases hbs : dumpsAll xs with
      | error e =>
        refine iff_of_false nofun fun ⟨_, bs', _, h, _⟩ => ?_
        rw [← ih, hbs] at h
        cases h
      | ok bs' =>
        constructor
        · intro h
          exact ⟨b, bs', rfl, ih.1 hbs, (Except.ok.inj h).symm⟩
        · rintro ⟨b', bs'', hb', hbs', rfl⟩
          rw [← ih, hbs] at hbs'
          rw [← Except.ok.inj hb', ← Except.ok.inj hbs']
          rfl

theorem isMade_tupleOf {i : Nat} {place : List Nat} (os : List (Obj Ident)) :
    isMade (tupleOf (if os.all fun o => !isMade o then .own i else .made place 0) os) =
      !os.all fun o => !isMade o := by
  cases os with
  | nil => rfl
  | cons o os =>
    cases (o :: os).all fun o => !isMade o <;> rfl

mutual

/-- `_canonical` returns its argument where there is no unordered container inside. -/
theorem isMade_canonical : ∀ (place : List Nat) (m : Member) {o : Obj Ident},
    canonical place m = .ok o → isMade o = !m.plain
  | place, .none, o, h => by
    rw [← Except.ok.inj h]
    rfl
  | place, .int n, o, h => by
    rw [← Except.ok.inj h]
    rfl
  | place, .str i s, o, h => by
    rw [← Except.ok.inj h]
    rfl
  | place, .bytes i b, o, h => by
    rw [← Except.ok.inj h]
    rfl
  | place, .tuple i items, o, h => by
    obtain ⟨os, hos, rfl⟩ := canonical_tuple.1 h
    rw [isMade_tupleOf, isMade_canonicalAll place 0 items hos, plain]
  | place, .frozenset i elements, o, h => by
    obtain ⟨pickles, -, rfl⟩ := canonical_frozenset.1 h
    rfl

theorem isMade_canonicalAll : ∀ (place : List Nat) (k : Nat) (l : List Member)
    {os : List (Obj Ident)}, canonicalAll place k l = .ok os →
    (os.all fun o => !isMade o) = plainAll l
  | place, k, [], os, h => by
    rw [← Except.ok.inj h]
    rfl
  | place, k, x :: xs, os, h => by
    obtain ⟨o, os', ho, hos, rfl⟩ := canonicalAll_cons.1 h
    rw [List.all_cons, isMade_canonical (k :: place) x ho, isMade_canonicalAll place (k + 1) xs hos,
      plainAll, Bool.not_not]

end

mutual

/-- A member without unordered containers is the same at every place. -/
theorem canonical_plain : ∀ (place place' : List Nat) (m : Member), m.plain = true →
    canonical place m = canonical place' m
  | _, _, .none, _ => rfl
  | _, _, .int _, _ => rfl
  | _, _, .str _ _, _ => rfl
  | _, _, .bytes _ _, _ => rfl
  | place, place', .tuple i items, h => by
    have hitems := canonicalAll_plain place place' 0 0 items h
    cases hos : canonicalAll place 0 items with
    | error e => rw [canonical, canonical, ← hitems, hos]; rfl
    | ok os =>
      have hall : (os.all fun o => !isMade o) = true :=
        (isMade_canonicalAll place 0 items hos).trans h
      rw [canonical, canonical, ← hitems, hos]
      show Except.ok _ = Except.ok _
      rw [hall, if_pos rfl, if_pos rfl]
  | _, _, .frozenset _ _, h => nomatch h

theorem canonicalAll_plain : ∀ (place place' : List Nat) (k k' : Nat) (l : List Member),
    plainAll l = true → canonicalAll place k l = canonicalAll place' k' l
  | _, _, _, _, [], _ => rfl
  | place, place', k, k', x :: xs, h => by
    rw [plainAll, Bool.and_eq_true] at h
    rw [canonicalAll, canonicalAll, canonical_plain (k :: place) (k' :: place') x h.1,
      canonicalAll_plain place place' (k + 1) (k' + 1) xs h.2]

end

/-! ## The objects that are met -/

theorem names_tupleOf (i : Ident) (os : List (Obj Ident)) :
    (tupleOf i os).names = Shared.namesAll os ++ if os.isEmpty then [] else [i] := by
  cases os with
  | nil => rfl
  | cons o os => rw [tupleOf, Shared.names, Shared.namesAll, List.append_assoc]; rfl

theorem namesAll_pickleObjects (place : List Nat) (part : Nat) (bs : List Bytes) :
    Shared.namesAll (pickleObjects place part bs) =
      (List.range bs.length).map fun k => .made place (k + part) := by
  induction bs generalizing part with
  | nil => rfl
  | cons b bs ih =>
    rw [pickleObjects, Shared.namesAll, ih, List.length_cons, List.range_succ_eq_map, List.map_cons,
      List.map_map, Nat.zero_add]
    refine congrArg (Ident.made place part :: ·) (List.map_congr_left fun k _ => ?_)
    rw [Function.comp_apply, Nat.succ_eq_add_one]
    congr 1
    omega

theorem length_dumpsAll {l : List Member} {bs : List Bytes} (h : dumpsAll l = .ok bs) :
    bs.length = l.length := (dumpsAll_iff.1 h).length_eq

mutual

theorem names_canonical : ∀ (place : List Nat) (m : Member) {o : Obj Ident},
    canonical place m = .ok o → o.names = met place m
  | place, .none, o, h => by
    rw [← Except.ok.inj h]
    rfl
  | place, .int n, o, h => by
    rw [← Except.ok.inj h]
    rfl
  | place, .str i s, o, h => by
    rw [← Except.ok.inj h]
    rfl
  | place, .bytes i b, o, h => by
    rw [← Except.ok.inj h]
    rfl
  | place, .tuple i items, o, h => by
    obtain ⟨os, hos, rfl⟩ := canonical_tuple.1 h
    have hlen : os.isEmpty = items.isEmpty := by
      cases items with
      | nil =>
        have hnil : os = [] := (Except.ok.inj hos).symm
        rw [hnil]
        rfl
      | cons x xs =>
        obtain ⟨o, os', -, -, rfl⟩ := canonicalAll_cons.1 hos
        rfl
    rw [names_tupleOf, namesAll_canonical place 0 items hos, isMade_canonicalAll place 0 items hos,
      met, hlen]
  | place, .frozenset i elements, o, h => by
    obtain ⟨pickles, hp, rfl⟩ := canonical_frozenset.1 h
    have hlen : (sorted pickles).length = elements.length :=
      (sorted_perm pickles).length_eq.trans (length_dumpsAll hp)
    have hempty : (pickleObjects place 2 (sorted pickles)).isEmpty = elements.isEmpty := by
      cases hs : sorted pickles with
      | nil =>
        rw [hs] at hlen
        rw [List.eq_nil_of_length_eq_zero hlen.symm]
        rfl
      | cons b bs =>
        rw [hs] at hlen
        cases elements with
        | nil => cases hlen
        | cons x xs => rfl
    rw [tagged, Shared.names, Shared.namesAll, Shared.namesAll, names_tupleOf, hempty,
      namesAll_pickleObjects, hlen, met, List.append_nil]
    rfl

theorem namesAll_canonical : ∀ (place : List Nat) (k : Nat) (l : List Member)
    {os : List (Obj Ident)}, canonicalAll place k l = .ok os →
    Shared.namesAll os = metAll place k l
  | place, k, [], os, h => by
    rw [← Except.ok.inj h]
    rfl
  | place, k, x :: xs, os, h => by
    obtain ⟨o, os', ho, hos, rfl⟩ := canonicalAll_cons.1 h
    rw [Shared.namesAll, metAll, names_canonical (k :: place) x ho,
      namesAll_canonical place (k + 1) xs hos]

end

/-! ## The canonical value in memory -/

/-- An item of a tuple. -/
def child (k : Nat) (o : Obj Ident) : Obj Ident :=
  match o with
  | .node _ first rest => ((first :: rest)[k]?).getD o
  | _ => o

/-- An object made in the place of a value: the tuple, the tuple of the pickles, and the pickles. -/
def part (o : Obj Ident) : Nat → Obj Ident
  | 0 => o
  | 1 => child 1 o
  | k + 2 => child k (child 1 o)

/-- The memory of a canonical value. -/
def heapOf (heap : Nat → Member) (root : Obj Ident) : Ident → Obj Ident
  | .own i => ((canonical [] (heap i)).toOption).getD root
  | .made place k => part (place.foldr child root) k

theorem child_tupleOf {i : Ident} {os : List (Obj Ident)} {k : Nat} {o : Obj Ident}
    (h : os[k]? = some o) : child k (tupleOf i os) = o := by
  cases os with
  | nil => cases h
  | cons x xs => rw [tupleOf, child, h, Option.getD_some]

theorem pickleObjects_getElem? (place : List Nat) (bs : List Bytes) (start k : Nat) :
    (pickleObjects place start bs)[k]? =
      (bs[k]?).map fun b => .leaf (.made place (start + k)) (.bytes b) := by
  induction bs generalizing start k with
  | nil => rfl
  | cons b bs ih =>
    cases k with
    | zero => rfl
    | succ k =>
      rw [pickleObjects, List.getElem?_cons_succ, List.getElem?_cons_succ, ih, Nat.add_right_comm]
      rfl

/-- The list is in memory if each of its items is. -/
theorem allInHeap_of {heap : Ident → Obj Ident} {os : List (Obj Ident)}
    (h : ∀ o ∈ os, Shared.InHeap heap o) : Shared.AllInHeap heap os := by
  induction os with
  | nil => exact trivial
  | cons o os ih =>
    exact ⟨h o List.mem_cons_self, ih fun o ho => h o (List.mem_cons_of_mem _ ho)⟩

theorem inHeap_tupleOf {heap : Ident → Obj Ident} {i : Ident} {os : List (Obj Ident)}
    (hself : heap i = tupleOf i os) (hos : Shared.AllInHeap heap os) :
    Shared.InHeap heap (tupleOf i os) := by
  cases os with
  | nil => exact trivial
  | cons o os => exact ⟨hself, hos⟩

variable {heap heap' : Nat → Member} {root : Obj Ident}

theorem inHeap_tagged (htag : heap TAG_ID = .bytes TAG_ID UNORDERED_TAG) {place : List Nat}
    {pickles : List Bytes} (hroot : place.foldr child root = tagged place pickles) :
    Shared.InHeap (heapOf heap root) (tagged place pickles) := by
  have hinner : child 1 (place.foldr child root) =
      tupleOf (.made place 1) (pickleObjects place 2 pickles) := by
    rw [hroot]
    rfl
  have htagged : Shared.InHeap (heapOf heap root) (.leaf (.own TAG_ID) (.bytes UNORDERED_TAG)) := by
    show ((canonical [] (heap TAG_ID)).toOption).getD root = _
    rw [htag]
    rfl
  refine ⟨hroot, htagged, inHeap_tupleOf hinner (allInHeap_of fun o ho => ?_), trivial⟩
  obtain ⟨k, hk⟩ := List.mem_iff_getElem?.1 ho
  have hchild := child_tupleOf (i := .made place 1) hk
  rw [pickleObjects_getElem?] at hk
  obtain ⟨b, -, rfl⟩ := Option.map_eq_some_iff.1 hk
  show part (place.foldr child root) (2 + k) = _
  rw [Nat.add_comm, part, hinner, hchild, Nat.add_comm]

mutual

/-- (PROVED) Each object of a canonical value is the only one of its identity. -/
theorem inHeap_canonical (htag : heap TAG_ID = .bytes TAG_ID UNORDERED_TAG) :
    ∀ (place : List Nat) (m : Member) {o : Obj Ident}, m.InMemory heap →
    canonical place m = .ok o → place.foldr child root = o → Shared.InHeap (heapOf heap root) o
  | place, .none, o, _, h, _ => by
    rw [← Except.ok.inj h]
    exact trivial
  | place, .int n, o, _, h, _ => by
    rw [← Except.ok.inj h]
    exact trivial
  | place, .str i s, o, hm, h, _ => by
    rw [← Except.ok.inj h]
    show ((canonical [] (heap i)).toOption).getD root = _
    rw [show heap i = .str i s from hm]
    rfl
  | place, .bytes i b, o, hm, h, _ => by
    rw [← Except.ok.inj h]
    show ((canonical [] (heap i)).toOption).getD root = _
    rw [show heap i = .bytes i b from hm]
    rfl
  | place, .tuple i items, o, hm, h, hroot => by
    have hplain := isMade_canonical place (.tuple i items) h
    have hsame := canonical_plain [] place (.tuple i items)
    obtain ⟨os, hos, ho⟩ := canonical_tuple.1 h
    rw [isMade_canonicalAll place 0 items hos] at ho
    have hall : Shared.AllInHeap (heapOf heap root) os :=
      allInHeap_canonical htag place 0 items hm.2 hos fun k x hk => by
        rw [hroot, ho, Nat.zero_add]
        exact child_tupleOf hk
    rw [ho]
    refine inHeap_tupleOf ?_ hall
    rw [← ho]
    cases hp : plainAll items with
    | true =>
      rw [if_pos rfl]
      show ((canonical [] (heap i)).toOption).getD root = _
      rw [hm.1, hsame hp, h]
      rfl
    | false =>
      rw [if_neg Bool.false_ne_true]
      exact hroot
  | place, .frozenset i elements, o, hm, h, hroot => by
    obtain ⟨pickles, -, rfl⟩ := canonical_frozenset.1 h
    exact inHeap_tagged htag hroot

theorem allInHeap_canonical (htag : heap TAG_ID = .bytes TAG_ID UNORDERED_TAG) :
    ∀ (place : List Nat) (k : Nat) (l : List Member) {os : List (Obj Ident)},
    AllInMemory heap l → canonicalAll place k l = .ok os →
    (∀ j x, os[j]? = some x → child (k + j) (place.foldr child root) = x) →
    Shared.AllInHeap (heapOf heap root) os
  | place, k, [], os, _, h, _ => by
    rw [← Except.ok.inj h]
    exact trivial
  | place, k, x :: xs, os, hm, h, hroot => by
    obtain ⟨o, os', ho, hos, rfl⟩ := canonicalAll_cons.1 h
    refine ⟨inHeap_canonical htag (k :: place) x hm.1 ho (hroot 0 o rfl),
      allInHeap_canonical htag place (k + 1) xs hm.2 hos fun j y hj => ?_⟩
    rw [Nat.add_assoc, Nat.add_comm 1]
    exact hroot (j + 1) y hj

end

/-! ## Equal canonical values -/

/-- A tuple without identities. -/
abbrev tupleForm : List (Obj Unit) → Obj Unit
  | [] => .atom .emptyTuple
  | first :: rest => .node () first rest

def pickleForms (bs : List Bytes) : List (Obj Unit) := bs.map fun b => .leaf () (.bytes b)

theorem tupleForm_inj {l l' : List (Obj Unit)} : tupleForm l = tupleForm l' ↔ l = l' := by
  cases l with
  | nil =>
    cases l' with
    | nil => exact iff_of_true rfl rfl
    | cons x xs => exact iff_of_false nofun nofun
  | cons x xs =>
    cases l' with
    | nil => exact iff_of_false nofun nofun
    | cons y ys => simp only [tupleForm, Shared.node.injEq, true_and, List.cons.injEq]

theorem tupleForm_ne_leaf (l : List (Obj Unit)) (label : Leaf) : tupleForm l ≠ .leaf () label := by
  cases l <;> exact nofun

theorem erase_tupleOf (i : Ident) (os : List (Obj Ident)) :
    (tupleOf i os).erase = tupleForm (Shared.eraseAll os) := by
  cases os <;> rfl

theorem erase_pickleObjects (place : List Nat) (start : Nat) (bs : List Bytes) :
    Shared.eraseAll (pickleObjects place start bs) = pickleForms bs := by
  induction bs generalizing start with
  | nil => rfl
  | cons b bs ih =>
    rw [pickleForms, List.map_cons]
    exact congrArg _ (ih (start + 1))

theorem erase_tagged (place : List Nat) (pickles : List Bytes) : (tagged place pickles).erase =
    tupleForm [.leaf () (.bytes UNORDERED_TAG), tupleForm (pickleForms pickles)] := by
  rw [← erase_pickleObjects place 2 pickles, ← erase_tupleOf (.made place 1)]
  rfl

theorem eraseAll_canonicalAll_nil {place : List Nat} {k : Nat} {os : List (Obj Ident)}
    (h : canonicalAll place k [] = .ok os) : Shared.eraseAll os = [] := by
  rw [← Except.ok.inj h]
  rfl

/-- Only bytes come to be bytes. -/
theorem erase_eq_bytes {place : List Nat} {m : Member} {o : Obj Ident} {b : Bytes}
    (h : canonical place m = .ok o) : o.erase = .leaf () (.bytes b) ↔ ∃ i, m = .bytes i b := by
  cases m with
  | none =>
    rw [← Except.ok.inj h]
    exact iff_of_false nofun nofun
  | int n =>
    rw [← Except.ok.inj h]
    exact iff_of_false nofun nofun
  | str i s =>
    rw [← Except.ok.inj h]
    refine iff_of_false (fun he => ?_) nofun
    rw [Shared.erase, Shared.map, Shared.leaf.injEq] at he
    cases he.2
  | bytes i b' =>
    rw [← Except.ok.inj h, Shared.erase, Shared.map, Shared.leaf.injEq, Leaf.bytes.injEq]
    constructor
    · rintro ⟨-, rfl⟩
      exact ⟨i, rfl⟩
    · rintro ⟨j, hj⟩
      exact ⟨rfl, (Member.bytes.inj hj).2⟩
  | tuple i items =>
    obtain ⟨os, -, rfl⟩ := canonical_tuple.1 h
    rw [erase_tupleOf]
    exact iff_of_false (tupleForm_ne_leaf _ _) nofun
  | frozenset i elements =>
    obtain ⟨pickles, -, rfl⟩ := canonical_frozenset.1 h
    rw [erase_tagged]
    exact iff_of_false (tupleForm_ne_leaf _ _) nofun

theorem eraseAll_eq_pickles {place : List Nat} {k : Nat} {l : List Member} {os : List (Obj Ident)}
    {bs : List Bytes} (h : canonicalAll place k l = .ok os) :
    Shared.eraseAll os = pickleForms bs ↔ contents l = some bs := by
  induction l generalizing k os bs with
  | nil =>
    rw [eraseAll_canonicalAll_nil h, contents]
    cases bs with
    | nil => exact iff_of_true rfl rfl
    | cons b bs => exact iff_of_false nofun nofun
  | cons x xs ih =>
    obtain ⟨o, os', ho, hos, rfl⟩ := canonicalAll_cons.1 h
    cases bs with
    | nil =>
      refine iff_of_false nofun fun hc => ?_
      cases x with
      | bytes i b =>
        rw [contents] at hc
        obtain ⟨_, -, hc⟩ := Option.map_eq_some_iff.1 hc
        cases hc
      | _ => cases hc
    | cons b bs =>
      have hcons : Shared.eraseAll (o :: os') = pickleForms (b :: bs) ↔
          o.erase = .leaf () (.bytes b) ∧ Shared.eraseAll os' = pickleForms bs := by
        rw [pickleForms, List.map_cons]
        exact List.cons.injEq .. ▸ Iff.rfl
      rw [hcons, erase_eq_bytes ho, ih hos]
      constructor
      · rintro ⟨⟨i, rfl⟩, hc⟩
        rw [contents, hc]
        rfl
      · intro hc
        cases x with
        | bytes i b' =>
          rw [contents] at hc
          obtain ⟨bs', hbs', hc⟩ := Option.map_eq_some_iff.1 hc
          obtain ⟨rfl, rfl⟩ := List.cons.inj hc
          exact ⟨⟨i, rfl⟩, hbs'⟩
        | _ => cases hc

/-- What comes to be the tuple of a tag and some pickles. -/
theorem eraseAll_eq_spelled {place : List Nat} {k : Nat} {items : List Member}
    {os : List (Obj Ident)} {bs : List Bytes} (h : canonicalAll place k items = .ok os) :
    Shared.eraseAll os = [.leaf () (.bytes UNORDERED_TAG), tupleForm (pickleForms bs)] ↔
      ∃ i j l, items = [.bytes i UNORDERED_TAG, .tuple j l] ∧ contents l = some bs := by
  match items with
  | [] =>
    rw [eraseAll_canonicalAll_nil h]
    exact iff_of_false nofun nofun
  | [x] =>
    obtain ⟨o, os', -, hos, rfl⟩ := canonicalAll_cons.1 h
    refine iff_of_false (fun he => ?_) nofun
    have he : o.erase :: Shared.eraseAll os' = _ := he
    rw [eraseAll_canonicalAll_nil hos] at he
    cases (List.cons.inj he).2
  | x :: y :: z :: rest =>
    obtain ⟨o, os', -, hos, rfl⟩ := canonicalAll_cons.1 h
    obtain ⟨o', os'', -, hos', rfl⟩ := canonicalAll_cons.1 hos
    obtain ⟨o'', os''', -, -, rfl⟩ := canonicalAll_cons.1 hos'
    refine iff_of_false (fun he => ?_) ?_
    · have he : o.erase :: o'.erase :: o''.erase :: Shared.eraseAll os''' = _ := he
      cases (List.cons.inj (List.cons.inj he).2).2
    · rintro ⟨_, _, _, hitems, -⟩
      cases (List.cons.inj (List.cons.inj hitems).2).2
  | [x, y] =>
    obtain ⟨o, os', ho, hos, rfl⟩ := canonicalAll_cons.1 h
    obtain ⟨o', os'', ho', hos', rfl⟩ := canonicalAll_cons.1 hos
    have hcons : Shared.eraseAll (o :: o' :: os'') =
        [.leaf () (.bytes UNORDERED_TAG), tupleForm (pickleForms bs)] ↔
        o.erase = .leaf () (.bytes UNORDERED_TAG) ∧ o'.erase = tupleForm (pickleForms bs) := by
      show o.erase :: o'.erase :: Shared.eraseAll os'' = _ ↔ _
      rw [eraseAll_canonicalAll_nil hos', List.cons.injEq, List.cons.injEq]
      simp only [and_true]
    rw [hcons, erase_eq_bytes ho]
    constructor
    · rintro ⟨⟨i, rfl⟩, he⟩
      cases y with
      | tuple j l =>
        obtain ⟨ys, hys, rfl⟩ := canonical_tuple.1 ho'
        rw [erase_tupleOf, tupleForm_inj, eraseAll_eq_pickles hys] at he
        exact ⟨i, j, l, rfl, he⟩
      | frozenset j elements =>
        obtain ⟨pickles, -, rfl⟩ := canonical_frozenset.1 ho'
        rw [erase_tagged, tupleForm_inj] at he
        -- the pickles of a tuple are bytes, the second item of a tagged tuple is a tuple
        match bs with
        | [] => cases he
        | [_] => cases he
        | b :: b' :: bs =>
          have he : [_, tupleForm (pickleForms (sorted pickles))] =
            Shared.leaf () (.bytes b) :: .leaf () (.bytes b') :: pickleForms bs := he
          rw [List.cons.injEq, List.cons.injEq] at he
          exact absurd he.2.1 (tupleForm_ne_leaf _ _)
      | none =>
        rw [← Except.ok.inj ho'] at he
        cases bs <;> cases he
      | int n =>
        rw [← Except.ok.inj ho'] at he
        cases bs <;> cases he
      | str j s =>
        rw [← Except.ok.inj ho'] at he
        exact absurd he.symm (tupleForm_ne_leaf _ _)
      | bytes j b =>
        rw [← Except.ok.inj ho'] at he
        exact absurd he.symm (tupleForm_ne_leaf _ _)
    · rintro ⟨i, j, l, hxy, hc⟩
      rw [List.cons.injEq, List.cons.injEq] at hxy
      obtain ⟨rfl, rfl, -⟩ := hxy
      obtain ⟨ys, hys, rfl⟩ := canonical_tuple.1 ho'
      rw [erase_tupleOf, tupleForm_inj, eraseAll_eq_pickles hys]
      exact ⟨⟨i, rfl⟩, hc⟩

/-- A tuple that comes to be the tuple in the place of a frozenset. -/
theorem erase_tuple_frozenset {place place' : List Nat} {i j : Nat} {items elements : List Member}
    {o o' : Obj Ident} (ho : canonical place (.tuple i items) = .ok o)
    (ho' : canonical place' (.frozenset j elements) = .ok o') :
    o.erase = o'.erase ↔ Spells items elements := by
  obtain ⟨os, hos, rfl⟩ := canonical_tuple.1 ho
  obtain ⟨pickles, hp, rfl⟩ := canonical_frozenset.1 ho'
  rw [erase_tupleOf, erase_tagged, tupleForm_inj, eraseAll_eq_spelled hos]
  constructor
  · rintro ⟨i, j, l, hitems, hc⟩
    exact ⟨i, j, l, pickles, hitems, hp, hc⟩
  · rintro ⟨i, j, l, pickles', hitems, hp', hc⟩
    rw [hp] at hp'
    exact ⟨i, j, l, hitems, Except.ok.inj hp' ▸ hc⟩

/-- Pickles of a value that is not a tuple. -/
theorem erase_ne_tupleForm {place : List Nat} {m : Member} {o : Obj Ident} (l : List (Obj Unit))
    (hm : match m with | .tuple _ _ | .frozenset _ _ => False | _ => True)
    (ho : canonical place m = .ok o) : o.erase ≠ tupleForm l := by
  cases m with
  | none =>
    rw [← Except.ok.inj ho]
    cases l <;> exact nofun
  | int n =>
    rw [← Except.ok.inj ho]
    cases l <;> exact nofun
  | str i s =>
    rw [← Except.ok.inj ho]
    cases l <;> exact nofun
  | bytes i b =>
    rw [← Except.ok.inj ho]
    cases l <;> exact nofun
  | tuple i items => exact hm.elim
  | frozenset i elements => exact hm.elim

/-- The two values that are written as tuples. -/
theorem erase_eq_tupleForm {place : List Nat} {m : Member} {o : Obj Ident}
    (hm : match m with | .tuple _ _ | .frozenset _ _ => True | _ => False)
    (ho : canonical place m = .ok o) : ∃ l, o.erase = tupleForm l := by
  cases m with
  | tuple i items =>
    obtain ⟨os, -, rfl⟩ := canonical_tuple.1 ho
    exact ⟨_, erase_tupleOf _ _⟩
  | frozenset i elements =>
    obtain ⟨pickles, -, rfl⟩ := canonical_frozenset.1 ho
    exact ⟨_, erase_tagged _ _⟩
  | none | int _ | str _ _ | bytes _ _ => exact hm.elim

/-- Frozensets come to be the same if their pickles do, in some order. -/
theorem erase_frozensets {place place' : List Nat} {i j : Nat} {l l' : List Member}
    {o o' : Obj Ident} (ho : canonical place (.frozenset i l) = .ok o)
    (ho' : canonical place' (.frozenset j l') = .ok o') : o.erase = o'.erase ↔
      ∃ l'', l''.Perm l' ∧ ∃ pickles, dumpsAll l = .ok pickles ∧ dumpsAll l'' = .ok pickles := by
  obtain ⟨pickles, hp, rfl⟩ := canonical_frozenset.1 ho
  obtain ⟨pickles', hp', rfl⟩ := canonical_frozenset.1 ho'
  have hforms : Function.Injective pickleForms := List.map_injective_iff.2 fun b b' h => by
    rw [Shared.leaf.injEq, Leaf.bytes.injEq] at h
    exact h.2
  rw [erase_tagged, erase_tagged, tupleForm_inj, List.cons.injEq, List.cons.injEq, tupleForm_inj,
    hforms.eq_iff, sorted_eq_iff]
  simp only [true_and, and_true]
  constructor
  · intro hperm
    obtain ⟨l'', hall, hl''⟩ := List.perm_comp_forall₂ hperm (dumpsAll_iff.1 hp')
    exact ⟨l'', hl'', pickles, hp, dumpsAll_iff.2 hall⟩
  · rintro ⟨l'', hl'', bs, hbs, hbs''⟩
    rw [hp] at hbs
    rw [← Except.ok.inj hbs] at hbs''
    obtain ⟨bs', hall, hperm⟩ := List.perm_comp_forall₂ hl'' (dumpsAll_iff.1 hp').flip
    have hbs' : bs' = pickles := Except.ok.inj ((dumpsAll_iff.2 hall.flip).symm.trans hbs'')
    exact hbs' ▸ hperm

/-! ## Equal keys -/

theorem allInMemory_of_perm {l l' : List Member} (h : l.Perm l') (hl' : AllInMemory heap l') :
    AllInMemory heap l := by
  have hiff : ∀ l, AllInMemory heap l ↔ ∀ m ∈ l, m.InMemory heap := fun l => by
    induction l with
    | nil => exact iff_of_true trivial nofun
    | cons m l ih => rw [AllInMemory, ih, List.forall_mem_cons]
  rw [hiff] at hl' ⊢
  exact fun m hm => hl' m (h.mem_iff.1 hm)

mutual

theorem erase_iff (htag : heap TAG_ID = .bytes TAG_ID UNORDERED_TAG)
    (htag' : heap' TAG_ID = .bytes TAG_ID UNORDERED_TAG) : ∀ (place place' : List Nat)
    (m n : Member) {o o' : Obj Ident}, m.InMemory heap → n.InMemory heap' →
    canonical place m = .ok o → canonical place' n = .ok o' →
    (o.erase = o'.erase ↔ Like m n)
  | place, place', .none, n, o, o', _, _, ho, ho' => by
    cases n with
    | none =>
      rw [← Except.ok.inj ho, ← Except.ok.inj ho']
      exact iff_of_true rfl trivial
    | int n =>
      rw [← Except.ok.inj ho, ← Except.ok.inj ho']
      exact iff_of_false nofun id
    | str j t =>
      rw [← Except.ok.inj ho, ← Except.ok.inj ho']
      exact iff_of_false nofun id
    | bytes j b =>
      rw [← Except.ok.inj ho, ← Except.ok.inj ho']
      exact iff_of_false nofun id
    | tuple j l' =>
      obtain ⟨l, hl⟩ := erase_eq_tupleForm trivial ho'
      rw [hl]
      exact iff_of_false (erase_ne_tupleForm l trivial ho) id
    | frozenset j l' =>
      obtain ⟨l, hl⟩ := erase_eq_tupleForm trivial ho'
      rw [hl]
      exact iff_of_false (erase_ne_tupleForm l trivial ho) id
  | place, place', .int a, n, o, o', _, _, ho, ho' => by
    cases n with
    | none =>
      rw [← Except.ok.inj ho, ← Except.ok.inj ho']
      exact iff_of_false nofun id
    | int b =>
      rw [← Except.ok.inj ho, ← Except.ok.inj ho', Shared.erase, Shared.erase, Shared.map, Shared.map,
        Shared.atom.injEq, Atom.int.injEq]
      rfl
    | str j t =>
      rw [← Except.ok.inj ho, ← Except.ok.inj ho']
      exact iff_of_false nofun id
    | bytes j b =>
      rw [← Except.ok.inj ho, ← Except.ok.inj ho']
      exact iff_of_false nofun id
    | tuple j l' =>
      obtain ⟨l, hl⟩ := erase_eq_tupleForm trivial ho'
      rw [hl]
      exact iff_of_false (erase_ne_tupleForm l trivial ho) id
    | frozenset j l' =>
      obtain ⟨l, hl⟩ := erase_eq_tupleForm trivial ho'
      rw [hl]
      exact iff_of_false (erase_ne_tupleForm l trivial ho) id
  | place, place', .str i s, n, o, o', _, _, ho, ho' => by
    cases n with
    | none =>
      rw [← Except.ok.inj ho, ← Except.ok.inj ho']
      exact iff_of_false nofun id
    | int b =>
      rw [← Except.ok.inj ho, ← Except.ok.inj ho']
      exact iff_of_false nofun id
    | str j t =>
      rw [← Except.ok.inj ho, ← Except.ok.inj ho', Shared.erase, Shared.erase, Shared.map, Shared.map,
        Shared.leaf.injEq, Leaf.str.injEq]
      exact and_iff_right rfl
    | bytes j b =>
      rw [← Except.ok.inj ho, ← Except.ok.inj ho', Shared.erase, Shared.erase, Shared.map, Shared.map,
        Shared.leaf.injEq]
      exact iff_of_false (fun h => nomatch h.2) id
    | tuple j l' =>
      obtain ⟨l, hl⟩ := erase_eq_tupleForm trivial ho'
      rw [hl]
      exact iff_of_false (erase_ne_tupleForm l trivial ho) id
    | frozenset j l' =>
      obtain ⟨l, hl⟩ := erase_eq_tupleForm trivial ho'
      rw [hl]
      exact iff_of_false (erase_ne_tupleForm l trivial ho) id
  | place, place', .bytes i a, n, o, o', _, _, ho, ho' => by
    cases n with
    | none =>
      rw [← Except.ok.inj ho, ← Except.ok.inj ho']
      exact iff_of_false nofun id
    | int b =>
      rw [← Except.ok.inj ho, ← Except.ok.inj ho']
      exact iff_of_false nofun id
    | str j t =>
      rw [← Except.ok.inj ho, ← Except.ok.inj ho', Shared.erase, Shared.erase, Shared.map, Shared.map,
        Shared.leaf.injEq]
      exact iff_of_false (fun h => nomatch h.2) id
    | bytes j b =>
      rw [← Except.ok.inj ho, ← Except.ok.inj ho', Shared.erase, Shared.erase, Shared.map, Shared.map,
        Shared.leaf.injEq, Leaf.bytes.injEq]
      exact and_iff_right rfl
    | tuple j l' =>
      obtain ⟨l, hl⟩ := erase_eq_tupleForm trivial ho'
      rw [hl]
      exact iff_of_false (erase_ne_tupleForm l trivial ho) id
    | frozenset j l' =>
      obtain ⟨l, hl⟩ := erase_eq_tupleForm trivial ho'
      rw [hl]
      exact iff_of_false (erase_ne_tupleForm l trivial ho) id
  | place, place', .tuple i l, n, o, o', hm, hn, ho, ho' => by
    cases n with
    | tuple j l' =>
      obtain ⟨os, hos, rfl⟩ := canonical_tuple.1 ho
      obtain ⟨os', hos', rfl⟩ := canonical_tuple.1 ho'
      rw [erase_tupleOf, erase_tupleOf, tupleForm_inj]
      exact eraseAll_iff htag htag' place place' 0 0 l l' hm.2 hn.2 hos hos'
    | frozenset j l' => exact erase_tuple_frozenset ho ho'
    | none | int _ | str _ _ | bytes _ _ =>
      obtain ⟨l, hl⟩ := erase_eq_tupleForm trivial ho
      rw [hl]
      exact iff_of_false (erase_ne_tupleForm l trivial ho').symm id
  | place, place', .frozenset i l, n, o, o', hm, hn, ho, ho' => by
    cases n with
    | tuple j l' => exact eq_comm.trans (erase_tuple_frozenset ho' ho)
    | frozenset j l' =>
      obtain ⟨pickles, hp, -⟩ := canonical_frozenset.1 ho
      obtain ⟨pickles', hp', -⟩ := canonical_frozenset.1 ho'
      rw [erase_frozensets ho ho', Like]
      refine exists_congr fun l'' => and_congr_right fun hperm => ?_
      have hmem := allInMemory_of_perm hperm hn.2
      obtain ⟨bs, hall, -⟩ := List.perm_comp_forall₂ hperm (dumpsAll_iff.1 hp').flip
      have hl'' : dumpsAll l'' = .ok bs := dumpsAll_iff.2 hall.flip
      rw [← twinAll_iff htag htag' l l'' hm.2 hmem hp hl'', hp, hl'']
      constructor
      · rintro ⟨_, h, h'⟩
        exact (Except.ok.inj h).trans (Except.ok.inj h').symm
      · rintro rfl
        exact ⟨_, rfl, rfl⟩
    | none | int _ | str _ _ | bytes _ _ =>
      obtain ⟨l, hl⟩ := erase_eq_tupleForm trivial ho
      rw [hl]
      exact iff_of_false (erase_ne_tupleForm l trivial ho').symm id

theorem eraseAll_iff (htag : heap TAG_ID = .bytes TAG_ID UNORDERED_TAG)
    (htag' : heap' TAG_ID = .bytes TAG_ID UNORDERED_TAG) : ∀ (place place' : List Nat) (k k' : Nat)
    (l l' : List Member) {os os' : List (Obj Ident)}, AllInMemory heap l → AllInMemory heap' l' →
    canonicalAll place k l = .ok os → canonicalAll place' k' l' = .ok os' →
    (Shared.eraseAll os = Shared.eraseAll os' ↔ LikeAll l l')
  | place, place', k, k', [], l', os, os', _, _, hos, hos' => by
    rw [eraseAll_canonicalAll_nil hos]
    cases l' with
    | nil => exact iff_of_true (eraseAll_canonicalAll_nil hos').symm trivial
    | cons y ys =>
      obtain ⟨o', os'', -, -, rfl⟩ := canonicalAll_cons.1 hos'
      exact iff_of_false nofun id
  | place, place', k, k', x :: xs, l', os, os', hl, hl', hos, hos' => by
    obtain ⟨o, os, ho, hxs, rfl⟩ := canonicalAll_cons.1 hos
    cases l' with
    | nil =>
      rw [eraseAll_canonicalAll_nil hos']
      exact iff_of_false nofun id
    | cons y ys =>
      obtain ⟨o', os', ho', hys, rfl⟩ := canonicalAll_cons.1 hos'
      show o.erase :: Shared.eraseAll os = o'.erase :: Shared.eraseAll os' ↔ _
      rw [List.cons.injEq, LikeAll,
        erase_iff htag htag' (k :: place) (k' :: place') x y hl.1 hl'.1 ho ho',
        eraseAll_iff htag htag' place place' (k + 1) (k' + 1) xs ys hl.2 hl'.2 hxs hys]

theorem twinAll_iff (htag : heap TAG_ID = .bytes TAG_ID UNORDERED_TAG)
    (htag' : heap' TAG_ID = .bytes TAG_ID UNORDERED_TAG) : ∀ (l l' : List Member)
    {bs bs' : List Bytes}, AllInMemory heap l → AllInMemory heap' l' → dumpsAll l = .ok bs →
    dumpsAll l' = .ok bs' → (bs = bs' ↔ TwinAll l l')
  | [], l', bs, bs', _, _, hbs, hbs' => by
    rw [← Except.ok.inj hbs]
    cases l' with
    | nil => exact iff_of_true (Except.ok.inj hbs') trivial
    | cons y ys =>
      obtain ⟨b, bs, -, -, rfl⟩ := List.forall₂_cons_right_iff.1 (dumpsAll_iff.1 hbs')
      exact iff_of_false nofun id
  | x :: xs, l', bs, bs', hl, hl', hbs, hbs' => by
    obtain ⟨b, bs, hb, hxs, rfl⟩ := List.forall₂_cons_right_iff.1 (dumpsAll_iff.1 hbs)
    cases l' with
    | nil =>
      rw [← Except.ok.inj hbs']
      exact iff_of_false nofun id
    | cons y ys =>
      obtain ⟨b', bs', hb', hys, rfl⟩ := List.forall₂_cons_right_iff.1 (dumpsAll_iff.1 hbs')
      obtain ⟨o, ho, hdump⟩ := pickled_eq_ok.1 hb
      obtain ⟨o', ho', hdump'⟩ := pickled_eq_ok.1 hb'
      rw [List.cons.injEq, TwinAll, twinAll_iff htag htag' xs ys hl.2 hl'.2 (dumpsAll_iff.2 hxs)
          (dumpsAll_iff.2 hys), dumps_eq_iff (inHeap_canonical htag [] x hl.1 ho rfl)
          (inHeap_canonical htag' [] y hl'.1 ho' rfl) hdump hdump',
        erase_iff htag htag' [] [] x y hl.1 hl'.1 ho ho', names_canonical [] x ho,
        names_canonical [] y ho']
      rfl

end

/-- **Two members have the same pickle exactly when they are twins** (PROVED). -/
theorem pickled_eq_iff {m n : Member} (hm : m.Valid) (hn : n.Valid) {b b' : Bytes}
    (hb : pickled m = .ok b) (hb' : pickled n = .ok b') : b = b' ↔ m.Twin n := by
  obtain ⟨heap, htag, hm⟩ := hm
  obtain ⟨heap', htag', hn⟩ := hn
  have h := twinAll_iff htag htag' [m] [n] ⟨hm, trivial⟩ ⟨hn, trivial⟩
    (dumpsAll_iff.2 (List.Forall₂.cons hb List.Forall₂.nil))
    (dumpsAll_iff.2 (List.Forall₂.cons hb' List.Forall₂.nil))
  rw [List.cons.injEq] at h
  exact (and_iff_left rfl).symm.trans (h.trans (and_iff_left trivial))

/-- Equal keys are those of twins, unless the hash collides on their pickles. -/
theorem key_iff_twin {H : Type} (sha256 : Bytes → H) {m n : Member} (hm : m.Valid) (hn : n.Valid)
    {k k' : H} (hk : memberKey sha256 m = .ok k) (hk' : memberKey sha256 n = .ok k')
    (hcollision : ∀ b b', pickled m = .ok b → pickled n = .ok b' → sha256 b = sha256 b' → b = b') :
    k = k' ↔ m.Twin n := by
  rw [memberKey] at hk hk'
  cases hb : pickled m with
  | error e =>
    rw [hb] at hk
    cases hk
  | ok b =>
    cases hb' : pickled n with
    | error e =>
      rw [hb'] at hk'
      cases hk'
    | ok b' =>
      rw [hb] at hk
      rw [hb'] at hk'
      obtain rfl : sha256 b = k := Except.ok.inj hk
      obtain rfl : sha256 b' = k' := Except.ok.inj hk'
      rw [← pickled_eq_iff hm hn hb hb']
      exact ⟨hcollision b b' hb hb', congrArg sha256⟩

/-! ## Members without the tag -/

namespace Member

/-- The first item is the tag. -/
def beginsWithTag : List Member → Bool
  | .bytes _ b :: _ => b == UNORDERED_TAG
  | _ => false

mutual

/-- No tuple inside begins with the tag. -/
def untagged : Member → Bool
  | .tuple _ items => !beginsWithTag items && untaggedAll items
  | .frozenset _ elements => untaggedAll elements
  | _ => true

def untaggedAll : List Member → Bool
  | [] => true
  | x :: xs => untagged x && untaggedAll xs

end

theorem untaggedAll_iff {l : List Member} : untaggedAll l = true ↔ ∀ m ∈ l, m.untagged = true := by
  induction l with
  | nil => exact iff_of_true rfl fun m hm => absurd hm List.not_mem_nil
  | cons m l ih => rw [untaggedAll, Bool.and_eq_true, ih, List.forall_mem_cons]

/-- A tuple that is taken for a frozenset begins with the tag. -/
theorem Spells.tagged {items elements : List Member} (h : Spells items elements) :
    beginsWithTag items = true := by
  obtain ⟨i, j, l, pickles, hitems, -, -⟩ := h
  rw [hitems, beginsWithTag]
  exact beq_self_eq_true _

mutual

/-- Without the tag, what `_canonical` takes for equal is equal. -/
theorem same_of_like : ∀ m n : Member, m.untagged = true → n.untagged = true → Like m n → Same m n
  | .none, n, _, _, h => by cases n <;> exact h
  | .int _, n, _, _, h => by cases n <;> exact h
  | .str _ _, n, _, _, h => by cases n <;> exact h
  | .bytes _ _, n, _, _, h => by cases n <;> exact h
  | .tuple i l, n, hm, hn, h => by
    rw [untagged, Bool.and_eq_true, Bool.not_eq_true'] at hm
    cases n with
    | tuple j l' =>
      rw [untagged, Bool.and_eq_true] at hn
      exact sameAll_of_likeAll l l' hm.2 hn.2 h
    | frozenset j l' => exact absurd (Spells.tagged h) (by rw [hm.1]; exact Bool.false_ne_true)
    | none | int _ | str _ _ | bytes _ _ => exact h
  | .frozenset i l, n, hm, hn, h => by
    cases n with
    | tuple j l' =>
      rw [untagged, Bool.and_eq_true, Bool.not_eq_true'] at hn
      exact absurd (Spells.tagged h) (by rw [hn.1]; exact Bool.false_ne_true)
    | frozenset j l' =>
      obtain ⟨l'', hperm, hall⟩ := h
      have hl'' : untaggedAll l'' = true := by
        rw [untagged, untaggedAll_iff] at hn
        rw [untaggedAll_iff]
        intro x hx
        exact hn x (hperm.mem_iff.1 hx)
      exact ⟨l'', hperm, sameAll_of_twinAll l l'' hm hl'' hall⟩
    | none | int _ | str _ _ | bytes _ _ => exact h

theorem sameAll_of_likeAll : ∀ l l' : List Member, untaggedAll l = true → untaggedAll l' = true →
    LikeAll l l' → SameAll l l'
  | [], l', _, _, h => by cases l' <;> exact h
  | x :: xs, l', hl, hl', h => by
    cases l' with
    | nil => exact h
    | cons y ys =>
      rw [untaggedAll, Bool.and_eq_true] at hl hl'
      exact ⟨same_of_like x y hl.1 hl'.1 h.1, sameAll_of_likeAll xs ys hl.2 hl'.2 h.2⟩

theorem sameAll_of_twinAll : ∀ l l' : List Member, untaggedAll l = true → untaggedAll l' = true →
    TwinAll l l' → SameAll l l'
  | [], l', _, _, h => by cases l' <;> exact h
  | x :: xs, l', hl, hl', h => by
    cases l' with
    | nil => exact h
    | cons y ys =>
      rw [untaggedAll, Bool.and_eq_true] at hl hl'
      exact ⟨same_of_like x y hl.1 hl'.1 h.1.1, sameAll_of_twinAll xs ys hl.2 hl'.2 h.2⟩

end

end Member

/-! ## A string that is shared -/

/-- `("ab", "ab")`, the second string under an identity. -/
def pair (second : Nat) : Member :=
  .tuple 1 [.str 2 (pyStr "ab"), .str second (pyStr "ab")]

/-- The memory of a pair. -/
def pairHeap (second : Nat) (i : Nat) : Member :=
  if i = 0 then .bytes TAG_ID UNORDERED_TAG
  else if i = 1 then pair second
  else .str i (pyStr "ab")

theorem pair_valid {second : Nat} (h : 2 ≤ second) : (pair second).Valid := by
  have hsecond : pairHeap second second = .str second (pyStr "ab") := by
    rw [pairHeap, if_neg (by omega), if_neg (by omega)]
  exact ⟨pairHeap second, rfl, rfl, rfl, hsecond, trivial⟩

/-- **Two members have the same key exactly when they are twins** (PROVED), unless the hash collides on
their pickles; and then they are equal unless a tuple inside begins with the tag. -/
theorem same_key_iff {H : Type} (sha256 : Bytes → H) {m n : Member} (hm : m.Valid) (hn : n.Valid)
    {k k' : H} (hk : memberKey sha256 m = .ok k) (hk' : memberKey sha256 n = .ok k')
    (hcollision : ∀ b b', pickled m = .ok b → pickled n = .ok b' → sha256 b = sha256 b' → b = b') :
    (k = k' ↔ m.Twin n) ∧ (m.untagged = true → n.untagged = true → k = k' → m.Same n) := by
  have hiff := key_iff_twin sha256 hm hn hk hk' hcollision
  refine ⟨hiff, ?_⟩
  intro hmt hnt heq
  exact same_of_like m n hmt hnt (hiff.1 heq).1

/-- The pair of one string and the pair of two are equal, and are no twins: they differ in their keys. -/
theorem same_key_pair : ∃ k k', memberKey id (pair 2) = .ok k ∧ memberKey id (pair 3) = .ok k' ∧
    (pair 2).Same (pair 3) ∧ k ≠ k' ∧ (k = k' ↔ (pair 2).Twin (pair 3)) := by
  refine ⟨_, _, rfl, rfl, ⟨rfl, rfl, trivial⟩, by decide, ?_⟩
  exact (same_key_iff id (pair_valid (by decide)) (pair_valid (by decide)) rfl rfl
    fun _ _ _ _ h => h).1

/-! ## Equal members -/

/-- **Equal members share one key, and different ones do not, exactly where equality and likeness down
to the sharing come to the same** (PROVED), unless the hash collides on their pickles. -/
theorem equal_share_key_iff {H : Type} (sha256 : Bytes → H) {m n : Member} (hm : m.Valid)
    (hn : n.Valid) {k k' : H} (hk : memberKey sha256 m = .ok k) (hk' : memberKey sha256 n = .ok k')
    (hcollision : ∀ b b', pickled m = .ok b → pickled n = .ok b' → sha256 b = sha256 b' → b = b') :
    ((m.Same n → k = k') ∧ (¬ m.Same n → k ≠ k')) ↔ (m.Same n ↔ m.Twin n) := by
  have hiff := key_iff_twin sha256 hm hn hk hk' hcollision
  constructor
  · intro hclaim
    constructor
    · intro hsame
      exact hiff.1 (hclaim.1 hsame)
    · intro htwin
      by_contra hsame
      exact hclaim.2 hsame (hiff.2 htwin)
  · intro hsame
    constructor
    · intro h
      exact hiff.2 (hsame.1 h)
    · intro h heq
      exact h (hsame.2 (hiff.1 heq))

/-- A frozenset of two numbers, iterated in the one order or in the other. -/
def numbers (id : Nat) (first second : Int) : Member := .frozenset id [.int first, .int second]

/-- `frozenset({1, 2})` however it was filled. -/
theorem equal_share_key_numbers : ∃ k k', memberKey id (numbers 1 1 2) = .ok k ∧
    memberKey id (numbers 2 2 1) = .ok k' ∧
    (((numbers 1 1 2).Same (numbers 2 2 1) → k = k') ∧
      (¬ (numbers 1 1 2).Same (numbers 2 2 1) → k ≠ k')) := by
  have hvalid : ∀ i a b, i ≠ 0 → (numbers i a b).Valid := by
    intro i a b hi
    refine ⟨fun j => if j = 0 then .bytes TAG_ID UNORDERED_TAG else numbers i a b, rfl, ?_⟩
    exact ⟨if_neg hi, trivial, trivial, trivial⟩
  have hswap : [Member.int 1, .int 2].Perm [.int 2, .int 1] := List.Perm.swap _ _ _
  refine ⟨_, _, rfl, rfl, (equal_share_key_iff id (hvalid 1 1 2 (by decide))
    (hvalid 2 2 1 (by decide)) rfl rfl fun _ _ _ _ h => h).2 (iff_of_true ?_ ?_)⟩
  · exact ⟨_, hswap, rfl, rfl, trivial⟩
  · exact ⟨⟨_, hswap, ⟨rfl, rfl⟩, ⟨rfl, rfl⟩, trivial⟩, rfl⟩

/-- `('ab', 'ab')` of one string object, and of two: equal members with two keys. -/
theorem equal_pairs_two_keys : (pair 2).Valid ∧ (pair 3).Valid ∧ (pair 2).Same (pair 3) ∧
    memberKey id (pair 2) ≠ memberKey id (pair 3) :=
  ⟨pair_valid (by decide), pair_valid (by decide), ⟨rfl, rfl, trivial⟩, by decide⟩

end Virtuals.MemberKey
