/-
  What an operation on a container's children leaves as it was.

  A compound child is deleted with its block in the data tree and the block at the same path in the
  metadata tree. The container's own metadata key that is spelled like the child lies at the head of
  the second block and goes with it; a child deleted as a primitive leaves its metadata block behind.
  `Cut` says what a deletion takes from each child, `rows_cut` that the rows after it are the others.
  So the container's metadata and everything outside the child stay, and the child's metadata goes,
  exactly when neither happens (`metadata_frame_iff`).
-/
import Virtuals.Container.Tree

namespace Virtuals.Container

open Lib KeyCodec

variable {V : Type}

/-- The operations that delete, clear, replace or move children of a container. -/
inductive ChildOp (V : Type)
  | deleteChild (key : KeySegment)
  | deleteContainer (key : KeySegment)
  | deleteDescendants (key : KeySegment)
  | deleteChildPrimitiveUnsafe (key : KeySegment)
  | clearChildren (validate : Bool)
  | clearChildrenPrimitivesUnsafe
  | putChildPrimitive (key : KeySegment) (value : Option V) (validate validateParent : Bool)
  | putChildPrimitiveUnsafe (key : KeySegment) (value : Option V)
  | createChildContainer (key : KeySegment) (marker : Marker) (validate : Bool)
  | moveChildSubtree (src dst : KeySegment)

/-- The site of the container at a path, and its site in the metadata tree. -/
def dataAt (path : Site) : Site := DATA_ROOT :: path

def metaAt (path : Site) : Site := METADATA_ROOT :: path

namespace ChildOp

def exec (path : Site) : ChildOp V → Op V Unit
  | .deleteChild key => Container.deleteChild (dataAt path) key
  | .deleteContainer key => Container.deleteContainer (dataAt path ++ [key])
  | .deleteDescendants key => Container.deleteDescendants (dataAt path ++ [key])
  | .deleteChildPrimitiveUnsafe key => Container.deleteChildPrimitiveUnsafe (dataAt path) key
  | .clearChildren validate => Container.clearChildren (dataAt path) validate
  | .clearChildrenPrimitivesUnsafe => Container.clearChildrenPrimitivesUnsafe (dataAt path)
  | .putChildPrimitive key value validate validateParent =>
    Container.putChildPrimitive (dataAt path) key value validate validateParent
  | .putChildPrimitiveUnsafe key value =>
    Container.putChildPrimitiveUnsafe (dataAt path) key value
  | .createChildContainer key marker validate =>
    Container.createChildContainer (dataAt path) key marker validate
  | .moveChildSubtree src dst => Container.moveChildSubtree (dataAt path) src dst

end ChildOp

/-! ## What a deletion takes -/

/-- What a deletion takes of a child: nothing, its row, or its blocks in both trees. -/
inductive Cut
  | nothing
  | row
  | subtree
  deriving DecidableEq

/-- `delete_child` of what it found. -/
def Cut.ofFound : Option (Row V) → Cut
  | none => .nothing
  | some (.marker _) => .subtree
  | some (.primitive _) => .row

/-- `delete_container` of what it found. -/
def Cut.ofContainer : Option (Row V) → Cut
  | some (.marker _) => .subtree
  | _ => .nothing

/-- What an unvalidated delete of the row takes. -/
def Cut.ofRow : Option (Row V) → Cut
  | none => .nothing
  | some _ => .row

/-- What an operation takes of each child. -/
def ChildOp.cut (s : Store V) (path : Site) (c : KeySegment) : ChildOp V → Cut
  | .deleteChild key => if c = key then .ofFound (s.get? (dataAt path ++ [c])) else .nothing
  | .deleteContainer key =>
    if c = key then .ofContainer (s.get? (dataAt path ++ [c])) else .nothing
  | .deleteDescendants key => if c = key then .subtree else .nothing
  | .deleteChildPrimitiveUnsafe key =>
    if c = key then .ofRow (s.get? (dataAt path ++ [c])) else .nothing
  | .clearChildren _ => .ofFound (s.get? (dataAt path ++ [c]))
  | .clearChildrenPrimitivesUnsafe => .ofRow (s.get? (dataAt path ++ [c]))
  | _ => .nothing

/-- The rows that go when a child is cut so. -/
def Cut.Takes (path : Site) (c : KeySegment) (site : Site) : Cut → Prop
  | .nothing => False
  | .row => site = dataAt path ++ [c]
  | .subtree => dataAt path ++ [c] <+: site ∨ metaAt path ++ [c] <+: site

/-- The rows that go when each child is cut so. -/
def Taken (path : Site) (cut : KeySegment → Cut) (site : Site) : Prop :=
  ∃ c, (cut c).Takes path c site

/-- The children an operation is about. -/
def ChildOp.touches (s : Store V) (path : Site) (c : KeySegment) : ChildOp V → Prop
  | .putChildPrimitive key _ _ _ => c = key
  | .putChildPrimitiveUnsafe key _ => c = key
  | .createChildContainer key _ _ => c = key
  | .moveChildSubtree src dst => c = src ∨ c = dst
  | op => op.cut s path c ≠ .nothing

/-- What an operation on children is to leave as it was, and what a deletion is to remove. -/
structure FrameHolds (path : Site) (op : ChildOp V) (s s' : Store V) : Prop where
  /-- the container's own metadata -/
  own : ∀ k, s'.get? (metaAt path ++ [k]) = s.get? (metaAt path ++ [k])
  /-- the data and the metadata of the other children -/
  others : ∀ c, ¬ op.touches s path c → ∀ rest,
    s'.get? (dataAt path ++ c :: rest) = s.get? (dataAt path ++ c :: rest) ∧
      s'.get? (metaAt path ++ c :: rest) = s.get? (metaAt path ++ c :: rest)
  /-- the container's row and all rows outside it -/
  outside : ∀ site, (∀ c rest, site ≠ dataAt path ++ c :: rest ∧ site ≠ metaAt path ++ c :: rest) →
    s'.get? site = s.get? site
  /-- the metadata of a deleted child and of everything below it is gone -/
  removed : ∀ c, op.cut s path c ≠ .nothing → ∀ rest, rest ≠ [] →
    s'.get? (metaAt path ++ c :: rest) = none

/-- The container has no metadata key spelled like a child deleted with its subtree, and a child
    deleted as a primitive has no metadata. -/
def Apart (path : Site) (op : ChildOp V) (s : Store V) : Prop :=
  ∀ c, (op.cut s path c = .subtree → s.get? (metaAt path ++ [c]) = none) ∧
    (op.cut s path c = .row → ∀ rest, rest ≠ [] → s.get? (metaAt path ++ c :: rest) = none)

/-! ## Paths in the two trees -/

theorem roots_ne : DATA_ROOT ≠ METADATA_ROOT := by decide

theorem data_not_meta {path : Site} {c : KeySegment} {x : Site} :
    ¬ dataAt path ++ [c] <+: metaAt path ++ x := by
  intro h
  exact roots_ne (List.cons_prefix_cons.1 h).1

theorem meta_not_data {path : Site} {c : KeySegment} {x : Site} :
    ¬ metaAt path ++ [c] <+: dataAt path ++ x := by
  intro h
  exact roots_ne (List.cons_prefix_cons.1 h).1.symm

theorem child_prefix_iff {p : Site} {c d : KeySegment} {rest : Site} :
    p ++ [c] <+: p ++ d :: rest ↔ c = d := by
  rw [List.prefix_append_right_inj, List.cons_prefix_cons]
  exact ⟨fun h => h.1, fun h => ⟨h, List.nil_prefix⟩⟩

variable {path : Site} {cut : KeySegment → Cut}

theorem takes_iff {k : Cut} {c : KeySegment} {site : Site} : k.Takes path c site ↔
    k = .subtree ∧ (dataAt path ++ [c] <+: site ∨ metaAt path ++ [c] <+: site) ∨
      k = .row ∧ site = dataAt path ++ [c] := by
  cases k <;> simp [Cut.Takes]

theorem taken_data {c : KeySegment} {rest : Site} : Taken path cut (dataAt path ++ c :: rest) ↔
    cut c = .subtree ∨ cut c = .row ∧ rest = [] := by
  constructor
  · rintro ⟨d, h⟩
    rcases takes_iff.1 h with ⟨hd, h | h⟩ | ⟨hd, h⟩
    · rw [child_prefix_iff.1 h] at hd
      exact Or.inl hd
    · exact absurd h meta_not_data
    · obtain ⟨rfl, rfl⟩ := List.cons.inj (List.append_cancel_left h)
      exact Or.inr ⟨hd, rfl⟩
  · rintro (h | ⟨h, rfl⟩)
    · exact ⟨c, takes_iff.2 (Or.inl ⟨h, Or.inl (child_prefix_iff.2 rfl)⟩)⟩
    · exact ⟨c, takes_iff.2 (Or.inr ⟨h, rfl⟩)⟩

theorem taken_meta {c : KeySegment} {rest : Site} :
    Taken path cut (metaAt path ++ c :: rest) ↔ cut c = .subtree := by
  constructor
  · rintro ⟨d, h⟩
    rcases takes_iff.1 h with ⟨hd, h | h⟩ | ⟨-, h⟩
    · exact absurd h data_not_meta
    · rw [child_prefix_iff.1 h] at hd
      exact hd
    · exact absurd (List.cons.inj h).1.symm roots_ne
  · exact fun h => ⟨c, takes_iff.2 (Or.inl ⟨h, Or.inr (child_prefix_iff.2 rfl)⟩)⟩

theorem exists_of_child_prefix {p site : Site} {c : KeySegment} (h : p ++ [c] <+: site) :
    ∃ rest, site = p ++ c :: rest := by
  obtain ⟨rest, rfl⟩ := h
  exact ⟨rest, by rw [List.append_assoc]; rfl⟩

theorem not_taken_outside {site : Site}
    (h : ∀ c rest, site ≠ dataAt path ++ c :: rest ∧ site ≠ metaAt path ++ c :: rest) :
    ¬ Taken path cut site := by
  rintro ⟨c, hc⟩
  rcases takes_iff.1 hc with ⟨-, hp | hp⟩ | ⟨-, hs⟩
  · obtain ⟨rest, rfl⟩ := exists_of_child_prefix hp
    exact (h c rest).1 rfl
  · obtain ⟨rest, rfl⟩ := exists_of_child_prefix hp
    exact (h c rest).2 rfl
  · exact (h c []).1 hs

open Classical in
/-- The rows after a deletion: those it does not take. -/
def Leaves (path : Site) (cut : KeySegment → Cut) (s s' : Store V) : Prop :=
  ∀ site, s'.get? site = if Taken path cut site then none else s.get? site

theorem Leaves.taken {s s' : Store V} (h : Leaves path cut s s') {site : Site}
    (ht : Taken path cut site) : s'.get? site = none := by rw [h, if_pos ht]

theorem Leaves.kept {s s' : Store V} (h : Leaves path cut s s') {site : Site}
    (ht : ¬ Taken path cut site) : s'.get? site = s.get? site := by rw [h, if_neg ht]

theorem leaves_nothing (s : Store V) (h : ∀ c, cut c = .nothing) : Leaves path cut s s := by
  intro site
  rw [if_neg]
  rintro ⟨c, hc⟩
  rwa [h] at hc

/-- (PROVED) What a deletion takes is right exactly when it is apart from the metadata. -/
theorem Leaves.frame_iff {s s' : Store V} {op : ChildOp V}
    (h : Leaves path (fun c => op.cut s path c) s s')
    (htouch : ∀ c, op.touches s path c ↔ op.cut s path c ≠ .nothing) :
    FrameHolds path op s s' ↔ Apart path op s := by
  constructor
  · rintro hf c
    refine ⟨fun hc => ?_, fun hc rest hrest => ?_⟩
    · rw [← hf.own c]
      exact h.taken (taken_meta.2 hc)
    · have hkept : s'.get? (metaAt path ++ c :: rest) = s.get? (metaAt path ++ c :: rest) := by
        refine h.kept fun ht => ?_
        rw [taken_meta, hc] at ht
        cases ht
      rw [← hkept]
      exact hf.removed c (by rw [hc]; exact Cut.noConfusion) rest hrest
  · intro ha
    refine ⟨fun k => ?_, fun c hc rest => ?_, fun site hsite => h.kept (not_taken_outside hsite),
      fun c hc rest hrest => ?_⟩
    · by_cases hk : op.cut s path k = .subtree
      · rw [(ha k).1 hk]
        exact h.taken (taken_meta.2 hk)
      · exact h.kept fun ht => hk (taken_meta.1 ht)
    · rw [htouch, not_not] at hc
      refine ⟨h.kept fun ht => ?_, h.kept fun ht => ?_⟩
      · rw [taken_data, hc] at ht
        rcases ht with ht | ⟨ht, -⟩ <;> cases ht
      · rw [taken_meta, hc] at ht
        cases ht
    · cases hcut : op.cut s path c with
      | nothing => exact absurd hcut hc
      | subtree => exact h.taken (taken_meta.2 hcut)
      | row =>
        rw [h.kept (fun ht => ?_)]
        · exact (ha c).2 hcut rest hrest
        · rw [taken_meta, hcut] at ht
          cases ht

/-! ## Deletions of one child -/

/-- One child cut, the others not. -/
def only (c : KeySegment) (k : Cut) (d : KeySegment) : Cut := if d = c then k else .nothing

theorem taken_only {c : KeySegment} {k : Cut} {site : Site} :
    Taken path (only c k) site ↔ k.Takes path c site := by
  constructor
  · rintro ⟨d, h⟩
    unfold only at h
    split_ifs at h with hd
    · rwa [hd] at h
    · exact h.elim
  · intro h
    exact ⟨c, by rwa [only, if_pos rfl]⟩

theorem leaves_row (s : Store V) (c : KeySegment) :
    Leaves path (only c .row) s (s.erase (dataAt path ++ [c])) := by
  intro site
  rw [Table.get?_erase]
  simp [taken_only, Cut.Takes]

theorem leaves_subtree (path : Site) (s : Store V) (c : KeySegment) :
    Leaves path (only c .subtree) s
      ((s.eraseUnder (dataAt path ++ [c])).eraseUnder (metaAt path ++ [c])) := by
  intro site
  rw [Table.get?_eraseUnder, Table.get?_eraseUnder]
  by_cases hm : metaAt path ++ [c] <+: site
  · simp [taken_only, Cut.Takes, hm]
  · by_cases hd : dataAt path ++ [c] <+: site
    · simp [taken_only, Cut.Takes, hd]
    · simp [taken_only, Cut.Takes, hm, hd]

theorem leaves_none (s : Store V) (c : KeySegment) : Leaves path (only c .nothing) s s :=
  leaves_nothing s fun d => by
    unfold only
    split_ifs <;> rfl

theorem deleteDescendants_apply (s : Store V) (c : KeySegment) :
    deleteDescendants (dataAt path ++ [c]) s =
      .ok () ((s.eraseUnder (dataAt path ++ [c])).eraseUnder (metaAt path ++ [c])) := by
  have hroot : decide ((dataAt path ++ [c]).head? = some DATA_ROOT) = true := decide_eq_true rfl
  unfold deleteDescendants
  rw [hroot]
  rfl

/-- `delete_child` of a container's child takes what it finds. -/
theorem deleteChild_apply {s : Store V} {m : Marker} (hs : s.get? (dataAt path) = some (.marker m))
    (c : KeySegment) : ∃ s', deleteChild (dataAt path) c s = .ok () s' ∧
      Leaves path (only c (.ofFound (s.get? (dataAt path ++ [c])))) s s' := by
  have hvalid : validateIsContainer (dataAt path) s = .ok () s := by
    refine (bind_of_ok (getNodeInfo_apply _ s)).trans ?_
    rw [hs]
    rfl
  have hdelete : deleteChild (dataAt path) c s =
      deleteFound (dataAt path ++ [c]) (s.get? (dataAt path ++ [c])) s :=
    (bind_of_ok hvalid).trans (bind_of_ok (getNodeInfo_apply _ s))
  rw [hdelete]
  match s.get? (dataAt path ++ [c]) with
  | none => exact ⟨s, rfl, leaves_none s c⟩
  | some (.marker _) => exact ⟨_, deleteDescendants_apply s c, leaves_subtree path s c⟩
  | some (.primitive _) => exact ⟨_, rfl, leaves_row s c⟩

theorem deleteContainer_leaves (s : Store V) (c : KeySegment) :
    Leaves path (only c (.ofContainer (s.get? (dataAt path ++ [c])))) s
      (endState (deleteContainer (dataAt path ++ [c]) s)) := by
  unfold deleteContainer
  rw [bind_of_ok (getNodeInfo_apply _ s)]
  match s.get? (dataAt path ++ [c]) with
  | none => exact leaves_none s c
  | some (.primitive _) => exact leaves_none s c
  | some (.marker _) =>
    have h := leaves_subtree path s c
    simp only [deleteDescendants_apply]
    exact h

theorem deleteRow_leaves (s : Store V) (c : KeySegment) :
    Leaves path (only c (.ofRow (s.get? (dataAt path ++ [c])))) s
      (s.erase (dataAt path ++ [c])) := by
  cases h : s.get? (dataAt path ++ [c]) with
  | some row => exact leaves_row s c
  | none =>
    have hsame : s.erase (dataAt path ++ [c]) = s := by
      refine Table.ext fun site => ?_
      rw [Table.get?_erase]
      split_ifs with hsite
      · rw [hsite, h]
      · rfl
    rw [hsame]
    exact leaves_none s c

/-! ## Deletions of all children -/

theorem mem_childScan {s : Store V} {site key : Site} :
    key ∈ s.scanPaths (childScan site) ↔ ∃ c, key = site ++ [c] ∧ (s.get? (site ++ [c])).isSome := by
  rw [Table.mem_scanPaths (List.prefix_refl _)]
  constructor
  · rintro ⟨hrow, -, -, -, hchild⟩
    obtain ⟨c, rfl⟩ := isChildOf_iff.1 hchild
    exact ⟨c, rfl, hrow⟩
  · rintro ⟨c, rfl, hrow⟩
    have hp : site <+: site ++ [c] := List.prefix_append _ _
    refine ⟨hrow, not_lt.1 (prefix_not_lt hp), hp, fun d hd => ?_, isChildOf_iff.2 ⟨c, rfl⟩⟩
    obtain rfl := Option.some.inj hd
    simp

/-- Several children cut, each as it is found. -/
def among (keys : List KeySegment) (cut : KeySegment → Cut) (c : KeySegment) : Cut :=
  if c ∈ keys then cut c else .nothing

theorem taken_among {keys : List KeySegment} {site : Site} :
    Taken path (among keys cut) site ↔ ∃ c ∈ keys, (cut c).Takes path c site := by
  constructor
  · rintro ⟨c, h⟩
    unfold among at h
    split_ifs at h with hc
    · exact ⟨c, hc, h⟩
    · exact h.elim
  · rintro ⟨c, hc, h⟩
    exact ⟨c, by rwa [among, if_pos hc]⟩

theorem taken_among_cons {c : KeySegment} {keys : List KeySegment} {site : Site} :
    Taken path (among (c :: keys) cut) site ↔
      Taken path (only c (cut c)) site ∨ Taken path (among keys cut) site := by
  rw [taken_among, taken_among, taken_only]
  simp

/-- The deletion of one child does not touch the row of another, or the container's. -/
theorem not_taken_other {c d : KeySegment} {k : Cut} (h : d ≠ c) :
    ¬ Taken path (only c k) (dataAt path ++ [d]) := by
  rw [taken_data]
  have hnone : only c k d = .nothing := if_neg h
  simp [hnone]

theorem not_taken_self {c : KeySegment} {k : Cut} : ¬ Taken path (only c k) (dataAt path) := by
  refine not_taken_outside fun d rest => ⟨fun h => ?_, fun h => roots_ne (List.cons.inj h).1⟩
  simpa using congrArg List.length h

/-- Deleting children one after the other takes what is found of each at the start. -/
theorem deleteChildren_apply {keys : List KeySegment} (hkeys : keys.Nodup) {s : Store V} {m : Marker}
    (hs : s.get? (dataAt path) = some (.marker m)) :
    ∃ s', keys.forM (deleteChild (dataAt path)) s = .ok PUnit.unit s' ∧
      Leaves path (among keys fun c => .ofFound (s.get? (dataAt path ++ [c]))) s s' := by
  induction keys generalizing s with
  | nil => exact ⟨s, rfl, leaves_nothing s fun c => if_neg (by simp)⟩
  | cons c keys ih =>
    obtain ⟨hc, hkeys⟩ := List.nodup_cons.1 hkeys
    obtain ⟨s₁, hdelete, hleaves⟩ := deleteChild_apply hs c
    have hs₁ : s₁.get? (dataAt path) = some (.marker m) := (hleaves.kept not_taken_self).trans hs
    obtain ⟨s', hrest, hleaves'⟩ := ih hkeys hs₁
    refine ⟨s', (bind_of_ok hdelete).trans hrest, fun site => ?_⟩
    -- what is found of the children left is what was found at the start
    have hfound : (among keys fun d => Cut.ofFound (s₁.get? (dataAt path ++ [d]))) =
        among keys fun d => Cut.ofFound (s.get? (dataAt path ++ [d])) := by
      funext d
      unfold among
      split_ifs with hd
      · exact congrArg Cut.ofFound (hleaves.kept (not_taken_other fun hdc => hc (hdc ▸ hd)))
      · rfl
    rw [hleaves' site, hfound, hleaves site]
    by_cases h1 : Taken path (among keys fun d => Cut.ofFound (s.get? (dataAt path ++ [d]))) site
    · rw [if_pos h1, if_pos (taken_among_cons.2 (Or.inr h1))]
    · rw [if_neg h1]
      by_cases h2 : Taken path (only c (.ofFound (s.get? (dataAt path ++ [c])))) site
      · rw [if_pos h2, if_pos (taken_among_cons.2 (Or.inl h2))]
      · rw [if_neg h2, if_neg fun h => (taken_among_cons.1 h).elim h2 h1]

theorem childKeys_spec (s : Store V) (site : Site) :
    ((s.scanPaths (childScan site)).filterMap List.getLast?).Nodup ∧
      ∀ c, c ∈ (s.scanPaths (childScan site)).filterMap List.getLast? ↔
        (s.get? (site ++ [c])).isSome := by
  constructor
  · have hscan : (s.scanPaths (childScan site)).Nodup :=
      (s.scanPaths_sorted _).imp ne_of_lt
    rw [List.Nodup, List.pairwise_filterMap]
    refine List.Pairwise.imp_of_mem (fun {a b} ha hb hne k hk j hj hkj => hne ?_) hscan
    obtain ⟨t, rfl, -⟩ := mem_childScan.1 ha
    obtain ⟨u, rfl, -⟩ := mem_childScan.1 hb
    rw [List.getLast?_concat, Option.some.injEq] at hk hj
    rw [hk, hj, hkj]
  · intro c
    rw [List.mem_filterMap]
    constructor
    · rintro ⟨key, hkey, hk⟩
      obtain ⟨t, rfl, hrow⟩ := mem_childScan.1 hkey
      rw [List.getLast?_concat, Option.some.injEq] at hk
      exact hk ▸ hrow
    · exact fun hrow => ⟨_, mem_childScan.2 ⟨c, rfl, hrow⟩, List.getLast?_concat⟩

theorem clearChildren_leaves {s : Store V} {m : Marker}
    (hs : s.get? (dataAt path) = some (.marker m)) (validate : Bool) :
    Leaves path (fun c => .ofFound (s.get? (dataAt path ++ [c]))) s
      (endState (clearChildren (dataAt path) validate s)) := by
  have hvalid : onlyIf validate (validateIsContainer (dataAt path)) s = .ok () s := by
    cases validate with
    | false => rfl
    | true =>
      refine (bind_of_ok (getNodeInfo_apply _ s)).trans ?_
      rw [hs]
      rfl
  obtain ⟨hnodup, hmem⟩ := childKeys_spec s (dataAt path)
  obtain ⟨s', hdelete, hleaves⟩ := deleteChildren_apply hnodup hs
  have hclear : clearChildren (dataAt path) validate s = .ok PUnit.unit s' :=
    (bind_of_ok hvalid).trans ((bind_of_ok rfl).trans hdelete)
  have hcut : (among ((s.scanPaths (childScan (dataAt path))).filterMap List.getLast?)
      fun c => Cut.ofFound (s.get? (dataAt path ++ [c]))) =
      fun c => Cut.ofFound (s.get? (dataAt path ++ [c])) := by
    funext c
    unfold among
    split_ifs with hc
    · rfl
    · rw [hmem, Bool.not_eq_true, Option.isSome_eq_false_iff, Option.isNone_iff_eq_none] at hc
      rw [hc]
      rfl
  rw [hclear]
  rwa [hcut] at hleaves

theorem forM_deleteRow (keys : List Site) (s : Store V) :
    keys.forM deleteRow s = .ok PUnit.unit (s.eraseAll keys) := by
  induction keys generalizing s with
  | nil => rfl
  | cons k keys ih => exact ih (s.erase k)

theorem clearPrimitives_leaves (s : Store V) :
    Leaves path (fun c => .ofRow (s.get? (dataAt path ++ [c]))) s
      (endState (clearChildrenPrimitivesUnsafe (dataAt path) s)) := by
  have hclear : clearChildrenPrimitivesUnsafe (dataAt path) s =
      .ok PUnit.unit (s.eraseAll (s.scanPaths (childScan (dataAt path)))) :=
    (bind_of_ok (get_apply s)).trans (forM_deleteRow _ s)
  rw [hclear]
  intro site
  show (s.eraseAll _).get? site = _
  rw [Table.get?_eraseAll]
  have htaken : Taken path (fun c => Cut.ofRow (s.get? (dataAt path ++ [c]))) site ↔
      site ∈ s.scanPaths (childScan (dataAt path)) := by
    rw [mem_childScan]
    constructor
    · rintro ⟨c, hc⟩
      cases hrow : s.get? (dataAt path ++ [c]) with
      | none =>
        simp only [hrow] at hc
        exact hc.elim
      | some row =>
        simp only [hrow] at hc
        exact ⟨c, hc, by rw [hrow]; rfl⟩
    · rintro ⟨c, rfl, hrow⟩
      obtain ⟨row, hrow⟩ := Option.isSome_iff_exists.1 hrow
      refine ⟨c, ?_⟩
      simp only [hrow]
      rfl
  by_cases h : site ∈ s.scanPaths (childScan (dataAt path))
  · rw [if_pos h, if_pos (htaken.2 h)]
  · rw [if_neg h, if_neg (htaken.not.2 h)]

/-! ## Operations that delete nothing -/

/-- A program that leaves every row as it is, but for those under some of the children. -/
def Confined (path : Site) (touched : KeySegment → Prop) (m : Op V Unit) : Prop :=
  ∀ site, (∀ c rest, touched c → site ≠ dataAt path ++ c :: rest) →
    ∀ row, Keeps (fun s => s.get? site = row) m

theorem keeps_get? {site site' : Site} {row : Option (Row V)} :
    Keeps (fun s : Store V => s.get? site' = row) (getNodeInfo site) := fun _ h => h

theorem keeps_raiseIf {site : Site} {row : Option (Row V)} (e : Option ContainerError) :
    Keeps (fun s : Store V => s.get? site = row) (raiseIf e) := by
  cases e <;> exact fun _ h => h

theorem keeps_putRow {site site' : Site} {row : Option (Row V)} {r : Row V} (h : site' ≠ site) :
    Keeps (fun s : Store V => s.get? site' = row) (putRow site r) := by
  intro s hs
  show (s.put site r).get? site' = row
  rw [Table.get?_put, if_neg h, hs]

theorem keeps_deleteRow {site site' : Site} {row : Option (Row V)} (h : site' ≠ site) :
    Keeps (fun s : Store V => s.get? site' = row) (deleteRow site) := by
  intro s hs
  show (s.erase site).get? site' = row
  rw [Table.get?_erase, if_neg h, hs]

theorem keeps_validate {site site' : Site} {row : Option (Row V)} :
    Keeps (fun s : Store V => s.get? site' = row) (validateIsContainer site) :=
  keeps_get?.bind fun _ => keeps_raiseIf _

theorem keeps_putValue {site site' : Site} {row : Option (Row V)} (h : site' ≠ site)
    (value : Option V) : Keeps (fun s : Store V => s.get? site' = row) (putValue site value) := by
  cases value with
  | none => exact Keeps.pure ()
  | some value => exact keeps_putRow h

theorem putChildPrimitive_confined (path : Site) (key : KeySegment) (value : Option V)
    (validate validateParent : Bool) :
    Confined path (· = key) (putChildPrimitive (dataAt path) key value validate validateParent) := by
  intro site hsite row
  refine (keeps_raiseIf _).bind fun _ => (keeps_validate.onlyIf _).bind fun _ =>
    keeps_get?.bind fun _ => (keeps_raiseIf _).bind fun _ => keeps_putValue ?_ value
  exact hsite key [] rfl

theorem putChildPrimitiveUnsafe_confined (path : Site) (key : KeySegment) (value : Option V) :
    Confined path (· = key) (putChildPrimitiveUnsafe (dataAt path) key value) := by
  intro site hsite row
  exact (keeps_raiseIf _).bind fun _ => keeps_putValue (hsite key [] rfl) value

theorem createChildContainer_confined (path : Site) (key : KeySegment) (marker : Marker)
    (validate : Bool) :
    Confined path (· = key)
      (createChildContainer (V := V) (dataAt path) key marker validate) := by
  intro site hsite row
  refine keeps_get?.bind fun info => ?_
  match info with
  | some (.primitive _) => exact fun _ h => h
  | some (.marker _) => exact keeps_raiseIf _
  | none => exact (keeps_validate.onlyIf _).bind fun _ => keeps_putRow (hsite key [] rfl)

/-- A subtree is moved row by row: each comes from under one child and goes under the other. -/
theorem moveChildSubtree_confined (path : Site) (src dst : KeySegment) :
    Confined path (fun c => c = src ∨ c = dst)
      (moveChildSubtree (V := V) (dataAt path) src dst) := by
  intro site hsite row s hs
  unfold moveChildSubtree
  split_ifs with h
  · exact hs
  · rw [bind_of_ok (get_apply s)]
    refine Keeps.forM (I := fun s : Store V => s.get? site = row) _ (fun key hkey => ?_) s hs
    obtain ⟨-, hunder⟩ := Table.mem_scanPaths_under.1 hkey
    obtain ⟨rest, rfl⟩ := exists_of_child_prefix hunder
    cases s.get? (dataAt path ++ src :: rest) with
    | none => exact Keeps.pure ()
    | some r =>
      exact (keeps_putRow (hsite dst _ (Or.inr rfl))).bind fun _ =>
        keeps_deleteRow (hsite src rest (Or.inl rfl))

/-- What deletes nothing and touches the rows of its children only is right at any rows. -/
theorem Confined.frame_iff {s : Store V} {op : ChildOp V} {touched : KeySegment → Prop}
    (h : Confined path touched (op.exec path)) (hcut : ∀ c, op.cut s path c = .nothing)
    (htouch : ∀ c, op.touches s path c ↔ touched c) :
    FrameHolds path op s (endState (op.exec path s)) ↔ Apart path op s := by
  have hmeta : ∀ rest, (endState (op.exec path s)).get? (metaAt path ++ rest) =
      s.get? (metaAt path ++ rest) := by
    refine fun rest => h _ (fun c r _ hsite => ?_) _ s rfl
    exact roots_ne (List.cons.inj hsite).1.symm
  constructor
  · refine fun _ c => ⟨fun hc => ?_, fun hc => ?_⟩ <;> rw [hcut] at hc <;> cases hc
  · refine fun _ => ⟨fun k => hmeta [k], fun c hc rest => ⟨?_, hmeta _⟩, fun site hsite => ?_,
      fun c hc => absurd (hcut c) hc⟩
    · refine h _ (fun d r hd hsite => hc ?_) _ s rfl
      rw [htouch, (List.cons.inj (List.append_cancel_left hsite)).1]
      exact hd
    · exact h _ (fun c r _ => (hsite c r).1) _ s rfl

/-! ## The frame -/

/-- One child cut as it is found, said of each child. -/
theorem Leaves.only_at (f : KeySegment → Cut) {c : KeySegment} {s s' : Store V}
    (h : Leaves path (only c (f c)) s s') :
    Leaves path (fun d => if d = c then f d else .nothing) s s' := by
  have hcut : only c (f c) = fun d => if d = c then f d else .nothing := by
    funext d
    unfold only
    split_ifs with hd
    · rw [hd]
    · rfl
  rwa [hcut] at h

/-- (PROVED) **When an operation on children keeps its frame.** On a container, whatever is stored:
    the container's metadata, its other children and all rows outside it stay, and the metadata of
    a deleted child goes, if and only if no child deleted with its subtree is spelled like one of
    the container's own metadata keys, and no child deleted as a primitive has metadata. -/
theorem metadata_frame_iff {s : Store V} {path : Site} {m : Marker}
    (hs : s.get? (dataAt path) = some (.marker m)) (op : ChildOp V) :
    FrameHolds path op s (endState (op.exec path s)) ↔ Apart path op s := by
  cases op with
  | deleteChild key =>
    refine Leaves.frame_iff ?_ fun c => Iff.rfl
    obtain ⟨s', hdelete, hleaves⟩ := deleteChild_apply hs key
    rw [ChildOp.exec, hdelete]
    exact hleaves.only_at fun c => .ofFound (s.get? (dataAt path ++ [c]))
  | deleteContainer key =>
    refine Leaves.frame_iff ?_ fun c => Iff.rfl
    exact (deleteContainer_leaves s key).only_at fun c => .ofContainer (s.get? (dataAt path ++ [c]))
  | deleteDescendants key =>
    refine Leaves.frame_iff ?_ fun c => Iff.rfl
    rw [ChildOp.exec, deleteDescendants_apply]
    exact leaves_subtree path s key
  | deleteChildPrimitiveUnsafe key =>
    refine Leaves.frame_iff ?_ fun c => Iff.rfl
    exact (deleteRow_leaves s key).only_at fun c => .ofRow (s.get? (dataAt path ++ [c]))
  | clearChildren validate => exact Leaves.frame_iff (clearChildren_leaves hs validate) fun c => Iff.rfl
  | clearChildrenPrimitivesUnsafe => exact Leaves.frame_iff (clearPrimitives_leaves s) fun c => Iff.rfl
  | putChildPrimitive key value validate validateParent =>
    exact (putChildPrimitive_confined path key value validate validateParent).frame_iff
      (fun _ => rfl) fun _ => Iff.rfl
  | putChildPrimitiveUnsafe key value =>
    exact (putChildPrimitiveUnsafe_confined path key value).frame_iff
      (fun _ => rfl) fun _ => Iff.rfl
  | createChildContainer key marker validate =>
    exact (createChildContainer_confined path key marker validate).frame_iff
      (fun _ => rfl) fun _ => Iff.rfl
  | moveChildSubtree src dst =>
    exact (moveChildSubtree_confined path src dst).frame_iff (fun _ => rfl) fun _ => Iff.rfl

/-- A container at the root with a compound child and a metadata key. -/
def rootWith (child key : KeySegment) : Store Unit :=
  (((∅ : Store Unit).put (dataAt []) (.marker ⟨1, 1⟩)).put (dataAt [] ++ [child])
    (.marker ⟨1, 1⟩)).put (metaAt [] ++ [key]) (.primitive ())

theorem metadata_frame_other_key :
    FrameHolds [] (.deleteChild (.str (pyStr "a"))) (rootWith (.str (pyStr "a")) (.int 1))
      (endState (ChildOp.exec [] (.deleteChild (.str (pyStr "a")))
        (rootWith (.str (pyStr "a")) (.int 1)))) := by
  refine (metadata_frame_iff (m := ⟨1, 1⟩) (by decide) _).2 fun c => ⟨fun hc => ?_, fun hc => ?_⟩
  · rw [ChildOp.cut] at hc
    split_ifs at hc with h
    rw [h]
    decide
  · rw [ChildOp.cut] at hc
    split_ifs at hc with h
    rw [h] at hc
    exact absurd hc (by decide)

/-- The root's metadata key `__len__` goes with a compound child of that name. -/
theorem own_metadata_deleted :
    ¬ ∀ (s : Store Unit) (path : Site) (m : Marker), s.get? (dataAt path) = some (.marker m) →
      ∀ op : ChildOp Unit, FrameHolds path op s (endState (op.exec path s)) := by
  intro h
  have hs : (rootWith (.str (pyStr "__len__")) (.str (pyStr "__len__"))).get? (dataAt []) =
      some (.marker ⟨1, 1⟩) := by decide
  have hown := (h _ [] _ hs (.deleteChild (.str (pyStr "__len__")))).own (.str (pyStr "__len__"))
  obtain ⟨s', hdelete, hleaves⟩ := deleteChild_apply hs (.str (pyStr "__len__"))
  rw [ChildOp.exec, hdelete] at hown
  have hgone : s'.get? (metaAt [] ++ [.str (pyStr "__len__")]) = none :=
    hleaves.taken (taken_meta.2 (by decide))
  exact absurd (hown.symm.trans hgone) (by decide)

end Virtuals.Container
