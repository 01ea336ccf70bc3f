/-
  Listing a container's metadata keys.

  The scan of `iter_metadata_keys` starts at the empty string, and an int is below every string: a str
  key put on the container is listed, an int key never is (`mem_listed`). So the listing is exact when
  no int key is on the container, and only then (`metadata_listing_iff`).
-/
import Virtuals.Container.Tree

namespace Virtuals.Container

open Lib KeyCodec

variable {V : Type}

/-- One metadata write, on the container at `/` and a path. -/
inductive MetaOp (V : Type)
  /-- `put_metadata`; the value is `none` for EMPTY -/
  | put (path : Site) (key : KeySegment) (value : Option V)
  | delete (path : Site) (key : KeySegment)

def MetaOp.exec : MetaOp V → Op V Unit
  | .put path key value => putMetadata (DATA_ROOT :: path) key value
  | .delete path key => deleteMetadata (DATA_ROOT :: path) key

/-- Whether a key is on the container at a path. -/
def held (s : Store V) (path : Site) (k : KeySegment) : Bool :=
  (s.get? (METADATA_ROOT :: path ++ [k])).isSome

/-- The keys put on each container and not deleted since, after one more write. -/
def MetaOp.onHeld (h : Site → KeySegment → Bool) : MetaOp V → Site → KeySegment → Bool
  | .put _ _ none, p, k => h p k
  | .put path key (some _), p, k => decide (p = path ∧ k = key) || h p k
  | .delete path key, p, k => !decide (p = path ∧ k = key) && h p k

/-- A put of a str key, or a delete. -/
def MetaOp.strKey : MetaOp V → Prop
  | .put _ (.int _) _ => False
  | _ => True

/-! ## What is on a container -/

theorem metadataPath_inj {p q : Site} {k j : KeySegment} :
    METADATA_ROOT :: p ++ [k] = METADATA_ROOT :: q ++ [j] ↔ p = q ∧ k = j := by
  rw [List.cons_append, List.cons_append, List.cons.injEq, and_iff_right rfl]
  constructor
  · intro h
    obtain ⟨hp, hk⟩ := List.append_inj' h rfl
    exact ⟨hp, (List.cons.inj hk).1⟩
  · rintro ⟨rfl, rfl⟩
    rfl

theorem held_step (op : MetaOp V) (s : Store V) :
    held (endState (op.exec s)) = op.onHeld (held s) := by
  funext p k
  cases op with
  | put path key value =>
    cases value with
    | none => rfl
    | some value =>
      show ((s.put (METADATA_ROOT :: path ++ [key]) (.primitive value)).get? _).isSome = _
      rw [Table.get?_put, MetaOp.onHeld]
      simp only [metadataPath_inj]
      by_cases h : p = path ∧ k = key
      · simp [h]
      · simp [h, held]
  | delete path key =>
    show ((s.erase (METADATA_ROOT :: path ++ [key])).get? _).isSome = _
    rw [Table.get?_erase, MetaOp.onHeld]
    simp only [metadataPath_inj]
    by_cases h : p = path ∧ k = key
    · simp [h]
    · simp [h, held]

/-- The rows of a run hold the keys put on each container and not deleted since. -/
theorem held_run (ops : List (MetaOp V)) (s : Store V) :
    held (outcomes (ops.map MetaOp.exec) s).2 = ops.foldl MetaOp.onHeld (held s) := by
  induction ops generalizing s with
  | nil => rfl
  | cons op ops ih =>
    rw [List.foldl_cons, ← held_step]
    simp only [List.map_cons, outcomes]
    cases op.exec s <;> exact ih _

theorem onHeld_strKey {h : Site → KeySegment → Bool} {path : Site} {n : Int} {op : MetaOp V}
    (hop : op.strKey) (hn : h path (.int n) = false) : op.onHeld h path (.int n) = false := by
  cases op with
  | put q key value =>
    cases key with
    | int m => exact hop.elim
    | str t => cases value <;> simp [MetaOp.onHeld, hn]
  | delete q key => simp [MetaOp.onHeld, hn]

/-- Runs that put str keys only put no int key on a container. -/
theorem held_strKeys {ops : List (MetaOp V)} (hops : ∀ op ∈ ops, op.strKey)
    {h : Site → KeySegment → Bool} {path : Site} {n : Int} (hn : h path (.int n) = false) :
    ops.foldl MetaOp.onHeld h path (.int n) = false := by
  induction ops generalizing h with
  | nil => exact hn
  | cons op ops ih =>
    exact ih (fun o ho => hops o (by simp [ho])) (onHeld_strKey (hops op (by simp)) hn)

/-! ## What is listed -/

/-- The scan starts at the first string: an int key lies before it. -/
theorem start_le (path : Site) (k : KeySegment) :
    METADATA_ROOT :: path ++ [.str []] ≤ METADATA_ROOT :: path ++ [k] ↔ ∃ t, k = .str t := by
  rw [← not_lt, append_left_lt_iff]
  cases k with
  | int n =>
    have hlt : [KeySegment.int n] < [.str []] := List.Lex.rel KeySegment.int_lt_str
    simp [hlt]
  | str t =>
    have hnot : ¬ [KeySegment.str t] < [.str []] := by
      intro h
      cases h with
      | rel h =>
        rw [KeySegment.str_lt_str] at h
        cases h
      | cons h => cases h
    simp [hnot]

/-- The keys that the listing of a container yields. -/
def listed (s : Store V) (path : Site) : List KeySegment :=
  (s.scanPaths (metadataScan (DATA_ROOT :: path))).filterMap List.getLast?

theorem iterMetadataKeys_apply (s : Store V) (path : Site) :
    iterMetadataKeys (DATA_ROOT :: path) s = .ok (listed s path) s := rfl

theorem mem_metadataScan {s : Store V} {path key : Site} :
    key ∈ s.scanPaths (metadataScan (DATA_ROOT :: path)) ↔
      ∃ t, key = METADATA_ROOT :: path ++ [.str t] ∧ held s path (.str t) = true := by
  have hstart : (metadataScan (DATA_ROOT :: path)).within <+:
      (metadataScan (DATA_ROOT :: path)).start := List.prefix_append _ _
  rw [Table.mem_scanPaths hstart]
  constructor
  · rintro ⟨hrow, hle, -, -, hchild⟩
    obtain ⟨k, rfl⟩ := isChildOf_iff.1 hchild
    obtain ⟨t, rfl⟩ := (start_le path k).1 hle
    exact ⟨t, rfl, hrow⟩
  · rintro ⟨t, rfl, hrow⟩
    refine ⟨hrow, (start_le path _).2 ⟨t, rfl⟩, List.prefix_append _ _, fun d hd => ?_,
      isChildOf_iff.2 ⟨_, rfl⟩⟩
    obtain rfl := Option.some.inj hd
    simp [metaSite]

/-- (PROVED) A str key is listed exactly when it is on the container; an int key never is. -/
theorem mem_listed {s : Store V} {path : Site} {k : KeySegment} :
    k ∈ listed s path ↔ held s path k = true ∧ ∃ t, k = .str t := by
  rw [listed, List.mem_filterMap]
  constructor
  · rintro ⟨key, hkey, hk⟩
    obtain ⟨t, rfl, hrow⟩ := mem_metadataScan.1 hkey
    rw [List.getLast?_concat, Option.some.injEq] at hk
    exact ⟨hk ▸ hrow, t, hk.symm⟩
  · rintro ⟨hrow, t, rfl⟩
    exact ⟨_, mem_metadataScan.2 ⟨t, rfl, hrow⟩, List.getLast?_concat⟩

theorem nodup_listed (s : Store V) (path : Site) : (listed s path).Nodup := by
  have hscan : (s.scanPaths (metadataScan (DATA_ROOT :: path))).Nodup :=
    (s.scanPaths_sorted _).imp ne_of_lt
  rw [listed, List.Nodup, List.pairwise_filterMap]
  refine List.Pairwise.imp_of_mem (fun {a b} ha hb hne k hk j hj hkj => hne ?_) hscan
  obtain ⟨t, rfl, -⟩ := mem_metadataScan.1 ha
  obtain ⟨u, rfl, -⟩ := mem_metadataScan.1 hb
  rw [List.getLast?_concat, Option.some.injEq] at hk hj
  rw [hk, hj, hkj]

/-! ## Exactness -/

/-- The listing of the container at a path yields exactly the keys of `h`, each once. -/
def ListingExact (s : Store V) (path : Site) (h : Site → KeySegment → Bool) : Prop :=
  ∃ ks, iterMetadataKeys (DATA_ROOT :: path) s = .ok ks s ∧ ks.Nodup ∧
    ∀ k, k ∈ ks ↔ h path k = true

/-- At any rows: the listing shows what is on the container exactly when no int key is. -/
theorem listingExact_iff (s : Store V) (path : Site) :
    ListingExact s path (held s) ↔ ∀ n, held s path (.int n) = false := by
  constructor
  · rintro ⟨ks, hks, -, hmem⟩ n
    rw [iterMetadataKeys_apply, EStateM.Result.ok.injEq] at hks
    obtain ⟨rfl, -⟩ := hks
    by_contra hn
    obtain ⟨-, t, ht⟩ := mem_listed.1 ((hmem (.int n)).2 (by simpa using hn))
    cases ht
  · intro hn
    refine ⟨_, iterMetadataKeys_apply s path, nodup_listed s path, fun k => ?_⟩
    rw [mem_listed]
    cases k with
    | int n => simp [hn n]
    | str t => simp

/-- (PROVED) **When the listing is exact.** After any run of puts and deletes, whatever was stored
    before: a container's listing yields exactly the keys put on it and not deleted since, each
    once, if and only if no int key is among them. So runs that put str keys only keep every
    listing exact. -/
theorem metadata_listing_iff (s : Store V) (ops : List (MetaOp V)) :
    (∀ path, ListingExact (outcomes (ops.map MetaOp.exec) s).2 path
        (ops.foldl MetaOp.onHeld (held s)) ↔
      ∀ n, ops.foldl MetaOp.onHeld (held s) path (.int n) = false) ∧
    ((∀ path n, held s path (.int n) = false) → (∀ op ∈ ops, op.strKey) →
      ∀ path, ListingExact (outcomes (ops.map MetaOp.exec) s).2 path
        (ops.foldl MetaOp.onHeld (held s))) := by
  rw [← held_run]
  refine ⟨fun path => listingExact_iff _ path, fun hs hops path => ?_⟩
  refine (listingExact_iff _ path).2 fun n => ?_
  rw [held_run]
  exact held_strKeys hops (hs path n)

/-- An int key put on the root container is not listed. -/
theorem int_key_not_listed :
    ¬ ∀ (ops : List (MetaOp Unit)) (path : Site),
      ListingExact (outcomes (ops.map MetaOp.exec) (∅ : Store Unit)).2 path
        (ops.foldl MetaOp.onHeld fun _ _ => false) := by
  intro h
  obtain ⟨ks, hks, -, hmem⟩ := h [.put [] (.int 1) (some ())] []
  rw [iterMetadataKeys_apply, EStateM.Result.ok.injEq] at hks
  obtain ⟨rfl, -⟩ := hks
  obtain ⟨-, t, ht⟩ := mem_listed.1 ((hmem (.int 1)).2 rfl)
  cases ht

end Virtuals.Container
