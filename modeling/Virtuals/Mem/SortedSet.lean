/-
  `SortedKeys` as a sorted set, over whole runs of `add` and `discard`.

  The set a run leaves is `ops.foldl Op.onSet`, a `Finset`. `add` is promised an
  absent key (`Allowed`). Every run keeps the sublists well-formed and in step with
  the set (`Holds.run`), and a page of it is the first `n` keys of the set in the
  range, in scan order (`sorted_set`).
-/
import Virtuals.Mem.SortedKeys
import Mathlib.Data.Finset.Sort

namespace Virtuals.Mem

open ScanOrder

namespace SortedKeys

variable {K : Type} [LinearOrder K]

/-- One update of the index. -/
inductive Op (K : Type) where
  | add (key : K)
  | discard (key : K)
  deriving DecidableEq

/-- What an update does to the sublists. -/
def Op.onKeys (s : SortedKeys K) : Op K → SortedKeys K
  | .add key => s.add key
  | .discard key => (s.discard key).1

/-- What an update does to the set. -/
def Op.onSet (S : Finset K) : Op K → Finset K
  | .add key => insert key S
  | .discard key => S.erase key

/-- Each `add` of the run is of a key that is not present, as `add` asks. -/
def Allowed (S : Finset K) : List (Op K) → Prop
  | [] => True
  | op :: ops => (∀ key, op = .add key → key ∉ S) ∧ Allowed (Op.onSet S op) ops

/-! ## The index holds the set -/

/-- A well-formed index with exactly the keys of the set. -/
structure Holds (s : SortedKeys K) (S : Finset K) : Prop where
  wf : s.WF
  mem : ∀ k, k ∈ s.toList ↔ k ∈ S

theorem holds_ofKeys {keys : List K} (h : keys.Nodup) : Holds (ofKeys keys) keys.toFinset := by
  obtain ⟨hwf, hmem⟩ := wf_ofKeys h
  exact ⟨hwf, fun k => (hmem k).trans List.mem_toFinset.symm⟩

/-- One update keeps the index in step with the set. -/
theorem Holds.step {s : SortedKeys K} {S : Finset K} (h : Holds s S) {op : Op K}
    (hop : ∀ key, op = .add key → key ∉ S) : Holds (Op.onKeys s op) (Op.onSet S op) := by
  cases op with
  | add key =>
    have habsent : key ∉ s.toList := fun hk => hop key rfl ((h.mem key).1 hk)
    obtain ⟨hwf, hmem⟩ := wf_add h.wf key habsent
    refine ⟨hwf, fun k => ?_⟩
    rw [Op.onKeys, Op.onSet, hmem, h.mem, Finset.mem_insert]
  | discard key =>
    obtain ⟨hwf, hmem, -⟩ := wf_discard h.wf key
    refine ⟨hwf, fun k => ?_⟩
    rw [Op.onKeys, Op.onSet, hmem, h.mem, Finset.mem_erase]

/-- (PROVED) Every allowed run keeps the index in step with the set. -/
theorem Holds.run {s : SortedKeys K} {S : Finset K} (h : Holds s S) {ops : List (Op K)}
    (hops : Allowed S ops) : Holds (ops.foldl Op.onKeys s) (ops.foldl Op.onSet S) := by
  induction ops generalizing s S with
  | nil => exact h
  | cons op ops ih => exact ih (h.step hops.1) hops.2

/-- A set has room for one index order only: the keys of the index are the set, ascending. -/
theorem Holds.toList_eq {s : SortedKeys K} {S : Finset K} (h : Holds s S) :
    s.toList = S.sort (· ≤ ·) := by
  have hasymm : ∀ a b : K, a ∈ s.toList → b ∈ S.sort (· ≤ ·) → a < b → b < a → a = b :=
    fun a b _ _ hab hba => absurd hba hab.asymm
  refine List.Perm.eq_of_pairwise hasymm h.wf.sorted S.sortedLT_sort.pairwise ?_
  refine (List.perm_ext_iff_of_nodup (h.wf.sorted.imp ne_of_lt) (S.sort_nodup _)).2 fun k => ?_
  rw [h.mem, Finset.mem_sort]

/-! ## Pages of the set -/

/-- The keys of the set that a scan reads, in scan order. -/
def scanKeys {K : Type*} [LinearOrder K] (S : Finset K) (bound : Option K)
    (inclusive reverse : Bool) (stop : Option K) : List K :=
  let keys := (S.filter (InRange reverse bound inclusive stop)).sort (· ≤ ·)
  if reverse then keys.reverse else keys

theorem mem_scanKeys {S : Finset K} {bound : Option K} {inclusive reverse : Bool}
    {stop : Option K} {k : K} :
    k ∈ scanKeys S bound inclusive reverse stop ↔
      k ∈ S ∧ InRange reverse bound inclusive stop k := by
  unfold scanKeys
  cases reverse <;> simp

theorem scanKeys_sorted (S : Finset K) (bound : Option K) (inclusive reverse : Bool)
    (stop : Option K) : (scanKeys S bound inclusive reverse stop).Pairwise (Before reverse) := by
  unfold scanKeys
  cases reverse
  · exact (Finset.sortedLT_sort _).pairwise
  · exact List.pairwise_reverse.2 (Finset.sortedLT_sort _).pairwise

/-- The range read off the index is the range read off the set. -/
theorem Holds.keysInRange_eq {s : SortedKeys K} {S : Finset K} (h : Holds s S)
    (bound : Option K) (inclusive reverse : Bool) (stop : Option K) :
    s.keysInRange bound inclusive reverse stop = scanKeys S bound inclusive reverse stop := by
  have hs := keysInRange_sorted h.wf bound inclusive reverse stop
  have hS := scanKeys_sorted S bound inclusive reverse stop
  have hasymm : ∀ a b : K, a ∈ s.keysInRange bound inclusive reverse stop →
      b ∈ scanKeys S bound inclusive reverse stop → Before reverse a b → Before reverse b a → a = b :=
    fun a b _ _ hab hba => absurd hba (before_asymm hab)
  refine List.Perm.eq_of_pairwise hasymm hs hS ?_
  refine (List.perm_ext_iff_of_nodup (hs.imp Before.ne) (hS.imp Before.ne)).2 fun k => ?_
  rw [mem_keysInRange, mem_scanKeys, h.mem]

/-- (PROVED) A sorted set: after any run of `add` and `discard` the sublists have their shape and
    hold the set, and every page is the first `n` of the keys it is asked for. -/
theorem sorted_set (keys : List K) (hkeys : keys.Nodup) (ops : List (Op K))
    (hops : Allowed keys.toFinset ops) :
    (ops.foldl Op.onKeys (ofKeys keys)).WF ∧
      (ops.foldl Op.onKeys (ofKeys keys)).toList =
        (ops.foldl Op.onSet keys.toFinset).sort (· ≤ ·) ∧
      ∀ (bound : Option K) (inclusive reverse : Bool) (n : Nat) (stop : Option K),
        (ops.foldl Op.onKeys (ofKeys keys)).page bound inclusive reverse n stop =
            (scanKeys (ops.foldl Op.onSet keys.toFinset) bound inclusive reverse stop).take n ∧
          (((ops.foldl Op.onKeys (ofKeys keys)).page bound inclusive reverse n stop).length < n →
            ∀ k ∈ ops.foldl Op.onSet keys.toFinset, InRange reverse bound inclusive stop k →
              k ∈ (ops.foldl Op.onKeys (ofKeys keys)).page bound inclusive reverse n stop) := by
  have h := (holds_ofKeys hkeys).run hops
  refine ⟨h.wf, h.toList_eq, fun bound inclusive reverse n stop => ?_⟩
  have hpage : (ops.foldl Op.onKeys (ofKeys keys)).page bound inclusive reverse n stop =
      (scanKeys (ops.foldl Op.onSet keys.toFinset) bound inclusive reverse stop).take n := by
    rw [page_eq h.wf, ← h.keysInRange_eq]
    rfl
  refine ⟨hpage, fun hless k hk hrange => ?_⟩
  rw [hpage] at hless ⊢
  have hall : (scanKeys (ops.foldl Op.onSet keys.toFinset) bound inclusive reverse stop).length ≤
      n := by
    rw [List.length_take] at hless
    omega
  rw [List.take_of_length_le hall]
  exact mem_scanKeys.2 ⟨hk, hrange⟩

/-- The hypotheses can hold: two keys loaded, one discarded, a new one added. -/
theorem sorted_set_run :
    ([Op.discard 2, .add 7].foldl Op.onKeys (ofKeys [5, 2])).toList =
      ([Op.discard 2, .add 7].foldl Op.onSet [5, 2].toFinset).sort (· ≤ ·) :=
  (sorted_set [5, 2] (by decide) [.discard 2, .add 7]
    ⟨by simp, by simp [Op.onSet], trivial⟩).2.1

end SortedKeys

end Virtuals.Mem
