/-
  Rows by path, scanned in the order of the paths.

  A path is a list, ordered by its first difference, so the paths under one of them stand side by side.
  A scan that starts inside such a block and ends at the first path outside reads the rest of the block
  (`takeWhile_block`); `subtree` is the block, `eraseUnder` deletes it.
-/
import Virtuals.Lib.Lexicographic
import Virtuals.Lib.Table

namespace Virtuals.Lib

variable {α V : Type} [LinearOrder α]

/-! ## Blocks of paths -/

/-- A path above a block is above all that lies in the block. -/
theorem block_lt {p a b : List α} (ha : p <+: a) (hb : ¬ p <+: b) (h : p < b) : a < b := by
  obtain ⟨x, rfl⟩ := ha
  have := append_lt_of_not_prefix h hb x []
  rwa [List.append_nil] at this

/-- (PROVED) From a start in the block to its end: the rest of the block. -/
theorem takeWhile_block {p start : List α} (hstart : p <+: start) {l : List (List α)}
    (hl : l.Pairwise (· < ·)) :
    (l.filter (start ≤ ·)).takeWhile (p.isPrefixOf ·) =
      l.filter fun k => start ≤ k ∧ p <+: k := by
  induction l with
  | nil => rfl
  | cons k l ih =>
    obtain ⟨hk, hl⟩ := List.pairwise_cons.1 hl
    by_cases hge : start ≤ k
    · rw [List.filter_cons_of_pos (by simpa using hge)]
      by_cases hp : p <+: k
      · rw [List.takeWhile_cons_of_pos (List.isPrefixOf_iff_prefix.2 hp),
          List.filter_cons_of_pos (by simpa using ⟨hge, hp⟩), ih hl]
      · rw [List.takeWhile_cons_of_neg (by simpa using hp),
          List.filter_cons_of_neg (by simpa using fun _ => hp), eq_comm, List.filter_eq_nil_iff]
        -- what comes after is past the block as well
        have hpk : p < k := by
          refine lt_of_le_of_ne ((not_lt.1 (prefix_not_lt hstart)).trans hge) ?_
          rintro rfl
          exact hp (List.prefix_refl p)
        intro j hj hpj
        rw [decide_eq_true_iff] at hpj
        exact lt_asymm (hk j hj) (block_lt hpj.2 hp hpk)
    · rw [List.filter_cons_of_neg (by simpa using hge),
        List.filter_cons_of_neg (by simpa using fun h => absurd h hge), ih hl]

/-! ## Scans of rows by path -/

/-- What a scan is asked: where to start, the path whose block ends it, how deep to look, and which
    paths to keep. -/
structure PathScan (α : Type) where
  start : List α
  within : List α
  maxDepth : Option Nat
  keep : List α → Bool

namespace Table

/-- The paths a scan meets, in order. -/
def scanPaths (t : Table (List α) V) (o : PathScan α) : List (List α) :=
  ((t.scan.filter (o.start ≤ ·)).takeWhile (o.within.isPrefixOf ·)).filter fun k =>
    o.maxDepth.all (k.length ≤ ·) && o.keep k

theorem scanPaths_sorted (t : Table (List α) V) (o : PathScan α) :
    (t.scanPaths o).Pairwise (· < ·) :=
  (((t.scan_sorted.filter _).sublist (List.takeWhile_sublist _))).filter _

variable [DecidableEq (List α)]

theorem mem_scanPaths {t : Table (List α) V} {o : PathScan α} (h : o.within <+: o.start)
    {k : List α} :
    k ∈ t.scanPaths o ↔ (t.get? k).isSome ∧ o.start ≤ k ∧ o.within <+: k ∧
      (∀ d ∈ o.maxDepth, k.length ≤ d) ∧ o.keep k = true := by
  rw [scanPaths, takeWhile_block h t.scan_sorted, List.mem_filter, List.mem_filter, mem_scan,
    mem_keys, decide_eq_true_iff, Bool.and_eq_true, and_assoc, and_assoc]
  cases o.maxDepth <;> simp

/-! ## Subtrees -/

omit [DecidableEq (List α)] in
/-- The scan of all rows at or under a path. -/
def under (p : List α) : PathScan α := ⟨p, p, none, fun k => p.isPrefixOf k⟩

theorem mem_scanPaths_under {t : Table (List α) V} {p k : List α} :
    k ∈ t.scanPaths (under p) ↔ (t.get? k).isSome ∧ p <+: k := by
  rw [mem_scanPaths (List.prefix_refl p)]
  constructor
  · rintro ⟨hk, -, hp, -⟩
    exact ⟨hk, hp⟩
  · rintro ⟨hk, hp⟩
    exact ⟨hk, not_lt.1 (prefix_not_lt hp), hp, by simp [under], List.isPrefixOf_iff_prefix.2 hp⟩

/-- Delete every row at or under a path. -/
def eraseUnder (t : Table (List α) V) (p : List α) : Table (List α) V :=
  t.eraseAll (t.scanPaths (under p))

theorem get?_eraseUnder (t : Table (List α) V) (p k : List α) :
    (t.eraseUnder p).get? k = if p <+: k then none else t.get? k := by
  rw [eraseUnder, get?_eraseAll]
  by_cases hp : p <+: k
  · rw [if_pos hp]
    split_ifs with hk
    · rfl
    · rw [mem_scanPaths_under, not_and_or] at hk
      exact Option.not_isSome_iff_eq_none.1 (hk.resolve_right (not_not.2 hp))
  · rw [if_neg hp, if_neg fun hk => hp (mem_scanPaths_under.1 hk).2]

end Table

end Virtuals.Lib
