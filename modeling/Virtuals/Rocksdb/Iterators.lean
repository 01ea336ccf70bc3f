/-
  The native iterators of rdbpy.

  An iterator stands before rows of the map it was opened on, in the direction it was opened in. A
  seek puts it before the rows from a bound, a batch takes the next of them (`IteratorLaws`).
-/
import Virtuals.Lib.Walk

namespace Virtuals.Rocksdb

open ScanOrder

/-- The native iterators on a map. A batch has only rows of it. -/
structure Iterators (E W : Type) where
  Pos : Type
  /-- whether an encoded key is not the empty string -/
  truthy : E → Bool
  seek : (E → Option W) → E → Pos
  seekToFirst : (E → Option W) → Pos
  seekForPrev : (E → Option W) → E → Pos
  seekToLast : (E → Option W) → Pos
  nextBatch : (E → Option W) → Bool → Pos → Nat → List (E × W) × Pos
  nextBatch_rows : ∀ m reverse pos n r, r ∈ (nextBatch m reverse pos n).1 → m r.1 = some r.2

/-- `_BATCH_FIRST`. -/
def batchFirst : Nat := 8

/-- `_BATCH_MAX`. -/
def batchMax : Nat := 1024

variable {E W : Type}

/-- `_seek`; a start that is falsy is none. -/
def seekPos (it : Iterators E W) (m : E → Option W) (reverse : Bool) (start : Option E) : it.Pos :=
  match reverse, start.filter it.truthy with
  | true, some start => it.seekForPrev m start
  | true, none => it.seekToLast m
  | false, some start => it.seek m start
  | false, none => it.seekToFirst m

section Laws

variable [LinearOrder E]

/-- What rdbpy promises of its iterators. `ahead` are the rows that an iterator of a direction stands
before, `empty` is the empty string. -/
structure IteratorLaws (it : Iterators E W) (empty : E) (m : E → Option W)
    (ahead : Bool → it.Pos → List (E × W)) : Prop where
  truthy : ∀ e, it.truthy e = decide (e ≠ empty)
  seekToFirst : IsListing false (fun _ => True) m (ahead false (it.seekToFirst m))
  seek : ∀ b, IsListing false (b ≤ ·) m (ahead false (it.seek m b))
  seekToLast : IsListing true (fun _ => True) m (ahead true (it.seekToLast m))
  seekForPrev : ∀ b, IsListing true (· ≤ b) m (ahead true (it.seekForPrev m b))
  nextBatch : ∀ reverse pos n, (it.nextBatch m reverse pos n).1 = (ahead reverse pos).take n
  rest : ∀ reverse pos n, ahead reverse (it.nextBatch m reverse pos n).2 = (ahead reverse pos).drop n

variable {it : Iterators E W} {empty : E} {m : E → Option W} {ahead : Bool → it.Pos → List (E × W)}

/-- `_seek` goes before the rows from its bound, in either direction. -/
theorem IteratorLaws.seekPos (h : IteratorLaws it empty m ahead) (reverse : Bool)
    (start : Option E) : IsListing reverse (FromBound reverse (start.filter (· ≠ empty)) true) m
      (ahead reverse (seekPos it m reverse start)) := by
  have htruthy : start.filter it.truthy = start.filter (· ≠ empty) := by
    congr 1
    funext e
    exact h.truthy e
  unfold Rocksdb.seekPos
  rw [htruthy]
  cases hstart : start.filter (· ≠ empty) with
  | none =>
    cases reverse with
    | false => exact h.seekToFirst
    | true => exact h.seekToLast
  | some b =>
    cases reverse with
    | false => exact (h.seek b).congr fun e w => and_congr_right fun _ => not_lt.symm
    | true => exact (h.seekForPrev b).congr fun e w => and_congr_right fun _ => not_lt.symm

/-- The rows of a listing from a bound, as those of another listing of the map that lie there. -/
theorem IteratorLaws.seekPos_filter (h : IteratorLaws it empty m ahead) {reverse : Bool}
    {all : List (E × W)} (hall : IsListing reverse (fun _ => True) m all) (start : Option E) :
    ahead reverse (Rocksdb.seekPos it m reverse start) = all.filter fun r =>
      decide (FromBound reverse (start.filter (· ≠ empty)) true r.1) := by
  refine (h.seekPos reverse start).unique ⟨hall.ascending.filter _, fun e w => ?_⟩
  rw [List.mem_filter, hall.mem, decide_eq_true_iff, and_true]

end Laws

/-! ## Iterators on given keys -/

/-- Keys that a map does not have select no rows. -/
theorem rowsOf_some {m : E → Option W} (keys : List E) :
    rowsOf m (keys.filter fun e => (m e).isSome) = rowsOf m keys := by
  induction keys with
  | nil => rfl
  | cons e keys ih =>
    cases he : m e with
    | none =>
      rw [List.filter_cons_of_neg (by rw [he]; exact Bool.false_ne_true), ih]
      simp [rowsOf, he]
    | some w =>
      rw [List.filter_cons_of_pos (by rw [he]; rfl)]
      rw [rowsOf] at ih
      simp [rowsOf, he, ih]

theorem rowsOf_drop {m : E → Option W} {keys : List E} (h : ∀ e ∈ keys, (m e).isSome) (n : Nat) :
    rowsOf m (keys.drop n) = (rowsOf m keys).drop n := by
  induction keys generalizing n with
  | nil => simp [rowsOf]
  | cons e keys ih =>
    obtain ⟨w, hw⟩ := Option.isSome_iff_exists.1 (h e List.mem_cons_self)
    have hcons : rowsOf m (e :: keys) = (e, w) :: rowsOf m keys := by simp [rowsOf, hw]
    rw [hcons]
    cases n with
    | zero => exact hcons
    | succ n => exact ih (fun e he => h e (List.mem_cons_of_mem _ he)) n

variable [LinearOrder E]

/-- Iterators that find the rows of a map by given keys, in the order of the keys. -/
def keyIterators (empty : E) (keys : List E) : Iterators E W where
  Pos := List E
  truthy := fun e => decide (e ≠ empty)
  seek := fun _ b => keys.filter fun e => decide (b ≤ e)
  seekToFirst := fun _ => keys
  seekForPrev := fun _ b => keys.reverse.filter fun e => decide (e ≤ b)
  seekToLast := fun _ => keys.reverse
  nextBatch := fun m _ pos n => ((rowsOf m pos).take n, (pos.filter fun e => (m e).isSome).drop n)
  nextBatch_rows := by
    intro m _ pos n r hr
    exact (mem_rowsOf.1 (List.mem_of_mem_take hr)).2

/-- They keep the promises. -/
theorem keyIterators_laws {m : E → Option W} {keys : List E} (empty : E)
    (hsorted : keys.Pairwise (· < ·)) (hkeys : ∀ e, (m e).isSome → e ∈ keys) :
    IteratorLaws (keyIterators empty keys) empty m fun _ pos => rowsOf m pos := by
  have hreverse : keys.reverse.Pairwise (Before true) := List.pairwise_reverse.2 hsorted
  have hmem : ∀ e, (m e).isSome → e ∈ keys.reverse := fun e he => List.mem_reverse.2 (hkeys e he)
  have hfrom : ∀ b e, (m e).isSome → (e ∈ keys.filter (fun e => decide (b ≤ e)) ↔ b ≤ e) := by
    intro b e he
    rw [List.mem_filter, decide_eq_true_iff, and_iff_right (hkeys e he)]
  have hdown : ∀ b e, (m e).isSome →
      (e ∈ keys.reverse.filter (fun e => decide (e ≤ b)) ↔ e ≤ b) := by
    intro b e he
    rw [List.mem_filter, decide_eq_true_iff, and_iff_right (hmem e he)]
  refine ⟨fun _ => rfl, ?_, fun b => ?_, ?_, fun b => ?_, fun _ _ _ => rfl, fun _ pos n => ?_⟩
  · exact isListing_rowsOf hsorted fun e he => iff_of_true (hkeys e he) trivial
  · exact isListing_rowsOf (hsorted.filter _) (hfrom b)
  · exact isListing_rowsOf hreverse fun e he => iff_of_true (hmem e he) trivial
  · exact isListing_rowsOf (hreverse.filter _) (hdown b)
  · exact (rowsOf_drop (fun e he => (List.mem_filter.1 he).2) n).trans
      (congrArg (List.drop n) (rowsOf_some pos))

end Virtuals.Rocksdb
