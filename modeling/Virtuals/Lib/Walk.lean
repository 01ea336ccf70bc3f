/-
  Scans that decide at each row: hand it out, pass over it, seek ahead, or end.

  `walk` looks at the rows of a range one by one; a row before the place that was sought last is passed
  over unseen. The ways to read a range differ in where they seek and how many rows they read at once.
  They come to the same since seeking is leaving rows out (`walk_sought`), and since rows at which the
  walk would end need not be read (`walk_within`).
-/
import Virtuals.Lib.ScanOrder

namespace ScanOrder

/-- What a scan does at a row. -/
inductive Verdict (K I E : Type*)
  | stop
  | seek (bound : K)
  | pass
  | give (item : I)
  | fail (e : E)

/-- The items of a scan, and the error that ended it. -/
abbrev Items (I E : Type*) := List I × Option E

/-- Items before others. -/
def Items.after {I E : Type*} (items : List I) (r : Items I E) : Items I E := (items ++ r.1, r.2)

@[simp] theorem Items.after_nil {I E : Type*} (r : Items I E) : r.after [] = r := rfl

theorem Items.after_end {I E : Type*} (items : List I) (e : Option E) :
    Items.after items ([], e) = (items, e) := by
  rw [after, List.append_nil]

theorem Items.after_after {I E : Type*} (a b : List I) (r : Items I E) :
    (r.after b).after a = r.after (a ++ b) := by
  rw [after, after, after, List.append_assoc]

variable {K V I E : Type} [LinearOrder K]

/-- Whether a row lies before the place that was sought. -/
def behind (rev : Bool) (sought : Option K) (k : K) : Bool :=
  decide (¬ FromBound rev sought true k)

/-- The walk over rows, with how many items are left to hand out. -/
def walk (rev : Bool) (verdict : K × V → Verdict K I E) :
    Option K → Option Nat → List (K × V) → Items I E
  | _, _, [] => ([], none)
  | sought, left, row :: rows =>
    if behind rev sought row.1 then walk rev verdict sought left rows
    else if left = some 0 then ([], none)
    else match verdict row with
      | .stop => ([], none)
      | .seek bound => walk rev verdict (some bound) left rows
      | .pass => walk rev verdict sought left rows
      | .give item => (walk rev verdict sought (left.map (· - 1)) rows).after [item]
      | .fail e => ([], some e)

variable {rev : Bool} {verdict : K × V → Verdict K I E} {rows : List (K × V)}

theorem behind_none (rev : Bool) (k : K) : behind rev none k = false := by
  rw [behind, decide_eq_false_iff_not, not_not]
  trivial

theorem behind_some {b k : K} : behind rev (some b) k = true ↔ Before rev k b := by
  rw [behind, decide_eq_true_iff]
  exact not_not

theorem not_behind (sought : Option K) (k : K) :
    (!behind rev sought k) = decide (FromBound rev sought true k) := by
  rw [behind, decide_not, Bool.not_not]

/-! ## Steps -/

theorem walk_done (sought : Option K) (rows : List (K × V)) :
    walk rev verdict sought (some 0) rows = ([], none) := by
  induction rows with
  | nil => rfl
  | cons row rows ih =>
    rw [walk, if_pos rfl, ih]
    exact ite_self _

theorem walk_behind {sought : Option K} {row : K × V} (h : behind rev sought row.1 = true)
    (left : Option Nat) (rows : List (K × V)) :
    walk rev verdict sought left (row :: rows) = walk rev verdict sought left rows := by
  rw [walk, if_pos h]

theorem walk_next {sought : Option K} {row : K × V} (h : behind rev sought row.1 = false)
    {left : Option Nat} (hleft : left ≠ some 0) (rows : List (K × V)) :
    walk rev verdict sought left (row :: rows) = match verdict row with
      | .stop => ([], none)
      | .seek bound => walk rev verdict (some bound) left rows
      | .pass => walk rev verdict sought left rows
      | .give item => (walk rev verdict sought (left.map (· - 1)) rows).after [item]
      | .fail e => ([], some e) := by
  rw [walk, if_neg (by rw [h]; exact Bool.false_ne_true), if_neg hleft]

theorem walk_stop {sought : Option K} {row : K × V} (h : behind rev sought row.1 = false)
    (hv : verdict row = .stop) (left : Option Nat) (rows : List (K × V)) :
    walk rev verdict sought left (row :: rows) = ([], none) := by
  by_cases hleft : left = some 0
  · rw [hleft, walk_done]
  · rw [walk_next h hleft, hv]

theorem walk_pass {sought : Option K} {row : K × V} (h : behind rev sought row.1 = false)
    (hv : verdict row = .pass) (left : Option Nat) (rows : List (K × V)) :
    walk rev verdict sought left (row :: rows) = walk rev verdict sought left rows := by
  by_cases hleft : left = some 0
  · rw [hleft, walk_done, walk_done]
  · rw [walk_next h hleft, hv]

theorem walk_seek {sought : Option K} {row : K × V} (h : behind rev sought row.1 = false) {b : K}
    (hv : verdict row = .seek b) (left : Option Nat) (rows : List (K × V)) :
    walk rev verdict sought left (row :: rows) = walk rev verdict (some b) left rows := by
  by_cases hleft : left = some 0
  · rw [hleft, walk_done, walk_done]
  · rw [walk_next h hleft, hv]

/-! ## Seeking -/

theorem behind_of_before {sought : Option K} {a b : K} (hab : Before rev a b)
    (hb : behind rev sought b = true) : behind rev sought a = true := by
  rw [behind, decide_eq_true_iff] at hb ⊢
  intro ha
  exact hb (fromBound_of_before ha hab)

/-- Once a row is from the place that was sought, so are the rows after it. -/
theorem filter_from {sought : Option K} {row : K × V} (h : Ascending rev (row :: rows))
    (hrow : behind rev sought row.1 = false) :
    rows.filter (fun r => !behind rev sought r.1) = rows := by
  refine List.filter_eq_self.2 ?_
  intro r hr
  rw [Bool.not_eq_true', Bool.eq_false_iff]
  intro hb
  rw [behind_of_before ((List.pairwise_cons.1 h).1 r hr) hb] at hrow
  cases hrow

/-- **Seeking is leaving out the rows before** (PROVED). -/
theorem walk_sought (h : Ascending rev rows) (sought : Option K) (left : Option Nat) :
    walk rev verdict sought left rows =
      walk rev verdict none left (rows.filter fun r => !behind rev sought r.1) := by
  induction rows generalizing left sought with
  | nil => rfl
  | cons row rows ih =>
    have hrest : Ascending rev rows := (List.pairwise_cons.1 h).2
    cases hrow : behind rev sought row.1 with
    | true =>
      rw [walk_behind hrow, List.filter_cons_of_neg (by rw [hrow]; decide)]
      exact ih hrest sought left
    | false =>
      have hall := filter_from h hrow
      have hself : ∀ left, walk rev verdict sought left rows = walk rev verdict none left rows := by
        intro left
        rw [ih hrest sought left, hall]
      rw [List.filter_cons_of_pos (by rw [hrow]; rfl), hall]
      by_cases hleft : left = some 0
      · rw [hleft, walk_done, walk_done]
      · rw [walk_next hrow hleft, walk_next (behind_none rev row.1) hleft]
        cases verdict row with
        | stop => rfl
        | seek bound => rfl
        | pass => exact hself left
        | give item => exact congrArg (Items.after [item]) (hself _)
        | fail e => rfl

/-- The rows from a place that was sought are a last part of the rows. -/
theorem filter_from_suffix (h : Ascending rev rows) (sought : Option K) :
    rows.filter (fun r => !behind rev sought r.1) <:+ rows := by
  induction rows with
  | nil => exact List.suffix_refl _
  | cons row rows ih =>
    cases hrow : behind rev sought row.1 with
    | true =>
      rw [List.filter_cons_of_neg (by rw [hrow]; decide)]
      exact (ih (List.pairwise_cons.1 h).2).trans (List.suffix_cons row rows)
    | false =>
      rw [List.filter_cons_of_pos (by rw [hrow]; rfl), filter_from h hrow]

/-- So are the rows from a bound. -/
theorem suffix_of_bound (h : Ascending rev rows) (bound : Option K) :
    rows.filter (fun r => decide (FromBound rev bound true r.1)) <:+ rows := by
  have hsuffix := filter_from_suffix h bound
  simpa [behind] using hsuffix

/-- Seeking past a row in all the rows, and in those that are left. -/
theorem filter_from_rest {all pre : List (K × V)} (h : Ascending rev all) (hall : all = pre ++ rows)
    {row : K × V} (hrow : row ∈ rows) {b : K} (hb : Before rev row.1 b) :
    all.filter (fun r => !behind rev (some b) r.1) =
      rows.filter (fun r => !behind rev (some b) r.1) := by
  have hnone : pre.filter (fun r => !behind rev (some b) r.1) = [] := by
    refine List.filter_eq_nil_iff.2 ?_
    intro r hr
    rw [hall, Ascending, List.pairwise_append] at h
    rw [behind_some.2 (before_trans (h.2.2 r hr row hrow) hb)]
    decide
  rw [hall, List.filter_append, hnone, List.nil_append]

/-- Past a row there are the rows after it. -/
theorem filter_past {all pre : List (K × V)} {row : K × V} (h : Ascending rev all)
    (hall : all = pre ++ row :: rows) :
    all.filter (fun r => decide (Before rev row.1 r.1)) = rows := by
  rw [hall] at h
  obtain ⟨-, hrow, hpre⟩ := List.pairwise_append.1 h
  have hlater : rows.filter (fun r => decide (Before rev row.1 r.1)) = rows :=
    List.filter_eq_self.2 fun r hr => decide_eq_true ((List.pairwise_cons.1 hrow).1 r hr)
  have hbefore : pre.filter (fun r => decide (Before rev row.1 r.1)) = [] := by
    refine List.filter_eq_nil_iff.2 ?_
    intro r hr hrb
    exact before_asymm (hpre r hr row List.mem_cons_self) (of_decide_eq_true hrb)
  rw [hall, List.filter_append, hbefore, List.nil_append, List.filter_cons_of_neg, hlater]
  rw [decide_eq_false (before_irrefl rev row.1)]
  exact Bool.false_ne_true

/-- Seeking past a key of a range leaves the keys of the range from there on. -/
theorem inRange_from {inclusive : Bool} {bound stop : Option K} {a b : K}
    (ha : InRange rev bound inclusive stop a) (hb : Before rev a b) (k : K) :
    InRange rev (some b) true stop k ↔
      InRange rev bound inclusive stop k ∧ behind rev (some b) k = false := by
  rw [Bool.eq_false_iff, ne_eq, behind_some]
  constructor
  · intro h
    have hk : ¬ Before rev k b := h.1
    refine ⟨⟨fromBound_of_before ha.1 ?_, h.2⟩, hk⟩
    obtain heq | hbk := not_before.1 hk
    · rw [heq]
      exact hb
    · exact before_trans hb hbk
  · intro h
    exact ⟨h.2, h.1.2⟩

/-- The rows from a place past one of them are fewer. -/
theorem length_filter_from {row : K × V} (hrow : row ∈ rows) {b : K} (hb : Before rev row.1 b) :
    (rows.filter fun r => !behind rev (some b) r.1).length < rows.length := by
  refine List.length_filter_lt_length_iff_exists.2 ⟨row, hrow, ?_⟩
  rw [behind_some.2 hb]
  decide

/-! ## The rows ahead -/

/-- The rows of a range. -/
def ahead (rev : Bool) (all : List (K × V)) (bound : Option K) (inclusive : Bool)
    (stop : Option K) : List (K × V) :=
  all.filter fun r => decide (InRange rev bound inclusive stop r.1)

section Ahead

variable {all : List (K × V)} {bound stop : Option K} {inclusive : Bool}

theorem mem_ahead {row : K × V} :
    row ∈ ahead rev all bound inclusive stop ↔ row ∈ all ∧ InRange rev bound inclusive stop row.1 := by
  rw [ahead, List.mem_filter, decide_eq_true_iff]

theorem length_ahead_le : (ahead rev all bound inclusive stop).length ≤ all.length :=
  List.length_filter_le _ all

/-- Past a key of the range there are the rows after it. -/
theorem ahead_after (all : List (K × V)) {a : K} (ha : InRange rev bound inclusive stop a) :
    ahead rev all (some a) false stop =
      (ahead rev all bound inclusive stop).filter fun r => decide (Before rev a r.1) := by
  rw [ahead, ahead, List.filter_filter]
  refine List.filter_congr ?_
  intro r _
  rw [← Bool.decide_and, decide_eq_decide, inRange_past ha, and_comm]

/-- From a place past a key of the range there are the rows from there on. -/
theorem ahead_from (all : List (K × V)) {a b : K} (ha : InRange rev bound inclusive stop a) (hb : Before rev a b) :
    ahead rev all (some b) true stop =
      (ahead rev all bound inclusive stop).filter fun r => !behind rev (some b) r.1 := by
  rw [ahead, ahead, List.filter_filter]
  refine List.filter_congr ?_
  intro r _
  rw [decide_eq_decide.2 (inRange_from ha hb r.1), Bool.decide_and, Bool.and_comm]
  cases behind rev (some b) r.1 <;> rfl

theorem ahead_map {W : Type} (f : K × W → V) (rows : List (K × W)) :
    ahead rev (rows.map fun row => (row.1, f row)) bound inclusive stop =
      (ahead rev rows bound inclusive stop).map fun row => (row.1, f row) := by
  rw [ahead, ahead, List.filter_map]
  rfl

/-- The rows of a range, by where it starts and where it stops. -/
theorem ahead_eq (all : List (K × V)) (bound stop : Option K) : ahead rev all bound true stop =
    (all.filter fun r => decide (FromBound rev bound true r.1)).filter fun r =>
      decide (WithinStop rev stop r.1) := by
  rw [ahead, List.filter_filter]
  refine List.filter_congr ?_
  intro r _
  have hin : InRange rev bound true stop r.1 ↔
      FromBound rev bound true r.1 ∧ WithinStop rev stop r.1 := Iff.rfl
  rw [decide_eq_decide.2 hin, Bool.decide_and, Bool.and_comm]

end Ahead

/-- A walk over rows that hold the same under other names. -/
theorem walk_map {W : Type} (f : K × W → V) {verdict' : K × W → Verdict K I E} {rows : List (K × W)}
    (h : ∀ row ∈ rows, verdict (row.1, f row) = verdict' row) (sought : Option K)
    (left : Option Nat) : walk rev verdict sought left (rows.map fun row => (row.1, f row)) =
      walk rev verdict' sought left rows := by
  induction rows generalizing sought left with
  | nil => rfl
  | cons row rows ih =>
    have ih := fun sought left => ih (fun r hr => h r (List.mem_cons_of_mem row hr)) sought left
    rw [List.map_cons, walk, walk, h row List.mem_cons_self, ih]
    cases verdict' row with
    | stop => rfl
    | seek bound => dsimp only; rw [ih]
    | pass => rfl
    | give item => dsimp only; rw [ih]
    | fail e => rfl

/-- Rows up to a key, and past it. -/
theorem split_past (h : Ascending rev rows) (c : K) :
    rows = (rows.filter fun r => decide ¬ Before rev c r.1) ++
      rows.filter fun r => decide (Before rev c r.1) := by
  induction rows with
  | nil => rfl
  | cons row rows ih =>
    obtain ⟨hafter, hrest⟩ := List.pairwise_cons.1 h
    by_cases hrow : Before rev c row.1
    · have hall : ∀ r ∈ row :: rows, Before rev c r.1 := by
        intro r hr
        obtain heq | hr := List.mem_cons.1 hr
        · rw [heq]
          exact hrow
        · exact before_trans hrow (hafter r hr)
      have hnone : ((row :: rows).filter fun r => decide ¬ Before rev c r.1) = [] := by
        refine List.filter_eq_nil_iff.2 ?_
        intro r hr hnot
        exact of_decide_eq_true hnot (hall r hr)
      rw [hnone, List.nil_append]
      exact (List.filter_eq_self.2 fun r hr => decide_eq_true (hall r hr)).symm
    · rw [List.filter_cons_of_pos (by rw [decide_eq_true hrow]),
        List.filter_cons_of_neg (by rw [decide_eq_false hrow]; decide), List.cons_append, ← ih hrest]

/-! ## Rows that need not be read -/

/-- **Rows at which the walk would end need not be read** (PROVED). -/
theorem walk_within {stop : Option K} (h : Ascending rev rows)
    (hstop : ∀ row ∈ rows, ¬ WithinStop rev stop row.1 → verdict row = .stop) (sought : Option K)
    (left : Option Nat) :
    walk rev verdict sought left (rows.filter fun r => decide (WithinStop rev stop r.1)) =
      walk rev verdict sought left rows := by
  induction rows generalizing left sought with
  | nil => rfl
  | cons row rows ih =>
    obtain ⟨hafter, hrest⟩ := List.pairwise_cons.1 h
    have hstop' : ∀ r ∈ rows, ¬ WithinStop rev stop r.1 → verdict r = .stop := by
      intro r hr
      exact hstop r (List.mem_cons_of_mem row hr)
    by_cases hrow : WithinStop rev stop row.1
    · rw [List.filter_cons_of_pos (by rw [decide_eq_true hrow])]
      cases hb : behind rev sought row.1 with
      | true =>
        rw [walk_behind hb, walk_behind hb]
        exact ih hrest hstop' sought left
      | false =>
        by_cases hleft : left = some 0
        · rw [hleft, walk_done, walk_done]
        · rw [walk_next hb hleft, walk_next hb hleft]
          cases verdict row with
          | stop => rfl
          | seek bound => exact ih hrest hstop' (some bound) left
          | pass => exact ih hrest hstop' sought left
          | give item => exact congrArg (Items.after [item]) (ih hrest hstop' sought _)
          | fail e => rfl
    · have hnone : rows.filter (fun r => decide (WithinStop rev stop r.1)) = [] := by
        refine List.filter_eq_nil_iff.2 ?_
        intro r hr hin
        exact hrow (withinStop_of_before (of_decide_eq_true hin) (hafter r hr))
      rw [List.filter_cons_of_neg (by rw [decide_eq_false hrow]; decide), hnone]
      cases hb : behind rev sought row.1 with
      | true =>
        rw [walk_behind hb, ← ih hrest hstop' sought left, hnone]
      | false =>
        by_cases hleft : left = some 0
        · rw [hleft, walk_done, walk_done]
        · rw [walk_next hb hleft, hstop row List.mem_cons_self hrow]
          rfl

end ScanOrder
