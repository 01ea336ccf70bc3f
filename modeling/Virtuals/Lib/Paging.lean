/-
  Pages of rows in the order of their keys.

  A page is read by a bounded scan that starts at a cursor and takes its row in; the reader drops the
  row, and stops at a cap that it looks at after each row it hands on. `page_eq` says what comes of it:
  the first rows past the cursor, and one too many if the cap is zero and the cursor has no row.
  `chain_eq`: pages that have the first of what is left past their cursors add up.
-/
import Virtuals.Lib.Coupled
import Virtuals.Lib.ScanOrder
import Virtuals.Lib.Table
import Mathlib.Algebra.GroupWithZero.Nat

namespace Virtuals.Lib

open ScanOrder (Before FromBound)

variable {K V : Type} [LinearOrder K]

/-- Rows in the direction of a scan. -/
def inDirection (rev : Bool) (rows : List (K × V)) : List (K × V) :=
  if rev then rows.reverse else rows

/-- The rows strictly past a cursor, all of them without one. -/
def past (rev : Bool) (cursor : Option K) (rows : List (K × V)) : List (K × V) :=
  (inDirection rev rows).filter fun row => FromBound rev cursor false row.1

/-- What a storage scan reads: rows from the start on, the start taken in, up to a limit. -/
def scanFrom (rev : Bool) (start : Option K) (limit : Option Nat) (rows : List (K × V)) :
    List (K × V) :=
  let found := (inDirection rev rows).filter fun row => FromBound rev start true row.1
  limit.elim found found.take

/-- What a generator hands on of the rows it reads: those not to be skipped, up to a cap that it looks
at after each row. -/
def handedOn {K V : Type*} [LinearOrder K] (skip : List K) (cap : Option Nat)
    (rows : List (K × V)) : List (K × V) :=
  let kept := rows.filter fun row => decide (row.1 ∉ skip)
  cap.elim kept fun n => kept.take (max n 1)

/-- A page: the scan is asked for one row more than the page may have if there is a cursor. -/
def page (rev : Bool) (cursor : Option K) (cap : Option Nat) (rows : List (K × V)) :
    List (K × V) :=
  handedOn cursor.toList cap (scanFrom rev cursor (cap.map (· + cursor.toList.length)) rows)

/-! ## Rows past a cursor -/

omit [LinearOrder K] in
theorem mem_inDirection {rev : Bool} {rows : List (K × V)} {row : K × V} :
    row ∈ inDirection rev rows ↔ row ∈ rows := by
  cases rev
  · exact Iff.rfl
  · exact List.mem_reverse

omit [LinearOrder K] in
theorem length_inDirection (rev : Bool) (rows : List (K × V)) :
    (inDirection rev rows).length = rows.length := by
  cases rev
  · rfl
  · exact List.length_reverse

/-- Rows in ascending order come one after the other in the direction of a scan. -/
theorem pairwise_inDirection {rows : List (K × V)} (h : rows.Pairwise fun a b => a.1 < b.1)
    (rev : Bool) : (inDirection rev rows).Pairwise fun a b => Before rev a.1 b.1 := by
  cases rev
  · exact h
  · exact List.pairwise_reverse.2 h

theorem pairwise_past {rows : List (K × V)} (h : rows.Pairwise fun a b => a.1 < b.1) (rev : Bool)
    (cursor : Option K) : (past rev cursor rows).Pairwise fun a b => Before rev a.1 b.1 :=
  (pairwise_inDirection h rev).filter _

theorem past_none (rev : Bool) (rows : List (K × V)) : past rev none rows = inDirection rev rows :=
  List.filter_eq_self.2 fun _ _ => decide_eq_true trivial

theorem mem_past {rev : Bool} {c : K} {rows : List (K × V)} {row : K × V} :
    row ∈ past rev (some c) rows ↔ row ∈ rows ∧ Before rev c row.1 := by
  rw [past, List.mem_filter, mem_inDirection, decide_eq_true_eq]
  exact Iff.rfl

/-- Of rows in scan order, those that follow a row are past it. -/
theorem filter_split {rev : Bool} {l r : List (K × V)} {row : K × V}
    (h : (l ++ row :: r).Pairwise fun a b => Before rev a.1 b.1) :
    (l ++ row :: r).filter (fun a => FromBound rev (some row.1) false a.1) = r ∧
      (l ++ row :: r).filter (fun a => FromBound rev (some row.1) true a.1) = row :: r := by
  rw [List.pairwise_append, List.pairwise_cons] at h
  obtain ⟨-, ⟨hr, -⟩, hl⟩ := h
  have hbefore : ∀ a ∈ l, Before rev a.1 row.1 := fun a ha => hl a ha row List.mem_cons_self
  have hdrop : l.filter (fun a => FromBound rev (some row.1) false a.1) = [] :=
    List.filter_eq_nil_iff.2 fun a ha => by
      simpa [FromBound] using ScanOrder.before_asymm (hbefore a ha)
  have hdrop' : l.filter (fun a => FromBound rev (some row.1) true a.1) = [] :=
    List.filter_eq_nil_iff.2 fun a ha => by simpa [FromBound] using hbefore a ha
  have hkeep : r.filter (fun a => FromBound rev (some row.1) false a.1) = r :=
    List.filter_eq_self.2 fun a ha => by simpa [FromBound] using hr a ha
  have hkeep' : r.filter (fun a => FromBound rev (some row.1) true a.1) = r :=
    List.filter_eq_self.2 fun a ha => by
      simpa [FromBound] using ScanOrder.before_asymm (hr a ha)
  have hself : ¬ FromBound rev (some row.1) false row.1 := ScanOrder.before_irrefl rev row.1
  have hself' : FromBound rev (some row.1) true row.1 := ScanOrder.before_irrefl rev row.1
  constructor
  · rw [List.filter_append, hdrop, List.nil_append,
      List.filter_cons_of_neg (by simpa using hself), hkeep]
  · rw [List.filter_append, hdrop', List.nil_append,
      List.filter_cons_of_pos (by simpa using hself'), hkeep']

/-- Past a row come the rows that follow it. -/
theorem past_of_split {rev : Bool} {rows l r : List (K × V)} {row : K × V}
    (h : rows.Pairwise fun a b => a.1 < b.1) (hsplit : inDirection rev rows = l ++ row :: r) :
    past rev (some row.1) rows = r ∧
      (inDirection rev rows).filter (fun a => FromBound rev (some row.1) true a.1) = row :: r := by
  have hpair := pairwise_inDirection h rev
  rw [past, hsplit]
  rw [hsplit] at hpair
  exact filter_split hpair

/-- Where the cursor has no row, a scan that takes it in is one past it. -/
theorem from_of_absent {rev : Bool} {c : K} {rows : List (K × V)}
    (hc : ∀ row ∈ rows, row.1 ≠ c) :
    (inDirection rev rows).filter (fun a => FromBound rev (some c) true a.1) =
      past rev (some c) rows := by
  refine List.filter_congr fun a ha => decide_eq_decide.2 ?_
  have hne := hc a (mem_inDirection.1 ha)
  show ¬ Before rev a.1 c ↔ Before rev c a.1
  rw [ScanOrder.not_before]
  exact or_iff_right hne

omit [LinearOrder K] in
/-- A row of the cursor splits the rows at it. -/
theorem exists_split (rev : Bool) {rows : List (K × V)} {row : K × V} (h : row ∈ rows) :
    ∃ l r, inDirection rev rows = l ++ row :: r :=
  List.append_of_mem (mem_inDirection.2 h)

/-! ## Pages -/

/-- How many rows a page may have: the cap counts for nothing before the first row is handed on, and
only the row of the cursor ends the scan before that. -/
def pageSize {K V : Type*} [LinearOrder K] (cursor : Option K) (rows : List (K × V)) (n : Nat) :
    Nat :=
  if cursor.all (· ∈ rows.map Prod.fst) then n else max n 1

/-- The row of the cursor is read and not handed on. -/
theorem filter_skip {rev : Bool} {r : List (K × V)} {row : K × V}
    (hr : ∀ a ∈ r, Before rev row.1 a.1) :
    (row :: r).filter (fun a => decide (a.1 ∉ [row.1])) = r := by
  rw [List.filter_cons_of_neg (by simp)]
  exact List.filter_eq_self.2 fun a ha => by simpa using (hr a ha).ne.symm

/-- A page from a cursor that has a row. -/
theorem page_of_mem {rows : List (K × V)} (h : rows.Pairwise fun a b => a.1 < b.1) (rev : Bool)
    {row : K × V} (hrow : row ∈ rows) (cap : Option Nat) :
    page rev (some row.1) cap rows =
      cap.elim (past rev (some row.1) rows) (past rev (some row.1) rows).take := by
  obtain ⟨l, r, hsplit⟩ := exists_split rev hrow
  obtain ⟨hpast, hfrom⟩ := past_of_split h hsplit
  have hr : ∀ a ∈ r, Before rev row.1 a.1 := fun a ha =>
    (mem_past.1 (hpast ▸ ha : a ∈ past rev (some row.1) rows)).2
  cases cap with
  | none =>
    show List.filter _ (List.filter _ _) = _
    rw [hfrom, hpast]
    exact filter_skip hr
  | some n =>
    show ((((inDirection rev rows).filter _).take (n + 1)).filter _).take (max n 1) = _
    have htake : ∀ a ∈ r.take n, Before rev row.1 a.1 := fun a ha => hr a (List.mem_of_mem_take ha)
    rw [hfrom, hpast, List.take_succ_cons]
    refine (congrArg (List.take _) (filter_skip htake)).trans ?_
    rw [List.take_take, Nat.min_eq_right (Nat.le_max_left n 1)]
    rfl

/-- A page from a cursor that has no row: the cap is never below one. -/
theorem page_of_absent {rev : Bool} {c : K} {rows : List (K × V)} (hc : ∀ row ∈ rows, row.1 ≠ c)
    (n : Nat) :
    page rev (some c) (some n) rows = (past rev (some c) rows).take (max n 1) := by
  show ((((inDirection rev rows).filter _).take (n + 1)).filter _).take (max n 1) = _
  have hkeep : ((past rev (some c) rows).take (n + 1)).filter
      (fun a => decide (a.1 ∉ (some c).toList)) = (past rev (some c) rows).take (n + 1) :=
    List.filter_eq_self.2 fun a ha => by
      simpa using hc a (mem_past.1 (List.mem_of_mem_take ha)).1
  rw [from_of_absent hc, hkeep, List.take_take]
  exact congrArg (List.take · _) (by omega)

/-- With nothing to skip only the cap cuts. -/
theorem handedOn_nil (cap : Option Nat) (rows : List (K × V)) :
    handedOn [] cap rows = cap.elim rows fun n => rows.take (max n 1) := by
  have hkeep : rows.filter (fun a => decide (a.1 ∉ ([] : List K))) = rows :=
    List.filter_eq_self.2 fun _ _ => by simp
  rw [handedOn, hkeep]

theorem scanFrom_none (rev : Bool) (limit : Option Nat) (rows : List (K × V)) :
    scanFrom rev none limit rows = limit.elim (inDirection rev rows) (inDirection rev rows).take := by
  have hfrom : (inDirection rev rows).filter (fun a => FromBound rev none true a.1) =
      inDirection rev rows := List.filter_eq_self.2 fun _ _ => decide_eq_true trivial
  rw [scanFrom, hfrom]

/-- A page from the start. -/
theorem page_of_none (rev : Bool) (n : Nat) (rows : List (K × V)) :
    page rev none (some n) rows = (past rev none rows).take n := by
  show handedOn [] (some n) (scanFrom rev none (some n) rows) = _
  rw [handedOn_nil, scanFrom_none, past_none]
  show List.take _ (List.take n _) = _
  rw [List.take_take, Nat.min_eq_right (Nat.le_max_left n 1)]

/-- (PROVED) A page has the first rows past its cursor. -/
theorem page_eq {rows : List (K × V)} (h : rows.Pairwise fun a b => a.1 < b.1) (rev : Bool)
    (cursor : Option K) (n : Nat) :
    page rev cursor (some n) rows = (past rev cursor rows).take (pageSize cursor rows n) := by
  cases cursor with
  | none => exact page_of_none rev n rows
  | some c =>
    rw [pageSize, Option.all_some]
    split_ifs with hc
    · obtain ⟨row, hrow, rfl⟩ := List.mem_map.1 (of_decide_eq_true hc)
      exact page_of_mem h rev hrow (some n)
    · refine page_of_absent (fun row hrow he => hc ?_) n
      exact decide_eq_true (List.mem_map.2 ⟨row, hrow, he⟩)

/-- (PROVED) A page has exactly the first rows past its cursor, but for a page of none from a cursor that
has no row and rows past it. -/
theorem page_exact_iff {rows : List (K × V)} (h : rows.Pairwise fun a b => a.1 < b.1) (rev : Bool)
    (cursor : Option K) (n : Nat) :
    (page rev cursor (some n) rows).map Prod.snd = ((past rev cursor rows).take n).map Prod.snd ↔
      1 ≤ n ∨ (∀ c ∈ cursor, c ∈ rows.map Prod.fst) ∨ past rev cursor rows = [] := by
  rw [page_eq h, pageSize]
  split_ifs with hc
  · refine ⟨fun _ => Or.inr (Or.inl ?_), fun _ => rfl⟩
    rintro c rfl
    exact of_decide_eq_true hc
  · have hc' : ¬ ∀ c ∈ cursor, c ∈ rows.map Prod.fst := fun hmem => hc <| by
      cases cursor with
      | none => rfl
      | some c => exact decide_eq_true (hmem c rfl)
    rw [or_iff_right hc']
    cases n with
    | zero =>
      cases past rev cursor rows <;> simp
    | succ n => simp

/-! ## Pages that follow one another -/

/-- Page after page, of the sizes given, each from where the last one ended. -/
def chain {ε σ A B : Type} (read : Option A → Nat → EStateM ε σ (List B)) (cursorOf : B → A) :
    List Nat → Option A → EStateM ε σ (List B)
  | [], _ => pure []
  | n :: sizes, cursor => do
    let rows ← read cursor n
    let rest ← chain read cursorOf sizes ((rows.getLast?.map cursorOf).or cursor)
    return rows ++ rest

/-- (PROVED) Pages that have the first of what is left past their cursors add up: `Left cursor l` says
that `l` is left past the cursor, and past an element of it what follows. -/
theorem chain_eq {ε σ A B : Type} {read : Option A → Nat → EStateM ε σ (List B)} {cursorOf : B → A}
    {s : σ} {Left : Option A → List B → Prop}
    (hread : ∀ cursor l n, 1 ≤ n → Left cursor l → read cursor n s = .ok (l.take n) s)
    (hnext : ∀ cursor l b r, Left cursor (l ++ b :: r) → Left (some (cursorOf b)) r)
    (sizes : List Nat) (hsizes : ∀ n ∈ sizes, 1 ≤ n) {cursor : Option A} {l : List B}
    (h : Left cursor l) : chain read cursorOf sizes cursor s = .ok (l.take sizes.sum) s := by
  induction sizes generalizing cursor l with
  | nil => rfl
  | cons n sizes ih =>
    have ih := @ih fun m hm => hsizes m (List.mem_cons_of_mem _ hm)
    rw [chain, bind_of_ok (hread cursor l n (hsizes n List.mem_cons_self) h), List.sum_cons,
      List.take_add]
    rcases List.eq_nil_or_concat (l.take n) with hnil | ⟨init, b, hlast⟩
    · -- an empty page of one row or more: nothing is left
      have hl : l = [] := by
        refine (List.take_eq_nil_iff.1 hnil).resolve_left ?_
        exact Nat.ne_of_gt (hsizes n List.mem_cons_self)
      subst hl
      rw [hnil, List.drop_nil]
      exact (bind_of_ok (ih h)).trans rfl
    · have hwhole : l = init ++ b :: l.drop n := by
        rw [← List.singleton_append, ← List.append_assoc, ← List.concat_eq_append, ← hlast,
          List.take_append_drop]
      have hleft := hnext cursor init b (l.drop n) (hwhole ▸ h)
      rw [hlast, List.concat_eq_append, List.getLast?_concat]
      exact (bind_of_ok (ih hleft)).trans rfl

/-- What is past a row that is past the cursor. -/
theorem past_of_mem {rev : Bool} {cursor : Option K} {rows : List (K × V)} {row : K × V}
    (hrow : row ∈ past rev cursor rows) :
    past rev (some row.1) rows =
      (past rev cursor rows).filter fun a => FromBound rev (some row.1) false a.1 := by
  rw [past, past, List.filter_filter]
  refine List.filter_congr fun a _ => ?_
  rw [past, List.mem_filter] at hrow
  rw [← Bool.decide_and, decide_eq_decide]
  refine ⟨fun ha => ⟨ha, ?_⟩, fun ha => ha.1⟩
  cases cursor with
  | none => trivial
  | some c => exact ScanOrder.before_trans (of_decide_eq_true hrow.2) ha

/-- Past a row that is past the cursor come the rows that follow it. -/
theorem past_of_past {rev : Bool} {cursor : Option K} {rows l r : List (K × V)} {row : K × V}
    (h : rows.Pairwise fun a b => a.1 < b.1) (hsplit : past rev cursor rows = l ++ row :: r) :
    past rev (some row.1) rows = r := by
  have hmem : row ∈ past rev cursor rows := by
    rw [hsplit]
    exact List.mem_append_right _ List.mem_cons_self
  have hpair := pairwise_past h rev cursor
  rw [hsplit] at hpair
  rw [past_of_mem hmem, hsplit]
  exact (filter_split hpair).1

end Virtuals.Lib
