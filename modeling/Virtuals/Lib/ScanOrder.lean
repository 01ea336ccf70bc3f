/-
  Ordered scans in either direction: the scan order, the range a scan covers,
  listings of a map over a range, and listings read page by page.

  A listing of `m` over `P` is the list of rows of `m` whose key satisfies `P`,
  each once, in scan order. It is unique (`IsListing.unique`), so a theorem that
  some code returns a listing says exactly which list it returns. `IsPage` is the
  contract of one page: a listing up to a cover key, and `readAll` the loop that
  seeks past each cover. `readAll_isListing`: pages that meet the contract
  concatenate to the listing, and the loop ends.
-/
import Virtuals.Lib.PyDict
import Mathlib.Data.Finset.Card
import Mathlib.Data.List.Sort
import Mathlib.Order.Basic
import Mathlib.Tactic.Common

namespace ScanOrder

variable {K : Type*} {V : Type} [LinearOrder K]

/-! ## Scan order and ranges -/

/-- `a` comes strictly before `b` in scan order: ascending, or descending when `rev`. -/
def Before (rev : Bool) (a b : K) : Prop := if rev then b < a else a < b

instance (rev : Bool) (a b : K) : Decidable (Before rev a b) := by
  unfold Before; infer_instance

theorem before_irrefl (rev : Bool) (a : K) : ¬ Before rev a a := by
  cases rev <;> simp [Before]

theorem before_trans {rev : Bool} {a b c : K} (h : Before rev a b) (h' : Before rev b c) :
    Before rev a c := by
  cases rev
  · exact @lt_trans K _ _ _ _ h h'
  · exact @lt_trans K _ _ _ _ h' h

theorem before_asymm {rev : Bool} {a b : K} (h : Before rev a b) : ¬ Before rev b a :=
  fun h' => before_irrefl rev a (before_trans h h')

theorem Before.ne {rev : Bool} {a b : K} (h : Before rev a b) : a ≠ b := by
  rintro rfl
  exact before_irrefl rev a h

theorem not_before {rev : Bool} {a b : K} : ¬ Before rev a b ↔ a = b ∨ Before rev b a := by
  cases rev
  · simp [Before, le_iff_eq_or_lt, eq_comm]
  · simp [Before, le_iff_eq_or_lt]

/-- Whether a scan starting at `bound` (at the very first key when absent) reads `k`. -/
def FromBound (rev : Bool) (bound : Option K) (inclusive : Bool) (k : K) : Prop :=
  match bound with
  | none => True
  | some b => if inclusive then ¬ Before rev k b else Before rev b k

/-- Whether `k` is on the near side of `stop`: below it forward, at or above it in reverse. -/
def WithinStop (rev : Bool) (stop : Option K) (k : K) : Prop :=
  match stop with
  | none => True
  | some s => if rev then s ≤ k else k < s

/-- The keys a scan reads. -/
def InRange (rev : Bool) (bound : Option K) (inclusive : Bool) (stop : Option K) (k : K) : Prop :=
  FromBound rev bound inclusive k ∧ WithinStop rev stop k

instance (rev : Bool) (bound : Option K) (inclusive : Bool) (k : K) :
    Decidable (FromBound rev bound inclusive k) := by
  unfold FromBound; cases bound <;> infer_instance

instance (rev : Bool) (stop : Option K) (k : K) : Decidable (WithinStop rev stop k) := by
  unfold WithinStop; cases stop <;> infer_instance

instance (rev : Bool) (bound : Option K) (inclusive : Bool) (stop : Option K) (k : K) :
    Decidable (InRange rev bound inclusive stop k) := by
  unfold InRange; infer_instance

theorem fromBound_of_before {rev inclusive : Bool} {bound : Option K} {a b : K}
    (h : FromBound rev bound inclusive a) (hab : Before rev a b) :
    FromBound rev bound inclusive b := by
  rcases bound with _ | c
  · trivial
  · cases inclusive
    · exact before_trans (show Before rev c a from h) hab
    · intro hbc
      exact (show ¬ Before rev a c from h) (before_trans hab hbc)

theorem withinStop_of_before {rev : Bool} {stop : Option K} {a b : K}
    (h : WithinStop rev stop b) (hab : Before rev a b) : WithinStop rev stop a := by
  rcases stop with _ | s
  · trivial
  · cases rev
    · exact lt_trans (show a < b from hab) h
    · exact le_of_lt (lt_of_le_of_lt (show s ≤ b from h) hab)

/-- Seeking past a key of the range leaves the keys of the range after it. -/
theorem inRange_past {rev inclusive : Bool} {bound stop : Option K} {c : K}
    (hc : InRange rev bound inclusive stop c) (k : K) :
    InRange rev (some c) false stop k ↔ InRange rev bound inclusive stop k ∧ Before rev c k := by
  constructor
  · rintro ⟨hb, hs⟩
    exact ⟨⟨fromBound_of_before hc.1 hb, hs⟩, hb⟩
  · rintro ⟨⟨-, hs⟩, hb⟩
    exact ⟨hb, hs⟩

/-! ## Listings -/

/-- Rows strictly ascending in scan order. -/
def Ascending (rev : Bool) (rows : List (K × V)) : Prop :=
  rows.Pairwise fun a b => Before rev a.1 b.1

/-- `rows` are the rows of the map `m` with a key in `P`, in scan order, each once. -/
structure IsListing (rev : Bool) (P : K → Prop) (m : K → Option V) (rows : List (K × V)) :
    Prop where
  ascending : Ascending rev rows
  mem : ∀ k v, (k, v) ∈ rows ↔ m k = some v ∧ P k

theorem IsListing.unique {rev : Bool} {P : K → Prop} {m : K → Option V} {r r' : List (K × V)}
    (h : IsListing rev P m r) (h' : IsListing rev P m r') : r = r' := by
  have hnd : ∀ {l : List (K × V)}, Ascending rev l → l.Nodup := fun hl =>
    hl.imp fun hab he => hab.ne (congrArg Prod.fst he)
  have hperm : r.Perm r' := (List.perm_ext_iff_of_nodup (hnd h.ascending) (hnd h'.ascending)).2
    fun a => (h.mem a.1 a.2).trans (h'.mem a.1 a.2).symm
  exact hperm.eq_of_pairwise (fun a b _ _ hab hba => absurd hba (before_asymm hab))
    h.ascending h'.ascending

theorem IsListing.congr {rev : Bool} {P Q : K → Prop} {m m' : K → Option V}
    {rows : List (K × V)} (h : IsListing rev P m rows)
    (hmap : ∀ k v, m k = some v ∧ P k ↔ m' k = some v ∧ Q k) : IsListing rev Q m' rows :=
  ⟨h.ascending, fun k v => (h.mem k v).trans (hmap k v)⟩

/-- Two listings of the same map, the second over keys after the first, chain. -/
theorem IsListing.append {rev : Bool} {P Q : K → Prop} {m : K → Option V}
    {r r' : List (K × V)} (h : IsListing rev P m r) (h' : IsListing rev Q m r')
    (hPQ : ∀ a b, P a → Q b → Before rev a b) :
    IsListing rev (fun k => P k ∨ Q k) m (r ++ r') := by
  refine ⟨List.pairwise_append.2 ⟨h.ascending, h'.ascending, fun a ha b hb => ?_⟩, fun k v => ?_⟩
  · exact hPQ _ _ ((h.mem a.1 a.2).1 ha).2 ((h'.mem b.1 b.2).1 hb).2
  · rw [List.mem_append, h.mem, h'.mem, and_or_left]

/-- The first `n` rows hold every row up to the last of them, and all rows when fewer than `n`. -/
theorem Ascending.mem_take {rev : Bool} {rows : List (K × V)} (h : Ascending rev rows) {n : Nat}
    {a : K × V} (ha : a ∈ rows)
    (hlast : ∀ c, (rows.take n).getLast? = some c → (rows.take n).length = n →
      ¬ Before rev c.1 a.1) (hn : 0 < n) : a ∈ rows.take n := by
  rw [← List.take_append_drop n rows, List.mem_append] at ha
  rcases ha with ha | ha
  · exact ha
  exfalso
  have hlen : (rows.take n).length = n := by
    have : n < rows.length := by
      by_contra hle
      simp [List.drop_eq_nil_of_le (not_lt.1 hle)] at ha
    simp [List.length_take, le_of_lt this]
  have hne : rows.take n ≠ [] := by
    intro he
    simp [he] at hlen
    omega
  refine hlast _ (List.getLast?_eq_getLast_of_ne_nil hne) hlen ?_
  have happ := h
  rw [Ascending, ← List.take_append_drop n rows, List.pairwise_append] at happ
  exact happ.2.2 _ (List.getLast_mem hne) a ha

theorem not_mem_of_before {rev : Bool} {rows : List (K × V)} {k : K}
    (h : ∀ a ∈ rows, Before rev k a.1) (v : V) : (k, v) ∉ rows :=
  fun hv => before_irrefl rev k (h (k, v) hv)

/-! ## Listings from a sorted list of keys -/

/-- The rows a list of keys selects from a map. -/
def rowsOf (m : K → Option V) (ks : List K) : List (K × V) :=
  ks.filterMap fun k => (m k).map (Prod.mk k)

omit [LinearOrder K] in
theorem mem_rowsOf {m : K → Option V} {ks : List K} {k : K} {v : V} :
    (k, v) ∈ rowsOf m ks ↔ k ∈ ks ∧ m k = some v := by
  simp only [rowsOf, List.mem_filterMap, Option.map_eq_some_iff, Prod.mk.injEq]
  constructor
  · rintro ⟨a, ha, w, hw, rfl, rfl⟩
    exact ⟨ha, hw⟩
  · rintro ⟨hk, hv⟩
    exact ⟨k, hk, v, hv, rfl, rfl⟩

theorem ascending_rowsOf {rev : Bool} {ks : List K} (h : ks.Pairwise (Before rev))
    (m : K → Option V) : Ascending rev (rowsOf m ks) := by
  unfold Ascending rowsOf
  rw [List.pairwise_filterMap]
  refine h.imp fun {a b} hab x hx y hy => ?_
  obtain ⟨v, -, rfl⟩ := Option.map_eq_some_iff.1 hx
  obtain ⟨w, -, rfl⟩ := Option.map_eq_some_iff.1 hy
  exact hab

omit [LinearOrder K] in
/-- Selecting rows commutes with cutting a list of present keys. -/
theorem rowsOf_take {m : K → Option V} {ks : List K} (h : ∀ k ∈ ks, (m k).isSome) (n : Nat) :
    rowsOf m (ks.take n) = (rowsOf m ks).take n := by
  induction ks generalizing n with
  | nil => simp [rowsOf]
  | cons k ks ih =>
    obtain ⟨v, hv⟩ := Option.isSome_iff_exists.1 (h k (by simp))
    cases n with
    | zero => simp [rowsOf]
    | succ n =>
      have := ih (fun j hj => h j (by simp [hj])) n
      simp only [rowsOf] at this ⊢
      simp [hv, this]

/-- A sorted list of the keys of `m` in `P` gives the listing. -/
theorem isListing_rowsOf {rev : Bool} {P : K → Prop} {m : K → Option V} {ks : List K}
    (h : ks.Pairwise (Before rev)) (hmem : ∀ k, (m k).isSome → (k ∈ ks ↔ P k)) :
    IsListing rev P m (rowsOf m ks) := by
  refine ⟨ascending_rowsOf h m, fun k v => ?_⟩
  rw [mem_rowsOf, and_comm]
  exact and_congr_right fun hv => hmem k (by simp [hv])

/-! ## Pages -/

/-- What a page is promised to be: the listing up to `cover`, or all of it when there is none.
    `known` bounds the keys a cover may be, which makes reading on finite. -/
structure IsPage (rev : Bool) (P : K → Prop) (m : K → Option V) (known : K → Prop)
    (page : List (K × V) × Option K × Bool) : Prop where
  listing : IsListing rev (fun k => P k ∧ ∀ c, page.2.1 = some c → ¬ Before rev c k) m page.1
  cover_mem : ∀ c, page.2.1 = some c → P c ∧ known c
  done : page.2.2 = page.2.1.isNone

/-- The last key of a page when the page is full: the source may hold more past it. -/
def fullLast {A : Type} (page : List (K × A)) (n : Nat) : Option K :=
  if page.length = n then page.getLast?.map Prod.fst else none

omit [LinearOrder K] in
theorem mem_of_fullLast {A : Type} {rows : List (K × A)} {n m : Nat} {c : K}
    (h : fullLast (rows.take n) m = some c) : ∃ v, (c, v) ∈ rows := by
  unfold fullLast at h
  split_ifs at h
  obtain ⟨a, ha, rfl⟩ := Option.map_eq_some_iff.1 h
  exact ⟨a.2, List.mem_of_mem_take (List.mem_of_getLast? ha)⟩

/-- The first `n` rows of a listing are a page of it. -/
theorem isPage_take {rev : Bool} {P : K → Prop} {m : K → Option V} {known : K → Prop}
    {rows : List (K × V)} (h : IsListing rev P m rows) {n : Nat} (hn : 0 < n)
    (hknown : ∀ k, (m k).isSome → known k) :
    IsPage rev P m known
      (rows.take n, fullLast (rows.take n) n, decide ((rows.take n).length < n)) := by
  have hasc : Ascending rev (rows.take n) := h.ascending.sublist (List.take_sublist n rows)
  refine ⟨⟨hasc, fun k v => ?_⟩, fun c hc => ?_, ?_⟩
  · constructor
    · intro hk
      obtain ⟨hm, hP⟩ := (h.mem k v).1 (List.mem_of_mem_take hk)
      refine ⟨hm, hP, fun c hc hck => ?_⟩
      simp only [fullLast] at hc
      split_ifs at hc
      obtain ⟨a, ha, rfl⟩ := Option.map_eq_some_iff.1 hc
      -- the last row of an ascending page is before no row of it
      obtain ⟨l, hl⟩ := List.getLast?_eq_some_iff.1 ha
      rw [hl] at hk hasc
      rcases List.mem_append.1 hk with hk | hk
      · exact before_asymm hck ((List.pairwise_append.1 hasc).2.2 _ hk a (by simp))
      · rw [← List.mem_singleton.1 hk] at hck
        exact before_irrefl rev k hck
    · rintro ⟨hm, hP, hcover⟩
      refine h.ascending.mem_take ((h.mem k v).2 ⟨hm, hP⟩) (fun c hc hlen => ?_) hn
      exact hcover c.1 (by simp [fullLast, hlen, hc])
  · obtain ⟨v, hv⟩ := mem_of_fullLast hc
    obtain ⟨hm, hP⟩ := (h.mem c v).1 hv
    exact ⟨hP, hknown c (by simp [hm])⟩
  · by_cases hlen : (rows.take n).length = n
    · have hne : rows.take n ≠ [] := by
        intro he
        simp [he] at hlen
        omega
      simp [fullLast, hlen, List.getLast?_eq_getLast_of_ne_nil hne]
    · have hle : (rows.take n).length ≤ n := by simp
      have hlt : (rows.take n).length < n := by omega
      simp only [fullLast, if_neg hlen, Option.isNone_none]
      exact decide_eq_true hlt

/-- Read pages until one is the last, each seeking past the cover of the one before.
    `none` when `fuel` pages were not enough. -/
def readAll (page : Option K → Bool → List (K × V) × Option K × Bool) :
    Nat → Option K → Bool → Option (List (K × V))
  | 0, _, _ => none
  | fuel + 1, bound, inclusive =>
    let (rows, cover, done) := page bound inclusive
    if done then some rows else (readAll page fuel cover false).map (rows ++ ·)

/-- (PROVED) Pages that keep the contract concatenate to the listing of the whole range; a page
    more than there are known keys is enough. -/
theorem readAll_isListing {rev : Bool} {stop : Option K} {m : K → Option V} {known : Finset K}
    {page : Option K → Bool → List (K × V) × Option K × Bool}
    (hpage : ∀ bound inclusive,
      IsPage rev (InRange rev bound inclusive stop) m (· ∈ known) (page bound inclusive)) :
    ∀ (fuel : Nat) (bound : Option K) (inclusive : Bool),
      (known.filter (InRange rev bound inclusive stop)).card < fuel →
      ∃ rows, readAll page fuel bound inclusive = some rows ∧
        IsListing rev (InRange rev bound inclusive stop) m rows := by
  intro fuel
  induction fuel with
  | zero => intro _ _ h; omega
  | succ fuel ih =>
    intro bound inclusive hcard
    have hp := hpage bound inclusive
    rcases hpg : page bound inclusive with ⟨rows, cover, done⟩
    rw [hpg] at hp
    have hdone : done = cover.isNone := hp.done
    rcases cover with _ | c
    · have hd : done = true := hdone
      refine ⟨rows, by simp [readAll, hpg, hd], hp.listing.congr fun k v => ?_⟩
      simp
    · have hd : done = false := hdone
      obtain ⟨hcP, hcK⟩ := hp.cover_mem c rfl
      -- the cover itself leaves the range, so fewer known keys are left in it
      have hless : (known.filter (InRange rev (some c) false stop)).card <
          (known.filter (InRange rev bound inclusive stop)).card := by
        apply Finset.card_lt_card
        refine Finset.ssubset_iff_of_subset (fun k hk => ?_) |>.2
          ⟨c, Finset.mem_filter.2 ⟨hcK, hcP⟩, fun hc => ?_⟩
        · obtain ⟨hk1, hk2⟩ := Finset.mem_filter.1 hk
          exact Finset.mem_filter.2 ⟨hk1, ((inRange_past hcP k).1 hk2).1⟩
        · exact before_irrefl rev c ((inRange_past hcP c).1 (Finset.mem_filter.1 hc).2).2
      obtain ⟨rest, hrest, hlist⟩ := ih (some c) false (by omega)
      refine ⟨rows ++ rest, by simp [readAll, hpg, hd, hrest], ?_⟩
      refine (hp.listing.append hlist ?_).congr fun k v => and_congr_right fun _ => ?_
      · rintro a b ⟨-, ha⟩ hb
        have hcb := ((inRange_past hcP b).1 hb).2
        rcases not_before.1 (ha c rfl) with rfl | hac
        · exact hcb
        · exact before_trans hac hcb
      · rw [inRange_past hcP k]
        by_cases hck : Before rev c k <;> simp [hck]

end ScanOrder
