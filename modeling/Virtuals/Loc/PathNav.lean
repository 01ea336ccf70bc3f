/-
  `loc/path_nav.py`: the fast path of path navigation.

  `navigate_view` copies the leading addresses of a path that count as static into sites, and opens the
  rest through the views. Whether an address is static is asked of the class of the view that is to be
  opened, not of the view whose address it is: a negative index of a list, a key of a dict whose data
  lies in an inner container, a key that `kh57` encodes and a key of a view without children are copied
  as they are. So navigation agrees with opening the steps one by one where the copied addresses are
  segments in their parents' own terms (`Copies`), or where the path is refused both ways (`Refused`),
  and only there (`navigates_iff`).
-/
import Virtuals.Loc.Creation

namespace Virtuals.Loc

open Lib KeyCodec Container Views

variable {V : Type} (env : Env V)

/-- `open_child_view` for each step. -/
def openEach (s : Store V) (start : View) (path : List Step) : Except ViewError View :=
  path.foldlM (openChildView env s) start

/-- The longest static prefix of a path: `_is_address_static` for each step. -/
def staticEnd : List Step → Nat
  | [] => 0
  | (address, viewType) :: rest =>
    if viewType.isAddressStatic address then staticEnd rest + 1 else 0

/-- A static step: the address joined to the site. -/
def joinAddress (v : View) (step : Step) : View := .child v step.2 none step.1

/-- `navigate_view`. -/
def navigateView (s : Store V) (start : View) (path : List Step) : Except ViewError View :=
  openEach env s ((path.take (staticEnd path)).foldl joinAddress start) (path.drop (staticEnd path))

/-- `navigate_and_ensure`. -/
def navigateAndEnsure (start : View) (path : List Step) : EStateM ViewError (Store V) View :=
  if path.isEmpty then do
    ensureCreated env start
    return start
  else do
    let s ← get
    let leaf ← liftResult (navigateView env s start path)
    if (s.get? leaf.site).isSome then return leaf else do
      ensureCreated env start
      path.foldlM (ensureChild env) start

/-! ## The two ways agree -/

/-- The same view, parents included, or both raise. -/
def SameEnd : Except ViewError View → Except ViewError View → Prop
  | .ok v, .ok w => v = w
  | .error _, .error _ => True
  | _, _ => False

/-- Navigation ends where opening the steps one by one ends; and what it creates stands there: nothing
    where the view is there, else a container at every level. -/
structure Navigates (s : Store V) (start : View) (path : List Step) : Prop where
  view : SameEnd (navigateView env s start path) (openEach env s start path)
  ensured : ∀ v s', navigateAndEnsure env start path s = .ok v s' →
    openEach env s start path = .ok v ∧
      ((s.get? v.site).isSome ∧ s' = s ∨
        ∀ q w, q <+: path → openEach env s start q = .ok w → Stands s' w)

/-- Every static address is one that the view it is opened from takes as it is, right below itself. -/
def Copies (s : Store V) : View → List Step → Prop
  | _, [] => True
  | v, step :: rest => step.2.isAddressStatic step.1 = true →
    (v.type.inner = none ∧ childSegment env s v step.1 = .ok step.1) ∧
      Copies s (joinAddress v step) rest

/-- Some address is refused by the view the steps before it lead to. -/
def Refused (s : Store V) : View → List Step → Prop
  | _, [] => False
  | v, step :: rest =>
    match childSegment env s v step.1 with
    | .error _ => True
    | .ok segment => Refused s (.child v step.2 v.type.inner segment) rest

variable {env} {s : Store V} {v w : View} {step : Step} {path rest : List Step}

theorem openChildView_of_ok {segment : KeySegment} (h : childSegment env s v step.1 = .ok segment) :
    openChildView env s v step = .ok (.child v step.2 v.type.inner segment) := by
  rw [openChildView, h]
  rfl

theorem openEach_cons_of_ok {segment : KeySegment} (h : childSegment env s v step.1 = .ok segment) :
    openEach env s v (step :: rest) =
      openEach env s (.child v step.2 v.type.inner segment) rest := by
  rw [openEach, List.foldlM_cons, openChildView_of_ok h]
  rfl

theorem openEach_cons_of_error {e : ViewError} (h : childSegment env s v step.1 = .error e) :
    openEach env s v (step :: rest) = .error e := by
  rw [openEach, List.foldlM_cons, openChildView, h]
  rfl

theorem refused_iff : Refused env s v path ↔ ∃ e, openEach env s v path = .error e := by
  induction path generalizing v with
  | nil =>
    constructor
    · exact False.elim
    · rintro ⟨e, h⟩
      cases h
  | cons step rest ih =>
    rw [Refused]
    cases h : childSegment env s v step.1 with
    | error e =>
      rw [openEach_cons_of_error h]
      exact ⟨fun _ => ⟨e, rfl⟩, fun _ => trivial⟩
    | ok segment =>
      rw [openEach_cons_of_ok h]
      exact ih

theorem navigateView_cons : navigateView env s v (step :: rest) =
    if step.2.isAddressStatic step.1 then navigateView env s (joinAddress v step) rest
    else openEach env s v (step :: rest) := by
  rw [navigateView, staticEnd]
  split_ifs with h <;> rfl

/-- The view at the end has the start above it, a level for each step. -/
theorem openEach_up (h : openEach env s v path = .ok w) : View.parent^[path.length] w = v := by
  induction path generalizing v with
  | nil =>
    cases h
    rfl
  | cons step rest ih =>
    cases hseg : childSegment env s v step.1 with
    | error e =>
      rw [openEach_cons_of_error hseg] at h
      cases h
    | ok segment =>
      rw [openEach_cons_of_ok hseg] at h
      rw [List.length_cons, Function.iterate_succ_apply', ih h]
      rfl

theorem navigateView_up (h : navigateView env s v path = .ok w) :
    View.parent^[path.length] w = v := by
  induction path generalizing v with
  | nil =>
    cases h
    rfl
  | cons step rest ih =>
    rw [navigateView_cons] at h
    split_ifs at h with hstatic
    · rw [List.length_cons, Function.iterate_succ_apply', ih h]
      rfl
    · exact openEach_up h

theorem navigateView_of_copies (h : Copies env s v path) :
    navigateView env s v path = openEach env s v path := by
  induction path generalizing v with
  | nil => rfl
  | cons step rest ih =>
    rw [navigateView_cons]
    split_ifs with hstatic
    · obtain ⟨⟨hinner, hseg⟩, hrest⟩ := h hstatic
      rw [openEach_cons_of_ok hseg, hinner]
      exact ih hrest
    · rfl

/-- Two ways that end at one view were at one view before each step. -/
theorem copies_of_same (hfast : navigateView env s v path = .ok w)
    (heach : openEach env s v path = .ok w) : Copies env s v path := by
  induction path generalizing v with
  | nil => trivial
  | cons step rest ih =>
    intro hstatic
    rw [navigateView_cons, if_pos hstatic] at hfast
    cases hseg : childSegment env s v step.1 with
    | error e =>
      rw [openEach_cons_of_error hseg] at heach
      cases heach
    | ok segment =>
      rw [openEach_cons_of_ok hseg] at heach
      have hsame : View.child v step.2 v.type.inner segment = joinAddress v step :=
        (openEach_up heach).symm.trans (navigateView_up hfast)
      rw [hsame] at heach
      obtain ⟨-, -, hinner, hsegment⟩ := View.child.inj hsame
      exact ⟨⟨hinner, congrArg Except.ok hsegment⟩, ih hfast heach⟩

theorem sameEnd_iff : SameEnd (navigateView env s v path) (openEach env s v path) ↔
    Copies env s v path ∨ Refused env s v path ∧
      Refused env s ((path.take (staticEnd path)).foldl joinAddress v)
        (path.drop (staticEnd path)) := by
  rw [refused_iff, refused_iff]
  constructor
  · intro h
    cases hfast : navigateView env s v path with
    | ok w =>
      cases heach : openEach env s v path with
      | ok w' =>
        rw [hfast, heach] at h
        cases h
        exact Or.inl (copies_of_same hfast heach)
      | error e =>
        rw [hfast, heach] at h
        exact h.elim
    | error e =>
      cases heach : openEach env s v path with
      | ok w' =>
        rw [hfast, heach] at h
        exact h.elim
      | error e' => exact Or.inr ⟨⟨e', rfl⟩, e, hfast⟩
  · rintro (h | ⟨⟨e, heach⟩, e', hfast⟩)
    · rw [navigateView_of_copies h]
      cases openEach env s v path with
      | ok w => rfl
      | error e => trivial
    · rw [navigateView, heach, hfast]
      trivial

/-! ## Creation on the way -/

theorem childSegment_congr {s' : Store V} {address : KeySegment}
    (h : s'.get? (metaAt v.path ++ [LEN]) = s.get? (metaAt v.path ++ [LEN])) :
    childSegment env s' v address = childSegment env s v address := by
  have hlen : storedLen env v.site s' = storedLen env v.site s := by
    rw [storedLen, storedLen, View.site, metaSite_dataAt, h]
  rw [childSegment, childSegment, hlen]

/-- What holds after the levels below a view that stands were created: the same view as by opening
    them, nothing above changed, and each level stands. -/
structure Ensured (env : Env V) (s s₁ s' : Store V) (v w : View) (path : List Step) : Prop where
  view : openEach env s v path = .ok w
  above : ∀ q : Site, q.length ≤ v.path.length → s'.get? (dataAt q) = s₁.get? (dataAt q)
  levels : ∀ q u, q <+: path → openEach env s v q = .ok u → Stands s' u

theorem ensureChild_foldlM {s₁ s' : Store V} (hv : Stands s₁ v)
    (hlen : ∀ q, v.path <+: q → s₁.get? (metaAt q ++ [LEN]) = s.get? (metaAt q ++ [LEN]))
    (h : path.foldlM (ensureChild env) v s₁ = .ok w s') :
    Ensured env s s₁ s' v w path := by
  induction path generalizing v s₁ with
  | nil =>
    cases h
    refine ⟨rfl, fun q _ => rfl, fun q u hq hu => ?_⟩
    cases List.prefix_nil.1 hq
    cases hu
    exact hv
  | cons step rest ih =>
    rw [List.foldlM_cons] at h
    obtain ⟨c, s₂, hchild, hrest⟩ := ok_of_bind h
    have hcongr : childSegment env s₁ v step.1 = childSegment env s v step.1 :=
      childSegment_congr (hlen v.path List.prefix_rfl)
    obtain ⟨t, s₁', hget, hchild⟩ := ok_of_bind hchild
    cases hget
    obtain ⟨segment, s₁', hseg, hchild⟩ := ok_of_bind hchild
    rw [hcongr] at hseg
    cases hsegment : childSegment env s v step.1 with
    | error e =>
      rw [hsegment] at hseg
      cases hseg
    | ok segment' =>
      rw [hsegment] at hseg
      cases hseg
      obtain ⟨_, s₂', hmade, hret⟩ := ok_of_bind hchild
      cases hret
      have hbelow : v.path <+: (View.child v step.2 v.type.inner segment).path := by
        rw [View.path, List.append_assoc]
        exact List.prefix_append _ _
      have hrows := ih (stands_child hmade) (fun q hq =>
        ((kept_len_child v step.2 segment hq).eq hmade).trans (hlen q (hbelow.trans hq))) hrest
      have habove : ∀ q : Site, q.length ≤ v.path.length → s'.get? (dataAt q) = s₁.get? (dataAt q) :=
        fun q hq => (hrows.above q (Nat.le_trans hq (Nat.le_of_lt (path_lt_child _ _ _ _)))).trans
          (above_ensureChildView hv hmade hq)
      refine ⟨(openEach_cons_of_ok hsegment).trans hrows.view, habove, fun q u hq hu => ?_⟩
      cases q with
      | nil =>
        cases hu
        exact hv.of_eq (habove v.path (Nat.le_refl _))
      | cons step' q =>
        obtain ⟨rfl, hprefix⟩ := List.cons_prefix_cons.1 hq
        rw [openEach_cons_of_ok hsegment] at hu
        exact hrows.levels q u hprefix hu

theorem ensured_of_copies (hv : v.Placed) (h : Copies env s v path) {s' : Store V}
    (hrun : navigateAndEnsure env v path s = .ok w s') :
    openEach env s v path = .ok w ∧
      ((s.get? w.site).isSome ∧ s' = s ∨
        ∀ q u, q <+: path → openEach env s v q = .ok u → Stands s' u) := by
  have hlevels : ∀ {s₁ : Store V}, ensureCreated env v s = .ok () s₁ →
      path.foldlM (ensureChild env) v s₁ = .ok w s' → Ensured env s s₁ s' v w path :=
    fun hmade hfold => ensureChild_foldlM (stands_ensureCreated hv hmade)
      (fun q hq => (kept_len_ensureCreated hv hq).eq hmade) hfold
  rw [navigateAndEnsure] at hrun
  split_ifs at hrun with hempty
  · rw [List.isEmpty_iff] at hempty
    subst hempty
    obtain ⟨_, s₁, hmade, hret⟩ := ok_of_bind hrun
    have hall := hlevels hmade hret
    exact ⟨hall.view, Or.inr hall.levels⟩
  · obtain ⟨t, s₁, hget, hrun⟩ := ok_of_bind hrun
    cases hget
    obtain ⟨leaf, s₁, hleaf, hrun⟩ := ok_of_bind hrun
    rw [navigateView_of_copies h] at hleaf
    cases heach : openEach env s v path with
    | error e =>
      rw [heach] at hleaf
      cases hleaf
    | ok u =>
      rw [heach] at hleaf
      cases hleaf
      split_ifs at hrun with hfound
      · cases hrun
        exact ⟨rfl, Or.inl ⟨hfound, rfl⟩⟩
      · obtain ⟨_, s₂, hmade, hfold⟩ := ok_of_bind hrun
        have hall := hlevels hmade hfold
        exact ⟨heach.symm.trans hall.view, Or.inr hall.levels⟩

theorem navigateAndEnsure_refused {e : ViewError} (hpath : path ≠ [])
    (h : navigateView env s v path = .error e) {s' : Store V} :
    navigateAndEnsure env v path s ≠ .ok w s' := by
  intro hrun
  rw [navigateAndEnsure, if_neg (by rwa [List.isEmpty_iff])] at hrun
  obtain ⟨t, s₁, hget, hrun⟩ := ok_of_bind hrun
  cases hget
  obtain ⟨leaf, s₁, hleaf, -⟩ := ok_of_bind hrun
  rw [h] at hleaf
  cases hleaf

/-- **Path navigation agrees with opening the steps one by one exactly where the copied addresses are
    segments in their parents' own terms, or the path is refused both ways** (PROVED). -/
theorem navigates_iff (env : Env V) (s : Store V) (start : View) (hstart : start.Placed)
    (path : List Step) :
    Navigates env s start path ↔ Copies env s start path ∨ Refused env s start path ∧
      Refused env s ((path.take (staticEnd path)).foldl joinAddress start)
        (path.drop (staticEnd path)) := by
  constructor
  · exact fun h => sameEnd_iff.1 h.view
  · intro h
    refine ⟨sameEnd_iff.2 h, fun w s' hrun => ?_⟩
    rcases h with h | ⟨heach, hfast⟩
    · exact ensured_of_copies hstart h hrun
    · obtain ⟨e, herror⟩ := refused_iff.1 hfast
      refine absurd hrun (navigateAndEnsure_refused ?_ herror)
      rintro rfl
      exact heach

/-! ## Examples -/

/-- Keys as values. -/
def keyCells : Env KeySegment where
  cell := id
  toInt
    | .int n => n
    | .str _ => 0
  level _ := 0
  logKey _ _ _ := []
  place _ _ _ := ([], none)

def TAGS : KeySegment := .str (pyStr "tags")

/-- A dict with a list of two dicts. -/
def taggedDicts : Store KeySegment :=
  ((((Table.put ∅ (dataAt []) (.marker (ViewType.dict .eager).marker)).put (dataAt [TAGS])
    (.marker (ViewType.list .eager).marker)).put (dataAt [TAGS, .int 0])
    (.marker (ViewType.dict .eager).marker)).put (dataAt [TAGS, .int 1])
    (.marker (ViewType.dict .eager).marker)).put (metaAt [TAGS] ++ [LEN]) (.primitive (.int 2))

/-- The list of `taggedDicts`, opened from the dict. -/
def tags : View := .child (.root (.dict .eager) []) (.list .eager) none TAGS

theorem storedLen_tags : storedLen keyCells tags.site taggedDicts = 2 := by
  have hrow : taggedDicts.get? (metaSite tags.site ++ [LEN]) = some (.primitive (.int 2)) :=
    Table.get?_put_self _ _ _
  rw [storedLen, hrow]
  rfl

theorem childSegment_tags (n : Int) :
    childSegment keyCells taggedDicts tags (.int n) = normalizeIndex 2 (.int n) := by
  rw [← storedLen_tags]
  rfl

/-- An index the list takes as it is, and a key below it. -/
theorem navigates_iff_tags : Navigates keyCells taggedDicts tags
    [(.int 1, .dict .eager), (TAGS, .dict .eager)] :=
  (navigates_iff keyCells taggedDicts tags rfl _).2
    (Or.inl fun _ => ⟨⟨rfl, childSegment_tags 1⟩, fun _ => ⟨⟨rfl, rfl⟩, trivial⟩⟩)

/-- The last dict of the list: the index -1 is copied into the site. -/
theorem navigates_fails : ¬ ∀ (V : Type) (env : Env V) (s : Store V) (start : View)
    (_ : start.Placed) (path : List Step), Navigates env s start path := by
  intro h
  have hend := (h _ keyCells taggedDicts tags rfl [(.int (-1), .dict .eager)]).view
  have heach : openEach keyCells taggedDicts tags [(.int (-1), .dict .eager)] =
      .ok (.child tags (.dict .eager) none (.int 1)) := openEach_cons_of_ok (childSegment_tags (-1))
  have hfast : navigateView keyCells taggedDicts tags [(.int (-1), .dict .eager)] =
      .ok (.child tags (.dict .eager) none (.int (-1))) := rfl
  rw [heach, hfast] at hend
  cases hend

end Virtuals.Loc
