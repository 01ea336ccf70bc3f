/-
  Immutable values in memory: trees whose leaves and nodes are objects, each under an identity.

  Two values may be equal and yet share differently. `erase` forgets the identities, `names` lists them
  in the order in which the objects are met, and `pattern` keeps of such a list which of its places
  have one and the same object. What is left of a value when its objects may be renamed one to one is
  its erasure and its pattern (`renamed_iff`).
-/
import Mathlib.Data.List.Basic
import Mathlib.Data.Set.Function

namespace Virtuals.Lib

/-- A value in memory. A node has at least one item. -/
inductive Shared (I A L : Type)
  /-- a value that has no identity -/
  | atom (a : A)
  | leaf (i : I) (label : L)
  | node (i : I) (first : Shared I A L) (rest : List (Shared I A L))

/-! ## Patterns -/

section Pattern

variable {I J : Type} [DecidableEq I] [DecidableEq J]

/-- Each place of a list by the first one that has the same. -/
def pattern (l : List I) : List Nat := l.map l.idxOf

theorem idxOf_injOn (l : List I) : Set.InjOn l.idxOf {i | i ∈ l} := fun _ hi _ _ h =>
  (List.idxOf_inj hi).1 h

omit [DecidableEq I] [DecidableEq J] in
theorem mem_map_iff {f : I → J} {l m : List I} (hf : Set.InjOn f {i | i ∈ l ++ m}) {a : I}
    (ha : a ∈ l ++ m) : f a ∈ l.map f ↔ a ∈ l := by
  constructor
  · intro h
    obtain ⟨b, hb, hba⟩ := List.mem_map.1 h
    exact hf (List.mem_append_left m hb) ha hba ▸ hb
  · exact List.mem_map_of_mem

theorem idxOf_map {f : I → J} {l : List I} (hf : Set.InjOn f {i | i ∈ l}) {a : I} (ha : a ∈ l) :
    (l.map f).idxOf (f a) = l.idxOf a := by
  induction l with
  | nil => cases ha
  | cons b l ih =>
    by_cases hab : b = a
    · rw [hab, List.map_cons, List.idxOf_cons_self, List.idxOf_cons_self]
    · have hne : f b ≠ f a := fun h => hab (hf List.mem_cons_self ha h)
      have hal : a ∈ l := (List.mem_cons.1 ha).resolve_left fun h => hab h.symm
      rw [List.map_cons, List.idxOf_cons_ne _ hne, List.idxOf_cons_ne _ hab,
        ih (hf.mono fun _ h => List.mem_cons_of_mem b h) hal]

/-- A pattern is that of any renaming. -/
theorem pattern_map {f : I → J} {l : List I} (hf : Set.InjOn f {i | i ∈ l}) :
    pattern (l.map f) = pattern l := by
  rw [pattern, pattern, List.map_map]
  exact List.map_congr_left fun a ha => idxOf_map hf ha

end Pattern

/-! ## Objects renamed -/

namespace Shared

variable {I J K A L : Type}

mutual

/-- The objects renamed. -/
def map (f : I → J) : Shared I A L → Shared J A L
  | .atom a => .atom a
  | .leaf i label => .leaf (f i) label
  | .node i first rest => .node (f i) (map f first) (mapAll f rest)

def mapAll (f : I → J) : List (Shared I A L) → List (Shared J A L)
  | [] => []
  | x :: xs => map f x :: mapAll f xs

end

mutual

/-- The objects in the order in which they are met: a node after its items. -/
def names : Shared I A L → List I
  | .atom _ => []
  | .leaf i _ => [i]
  | .node i first rest => names first ++ (namesAll rest ++ [i])

def namesAll : List (Shared I A L) → List I
  | [] => []
  | x :: xs => names x ++ namesAll xs

end

/-- A value without the identities of its objects. -/
def erase (o : Shared I A L) : Shared Unit A L := o.map fun _ => ()

def eraseAll (l : List (Shared I A L)) : List (Shared Unit A L) := mapAll (fun _ => ()) l

theorem mapAll_eq (f : I → J) (l : List (Shared I A L)) : mapAll f l = l.map (map f) := by
  induction l with
  | nil => rfl
  | cons x xs ih => rw [mapAll, ih, List.map_cons]

mutual

theorem map_map (f : I → J) (g : J → K) :
    ∀ o : Shared I A L, (o.map f).map g = o.map (g ∘ f)
  | .atom _ => rfl
  | .leaf _ _ => rfl
  | .node i first rest => by
    rw [map, map, map, map_map f g first, mapAll_mapAll f g rest, Function.comp_apply]

theorem mapAll_mapAll (f : I → J) (g : J → K) :
    ∀ l : List (Shared I A L), mapAll g (mapAll f l) = mapAll (g ∘ f) l
  | [] => rfl
  | x :: xs => by rw [mapAll, mapAll, mapAll, map_map f g x, mapAll_mapAll f g xs]

end

theorem erase_map (f : I → J) (o : Shared I A L) : (o.map f).erase = o.erase := map_map f _ o

mutual

theorem names_map (f : I → J) : ∀ o : Shared I A L, (o.map f).names = o.names.map f
  | .atom _ => rfl
  | .leaf _ _ => rfl
  | .node i first rest => by
    rw [map, names, names, names_map f first, namesAll_mapAll f rest, List.map_append,
      List.map_append, List.map_singleton]

theorem namesAll_mapAll (f : I → J) :
    ∀ l : List (Shared I A L), namesAll (mapAll f l) = (namesAll l).map f
  | [] => rfl
  | x :: xs => by
    rw [mapAll, namesAll, namesAll, names_map f x, namesAll_mapAll f xs, List.map_append]

end

theorem length_names_erase (o : Shared I A L) : o.erase.names.length = o.names.length := by
  rw [erase, names_map, List.length_map]

mutual

/-- A value is known by its erasure and the objects in their order. -/
theorem ext_names : ∀ o o' : Shared I A L, o.erase = o'.erase → o.names = o'.names → o = o'
  | .atom a, o', he, _ => by
    cases o' with
    | atom a' =>
      rw [erase, erase, map, map, atom.injEq] at he
      rw [he]
    | leaf i label => cases he
    | node i first rest => cases he
  | .leaf i label, o', he, hn => by
    cases o' with
    | atom a' => cases he
    | leaf j label' =>
      rw [erase, erase, map, map, leaf.injEq] at he
      rw [names, names, List.cons.injEq] at hn
      rw [he.2, hn.1]
    | node i first rest => cases he
  | .node i first rest, o', he, hn => by
    cases o' with
    | atom a' => cases he
    | leaf j label' => cases he
    | node j first' rest' =>
      rw [erase, erase, map, map, node.injEq] at he
      obtain ⟨-, hfirst, hrest⟩ := he
      have hlen : first.names.length = first'.names.length := by
        rw [← length_names_erase first, ← length_names_erase first', erase, erase, hfirst]
      rw [names, names] at hn
      obtain ⟨hn, hmore⟩ := List.append_inj hn hlen
      obtain ⟨hmore, hlast⟩ := List.append_inj' hmore rfl
      rw [ext_names first first' hfirst hn, ext_namesAll rest rest' hrest hmore,
        (List.cons.inj hlast).1]

theorem ext_namesAll : ∀ l l' : List (Shared I A L), eraseAll l = eraseAll l' →
    namesAll l = namesAll l' → l = l'
  | [], l', he, _ => by
    cases l' with
    | nil => rfl
    | cons x xs => cases he
  | x :: xs, l', he, hn => by
    cases l' with
    | nil => cases he
    | cons y ys =>
      rw [eraseAll, eraseAll, mapAll, mapAll, List.cons.injEq] at he
      have hlen : x.names.length = y.names.length := by
        rw [← length_names_erase x, ← length_names_erase y, erase, erase, he.1]
      rw [namesAll, namesAll] at hn
      obtain ⟨hx, hxs⟩ := List.append_inj hn hlen
      rw [ext_names x y he.1 hx, ext_namesAll xs ys he.2 hxs]

end

/-- **Two values come to be the same, their objects renamed one to one, exactly when they are equal
and have the same objects at the same places** (PROVED). -/
theorem renamed_iff [DecidableEq I] [DecidableEq J] (o : Shared I A L) (o' : Shared J A L) :
    (∃ (f : I → Nat) (g : J → Nat), Set.InjOn f {i | i ∈ o.names} ∧
      Set.InjOn g {i | i ∈ o'.names} ∧ o.map f = o'.map g) ↔
      o.erase = o'.erase ∧ pattern o.names = pattern o'.names := by
  constructor
  · rintro ⟨f, g, hf, hg, h⟩
    refine ⟨?_, ?_⟩
    · rw [← erase_map f, h, erase_map]
    · rw [← pattern_map hf, ← names_map, h, names_map, pattern_map hg]
  · rintro ⟨he, hp⟩
    refine ⟨o.names.idxOf, o'.names.idxOf, idxOf_injOn _, idxOf_injOn _, ext_names _ _ ?_ ?_⟩
    · rw [erase_map, erase_map, he]
    · rw [names_map, names_map]
      exact hp

/-! ## The memory that holds them -/

mutual

/-- The objects of a value are those that the memory has under their identities. -/
def InHeap (heap : I → Shared I A L) : Shared I A L → Prop
  | .atom _ => True
  | .leaf i label => heap i = .leaf i label
  | .node i first rest =>
    heap i = .node i first rest ∧ InHeap heap first ∧ AllInHeap heap rest

def AllInHeap (heap : I → Shared I A L) : List (Shared I A L) → Prop
  | [] => True
  | x :: xs => InHeap heap x ∧ AllInHeap heap xs

end

mutual

/-- How many constructors a value has. -/
def size : Shared I A L → Nat
  | .atom _ => 1
  | .leaf _ _ => 1
  | .node _ first rest => size first + sizeAll rest + 1

def sizeAll : List (Shared I A L) → Nat
  | [] => 0
  | x :: xs => size x + sizeAll xs

end

mutual

theorem size_heap_le {heap : I → Shared I A L} {i : I} :
    ∀ o : Shared I A L, InHeap heap o → i ∈ o.names → (heap i).size ≤ o.size
  | .atom _, _, hi => nomatch hi
  | .leaf j label, h, hi => by
    rw [names, List.mem_singleton] at hi
    rw [hi, show heap j = _ from h]
  | .node j first rest, h, hi => by
    obtain ⟨hj, hfirst, hrest⟩ := h
    rw [names, List.mem_append, List.mem_append, List.mem_singleton] at hi
    rw [size]
    rcases hi with hi | hi | hi
    · have := size_heap_le first hfirst hi
      omega
    · have := sizeAll_heap_le rest hrest hi
      omega
    · rw [hi, hj, size]

theorem sizeAll_heap_le {heap : I → Shared I A L} {i : I} :
    ∀ l : List (Shared I A L), AllInHeap heap l → i ∈ namesAll l → (heap i).size ≤ sizeAll l
  | [], _, hi => nomatch hi
  | x :: xs, h, hi => by
    rw [namesAll, List.mem_append] at hi
    rw [sizeAll]
    rcases hi with hi | hi
    · have := size_heap_le x h.1 hi
      omega
    · have := sizeAll_heap_le xs h.2 hi
      omega

end

/-- No object is inside itself. -/
theorem not_mem_items {heap : I → Shared I A L} {i : I} {first : Shared I A L}
    {rest : List (Shared I A L)} (h : InHeap heap (.node i first rest)) :
    i ∉ first.names ∧ i ∉ namesAll rest := by
  obtain ⟨hi, hfirst, hrest⟩ := h
  have hsize : (heap i).size = first.size + sizeAll rest + 1 := by rw [hi, size]
  refine ⟨fun hmem => ?_, fun hmem => ?_⟩
  · have := size_heap_le first hfirst hmem
    omega
  · have := sizeAll_heap_le rest hrest hmem
    omega

end Shared

end Virtuals.Lib
