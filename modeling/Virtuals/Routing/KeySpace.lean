/-
  The one key space of the index: joined segments and index SET keys are never confused.

  `route` joins the first, the last or the chosen encoded segments of a key and looks the bytes up.
  Joined segments have the same bytes exactly when the segments are equal under `==`, however the
  bytes could be cut (`joined_eq_iff`); the rest follows for any choice of segments. Across kinds,
  depths and signatures a SET key stands for one entry, and hints with one entry cover the same
  keys (`key_space`).
-/
import Virtuals.Routing.Candidates

namespace Virtuals.Routing

open Lib

/-- Joined segments have the same bytes exactly when they are equal under `==`, one by one. -/
theorem joined_eq_iff (k p : Key) :
    (k.map encSeg).flatten = (p.map encSeg).flatten ↔
      k.map KeySegment.norm = p.map KeySegment.norm := by
  rw [encode_eq_iff, sameTuple_iff, List.map_map]
  have hsome : ∀ l : Key, (l.map fun a => some a.norm) = (l.map KeySegment.norm).map some :=
    fun l => by rw [List.map_map]; rfl
  rw [hsome]
  change _ = p.map (fun a => some a.norm) ↔ _
  rw [hsome, (List.map_injective_iff.2 (Option.some_injective _)).eq_iff]

/-- The encoded segments at some positions are the encodings of the segments there. -/
theorem filterMap_encSeg (k : Key) (positions : List Nat) :
    (positions.filterMap fun i => (k.map encSeg)[i]?) =
      (positions.filterMap fun i => k[i]?).map encSeg := by
  rw [List.map_filterMap]
  refine List.filterMap_congr fun i _ => ?_
  rw [List.getElem?_map]

/-- (PROVED) The first, the last and the chosen segments of a key have the bytes of `p` exactly
    when they equal `p` under `==`, and encodable hints with one SET key cover the same keys. -/
theorem key_space :
    (∀ k p : Key,
      (((k.map encSeg).take p.length).flatten = (p.map encSeg).flatten ↔
        (k.take p.length).map KeySegment.norm = p.map KeySegment.norm) ∧
      (((k.map encSeg).drop (k.length - p.length)).flatten = (p.map encSeg).flatten ↔
        (k.drop (k.length - p.length)).map KeySegment.norm = p.map KeySegment.norm) ∧
      ∀ positions : List Nat,
        ((positions.filterMap fun i => (k.map encSeg)[i]?).flatten = (p.map encSeg).flatten ↔
          (positions.filterMap fun i => k[i]?).map KeySegment.norm =
            p.map KeySegment.norm)) ∧
    ∀ (P : Bytes) (g g' : RoutingHint) (e e' : HintEntry), entry g = some e →
      entry g' = some e' → setKey P e = setKey P e' → ∀ key, g.covers key = g'.covers key := by
  refine ⟨fun k p => ⟨?_, ?_, fun positions => ?_⟩, fun P g g' e e' hg hg' hkey => ?_⟩
  · rw [← List.map_take]
    exact joined_eq_iff _ p
  · rw [← List.map_drop]
    exact joined_eq_iff _ p
  · rw [filterMap_encSeg]
    exact joined_eq_iff _ p
  · obtain rfl := setKey_inj ⟨g, hg⟩ ⟨g', hg'⟩ hkey
    exact covers_of_entry hg hg'

end Virtuals.Routing
