/-
  `container/container_ops.py`, `container/meta_ops.py`: containers, their children and their metadata
  as rows of one storage.

  A site is a path of key segments; a container's marker, its primitive children and the subtrees of
  its compound children lie under `/`, its metadata under `/m` at the same path. Keys are those the
  storage's codec takes, in the codec's order: an int below a string. A deletion that scans while it
  deletes finds what a scan before it finds, since each key is deleted after the scan has passed it.
-/
import Virtuals.KeyCodec.Binary
import Virtuals.Lib.Coupled
import Virtuals.Lib.Subtree

namespace Virtuals.Container

open Lib KeyCodec

/-- What a container operation raises. -/
inductive ContainerError
  | containerNotFound
  | containerType
  | containerExists
  | valueError
  deriving DecidableEq

/-- `SiteSegment`, `Site`. -/
abbrev Site := List KeySegment

/-- A container marker. -/
structure Marker where
  structureId : Nat
  protocol : Nat
  deriving DecidableEq

/-- What a row holds. -/
inductive Row (V : Type)
  | marker (m : Marker)
  | primitive (value : V)
  deriving DecidableEq

/-- The rows of the storage. -/
abbrev Store (V : Type) := Table Site (Row V)

/-- An operation on the storage. -/
abbrev Op (V α : Type) := EStateM ContainerError (Store V) α

def DATA_ROOT : KeySegment := .str (pyStr "/")

def METADATA_ROOT : KeySegment := .str (pyStr "/m")

variable {V : Type}

/-! ## Rows -/

def putRow (site : Site) (row : Row V) : Op V Unit := modify fun s => s.put site row

def deleteRow (site : Site) : Op V Unit := modify fun s => s.erase site

/-- `get_node_info`. -/
def getNodeInfo (site : Site) : Op V (Option (Row V)) := (fun s => s.get? site) <$> get

/-- `validate_is_container`, of a row that was read. -/
def requireMarker : Option (Row V) → Option ContainerError
  | none => some .containerNotFound
  | some (.primitive _) => some .containerType
  | some (.marker _) => none

/-- `validate_is_container`. -/
def validateIsContainer (site : Site) : Op V Unit := do
  let info ← getNodeInfo site
  raiseIf (requireMarker info)

/-! ## Containers -/

/-- `validate_compatible`: the same structure, and a protocol flag in common. -/
def compatible (found expected : Marker) : Bool :=
  decide (found.structureId = expected.structureId) &&
    decide (expected.protocol &&& found.protocol ≠ 0)

/-- `create_container`. -/
def createContainer (site : Site) (marker : Marker) (validateParent : Bool) : Op V Unit := do
  let info ← getNodeInfo site
  match info with
  | some (.primitive _) => throw .containerType
  | some (.marker m) => raiseIf (if compatible m marker then none else some .containerExists)
  | none => do
    onlyIf (validateParent && decide (1 < site.length)) (validateIsContainer site.dropLast)
    putRow site (.marker marker)

/-- `_delete_subtree`. -/
def deleteSubtree (site : Site) : Op V Unit := modify fun s => s.eraseUnder site

/-- The metadata tree's path of a site. -/
def metaSite (site : Site) : Site := METADATA_ROOT :: site.tail

/-- `delete_descendants`. -/
def deleteDescendants (site : Site) : Op V Unit := do
  deleteSubtree site
  onlyIf (decide (site.head? = some DATA_ROOT)) (deleteSubtree (metaSite site))

/-- `delete_container`. -/
def deleteContainer (site : Site) : Op V Unit := do
  let info ← getNodeInfo site
  match info with
  | none => pure ()
  | some (.primitive _) => throw .containerType
  | some (.marker _) => deleteDescendants site

/-- `move_child_subtree`. -/
def moveChildSubtree (parent : Site) (src dst : KeySegment) : Op V Unit := do
  if src = dst then pure () else do
    let s ← get
    (s.scanPaths (Table.under (parent ++ [src]))).forM fun key => do
      match s.get? key with
      | none => pure ()
      | some row => do
        putRow (parent ++ dst :: key.drop (parent.length + 1)) row
        deleteRow key

/-! ## Children -/

/-- `PrefixFilter(site) & LengthFilter(len(site) + 1)`. -/
def isChildOf (site key : Site) : Bool :=
  site.isPrefixOf key && decide (key.length = site.length + 1)

/-- `_child_scan_options`, forward. -/
def childScan (site : Site) : PathScan KeySegment where
  start := site
  within := site
  maxDepth := some (site.length + 1)
  keep := isChildOf site

/-- `iter_child_keys`. -/
def iterChildKeys (site : Site) : Op V (List KeySegment) :=
  (fun s => (s.scanPaths (childScan site)).filterMap List.getLast?) <$> get

/-- `create_child_container`. -/
def createChildContainer (parent : Site) (key : KeySegment) (marker : Marker) (validate : Bool) :
    Op V Unit := createContainer (parent ++ [key]) marker validate

/-- `reject_empty_value`: EMPTY, or a value with EMPTY inside, stands for `none`. -/
def rejectEmptyValue : Option V → Option ContainerError
  | none => some .valueError
  | some _ => none

/-- Write a primitive, if it is one to write. -/
def putValue (site : Site) : Option V → Op V Unit
  | none => pure ()
  | some value => putRow site (.primitive value)

/-- `put_child_primitive`. -/
def putChildPrimitive (parent : Site) (key : KeySegment) (value : Option V)
    (validate validateParent : Bool) : Op V Unit := do
  raiseIf (rejectEmptyValue value)
  onlyIf validateParent (validateIsContainer parent)
  let info ← getNodeInfo (parent ++ [key])
  raiseIf (match info with
    | some (.marker _) => if validate then some .containerType else none
    | _ => none)
  putValue (parent ++ [key]) value

/-- `put_child_primitive_unsafe`. -/
def putChildPrimitiveUnsafe (parent : Site) (key : KeySegment) (value : Option V) : Op V Unit := do
  raiseIf (rejectEmptyValue value)
  putValue (parent ++ [key]) value

/-- What `delete_child` does to a child of the kind it found. -/
def deleteFound (site : Site) : Option (Row V) → Op V Unit
  | none => pure ()
  | some (.marker _) => deleteDescendants site
  | some (.primitive _) => deleteRow site

/-- `delete_child`. -/
def deleteChild (parent : Site) (key : KeySegment) : Op V Unit := do
  validateIsContainer parent
  let info ← getNodeInfo (parent ++ [key])
  deleteFound (parent ++ [key]) info

/-- `delete_child_primitive_unsafe`. -/
def deleteChildPrimitiveUnsafe (parent : Site) (key : KeySegment) : Op V Unit :=
  deleteRow (parent ++ [key])

/-- `clear_children`. -/
def clearChildren (site : Site) (validate : Bool) : Op V Unit := do
  onlyIf validate (validateIsContainer site)
  let keys ← iterChildKeys site
  keys.forM (deleteChild site)

/-- `clear_children_primitives_unsafe`. -/
def clearChildrenPrimitivesUnsafe (site : Site) : Op V Unit := do
  let s ← get
  (s.scanPaths (childScan site)).forM deleteRow

/-! ## Metadata -/

/-- `put_metadata`. -/
def putMetadata (site : Site) (key : KeySegment) (value : Option V) : Op V Unit := do
  raiseIf (rejectEmptyValue value)
  putValue (metaSite site ++ [key]) value

/-- `get_metadata`: the row, `none` for the default. -/
def getMetadata (site : Site) (key : KeySegment) : Op V (Option (Row V)) :=
  getNodeInfo (metaSite site ++ [key])

/-- `exists_metadata`. -/
def existsMetadata (site : Site) (key : KeySegment) : Op V Bool :=
  Option.isSome <$> getMetadata site key

/-- `delete_metadata`. -/
def deleteMetadata (site : Site) (key : KeySegment) : Op V Unit :=
  deleteRow (metaSite site ++ [key])

/-- The scan of `iter_metadata_keys`: it starts at the empty string. -/
def metadataScan (site : Site) : PathScan KeySegment where
  start := metaSite site ++ [.str []]
  within := metaSite site
  maxDepth := some ((metaSite site).length + 1)
  keep := isChildOf (metaSite site)

/-- `iter_metadata_keys`. -/
def iterMetadataKeys (site : Site) : Op V (List KeySegment) :=
  (fun s => (s.scanPaths (metadataScan site)).filterMap List.getLast?) <$> get

/-! ## Rows in place -/

theorem isChildOf_iff {site key : Site} : isChildOf site key = true ↔ ∃ k, key = site ++ [k] := by
  rw [isChildOf, Bool.and_eq_true, List.isPrefixOf_iff_prefix, decide_eq_true_iff]
  constructor
  · rintro ⟨⟨rest, rfl⟩, hlen⟩
    rw [List.length_append, Nat.add_left_cancel_iff] at hlen
    obtain ⟨k, rfl⟩ := List.length_eq_one_iff.1 hlen
    exact ⟨k, rfl⟩
  · rintro ⟨k, rfl⟩
    exact ⟨List.prefix_append _ _, by simp⟩

theorem getNodeInfo_apply (site : Site) (s : Store V) :
    getNodeInfo site s = .ok (s.get? site) s := rfl

end Virtuals.Container
