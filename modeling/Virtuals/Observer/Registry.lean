/-
  `tkv/observer/registry.py`: subscriptions found by the key.

  A subscription is entered into indexes by the shape of its filter: a leaf by its prefix, suffix,
  length or fixed segments, an And by its first member, an Or by every member, any other filter into
  the set that is asked about every key. `match` gathers the subscriptions that the indexes name for a
  key and keeps those whose filter matches it. Keys of dicts are compared with `==`, so an index holds
  what `==` compares.
-/
import Virtuals.Lib.Buckets
import Virtuals.Lib.PyDict
import Virtuals.Routing.Filter

namespace Virtuals.Observer

open Virtuals.Lib Virtuals.Routing

/-! ## Filters of any class -/

/-- A filter: of a class that the registry indexes, or of another one (PassAll, PassNone and the classes
of a user's own), which is what it matches. -/
inductive AnyFilter where
  | prefixFilter (segments : List Segment)
  | suffixFilter (segments : List Segment)
  | lengthFilter (length : Int)
  | wildcardFilter (pattern : List Segment)
  | and (filters : List AnyFilter)
  | or (filters : List AnyFilter)
  | other (matchesKey : Key → Bool)

namespace AnyFilter

mutual

/-- `matches`. -/
def matchesKey : AnyFilter → Key → Bool
  | .prefixFilter s, key => (Filter.prefixFilter s).matchesKey key
  | .suffixFilter s, key => (Filter.suffixFilter s).matchesKey key
  | .lengthFilter n, key => (Filter.lengthFilter n).matchesKey key
  | .wildcardFilter pattern, key => (Filter.wildcardFilter pattern).matchesKey key
  | .and fs, key => allMatch fs key
  | .or fs, key => anyMatch fs key
  | .other p, key => p key

def allMatch : List AnyFilter → Key → Bool
  | [], _ => true
  | f :: fs, key => f.matchesKey key && allMatch fs key

def anyMatch : List AnyFilter → Key → Bool
  | [], _ => false
  | f :: fs, key => f.matchesKey key || anyMatch fs key

end

end AnyFilter

/-! ## The registry -/

/-- A tuple of segments as a key of a dict. -/
abbrev TupleKey := List (Option (Int ⊕ PyStr))

/-- A filter's segments as a key of a dict. -/
def tupleKey (segments : List Segment) : TupleKey := segments.map fun s => s.map KeySegment.norm

/-- A key, or a part of one, as a key of a dict. -/
def keyTuple (key : Key) : TupleKey := key.map fun a => some a.norm

/-- What a lookup in a dict or a tuple raises. -/
inductive LookupError
  | keyError
  | indexError
  deriving DecidableEq

/-- `SubscriptionRegistry`. -/
structure Registry (Sub : Type) where
  /-- `_prefix_index` -/
  prefixIndex : Buckets TupleKey Sub
  /-- `_suffix_index` -/
  suffixIndex : Buckets TupleKey Sub
  /-- `_length_index` -/
  lengthIndex : Buckets Int Sub
  /-- `_wildcard_index` -/
  wildcardIndex : Table (Nat × List Nat) (Buckets TupleKey Sub)
  /-- `_wildcard_sigs` -/
  wildcardSigs : Table Nat (PyDict (List Nat) Nat)
  /-- `_composite_subscriptions` -/
  composite : Finset Sub
  /-- `_unindexed_subscriptions` -/
  unindexed : Finset Sub
  /-- `_all_subscriptions` -/
  all : Finset Sub

namespace Registry

variable {Sub : Type}

/-- A registry just made. -/
def empty : Registry Sub := ⟨∅, ∅, ∅, ∅, ∅, ∅, ∅, ∅⟩

variable [DecidableEq Sub]

/-- `_wildcard_signature`: the fixed positions and their values. -/
def wildcardSignature (pattern : List Segment) : List Nat × TupleKey :=
  ((Filter.fixedOf pattern).map Prod.fst, tupleKey ((Filter.fixedOf pattern).map Prod.snd))

/-- A wildcard filter entered by its length and signature. -/
def indexWildcard (sub : Sub) (n : Nat) (signature : List Nat × TupleKey) (r : Registry Sub) :
    Registry Sub :=
  match r.wildcardIndex.get? (n, signature.1) with
  | none =>
    let sigs := (r.wildcardSigs.get? n).getD PyDict.empty
    { r with
      wildcardIndex := r.wildcardIndex.put (n, signature.1) (Buckets.add ∅ signature.2 sub)
      wildcardSigs := r.wildcardSigs.put n
        (sigs.set signature.1 ((sigs.get? signature.1).getD 0 + 1)) }
  | some byValues =>
    { r with wildcardIndex := r.wildcardIndex.put (n, signature.1) (byValues.add signature.2 sub) }

mutual

/-- `_index_filter`. -/
def indexFilter (sub : Sub) : AnyFilter → Registry Sub → Registry Sub
  | .prefixFilter s, r => { r with prefixIndex := r.prefixIndex.add (tupleKey s) sub }
  | .suffixFilter s, r => { r with suffixIndex := r.suffixIndex.add (tupleKey s) sub }
  | .lengthFilter n, r => { r with lengthIndex := r.lengthIndex.add n sub }
  | .wildcardFilter pattern, r => indexWildcard sub pattern.length (wildcardSignature pattern) r
  | .and fs, r => indexFirst sub fs { r with composite := insert sub r.composite }
  | .or fs, r => indexAll sub fs { r with composite := insert sub r.composite }
  | .other _, r => { r with unindexed := insert sub r.unindexed }

/-- The first member of an And is indexed, if there is one. -/
def indexFirst (sub : Sub) : List AnyFilter → Registry Sub → Registry Sub
  | [], r => r
  | f :: _, r => indexFilter sub f r

/-- All members of an Or are indexed. -/
def indexAll (sub : Sub) : List AnyFilter → Registry Sub → Registry Sub
  | [], r => r
  | f :: fs, r => indexAll sub fs (indexFilter sub f r)

end

/-- The signature of a wildcard index that is gone. -/
def dropSignature (n : Nat) (positions : List Nat) (r : Registry Sub) :
    Except LookupError (Registry Sub) :=
  match r.wildcardSigs.get? n with
  | none => .error .keyError
  | some sigs =>
    if (sigs.get? positions).isNone then .error .keyError
    else
      let sigs := sigs.erase positions
      .ok { r with wildcardSigs :=
        if sigs.items = [] then r.wildcardSigs.erase n else r.wildcardSigs.put n sigs }

/-- The values of a signature with one subscription less. -/
def discardValues (sub : Sub) (values : TupleKey) (byValues : Buckets TupleKey Sub) :
    Buckets TupleKey Sub :=
  match byValues.get? values with
  | none => byValues
  | some subs =>
    if subs.erase sub = ∅ then byValues.erase values else byValues.put values (subs.erase sub)

/-- A wildcard filter taken out again. -/
def unindexWildcard (sub : Sub) (n : Nat) (signature : List Nat × TupleKey) (r : Registry Sub) :
    Except LookupError (Registry Sub) :=
  match r.wildcardIndex.get? (n, signature.1) with
  | none => .ok r
  | some byValues =>
    let byValues := discardValues sub signature.2 byValues
    if byValues.keys = ∅ then
      dropSignature n signature.1
        { r with wildcardIndex := r.wildcardIndex.erase (n, signature.1) }
    else .ok { r with wildcardIndex := r.wildcardIndex.put (n, signature.1) byValues }

mutual

/-- `_unindex_filter`. -/
def unindexFilter (sub : Sub) : AnyFilter → Registry Sub → Except LookupError (Registry Sub)
  | .prefixFilter s, r => .ok { r with prefixIndex := r.prefixIndex.discard (tupleKey s) sub }
  | .suffixFilter s, r => .ok { r with suffixIndex := r.suffixIndex.discard (tupleKey s) sub }
  | .lengthFilter n, r => .ok { r with lengthIndex := r.lengthIndex.discard n sub }
  | .wildcardFilter pattern, r => unindexWildcard sub pattern.length (wildcardSignature pattern) r
  | .and fs, r => unindexFirst sub fs { r with composite := r.composite.erase sub }
  | .or fs, r => unindexAll sub fs { r with composite := r.composite.erase sub }
  | .other _, r => .ok { r with unindexed := r.unindexed.erase sub }

def unindexFirst (sub : Sub) : List AnyFilter → Registry Sub → Except LookupError (Registry Sub)
  | [], r => .ok r
  | f :: _, r => unindexFilter sub f r

def unindexAll (sub : Sub) : List AnyFilter → Registry Sub → Except LookupError (Registry Sub)
  | [], r => .ok r
  | f :: fs, r => unindexFilter sub f r >>= unindexAll sub fs

end

variable (filterOf : Sub → AnyFilter)

/-- `add`. -/
def add (sub : Sub) (r : Registry Sub) : Registry Sub :=
  if sub ∈ r.all then r
  else indexFilter sub (filterOf sub) { r with all := insert sub r.all }

/-- `remove`. -/
def remove (sub : Sub) (r : Registry Sub) : Except LookupError (Registry Sub) :=
  if sub ∉ r.all then .ok r
  else unindexFilter sub (filterOf sub) { r with all := r.all.erase sub }

/-! ## Matching -/

/-- `tuple(key[p] for p in positions)`. -/
def valuesAt (key : Key) : List Nat → Except LookupError TupleKey
  | [] => .ok []
  | p :: positions => do
    match key[p]? with
    | none => .error .indexError
    | some a => return some a.norm :: (← valuesAt key positions)

/-- The subscriptions with one signature. -/
def wildcardMatches (r : Registry Sub) (key : Key) (positions : List Nat) :
    Except LookupError (Finset Sub) :=
  match r.wildcardIndex.get? (key.length, positions) with
  | none => .error .keyError
  | some byValues => byValues.members <$> valuesAt key positions

/-- The subscriptions of every signature of the key's length. -/
def matchSignatures (r : Registry Sub) (key : Key) : List (List Nat) →
    Except LookupError (Finset Sub)
  | [] => .ok ∅
  | positions :: rest => do
    let subs ← wildcardMatches r key positions
    return subs ∪ (← matchSignatures r key rest)

/-- What the indexes name for a key. -/
def candidates (r : Registry Sub) (key : Key) : Except LookupError (Finset Sub) := do
  let cuts := Finset.range (key.length + 1)
  let prefixes := cuts.biUnion fun i => r.prefixIndex.members (keyTuple (key.take i))
  let suffixes := cuts.biUnion fun i => r.suffixIndex.members (keyTuple (key.drop i))
  let sigs := ((r.wildcardSigs.get? key.length).getD PyDict.empty).keys
  let wildcards ← matchSignatures r key sigs
  return prefixes ∪ suffixes ∪ r.lengthIndex.members key.length ∪ wildcards ∪
    r.unindexed.filter fun sub => (filterOf sub).matchesKey key = true

/-- `match`: the candidates whose filter matches. -/
def matchKey (r : Registry Sub) (key : Key) : Except LookupError (Finset Sub) :=
  (Finset.filter fun sub => (filterOf sub).matchesKey key = true) <$> r.candidates filterOf key

end Registry

end Virtuals.Observer
