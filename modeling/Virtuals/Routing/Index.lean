/-
  The routing index of `nu_notify.lua` in one Redis server.

  `P` is the channel prefix all clients share. SETs and the counter HASHes are kept by their key;
  `refs` is the one HASH of packed entries. A key is used as a SET or as a HASH, never as both.
  Redis gives the members of a SET and the fields of a HASH in no particular order; here it is that
  of insertion, and no result depends on it. A number of Lua is a `Nat`: those compared or
  printed are at most the number of arguments of one call, far below where a double loses digits.
-/
import Virtuals.Lib.PyDict
import Virtuals.Lib.Tally
import Virtuals.Routing.KeyEnc

namespace Virtuals.Routing

open Lib

/-- `cmsgpack`, on arrays of strings. -/
structure Cmsgpack where
  pack : List Bytes → Bytes
  unpack : Bytes → List Bytes
  unpack_pack : ∀ l, unpack (pack l) = l

structure Index where
  sets : Bytes → List Bytes
  counters : Bytes → PyDict Bytes Int
  refs : Bytes → Option Bytes

namespace Index

def empty : Index := ⟨fun _ => [], fun _ => ∅, fun _ => none⟩

/-- `SADD`. -/
def sadd (ix : Index) (key h : Bytes) : Index :=
  { ix with
    sets := Function.update ix.sets key
      (if h ∈ ix.sets key then ix.sets key else ix.sets key ++ [h]) }

/-- `SREM`. -/
def srem (ix : Index) (key h : Bytes) : Index :=
  { ix with sets := Function.update ix.sets key ((ix.sets key).filter (· ≠ h)) }

/-- `HINCRBY`, with the new value. -/
def hincrby (ix : Index) (key field : Bytes) (n : Int) : Index × Int :=
  let v := ((ix.counters key).get? field).getD 0 + n
  ({ ix with counters := Function.update ix.counters key ((ix.counters key).set field v) }, v)

/-- `HDEL` of a counter. -/
def hdel (ix : Index) (key field : Bytes) : Index :=
  { ix with counters := Function.update ix.counters key ((ix.counters key).erase field) }

end Index

variable (P : Bytes)

/-- `NS`. -/
def NS : Bytes := ascii ":nx1:"

/-- `set_key`. -/
def setKey (e : HintEntry) : Bytes :=
  if e.1 = ascii "a" then P ++ NS ++ ascii "a"
  else P ++ NS ++ e.1 ++ ascii ":" ++ e.2.1 ++ ascii ":" ++ e.2.2

/-- `COUNTER`. -/
def COUNTER (kind : Bytes) : Option Bytes :=
  if kind = ascii "p" then some (ascii "pc")
  else if kind = ascii "s" then some (ascii "sc")
  else if kind = ascii "w" then some (ascii "wc")
  else none

/-- The key of a counter HASH. -/
def counterKey (c : Bytes) : Bytes := P ++ NS ++ c

/-- The triples of a flat array, as the loops of step 3 read them. -/
def triples : List Bytes → List HintEntry
  | kind :: field :: enc :: rest => (kind, field, enc) :: triples rest
  | _ => []

/-- The flat array of triples. -/
def flat (entries : List HintEntry) : List Bytes := entries.flatMap fun e => [e.1, e.2.1, e.2.2]

theorem triples_flat (entries : List HintEntry) : triples (flat entries) = entries := by
  induction entries with
  | nil => rfl
  | cons e entries ih => simpa [flat, triples] using ih

/-! ## Registering -/

/-- One turn of the loop of `reg`. -/
def regEntry (h : Bytes) (ix : Index) (e : HintEntry) : Index :=
  let ix := ix.sadd (setKey P e) h
  match COUNTER e.1 with
  | some c => (ix.hincrby (counterKey P c) e.2.1 1).1
  | none => ix

/-- One turn of the loop of `unreg`. -/
def unregEntry (h : Bytes) (ix : Index) (e : HintEntry) : Index :=
  let ix := ix.srem (setKey P e) h
  match COUNTER e.1 with
  | some c =>
    let (ix, n) := ix.hincrby (counterKey P c) e.2.1 (-1)
    if n ≤ 0 then ix.hdel (counterKey P c) e.2.1 else ix
  | none => ix

variable (cm : Cmsgpack)

/-- `nu1_reg`, on the arguments after `P` and `h`. -/
def reg (h : Bytes) (args : List Bytes) (ix : Index) : Index × Nat :=
  if (ix.refs h).isSome = true then (ix, 0)
  else
    let entries := triples args
    let ix := entries.foldl (regEntry P h) ix
    ({ ix with refs := Function.update ix.refs h (some (cm.pack (flat entries))) }, 1)

/-- `unreg`. -/
def unreg (h : Bytes) (ix : Index) : Index :=
  match ix.refs h with
  | none => ix
  | some packed =>
    let ix := (triples (cm.unpack packed)).foldl (unregEntry P h) ix
    { ix with refs := Function.update ix.refs h none }

/-! ## What the index says -/

/-- The entries a record holds. -/
def recorded : Option Bytes → List HintEntry
  | none => []
  | some packed => triples (cm.unpack packed)

/-- The entries `refs` records for `h`. -/
def Index.entriesOf (ix : Index) (h : Bytes) : List HintEntry := recorded cm (ix.refs h)

/-- SETs and counters say that the entries of each `h` are `R h`. -/
structure Indexed (ix : Index) (R : Bytes → List HintEntry) : Prop where
  sets : ∀ key h, h ∈ ix.sets key ↔ ∃ e ∈ R h, setKey P e = key
  counters : ∀ c field, ∃ n : Nat,
    Tally (fun x : Bytes × HintEntry => x.2 ∈ R x.1 ∧ COUNTER x.2.1 = some c ∧ x.2.2.1 = field) n ∧
      (ix.counters (counterKey P c)).get? field = if n = 0 then none else some (n : Int)

theorem counterKey_injective : Function.Injective (counterKey P) := fun _ _ h =>
  List.append_cancel_left h

variable {P cm} {ix : Index} {R : Bytes → List HintEntry}

theorem mem_sadd {key h key' h' : Bytes} :
    h' ∈ (ix.sadd key h).sets key' ↔ h' ∈ ix.sets key' ∨ (key' = key ∧ h' = h) := by
  by_cases hk : key' = key
  · subst hk
    simp only [Index.sadd, Function.update_self]
    split_ifs with hm
    · exact ⟨Or.inl, fun h => h.elim id fun h => h.2 ▸ hm⟩
    · simp
  · simp [Index.sadd, hk]

theorem mem_srem {key h key' h' : Bytes} :
    h' ∈ (ix.srem key h).sets key' ↔ h' ∈ ix.sets key' ∧ ¬ (key' = key ∧ h' = h) := by
  by_cases hk : key' = key
  · subst hk
    simp [Index.srem]
  · simp [Index.srem, hk]

theorem regEntry_sets (h : Bytes) (e : HintEntry) :
    (regEntry P h ix e).sets = (ix.sadd (setKey P e) h).sets := by
  unfold regEntry
  dsimp only
  split <;> rfl

theorem unregEntry_sets (h : Bytes) (e : HintEntry) :
    (unregEntry P h ix e).sets = (ix.srem (setKey P e) h).sets := by
  unfold unregEntry Index.hincrby
  dsimp only
  split
  · split_ifs <;> rfl
  · rfl

theorem regEntry_refs (h : Bytes) (e : HintEntry) : (regEntry P h ix e).refs = ix.refs := by
  unfold regEntry
  dsimp only
  split <;> rfl

theorem unregEntry_refs (h : Bytes) (e : HintEntry) : (unregEntry P h ix e).refs = ix.refs := by
  unfold unregEntry Index.hincrby
  dsimp only
  split
  · split_ifs <;> rfl
  · rfl

/-- The counters after an entry was added. -/
theorem regEntry_counters (h : Bytes) (e : HintEntry) (c field : Bytes) :
    ((regEntry P h ix e).counters (counterKey P c)).get? field =
      if COUNTER e.1 = some c ∧ e.2.1 = field then
        some (((ix.counters (counterKey P c)).get? field).getD 0 + 1)
      else (ix.counters (counterKey P c)).get? field := by
  unfold regEntry
  dsimp only
  split
  · rename_i d hd
    by_cases hc : c = d
    · subst hc
      by_cases hf : field = e.2.1
      · subst hf
        simp [Index.hincrby, Index.sadd, hd]
      · simp [Index.hincrby, Index.sadd, PyDict.get?_set_of_ne _ _ hf, Ne.symm hf]
    · have hkey : counterKey P c ≠ counterKey P d := fun h => hc (counterKey_injective P h)
      have hne : ¬ (COUNTER e.1 = some c ∧ e.2.1 = field) := fun h =>
        hc (Option.some.inj (h.1.symm.trans hd))
      rw [if_neg hne]
      simp [Index.hincrby, Index.sadd, hkey]
  · rename_i hd
    rw [if_neg (by simp [hd])]
    rfl

/-- The counters after an entry was removed. -/
theorem unregEntry_counters (h : Bytes) (e : HintEntry) (c field : Bytes) :
    ((unregEntry P h ix e).counters (counterKey P c)).get? field =
      if COUNTER e.1 = some c ∧ e.2.1 = field then
        if ((ix.counters (counterKey P c)).get? field).getD 0 - 1 ≤ 0 then none
        else some (((ix.counters (counterKey P c)).get? field).getD 0 - 1)
      else (ix.counters (counterKey P c)).get? field := by
  unfold unregEntry
  dsimp only
  split
  · rename_i d hd
    by_cases hc : c = d
    · subst hc
      by_cases hf : field = e.2.1
      · subst hf
        by_cases hn : ((ix.counters (counterKey P c)).get? e.2.1).getD 0 ≤ 1
        · simp [Index.hincrby, Index.srem, Index.hdel, hd, hn]
        · simp [Index.hincrby, Index.srem, hd, hn, sub_eq_add_neg]
      · have hne : ¬ (COUNTER e.1 = some c ∧ e.2.1 = field) := fun h => hf h.2.symm
        rw [if_neg hne]
        by_cases hn : ((ix.counters (counterKey P c)).get? e.2.1).getD 0 ≤ 1
        · simp [Index.hincrby, Index.srem, Index.hdel, hn, PyDict.get?_erase_of_ne _ hf,
            PyDict.get?_set_of_ne _ _ hf]
        · simp [Index.hincrby, Index.srem, hn, PyDict.get?_set_of_ne _ _ hf]
    · have hkey : counterKey P c ≠ counterKey P d := fun h => hc (counterKey_injective P h)
      have hne : ¬ (COUNTER e.1 = some c ∧ e.2.1 = field) := fun h =>
        hc (Option.some.inj (h.1.symm.trans hd))
      rw [if_neg hne]
      by_cases hn : ((ix.counters (counterKey P d)).get? e.2.1).getD 0 ≤ 1
      · simp [Index.hincrby, Index.srem, Index.hdel, hn, hkey]
      · simp [Index.hincrby, Index.srem, hn, hkey]
  · rename_i hd
    rw [if_neg (by simp [hd])]
    rfl

end Virtuals.Routing
