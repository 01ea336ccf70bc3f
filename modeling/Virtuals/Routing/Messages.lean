/-
  The messages of one `nu1_route` call.

  Each hash that is a candidate for a key of the batch has one message, on its channel: the header,
  an array header for the number of keys, and the keys it is a candidate for, in the order of the
  batch (`messages_of_channel`). `readArrHdr` is how msgpack reads an array header.
-/
import Virtuals.Routing.Route

namespace Virtuals.Routing

open Lib

variable {P : Bytes} {cm : Cmsgpack} {ix : Index}

/-! ## Array headers -/

/-- The length of a msgpack array, and what follows its header. -/
def readArrHdr : Bytes → Option (Nat × Bytes)
  | [] => none
  | b :: rest =>
    if 0x90 ≤ b ∧ b ≤ 0x9F then some (b.toNat - 0x90, rest)
    else if b = 0xDC then
      match rest with
      | x :: y :: rest => some (x.toNat * 256 + y.toNat, rest)
      | _ => none
    else if b = 0xDD then
      match rest with
      | w :: x :: y :: z :: rest =>
        some (((w.toNat * 256 + x.toNat) * 256 + y.toNat) * 256 + z.toNat, rest)
      | _ => none
    else none

theorem toNat_toUInt8 {n : Nat} (h : n < 256) : n.toUInt8.toNat = n := by
  rw [Nat.toUInt8_eq, UInt8.toNat_ofNat', Nat.mod_eq_of_lt h]

/-- (PROVED) An array header is read back. -/
theorem readArrHdr_arrHdr {n : Nat} (hn : n < 2 ^ 32) (rest : Bytes) :
    readArrHdr (arrHdr n ++ rest) = some (n, rest) := by
  unfold arrHdr
  split_ifs with h1 h2
  · have hb : (0x90 + n).toUInt8.toNat = 0x90 + n := toNat_toUInt8 (by omega)
    have hrange : 0x90 ≤ (0x90 + n).toUInt8 ∧ (0x90 + n).toUInt8 ≤ 0x9F := by
      rw [UInt8.le_iff_toNat_le, UInt8.le_iff_toNat_le, hb]
      exact ⟨Nat.le_add_right _ _, show 144 + n ≤ 159 by omega⟩
    rw [List.cons_append]
    unfold readArrHdr
    dsimp only
    rw [if_pos hrange, hb, List.nil_append, Nat.add_sub_cancel_left]
  · simp only [List.cons_append, List.nil_append]
    unfold readArrHdr
    dsimp only
    rw [if_neg (by decide), if_pos (by decide)]
    simp only [toNat_toUInt8 (show n / 256 < 256 by omega),
      toNat_toUInt8 (show n % 256 < 256 by omega), Option.some.injEq, Prod.mk.injEq, and_true]
    omega
  · simp only [List.cons_append, List.nil_append]
    unfold readArrHdr
    dsimp only
    rw [if_neg (by decide), if_neg (by decide), if_pos (by decide)]
    simp only [toNat_toUInt8 (show n / 16777216 % 256 < 256 by omega),
      toNat_toUInt8 (show n / 65536 % 256 < 256 by omega),
      toNat_toUInt8 (show n / 256 % 256 < 256 by omega),
      toNat_toUInt8 (show n % 256 < 256 by omega), Option.some.injEq, Prod.mk.injEq, and_true]
    omega

/-! ## The batch -/

/-- The keys that `_route_args` puts in a call, packed and encoded. -/
def routed (packb : Key → Option Bytes) (batch : List Key) : List (Bytes × List Bytes) :=
  batch.filterMap fun key => (packb key).map fun packed => (packed, key.map encSeg)

/-- (PROVED) The call reads the batch that was put in its arguments. -/
theorem parseBatch_routeArgs (packb : Key → Option Bytes) (batch : List Key) {fuel : Nat}
    (hfuel : (routeArgs packb batch).length ≤ fuel) :
    parseBatch fuel (routeArgs packb batch) = routed packb batch := by
  induction batch generalizing fuel with
  | nil => cases fuel <;> rfl
  | cons key batch ih =>
    unfold routeArgs routed at *
    rw [List.flatMap_cons, List.filterMap_cons] at *
    rcases hp : packb key with _ | packed
    · simp only [hp, List.nil_append, Option.map_none] at hfuel ⊢
      exact ih hfuel
    · simp only [hp, List.cons_append, List.length_cons, List.length_append] at hfuel
      obtain ⟨fuel, rfl⟩ : ∃ m, fuel = m + 1 := ⟨fuel - 1, by omega⟩
      simp only [List.cons_append, parseBatch, ofDecimal_decimal, Option.map_some]
      rw [List.take_left' (by simp), List.drop_left' (by simp), ih (by omega)]

/-! ## What is collected -/

theorem add_nodup {list hs : List Bytes} (h : list.Nodup) : (add list hs).Nodup := by
  unfold add
  induction hs generalizing list with
  | nil => exact h
  | cons a hs ih =>
    rw [List.foldl_cons]
    refine ih ?_
    split_ifs with ha
    · exact h
    · exact List.Nodup.append h (List.nodup_singleton a) (by simpa using ha)

theorem candidates_nodup (s : List Bytes) : (candidates P ix s).Nodup := by
  unfold candidates
  have hall : ∀ (keys list : List Bytes), list.Nodup →
      (keys.foldl (fun list key => add list (ix.sets key)) list).Nodup := by
    intro keys
    induction keys with
    | nil => exact fun list h => h
    | cons key keys ih => exact fun list h => ih _ (add_nodup h)
  exact hall _ [] List.nodup_nil

theorem foldl_set_get? {v : Bytes} {hs : List Bytes} (hnodup : hs.Nodup)
    (out : PyDict Bytes (List Bytes)) (h : Bytes) :
    (hs.foldl (fun out h => out.set h ((out.get? h).getD [] ++ [v])) out).get? h =
      if h ∈ hs then some ((out.get? h).getD [] ++ [v]) else out.get? h := by
  induction hs generalizing out with
  | nil => simp
  | cons a hs ih =>
    rw [List.nodup_cons] at hnodup
    rw [List.foldl_cons, ih hnodup.2, PyDict.get?_set]
    by_cases ha : h = a
    · subst ha
      simp [hnodup.1]
    · simp [ha]

/-- The packed keys of a batch that `h` is a candidate for. -/
def keysFor (P : Bytes) (ix : Index) (h : Bytes) (batch : List (Bytes × List Bytes)) : List Bytes :=
  (batch.filter fun a => decide (h ∈ candidates P ix a.2)).map Prod.fst

/-- (PROVED) What is collected for a hash: the keys it is a candidate for, in order. -/
theorem collect_get? (batch : List (Bytes × List Bytes)) (h : Bytes) :
    (collect P ix batch).get? h =
      if keysFor P ix h batch = [] then none else some (keysFor P ix h batch) := by
  have hall : ∀ (batch : List (Bytes × List Bytes)) (out : PyDict Bytes (List Bytes)),
      (batch.foldl (collectKey P ix) out).get? h =
        if keysFor P ix h batch = [] then out.get? h
        else some ((out.get? h).getD [] ++ keysFor P ix h batch) := by
    intro batch
    induction batch with
    | nil => exact fun out => rfl
    | cons a batch ih =>
      intro out
      rw [List.foldl_cons, ih, collectKey, foldl_set_get? (candidates_nodup _)]
      by_cases ha : h ∈ candidates P ix a.2
      · have hcons : keysFor P ix h (a :: batch) = a.1 :: keysFor P ix h batch := by
          simp [keysFor, ha]
        rw [hcons, if_pos ha, if_neg (List.cons_ne_nil _ _)]
        split_ifs with hnil
        · rw [hnil]
        · simp
      · have hcons : keysFor P ix h (a :: batch) = keysFor P ix h batch := by
          simp [keysFor, ha]
        rw [hcons, if_neg ha]
  unfold collect
  rw [hall]
  rfl

theorem channel_injective : Function.Injective (channel P) := fun _ _ h =>
  List.append_cancel_left h

/-- The items of a dictionary under one key. -/
theorem items_filter_key {K V : Type} [DecidableEq K] (d : PyDict K V) (k : K) :
    (d.items.filter fun a => decide (a.1 = k)) = ((d.get? k).map fun v => (k, v)).toList := by
  obtain ⟨items, hnodup⟩ := d
  change (items.filter fun a => decide (a.1 = k)) =
    ((PyDict.lookupItem k items).map fun v => (k, v)).toList
  induction items with
  | nil => rfl
  | cons a items ih =>
    obtain ⟨k', v⟩ := a
    rw [List.map_cons, List.nodup_cons] at hnodup
    rw [List.filter_cons, PyDict.lookupItem]
    by_cases hk : k' = k
    · subst hk
      have hnone : (items.filter fun a => decide (a.1 = k')) = [] := by
        rw [List.filter_eq_nil_iff]
        intro a ha h
        exact hnodup.1 (List.mem_map.2 ⟨a, ha, by simpa using h⟩)
      simp [hnone]
    · simp only [hk, decide_false, Bool.false_eq_true, if_false]
      exact ih hnodup.2

/-- (PROVED) The messages on the channel of a hash: one with its keys, or none when it has none. -/
theorem messages_of_channel (hdr : Bytes) (batch : List (Bytes × List Bytes)) (h : Bytes) :
    ((messages P ix hdr batch).filter fun m => decide (m.1 = channel P h)) =
      if keysFor P ix h batch = [] then []
      else [(channel P h, hdr ++ arrHdr (keysFor P ix h batch).length ++
        (keysFor P ix h batch).flatten)] := by
  unfold messages
  have hfilter : ∀ a : Bytes × List Bytes, decide (channel P a.1 = channel P h) =
      decide (a.1 = h) := fun a => decide_eq_decide.2 channel_injective.eq_iff
  rw [List.filter_map]
  simp only [Function.comp_def, hfilter]
  rw [items_filter_key, collect_get?]
  split_ifs <;> rfl

end Virtuals.Routing
