/-
  The routing index among clients and publishers of one Redis server.

  A step is one command or one library call, by any party; `hints h` are those of the filter with
  the hash `h`. A client that subscribed to the channel of a hash and then registered it receives
  every covered key of every later route as long as it does not unsubscribe: the index cannot lose
  the hash meanwhile, since only a route that reaches no subscriber of its channel removes it
  (`index_serves`). A connection that ends is an UNSUBSCRIBE of each of its channels.
-/
import Virtuals.Routing.Soundness

namespace Virtuals.Routing

open Lib

/-- A step at the server. -/
inductive Act (Client : Type) where
  | subscribe (c : Client) (ch : Bytes)
  | unsubscribe (c : Client) (ch : Bytes)
  | reg (c : Client) (h : Bytes)
  | route (hdr : Bytes) (batch : List Key)

structure Server (Client : Type) where
  index : Index
  subscribers : Bytes → Finset Client

variable {Client : Type}
variable (P : Bytes) (cm : Cmsgpack) (packb : Key → Option Bytes)
  (hints : Bytes → List RoutingHint)

namespace Server

def empty : Server Client := ⟨.empty, fun _ => ∅⟩

/-- The entries of the hashes that `refs` has. -/
def registered (s : Server Client) (h : Bytes) : List HintEntry :=
  if s.index.refs h = none then [] else hintEntries (hints h)

variable [DecidableEq Client]

/-- What PUBLISH returns. -/
def receivers (s : Server Client) (ch : Bytes) : Nat := (s.subscribers ch).card

/-- The server after a step. -/
def step (s : Server Client) : Act Client → Server Client
  | .subscribe c ch =>
    { s with subscribers := Function.update s.subscribers ch (insert c (s.subscribers ch)) }
  | .unsubscribe c ch =>
    { s with subscribers := Function.update s.subscribers ch ((s.subscribers ch).erase c) }
  | .reg _ h => { s with index := (reg P cm h (flat (hintEntries (hints h))) s.index).1 }
  | .route hdr batch =>
    { s with index := (Routing.route P cm s.index hdr (routeArgs packb batch) s.receivers).1 }

/-- The server after steps in any order, from an empty one. -/
def run (acts : List (Act Client)) : Server Client := acts.foldl (step P cm packb hints) empty

/-- The messages `c` receives from a route call. -/
def received (s : Server Client) (c : Client) (hdr : Bytes) (batch : List Key) :
    List (Bytes × Bytes) :=
  (Routing.route P cm s.index hdr (routeArgs packb batch) s.receivers).2.1.filter fun m =>
    decide (c ∈ s.subscribers m.1)

/-! ## One step -/

variable {s : Server Client}

variable {P cm} in
theorem unreg_refs (ix : Index) (h h' : Bytes) :
    (unreg P cm h ix).refs h' = if h' = h then none else ix.refs h' := by
  by_cases hp : ix.refs h = none
  · unfold unreg
    rw [hp]
    split_ifs with he
    · rw [he]
      exact hp
    · rfl
  · rw [unreg_of_present hp]
    exact Function.update_apply _ _ _ _

variable {P cm} in
theorem reg_refs (ix : Index) (h h' : Bytes) (g : List RoutingHint) :
    (reg P cm h (flat (hintEntries g)) ix).1.refs h' =
      if h' = h ∧ ix.refs h = none then some (cm.pack (flat (hintEntries g))) else ix.refs h' := by
  rcases hp : ix.refs h with _ | packed
  · rw [reg_of_absent hp]
    simp [Function.update_apply]
  · unfold reg
    simp [hp]

variable {P cm} in
/-- The published hashes without a receiver leave `refs`, the others stay. -/
theorem publish_refs (receivers : Bytes → Nat) (hs : List Bytes) (a : Index × Nat) (h : Bytes) :
    (hs.foldl (publishOne P cm receivers) a).1.refs h =
      if h ∈ hs ∧ receivers (channel P h) = 0 then none else a.1.refs h := by
  induction hs generalizing a with
  | nil => simp
  | cons h' hs ih =>
    have hone : (publishOne P cm receivers a h').1.refs h =
        if h = h' ∧ receivers (channel P h') = 0 then none else a.1.refs h := by
      unfold publishOne
      split_ifs <;> simp_all [unreg_refs]
    rw [List.foldl_cons, ih, hone]
    by_cases he : h = h'
    · subst he
      by_cases hz : receivers (channel P h) = 0 <;> simp [hz]
    · simp [he]

/-- (PROVED) What a step does to the record of a hash. -/
theorem step_refs (a : Act Client) (h : Bytes) :
    (s.step P cm packb hints a).index.refs h = s.index.refs h ∨
    ((s.step P cm packb hints a).index.refs h =
      some (cm.pack (flat (hintEntries (hints h)))) ∧ ∃ c, a = .reg c h) ∨
    ((s.step P cm packb hints a).index.refs h = none ∧ s.subscribers (channel P h) = ∅ ∧
      ∃ hdr batch, a = .route hdr batch ∧ ∃ payload, (channel P h, payload) ∈
        (Routing.route P cm s.index hdr (routeArgs packb batch) s.receivers).2.1) := by
  cases a with
  | subscribe c ch => exact Or.inl rfl
  | unsubscribe c ch => exact Or.inl rfl
  | reg c h' =>
    simp only [step, reg_refs]
    split_ifs with hh
    · refine Or.inr (Or.inl ⟨?_, c, ?_⟩)
      · rw [hh.1]
      · rw [hh.1]
    · exact Or.inl rfl
  | route hdr batch =>
    simp only [step, Routing.route, publish_refs]
    split_ifs with hh
    · obtain ⟨hmem, hzero⟩ := hh
      refine Or.inr (Or.inr ⟨rfl, Finset.card_eq_zero.1 hzero, hdr, batch, rfl, ?_⟩)
      obtain ⟨item, hitem, rfl⟩ := List.mem_map.1 hmem
      exact ⟨_, List.mem_map.2 ⟨item, hitem, rfl⟩⟩
    · exact Or.inl rfl

theorem mem_subscribers_step {c : Client} {ch : Bytes} (hc : c ∈ s.subscribers ch)
    {a : Act Client} (ha : a ≠ .unsubscribe c ch) :
    c ∈ (s.step P cm packb hints a).subscribers ch := by
  cases a with
  | subscribe c' ch' =>
    simp only [step, Function.update_apply]
    split_ifs with he
    · rw [← he]
      exact Finset.mem_insert_of_mem hc
    · exact hc
  | unsubscribe c' ch' =>
    simp only [step, Function.update_apply]
    split_ifs with he
    · subst he
      refine Finset.mem_erase.2 ⟨?_, hc⟩
      rintro rfl
      exact ha rfl
    · exact hc
  | reg c' h => exact hc
  | route hdr batch => exact hc

/-! ## Runs -/

variable {P cm packb hints}

/-- What every run keeps: the index is consistent, and a record is that of the hash's hints. -/
structure Kept (P : Bytes) (cm : Cmsgpack) (hints : Bytes → List RoutingHint)
    (s : Server Client) : Prop where
  consistent : Consistent P cm s.index
  refs : ∀ h, s.index.refs h = none ∨
    s.index.refs h = some (cm.pack (flat (hintEntries (hints h))))

theorem Kept.step (hs : s.Kept P cm hints) (a : Act Client) :
    (s.step P cm packb hints a).Kept P cm hints where
  consistent := by
    cases a with
    | subscribe c ch => exact hs.consistent
    | unsubscribe c ch => exact hs.consistent
    | reg c h => exact consistent_reg hs.consistent h (hints h)
    | route hdr batch => exact Index.consistent_route hs.consistent hdr _ _
  refs h := by
    rcases step_refs P cm packb hints a h with he | ⟨he, -⟩ | ⟨he, -⟩
    · rw [he]
      exact hs.refs h
    · exact Or.inr he
    · exact Or.inl he

theorem Kept.foldl (hs : s.Kept P cm hints) (acts : List (Act Client)) :
    (acts.foldl (Server.step P cm packb hints) s).Kept P cm hints := by
  induction acts generalizing s with
  | nil => exact hs
  | cons a acts ih => exact ih (hs.step a)

theorem kept_run (acts : List (Act Client)) : (run P cm packb hints acts).Kept P cm hints :=
  Kept.foldl ⟨consistent_empty, fun _ => Or.inl rfl⟩ acts

omit [DecidableEq Client] in
theorem Kept.entriesOf (hs : s.Kept P cm hints) : s.index.entriesOf cm = s.registered hints := by
  funext h
  unfold Index.entriesOf registered
  rcases hs.refs h with he | he
  · rw [he, if_pos rfl]
    rfl
  · rw [he, if_neg (by simp), recorded, cm.unpack_pack, triples_flat]

variable (cm packb hints)

/-- A subscribed client stays subscribed, and the hash it has registered stays in the index. -/
theorem serving_foldl {c : Client} {h : Bytes} (hc : c ∈ s.subscribers (channel P h))
    {acts : List (Act Client)} (hno : .unsubscribe c (channel P h) ∉ acts) :
    c ∈ (acts.foldl (step P cm packb hints) s).subscribers (channel P h) ∧
      (s.index.refs h ≠ none → (acts.foldl (step P cm packb hints) s).index.refs h ≠ none) := by
  induction acts generalizing s with
  | nil => exact ⟨hc, id⟩
  | cons a acts ih =>
    rw [List.mem_cons, not_or] at hno
    have hrest := ih (mem_subscribers_step P cm packb hints hc (Ne.symm hno.1)) hno.2
    refine ⟨hrest.1, fun hp => hrest.2 ?_⟩
    rcases step_refs P cm packb hints a h with he | ⟨he, -⟩ | ⟨-, hnone, -⟩
    · rw [he]
      exact hp
    · rw [he]
      exact Option.some_ne_none _
    · rw [hnone] at hc
      exact absurd hc (Finset.notMem_empty c)

/-- (PROVED) After SUBSCRIBE and then `nu1_reg`, with no UNSUBSCRIBE since. -/
theorem serving_run (before : List (Act Client)) {between after : List (Act Client)} {c : Client} {h : Bytes}
    (hno : .unsubscribe c (channel P h) ∉ between ++ after) :
    let s := run P cm packb hints
      (before ++ .subscribe c (channel P h) :: (between ++ .reg c h :: after))
    c ∈ s.subscribers (channel P h) ∧
      s.index.refs h = some (cm.pack (flat (hintEntries (hints h)))) := by
  rw [List.mem_append, not_or] at hno
  intro s
  have hs : s = after.foldl (step P cm packb hints) (step P cm packb hints
      (between.foldl (step P cm packb hints) (step P cm packb hints
        (run P cm packb hints before) (.subscribe c (channel P h)))) (.reg c h)) := by
    simp [s, run]
  have hsub : c ∈ ((run P cm packb hints before).step P cm packb hints
      (.subscribe c (channel P h))).subscribers (channel P h) := by
    simp [step]
  have hbetween := (serving_foldl cm packb hints hsub hno.1).1
  generalize between.foldl (step P cm packb hints) _ = m at hs hbetween
  have hreg : (m.step P cm packb hints (.reg c h)).index.refs h ≠ none := by
    simp only [step, reg_refs]
    split_ifs with hh
    · exact Option.some_ne_none _
    · exact fun hn => hh ⟨trivial, hn⟩
  have hafter := serving_foldl (s := m.step P cm packb hints (.reg c h)) cm packb hints hbetween
    hno.2
  rw [hs]
  refine ⟨hafter.1, ?_⟩
  have hkept : s.Kept P cm hints := kept_run _
  rw [hs] at hkept
  exact (hkept.refs h).resolve_left (hafter.2 hreg)

end Server

variable [DecidableEq Client]

/-- (PROVED) At a server that parties use in any order: a client that subscribed to the channel of a
    hash, then registered it and has not unsubscribed since receives one message of each route call
    that covers a key of it, with every covered key; SETs and counters say what `refs` records,
    which for each hash is nothing or all its entries; and a hash leaves `refs` only in a route that
    published it to no subscriber. -/
theorem index_serves (P : Bytes) (cm : Cmsgpack) (packb : Key → Option Bytes)
    (hints : Bytes → List RoutingHint) :
    (∀ (before between after : List (Act Client)) (c : Client) (h hdr : Bytes) (batch : List Key),
      .unsubscribe c (channel P h) ∉ between ++ after →
      let s := Server.run P cm packb hints
        (before ++ .subscribe c (channel P h) :: (between ++ .reg c h :: after))
      ∃ keys : List Bytes,
        ((batch.filter fun key => (hints h).any (·.covers key)).filterMap packb).Sublist keys ∧
        ((s.received P cm packb c hdr batch).filter fun m => decide (m.1 = channel P h)) =
          if keys = [] then [] else [(channel P h, hdr ++ arrHdr keys.length ++ keys.flatten)]) ∧
    (∀ acts : List (Act Client), let s := Server.run P cm packb hints acts
      (∀ h, s.index.refs h = none ∨
        s.index.refs h = some (cm.pack (flat (hintEntries (hints h))))) ∧
      (∀ key h, h ∈ s.index.sets key ↔ ∃ e ∈ s.registered hints h, setKey P e = key) ∧
      (∀ c field, ∃ n : Nat,
        Tally (fun x : Bytes × HintEntry =>
          x.2 ∈ s.registered hints x.1 ∧ COUNTER x.2.1 = some c ∧ x.2.2.1 = field) n ∧
        (s.index.counters (counterKey P c)).get? field = if n = 0 then none else some (n : Int)) ∧
      ∀ a h, s.index.refs h ≠ none → (s.step P cm packb hints a).index.refs h = none →
        s.subscribers (channel P h) = ∅ ∧ ∃ hdr batch, a = .route hdr batch ∧ ∃ payload,
          (channel P h, payload) ∈
            (route P cm s.index hdr (routeArgs packb batch) s.receivers).2.1) := by
  constructor
  · intro before between after c h hdr batch hno s
    obtain ⟨hsub, hrefs⟩ := Server.serving_run cm packb hints before hno
    have hkept : s.Kept P cm hints := Server.kept_run _
    have hentries : s.index.entriesOf cm h = hintEntries (hints h) := by
      rw [hkept.entriesOf, Server.registered, if_neg (by simp [s, hrefs])]
    refine ⟨deliveries P packb s.index h batch, ?_, ?_⟩
    · refine List.Sublist.filterMap packb (List.monotone_filter_right _ fun key hkey => ?_)
      exact decide_eq_true (mem_candidates_of_covered hkept.consistent hentries
        (List.any_eq_true.1 hkey))
    · rw [← keysFor_routed, ← messages_of_channel,
        ← parseBatch_routeArgs packb batch le_rfl]
      unfold Server.received
      rw [List.filter_filter]
      refine List.filter_congr fun m _ => ?_
      by_cases hm : m.1 = channel P h
      · simp only [hm, decide_true, Bool.true_and, decide_eq_true_eq]
        exact hsub
      · simp [hm]
  · intro acts s
    have hkept : s.Kept P cm hints := Server.kept_run acts
    refine ⟨hkept.refs, ?_, ?_, fun a h hp hnone => ?_⟩
    · rw [← hkept.entriesOf]
      exact hkept.consistent.indexed.sets
    · rw [← hkept.entriesOf]
      exact hkept.consistent.indexed.counters
    · rcases Server.step_refs P cm packb hints a h with
        he | ⟨he, -⟩ | ⟨-, hsubs, hroute⟩
      · exact absurd (he.symm.trans hnone) hp
      · rw [hnone] at he
        cases he
      · exact ⟨hsubs, hroute⟩

/-- The hints of `users/...`, for any hash. -/
def usersHints (_ : Bytes) : List RoutingHint := [.prefixHint [some (.str (pyStr "users"))]]

/-- The key `users/1`. -/
def usersKey : Key := [.str (pyStr "users"), .str (pyStr "1")]

/-- Client 2 unsubscribes between client 1's SUBSCRIBE and its `nu1_reg`, and a route in between
    reaches client 1 only. -/
theorem index_serves_users :
    let s := Server.run (ascii "nu") stringsPack packKey usersHints
      [.subscribe 2 (channel (ascii "nu") (ascii "h")), .reg 2 (ascii "h"),
        .subscribe 1 (channel (ascii "nu") (ascii "h")),
        .unsubscribe 2 (channel (ascii "nu") (ascii "h")), .reg 1 (ascii "h"),
        .route [] [usersKey]]
    s.received (ascii "nu") stringsPack packKey 1 [] [usersKey] ≠ [] := by
  intro s hnil
  obtain ⟨keys, hsub, hmsg⟩ := (index_serves (ascii "nu") stringsPack packKey usersHints).1
    [.subscribe 2 (channel (ascii "nu") (ascii "h")), .reg 2 (ascii "h")]
    [.unsubscribe 2 (channel (ascii "nu") (ascii "h"))] [.route [] [usersKey]] 1 (ascii "h") []
    [usersKey] (by simp)
  have hone : (([usersKey].filter fun key => (usersHints (ascii "h")).any (·.covers key)).filterMap
      packKey).length = 1 := by decide
  have hkeys : keys ≠ [] := fun h => by
    rw [h, List.sublist_nil] at hsub
    rw [hsub] at hone
    cases hone
  rw [if_neg hkeys] at hmsg
  have : ((s.received (ascii "nu") stringsPack packKey 1 [] [usersKey]).filter fun m =>
      decide (m.1 = channel (ascii "nu") (ascii "h"))) ≠ [] := by
    rw [show s = _ from rfl]
    exact hmsg ▸ List.cons_ne_nil _ _
  exact this (by rw [hnil]; rfl)

end Virtuals.Routing
