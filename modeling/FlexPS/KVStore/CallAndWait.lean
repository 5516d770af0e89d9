import FlexPS.KVStore.RoundTrip

/-!
# Calls that are waited for

A worker that waits for each of its calls sees a KV store whose servers assign as one function
from keys to values: a push assigns what it writes and a pull returns what is held.

## Main definitions

* `callAndWait` — a call, what the servers do with its messages, and its callback.
* `stored` — the KV store as a function: for every key the value that its owner holds.
* `callAndWait_push`, `callAndWait_pull` — the two kinds of calls.
-/

namespace FlexPS.KVStore

open Lib

variable {Val : Type} {S : ℕ × ℕ → Type} [∀ p, StorageT (S p) Val] [Add Val]

/-- A call and `Wait`: the servers handle its messages, and the callback of a pull gets the replies
that are not empty. -/
def callAndWait (tables : ℕ → RangeTable) (src kvId : ℕ) (f : Flags)
    (servers : ∀ p, Server (S p) Val) (c : Call Val) :
    Option ((∀ p, Server (S p) Val) × Option (Dest Val)) := do
  let (_, messages) ← c.slices (tables kvId) src f
  let messages ← messages 0
  let (servers, replies) ← exchange tables kvId servers messages
  match c.callback with
  | none => some (servers, none)
  | some cb =>
      let recv := (replies.map Reply.res).filter fun kvs => kvs.keys ≠ []
      let dest ← cb.run (tables kvId) (.kvs recv)
      some (servers, some dest)

section Servers

variable {tables : ℕ → RangeTable} {kvId n : ℕ} {isVector : ℕ → Bool}
  (V : ∀ i, StoreView (S (kvId, i)) Val (tables kvId) i (isVector i))

/-- The value of every key, as its owner holds it. -/
def stored (servers : ∀ p, Server (S p) Val) (k : ℕ) : Val :=
  heldBy V servers ((tables kvId).owner k) k

variable {servers : ∀ p, Server (S p) Val} (ht : (tables kvId).Partitioned n)
  (hown : ∀ i < n, ∀ k, (tables kvId).keyBound n i ≤ k → k < (tables kvId).keyBound n (i + 1) →
    (V i).Owned k)
include ht hown

/-- **A push assigns what it writes**, and leaves the other keys alone. -/
theorem callAndWait_push (hs : AssignServers V n servers) (src : ℕ) (f : Flags) {c : Call Val}
    (hc : c.FitsPush (tables kvId)) :
    ∃ servers', callAndWait tables src kvId f servers c = some (servers', none) ∧
      AssignServers V n servers' ∧
      (∀ p ∈ c.entries (tables kvId), stored V servers' p.1 = p.2) ∧
      ∀ k < (tables kvId).maxKey, k ∉ (c.entries (tables kvId)).map Prod.fst →
        stored V servers' k = stored V servers k := by
  obtain ⟨servers', out, hexchange, hs', hwritten, hrest⟩ :=
    exchange_pushMessage V ht hown hs hc src 0 f
  refine ⟨servers', ?_, hs', hwritten, hrest⟩
  simp only [callAndWait, slices_push ht src f hc, hc.callback, hexchange, Option.bind_eq_bind,
    Option.bind_some]

/-- **A pull returns what is held**, and changes nothing. -/
theorem callAndWait_pull (hs : AssignServers V n servers) (src : ℕ) (f : Flags) {c : Call Val}
    (hc : c.FitsPull (tables kvId)) :
    ∃ servers', callAndWait tables src kvId f servers c =
        some (servers', some (c.result (tables kvId) (heldBy V servers))) ∧
      AssignServers V n servers' ∧
      ∀ k < (tables kvId).maxKey, stored V servers' k = stored V servers k := by
  obtain ⟨cb, hcb⟩ : ∃ cb, c.callback = some cb := by
    cases c with
    | pull keys => exact ⟨_, rfl⟩
    | pullChunks ids chunks => exact ⟨_, rfl⟩
    | push _ _ => exact hc.elim
    | pushChunks _ _ => exact hc.elim
    | pullChunksWithMinClock _ _ => exact hc.elim
  obtain ⟨servers', cmd, hexchange, -, hs', hheld⟩ := exchange_pullMessage V ht hown hs hc src 0 f
  -- The replies are the answers of the servers that were asked, and none of them is empty.
  have hrecv : (((c.asked (tables kvId) n).map fun i => answerReply src (kvId, 0)
      (cmd i, c.answer (tables kvId) n (heldBy V servers) i)).map Reply.res).filter
        (fun kvs => kvs.keys ≠ []) =
      (c.asked (tables kvId) n).map (c.answer (tables kvId) n (heldBy V servers)) := by
    rw [List.map_map]
    refine List.filter_eq_self.mpr fun kvs hkvs => ?_
    obtain ⟨i, hi, rfl⟩ := List.mem_map.mp hkvs
    have hpart : c.part (tables kvId) n i ≠ [] := by simpa using (List.mem_filter.mp hi).2
    exact decide_eq_true hpart
  refine ⟨servers', ?_, hs', fun k hk => ?_⟩
  · simp only [callAndWait, slices_pull ht src f hc, hcb, hexchange, Option.bind_eq_bind,
      Option.bind_some, hrecv, run_callback ht hc hcb (List.Perm.refl _)]
  · obtain ⟨hn, hlo, hhi⟩ := ht.owner_spec hk
    exact hheld _ hn k (hown _ hn k hlo hhi)

end Servers

end FlexPS.KVStore
