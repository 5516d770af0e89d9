import FlexPS.KVStore.ClusterSpec

/-!
# Fetching chunks from a cluster

`KVWorker::PullChunksWithMinClock` and the `Wait` after it: the replies of the servers that were
asked, in whatever order they come, put together to chunks and one clock.

## Main definitions

* `Cluster.returns` — `Wait` returns: whoever was asked has answered.
* `Cluster.fetched` — what a fetch hands out.
* `Cluster.Copy` — a chunk as its server held it when it answered the fetch.
* `ClusterInv.fetched` — every chunk that a fetch hands out is one, and the clock it comes with.
-/

namespace FlexPS.KVStore

open Lib

variable {S Val : Type} [StorageT S Val]

/-- The chunks that a `PullChunksWithMinClock` fetches. -/
def Call.fetches : Call Val → Option (List ℕ)
  | .pullChunksWithMinClock ids _ => some ids
  | _ => none

/-! ## Waiting for replies -/

namespace Cluster

variable (C : Cluster S Val)

/-- What tells the replies to call `k` of a worker apart. -/
def replyKey (x : ℕ × ℕ) : ℕ × ℕ := (x.1, C.firstTs x.1 + (x.2 + 1))

/-- The reply of server `i` to call `k` of worker `w`. -/
def replyTo (s : ClusterState S Val) (i w k : ℕ) : Option (Reply Val) :=
  (s.replies i).find? fun r => r.key = C.replyKey (w, k)

/-- `KVWorker::Wait` returns: every server that was asked for something has answered. -/
def returns (s : ClusterState S Val) (w k : ℕ) : Bool :=
  (s.calls w)[k]?.all fun call =>
    (call.asked C.t C.numServers).all fun i => (C.replyTo s i w k).isSome

/-- What the worker records of a reply with a clock. -/
def received (s : ClusterState S Val) (w k i : ℕ) : Option (KVPairs Val × ℤ) := do
  let r ← C.replyTo s i w k
  let content ← KVWorker.decodeReply (replyBody r)
  let (kvs, clock) ← content
  let clock ← clock
  some (kvs, clock)

/-- What `PullChunksWithMinClock` leaves behind its pointers. -/
def clocked : Dest Val → Option (List (List Val) × ℤ)
  | .chunksWithMinClock chunks clock => some (chunks, clock)
  | _ => none

/-- What a fetch hands out when the replies come in the given order of servers. -/
def fetched (s : ClusterState S Val) (w k : ℕ) (order : List ℕ) : Option (List (List Val) × ℤ) := do
  let call ← (s.calls w)[k]?
  let cb ← call.callback
  if order.Perm (call.asked C.t C.numServers) then do
    let recv ← order.mapM (C.received s w k)
    let dest ← cb.run C.t (.withMinClock recv)
    clocked dest
  else none

/-- Server `i` acknowledged or answered the first call before the second. -/
def AnsweredBefore (s : ClusterState S Val) (i : ℕ) (x y : ℕ × ℕ) : Prop :=
  [C.replyKey x, C.replyKey y].Sublist ((s.replies i).map Reply.key)

instance (s : ClusterState S Val) (i : ℕ) (x y : ℕ × ℕ) : Decidable (C.AnsweredBefore s i x y) :=
  inferInstanceAs (Decidable (List.Sublist _ _))

/-- The server of a chunk. -/
def serverOf (c : ℕ) : ℕ := C.t.owner (c * C.t.chunkSize)

/-- Chunk `c` as its server held it, with the pushes of `A`, when it answered fetch `k` of worker
`w` at `clock` or later. -/
structure Copy [AddCommMonoid Val] (s : ClusterState S Val) (w k c : ℕ) (vals : List Val)
    (clock : ℤ) (A : Finset (ℕ × ℕ)) : Prop where
  vals_eq : vals = (chunkKeys C.t c).map (C.held s.calls A)
  own : ∀ j < pushNo (s.calls w) k, (w, j) ∈ A
  below : ∀ v ∈ C.workers, ∀ j : ℕ, (j : ℤ) < clock → (v, j) ∈ A
  sent : C.Sent s.calls A
  answered : C.replyKey (w, k) ∈ (s.replies (C.serverOf c)).map Reply.key
  acked : ∀ v j push, (s.calls v)[j]? = some push → push.isPush = true →
    C.AnsweredBefore s (C.serverOf c) (v, j) (w, k) → (v, pushNo (s.calls v) j) ∈ A

end Cluster

/-! ## What a fetch hands out -/

/-- What comes before an item that occurs once. -/
theorem mem_of_pair_sublist {α : Type} {a b : α} {l₁ l₂ : List α}
    (hnodup : (l₁ ++ b :: l₂).Nodup) (h : [a, b].Sublist (l₁ ++ b :: l₂)) : a ∈ l₁ := by
  by_contra hout
  have htail := List.nodup_cons.mp (List.nodup_append.mp hnodup).2.1
  obtain ⟨k₁, k₂, heq, hk₁, hk₂⟩ := List.sublist_append_iff.mp h
  cases k₁ with
  | nil =>
      rw [List.nil_append] at heq
      subst heq
      cases hk₂ with
      | cons _ hk₂ => exact htail.1 (hk₂.subset (by simp))
      | cons_cons _ hk₂ => exact htail.1 (hk₂.subset (by simp))
  | cons x k₁ =>
      obtain rfl := (List.cons.inj heq).1
      exact hout (hk₁.subset (List.mem_cons_self ..))

section Fetched

variable [AddCommMonoid Val] {C : Cluster S Val} {s : ClusterState S Val} (h : ClusterInv C s)
include h

/-- A server answers a call once. -/
theorem ClusterInv.nodup_replies {i : ℕ} (hi : i < C.numServers) :
    ((s.replies i).map Reply.key).Nodup := by
  obtain ⟨E, hE⟩ := C.exists_fits hi h.sorted
  rcases h.reached i hi E hE with ⟨-, -, hnil⟩ | ⟨-, m, -, hlists⟩
  · rw [hnil]
    exact List.nodup_nil
  · have hnodup := hlists.nodup_map id fun x y _ _ hxy => E.key_injective hxy
    rwa [List.map_id] at hnodup

/-- The answer of one server to a fetch. -/
theorem ClusterInv.received {i w k : ℕ} {ids : List ℕ} {ptrs : List (List Val)}
    (hi : i < C.numServers)
    (hcall : (s.calls w)[k]? = some (.pullChunksWithMinClock ids ptrs))
    {kvs : KVPairs Val} {clock : ℤ} (hrecv : C.received s w k i = some (kvs, clock)) :
    ∃ (q : ℕ) (r : Reply Val) (m : ℕ) (A : Finset (ℕ × ℕ)),
      (s.replies i)[q]? = some r ∧ r.key = C.replyKey (w, k) ∧
      C.Answer s i q w k (.pullChunksWithMinClock ids ptrs) r m A ∧ kvs = r.res ∧ clock = m := by
  simp only [Cluster.received, Option.bind_eq_bind, Option.bind_eq_some_iff] at hrecv
  obtain ⟨r, hr, content, hdecode, ⟨kvs', clock'⟩, rfl, clock'', hclock, hrecv⟩ := hrecv
  simp only at hclock hrecv
  obtain ⟨rfl, rfl⟩ := Prod.mk.inj (Option.some.inj hrecv)
  have hkey : r.key = C.replyKey (w, k) := by simpa using List.find?_some hr
  obtain ⟨q, hq⟩ := List.getElem?_of_mem (List.mem_of_find?_eq_some hr)
  obtain ⟨hsrc, hts⟩ := Prod.mk.inj hkey
  obtain ⟨m, A, hanswer⟩ := h.answer hi hq hsrc hts hcall rfl
  refine ⟨q, r, m, A, hq, hkey, hanswer, ?_⟩
  have hcmd : r.cmd = 11 ∨ r.cmd = 13 := by
    rw [hanswer.cmd_eq, Call.cmdFor, cmd_clock (C.controlled w) i]
    cases (C.flags w).zeroCopy i <;> simp
  have hm := hanswer.minClock_eq rfl
  rw [decodeReply_clock hanswer.push_eq hcmd (by omega)] at hdecode
  simp only [Option.some.injEq, Prod.mk.injEq] at hdecode
  obtain ⟨rfl, hdecode⟩ := hdecode
  rw [← hdecode] at hclock
  exact ⟨rfl, (Option.some.inj hclock).symm.trans hm⟩

/-- An answer to a fetch, as seen from one of its chunks. -/
theorem Cluster.Answer.copy {q w k c m : ℕ} {call : Call Val} {r : Reply Val}
    {A : Finset (ℕ × ℕ)} (hi : C.serverOf c < C.numServers)
    (ha : C.Answer s (C.serverOf c) q w k call r m A)
    (hq : (s.replies (C.serverOf c))[q]? = some r) (hkey : r.key = C.replyKey (w, k)) {clock : ℤ}
    (hclock : clock ≤ m) :
    C.Copy s w k c ((chunkKeys C.t c).map (C.held s.calls A)) clock A := by
  refine ⟨rfl, ha.own, fun v hv j hj => ha.below v hv j (by omega), ha.sent, ?_, ?_⟩
  · rw [← hkey]
    exact List.mem_map_of_mem (List.mem_of_getElem? hq)
  intro v j push hpush hisPush hbefore
  refine ha.acked v j push hpush hisPush ?_
  -- replies have different keys, so what comes before the answer is among the first `q`
  obtain ⟨hlt, rfl⟩ := List.getElem?_eq_some_iff.mp hq
  have hsplit : (s.replies (C.serverOf c)).map Reply.key =
      ((s.replies (C.serverOf c)).take q).map Reply.key ++ C.replyKey (w, k) ::
        ((s.replies (C.serverOf c)).drop (q + 1)).map Reply.key := by
    rw [← hkey, ← List.map_cons, ← List.map_append, List.getElem_cons_drop, List.take_append_drop]
  have hnodup := h.nodup_replies hi
  unfold Cluster.AnsweredBefore at hbefore
  rw [hsplit] at hnodup hbefore
  obtain ⟨r', hr', hkey'⟩ := List.mem_map.mp (mem_of_pair_sublist hnodup hbefore)
  obtain ⟨hsrc', hts'⟩ := Prod.mk.inj hkey'
  exact ⟨r', hr', hsrc', hts'⟩

/-- **What a fetch hands out**: every chunk as its server held it when it answered, with a clock
that is at most the clock of every answer, and at least what all answers reach. -/
theorem ClusterInv.fetched {w k : ℕ} {ids order : List ℕ} {ptrs chunks : List (List Val)}
    {clock : ℤ} (hcall : (s.calls w)[k]? = some (.pullChunksWithMinClock ids ptrs))
    (horder : C.t.InOrder ids) (hfetched : C.fetched s w k order = some (chunks, clock)) :
    (∃ vals : ℕ → List Val, chunks = ids.map vals ∧
      ∀ c ∈ ids, ∃ A, C.Copy s w k c (vals c) clock A) ∧
    ∀ x : ℤ, x ≤ 2 ^ 31 - 1 →
      (∀ i < C.numServers, ∀ r ∈ s.replies i, r.key = C.replyKey (w, k) → x ≤ r.minClock) →
        x ≤ clock := by
  obtain ⟨-, hlt, hlen⟩ := h.sorted w _ (List.mem_of_getElem? hcall)
  simp only [Cluster.fetched, hcall, Call.callback, Option.bind_eq_bind, Option.bind_some] at hfetched
  split at hfetched
  · next hperm =>
      obtain ⟨recv, hrecv, hfetched⟩ := Option.bind_eq_some_iff.mp hfetched
      obtain ⟨dest, hrun, hdest⟩ := Option.bind_eq_some_iff.mp hfetched
      have hasked : ∀ i ∈ (Call.pullChunksWithMinClock ids ptrs).asked C.t C.numServers,
          i < C.numServers := fun i hi => List.mem_range.mp (List.mem_filter.mp hi).1
      -- what every server that was asked has answered
      have hanswers : ∀ i ∈ (Call.pullChunksWithMinClock ids ptrs).asked C.t C.numServers,
          ∃ (m : ℕ) (A : Finset (ℕ × ℕ)), (∃ q r, (s.replies i)[q]? = some r ∧
              r.key = C.replyKey (w, k) ∧
              C.Answer s i q w k (.pullChunksWithMinClock ids ptrs) r m A) ∧
            C.received s w k i = some ((Call.pullChunksWithMinClock ids ptrs).answer C.t
              C.numServers (fun _ => C.held s.calls A) i, (m : ℤ)) := by
        intro i hi
        obtain ⟨⟨kvs, x⟩, hreceived⟩ := exists_of_mapM hrecv (hperm.mem_iff.mpr hi)
        obtain ⟨q, r, m, A, hq, hkey, ha, rfl, rfl⟩ := h.received (hasked i hi) hcall hreceived
        exact ⟨m, A, ⟨q, r, hq, hkey, ha⟩, hreceived.trans (by rw [ha.res_eq])⟩
      choose! m A ha hreceived using hanswers
      have hmap := mapM_eq_map fun i hi => hreceived i (hperm.mem_iff.mp hi)
      rw [hrecv, Option.some.injEq] at hmap
      have hrecvPerm : recv.Perm (((Call.pullChunksWithMinClock ids ptrs).asked C.t
          C.numServers).map fun i => ((Call.pullChunksWithMinClock ids ptrs).answer C.t
            C.numServers (fun j => C.held s.calls (A j)) i, (m i : ℤ))) := by
        rw [hmap]
        exact hperm.map _
      obtain ⟨least, hleast, hle⟩ := run_callback_clock C.partitioned horder hlt hlen hrecvPerm
      rw [hrun, Option.some.injEq] at hleast
      subst hleast
      obtain ⟨rfl, rfl⟩ := Prod.mk.inj (Option.some.inj hdest)
      refine ⟨⟨_, rfl, fun c hc => ?_⟩, fun x hmax hx => (hle x).mpr ⟨hmax, fun i hi => ?_⟩⟩
      · obtain ⟨hserver, hlo, hhi⟩ := C.partitioned.owner_spec (C.partitioned.chunk_lt (hlt c hc))
        have hmem : C.serverOf c ∈
            (Call.pullChunksWithMinClock ids ptrs).asked C.t C.numServers := by
          rw [Call.asked, List.mem_filter, List.mem_range]
          refine ⟨hserver, ?_⟩
          have hin : c ∈ C.t.chunksOf C.numServers (C.serverOf c) ids :=
            mem_between.mpr ⟨hc, hlo, hhi⟩
          simp [Call.part, List.ne_nil_of_mem hin]
        obtain ⟨q, r, hq, hkey, hanswer⟩ := ha _ hmem
        exact ⟨A (C.serverOf c), hanswer.copy h hserver hq hkey (((hle least).mp le_rfl).2 _ hmem)⟩
      · obtain ⟨q, r, hq, hkey, hanswer⟩ := ha i hi
        rw [← hanswer.minClock_eq rfl]
        exact hx i (hasked i hi) r (List.mem_of_getElem? hq) hkey
  · cases hfetched

/-- The clock of an answer to a fetch is at most the staleness behind its worker. -/
theorem ClusterInv.minClock_reply {i w k : ℕ} {ids : List ℕ} {ptrs : List (List Val)}
    {r : Reply Val} (hi : i < C.numServers)
    (hcall : (s.calls w)[k]? = some (.pullChunksWithMinClock ids ptrs)) (hr : r ∈ s.replies i)
    (hkey : r.key = C.replyKey (w, k)) :
    0 ≤ r.minClock ∧ (pushNo (s.calls w) k : ℤ) ≤ r.minClock + C.staleness ∧
      r.minClock ≤ (s.servers i).minClock := by
  obtain ⟨q, hq⟩ := List.getElem?_of_mem hr
  obtain ⟨hsrc, hts⟩ := Prod.mk.inj hkey
  obtain ⟨m, A, ha⟩ := h.answer (w := w) (k := k) hi hq hsrc hts hcall rfl
  have hfresh := ha.fresh
  have hle := ha.clock_le
  rw [ha.minClock_eq rfl]
  omega

end Fetched

/-! ## Later states -/

/-- What has been called and answered stays so. -/
structure ClusterState.Later (s s' : ClusterState S Val) : Prop where
  calls : ∀ w, s.calls w <+: s'.calls w
  replies : ∀ i, s.replies i <+: s'.replies i

section Later

variable {C : Cluster S Val} {s s' s'' : ClusterState S Val}

omit [StorageT S Val] in
theorem ClusterState.Later.refl (s : ClusterState S Val) : s.Later s :=
  ⟨fun _ => List.prefix_rfl, fun _ => List.prefix_rfl⟩

omit [StorageT S Val] in
theorem ClusterState.Later.trans (h : s.Later s') (h' : s'.Later s'') : s.Later s'' :=
  ⟨fun w => (h.calls w).trans (h'.calls w), fun i => (h.replies i).trans (h'.replies i)⟩

theorem Cluster.later_send {w : ℕ} {call : Call Val} (h : C.send s w call = some s') :
    s.Later s' := by
  obtain ⟨-, rfl⟩ := C.send_eq h
  exact ⟨Cluster.calls_extend s.calls w call, fun _ => List.prefix_rfl⟩

theorem Cluster.later_deliver [AddCommMonoid Val] {i w : ℕ} (h : C.deliver s i w = some s') :
    s.Later s' := by
  obtain ⟨-, -, r, srv, new, -, -, rfl⟩ := C.deliver_eq h
  refine ⟨fun _ => List.prefix_rfl, fun j => ?_⟩
  by_cases hj : j = i
  · subst hj
    simp only [Function.update_self]
    exact List.prefix_append _ _
  · simp only [Function.update_of_ne hj]
    exact List.prefix_rfl

variable [AddCommMonoid Val]

/-- **A server that handles a message**: its clock does not fall once its epoch has begun, and what
it answers then to a pull that asks for the clock carries its new clock. -/
theorem ClusterInv.minClock_deliver (h : ClusterInv C s) {i w : ℕ}
    (hdeliver : C.deliver s i w = some s') :
    (s.delivered i ≠ [] → (s.servers i).minClock ≤ (s'.servers i).minClock) ∧
      ∀ r ∈ s'.replies i, r ∈ s.replies i ∨ ∀ v k call, r.key = C.replyKey (v, k) →
        (s.calls v)[k]? = some call → call.isPush = false → call.withMinClock = true →
          k + 1 < (s'.delivered i).count v ∧ r.minClock = (s'.servers i).minClock := by
  obtain ⟨hi, hw, r, srv, new, hr, hprocess, rfl⟩ := C.deliver_eq hdeliver
  obtain ⟨E, hE⟩ := C.exists_fits hi h.sorted
  obtain rfl := hE.message_eq hi h.sorted hr
  have hwE : w ∈ E.workers := by rwa [hE.workers_eq]
  obtain ⟨srv', new', hprocess', hreached, m, m', hstep⟩ :=
    SSPEpoch.reached_step C.kvId hE.idle hwE (h.reached i hi E hE)
  obtain ⟨rfl, rfl⟩ := Prod.mk.inj (Option.some.inj (hprocess'.symm.trans hprocess))
  simp only [Function.update_self]
  refine ⟨fun hstarted => ?_, fun r hr => ?_⟩
  · rcases h.reached i hi E hE with ⟨hnil, -, -⟩ | ⟨-, m₀, hinv, -⟩
    · exact absurd hnil hstarted
    · obtain ⟨v, hv, hslow⟩ := hstep.inv.slowest.attained
      rw [hinv.counters.minClock_eq, hstep.inv.counters.minClock_eq, ← hslow]
      exact (hinv.slowest.le v hv).trans (E.progress_mono (by simp))
  · refine (List.mem_append.mp hr).imp_right fun hnew v k call hkey hcall hpull hclock => ?_
    obtain ⟨items, -, hmem, rfl⟩ := hstep.replies
    obtain ⟨x, hx, rfl⟩ := List.mem_map.mp hnew
    obtain rfl : x = (v, k + 1) := by
      apply E.key_injective
      rw [← E.reply_key C.kvId _ _ m' x, SSPEpoch.key, hE.ts_eq]
      exact hkey
    refine ⟨((hmem _).mp hx).1.2.1, ?_⟩
    have hnot : ¬ E.IsPush v (k + 1) := by
      rw [E.isPush_succ, hE.isPush_eq v k call hcall, hpull]
      exact Bool.false_ne_true
    rw [E.reply_of_pull C.kvId _ _ m' (x := (v, k + 1)) (Nat.succ_pos k) hnot,
      hstep.inv.counters.minClock_eq]
    have hcmd : (E.entry (v, k + 1)).cmd = call.cmdFor (C.flags v) i := by
      simp only [SSPEpoch.entry, SSPEpoch.message, Request.entry, hE.body_eq v k call hcall]
      rfl
    rw [hcmd]
    exact if_pos ((clock_cmdFor (C.controlled v) i).mpr hclock)

/-- What is answered is a message of the epoch. -/
theorem ClusterInv.exists_answered (h : ClusterInv C s) {i v j : ℕ} (hi : i < C.numServers)
    (hmem : C.replyKey (v, j) ∈ (s.replies i).map Reply.key) :
    ∃ E, C.Fits i s.calls E ∧ ∃ m, E.Answered (fun v => (s.delivered i).count v) m (v, j + 1) := by
  obtain ⟨E, hE⟩ := C.exists_fits hi h.sorted
  rcases h.reached i hi E hE with ⟨-, -, hnil⟩ | ⟨-, m, -, hlists⟩
  · rw [hnil] at hmem
    cases hmem
  · obtain ⟨x, hx, hkey⟩ := hlists.mem_iff.mp hmem
    have hxv : x = (v, j + 1) := by
      apply E.key_injective
      rw [hkey, SSPEpoch.key, hE.ts_eq]
      rfl
    exact ⟨E, hE, m, hxv ▸ hx⟩

/-- Only what has been called is answered. -/
theorem ClusterInv.called (h : ClusterInv C s) {i v j : ℕ} (hi : i < C.numServers)
    (hmem : C.replyKey (v, j) ∈ (s.replies i).map Reply.key) : j < (s.calls v).length := by
  obtain ⟨E, -, m, hanswered⟩ := h.exists_answered hi hmem
  have hlt : j + 1 < (s.delivered i).count v := hanswered.2.1
  have := h.arrived i v
  omega

/-- Only servers that are asked for something answer. -/
theorem ClusterInv.asked (h : ClusterInv C s) {i v j : ℕ} (hi : i < C.numServers)
    (hmem : C.replyKey (v, j) ∈ (s.replies i).map Reply.key) {call : Call Val}
    (hcall : (s.calls v)[j]? = some call) : i ∈ call.asked C.t C.numServers := by
  obtain ⟨E, hE, m, hanswered⟩ := h.exists_answered hi hmem
  refine List.mem_filter.mpr ⟨List.mem_range.mpr hi, ?_⟩
  have hpart : call.part C.t C.numServers i ≠ [] := by
    intro hnil
    apply hanswered.2.2.2
    simp only [SSPEpoch.entry, SSPEpoch.message, Request.entry, hE.body_eq v j call hcall]
    exact bodyFor_bin_eq_nil.mpr hnil
  simpa using hpart

/-- What was answered before an answer that is there was there. -/
theorem Cluster.AnsweredBefore.earlier {i : ℕ} {x y : ℕ × ℕ} (h' : ClusterInv C s')
    (hi : i < C.numServers) (hlater : s.Later s')
    (hy : C.replyKey y ∈ (s.replies i).map Reply.key) (hxy : C.AnsweredBefore s' i x y) :
    C.AnsweredBefore s i x y := by
  obtain ⟨new, hnew⟩ := hlater.replies i
  obtain ⟨l₁, l₂, hsplit⟩ := List.append_of_mem hy
  have hkeys : (s'.replies i).map Reply.key =
      l₁ ++ C.replyKey y :: (l₂ ++ new.map Reply.key) := by
    rw [← hnew, List.map_append, hsplit, List.append_assoc, List.cons_append]
  have hnodup := h'.nodup_replies hi
  unfold Cluster.AnsweredBefore at hxy ⊢
  rw [hkeys] at hnodup hxy
  rw [hsplit]
  have hx := mem_of_pair_sublist hnodup hxy
  exact (List.singleton_sublist.mpr hx).append (List.singleton_sublist.mpr (by simp))

/-- **A copied chunk stays what it is** while the cluster goes on. -/
theorem Cluster.Copy.later {w k c : ℕ} {vals : List Val} {clock : ℤ} {A : Finset (ℕ × ℕ)}
    (hcopy : C.Copy s w k c vals clock A) (h : ClusterInv C s) (h' : ClusterInv C s')
    (hlater : s.Later s') (hserver : C.serverOf c < C.numServers) :
    C.Copy s' w k c vals clock A := by
  have hk := h.called hserver hcopy.answered
  refine ⟨?_, ?_, hcopy.below, hcopy.sent.later hlater.calls, ?_, ?_⟩
  · rw [hcopy.vals_eq]
    exact List.map_congr_left fun key _ => (hcopy.sent.held_later hlater.calls key).symm
  · rw [pushNo_extend (hlater.calls w) hk.le]
    exact hcopy.own
  · exact (((hlater.replies _).sublist).map _).subset hcopy.answered
  · intro v j push hpush hisPush hbefore
    have hold := hbefore.earlier h' hserver hlater hcopy.answered
    have hj := h.called hserver (hold.subset (List.mem_cons_self ..))
    obtain ⟨rest, hrest⟩ := hlater.calls v
    rw [← hrest, List.getElem?_append_left hj] at hpush
    rw [pushNo_extend (hlater.calls v) hj.le]
    exact hcopy.acked v j push hpush hisPush hold

end Later

end FlexPS.KVStore
