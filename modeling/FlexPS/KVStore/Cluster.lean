import FlexPS.KVStore.ControlledCall
import FlexPS.KVStore.SSPInvariant

/-!
# A cluster of SSP servers

The servers of a model and the workers of an epoch.  A worker calls its `KVWorker`, which sends
every call to all servers; every server handles the messages of a worker in the order they were
sent, and the messages of different workers in any order.  What a worker calls, and when, is
left to the schedule.

## Main definitions

* `Cluster` — the table, the servers and the workers.
* `ClusterState`, `Cluster.send`, `Cluster.deliver` — what has been called, delivered and
  answered.
* `Cluster.Fits` — an epoch of a server that contains what has been called.
* `ClusterInv` — every server is where its epoch says it is.
-/

namespace FlexPS.KVStore

open Lib

variable {S Val : Type} [StorageT S Val]

/-- The servers of a model, all with the same staleness and ready for an epoch, and the workers
of the epoch. -/
structure Cluster (S Val : Type) [StorageT S Val] where
  t : RangeTable
  numServers : ℕ
  partitioned : t.Partitioned numServers
  isVector : Bool
  view : ∀ i, StoreView S Val t i isVector
  owned : ∀ i < numServers, ∀ k, t.keyBound numServers i ≤ k → k < t.keyBound numServers (i + 1) →
    (view i).Owned k
  workers : Finset ℕ
  workers_nonempty : workers.Nonempty
  staleness : ℕ
  kvId : ℕ
  firstTs : ℕ → ℕ
  flags : ℕ → Flags
  sendAll : ∀ w, (flags w).sendAll = true
  controlled : ∀ w, (flags w).consistencyControl = true
  start : ℕ → SSPServer S Val
  start_serverId : ∀ i, (start i).serverId = i
  start_isVector : ∀ i, (start i).isVector = isVector
  start_staleness : ∀ i, (start i).staleness = staleness
  start_initCount : ∀ i, (start i).initCount = 0
  start_good : ∀ i, (view i).Good (start i).store

/-- What has happened in a cluster: the servers, the calls of every worker after its Init, whose
messages every server has handled, and what it has answered. -/
structure ClusterState (S Val : Type) where
  servers : ℕ → SSPServer S Val
  calls : ℕ → List (Call Val)
  delivered : ℕ → List ℕ
  replies : ℕ → List (Reply Val)

/-- What the schedule of a cluster decides. -/
inductive ClusterInput (Val : Type) where
  | send (w : ℕ) (call : Call Val)
  | deliver (i w : ℕ)

namespace Cluster

variable (C : Cluster S Val)

/-- Before any call. -/
def init : ClusterState S Val := ⟨C.start, fun _ => [], fun _ => [], fun _ => []⟩

/-- The `k`-th message of a worker to server `i`: its Init, then its calls. -/
def message (calls : ℕ → List (Call Val)) (i w : ℕ) : ℕ → Option (Request Val)
  | 0 => some
      { ts := C.firstTs w, cmd := 4, push := true, src := w
        bin := Cell.intCodec.put C.workers.card }
  | k + 1 => do
      let call ← (calls w)[k]?
      let messages ← call.messages C.t w (C.firstTs w + (k + 1)) (C.flags w)
      messages[i]?.join

/-- A worker calls its `KVWorker`. -/
def send (s : ClusterState S Val) (w : ℕ) (call : Call Val) : Option (ClusterState S Val) :=
  if w ∈ C.workers then do
    let _ ← call.messages C.t w (C.firstTs w + ((s.calls w).length + 1)) (C.flags w)
    some { s with calls := Function.update s.calls w (s.calls w ++ [call]) }
  else none

/-- A server handles the next message of a worker. -/
def deliver [Add Val] (s : ClusterState S Val) (i w : ℕ) : Option (ClusterState S Val) :=
  if i < C.numServers ∧ w ∈ C.workers then do
    let r ← C.message s.calls i w ((s.delivered i).count w)
    let (srv, new) ← SSPServer.process C.t (s.servers i) (r.toBin C.kvId)
    some { s with
      servers := Function.update s.servers i srv
      delivered := Function.update s.delivered i (s.delivered i ++ [w])
      replies := Function.update s.replies i (s.replies i ++ new) }
  else none

/-- One step of a cluster. -/
def step [Add Val] (s : ClusterState S Val) : ClusterInput Val → Option (ClusterState S Val)
  | .send w call => C.send s w call
  | .deliver i w => C.deliver s i w

/-! ## Epochs of a server -/

/-- An epoch of server `i` that contains what has been called. -/
structure Fits (i : ℕ) (calls : ℕ → List (Call Val)) (E : SSPEpoch (C.view i)) : Prop where
  workers_eq : E.workers = C.workers
  staleness_eq : E.staleness = C.staleness
  ts_eq : ∀ w k, E.ts w k = C.firstTs w + k
  isPush_eq : ∀ w k c, (calls w)[k]? = some c → E.isPush w k = c.isPush
  body_eq : ∀ w k c, (calls w)[k]? = some c → E.body w k =
    c.bodyFor C.t C.numServers (C.flags w) i

variable {C}

/-- The body of a sorted push only writes keys of its server. -/
theorem pushBody_bodyFor {i : ℕ} (w : ℕ) (hi : i < C.numServers) {c : Call Val}
    (hc : c.Sorted C.t) (hpush : c.isPush = true) :
    (C.view i).PushBody (c.bodyFor C.t C.numServers (C.flags w) i).cmd
      (c.bodyFor C.t C.numServers (C.flags w) i).bin := by
  intro hbin
  have hpart : c.part C.t C.numServers i ≠ [] := fun hnil => hbin (bodyFor_bin_eq_nil.mpr hnil)
  refine ⟨_, decodePush_bodyFor (C.controlled w) hc hpush hpart, fun p hp => ?_⟩
  obtain ⟨hlo, hhi⟩ := entriesOf_sorted C.partitioned hc hp
  exact C.owned i hi p.1 hlo hhi

/-- The body of a sorted pull only reads keys of its server. -/
theorem pullBody_bodyFor {i : ℕ} (w : ℕ) (hi : i < C.numServers) {c : Call Val}
    (hc : c.Sorted C.t) (hpull : c.isPush = false) :
    (C.view i).PullBody (bodyCmd (c.bodyFor C.t C.numServers (C.flags w) i).cmd)
      (c.bodyFor C.t C.numServers (C.flags w) i).bin := by
  intro hbin
  have hpart : c.part C.t C.numServers i ≠ [] := fun hnil => hbin (bodyFor_bin_eq_nil.mpr hnil)
  refine ⟨_, _, decodePull_bodyFor (C.controlled w) hpull hpart, fun k hk => ?_⟩
  obtain ⟨hlo, hhi⟩ := touched_sorted C.partitioned hc hpull hk
  exact C.owned i hi k hlo hhi

/-- There is such an epoch: after what has been called, empty pulls follow. -/
theorem exists_fits {i : ℕ} (hi : i < C.numServers) {calls : ℕ → List (Call Val)}
    (hcalls : ∀ w, ∀ c ∈ calls w, c.Sorted C.t) : ∃ E, C.Fits i calls E := by
  let body (w k : ℕ) : Body Val := match (calls w)[k]? with
    | some c => c.bodyFor C.t C.numServers (C.flags w) i
    | none => ⟨1, []⟩
  let isPush (w k : ℕ) : Bool := match (calls w)[k]? with
    | some c => c.isPush
    | none => false
  refine ⟨{
    workers := C.workers
    workers_nonempty := C.workers_nonempty
    staleness := C.staleness
    ts := fun w k => C.firstTs w + k
    ts_injective := fun w a b h => Nat.add_left_cancel h
    isPush := isPush
    body := body
    controlled := ?_
    push_ok := ?_
    pull_ok := ?_ }, rfl, rfl, fun _ _ => rfl, ?_, ?_⟩
  · intro w k
    simp only [body]
    split
    · exact controlled_cmdFor (C.controlled w) i
    · exact (by decide : Controlled 1)
  · intro w k hpush
    simp only [isPush, body] at hpush ⊢
    split at hpush
    · next c hc => exact pushBody_bodyFor w hi (hcalls w c (List.mem_of_getElem? hc)) hpush
    · cases hpush
  · intro w k hpull
    simp only [isPush, body] at hpull ⊢
    split at hpull
    · next c hc => exact pullBody_bodyFor w hi (hcalls w c (List.mem_of_getElem? hc)) hpull
    · exact fun hbin => absurd rfl hbin
  · intro w k c hc
    simp [isPush, hc]
  · intro w k c hc
    simp [body, hc]

section Fits

variable {i : ℕ} {calls calls' : ℕ → List (Call Val)} {E : SSPEpoch (C.view i)}

omit [StorageT S Val] in
theorem getElem?_of_extension {l l' : List (Call Val)} (h : l <+: l') {k : ℕ} {c : Call Val}
    (hc : l[k]? = some c) : l'[k]? = some c := by
  obtain ⟨rest, rfl⟩ := h
  rwa [List.getElem?_append_left (List.getElem?_eq_some_iff.mp hc).1]

/-- An epoch that contains what will be called contains what has been called. -/
theorem Fits.before (h : C.Fits i calls' E) (hcalls : ∀ w, calls w <+: calls' w) :
    C.Fits i calls E where
  workers_eq := h.workers_eq
  staleness_eq := h.staleness_eq
  ts_eq := h.ts_eq
  isPush_eq w k c hc := h.isPush_eq w k c (getElem?_of_extension (hcalls w) hc)
  body_eq w k c hc := h.body_eq w k c (getElem?_of_extension (hcalls w) hc)

theorem Fits.idle (h : C.Fits i calls E) : E.Idle (C.start i) where
  serverId_eq := C.start_serverId i
  isVector_eq := C.start_isVector i
  staleness_eq := (C.start_staleness i).trans h.staleness_eq.symm
  initCount_eq := C.start_initCount i
  good := C.start_good i

/-- The messages of the cluster are the messages of the epoch. -/
theorem Fits.message_eq (h : C.Fits i calls E) (hi : i < C.numServers)
    (hcalls : ∀ w, ∀ c ∈ calls w, c.Sorted C.t) {w k : ℕ} {r : Request Val}
    (hr : C.message calls i w k = some r) : r = E.message w k := by
  cases k with
  | zero =>
      obtain rfl := Option.some.inj hr
      simp only [SSPEpoch.message, h.ts_eq, h.workers_eq, Nat.add_zero]
  | succ k =>
      simp only [Cluster.message, Option.bind_eq_bind, Option.bind_eq_some_iff] at hr
      obtain ⟨c, hc, l, hl, hr⟩ := hr
      rw [messages_sorted C.partitioned (C.sendAll w) (C.controlled w)
        (hcalls w c (List.mem_of_getElem? hc))] at hl
      obtain rfl := Option.some.inj hl
      have hget : ((List.range C.numServers).map fun i => some
          (c.request C.t C.numServers w (C.firstTs w + (k + 1)) (C.flags w) i))[i]?.join =
          some (c.request C.t C.numServers w (C.firstTs w + (k + 1)) (C.flags w) i) := by
        simp [hi]
      rw [hget] at hr
      obtain rfl := Option.some.inj hr
      simp only [SSPEpoch.message, h.ts_eq, h.isPush_eq w k c hc, h.body_eq w k c hc]
      rfl

end Fits

end Cluster

/-! ## The invariant -/

/-- When a reply was given: how many messages of every worker had arrived, the clock, and the
message it answers. -/
structure Stamp where
  arrivals : ℕ → ℕ
  clock : ℕ
  message : ℕ × ℕ

/-- The first reply was given no later than the second. -/
def Stamp.Before (a b : Stamp) : Prop :=
  (∀ v, a.arrivals v ≤ b.arrivals v) ∧ a.clock ≤ b.clock

/-- The stamps of the replies that a server has given by `n` arrivals and clock `m`. -/
structure SSPEpoch.Stamped [AddCommMonoid Val] {t : RangeTable} {i : ℕ} {isVector : Bool}
    {V : StoreView S Val t i isVector} (E : SSPEpoch V) (kvId : ℕ) (base : ℕ → Val)
    (n : ℕ → ℕ) (m : ℕ) (replies : List (Reply Val)) (stamps : List Stamp) : Prop where
  replies_eq : replies = stamps.map fun a => E.reply kvId base a.arrivals a.clock a.message
  answered : ∀ a ∈ stamps, E.Answered a.arrivals a.clock a.message
  slowest : ∀ a ∈ stamps, ∀ v ∈ E.workers, a.clock ≤ E.progress a.arrivals v
  ordered : stamps.Pairwise Stamp.Before
  past : ∀ a ∈ stamps, (∀ v, a.arrivals v ≤ n v) ∧ a.clock ≤ m

/-- Every server is where its epoch says it is, whatever will be called later. -/
structure ClusterInv [AddCommMonoid Val] (C : Cluster S Val) (s : ClusterState S Val) : Prop where
  sorted : ∀ w, ∀ c ∈ s.calls w, c.Sorted C.t
  arrived : ∀ i w, (s.delivered i).count w ≤ (s.calls w).length + 1
  reached : ∀ i < C.numServers, ∀ E, C.Fits i s.calls E →
    E.Reached (C.start i) (s.delivered i) (s.servers i) (s.replies i)
  stamped : ∀ i < C.numServers, ∀ E, C.Fits i s.calls E → ∃ stamps,
    E.Stamped C.kvId ((C.view i).view (C.start i).store) (fun v => (s.delivered i).count v)
      (s.servers i).minClock (s.replies i) stamps

section Step

variable [AddCommMonoid Val] {C : Cluster S Val} {s s' : ClusterState S Val}

theorem clusterInv_init : ClusterInv C C.init where
  sorted _ _ h := absurd h List.not_mem_nil
  arrived _ _ := Nat.zero_le _
  reached _ _ _ _ := .inl ⟨rfl, rfl, rfl⟩
  stamped _ _ _ _ := ⟨[], rfl, by simp, by simp, .nil, by simp⟩

omit [AddCommMonoid Val] in
/-- The progress of every worker grows with its messages. -/
theorem SSPEpoch.progress_mono {t : RangeTable} {i : ℕ} {isVector : Bool}
    {V : StoreView S Val t i isVector} (E : SSPEpoch V) {n n' : ℕ → ℕ} {v : ℕ}
    (h : n v ≤ n' v) : E.progress n v ≤ E.progress n' v :=
  Nat.count_monotone _ h

/-- The replies of one more message continue the list of stamps. -/
theorem SSPEpoch.Stamped.snoc {t : RangeTable} {i : ℕ} {isVector : Bool}
    {V : StoreView S Val t i isVector} {E : SSPEpoch V} {kvId m m₀ m' : ℕ} {base : ℕ → Val}
    {n n' : ℕ → ℕ} {replies new : List (Reply Val)} {stamps : List Stamp} {srv' : SSPServer S Val}
    (h : E.Stamped kvId base n m replies stamps) (hstep : E.Step kvId base n m₀ n' m' srv' new)
    (hn : ∀ v, n v ≤ n' v) (hm : stamps ≠ [] → m ≤ m') :
    ∃ stamps', E.Stamped kvId base n' m' (replies ++ new) stamps' := by
  obtain ⟨items, -, hmem, rfl⟩ := hstep.replies
  have hpast : ∀ a ∈ stamps, (∀ v, a.arrivals v ≤ n' v) ∧ a.clock ≤ m' := fun a ha =>
    ⟨fun v => ((h.past a ha).1 v).trans (hn v), (h.past a ha).2.trans (hm (List.ne_nil_of_mem ha))⟩
  refine ⟨stamps ++ items.map fun x => ⟨n', m', x⟩, ?_, ?_, ?_, ?_, ?_⟩
  · rw [h.replies_eq, List.map_append, List.map_map]
    rfl
  · intro a ha
    rcases List.mem_append.mp ha with ha | ha
    · exact h.answered a ha
    · obtain ⟨x, hx, rfl⟩ := List.mem_map.mp ha
      exact ((hmem x).mp hx).1
  · intro a ha
    rcases List.mem_append.mp ha with ha | ha
    · exact h.slowest a ha
    · obtain ⟨x, hx, rfl⟩ := List.mem_map.mp ha
      exact hstep.inv.slowest.le
  · rw [List.pairwise_append]
    refine ⟨h.ordered, List.pairwise_map.mpr ?_, fun a ha b hb => ?_⟩
    · exact List.pairwise_of_forall fun _ _ => ⟨fun _ => le_rfl, le_rfl⟩
    · obtain ⟨x, hx, rfl⟩ := List.mem_map.mp hb
      exact hpast a ha
  · intro a ha
    rcases List.mem_append.mp ha with ha | ha
    · exact hpast a ha
    · obtain ⟨x, hx, rfl⟩ := List.mem_map.mp ha
      exact ⟨fun _ => le_rfl, le_rfl⟩

omit [AddCommMonoid Val] in
/-- What a call changes. -/
theorem Cluster.send_eq {w : ℕ} {call : Call Val} (h : C.send s w call = some s') :
    w ∈ C.workers ∧ s' = { s with calls := Function.update s.calls w (s.calls w ++ [call]) } := by
  unfold Cluster.send at h
  split at h
  · next hw =>
      simp only [Option.bind_eq_bind, Option.bind_eq_some_iff] at h
      obtain ⟨_, -, h⟩ := h
      exact ⟨hw, (Option.some.inj h).symm⟩
  · cases h

omit [AddCommMonoid Val] in
/-- Calls are only added. -/
theorem Cluster.calls_extend (calls : ℕ → List (Call Val)) (w : ℕ) (call : Call Val) (v : ℕ) :
    calls v <+: Function.update calls w (calls w ++ [call]) v := by
  by_cases hv : v = w
  · subst hv
    rw [Function.update_self]
    exact List.prefix_append _ _
  · rw [Function.update_of_ne hv]

theorem clusterInv_send (h : ClusterInv C s) {w : ℕ} {call : Call Val} (hcall : call.Sorted C.t)
    (hstep : C.send s w call = some s') : ClusterInv C s' := by
  obtain ⟨-, rfl⟩ := C.send_eq hstep
  have hextends := Cluster.calls_extend s.calls w call
  refine ⟨fun v c hc => ?_, fun i v => ?_, fun i hi E hE => ?_, fun i hi E hE => ?_⟩
  · by_cases hv : v = w
    · subst hv
      simp only [Function.update_self, List.mem_append, List.mem_singleton] at hc
      rcases hc with hc | rfl
      · exact h.sorted v c hc
      · exact hcall
    · simp only [Function.update_of_ne hv] at hc
      exact h.sorted v c hc
  · exact (h.arrived i v).trans (Nat.add_le_add_right (hextends v).length_le 1)
  · exact h.reached i hi E (hE.before hextends)
  · exact h.stamped i hi E (hE.before hextends)

/-- What a delivery changes. -/
theorem Cluster.deliver_eq {i w : ℕ} (h : C.deliver s i w = some s') :
    i < C.numServers ∧ w ∈ C.workers ∧ ∃ r srv new,
      C.message s.calls i w ((s.delivered i).count w) = some r ∧
      SSPServer.process C.t (s.servers i) (r.toBin C.kvId) = some (srv, new) ∧
      s' = { s with
        servers := Function.update s.servers i srv
        delivered := Function.update s.delivered i (s.delivered i ++ [w])
        replies := Function.update s.replies i (s.replies i ++ new) } := by
  unfold Cluster.deliver at h
  split at h
  · next hguard =>
      simp only [Option.bind_eq_bind, Option.bind_eq_some_iff] at h
      obtain ⟨r, hr, ⟨srv, new⟩, hprocess, h⟩ := h
      exact ⟨hguard.1, hguard.2, r, srv, new, hr, hprocess, (Option.some.inj h).symm⟩
  · cases h

omit [AddCommMonoid Val] in
/-- A message that is delivered has been sent. -/
theorem Cluster.lt_of_message {calls : ℕ → List (Call Val)} {i w k : ℕ} {r : Request Val}
    (h : C.message calls i w k = some r) : k < (calls w).length + 1 := by
  cases k with
  | zero => exact Nat.succ_pos _
  | succ k =>
      simp only [Cluster.message, Option.bind_eq_bind, Option.bind_eq_some_iff] at h
      obtain ⟨c, hc, -⟩ := h
      exact Nat.succ_lt_succ (List.getElem?_eq_some_iff.mp hc).1

theorem clusterInv_deliver (h : ClusterInv C s) {i w : ℕ}
    (hdeliver : C.deliver s i w = some s') : ClusterInv C s' := by
  obtain ⟨hi, hw, r, srv, new, hr, hprocess, rfl⟩ := C.deliver_eq hdeliver
  -- whatever epoch is meant, the server did what the epoch says
  have hserved : ∀ E, C.Fits i s.calls E →
      E.Reached (C.start i) (s.delivered i ++ [w]) srv (s.replies i ++ new) ∧
      ∃ stamps, E.Stamped C.kvId ((C.view i).view (C.start i).store)
        (fun v => (s.delivered i ++ [w]).count v) srv.minClock (s.replies i ++ new) stamps := by
    intro E hE
    obtain rfl := hE.message_eq hi h.sorted hr
    have hwE : w ∈ E.workers := by rwa [hE.workers_eq]
    obtain ⟨srv', new', hprocess', hreached, m, m', hstep⟩ :=
      SSPEpoch.reached_step C.kvId hE.idle hwE (h.reached i hi E hE)
    obtain ⟨rfl, rfl⟩ := Prod.mk.inj (Option.some.inj (hprocess'.symm.trans hprocess))
    obtain ⟨stamps, hstamps⟩ := h.stamped i hi E hE
    have hn : ∀ v, (s.delivered i).count v ≤ (s.delivered i ++ [w]).count v := fun v => by simp
    refine ⟨hreached, ?_⟩
    rw [hstep.inv.counters.minClock_eq]
    refine hstamps.snoc hstep hn fun hne => ?_
    -- the clock of the server is the progress of its slowest worker, and that grows
    rcases h.reached i hi E hE with ⟨-, -, hnone⟩ | ⟨-, m₀, hinv, -⟩
    · rw [hstamps.replies_eq, List.map_eq_nil_iff] at hnone
      exact absurd hnone hne
    · obtain ⟨v, hv, hslow⟩ := hstep.inv.slowest.attained
      rw [hinv.counters.minClock_eq, ← hslow]
      exact (hinv.slowest.le v hv).trans (E.progress_mono (hn v))
  refine ⟨h.sorted, fun j v => ?_, fun j hj E hE => ?_, fun j hj E hE => ?_⟩
  · by_cases hji : j = i
    · subst hji
      simp only [Function.update_self, List.count_append, List.count_singleton]
      by_cases hvw : v = w
      · subst hvw
        have := C.lt_of_message hr
        simp only [BEq.rfl, if_true]
        omega
      · have := h.arrived j v
        rw [if_neg (by simpa using fun hwv => hvw hwv.symm)]
        omega
    · simp only [Function.update_of_ne hji]
      exact h.arrived j v
  · by_cases hji : j = i
    · subst hji
      simp only [Function.update_self]
      exact (hserved E hE).1
    · simp only [Function.update_of_ne hji]
      exact h.reached j hj E hE
  · by_cases hji : j = i
    · subst hji
      simp only [Function.update_self]
      exact (hserved E hE).2
    · simp only [Function.update_of_ne hji]
      exact h.stamped j hj E hE

end Step

/-- Two workers and two servers with one chunk of two keys each. -/
def pairCluster (staleness : ℕ) : Cluster (MapStore ℤ) ℤ where
  t := setMaxKeyAndChunkSize 2 4 2
  numServers := 2
  partitioned := partitioned_set (by omega) (by omega) (by omega) (by omega) (by omega) (by omega)
  isVector := false
  view i := mapView ℤ _ i
  owned i _ k _ hk := by
    have hmax : k < (setMaxKeyAndChunkSize 2 4 2).maxKey := hk.trans_le (Nat.min_le_right _ _)
    exact hmax.trans (by decide)
  workers := Finset.range 2
  workers_nonempty := ⟨0, by decide⟩
  staleness
  kvId := 0
  firstTs _ := 0
  flags _ := ⟨true, true, true, fun _ => false⟩
  sendAll _ := rfl
  controlled _ := rfl
  start i := .new i 2 ⟨fun _ => none⟩ false staleness
  start_serverId _ := rfl
  start_isVector _ := rfl
  start_staleness _ := rfl
  start_initCount _ := rfl
  start_good _ := trivial

end FlexPS.KVStore
