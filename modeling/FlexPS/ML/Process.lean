import FlexPS.KVStore.ClusterFetch
import FlexPS.ML.FetchProtocol

/-!
# A process cache in a cluster

The threads of a process are workers of a cluster.  What they fetch into the cache of the process
comes from the servers: a thread that is to fetch chunks calls `PullChunksWithMinClock` of its
`KVWorker`, waits, and stores what the replies are put together to.  Outside its calls of the cache
a thread may push; the workers of other processes call what they like.

## Main definitions

* `ProcessState`, `processStep` — the cluster and the cache.
* `CachePhase.Listed`, `CachePhase.current` — the chunks a thread has to do with are in order; the
  call that it is in.
* `FetchInv`, `fetchInv_step` — what was delivered to the cache are copies from the servers, as new
  as what was asked for, if the servers answer with what is asked for.
* `CacheCall.Timely` — the call asks for a clock that the pushes of its thread let it get.
* `ProcessInv`, `processInv_step` — then the servers do so.
-/

namespace FlexPS.ML

open KVStore Lib ModelWithCM

variable {S Val : Type}

/-! ## The system -/

/-- The cluster, the cache, and the calls that fetching threads wait for. -/
structure ProcessState (S Val : Type) where
  cluster : ClusterState S Val
  cache : CacheSystem Val
  fetches : ℕ → Option ℕ

/-- What the schedule decides. -/
inductive ProcessInput (Val : Type) where
  | send (v : ℕ) (call : Call Val)
  | deliver (i v : ℕ)
  | call (t : ℕ) (c : CacheCall)
  | proceed (t : ℕ)
  | wake (t : ℕ)
  | fetch (t : ℕ)
  | arrive (t : ℕ) (order : List ℕ)

namespace ProcessState

variable [StorageT S Val] (C : Cluster S Val)

/-- Before anything happens. -/
def init : ProcessState S Val := ⟨C.init, .new, fun _ => none⟩

/-- Thread `t` sends its fetch. -/
def fetch (s : ProcessState S Val) (t : ℕ) (real : List ℕ) : Option (ProcessState S Val) := do
  let cluster ← C.send s.cluster t (.pullChunksWithMinClock real (real.map fun _ => []))
  let number := (s.cluster.calls t).length
  some { s with cluster, fetches := Function.update s.fetches t (some number) }

end ProcessState

section Step

variable [StorageT S Val] [Add Val] (C : Cluster S Val)

/-- One step. -/
def processStep (s : ProcessState S Val) :
    ProcessInput Val → Option (ProcessState S Val × List (CacheEvent Val))
  | .send v call =>
      match s.cache.threads v with
      | .idle => do
          let cluster ← C.send s.cluster v call
          some ({ s with cluster }, [])
      | _ => none
  | .deliver i v => do
      let cluster ← C.deliver s.cluster i v
      some ({ s with cluster }, [])
  | .call t c => do
      let (cache, o) ← cacheStep C.t s.cache (.call t c)
      some ({ s with cache }, o)
  | .proceed t => do
      let (cache, o) ← cacheStep C.t s.cache (.proceed t)
      some ({ s with cache }, o)
  | .wake t => do
      let (cache, o) ← cacheStep C.t s.cache (.wake t)
      some ({ s with cache }, o)
  | .fetch t =>
      match s.cache.threads t, s.fetches t with
      | .fetching _ real _, none => do
          let s ← s.fetch C t real
          some (s, [])
      | _, _ => none
  | .arrive t order => do
      let k ← s.fetches t
      let (chunks, clock) ← C.fetched s.cluster t k order
      let (cache, o) ← cacheStep C.t s.cache (.deliver t clock chunks)
      some ({ s with cache, fetches := Function.update s.fetches t none }, o)

/-- What callers have to respect: sorted keys and chunk ids, in range. -/
def CacheCall.Valid (t : RangeTable) : CacheCall → Prop
  | pullWithMinClock keys _ => ValidKeys t keys
  | pullChunksWithMinClock chunks _ => chunks.Pairwise (· ≤ ·) ∧ ∀ c ∈ chunks, c < t.chunkNum

instance CacheCall.decidableValid (t : RangeTable) (c : CacheCall) : Decidable (c.Valid t) := by
  cases c <;> unfold CacheCall.Valid <;> infer_instance

/-- An input whose keys or chunk ids are sorted. -/
def ProcessInput.Valid (t : RangeTable) : ProcessInput Val → Prop
  | .send _ c => c.Sorted t
  | .call _ c => c.Valid t
  | _ => True

instance ProcessInput.decidableValid (t : RangeTable) (i : ProcessInput Val) :
    Decidable (i.Valid t) := by
  cases i <;> unfold ProcessInput.Valid <;> infer_instance

/-- Nobody calls anything: messages are delivered, and calls go on. -/
def ProcessInput.background : ProcessInput Val → Bool
  | send _ _ | call _ _ => false
  | _ => true

end Step

/-! ## Lists of chunks -/

/-- Chunk ids of the table, sorted. -/
def Listed (t : RangeTable) (ids : List ℕ) : Prop :=
  ids.Pairwise (· ≤ ·) ∧ ∀ c ∈ ids, c < t.chunkNum

theorem Listed.sublist {t : RangeTable} {ids ids' : List ℕ} (h : Listed t ids)
    (hsub : ids'.Sublist ids) : Listed t ids' :=
  ⟨h.1.sublist hsub, fun c hc => h.2 c (hsub.subset hc)⟩

/-- Different chunks can be fetched in one call. -/
theorem Listed.inOrder {t : RangeTable} {ids : List ℕ} (h : Listed t ids) (hnodup : ids.Nodup) :
    t.InOrder ids := by
  refine t.inOrder_of_lt ?_ h.2
  exact (h.1.and hnodup).imp fun hab => lt_of_le_of_ne hab.1 hab.2

/-- The chunks that a valid call looks at: different ones, if it does not go through the fetch
manager. -/
theorem CacheCall.Valid.listed {t : RangeTable} {n : ℕ} (ht : t.Partitioned n) {c : CacheCall}
    (h : c.Valid t) {todo : List ℕ} (htodo : c.toCheck t = some todo) :
    Listed t todo ∧ (c.managed = false → todo.Nodup) := by
  cases c with
  | pullWithMinClock keys m =>
      obtain ⟨ids, hids, hstrict, hmem⟩ := chunksToPrepare_spec h.1 h.2 none (by simp)
      obtain rfl := Option.some.inj (hids.symm.trans htodo)
      have hlt : ∀ c ∈ ids, c < t.chunkNum := by
        intro c hc
        obtain ⟨-, k, hk, rfl⟩ := (hmem c).mp hc
        have hkey := h.2 k hk
        rw [ht.chunkNum_eq]
        exact Nat.lt_succ_of_le (Nat.div_le_div_right (by omega))
      exact ⟨⟨hstrict.imp Nat.le_of_lt, hlt⟩, fun _ => hstrict.imp Nat.ne_of_lt⟩
  | pullChunksWithMinClock chunks m =>
      obtain rfl := Option.some.inj htodo
      exact ⟨h, by simp [managed]⟩

/-- The lists of a thread are sorted, and a direct fetch names no chunk twice. -/
def CachePhase.Listed (t : RangeTable) : CachePhase Val → Prop
  | collecting c todo toFetch =>
      ML.Listed t (toFetch ++ todo) ∧ (c.managed = false → (toFetch ++ todo).Nodup)
  | entering _ toFetch | blocked _ toFetch => ML.Listed t toFetch
  | evaluating _ todo real wait => ML.Listed t (real ++ todo) ∧ ML.Listed t (wait ++ todo)
  | fetching c real wait =>
      ML.Listed t real ∧ ML.Listed t wait ∧ (c.managed = false → real.Nodup)
  | storing _ _ _ _ wait => ML.Listed t wait
  | idle | copying _ _ _ | reading _ _ _ _ _ | aborted => True

section Listed

variable {table : RangeTable} {t : ℕ} {m m' : ChunkBasedPSModel Val}
  {phase phase' : CachePhase Val} {o : List (CacheEvent Val)} {c : CacheCall}

theorem listed_handOut (h : CachePhase.handOut table c = some phase) : phase.Listed table := by
  rcases handOut_cases h with ⟨_, rfl⟩ | ⟨_, rfl⟩ <;> trivial

theorem listed_nextRound {toFetch : List ℕ} (h : CachePhase.nextRound table c toFetch = some phase)
    (hlist : Listed table toFetch) : phase.Listed table := by
  unfold CachePhase.nextRound at h
  split at h
  · exact listed_handOut h
  · obtain rfl := Option.some.inj h
    exact hlist

theorem listed_nil (t : RangeTable) : Listed t [] := ⟨.nil, by simp⟩

/-- A move keeps the lists sorted. -/
theorem Move.listed (h : Move table t m phase m' phase' o) (hphase : phase.Listed table)
    (hmanaged : ∀ c todo real wait, phase = .evaluating c todo real wait → c.managed = true)
    (hcall : ∀ c todo, phase' = .collecting c todo [] → phase = .idle →
      Listed table todo ∧ (c.managed = false → todo.Nodup)) :
    phase'.Listed table := by
  cases h with
  | call htodo => exact hcall _ _ rfl rfl
  | collectOld hold =>
      simp only [CachePhase.Listed, List.append_assoc, List.singleton_append]
      exact hphase
  | @collectFresh c id todo toFetch hfresh =>
      have hsub : (toFetch ++ todo).Sublist (toFetch ++ id :: todo) :=
        (List.Sublist.refl _).append (List.sublist_cons_self id todo)
      exact ⟨Listed.sublist hphase.1 hsub, fun hdirect => (hphase.2 hdirect).sublist hsub⟩
  | collected hnext =>
      simp only [CachePhase.Listed, List.append_nil] at hphase
      unfold CachePhase.collected at hnext
      split at hnext
      · exact listed_nextRound hnext hphase.1
      · obtain rfl := Option.some.inj hnext
        exact ⟨hphase.1, listed_nil table, hphase.2⟩
  | enter => exact ⟨hphase, hphase⟩
  | @take c id todo real wait hold hvisit =>
      refine ⟨?_, hphase.2.sublist ((List.Sublist.refl _).append (List.sublist_cons_self id todo))⟩
      rw [List.append_assoc, List.singleton_append]
      exact hphase.1
  | @await c id todo real wait hold hvisit =>
      refine ⟨hphase.1.sublist ((List.Sublist.refl _).append (List.sublist_cons_self id todo)), ?_⟩
      rw [List.append_assoc, List.singleton_append]
      exact hphase.2
  | @drop c id todo real wait hfresh =>
      exact ⟨hphase.1.sublist ((List.Sublist.refl _).append (List.sublist_cons_self id todo)),
        hphase.2.sublist ((List.Sublist.refl _).append (List.sublist_cons_self id todo))⟩
  | decide hnext =>
      simp only [CachePhase.Listed, List.append_nil] at hphase
      unfold CachePhase.decided at hnext
      split at hnext
      · split at hnext
        · exact listed_handOut hnext
        · obtain rfl := Option.some.inj hnext
          exact hphase.2
      · obtain rfl := Option.some.inj hnext
        exact ⟨hphase.1, hphase.2, fun hdirect => by simp [hmanaged _ _ _ _ rfl] at hdirect⟩
  | wake => exact hphase
  | deliver hlen => exact hphase.2.1
  | store => exact hphase
  | finish hmanaged hclock hnext => exact listed_nextRound hnext hphase
  | stored hdirect hnext => exact listed_handOut hnext
  | _ => trivial

theorem CachePhase.Listed.notified (h : phase.Listed table) : phase.notified.Listed table := by
  cases phase with
  | blocked c toFetch => exact h
  | _ => exact h

end Listed

/-! ## The calls of the threads -/

/-- The call that the thread is in. -/
def CachePhase.current : CachePhase Val → Option CacheCall
  | idle | aborted => none
  | collecting c _ _ | entering c _ | evaluating c _ _ _ | blocked c _ | fetching c _ _
  | storing c _ _ _ _ | copying c _ _ | reading c _ _ _ _ => some c

section Current

variable {table : RangeTable} {t : ℕ} {m m' : ChunkBasedPSModel Val}
  {phase phase' : CachePhase Val} {o : List (CacheEvent Val)} {c : CacheCall}

@[simp] theorem CachePhase.current_notified (phase : CachePhase Val) :
    phase.notified.current = phase.current := by
  cases phase <;> rfl

/-- The clock that a thread asks for is the one of its call. -/
theorem CachePhase.minClock_of_current (h : phase.current = some c) :
    phase.minClock = c.minClock := by
  cases phase with
  | idle | aborted => cases h
  | _ => exact congrArg CacheCall.minClock (Option.some.inj h)

theorem current_handOut (h : CachePhase.handOut table c = some phase) :
    phase.current = some c := by
  rcases handOut_cases h with ⟨_, rfl⟩ | ⟨_, rfl⟩ <;> rfl

theorem current_nextRound {toFetch : List ℕ}
    (h : CachePhase.nextRound table c toFetch = some phase) : phase.current = some c := by
  unfold CachePhase.nextRound at h
  split at h
  · exact current_handOut h
  · obtain rfl := Option.some.inj h
    rfl

theorem current_collected {toFetch : List ℕ}
    (h : CachePhase.collected table c toFetch = some phase) : phase.current = some c := by
  unfold CachePhase.collected at h
  split at h
  · exact current_nextRound h
  · obtain rfl := Option.some.inj h
    rfl

theorem current_decided {real wait : List ℕ}
    (h : CachePhase.decided table c real wait = some phase) : phase.current = some c := by
  unfold CachePhase.decided at h
  split at h
  · split at h
    · exact current_handOut h
    · obtain rfl := Option.some.inj h
      rfl
  · obtain rfl := Option.some.inj h
    rfl

/-- **What becomes of a call**: the thread stays in it, or it returns, or the assertion fires. -/
inductive CallMove (table : RangeTable) (t : ℕ) (c : CacheCall) :
    CachePhase Val → List (CacheEvent Val) → Prop
  | stays {later : CachePhase Val} {seen : List (CacheEvent Val)}
      (hcurrent : later.current = some c)
      (hseen : seen = [] ∨ ∃ clock chunks, seen = [.delivered t clock chunks]) :
      CallMove table t c later seen
  | aborts : CallMove table t c .aborted []
  | returns {keys vals clock} (hdirect : c.managed = false) :
      CallMove table t c .idle [.returned t keys c.minClock vals clock]
  | returnsChunks {copies} :
      CallMove table t c .idle [.returnedChunks t (c.chunks table) c.minClock copies]

theorem Move.callMove (h : Move table t m phase m' phase' o) (hc : phase.current = some c) :
    CallMove table t c phase' o := by
  cases h with
  | call => cases hc
  | collected hphase =>
      obtain rfl := Option.some.inj hc
      exact .stays (current_collected hphase) (.inl rfl)
  | decide hphase =>
      obtain rfl := Option.some.inj hc
      exact .stays (current_decided hphase) (.inl rfl)
  | finish _ _ hphase =>
      obtain rfl := Option.some.inj hc
      exact .stays (current_nextRound hphase) (.inl rfl)
  | stored _ hphase =>
      obtain rfl := Option.some.inj hc
      exact .stays (current_handOut hphase) (.inl rfl)
  | deliver => exact .stays hc (.inr ⟨_, _, rfl⟩)
  | abort => exact .aborts
  | copied =>
      obtain rfl := Option.some.inj hc
      exact .returnsChunks
  | readAll =>
      obtain rfl := Option.some.inj hc
      exact .returns rfl
  | _ => exact .stays hc (.inl rfl)

/-- What becomes of the calls of all threads in a step. -/
inductive CallStep (table : RangeTable) (s s' : CacheSystem Val) : List (CacheEvent Val) → Prop
  | stay {seen : List (CacheEvent Val)}
      (hcurrent : ∀ t, (s'.threads t).current = (s.threads t).current)
      (hseen : seen = [] ∨ ∃ t clock chunks, seen = [.delivered t clock chunks]) :
      CallStep table s s' seen
  | abort {t : ℕ} (haborted : s'.threads t = .aborted) : CallStep table s s' []
  | finish {t : ℕ} {c : CacheCall} {e : CacheEvent Val}
      (hcurrent : (s.threads t).current = some c) (hidle : s'.threads t = .idle)
      (hothers : ∀ t' ≠ t, (s'.threads t').current = (s.threads t').current)
      (hreturns :
        (c.managed = false ∧ ∃ keys vals clock, e = .returned t keys c.minClock vals clock) ∨
          ∃ copies, e = .returnedChunks t (c.chunks table) c.minClock copies) :
      CallStep table s s' [e]

/-- **A step in which nobody calls the cache** leaves all threads in their calls, but for one that
returns. -/
theorem cacheStep_callStep {s s' : CacheSystem Val} {i : CacheInput Val}
    (h : cacheStep table s i = some (s', o)) (hi : ∀ t c, i ≠ .call t c) :
    CallStep table s s' o := by
  have hof := cacheStep_stepOf h
  have hbusy : ∃ c, (s.threads i.thread).current = some c := by
    cases hphase : s.threads i.thread with
    | idle | aborted =>
        exfalso
        cases i with
        | call t c => exact hi t c rfl
        | proceed t => simp [cacheStep, proceed, show s.threads t = _ from hphase] at h
        | wake t => simp [cacheStep, show s.threads t = _ from hphase] at h
        | deliver t clock chunks => simp [cacheStep, show s.threads t = _ from hphase] at h
    | _ => exact ⟨_, rfl⟩
  obtain ⟨c, hc⟩ := hbusy
  have hothers : ∀ t ≠ i.thread, (s'.threads t).current = (s.threads t).current := by
    intro t ht
    rcases hof.others with ⟨-, hsame⟩ | ⟨-, hnotified⟩
    · rw [hsame t ht]
    · rw [hnotified t ht, CachePhase.current_notified]
  have hmove := hof.move.callMove hc
  generalize hlater : s'.threads i.thread = later at hmove
  cases hmove with
  | stays hcurrent hseen =>
      refine .stay (fun t => ?_) (hseen.imp_right fun hseen => ⟨_, hseen⟩)
      by_cases ht : t = i.thread
      · rw [ht, hlater, hcurrent, hc]
      · exact hothers t ht
  | aborts => exact .abort hlater
  | returns hdirect => exact .finish hc hlater hothers (.inl ⟨hdirect, _, _, _, rfl⟩)
  | returnsChunks => exact .finish hc hlater hothers (.inr ⟨_, rfl⟩)

end Current

/-! ## The invariant -/

section Invariant

variable [StorageT S Val]

/-- The call asks for a clock that the servers give its thread: at most the staleness behind the
pushes of the thread. -/
def CacheCall.Timely (C : Cluster S Val) (s : ClusterState S Val) (t : ℕ) (c : CacheCall) : Prop :=
  c.minClock < 2 ^ 31 ∧ c.minClock ≤ max 0 ((pushes (s.calls t)).length - C.staleness : ℤ)

/-- Thread `t` waits for the chunks of call `k`, its last one. -/
def ProcessState.Awaits (s : ProcessState S Val) (t k : ℕ) : Prop :=
  ∃ c real wait ptrs, s.cache.threads t = .fetching c real wait ∧
    (s.cluster.calls t)[k]? = some (.pullChunksWithMinClock real ptrs) ∧
    pushNo (s.cluster.calls t) k = (pushes (s.cluster.calls t)).length

variable [AddCommMonoid Val]

/-- A chunk as a server held it, with everything below the clock. -/
def Copied (C : Cluster S Val) (s : ClusterState S Val) (clock : ℤ) (p : ℕ × List Val) : Prop :=
  p.1 < C.t.chunkNum ∧ ∃ w k A, C.Copy s w k p.1 p.2 clock A

/-- The invariant of a process cache in a cluster. -/
structure FetchInv (C : Cluster S Val) (out : List (CacheEvent Val)) (s : ProcessState S Val) :
    Prop where
  cluster : ClusterInv C s.cluster
  cache : CacheInv C.t out s.cache
  listed : ∀ t, (s.cache.threads t).Listed C.t
  awaits : ∀ t, ∀ k ∈ s.fetches t, s.Awaits t k
  /-- What was delivered are copies from the servers. -/
  copied : ∀ clock p, Delivered out clock p → Copied C s.cluster clock p

theorem fetchInv_init (C : Cluster S Val) : FetchInv C [] (ProcessState.init C) where
  cluster := clusterInv_init
  cache := cacheInv_new
  listed _ := trivial
  awaits _ _ h := by cases h
  copied _ _ h := by
    obtain ⟨t, chunks, hmem, -⟩ := h
    cases hmem

/-- The servers that have answered the fetch of thread `t` were at the clock that it asks for. -/
def ProcessState.Honest (C : Cluster S Val) (s : ProcessState S Val) (t : ℕ) : Prop :=
  ∀ k ∈ s.fetches t, (s.cache.threads t).minClock < 2 ^ 31 ∧ ∀ i < C.numServers,
    ∀ r ∈ s.cluster.replies i, r.key = C.replyKey (t, k) →
      (s.cache.threads t).minClock ≤ r.minClock

variable {C : Cluster S Val} {s s' : ProcessState S Val} {out o : List (CacheEvent Val)}

theorem Copied.later {cluster cluster' : ClusterState S Val} {clock : ℤ} {p : ℕ × List Val}
    (hcopied : Copied C cluster clock p) (h : ClusterInv C cluster) (h' : ClusterInv C cluster')
    (hlater : cluster.Later cluster') : Copied C cluster' clock p := by
  obtain ⟨hlt, w, k, A, hcopy⟩ := hcopied
  exact ⟨hlt, w, k, A, hcopy.later h h' hlater
    (C.partitioned.owner_spec (C.partitioned.chunk_lt hlt)).1⟩

/-- The cluster goes on, and the threads that are in a call push nothing. -/
theorem FetchInv.others (h : FetchInv C out s) {cluster : ClusterState S Val}
    (hcluster : ClusterInv C cluster) (hlater : s.cluster.Later cluster)
    (hpushes : ∀ t, s.cache.threads t ≠ .idle →
      pushes (cluster.calls t) = pushes (s.cluster.calls t)) :
    FetchInv C out { s with cluster } where
  cluster := hcluster
  cache := h.cache
  listed := h.listed
  awaits t k hk := by
    obtain ⟨c, real, wait, ptrs, hphase, hcall, hnumber⟩ := h.awaits t k hk
    refine ⟨c, real, wait, ptrs, hphase, Cluster.getElem?_of_extension (hlater.calls t) hcall, ?_⟩
    rw [hpushes t (by simp [hphase]), ← hnumber]
    exact pushNo_extend (hlater.calls t) (List.getElem?_eq_some_iff.mp hcall).1.le
  copied clock p hp := (h.copied clock p hp).later h.cluster hcluster hlater

/-- A step of the cache.  What it brings from the servers are copies, as new as what was asked
for. -/
theorem FetchInv.moved (h : FetchInv C out s) {i : CacheInput Val} {cache : CacheSystem Val}
    {fetches : ℕ → Option ℕ} (hstep : cacheStep C.t s.cache i = some (cache, o))
    (hdelivered : ∀ t clock chunks, .delivered t clock chunks ∈ o →
      (s.cache.threads i.thread).minClock ≤ clock ∧ ∀ p ∈ chunks, Copied C s.cluster clock p)
    (hlisted : (cache.threads i.thread).Listed C.t)
    (hfetches : ∀ t, ∀ k ∈ fetches t, t ≠ i.thread ∧ k ∈ s.fetches t) :
    FetchInv C (out ++ o) { s with cache, fetches } := by
  have hof := cacheStep_stepOf hstep
  have hothers : ∀ t ≠ i.thread, cache.threads t = s.cache.threads t ∨
      cache.threads t = (s.cache.threads t).notified := by
    intro t ht
    rcases hof.others with ⟨-, hsame⟩ | ⟨-, hnotified⟩
    · exact .inl (hsame t ht)
    · exact .inr (hnotified t ht)
  refine ⟨h.cluster, ?_, fun t => ?_, fun t k hk => ?_, fun clock p hp => ?_⟩
  · exact cacheInv_step h.cache hof fun clock chunks hmem => (hdelivered _ clock chunks hmem).1
  · by_cases ht : t = i.thread
    · exact ht ▸ hlisted
    · rcases hothers t ht with heq | heq
      · rw [heq]
        exact h.listed t
      · rw [heq]
        exact (h.listed t).notified
  · obtain ⟨ht, hk⟩ := hfetches t k hk
    obtain ⟨c, real, wait, ptrs, hphase, hcall⟩ := h.awaits t k hk
    refine ⟨c, real, wait, ptrs, ?_, hcall⟩
    rcases hothers t ht with heq | heq
    · rw [heq, hphase]
    · rw [heq, hphase]
      rfl
  · obtain ⟨t, chunks, hmem, hp⟩ := hp
    rcases List.mem_append.mp hmem with hmem | hmem
    · exact h.copied clock p ⟨t, chunks, hmem, hp⟩
    · exact (hdelivered t clock chunks hmem).2 p hp

/-- A thread that does not wait for the servers takes a step. -/
theorem FetchInv.proceeds (h : FetchInv C out s) {i : CacheInput Val}
    {cache : CacheSystem Val} (hstep : cacheStep C.t s.cache i = some (cache, o))
    (hdeliver : ∀ t clock chunks, i ≠ .deliver t clock chunks)
    (hlisted : ∀ c todo, cache.threads i.thread = .collecting c todo [] →
      s.cache.threads i.thread = .idle → Listed C.t todo ∧ (c.managed = false → todo.Nodup)) :
    FetchInv C (out ++ o) { s with cache } := by
  have hmove := (cacheStep_stepOf hstep).move
  have hbusy : ∀ c real wait, s.cache.threads i.thread ≠ .fetching c real wait := by
    intro c real wait hphase
    cases i with
    | call t call => simp [cacheStep, show s.cache.threads t = _ from hphase] at hstep
    | proceed t => simp [cacheStep, proceed, show s.cache.threads t = _ from hphase] at hstep
    | wake t => simp [cacheStep, show s.cache.threads t = _ from hphase] at hstep
    | deliver t clock chunks => exact hdeliver t clock chunks rfl
  refine h.moved hstep (fun t clock chunks hmem => ?_)
    (hmove.listed (h.listed _) (fun c todo real wait hphase => ?_) hlisted)
    (fun t k hk => ⟨?_, hk⟩)
  · generalize s.cache.threads i.thread = phase at hmove hbusy
    generalize cache.threads i.thread = phase' at hmove
    generalize cache.model = m' at hmove
    cases hmove with
    | deliver => exact absurd rfl (hbusy _ _ _)
    | _ => simp at hmem
  · have hsound := h.cache.sound i.thread
    rw [hphase] at hsound
    exact hsound.1
  · rintro rfl
    obtain ⟨c, real, wait, ptrs, hphase, -⟩ := h.awaits _ k hk
    exact hbusy c real wait hphase

/-- A thread fetches every chunk once, and in order. -/
theorem FetchInv.inOrder (h : FetchInv C out s) {t : ℕ} {c : CacheCall} {real wait : List ℕ}
    (hphase : s.cache.threads t = .fetching c real wait) : C.t.InOrder real := by
  have hlisted := h.listed t
  have hnodup := h.cache.nodup t
  rw [hphase] at hlisted hnodup
  refine hlisted.1.inOrder ?_
  cases hmanaged : c.managed with
  | true => simpa only [CachePhase.taken, hmanaged, if_true] using hnodup
  | false => exact hlisted.2.2 hmanaged

/-- **What a fetch delivers** are copies from the servers, as new as what was asked for. -/
theorem FetchInv.fetched (h : FetchInv C out s) {t k : ℕ} {order : List ℕ}
    {chunks : List (List Val)} {clock : ℤ} (hhonest : s.Honest C t) (hk : s.fetches t = some k)
    (hfetched : C.fetched s.cluster t k order = some (chunks, clock)) :
    ∃ c real wait, s.cache.threads t = .fetching c real wait ∧ c.minClock ≤ clock ∧
      ∃ vals : ℕ → List Val, chunks = real.map vals ∧
        ∀ id ∈ real, Copied C s.cluster clock (id, vals id) := by
  obtain ⟨c, real, wait, ptrs, hphase, hcall, -⟩ := h.awaits t k hk
  have hlisted := h.listed t
  obtain ⟨hint, hmin⟩ := hhonest k hk
  rw [hphase] at hlisted hint hmin
  obtain ⟨⟨vals, hvals, hcopies⟩, hle⟩ := h.cluster.fetched hcall (h.inOrder hphase) hfetched
  exact ⟨c, real, wait, hphase, hle _ (Int.le_sub_one_of_lt hint) hmin, vals, hvals, fun id hid =>
    ⟨hlisted.1.2 id hid, t, k, hcopies id hid⟩⟩

/-- The chunks of a fetch arrive. -/
theorem FetchInv.arrives (h : FetchInv C out s) {t k : ℕ} {order : List ℕ}
    {chunks : List (List Val)} {clock : ℤ} {cache : CacheSystem Val} (hhonest : s.Honest C t)
    (hk : s.fetches t = some k)
    (hfetched : C.fetched s.cluster t k order = some (chunks, clock))
    (hstep : cacheStep C.t s.cache (.deliver t clock chunks) = some (cache, o)) :
    FetchInv C (out ++ o)
      { s with cache, fetches := Function.update s.fetches t none } := by
  obtain ⟨c, real, wait, hphase, hclock, vals, rfl, hcopies⟩ := h.fetched hhonest hk hfetched
  have hlisted := h.listed t
  rw [hphase] at hlisted
  have hmoved := hstep
  simp only [cacheStep, hphase] at hmoved
  split at hmoved
  · obtain ⟨rfl, rfl⟩ := Prod.mk.inj (Option.some.inj hmoved)
    refine h.moved hstep ?_ ?_ ?_
    · intro t' clock' chunks' hmem
      obtain ⟨-, rfl, rfl⟩ := CacheEvent.delivered.inj (List.mem_singleton.mp hmem)
      refine ⟨?_, fun p hp => ?_⟩
      · show (s.cache.threads t).minClock ≤ _
        rw [hphase]
        exact hclock
      rw [← List.map_prod_left_eq_zip, List.mem_map] at hp
      obtain ⟨id, hid, rfl⟩ := hp
      exact hcopies id hid
    · simp only [CacheInput.thread, CacheSystem.put, Function.update_self]
      exact hlisted.2.1
    · intro t' k' hk'
      by_cases ht : t' = t
      · subst ht
        rw [Function.update_self] at hk'
        cases hk'
      · rw [Function.update_of_ne ht] at hk'
        exact ⟨ht, hk'⟩
  · cases hmoved

/-- A thread sends its fetch. -/
theorem FetchInv.fetches (h : FetchInv C out s) {t : ℕ} {c : CacheCall} {real wait : List ℕ}
    (hphase : s.cache.threads t = .fetching c real wait) (hfetch : s.fetch C t real = some s') :
    FetchInv C out s' := by
  obtain ⟨cluster, hsend, hfetch⟩ := Option.bind_eq_some_iff.mp hfetch
  obtain rfl := Option.some.inj hfetch
  have hlisted := h.listed t
  rw [hphase] at hlisted
  set call : Call Val := .pullChunksWithMinClock real (real.map fun _ => []) with hcall
  have hsorted : call.Sorted C.t := ⟨hlisted.1.1, hlisted.1.2, by simp⟩
  have hcluster := clusterInv_send h.cluster hsorted hsend
  have hlater := C.later_send hsend
  obtain ⟨-, rfl⟩ := C.send_eq hsend
  have hpushes : ∀ v, pushes (Function.update s.cluster.calls t (s.cluster.calls t ++ [call]) v) =
      pushes (s.cluster.calls v) := by
    intro v
    by_cases hv : v = t
    · subst hv
      rw [Function.update_self]
      simp [pushes, hcall, Call.isPush]
    · rw [Function.update_of_ne hv]
  have hnow := h.others hcluster hlater fun v _ => hpushes v
  refine ⟨hnow.cluster, hnow.cache, hnow.listed, fun v k hk => ?_, hnow.copied⟩
  by_cases hv : v = t
  · subst hv
    simp only [Function.update_self] at hk
    obtain rfl := Option.some.inj hk
    refine ⟨c, real, wait, real.map fun _ => [], hphase, ?_, ?_⟩
    · simp only [Function.update_self, List.getElem?_concat_length, hcall]
    · rw [hpushes v]
      simp only [Function.update_self]
      rw [pushNo_extend (List.prefix_append _ _) le_rfl, pushNo_length]
  · simp only [Function.update_of_ne hv] at hk
    exact hnow.awaits v k hk

/-- **Every step keeps the invariant**, when fetches are answered with what they ask for. -/
theorem fetchInv_step (h : FetchInv C out s) {i : ProcessInput Val} (hi : i.Valid C.t)
    (hhonest : ∀ t order, i = .arrive t order → s.Honest C t)
    (hstep : processStep C s i = some (s', o)) : FetchInv C (out ++ o) s' := by
  cases i with
  | send v call =>
      simp only [processStep] at hstep
      split at hstep
      · next hidle =>
          obtain ⟨cluster, hsend, hstep⟩ := Option.bind_eq_some_iff.mp hstep
          obtain ⟨rfl, rfl⟩ := Prod.mk.inj (Option.some.inj hstep)
          rw [List.append_nil]
          refine h.others (clusterInv_send h.cluster hi hsend) (C.later_send hsend) fun t ht => ?_
          obtain ⟨-, rfl⟩ := C.send_eq hsend
          have hne : t ≠ v := fun heq => ht (heq ▸ hidle)
          simp only [Function.update_of_ne hne]
      · cases hstep
  | deliver i v =>
      obtain ⟨cluster, hdeliver, hstep⟩ := Option.bind_eq_some_iff.mp hstep
      obtain ⟨rfl, rfl⟩ := Prod.mk.inj (Option.some.inj hstep)
      rw [List.append_nil]
      refine h.others (clusterInv_deliver h.cluster hdeliver) (C.later_deliver hdeliver) ?_
      obtain ⟨-, -, r, srv, new, -, -, rfl⟩ := C.deliver_eq hdeliver
      exact fun _ _ => rfl
  | call t c =>
      obtain ⟨⟨cache, o'⟩, hcache, hstep⟩ := Option.bind_eq_some_iff.mp hstep
      obtain ⟨rfl, rfl⟩ := Prod.mk.inj (Option.some.inj hstep)
      have hmoved := hcache
      simp only [cacheStep] at hmoved
      split at hmoved
      · obtain ⟨todo, htodo, hmoved⟩ := Option.bind_eq_some_iff.mp hmoved
        obtain ⟨rfl, rfl⟩ := Prod.mk.inj (Option.some.inj hmoved)
        have hat : (s.cache.put t (.collecting c todo [])).threads t = .collecting c todo [] :=
          Function.update_self ..
        refine h.proceeds hcache (by simp) fun c' todo' hphase _ => ?_
        obtain ⟨rfl, rfl, -⟩ := CachePhase.collecting.inj (hat.symm.trans hphase)
        exact CacheCall.Valid.listed C.partitioned hi htodo
      · cases hmoved
  | proceed t =>
      obtain ⟨⟨cache, o'⟩, hcache, hstep⟩ := Option.bind_eq_some_iff.mp hstep
      obtain ⟨rfl, rfl⟩ := Prod.mk.inj (Option.some.inj hstep)
      refine h.proceeds hcache (by simp) fun _ _ _ hidle => ?_
      simp [cacheStep, ML.proceed, show s.cache.threads t = _ from hidle] at hcache
  | wake t =>
      obtain ⟨⟨cache, o'⟩, hcache, hstep⟩ := Option.bind_eq_some_iff.mp hstep
      obtain ⟨rfl, rfl⟩ := Prod.mk.inj (Option.some.inj hstep)
      refine h.proceeds hcache (by simp) fun _ _ _ hidle => ?_
      simp [cacheStep, show s.cache.threads t = _ from hidle] at hcache
  | fetch t =>
      simp only [processStep] at hstep
      split at hstep
      · next c real wait hphase _ =>
          obtain ⟨s₁, hfetch, hstep⟩ := Option.bind_eq_some_iff.mp hstep
          obtain ⟨rfl, rfl⟩ := Prod.mk.inj (Option.some.inj hstep)
          rw [List.append_nil]
          exact h.fetches hphase hfetch
      · cases hstep
  | arrive t order =>
      simp only [processStep, Option.bind_eq_bind, Option.bind_eq_some_iff] at hstep
      obtain ⟨k, hk, ⟨chunks, clock⟩, hfetched, ⟨cache, o'⟩, hcache, hstep⟩ := hstep
      obtain ⟨rfl, rfl⟩ := Prod.mk.inj (Option.some.inj hstep)
      exact h.arrives (hhonest t order rfl) hk hfetched hcache

omit [AddCommMonoid Val] in
/-- A thread calls the cache. -/
theorem processStep_call [Add Val] {t : ℕ} {c : CacheCall}
    (h : processStep C s (.call t c) = some (s', o)) :
    s'.cluster = s.cluster ∧ s'.fetches = s.fetches ∧ s.cache.threads t = .idle ∧
      (s'.cache.threads t).current = some c ∧
      ∀ t' ≠ t, s'.cache.threads t' = s.cache.threads t' := by
  obtain ⟨⟨cache, o'⟩, hcache, h⟩ := Option.bind_eq_some_iff.mp h
  obtain ⟨rfl, rfl⟩ := Prod.mk.inj (Option.some.inj h)
  simp only [cacheStep] at hcache
  split at hcache
  · next hidle =>
      obtain ⟨todo, -, hcache⟩ := Option.bind_eq_some_iff.mp hcache
      obtain ⟨rfl, rfl⟩ := Prod.mk.inj (Option.some.inj hcache)
      refine ⟨rfl, rfl, hidle, ?_, fun t' ht => Function.update_of_ne ht _ _⟩
      simp only [CacheSystem.put, Function.update_self]
      rfl
  · cases hcache

omit [AddCommMonoid Val] in
/-- A worker calls the servers. -/
theorem processStep_send [Add Val] {v : ℕ} {call : Call Val}
    (h : processStep C s (.send v call) = some (s', o)) :
    s.cache.threads v = .idle ∧ ∃ cluster, C.send s.cluster v call = some cluster ∧
      s' = { s with cluster } := by
  simp only [processStep] at h
  split at h
  · next hidle =>
      obtain ⟨cluster, hsend, h⟩ := Option.bind_eq_some_iff.mp h
      obtain ⟨rfl, -⟩ := Prod.mk.inj (Option.some.inj h)
      exact ⟨hidle, cluster, hsend, rfl⟩
  · cases h

/-- No assertion of a thread has fired. -/
theorem FetchInv.not_aborted (h : FetchInv C out s) (t : ℕ) :
    s.cache.threads t ≠ .aborted := by
  intro haborted
  have hsound := h.cache.sound t
  rw [haborted] at hsound
  exact hsound

omit [AddCommMonoid Val] in
/-- Fetches are no pushes. -/
theorem ProcessState.fetch_eq {t : ℕ} {real : List ℕ} (h : s.fetch C t real = some s') :
    s'.cache = s.cache ∧ s.cluster.Later s'.cluster ∧
      ∀ v, pushes (s'.cluster.calls v) = pushes (s.cluster.calls v) := by
  obtain ⟨cluster, hsend, h⟩ := Option.bind_eq_some_iff.mp h
  obtain rfl := Option.some.inj h
  refine ⟨rfl, C.later_send hsend, fun v => ?_⟩
  obtain ⟨-, rfl⟩ := C.send_eq hsend
  by_cases hv : v = t
  · subst hv
    simp only [Function.update_self]
    simp [pushes, Call.isPush]
  · simp only [Function.update_of_ne hv]

/-- What a step does in which nobody calls anything. -/
structure Background (C : Cluster S Val) (s s' : ProcessState S Val)
    (seen : List (CacheEvent Val)) : Prop where
  later : s.cluster.Later s'.cluster
  pushes_eq : ∀ v, pushes (s'.cluster.calls v) = pushes (s.cluster.calls v)
  calls : CallStep C.t s.cache s'.cache seen

theorem processStep_background {i : ProcessInput Val} (hi : i.background = true)
    (hstep : processStep C s i = some (s', o)) : Background C s s' o := by
  have hstay : CallStep C.t s.cache s.cache ([] : List (CacheEvent Val)) :=
    .stay (fun _ => rfl) (.inl rfl)
  cases i with
  | send v call => cases hi
  | call t c => cases hi
  | deliver i v =>
      obtain ⟨cluster, hdeliver, hstep⟩ := Option.bind_eq_some_iff.mp hstep
      obtain ⟨rfl, rfl⟩ := Prod.mk.inj (Option.some.inj hstep)
      refine ⟨C.later_deliver hdeliver, ?_, hstay⟩
      obtain ⟨-, -, r, srv, new, -, -, rfl⟩ := C.deliver_eq hdeliver
      exact fun _ => rfl
  | proceed t =>
      obtain ⟨⟨cache, o'⟩, hcache, hstep⟩ := Option.bind_eq_some_iff.mp hstep
      obtain ⟨rfl, rfl⟩ := Prod.mk.inj (Option.some.inj hstep)
      exact ⟨.refl _, fun _ => rfl, cacheStep_callStep hcache (by simp)⟩
  | wake t =>
      obtain ⟨⟨cache, o'⟩, hcache, hstep⟩ := Option.bind_eq_some_iff.mp hstep
      obtain ⟨rfl, rfl⟩ := Prod.mk.inj (Option.some.inj hstep)
      exact ⟨.refl _, fun _ => rfl, cacheStep_callStep hcache (by simp)⟩
  | fetch t =>
      simp only [processStep] at hstep
      split at hstep
      · obtain ⟨s₁, hfetch, hstep⟩ := Option.bind_eq_some_iff.mp hstep
        obtain ⟨rfl, rfl⟩ := Prod.mk.inj (Option.some.inj hstep)
        obtain ⟨hcache, hlater, hpushes⟩ := ProcessState.fetch_eq hfetch
        exact ⟨hlater, hpushes, hcache ▸ hstay⟩
      · cases hstep
  | arrive t order =>
      simp only [processStep, Option.bind_eq_bind, Option.bind_eq_some_iff] at hstep
      obtain ⟨k, -, ⟨chunks, clock⟩, -, ⟨cache, o'⟩, hcache, hstep⟩ := hstep
      obtain ⟨rfl, rfl⟩ := Prod.mk.inj (Option.some.inj hstep)
      exact ⟨.refl _, fun _ => rfl, cacheStep_callStep hcache (by simp)⟩

omit [AddCommMonoid Val] in
/-- A thread that is in a call afterwards was in it before. -/
theorem Background.current_eq [Add Val] {o : List (CacheEvent Val)} (h : Background C s s' o)
    (hrunning : ∀ t, s'.cache.threads t ≠ .aborted) {t : ℕ} {c : CacheCall}
    (hc : (s'.cache.threads t).current = some c) : (s.cache.threads t).current = some c := by
  cases h.calls with
  | stay hcurrent _ => rwa [← hcurrent t]
  | abort haborted => exact absurd haborted (hrunning _)
  | @finish v c' e hcurrent hidle hothers hreturns =>
      by_cases ht : t = v
      · subst ht
        rw [hidle] at hc
        cases hc
      · rwa [← hothers t ht]

/-- The invariant when all calls of the cache are timely. -/
structure ProcessInv (C : Cluster S Val) (out : List (CacheEvent Val)) (s : ProcessState S Val) :
    Prop extends FetchInv C out s where
  timely : ∀ t, ∀ c ∈ (s.cache.threads t).current, c.Timely C s.cluster t

theorem processInv_init (C : Cluster S Val) : ProcessInv C [] (ProcessState.init C) :=
  ⟨fetchInv_init C, fun _ _ h => by cases h⟩

/-- A fetch for a timely call is answered with what it asks for. -/
theorem ProcessInv.honest (h : ProcessInv C out s) (t : ℕ) : s.Honest C t := by
  intro k hk
  obtain ⟨c, real, wait, ptrs, hphase, hcall, hnumber⟩ := h.awaits t k hk
  have hcurrent : (s.cache.threads t).current = some c := by
    rw [hphase]
    rfl
  obtain ⟨hint, hmin⟩ := h.timely t c hcurrent
  rw [CachePhase.minClock_of_current hcurrent]
  refine ⟨hint, fun i hi r hr hkey => ?_⟩
  obtain ⟨hpos, hfresh, -⟩ := h.cluster.minClock_reply hi hcall hr hkey
  rw [hnumber] at hfresh
  exact hmin.trans (max_le hpos (by omega))

omit [AddCommMonoid Val] in
/-- A call stays timely while its thread pushes nothing. -/
theorem CacheCall.Timely.later {cluster cluster' : ClusterState S Val} {t : ℕ} {c : CacheCall}
    (h : c.Timely C cluster t) (hpushes : pushes (cluster'.calls t) = pushes (cluster.calls t)) :
    c.Timely C cluster' t := by
  unfold CacheCall.Timely at h ⊢
  rwa [hpushes]

/-- **Every step keeps the invariant**, when calls of the cache are timely. -/
theorem processInv_step (h : ProcessInv C out s) {i : ProcessInput Val} (hi : i.Valid C.t)
    (htimely : ∀ t c, i = .call t c → c.Timely C s.cluster t)
    (hstep : processStep C s i = some (s', o)) : ProcessInv C (out ++ o) s' := by
  have hnow := fetchInv_step h.toFetchInv hi (fun t _ _ => h.honest t) hstep
  refine ⟨hnow, fun t c hc => ?_⟩
  cases i with
  | send v call =>
      obtain ⟨hidle, cluster, hsend, rfl⟩ := processStep_send hstep
      obtain ⟨-, rfl⟩ := C.send_eq hsend
      have hne : t ≠ v := by
        rintro rfl
        rw [show s.cache.threads t = _ from hidle] at hc
        cases hc
      exact (h.timely t c hc).later (by simp only [Function.update_of_ne hne])
  | call v c' =>
      obtain ⟨hcluster, -, -, hcurrent, hothers⟩ := processStep_call hstep
      rw [hcluster]
      by_cases ht : t = v
      · subst ht
        obtain rfl := Option.some.inj (hcurrent.symm.trans hc)
        exact htimely t _ rfl
      · rw [hothers t ht] at hc
        exact h.timely t c hc
  | _ =>
      have hback := processStep_background (by rfl) hstep
      exact (h.timely t c (hback.current_eq hnow.not_aborted hc)).later (hback.pushes_eq t)

omit [StorageT S Val] [AddCommMonoid Val] in
/-- Only a thread that has copied all its chunks hands them out. -/
theorem cacheStep_returnsChunks {table : RangeTable} {s s' : CacheSystem Val} {j : CacheInput Val}
    {t : ℕ} {chunks : List ℕ} {minClock : ℤ} {copies : List (ℕ × List Val × ℤ)}
    (h : cacheStep table s j = some (s', [.returnedChunks t chunks minClock copies])) :
    j = .proceed t ∧ ∃ c, s.threads t = .copying c [] copies := by
  have hcopied : j.thread = t ∧ ∃ c, s.threads j.thread = .copying c [] copies := by
    have hmove := (cacheStep_stepOf h).move
    generalize s.threads j.thread = phase at hmove
    generalize s'.threads j.thread = phase' at hmove
    generalize s'.model = m' at hmove
    cases hmove
    exact ⟨rfl, _, rfl⟩
  obtain ⟨rfl, c, hphase⟩ := hcopied
  cases j with
  | proceed t => exact ⟨rfl, c, hphase⟩
  | call t c => simp [cacheStep, show s.threads t = _ from hphase] at h
  | wake t => simp [cacheStep, show s.threads t = _ from hphase] at h
  | deliver t clock chunks => simp [cacheStep, show s.threads t = _ from hphase] at h

omit [AddCommMonoid Val] in
/-- What is seen in a step is seen in a step of the cache. -/
theorem processStep_seen [Add Val] {i : ProcessInput Val} (h : processStep C s i = some (s', o))
    (hseen : o ≠ []) : ∃ j, cacheStep C.t s.cache j = some (s'.cache, o) ∧ s'.cluster = s.cluster ∧
      ∀ t, j = .proceed t → i = .proceed t := by
  cases i with
  | send v call =>
      simp only [processStep] at h
      split at h
      · obtain ⟨cluster, -, h⟩ := Option.bind_eq_some_iff.mp h
        exact absurd (Prod.mk.inj (Option.some.inj h)).2.symm hseen
      · cases h
  | deliver i v =>
      obtain ⟨cluster, -, h⟩ := Option.bind_eq_some_iff.mp h
      exact absurd (Prod.mk.inj (Option.some.inj h)).2.symm hseen
  | call t c | proceed t | wake t =>
      obtain ⟨⟨cache, o'⟩, hcache, h⟩ := Option.bind_eq_some_iff.mp h
      obtain ⟨rfl, rfl⟩ := Prod.mk.inj (Option.some.inj h)
      exact ⟨_, hcache, rfl, by simp⟩
  | fetch t =>
      simp only [processStep] at h
      split at h
      · obtain ⟨s₁, -, h⟩ := Option.bind_eq_some_iff.mp h
        exact absurd (Prod.mk.inj (Option.some.inj h)).2.symm hseen
      · cases h
  | arrive t order =>
      simp only [processStep, Option.bind_eq_bind, Option.bind_eq_some_iff] at h
      obtain ⟨k, -, ⟨chunks, clock⟩, -, ⟨cache, o'⟩, hcache, h⟩ := h
      obtain ⟨rfl, rfl⟩ := Prod.mk.inj (Option.some.inj h)
      exact ⟨_, hcache, rfl, by simp⟩

omit [AddCommMonoid Val] in
/-- A step that hands chunks out is one of the thread that has copied them. -/
theorem processStep_returnsChunks [Add Val] {i : ProcessInput Val} {t : ℕ} {chunks : List ℕ}
    {minClock : ℤ} {copies : List (ℕ × List Val × ℤ)}
    (h : processStep C s i = some (s', [.returnedChunks t chunks minClock copies])) :
    i = .proceed t ∧ s'.cluster = s.cluster ∧
      ∃ c, s.cache.threads t = .copying c [] copies := by
  obtain ⟨j, hcache, hcluster, hproceed⟩ := processStep_seen h (List.cons_ne_nil _ _)
  obtain ⟨rfl, hphase⟩ := cacheStep_returnsChunks hcache
  exact ⟨hproceed t rfl, hcluster, hphase⟩

/-- What calls hand out was delivered before, and is as new as what was asked for. -/
theorem FetchInv.fresh (h : FetchInv C out s) {i : ProcessInput Val}
    (hstep : processStep C s i = some (s', o)) : ∀ e ∈ o, e.Fresh C.t out := by
  intro e he
  obtain ⟨j, hcache, -⟩ := processStep_seen hstep (List.ne_nil_of_mem he)
  rcases (cacheStep_stepOf hcache).move.fresh (h.cache.sound _) with rfl | ⟨e', rfl, hfresh⟩
  · cases he
  · exact List.mem_singleton.mp he ▸ hfresh

/-- **What a call hands out** are copies from the servers, as new as what was asked for. -/
theorem FetchInv.handsOut (h : FetchInv C out s) {i : ProcessInput Val} {t : ℕ}
    {chunks : List ℕ} {minClock : ℤ} {copies : List (ℕ × List Val × ℤ)} (hclock : 0 ≤ minClock)
    (hstep : processStep C s i = some (s', [.returnedChunks t chunks minClock copies])) :
    copies.map Prod.fst = chunks ∧
      ∀ x ∈ copies, minClock ≤ x.2.2 ∧ Copied C s.cluster x.2.2 (x.1, x.2.1) := by
  obtain ⟨hchunks, hcopies⟩ := h.fresh hstep _ (List.mem_singleton_self _)
  refine ⟨hchunks, fun x hx => ⟨(hcopies x hx).1, ?_⟩⟩
  rcases (hcopies x hx).2 with ⟨hnone, -⟩ | hdelivered
  · have := (hcopies x hx).1
    omega
  · exact h.copied _ _ hdelivered

end Invariant

end FlexPS.ML
