import FlexPS.ML.NoneChunkSystem
import FlexPS.ML.PSMapWorker

/-!
# Workers that pull keys from the cache of their process

The `PSMapChunkWorker`s or `PSNoneChunkWorker`s of a process among the workers of a cluster, as far
as they pull and push keys.  A pull asks the cache of the process for keys, with the clock that the
number of the pull requires; the chunks that are older are fetched from the servers.  A push goes to
the servers, and with a `PSMapChunkWorker` to its map.  The workers of other processes call what
they like, and servers and network do as they like.

The clock that a pull requires counts the pull itself.  The servers count pushes, of which the
worker has made one less: what they promise is one less than what is required.

## Main definitions

* `KeyWorker`, `KeySystem`, `keyStep` — the workers, and the cluster with the process.
* `InTime`, `Granted` — servers are at the required clock when they handle a fetch; they then
  answer with it.
* `KeyInv` — the invariant.
* `keyPulls_met` — if servers are in time, pulls get the clock that they require.
-/

namespace FlexPS.ML

open KVStore Lib ModelWithCM

variable {S Val : Type}

/-! ## The workers -/

/-- The two workers; `ts` is the last push, which a `PSMapChunkWorker` waits for. -/
inductive KeyWorker (Val : Type) [Zero Val] where
  | mapChunk (ts : Option ℕ) (w : PSMapWorker Val)
  | noneChunk (w : PSNoneChunkWorker)

/-- What a new worker is; `PSMapChunkWorker` does not initialise `cache_ts_`. -/
inductive KeyWorkerType where
  | mapChunk (cacheTs : ℤ)
  | noneChunk

namespace KeyWorker

section Zero

variable [Zero Val]

/-- A new worker. -/
def new : KeyWorkerType → KeyWorker Val
  | .mapChunk cacheTs => .mapChunk none (.new cacheTs)
  | .noneChunk => .noneChunk .new

/-- `pull_count_`. -/
def pullCount : KeyWorker Val → ℕ
  | mapChunk _ w => w.pullCount
  | noneChunk w => w.pullCount

/-- The push that a pull waits for. -/
def ts : KeyWorker Val → Option ℕ
  | mapChunk ts _ => ts
  | noneChunk _ => none

/-- The beginning of `Pull`. -/
def countPull : KeyWorker Val → Option (KeyWorker Val)
  | mapChunk ts w => if w.pullCount ≠ w.pushCount then none else some (mapChunk ts w.countPull)
  | noneChunk w =>
      if w.pullCount ≠ w.pushCount then none
      else some (noneChunk { w with pullCount := w.pullCount + 1 })

/-- The call of the process cache once a pull is counted.  `Prepare` makes none when all keys are in
the map. -/
def call (staleness : ℕ) (keys : List ℕ) : KeyWorker Val → Option CacheCall
  | mapChunk _ w =>
      let uncached := w.uncachedKeys staleness keys
      if uncached = [] then none
      else some (.pullWithMinClock uncached (max ((w.pullCount : ℤ) - staleness) 0))
  | noneChunk w => some (.pullWithMinClock keys (w.requiredClock staleness))

/-- The rest of `Pull`, with what the process cache returned. -/
def endPull (staleness : ℕ) (keys : List ℕ) (vals : List Val) (clock : Option ℤ) :
    KeyWorker Val → KeyWorker Val × List Val
  | mapChunk ts w =>
      let tmp := ((w.uncachedKeys staleness keys).zip vals).reverse
      let w := PSMapChunkWorker.prepare staleness w keys (fun k => (tmp.lookup k).getD 0)
        (clock.getD w.cacheTs)
      (mapChunk ts w, keys.map w.cachedKv.get)
  | noneChunk w => (noneChunk w, vals)

end Zero

/-- `Push`, which is call `number` of the worker. -/
def push [AddMonoid Val] (number : ℕ) (keys : List ℕ) (vals : List Val) :
    KeyWorker Val → Option (KeyWorker Val)
  | mapChunk _ w => do
      let (w, _) ← w.push keys vals
      some (mapChunk (some number) w)
  | noneChunk w =>
      if w.pushCount + 1 ≠ w.pullCount then none
      else some (noneChunk { w with pushCount := w.pushCount + 1 })

end KeyWorker

/-! ## The system -/

/-- What is seen of a worker: what `PullWithMinClock` returned for the keys and the clock it was
called with, what its pulls return, and its pushes. -/
inductive KeyEvent (Val : Type) where
  | got (keys : List ℕ) (minClock : ℤ) (vals : List Val) (clock : Option ℤ)
  | pulled (keys : List ℕ) (vals : List Val)
  | pushed

/-- The cluster, the process and its workers, with the keys of the pulls that wait for the cache. -/
structure KeySystem (S Val : Type) [Zero Val] where
  process : ProcessState S Val
  workers : ℕ → KeyWorker Val
  pending : ℕ → Option (List ℕ)

/-- What the schedule decides. -/
inductive KeyInput (Val : Type) where
  | other (v : ℕ) (call : Call Val)
  | background (i : ProcessInput Val)
  | pull (t : ℕ) (keys : List ℕ)
  | push (t : ℕ) (keys : List ℕ) (vals : List Val)

section Step

variable [StorageT S Val] [AddCommMonoid Val] (C : Cluster S Val) (threads : Finset ℕ)

namespace KeySystem

/-- Before anything happens. -/
def init (types : ℕ → KeyWorkerType) : KeySystem S Val :=
  ⟨.init C, fun t => .new (types t), fun _ => none⟩

/-- A pull returns. -/
def endPull (s : KeySystem S Val) (t : ℕ) (worker : KeyWorker Val) (keys : List ℕ)
    (vals : List Val) (clock : Option ℤ) : KeySystem S Val × List (ℕ × KeyEvent Val) :=
  let r := worker.endPull C.staleness keys vals clock
  ({ s with
    workers := Function.update s.workers t r.1
    pending := Function.update s.pending t none }, [(t, .pulled keys r.2)])

/-- A pull once it is counted. -/
def ask (s : KeySystem S Val) (t : ℕ) (worker : KeyWorker Val) (keys : List ℕ) :
    Option (KeySystem S Val × List (ℕ × KeyEvent Val)) :=
  match worker.call C.staleness keys with
  | none => some (s.endPull C t worker keys [] none)
  | some c => do
      let (process, _) ← processStep C s.process (.call t c)
      some ({
        process
        workers := Function.update s.workers t worker
        pending := Function.update s.pending t (some keys) }, [])

/-- The call of the process cache returns, and with it the pull. -/
def finish (s : KeySystem S Val) :
    List (CacheEvent Val) → Option (KeySystem S Val × List (ℕ × KeyEvent Val))
  | [.returned t uncached minClock vals clock] => do
      let keys ← s.pending t
      let (s, o) := s.endPull C t (s.workers t) keys vals clock
      some (s, (t, .got uncached minClock vals clock) :: o)
  | _ => some (s, [])

end KeySystem

/-- One step; `threads` are the workers of the process.  A pull counts up an `int`. -/
def keyStep (s : KeySystem S Val) :
    KeyInput Val → Option (KeySystem S Val × List (ℕ × KeyEvent Val))
  | .other v call =>
      if v ∈ threads then none
      else do
        let (process, _) ← processStep C s.process (.send v call)
        some ({ s with process }, [])
  | .background i =>
      if i.background then do
        let (process, seen) ← processStep C s.process i
        KeySystem.finish C { s with process } seen
      else none
  | .pull t keys =>
      if t ∈ threads ∧ (s.pending t).isNone ∧
          (s.workers t).ts.all (C.returns s.process.cluster t) ∧
          (s.workers t).pullCount + 1 < 2 ^ 31 then do
        let worker ← (s.workers t).countPull
        s.ask C t worker keys
      else none
  | .push t keys vals =>
      if t ∈ threads ∧ (s.pending t).isNone then do
        let worker ← (s.workers t).push (s.process.cluster.calls t).length keys vals
        let (process, _) ← processStep C s.process (.send t (.push keys vals))
        some ({ s with process, workers := Function.update s.workers t worker }, [(t, .pushed)])
      else none

/-- What callers have to respect: sorted keys, in range. -/
def KeyInput.Valid (t : RangeTable) : KeyInput Val → Prop
  | other _ call => call.Sorted t
  | pull _ keys => ValidKeys t keys
  | push _ keys vals => (Call.push keys vals).Sorted t
  | background _ => True

instance KeyInput.decidableValid (t : RangeTable) : ∀ i : KeyInput Val, Decidable (i.Valid t)
  | other _ call => inferInstanceAs (Decidable (call.Sorted t))
  | pull _ keys => inferInstanceAs (Decidable (ValidKeys t keys))
  | push _ keys vals => inferInstanceAs (Decidable ((Call.push keys vals).Sorted t))
  | background _ => .isTrue trivial

end Step

/-! ## Servers that are in time -/

section InTime

variable [StorageT S Val] (C : Cluster S Val)

/-- A server that handles the fetch of a thread, and is asked for chunks, is at the clock that the
thread asks for. -/
def InTime (s : ProcessState S Val) : ProcessInput Val → Prop
  | .deliver i t => ∀ k ∈ s.fetches t, (s.cluster.delivered i).count t = k + 1 →
      ∀ call ∈ (s.cluster.calls t)[k]?, i ∈ call.asked C.t C.numServers →
        (s.cache.threads t).minClock ≤ (s.cluster.servers i).minClock
  | _ => True

instance InTime.decidable (s : ProcessState S Val) : ∀ i, Decidable (InTime C s i)
  | .deliver i t => inferInstanceAs (Decidable (∀ k ∈ s.fetches t,
      (s.cluster.delivered i).count t = k + 1 → ∀ call ∈ (s.cluster.calls t)[k]?,
        i ∈ call.asked C.t C.numServers →
          (s.cache.threads t).minClock ≤ (s.cluster.servers i).minClock))
  | .send _ _ | .call _ _ | .proceed _ | .wake _ | .fetch _ | .arrive _ _ => .isTrue trivial

/-- The servers that have handled the fetch of a thread are at the clock that it asks for, and were
when they answered. -/
structure Granted (s : ProcessState S Val) : Prop where
  handled : ∀ t, ∀ k ∈ s.fetches t, ∀ call ∈ (s.cluster.calls t)[k]?,
    ∀ i ∈ call.asked C.t C.numServers, k + 1 < (s.cluster.delivered i).count t →
      (s.cache.threads t).minClock ≤ (s.cluster.servers i).minClock
  answered : ∀ t, ∀ k ∈ s.fetches t, ∀ i < C.numServers, ∀ r ∈ s.cluster.replies i,
    r.key = C.replyKey (t, k) → (s.cache.threads t).minClock ≤ r.minClock

theorem granted_init : Granted C (ProcessState.init C) where
  handled _ _ h := by cases h
  answered _ _ h := by cases h

variable [AddCommMonoid Val] {C} {s s' : ProcessState S Val} {out out' o : List (CacheEvent Val)}

/-- A step in which no server handles a message: calls are made, and threads wait for what they have
waited for or for a call that is made now. -/
structure Quiet (s s' : ProcessState S Val) : Prop where
  servers_eq : s'.cluster.servers = s.cluster.servers
  delivered_eq : s'.cluster.delivered = s.cluster.delivered
  replies_eq : s'.cluster.replies = s.cluster.replies
  calls : ∀ t, s.cluster.calls t <+: s'.cluster.calls t
  fetches : ∀ t, ∀ k ∈ s'.fetches t, k ∈ s.fetches t ∨ k = (s.cluster.calls t).length

omit [AddCommMonoid Val] in
theorem processStep_quiet [Add Val] {i : ProcessInput Val} (hi : ∀ j v, i ≠ .deliver j v)
    (hstep : processStep C s i = some (s', o)) : Quiet s s' := by
  cases i with
  | send v call =>
      obtain ⟨-, cluster, hsend, rfl⟩ := processStep_send hstep
      obtain ⟨-, rfl⟩ := C.send_eq hsend
      exact ⟨rfl, rfl, rfl, Cluster.calls_extend _ _ _, fun t k hk => .inl hk⟩
  | deliver j v => exact absurd rfl (hi j v)
  | call t c | proceed t | wake t =>
      obtain ⟨⟨cache, o'⟩, -, hstep⟩ := Option.bind_eq_some_iff.mp hstep
      obtain ⟨rfl, -⟩ := Prod.mk.inj (Option.some.inj hstep)
      exact ⟨rfl, rfl, rfl, fun _ => List.prefix_rfl, fun t k hk => .inl hk⟩
  | fetch v =>
      simp only [processStep] at hstep
      split at hstep
      · obtain ⟨s₁, hfetch, hstep⟩ := Option.bind_eq_some_iff.mp hstep
        obtain ⟨rfl, -⟩ := Prod.mk.inj (Option.some.inj hstep)
        obtain ⟨cluster, hsend, hfetch⟩ := Option.bind_eq_some_iff.mp hfetch
        obtain rfl := Option.some.inj hfetch
        obtain ⟨-, rfl⟩ := C.send_eq hsend
        refine ⟨rfl, rfl, rfl, Cluster.calls_extend _ _ _, fun t k hk => ?_⟩
        by_cases ht : t = v
        · subst ht
          simp only [Function.update_self] at hk
          exact .inr (Option.some.inj hk).symm
        · simp only [Function.update_of_ne ht] at hk
          exact .inl hk
      · cases hstep
  | arrive v order =>
      simp only [processStep, Option.bind_eq_bind, Option.bind_eq_some_iff] at hstep
      obtain ⟨k, -, ⟨chunks, clock⟩, -, ⟨cache, o'⟩, -, hstep⟩ := hstep
      obtain ⟨rfl, -⟩ := Prod.mk.inj (Option.some.inj hstep)
      refine ⟨rfl, rfl, rfl, fun _ => List.prefix_rfl, fun t k hk => .inl ?_⟩
      by_cases ht : t = v
      · subst ht
        simp only [Function.update_self] at hk
        cases hk
      · simpa only [Function.update_of_ne ht] using hk

/-- A thread that waits for a fetch afterwards asks for the same clock as before. -/
theorem FetchInv.minClock_eq (h : FetchInv C out s) (h' : FetchInv C out' s')
    {i : ProcessInput Val} (hstep : processStep C s i = some (s', o)) {t k : ℕ}
    (hk : k ∈ s'.fetches t) :
    (s'.cache.threads t).minClock = (s.cache.threads t).minClock := by
  obtain ⟨c, real, wait, -, hphase, -⟩ := h'.awaits t k hk
  have hcurrent : (s'.cache.threads t).current = some c := by
    rw [hphase]
    rfl
  cases i with
  | send v call =>
      obtain ⟨-, cluster, -, rfl⟩ := processStep_send hstep
      rfl
  | call v c' =>
      obtain ⟨-, hfetches, hidle, -, hothers⟩ := processStep_call hstep
      rw [hfetches] at hk
      have hne : t ≠ v := by
        rintro rfl
        obtain ⟨_, _, _, _, hfetching, -⟩ := h.awaits t k hk
        rw [hidle] at hfetching
        cases hfetching
      rw [hothers t hne]
  | _ =>
      have hback := processStep_background (by rfl) hstep
      rw [CachePhase.minClock_of_current hcurrent,
        CachePhase.minClock_of_current (hback.current_eq h'.not_aborted hcurrent)]

/-- A server handles a message. -/
theorem Granted.deliver (h : Granted C s) (hinv : FetchInv C out s) {i v : ℕ}
    {cluster : ClusterState S Val} (htime : InTime C s (.deliver i v))
    (hdeliver : C.deliver s.cluster i v = some cluster) : Granted C { s with cluster } := by
  obtain ⟨hgrows, hnew⟩ := hinv.cluster.minClock_deliver hdeliver
  have hcluster := clusterInv_deliver hinv.cluster hdeliver
  obtain ⟨hi, -, r, srv, new, -, -, rfl⟩ := C.deliver_eq hdeliver
  simp only [Function.update_self] at hgrows hnew
  have hhandled : ∀ t, ∀ k ∈ s.fetches t, ∀ call ∈ (s.cluster.calls t)[k]?,
      i ∈ call.asked C.t C.numServers → k + 1 < (s.cluster.delivered i ++ [v]).count t →
        (s.cache.threads t).minClock ≤ srv.minClock := by
    intro t k hk call hcall hasked hcount
    rw [List.count_append, List.count_singleton] at hcount
    have hstarted : s.cluster.delivered i ≠ [] := by
      rintro hnil
      rw [hnil] at hcount
      split at hcount <;> simp at hcount
    refine le_trans ?_ (Int.ofNat_le.mpr (hgrows hstarted))
    by_cases hbefore : k + 1 < (s.cluster.delivered i).count t
    · exact h.handled t k hk call hcall i hasked hbefore
    · split at hcount
      · next heq =>
          obtain rfl := eq_of_beq heq
          exact htime k hk (by omega) call hcall hasked
      · exact absurd hcount hbefore
  refine ⟨fun t k hk call hcall j hasked hcount => ?_, fun t k hk j hj r hr hkey => ?_⟩
  · by_cases hji : j = i
    · subst hji
      simp only [Function.update_self] at hcount ⊢
      exact hhandled t k hk call hcall hasked hcount
    · simp only [Function.update_of_ne hji] at hcount ⊢
      exact h.handled t k hk call hcall j hasked hcount
  · by_cases hji : j = i
    · subst hji
      simp only [Function.update_self] at hr
      rcases hnew r hr with hold | hclock
      · exact h.answered t k hk j hj r hold hkey
      · obtain ⟨c, real, wait, ptrs, -, hcall, -⟩ := hinv.awaits t k hk
        obtain ⟨hcount, hmin⟩ := hclock t k _ hkey hcall rfl rfl
        rw [hmin]
        refine hhandled t k hk _ hcall (hcluster.asked hj ?_ hcall) hcount
        simp only [Function.update_self]
        exact List.mem_map.mpr ⟨r, hr, hkey⟩
    · simp only [Function.update_of_ne hji] at hr
      exact h.answered t k hk j hj r hr hkey

/-- **What is granted stays granted**, when servers are in time. -/
theorem granted_step (h : Granted C s) (hinv : FetchInv C out s) (hinv' : FetchInv C out' s')
    {i : ProcessInput Val} (htime : InTime C s i) (hstep : processStep C s i = some (s', o)) :
    Granted C s' := by
  by_cases hdeliver : ∃ j v, i = .deliver j v
  · obtain ⟨j, v, rfl⟩ := hdeliver
    obtain ⟨cluster, hdeliver, hstep⟩ := Option.bind_eq_some_iff.mp hstep
    obtain ⟨rfl, -⟩ := Prod.mk.inj (Option.some.inj hstep)
    exact h.deliver hinv htime hdeliver
  · have hquiet := processStep_quiet (by simpa using hdeliver) hstep
    refine ⟨fun t k hk call hcall j hasked hcount => ?_, fun t k hk j hj r hr hkey => ?_⟩
    · rw [hquiet.delivered_eq] at hcount
      rw [hinv.minClock_eq hinv' hstep hk, hquiet.servers_eq]
      rcases hquiet.fetches t k hk with hold | rfl
      · obtain ⟨c, real, wait, ptrs, -, hsent, -⟩ := hinv.awaits t k hold
        obtain rfl := Option.some.inj
          ((Cluster.getElem?_of_extension (hquiet.calls t) hsent).symm.trans hcall)
        exact h.handled t k hold _ hsent j hasked hcount
      · have := hinv.cluster.arrived j t
        omega
    · rw [hquiet.replies_eq] at hr
      rw [hinv.minClock_eq hinv' hstep hk]
      rcases hquiet.fetches t k hk with hold | rfl
      · exact h.answered t k hold j hj r hr hkey
      · have hmem := List.mem_map.mpr ⟨r, hr, hkey⟩
        exact absurd (hinv.cluster.called hj hmem) (lt_irrefl _)

theorem processStep_later {i : ProcessInput Val} (hstep : processStep C s i = some (s', o)) :
    s.cluster.Later s'.cluster := by
  by_cases hdeliver : ∃ j v, i = .deliver j v
  · obtain ⟨j, v, rfl⟩ := hdeliver
    obtain ⟨cluster, hdeliver, hstep⟩ := Option.bind_eq_some_iff.mp hstep
    obtain ⟨rfl, -⟩ := Prod.mk.inj (Option.some.inj hstep)
    exact C.later_deliver hdeliver
  · have hquiet := processStep_quiet (by simpa using hdeliver) hstep
    exact ⟨hquiet.calls, fun j => hquiet.replies_eq ▸ List.prefix_rfl⟩

end InTime

/-! ## What is promised -/

section Promise

variable [StorageT S Val] [AddCommMonoid Val] (C : Cluster S Val)

/-- The value was read from a copy of its chunk that is as new as the clock. -/
def FromCopy (s : ClusterState S Val) (minClock : ℤ) (place : ℕ × ℕ) (v : Val) : Prop :=
  ∃ clock chunk, minClock ≤ clock ∧ Copied C s clock (place.1, chunk) ∧ chunk[place.2]? = some v

/-- When there were keys, `PullWithMinClock` returned a clock as large as it was called with, and
values of chunks with such clocks. -/
def KeyEvent.Met (s : ClusterState S Val) : KeyEvent Val → Prop
  | got keys minClock vals clock => keys ≠ [] → (∃ x ∈ clock, minClock ≤ x) ∧
      ∃ places, keys.mapM (getLocation C.t) = some places ∧
        List.Forall₂ (FromCopy C s minClock) places vals
  | pulled _ _ | pushed => True

/-- What a thread is about to read is at the clock that it asked for, as `chunk_clocks_` tells. -/
def ReadsMet (s : ProcessState S Val) : Prop :=
  ∀ t c todo looked clock vals, s.cache.threads t = .reading c todo looked clock vals →
    ∀ place ∈ todo.flatten, c.minClock ≤ s.cache.model.chunkClocks place.1

variable {C}

theorem KeyEvent.Met.later {cluster cluster' : ClusterState S Val} {e : KeyEvent Val}
    (he : e.Met C cluster) (h : ClusterInv C cluster) (h' : ClusterInv C cluster')
    (hlater : cluster.Later cluster') : e.Met C cluster' := by
  cases e with
  | got keys minClock vals clock =>
      intro hkeys
      obtain ⟨hclock, places, hplaces, hvals⟩ := he hkeys
      refine ⟨hclock, places, hplaces, hvals.imp fun place v hv => ?_⟩
      obtain ⟨x, chunk, hle, hcopied, hv⟩ := hv
      exact ⟨x, chunk, hle, hcopied.later h h' hlater, hv⟩
  | pulled keys vals | pushed => trivial

variable {s s' : ProcessState S Val} {out : List (CacheEvent Val)}

/-- **What a call for keys hands out.** -/
theorem FetchInv.met (h : FetchInv C out s) {i : ProcessInput Val} {t : ℕ} {keys : List ℕ}
    {minClock : ℤ} {vals : List Val} {clock : Option ℤ}
    (hstep : processStep C s i = some (s', [.returned t keys minClock vals clock])) :
    (KeyEvent.got keys minClock vals clock).Met C s.cluster := by
  obtain ⟨⟨places, hplaces, hvals⟩, hclock, hsome⟩ := h.fresh hstep _ (List.mem_singleton_self _)
  intro hkeys
  obtain ⟨x, hx⟩ := Option.isSome_iff_exists.mp (hsome hkeys)
  refine ⟨⟨x, hx, hclock x hx⟩, places, hplaces, hvals.imp fun place v hv => ?_⟩
  obtain ⟨y, chunk, hle, hsnapshot, hv⟩ := hv
  rcases hsnapshot with ⟨-, hempty⟩ | hdelivered
  · simp only at hempty
    rw [hempty] at hv
    cases hv
  · exact ⟨y, chunk, hle, h.copied _ _ hdelivered, hv⟩

theorem FetchInv.readsMet (h : FetchInv C out s) : ReadsMet s := by
  intro t c todo looked clock vals hphase
  have hsound := h.cache.sound t
  rw [hphase] at hsound
  exact hsound.1

end Promise

/-- The step is one in which a server is in time. -/
def HandledInTime [StorageT S Val] [Zero Val] (C : Cluster S Val) (s : KeySystem S Val) :
    KeyInput Val → Prop
  | .background i => InTime C s.process i
  | _ => True

instance HandledInTime.decidable [StorageT S Val] [Zero Val] (C : Cluster S Val)
    (s : KeySystem S Val) : ∀ i, Decidable (HandledInTime C s i)
  | .background i => inferInstanceAs (Decidable (InTime C s.process i))
  | .other _ _ | .pull _ _ | .push _ _ _ => .isTrue trivial

/-! ## The invariant -/

namespace KeyWorker

variable {staleness : ℕ} {keys : List ℕ}

/-- What a worker asks the process cache for: some of the keys, at the clock its pull requires. -/
theorem call_spec [Zero Val] {w : KeyWorker Val} {c : CacheCall}
    (h : w.call staleness keys = some c) : ∃ uncached, uncached.Sublist keys ∧
      c = .pullWithMinClock uncached (max ((w.pullCount : ℤ) - staleness) 0) := by
  cases w with
  | mapChunk ts w =>
      simp only [call] at h
      split at h
      · cases h
      · refine ⟨_, ?_, (Option.some.inj h).symm⟩
        unfold PSMapWorker.uncachedKeys
        split
        · exact List.Sublist.refl _
        · exact List.filter_sublist
  | noneChunk w => exact ⟨keys, .refl _, (Option.some.inj h).symm⟩

theorem countPull_pullCount [Zero Val] {w w' : KeyWorker Val} (h : w.countPull = some w') :
    w'.pullCount = w.pullCount + 1 := by
  cases w with
  | mapChunk ts w | noneChunk w =>
      simp only [countPull] at h
      split at h
      · cases h
      · obtain rfl := Option.some.inj h
        rfl

@[simp] theorem endPull_pullCount [AddCommMonoid Val] (w : KeyWorker Val) (vals : List Val)
    (clock : Option ℤ) : (w.endPull staleness keys vals clock).1.pullCount = w.pullCount := by
  cases w with
  | mapChunk ts w =>
      simp only [endPull, prepare_eq]
      rfl
  | noneChunk w => rfl

theorem push_pullCount [AddCommMonoid Val] {w w' : KeyWorker Val} {number : ℕ} {vals : List Val}
    (h : w.push number keys vals = some w') : w'.pullCount = w.pullCount := by
  cases w with
  | mapChunk ts w =>
      obtain ⟨⟨worker, pairs⟩, hpush, h⟩ := Option.bind_eq_some_iff.mp h
      obtain rfl := Option.some.inj h
      obtain ⟨-, rfl⟩ := push_spec hpush
      rfl
  | noneChunk w =>
      simp only [push] at h
      split at h
      · cases h
      · obtain rfl := Option.some.inj h
        rfl

end KeyWorker

section Invariant

variable [StorageT S Val] [AddCommMonoid Val]

/-- The invariant: a thread is in the call that its pull makes, and servers are in time. -/
structure KeyInv (C : Cluster S Val) (out : List (ℕ × KeyEvent Val)) (s : KeySystem S Val) :
    Prop where
  process : ∃ seen, FetchInv C seen s.process
  granted : Granted C s.process
  current : ∀ t, (s.process.cache.threads t).current =
    (s.pending t).bind fun keys => (s.workers t).call C.staleness keys
  pullCount_lt : ∀ t, (s.workers t).pullCount < 2 ^ 31
  met : ∀ e ∈ out, e.2.Met C s.process.cluster

theorem keyInv_init (C : Cluster S Val) (types : ℕ → KeyWorkerType) :
    KeyInv C [] (KeySystem.init C types) where
  process := ⟨[], fetchInv_init C⟩
  granted := granted_init C
  current _ := rfl
  pullCount_lt t := by
    have hnew : (KeyWorker.new (types t) : KeyWorker Val).pullCount = 0 := by
      cases types t <;> rfl
    show (KeyWorker.new (types t) : KeyWorker Val).pullCount < 2 ^ 31
    rw [hnew]
    decide
  met _ h := by cases h

variable {C : Cluster S Val} {threads : Finset ℕ} {s s' : KeySystem S Val}
  {out o : List (ℕ × KeyEvent Val)}

/-- What is delivered to a thread is as new as what it asked for. -/
theorem KeyInv.honest (h : KeyInv C out s) (t : ℕ) : s.process.Honest C t := by
  intro k hk
  refine ⟨?_, h.granted.answered t k hk⟩
  obtain ⟨seen, hprocess⟩ := h.process
  obtain ⟨c, real, wait, ptrs, hphase, -⟩ := hprocess.awaits t k hk
  have hcurrent := h.current t
  rw [hphase] at hcurrent
  obtain ⟨keys, -, hcall⟩ := Option.bind_eq_some_iff.mp hcurrent.symm
  obtain ⟨uncached, -, rfl⟩ := KeyWorker.call_spec hcall
  have hlt := h.pullCount_lt t
  rw [hphase, CachePhase.minClock, CacheCall.minClock]
  omega

/-- The process goes on. -/
theorem KeyInv.process_step (h : KeyInv C out s) {i : ProcessInput Val} (hi : i.Valid C.t)
    (htime : InTime C s.process i) {process : ProcessState S Val} {seen : List (CacheEvent Val)}
    (hstep : processStep C s.process i = some (process, seen)) :
    (∃ seen, FetchInv C seen process) ∧ Granted C process ∧
      ∀ e ∈ out, e.2.Met C process.cluster := by
  obtain ⟨before, hprocess⟩ := h.process
  have hnow := fetchInv_step hprocess hi (fun t _ _ => h.honest t) hstep
  exact ⟨⟨_, hnow⟩, granted_step h.granted hprocess hnow htime hstep, fun e he =>
    (h.met e he).later hprocess.cluster hnow.cluster (processStep_later hstep)⟩

/-- One worker moves, and the process with it. -/
theorem KeyInv.moved (h : KeyInv C out s) {t : ℕ} {process : ProcessState S Val}
    {workers : ℕ → KeyWorker Val} {pending : ℕ → Option (List ℕ)}
    (hprocess : ∃ seen, FetchInv C seen process) (hgranted : Granted C process)
    (hmet : ∀ e ∈ out ++ o, e.2.Met C process.cluster) (hlt : (workers t).pullCount < 2 ^ 31)
    (hcurrent : (process.cache.threads t).current =
      (pending t).bind fun keys => (workers t).call C.staleness keys)
    (hothers : ∀ v ≠ t, workers v = s.workers v ∧ pending v = s.pending v ∧
      (process.cache.threads v).current = (s.process.cache.threads v).current) :
    KeyInv C (out ++ o) ⟨process, workers, pending⟩ where
  process := hprocess
  granted := hgranted
  current v := by
    by_cases hv : v = t
    · exact hv ▸ hcurrent
    · obtain ⟨hworker, hpending, hsame⟩ := hothers v hv
      show (process.cache.threads v).current =
        (pending v).bind fun keys => (workers v).call C.staleness keys
      rw [hworker, hpending, hsame]
      exact h.current v
  pullCount_lt v := by
    by_cases hv : v = t
    · exact hv ▸ hlt
    · show (workers v).pullCount < 2 ^ 31
      rw [(hothers v hv).1]
      exact h.pullCount_lt v
  met := hmet

/-- A pull returns. -/
theorem KeyInv.endPull (h : KeyInv C out s) {t : ℕ} {process : ProcessState S Val}
    (hprocess : ∃ seen, FetchInv C seen process) (hgranted : Granted C process)
    (hmet : ∀ e ∈ out ++ o, e.2.Met C process.cluster) {worker : KeyWorker Val}
    (hlt : worker.pullCount < 2 ^ 31) (hidle : (process.cache.threads t).current = none)
    (hothers : ∀ v ≠ t,
      (process.cache.threads v).current = (s.process.cache.threads v).current)
    {keys : List ℕ} {vals : List Val} {clock : Option ℤ} {o' : List (ℕ × KeyEvent Val)}
    (hend : KeySystem.endPull C { s with process } t worker keys vals clock = (s', o')) :
    KeyInv C (out ++ (o ++ o')) s' := by
  obtain ⟨rfl, rfl⟩ := Prod.mk.inj hend
  refine h.moved (t := t) hprocess hgranted (fun e he => ?_) ?_ ?_ fun v hv =>
    ⟨Function.update_of_ne hv _ _, Function.update_of_ne hv _ _, hothers v hv⟩
  · rw [← List.append_assoc, List.mem_append] at he
    rcases he with he | he
    · exact hmet e he
    · rw [List.mem_singleton.mp he]
      trivial
  · simpa only [Function.update_self, KeyWorker.endPull_pullCount] using hlt
  · rw [hidle, Function.update_self]
    rfl

/-- Chunks that arrive end no pull. -/
theorem KeySystem.finish_eq {seen : List (CacheEvent Val)}
    (h : seen = [] ∨ ∃ t clock chunks, seen = [.delivered t clock chunks]) :
    s.finish C seen = some (s, []) := by
  rcases h with rfl | ⟨t, clock, chunks, rfl⟩ <;> rfl

/-- The process goes on, and a pull may end. -/
theorem KeyInv.background (h : KeyInv C out s) {i : ProcessInput Val} (hi : i.background = true)
    (htime : InTime C s.process i) {process : ProcessState S Val} {seen : List (CacheEvent Val)}
    (hstep : processStep C s.process i = some (process, seen))
    (hfinish : KeySystem.finish C { s with process } seen = some (s', o)) :
    KeyInv C (out ++ o) s' := by
  obtain ⟨⟨after, hnow⟩, hgranted, hmet⟩ :=
    h.process_step (ProcessInput.valid_of_background hi) htime hstep
  obtain ⟨before, hprocess⟩ := h.process
  have hback := processStep_background hi hstep
  cases hback.calls with
  | stay hcurrent hseen =>
      rw [KeySystem.finish_eq hseen] at hfinish
      obtain ⟨rfl, rfl⟩ := Prod.mk.inj (Option.some.inj hfinish)
      rw [List.append_nil]
      exact ⟨⟨after, hnow⟩, hgranted, fun t => (hcurrent t).trans (h.current t), h.pullCount_lt,
        hmet⟩
  | abort haborted => exact absurd haborted (hnow.not_aborted _)
  | @finish t c e hcurrent hidle hothers hreturns =>
      have hpull := (h.current t).symm.trans hcurrent
      obtain ⟨keys, hpending, hcall⟩ := Option.bind_eq_some_iff.mp hpull
      obtain ⟨uncached, -, rfl⟩ := KeyWorker.call_spec hcall
      rcases hreturns with ⟨-, asked, vals, clock, rfl⟩ | ⟨copies, rfl⟩
      · simp only [KeySystem.finish, hpending, Option.bind_eq_bind, Option.bind_some] at hfinish
        obtain ⟨rfl, rfl⟩ := Prod.mk.inj (Option.some.inj hfinish)
        refine h.endPull (o := [(t, .got asked _ vals clock)]) ⟨after, hnow⟩ hgranted ?_
          (h.pullCount_lt t) (hidle ▸ rfl) hothers rfl
        intro e he
        rcases List.mem_append.mp he with he | he
        · exact hmet e he
        · rw [List.mem_singleton.mp he]
          exact (hprocess.met hstep).later hprocess.cluster hnow.cluster (processStep_later hstep)
      · -- only calls for chunks copy them
        obtain ⟨-, -, c', hcopying⟩ := processStep_returnsChunks hstep
        have hsound := hprocess.cache.sound t
        rw [hcopying] at hsound hcurrent
        obtain rfl := Option.some.inj hcurrent
        cases hsound.1

/-- A pull that is counted asks the process cache, or returns. -/
theorem KeyInv.ask (h : KeyInv C out s) {t : ℕ} {worker : KeyWorker Val} {keys : List ℕ}
    (hpending : s.pending t = none) (hkeys : ValidKeys C.t keys) (hlt : worker.pullCount < 2 ^ 31)
    (hask : s.ask C t worker keys = some (s', o)) : KeyInv C (out ++ o) s' := by
  have hidle : (s.process.cache.threads t).current = none := by
    rw [h.current t, hpending]
    rfl
  unfold KeySystem.ask at hask
  split at hask
  · rw [← List.nil_append o]
    exact h.endPull h.process h.granted (by simpa using h.met) hlt hidle (fun _ _ => rfl)
      (Option.some.inj hask)
  · next c hcall =>
      obtain ⟨⟨process, seen⟩, hstep, hask⟩ := Option.bind_eq_some_iff.mp hask
      obtain ⟨rfl, rfl⟩ := Prod.mk.inj (Option.some.inj hask)
      obtain ⟨-, -, -, hcurrent, hothers⟩ := processStep_call hstep
      obtain ⟨uncached, hsub, rfl⟩ := KeyWorker.call_spec hcall
      have hvalid : ProcessInput.Valid C.t (.call t (.pullWithMinClock uncached
          (max ((worker.pullCount : ℤ) - C.staleness) 0)) : ProcessInput Val) :=
        ⟨hkeys.1.sublist hsub, fun k hk => hkeys.2 k (hsub.subset hk)⟩
      obtain ⟨hprocess, hgranted, hmet⟩ := h.process_step hvalid trivial hstep
      refine h.moved (t := t) hprocess hgranted (by simpa using hmet) ?_ ?_ fun v hv =>
        ⟨Function.update_of_ne hv _ _, Function.update_of_ne hv _ _, by rw [hothers v hv]⟩
      · simpa only [Function.update_self] using hlt
      · simp only [Function.update_self]
        exact hcurrent.trans hcall.symm

/-- **Every step keeps the invariant**, when servers are in time. -/
theorem keyInv_step (h : KeyInv C out s) {i : KeyInput Val} (hi : i.Valid C.t)
    (htime : HandledInTime C s i) (hstep : keyStep C threads s i = some (s', o)) :
    KeyInv C (out ++ o) s' := by
  cases i with
  | other v call =>
      simp only [keyStep] at hstep
      split at hstep
      · cases hstep
      · obtain ⟨⟨process, seen⟩, hprocess, hstep⟩ := Option.bind_eq_some_iff.mp hstep
        obtain ⟨rfl, rfl⟩ := Prod.mk.inj (Option.some.inj hstep)
        obtain ⟨hnow, hgranted, hmet⟩ := h.process_step (i := .send v call) hi trivial hprocess
        obtain ⟨-, cluster, -, rfl⟩ := processStep_send hprocess
        rw [List.append_nil]
        exact ⟨hnow, hgranted, h.current, h.pullCount_lt, hmet⟩
  | background i =>
      simp only [keyStep] at hstep
      split at hstep
      · next hi =>
          obtain ⟨⟨process, seen⟩, hprocess, hfinish⟩ := Option.bind_eq_some_iff.mp hstep
          exact h.background hi htime hprocess hfinish
      · cases hstep
  | pull t keys =>
      simp only [keyStep] at hstep
      split at hstep
      · next hguard =>
          obtain ⟨-, hpending, -, hlt⟩ := hguard
          obtain ⟨worker, hcount, hask⟩ := Option.bind_eq_some_iff.mp hstep
          rw [← KeyWorker.countPull_pullCount hcount] at hlt
          exact h.ask (Option.isNone_iff_eq_none.mp hpending) hi hlt hask
      · cases hstep
  | push t keys vals =>
      simp only [keyStep] at hstep
      split at hstep
      · next hguard =>
          obtain ⟨worker, hpush, hstep⟩ := Option.bind_eq_some_iff.mp hstep
          obtain ⟨⟨process, seen⟩, hprocess, hstep⟩ := Option.bind_eq_some_iff.mp hstep
          obtain ⟨rfl, rfl⟩ := Prod.mk.inj (Option.some.inj hstep)
          obtain ⟨hnow, hgranted, hmet⟩ :=
            h.process_step (i := .send t (.push keys vals)) hi trivial hprocess
          obtain ⟨hidle, cluster, -, rfl⟩ := processStep_send hprocess
          refine h.moved (t := t) hnow hgranted (fun e he => ?_) ?_ ?_ fun v hv =>
            ⟨Function.update_of_ne hv _ _, rfl, rfl⟩
          · rcases List.mem_append.mp he with he | he
            · exact hmet e he
            · rw [List.mem_singleton.mp he]
              trivial
          · rw [Function.update_self, KeyWorker.push_pullCount hpush]
            exact h.pullCount_lt t
          · rw [Option.isNone_iff_eq_none.mp hguard.2, hidle]
            rfl
      · cases hstep

end Invariant

/-! ## Pulls get the clock that they require -/

/-- **The clocks that pulls of keys require are met**, in every run in which servers are in time:
when a server that is asked for chunks handles the fetch of a pull, its clock is the required one.
Then what `PullWithMinClock` returns for a list of keys that is not empty is at least the clock it
was called with, and so are the chunks that it reads. -/
theorem keyPulls_met {S Val : Type} [StorageT S Val] [AddCommMonoid Val] (C : Cluster S Val)
    (threads : Finset ℕ) (types : ℕ → KeyWorkerType) {is : List (KeyInput Val)}
    {s : KeySystem S Val} {out : List (ℕ × KeyEvent Val)} (hvalid : ∀ i ∈ is, i.Valid C.t)
    (htime : Along (keyStep C threads) (fun _ s i => HandledInTime C s i) [] (.init C types) is)
    (hrun : run (keyStep C threads) (.init C types) is = some (s, out)) :
    (∀ e ∈ out, e.2.Met C s.process.cluster) ∧ ReadsMet s.process := by
  have hinv := run_along (I := KeyInv C) (fun hI hi hstep => keyInv_step hI hi.1 hi.2 hstep)
    (keyInv_init C types) ((along_of_forall hvalid [] _).and htime) hrun
  obtain ⟨seen, hprocess⟩ := hinv.process
  exact ⟨hinv.met, hprocess.readsMet⟩

/-- Worker `t` pulls key 0 and fetches its chunk. -/
def fetchedKey (t : ℕ) : List (KeyInput ℤ) :=
  .pull t [0] :: List.replicate 2 (.background (.proceed t)) ++
    [.background (.fetch t), .background (.deliver 0 t), .background (.arrive t [0])] ++
    List.replicate 5 (.background (.proceed t))

/-- Worker `t` pulls key 0 and finds its chunk in the cache of the process. -/
def cachedKey (t : ℕ) : List (KeyInput ℤ) :=
  .pull t [0] :: List.replicate 5 (.background (.proceed t))

/-- Worker `t` pushes to key 0, and the server of the key gets the push at once. -/
def pushedKey (t : ℕ) (v : ℤ) : List (KeyInput ℤ) :=
  [.push t [0] [v], .background (.deliver 0 t)]

/-- Worker 0 pulls, pushes and pulls again; worker 1 has made no push yet. -/
def laggingPush : List (KeyInput ℤ) :=
  [.background (.deliver 0 0), .background (.deliver 0 1), .background (.deliver 1 0),
    .background (.deliver 1 1)] ++ fetchedKey 0 ++ pushedKey 0 1 ++ fetchedKey 0

/-- The second pull of worker 0 requires clock 1, and gets clock 0 and a chunk of clock 0, without
the push of the worker. -/
theorem keyPulls_met_lagging : (∀ i ∈ laggingPush, i.Valid (pairCluster 1).t) ∧
    (∃ s out, run (keyStep (pairCluster 1) {0, 1}) (.init (pairCluster 1) fun _ => .mapChunk 0)
        laggingPush = some (s, out) ∧
      ¬ ∀ e ∈ out, e.2.Met (pairCluster 1) s.process.cluster) ∧
    ∃ s out, run (keyStep (pairCluster 1) {0, 1}) (.init (pairCluster 1) fun _ => .noneChunk)
        laggingPush = some (s, out) ∧
      ¬ ∀ e ∈ out, e.2.Met (pairCluster 1) s.process.cluster := by
  have hmapChunk : run (keyStep (pairCluster 1) {0, 1}) (.init (pairCluster 1) fun _ => .mapChunk 0)
      laggingPush = some (_, [(0, .got [0] 0 [0] (some 0)), (0, .pulled [0] [0]), (0, .pushed),
        (0, .got [0] 1 [0] (some 0)), (0, .pulled [0] [0])]) := rfl
  have hnoneChunk : run (keyStep (pairCluster 1) {0, 1}) (.init (pairCluster 1) fun _ => .noneChunk)
      laggingPush = some (_, [(0, .got [0] 0 [0] (some 0)), (0, .pulled [0] [0]), (0, .pushed),
        (0, .got [0] 1 [0] (some 0)), (0, .pulled [0] [0])]) := rfl
  have hlate : ∀ {out : List (ℕ × KeyEvent ℤ)} {cluster : ClusterState (MapStore ℤ) ℤ},
      (0, .got [0] 1 [0] (some 0)) ∈ out → ¬ ∀ e ∈ out, e.2.Met (pairCluster 1) cluster := by
    intro out cluster hmem hmet
    obtain ⟨⟨x, hx, hle⟩, -⟩ := hmet _ hmem (List.cons_ne_nil _ _)
    obtain rfl := Option.some.inj hx
    omega
  exact ⟨by decide, ⟨_, _, hmapChunk, hlate (by simp)⟩, _, _, hnoneChunk, hlate (by simp)⟩

/-- Worker 1 has pushed too when worker 0 pulls again. -/
def caughtUp : List (KeyInput ℤ) :=
  [.background (.deliver 0 0), .background (.deliver 0 1), .background (.deliver 1 0),
    .background (.deliver 1 1)] ++ fetchedKey 0 ++ pushedKey 0 1 ++ cachedKey 1 ++ pushedKey 1 10 ++
    fetchedKey 0

theorem keyPulls_met_caughtUp :
    (∃ s out, run (keyStep (pairCluster 1) {0, 1}) (.init (pairCluster 1) fun _ => .mapChunk 0)
        caughtUp = some (s, out) ∧ (0, .got [0] 1 [11] (some 1)) ∈ out ∧
      (KeyEvent.got [0] 1 [11] (some 1)).Met (pairCluster 1) s.process.cluster) ∧
    ∃ s out, run (keyStep (pairCluster 1) {0, 1}) (.init (pairCluster 1) fun _ => .noneChunk)
        caughtUp = some (s, out) ∧ (0, .got [0] 1 [11] (some 1)) ∈ out ∧
      (KeyEvent.got [0] 1 [11] (some 1)).Met (pairCluster 1) s.process.cluster := by
  have hvalid : ∀ i ∈ caughtUp, i.Valid (pairCluster 1).t := by decide
  have hmapChunk : run (keyStep (pairCluster 1) {0, 1}) (.init (pairCluster 1) fun _ => .mapChunk 0)
      caughtUp = some (_, [(0, .got [0] 0 [0] (some 0)), (0, .pulled [0] [0]), (0, .pushed),
        (1, .got [0] 0 [0] (some 0)), (1, .pulled [0] [0]), (1, .pushed),
        (0, .got [0] 1 [11] (some 1)), (0, .pulled [0] [11])]) := rfl
  have hnoneChunk : run (keyStep (pairCluster 1) {0, 1}) (.init (pairCluster 1) fun _ => .noneChunk)
      caughtUp = some (_, [(0, .got [0] 0 [0] (some 0)), (0, .pulled [0] [0]), (0, .pushed),
        (1, .got [0] 0 [0] (some 0)), (1, .pulled [0] [0]), (1, .pushed),
        (0, .got [0] 1 [11] (some 1)), (0, .pulled [0] [11])]) := rfl
  refine ⟨⟨_, _, hmapChunk, by simp, ?_⟩, _, _, hnoneChunk, by simp, ?_⟩
  · exact (keyPulls_met (pairCluster 1) {0, 1} _ hvalid (by decide +kernel) hmapChunk).1
      (0, .got [0] 1 [11] (some 1)) (by simp)
  · exact (keyPulls_met (pairCluster 1) {0, 1} _ hvalid (by decide +kernel) hnoneChunk).1
      (0, .got [0] 1 [11] (some 1)) (by simp)

end FlexPS.ML
