import FlexPS.ML.CachedChunk
import FlexPS.ML.Process

/-!
# Workers with a thread cache and a process cache

The `PSChunkChunkWorker`s of a process among the workers of a cluster.  Each alternates pulls and
pushes.  A pull waits for the last push, and asks the cache of the process for the chunks whose
clock is too old, where the threads meet in the fetch manager and fetch from the servers.  A push
goes to the servers and to the chunks of the worker, but not to the cache of the process.  The
workers of other processes call what they like, and servers and network do as they like.

## Main definitions

* `ChunkChunkSystem`, `chunkChunkStep` — the cluster, the process and its workers.
* `Contains` — a cached chunk and the pushes in it.
* `ChunkChunkInv` — the invariant.
* `chunkChunk_bounded` — the staleness of what is returned is bounded, and the assertion in the
  fetch manager never fires.
-/

namespace FlexPS.ML

open KVStore Lib ModelWithCM

variable {S Val : Type}

/-! ## The workers -/

namespace PSChunkChunkWorker

/-- `Pull` and `PullChunks` up to the call of the process cache: the chunks of the pull and those to
ask for. -/
def beginPull (t : RangeTable) (staleness : ℕ) (w : PSChunkChunkWorker Val) (r : Read) :
    Option (PSChunkChunkWorker Val × List ℕ × List ℕ) :=
  if w.pullCount ≠ w.pushCount then none
  else do
    let ids ← r.ids t
    some (w.countPull, ids, w.countPull.uncachedChunks staleness ids)

/-- What the loop of `PullChunksWithMinClock` writes behind the pointers into the chunks and the
clocks of the worker. -/
def copyOut (w : PSChunkChunkWorker Val) (copies : List (ℕ × List Val × ℤ)) :
    PSChunkChunkWorker Val :=
  copies.foldl (fun w x =>
    { w with
      params := Function.update w.params x.1 x.2.1
      chunkClocks := Function.update w.chunkClocks x.1 x.2.2 }) w

/-- `PushChunks`. -/
def pushChunks [Add Val] (w : PSChunkChunkWorker Val) (ids : List ℕ) (chunks : List (List Val)) :
    Option (PSChunkChunkWorker Val) :=
  if w.pullCount ≠ w.pushCount + 1 ∨ ids.length ≠ chunks.length then none
  else do
    let params ← incChunks w.params (ids.zip chunks)
    some { w with params, pushCount := w.pushCount + 1 }

/-- `Pull` and `PullChunks` once all chunks are new enough. -/
def endPull (t : RangeTable) (w : PSChunkChunkWorker Val) (r : Read) (ids : List ℕ) :
    Option (List (WorkerEvent Val)) := do
  let e ← r.handOut t w.params
  some [.prepared (ids.map fun c => (c, w.chunkClocks c)) w.pushCount, e]

end PSChunkChunkWorker

/-- A pull that waits for the process cache. -/
structure CachePull where
  read : Read
  ids : List ℕ
  uncached : List ℕ

/-- The cluster, the process and its workers; `lastPush` is the call that `ts_` of a worker stands
for. -/
structure ChunkChunkSystem (S Val : Type) where
  process : ProcessState S Val
  workers : ℕ → PSChunkChunkWorker Val
  lastPush : ℕ → Option ℕ
  pending : ℕ → Option CachePull

/-- What the schedule decides. -/
inductive ChunkChunkInput (Val : Type) where
  | other (v : ℕ) (call : Call Val)
  | background (i : ProcessInput Val)
  | pull (t : ℕ) (r : Read)
  | push (t : ℕ) (keys : List ℕ) (vals : List Val)
  | pushChunks (t : ℕ) (ids : List ℕ) (chunks : List (List Val))

section Step

variable [StorageT S Val] [AddCommMonoid Val] (C : Cluster S Val) (threads : Finset ℕ)

namespace ChunkChunkSystem

/-- Before anything happens. -/
def init : ChunkChunkSystem S Val := ⟨.init C, fun _ => .new, fun _ => none, fun _ => none⟩

/-- A pull once its chunks are known. -/
def ask (s : ChunkChunkSystem S Val) (t : ℕ) (worker : PSChunkChunkWorker Val) (r : Read)
    (ids uncached : List ℕ) : Option (ChunkChunkSystem S Val × List (ℕ × WorkerEvent Val)) :=
  if uncached = [] then do
    let events ← worker.endPull C.t r ids
    some ({ s with workers := Function.update s.workers t worker }, events.map (t, ·))
  else do
    let (process, _) ← processStep C s.process
      (.call t (.pullChunksWithMinClock uncached (worker.minClock C.staleness)))
    some ({ s with
      process
      workers := Function.update s.workers t worker
      pending := Function.update s.pending t (some ⟨r, ids, uncached⟩) }, [])

/-- The call of the process cache returns, and with it the pull. -/
def finish (s : ChunkChunkSystem S Val) :
    List (CacheEvent Val) → Option (ChunkChunkSystem S Val × List (ℕ × WorkerEvent Val))
  | [.returnedChunks t _ _ copies] => do
      let p ← s.pending t
      let worker := (s.workers t).copyOut copies
      let events ← worker.endPull C.t p.read p.ids
      some ({ s with
        workers := Function.update s.workers t worker
        pending := Function.update s.pending t none }, events.map (t, ·))
  | _ => some (s, [])

/-- The worker sends a push. -/
def send (s : ChunkChunkSystem S Val) (t : ℕ) (worker : PSChunkChunkWorker Val) (call : Call Val) :
    Option (ChunkChunkSystem S Val × List (ℕ × WorkerEvent Val)) := do
  let (process, _) ← processStep C s.process (.send t call)
  some ({ s with
    process
    workers := Function.update s.workers t worker
    lastPush := Function.update s.lastPush t (some (s.process.cluster.calls t).length) },
    [(t, .pushed)])

end ChunkChunkSystem

/-- One step; `threads` are the workers of the process.  A pull counts up an `int`. -/
def chunkChunkStep (s : ChunkChunkSystem S Val) :
    ChunkChunkInput Val → Option (ChunkChunkSystem S Val × List (ℕ × WorkerEvent Val))
  | .other v call =>
      if v ∈ threads then none
      else do
        let (process, _) ← processStep C s.process (.send v call)
        some ({ s with process }, [])
  | .background i =>
      if i.background then do
        let (process, seen) ← processStep C s.process i
        ChunkChunkSystem.finish C { s with process } seen
      else none
  | .pull t r =>
      if t ∈ threads ∧ (s.pending t).isNone ∧
          (s.lastPush t).all (C.returns s.process.cluster t) ∧
          (s.workers t).pullCount + 1 < 2 ^ 31 then do
        let (worker, ids, uncached) ← (s.workers t).beginPull C.t C.staleness r
        s.ask C t worker r ids uncached
      else none
  | .push t keys vals =>
      if t ∈ threads ∧ (s.pending t).isNone then do
        let (worker, _) ← (s.workers t).push C.t keys vals
        s.send C t worker (.push keys vals)
      else none
  | .pushChunks t ids chunks =>
      if t ∈ threads ∧ (s.pending t).isNone then do
        let worker ← (s.workers t).pushChunks ids chunks
        s.send C t worker (.pushChunks ids chunks)
      else none

/-- What callers have to respect: sorted keys and chunk ids, in range. -/
def ChunkChunkInput.Valid (t : RangeTable) : ChunkChunkInput Val → Prop
  | other _ call => call.Sorted t
  | pull _ r => r.Sorted t
  | push _ keys vals => (Call.push keys vals).Sorted t
  | pushChunks _ ids chunks => (Call.pushChunks ids chunks).Sorted t
  | background _ => True

instance ChunkChunkInput.decidableValid (t : RangeTable) (i : ChunkChunkInput Val) :
    Decidable (i.Valid t) := by
  cases i <;> unfold ChunkChunkInput.Valid <;> infer_instance

end Step

/-! ## What is promised -/

section Promise

variable [StorageT S Val] [AddCommMonoid Val]

/-- A value after `p` pushes of a worker: the store at the start and a set of pushes, each once,
with every push, of any worker, that is numbered below `p - s`. -/
def BoundedValue (C : Cluster S Val) (calls : ℕ → List (Call Val)) (p key : ℕ) (v : Val) : Prop :=
  ∃ A, C.Sent calls A ∧ v = C.held calls A key ∧
    ∀ u ∈ C.workers, ∀ j, j + C.staleness < p → (u, j) ∈ A

/-- How often a worker has pushed. -/
def pushed (before : List (ℕ × WorkerEvent Val)) (t : ℕ) : ℕ :=
  before.countP fun e => e.1 == t && e.2.isPush

/-- What an event has to show, given what was seen before it: the staleness of values is bounded,
and prepared chunks are at most the staleness behind the pushes of the worker. -/
def BoundedEvent (C : Cluster S Val) (calls : ℕ → List (Call Val))
    (before : List (ℕ × WorkerEvent Val)) (e : ℕ × WorkerEvent Val) : Prop :=
  e.2.Reads C.t (BoundedValue C calls (pushed before e.1)) ∧
    ∀ clocks clock, e.2 = .prepared clocks clock →
      clock = pushed before e.1 ∧ ∀ x ∈ clocks, (clock : ℤ) - C.staleness ≤ x.2

variable {C : Cluster S Val} {calls calls' : ℕ → List (Call Val)}

theorem BoundedEvent.later {before : List (ℕ × WorkerEvent Val)} {e : ℕ × WorkerEvent Val}
    (h : BoundedEvent C calls before e) (hcalls : ∀ v, calls v <+: calls' v) :
    BoundedEvent C calls' before e := by
  refine ⟨h.1.imp fun key v ⟨A, hsent, hv, hbelow⟩ => ?_, h.2⟩
  exact ⟨A, hsent.later hcalls, hv.trans (hsent.held_later hcalls key).symm, hbelow⟩

omit [StorageT S Val] [AddCommMonoid Val] in
theorem pushed_append (before o : List (ℕ × WorkerEvent Val)) (t : ℕ) :
    pushed (before ++ o) t = pushed before t + pushed o t :=
  List.countP_append

/-! ## Chunks -/

/-- A cached chunk: the store at the start and the pushes of `A`, each once, with every push that
is numbered below the clock. -/
structure Contains (C : Cluster S Val) (calls : ℕ → List (Call Val)) (c : ℕ) (vals : List Val)
    (clock : ℤ) (A : Finset (ℕ × ℕ)) : Prop where
  vals_eq : vals = (chunkKeys C.t c).map (C.held calls A)
  sent : C.Sent calls A
  below : ∀ v ∈ C.workers, ∀ j : ℕ, (j : ℤ) < clock → (v, j) ∈ A

theorem Contains.later {c : ℕ} {vals : List Val} {clock : ℤ} {A : Finset (ℕ × ℕ)}
    (h : Contains C calls c vals clock A) (hcalls : ∀ v, calls v <+: calls' v) :
    Contains C calls' c vals clock A := by
  refine ⟨?_, h.sent.later hcalls, h.below⟩
  rw [h.vals_eq]
  exact List.map_congr_left fun key _ => (h.sent.held_later hcalls key).symm

/-- The worker pushes: the push is not in the chunk yet. -/
theorem Contains.push {w p c : ℕ} {clock : ℤ} {A : Finset (ℕ × ℕ)} {params params' : ℕ → List Val}
    {call : Call Val} (h : Contains C calls c (params c) clock A) (hw : w ∈ C.workers)
    (hp : (pushes (calls w)).length = p) (hpush : call.isPush = true)
    (hadded : Added C.t params params' (call.entries C.t)) :
    Contains C (Function.update calls w (calls w ++ [call])) c (params' c) clock
      (insert (w, p) A) := by
  have hA : (w, p) ∉ A := fun hmem => absurd (h.sent _ hmem).2 (by simp [hp])
  exact ⟨held_push hpush hp h.sent hA h.vals_eq hadded, sent_push hw hpush hp h.sent,
    fun v hv j hj => Finset.mem_insert_of_mem (h.below v hv j hj)⟩

/-- A copy from a server. -/
theorem Copied.contains {s : ClusterState S Val} {clock : ℤ} {p : ℕ × List Val}
    (h : Copied C s clock p) : ∃ A, Contains C s.calls p.1 p.2 clock A := by
  obtain ⟨-, w, k, A, hcopy⟩ := h
  exact ⟨A, hcopy.vals_eq, hcopy.sent, hcopy.below⟩

end Promise

namespace PSChunkChunkWorker

variable {w : PSChunkChunkWorker Val}

@[simp] theorem copyOut_pullCount (copies : List (ℕ × List Val × ℤ)) :
    (w.copyOut copies).pullCount = w.pullCount := by
  induction copies generalizing w with
  | nil => rfl
  | cons x copies ih => exact ih

@[simp] theorem copyOut_pushCount (copies : List (ℕ × List Val × ℤ)) :
    (w.copyOut copies).pushCount = w.pushCount := by
  induction copies generalizing w with
  | nil => rfl
  | cons x copies ih => exact ih

/-- A chunk of the worker is one that was copied out, or what it was. -/
theorem copyOut_cases (copies : List (ℕ × List Val × ℤ)) (c : ℕ) :
    (∃ x ∈ copies, x.1 = c ∧ (w.copyOut copies).params c = x.2.1 ∧
      (w.copyOut copies).chunkClocks c = x.2.2) ∨
    (c ∉ copies.map Prod.fst ∧ (w.copyOut copies).params c = w.params c ∧
      (w.copyOut copies).chunkClocks c = w.chunkClocks c) := by
  induction copies generalizing w with
  | nil => exact .inr ⟨List.not_mem_nil, rfl, rfl⟩
  | cons x copies ih =>
      rcases ih (w := ⟨Function.update w.params x.1 x.2.1,
        Function.update w.chunkClocks x.1 x.2.2, w.pullCount, w.pushCount⟩) with
        ⟨y, hy, hcopy⟩ | ⟨hout, hparams, hclock⟩
      · exact .inl ⟨y, List.mem_cons_of_mem _ hy, hcopy⟩
      · by_cases hc : c = x.1
        · subst hc
          simp only [Function.update_self] at hparams hclock
          exact .inl ⟨x, List.mem_cons_self .., rfl, hparams, hclock⟩
        · simp only [Function.update_of_ne hc] at hparams hclock
          refine .inr ⟨?_, hparams, hclock⟩
          rw [List.map_cons, List.mem_cons, not_or]
          exact ⟨hc, hout⟩

@[simp] theorem copyOut_minClock (staleness : ℕ) (copies : List (ℕ × List Val × ℤ)) :
    (w.copyOut copies).minClock staleness = w.minClock staleness := by
  rw [minClock, copyOut_pullCount, minClock]

/-- What has been copied out, or needed no copy, is new enough. -/
theorem copyOut_fresh {copies : List (ℕ × List Val × ℤ)} {uncached : List ℕ} {clock : ℤ} {c : ℕ}
    (hchunks : copies.map Prod.fst = uncached) (hcopies : ∀ x ∈ copies, clock ≤ x.2.2)
    (hc : c ∈ uncached ∨ clock ≤ w.chunkClocks c) : clock ≤ (w.copyOut copies).chunkClocks c := by
  rcases copyOut_cases (w := w) copies c with ⟨x, hx, -, -, hclock⟩ | ⟨hout, -, hclock⟩
  · rw [hclock]
    exact hcopies x hx
  · rw [hclock]
    rw [hchunks] at hout
    exact hc.resolve_left hout

/-- The clock that a pull asks for is the staleness behind the pushes. -/
theorem minClock_eq {staleness : ℕ} (h : w.pullCount = w.pushCount + 1) :
    w.minClock staleness = max 0 ((w.pushCount : ℤ) - staleness) := by
  rw [minClock, h]
  congr 1
  push_cast
  omega

end PSChunkChunkWorker

section Push

variable [AddCommMonoid Val] {t : RangeTable} {w worker : PSChunkChunkWorker Val}

/-- What `Push` does to the cached chunks. -/
theorem PSChunkChunkWorker.push_added (hsize : 0 < t.chunkSize) {keys : List ℕ} {vals : List Val}
    {pairs : List (ℕ × Val)} (h : w.push t keys vals = some (worker, pairs)) :
    ∃ params, worker = { w with params, pushCount := w.pushCount + 1 } ∧
      Added t w.params params (keys.zip vals) := by
  unfold push pairUp at h
  split at h
  · cases h
  · split at h
    · simp only [Option.bind_eq_bind, Option.bind_some, Option.bind_eq_some_iff] at h
      obtain ⟨params, hparams, h⟩ := h
      obtain ⟨rfl, -⟩ := Prod.mk.inj (Option.some.inj h)
      exact ⟨params, rfl, (incAll_added hsize hparams).2⟩
    · cases h

/-- What `PushChunks` does to the cached chunks. -/
theorem PSChunkChunkWorker.pushChunks_added {ids : List ℕ} {chunks : List (List Val)}
    (hlen : ∀ p ∈ ids.zip chunks, p.2.length ≤ t.chunkSize)
    (h : w.pushChunks ids chunks = some worker) :
    ∃ params, worker = { w with params, pushCount := w.pushCount + 1 } ∧
      Added t w.params params ((ids.zip chunks).flatMap (chunkPairs t.chunkSize)) := by
  unfold pushChunks at h
  split at h
  · cases h
  · obtain ⟨params, hparams, h⟩ := Option.bind_eq_some_iff.mp h
    obtain rfl := Option.some.inj h
    exact ⟨params, rfl, incChunks_added hlen hparams⟩

end Push

/-! ## The invariant -/

section Invariant

variable [StorageT S Val] [AddCommMonoid Val]

/-- What is known of a pull of thread `t` that waits. -/
structure CachePull.Sound (C : Cluster S Val) (threads : Finset ℕ) (cache : CacheSystem Val)
    (w : PSChunkChunkWorker Val) (t : ℕ) (p : CachePull) : Prop where
  mem : t ∈ threads
  current : (cache.threads t).current =
    some (.pullChunksWithMinClock p.uncached (w.minClock C.staleness))
  counted : w.pullCount = w.pushCount + 1
  reads : ∀ c ∈ p.read.reads C.t, c ∈ p.ids
  covers : ∀ c ∈ p.ids, c ∈ p.uncached ∨ w.minClock C.staleness ≤ w.chunkClocks c

/-- The invariant. -/
structure ChunkChunkInv (C : Cluster S Val) (threads : Finset ℕ)
    (out : List (ℕ × WorkerEvent Val)) (s : ChunkChunkSystem S Val) : Prop where
  process : ∃ seen, ProcessInv C seen s.process
  idle : ∀ t, s.pending t = none → (s.process.cache.threads t).current = none
  pending : ∀ t, ∀ p ∈ s.pending t, p.Sound C threads s.process.cache (s.workers t) t
  pushes_eq : ∀ t ∈ threads,
    (pushes (s.process.cluster.calls t)).length = (s.workers t).pushCount
  seen_eq : ∀ t, pushed out t = (s.workers t).pushCount
  pullCount_lt : ∀ t, (s.workers t).pullCount < 2 ^ 31
  cached : ∀ t c, 0 ≤ (s.workers t).chunkClocks c → ∃ A, Contains C s.process.cluster.calls c
    ((s.workers t).params c) ((s.workers t).chunkClocks c) A
  fresh : Throughout (BoundedEvent C s.process.cluster.calls) out

theorem chunkChunkInv_init (C : Cluster S Val) (threads : Finset ℕ) :
    ChunkChunkInv C threads [] (ChunkChunkSystem.init C) where
  process := ⟨[], processInv_init C⟩
  idle _ _ := rfl
  pending _ _ h := by cases h
  pushes_eq _ _ := rfl
  seen_eq _ := rfl
  pullCount_lt _ := show 0 < 2 ^ 31 by decide
  cached _ _ h := absurd (show (0 : ℤ) ≤ -1 from h) (by decide)
  fresh := throughout_nil _

variable {C : Cluster S Val} {threads : Finset ℕ} {out o : List (ℕ × WorkerEvent Val)}
  {s s' : ChunkChunkSystem S Val}

/-- The process goes on, and no worker pushes. -/
theorem ChunkChunkInv.process_later (h : ChunkChunkInv C threads out s)
    {process : ProcessState S Val} {pending : ℕ → Option CachePull}
    (hprocess : ∃ seen, ProcessInv C seen process)
    (hlater : s.process.cluster.Later process.cluster)
    (hpushes : ∀ t ∈ threads,
      pushes (process.cluster.calls t) = pushes (s.process.cluster.calls t))
    (hidle : ∀ t, pending t = none → (process.cache.threads t).current = none)
    (hpending : ∀ t, ∀ p ∈ pending t, p.Sound C threads process.cache (s.workers t) t) :
    ChunkChunkInv C threads out { s with process, pending } where
  process := hprocess
  idle := hidle
  pending := hpending
  pushes_eq t ht := by
    rw [← h.pushes_eq t ht]
    exact congrArg List.length (hpushes t ht)
  seen_eq := h.seen_eq
  pullCount_lt := h.pullCount_lt
  cached t c hc := by
    obtain ⟨A, hcontains⟩ := h.cached t c hc
    exact ⟨A, hcontains.later hlater.calls⟩
  fresh := h.fresh.imp fun _ _ he => he.later hlater.calls

/-- A worker that is in no call changes what it holds. -/
theorem ChunkChunkInv.worker (h : ChunkChunkInv C threads out s) {t : ℕ}
    (hpending : s.pending t = none) {worker : PSChunkChunkWorker Val}
    (hpushCount : worker.pushCount = (s.workers t).pushCount)
    (hpullCount : worker.pullCount < 2 ^ 31)
    (hcached : ∀ c, 0 ≤ worker.chunkClocks c → ∃ A, Contains C s.process.cluster.calls c
      (worker.params c) (worker.chunkClocks c) A) :
    ChunkChunkInv C threads out { s with workers := Function.update s.workers t worker } := by
  have hat : ∀ P : ℕ → PSChunkChunkWorker Val → Prop, P t worker → (∀ v, P v (s.workers v)) →
      ∀ v, P v (Function.update s.workers t worker v) := by
    intro P hnew hold v
    by_cases hv : v = t
    · subst hv
      rwa [Function.update_self]
    · rw [Function.update_of_ne hv]
      exact hold v
  refine ⟨h.process, h.idle, fun v p hp => ?_, hat (fun v w => v ∈ threads →
      (pushes (s.process.cluster.calls v)).length = w.pushCount) ?_ h.pushes_eq,
    hat (fun v w => pushed out v = w.pushCount) ?_ h.seen_eq,
    hat (fun _ w => w.pullCount < 2 ^ 31) hpullCount h.pullCount_lt,
    hat (fun _ w => ∀ c, 0 ≤ w.chunkClocks c → ∃ A, Contains C s.process.cluster.calls c
      (w.params c) (w.chunkClocks c) A) hcached h.cached, h.fresh⟩
  · have hv : v ≠ t := by
      rintro rfl
      exact absurd (hpending.symm.trans hp) (by simp)
    simp only [Function.update_of_ne hv]
    exact h.pending v p hp
  · rw [hpushCount]
    exact h.pushes_eq t
  · rw [hpushCount]
    exact h.seen_eq t

omit [StorageT S Val] [AddCommMonoid Val] in
/-- What the end of a pull shows are no pushes, and the clocks only once. -/
theorem PSChunkChunkWorker.endPull_spec {table : RangeTable} {w : PSChunkChunkWorker Val} {r : Read}
    {ids : List ℕ} {events : List (WorkerEvent Val)} (h : w.endPull table r ids = some events) :
    ∃ e, r.handOut table w.params = some e ∧
      events = [.prepared (ids.map fun c => (c, w.chunkClocks c)) w.pushCount, e] ∧
      e.isPush = false ∧ ∀ clocks clock, e ≠ .prepared clocks clock := by
  simp only [endPull, Option.bind_eq_bind, Option.bind_eq_some_iff] at h
  obtain ⟨e, he, h⟩ := h
  refine ⟨e, he, (Option.some.inj h).symm, ?_⟩
  cases r with
  | keys ks =>
      obtain ⟨vals, -, rfl⟩ := Option.map_eq_some_iff.mp he
      exact ⟨rfl, fun _ _ => by simp⟩
  | chunks ids =>
      obtain rfl := Option.some.inj he
      exact ⟨rfl, fun _ _ => by simp⟩

/-- **A pull whose chunks are all new enough** returns values of bounded staleness. -/
theorem ChunkChunkInv.endPull (h : ChunkChunkInv C threads out s) {t : ℕ}
    {worker : PSChunkChunkWorker Val} {r : Read} {ids : List ℕ} {events : List (WorkerEvent Val)}
    (hworker : s.workers t = worker) (hcounted : worker.pullCount = worker.pushCount + 1)
    (hevents : worker.endPull C.t r ids = some events)
    (hids : ∀ c ∈ ids, worker.minClock C.staleness ≤ worker.chunkClocks c)
    (hreads : ∀ c ∈ r.reads C.t, c ∈ ids) :
    ChunkChunkInv C threads (out ++ events.map (t, ·)) s := by
  subst hworker
  obtain ⟨e, he, rfl, heither⟩ := PSChunkChunkWorker.endPull_spec hevents
  rw [PSChunkChunkWorker.minClock_eq hcounted] at hids
  set prepared : WorkerEvent Val := .prepared
    (ids.map fun c => (c, (s.workers t).chunkClocks c)) (s.workers t).pushCount with hprepared
  have hread : e.Reads C.t (BoundedValue C s.process.cluster.calls (s.workers t).pushCount) := by
    refine reads_handOut he fun c hc => ?_
    have hclock := hids c (hreads c hc)
    obtain ⟨A, hcontains⟩ := h.cached t c ((le_max_left _ _).trans hclock)
    refine ⟨_, hcontains.vals_eq, fun key => ⟨A, hcontains.sent, rfl, fun u hu j hj => ?_⟩⟩
    have := (le_max_right _ _).trans hclock
    exact hcontains.below u hu j (by omega)
  have hnothing : ∀ v, pushed [(t, prepared)] v = 0 ∧ pushed [(t, e)] v = 0 := by
    intro v
    simp [pushed, show prepared.isPush = false from rfl, heither.1]
  refine ⟨h.process, h.idle, h.pending, h.pushes_eq, fun v => ?_, h.pullCount_lt, h.cached, ?_⟩
  · rw [List.map_cons, List.map_singleton, ← List.singleton_append, pushed_append, pushed_append,
      (hnothing v).1, (hnothing v).2]
    exact h.seen_eq v
  · rw [List.map_cons, List.map_singleton, ← List.singleton_append, ← List.append_assoc,
      throughout_snoc, throughout_snoc]
    refine ⟨⟨h.fresh, trivial, fun clocks clock heq => ?_⟩, ?_, fun clocks clock heq =>
      absurd heq (heither.2 clocks clock)⟩
    · obtain ⟨rfl, rfl⟩ := WorkerEvent.prepared.inj heq
      refine ⟨(h.seen_eq t).symm, fun x hx => ?_⟩
      obtain ⟨c, hc, rfl⟩ := List.mem_map.mp hx
      exact (le_max_right _ _).trans (hids c hc)
    · rw [pushed_append, (hnothing t).1, h.seen_eq t]
      exact hread

omit [StorageT S Val] [AddCommMonoid Val] in
/-- The chunks that a pull asks for are those that are too old. -/
theorem PSChunkChunkWorker.beginPull_spec {t : RangeTable} {staleness : ℕ}
    {w worker : PSChunkChunkWorker Val} {r : Read} {ids uncached : List ℕ}
    (h : w.beginPull t staleness r = some (worker, ids, uncached)) :
    w.pullCount = w.pushCount ∧ worker = w.countPull ∧ r.ids t = some ids ∧
      uncached.Sublist ids ∧
      ∀ c ∈ ids, c ∈ uncached ∨ w.countPull.minClock staleness ≤ w.chunkClocks c := by
  unfold beginPull at h
  split at h
  · cases h
  · next hturn =>
      obtain ⟨ids', hids, h⟩ := Option.bind_eq_some_iff.mp h
      obtain ⟨rfl, hlists⟩ := Prod.mk.inj (Option.some.inj h)
      obtain ⟨rfl, rfl⟩ := Prod.mk.inj hlists
      refine ⟨not_not.mp hturn, rfl, hids, List.filter_sublist, fun c hc => ?_⟩
      by_cases hold : w.chunkClocks c < w.countPull.minClock staleness
      · exact .inl (List.mem_filter.mpr ⟨hc, decide_eq_true hold⟩)
      · exact .inr (not_lt.mp hold)

omit [AddCommMonoid Val] in
/-- Chunks that arrive end no pull. -/
theorem ChunkChunkSystem.finish_eq {seen : List (CacheEvent Val)}
    (h : seen = [] ∨ ∃ t clock chunks, seen = [.delivered t clock chunks]) :
    s.finish C seen = some (s, []) := by
  rcases h with rfl | ⟨t, clock, chunks, rfl⟩ <;> rfl

/-- What becomes of the pulls when the process goes on: nothing, or the call that one of them waits
for returns. -/
inductive Continues (C : Cluster S Val) (s : ChunkChunkSystem S Val) (process : ProcessState S Val) :
    List (CacheEvent Val) → ChunkChunkSystem S Val → List (ℕ × WorkerEvent Val) → Prop
  | goes {seen : List (CacheEvent Val)}
      (hcurrent : ∀ t, (process.cache.threads t).current = (s.process.cache.threads t).current) :
      Continues C s process seen { s with process } []
  | ends {t : ℕ} {p : CachePull} {copies : List (ℕ × List Val × ℤ)}
      {events : List (WorkerEvent Val)} (hpending : s.pending t = some p)
      (hidle : process.cache.threads t = .idle)
      (hothers : ∀ v ≠ t,
        (process.cache.threads v).current = (s.process.cache.threads v).current)
      (hevents : ((s.workers t).copyOut copies).endPull C.t p.read p.ids = some events) :
      Continues C s process
        [.returnedChunks t p.uncached ((s.workers t).minClock C.staleness) copies]
        { s with
          process
          workers := Function.update s.workers t ((s.workers t).copyOut copies)
          pending := Function.update s.pending t none } (events.map (t, ·))

/-- **The process goes on**, and a pull may end. -/
theorem ChunkChunkInv.continues (h : ChunkChunkInv C threads out s) {process : ProcessState S Val}
    {seen : List (CacheEvent Val)} (hcalls : CallStep C.t s.process.cache process.cache seen)
    (hrunning : ∀ t, process.cache.threads t ≠ .aborted)
    (hfinish : ChunkChunkSystem.finish C { s with process } seen = some (s', o)) :
    Continues C s process seen s' o := by
  cases hcalls with
  | stay hcurrent hseen =>
      rw [ChunkChunkSystem.finish_eq hseen] at hfinish
      obtain ⟨rfl, rfl⟩ := Prod.mk.inj (Option.some.inj hfinish)
      exact .goes hcurrent
  | abort haborted => exact absurd haborted (hrunning _)
  | @finish t c e hcurrent hidle hothers hreturns =>
      cases hp : s.pending t with
      | none =>
          rw [h.idle t hp] at hcurrent
          cases hcurrent
      | some p =>
          obtain rfl := Option.some.inj ((h.pending t p hp).current.symm.trans hcurrent)
          obtain ⟨copies, rfl⟩ := hreturns.resolve_left (by simp [CacheCall.managed])
          simp only [ChunkChunkSystem.finish, hp, Option.bind_eq_bind, Option.bind_some,
            Option.bind_eq_some_iff] at hfinish
          obtain ⟨events, hevents, hfinish⟩ := hfinish
          obtain ⟨rfl, rfl⟩ := Prod.mk.inj (Option.some.inj hfinish)
          exact .ends hp hidle hothers hevents

omit [AddCommMonoid Val] in
/-- What goes on by itself is valid. -/
theorem ProcessInput.valid_of_background {i : ProcessInput Val} (hi : i.background = true) :
    i.Valid C.t := by
  cases i with
  | send v call => cases hi
  | call t c => cases hi
  | _ => trivial

/-- The process goes on, and the invariant with it. -/
theorem ChunkChunkInv.background (h : ChunkChunkInv C threads out s) {i : ProcessInput Val}
    (hi : i.background = true) {process : ProcessState S Val} {seen : List (CacheEvent Val)}
    (hstep : processStep C s.process i = some (process, seen))
    (hfinish : ChunkChunkSystem.finish C { s with process } seen = some (s', o)) :
    ChunkChunkInv C threads (out ++ o) s' := by
  obtain ⟨before, hprocess⟩ := h.process
  have hnow := processInv_step hprocess (ProcessInput.valid_of_background hi)
    (by rintro t c rfl; cases hi) hstep
  have hback := processStep_background hi hstep
  cases h.continues hback.calls hnow.not_aborted hfinish with
  | goes hcurrent =>
      rw [List.append_nil]
      refine h.process_later ⟨_, hnow⟩ hback.later (fun t _ => hback.pushes_eq t)
        (fun t ht => (hcurrent t).trans (h.idle t ht)) fun t p hp => ?_
      have hsound := h.pending t p hp
      exact { hsound with current := (hcurrent t).trans hsound.current }
  | @ends t p copies events hp hidle hothers hevents =>
      have hsound := h.pending t p hp
      obtain ⟨hchunks, hcopies⟩ := hprocess.handsOut (le_max_left _ _) hstep
      -- the thread is out of its call, has the copies, and hands them out
      have hreturned : ChunkChunkInv C threads out
          { s with process, pending := Function.update s.pending t none } := by
        refine h.process_later ⟨_, hnow⟩ hback.later (fun v _ => hback.pushes_eq v)
          (fun v hv => ?_) fun v q hq => ?_
        · by_cases hvt : v = t
          · rw [hvt, hidle]
            rfl
          · rw [Function.update_of_ne hvt] at hv
            exact (hothers v hvt).trans (h.idle v hv)
        · by_cases hvt : v = t
          · rw [hvt, Function.update_self] at hq
            cases hq
          · rw [Function.update_of_ne hvt] at hq
            have hq := h.pending v q hq
            exact { hq with current := (hothers v hvt).trans hq.current }
      have hcopied := hreturned.worker (t := t)
        (Function.update_self ..) (PSChunkChunkWorker.copyOut_pushCount (w := s.workers t) copies)
        ((PSChunkChunkWorker.copyOut_pullCount _).trans_lt (h.pullCount_lt t)) fun c hc => by
          rcases PSChunkChunkWorker.copyOut_cases (w := s.workers t) copies c with
            ⟨x, hx, rfl, hparams, hclock⟩ | ⟨-, hparams, hclock⟩
          · rw [hparams, hclock]
            obtain ⟨A, hcontains⟩ := (hcopies x hx).2.contains
            exact ⟨A, hcontains.later hback.later.calls⟩
          · rw [hclock] at hc
            rw [hparams, hclock]
            exact hreturned.cached t c hc
      refine hcopied.endPull (Function.update_self ..) ?_ hevents (fun c hc => ?_) hsound.reads
      · rw [PSChunkChunkWorker.copyOut_pullCount, PSChunkChunkWorker.copyOut_pushCount]
        exact hsound.counted
      · rw [PSChunkChunkWorker.copyOut_minClock]
        exact PSChunkChunkWorker.copyOut_fresh hchunks (fun x hx => (hcopies x hx).1)
          (hsound.covers c hc)

/-- A pull begins. -/
theorem ChunkChunkInv.ask (h : ChunkChunkInv C threads out s) {t : ℕ} (ht : t ∈ threads)
    (hpending : s.pending t = none) {r : Read} (hr : r.Sorted C.t)
    (hcount : (s.workers t).pullCount + 1 < 2 ^ 31) {worker : PSChunkChunkWorker Val}
    {ids uncached : List ℕ}
    (hbegin : (s.workers t).beginPull C.t C.staleness r = some (worker, ids, uncached))
    (hask : s.ask C t worker r ids uncached = some (s', o)) :
    ChunkChunkInv C threads (out ++ o) s' := by
  obtain ⟨hturn, rfl, hids, hsub, hcovers⟩ := PSChunkChunkWorker.beginPull_spec hbegin
  obtain ⟨ids', hids', horder, hlt, hreads⟩ := hr.ids C.partitioned
  obtain rfl := Option.some.inj (hids'.symm.trans hids)
  have hcounted : (s.workers t).countPull.pullCount = (s.workers t).countPull.pushCount + 1 :=
    congrArg (· + 1) hturn
  have hcount : ChunkChunkInv C threads out
      { s with workers := Function.update s.workers t (s.workers t).countPull } :=
    h.worker hpending rfl hcount (h.cached t)
  unfold ChunkChunkSystem.ask at hask
  split at hask
  · next hnil =>
      obtain ⟨events, hevents, hask⟩ := Option.bind_eq_some_iff.mp hask
      obtain ⟨rfl, rfl⟩ := Prod.mk.inj (Option.some.inj hask)
      subst hnil
      exact hcount.endPull (Function.update_self ..) hcounted hevents
        (fun c hc => (hcovers c hc).resolve_left List.not_mem_nil) hreads
  · obtain ⟨⟨process, seen⟩, hstep, hask⟩ := Option.bind_eq_some_iff.mp hask
    obtain ⟨rfl, rfl⟩ := Prod.mk.inj (Option.some.inj hask)
    rw [List.append_nil]
    obtain ⟨hcluster, -, -, hcurrent, hothers⟩ := processStep_call hstep
    obtain ⟨before, hprocess⟩ := h.process
    have hvalid : ProcessInput.Valid C.t (.call t (.pullChunksWithMinClock uncached
        ((s.workers t).countPull.minClock C.staleness)) : ProcessInput Val) :=
      ⟨horder.sublist hsub, fun c hc => hlt c (hsub.subset hc)⟩
    have hnow := processInv_step hprocess hvalid (fun t' c' heq => ?_) hstep
    · refine hcount.process_later ⟨_, hnow⟩ (hcluster ▸ .refl _) (fun v _ => by rw [hcluster])
        (fun v hv => ?_) fun v p hp => ?_
      · by_cases hvt : v = t
        · rw [hvt, Function.update_self] at hv
          cases hv
        · rw [Function.update_of_ne hvt] at hv
          rw [hothers v hvt]
          exact h.idle v hv
      · by_cases hvt : v = t
        · subst hvt
          rw [Function.update_self] at hp
          obtain rfl := Option.some.inj hp
          simp only [Function.update_self]
          exact ⟨ht, hcurrent, hcounted, hreads, hcovers⟩
        · rw [Function.update_of_ne hvt] at hp
          simp only [Function.update_of_ne hvt]
          have hsound := h.pending v p hp
          exact { hsound with current := by rw [hothers v hvt, hsound.current] }
    · -- the worker asks for what its pushes let it get
      obtain ⟨rfl, rfl⟩ := ProcessInput.call.inj heq
      have hpushes := h.pushes_eq t ht
      have hint := h.pullCount_lt t
      have hpushCount : (s.workers t).countPull.pushCount = (s.workers t).pushCount := rfl
      rw [CacheCall.Timely, CacheCall.minClock, PSChunkChunkWorker.minClock_eq hcounted, hpushes,
        hpushCount]
      omega

/-- A worker pushes. -/
theorem ChunkChunkInv.sends (h : ChunkChunkInv C threads out s) {t : ℕ} (ht : t ∈ threads)
    (hpending : s.pending t = none) {params : ℕ → List Val} {call : Call Val}
    (hcall : call.Sorted C.t) (hpush : call.isPush = true)
    (hadded : Added C.t (s.workers t).params params (call.entries C.t))
    (hsend : s.send C t { s.workers t with params, pushCount := (s.workers t).pushCount + 1 } call =
      some (s', o)) :
    ChunkChunkInv C threads (out ++ o) s' := by
  obtain ⟨⟨process, seen⟩, hstep, hpushed⟩ := Option.bind_eq_some_iff.mp hsend
  obtain ⟨rfl, rfl⟩ := Prod.mk.inj (Option.some.inj hpushed)
  clear hsend hpushed
  obtain ⟨before, hprocess⟩ := h.process
  have hnow := processInv_step hprocess (i := .send t call) hcall (by simp) hstep
  obtain ⟨-, cluster, hsend, rfl⟩ := processStep_send hstep
  have hlater := C.later_send hsend
  obtain ⟨hw, rfl⟩ := C.send_eq hsend
  have hpushed : pushes (s.process.cluster.calls t ++ [call]) =
      pushes (s.process.cluster.calls t) ++ [call] := by
    simp [pushes, hpush]
  refine ⟨⟨_, hnow⟩, h.idle, fun v p hp => ?_, fun v hv => ?_, fun v => ?_, fun v => ?_,
    fun v c hc => ?_, ?_⟩
  · have hvt : v ≠ t := by
      rintro rfl
      exact absurd (hpending.symm.trans hp) (by simp)
    simp only [Function.update_of_ne hvt]
    exact h.pending v p hp
  · by_cases hvt : v = t
    · subst hvt
      simp only [Function.update_self]
      rw [hpushed, List.length_append, h.pushes_eq v hv]
      rfl
    · simp only [Function.update_of_ne hvt]
      exact h.pushes_eq v hv
  · rw [pushed_append, h.seen_eq v]
    by_cases hvt : v = t
    · subst hvt
      simp [pushed, WorkerEvent.isPush]
    · simp [pushed, Function.update_of_ne hvt, Ne.symm hvt]
  · by_cases hvt : v = t
    · subst hvt
      simp only [Function.update_self]
      exact h.pullCount_lt v
    · simp only [Function.update_of_ne hvt]
      exact h.pullCount_lt v
  · by_cases hvt : v = t
    · subst hvt
      simp only [Function.update_self] at hc ⊢
      obtain ⟨A, hcontains⟩ := h.cached v c hc
      exact ⟨_, hcontains.push hw rfl hpush hadded⟩
    · simp only [Function.update_of_ne hvt] at hc ⊢
      obtain ⟨A, hcontains⟩ := h.cached v c hc
      exact ⟨A, hcontains.later hlater.calls⟩
  · rw [throughout_snoc]
    exact ⟨h.fresh.imp fun _ _ he => he.later hlater.calls, trivial, fun _ _ heq => by cases heq⟩

/-- **Every step keeps the invariant.** -/
theorem chunkChunkInv_step (h : ChunkChunkInv C threads out s) {i : ChunkChunkInput Val}
    (hi : i.Valid C.t) (hstep : chunkChunkStep C threads s i = some (s', o)) :
    ChunkChunkInv C threads (out ++ o) s' := by
  cases i with
  | other v call =>
      simp only [chunkChunkStep] at hstep
      split at hstep
      · cases hstep
      · next hout =>
          obtain ⟨⟨process, seen⟩, hprocess, hstep⟩ := Option.bind_eq_some_iff.mp hstep
          obtain ⟨rfl, rfl⟩ := Prod.mk.inj (Option.some.inj hstep)
          rw [List.append_nil]
          obtain ⟨before, hinv⟩ := h.process
          have hnow := processInv_step hinv (i := .send v call) hi (by simp) hprocess
          obtain ⟨-, cluster, hsend, rfl⟩ := processStep_send hprocess
          have hlater := C.later_send hsend
          obtain ⟨-, rfl⟩ := C.send_eq hsend
          refine h.process_later ⟨_, hnow⟩ hlater (fun t ht => ?_) h.idle h.pending
          have hne : t ≠ v := fun heq => hout (heq ▸ ht)
          simp only [Function.update_of_ne hne]
  | background i =>
      simp only [chunkChunkStep] at hstep
      split at hstep
      · next hi =>
          obtain ⟨⟨process, seen⟩, hprocess, hfinish⟩ := Option.bind_eq_some_iff.mp hstep
          exact h.background hi hprocess hfinish
      · cases hstep
  | pull t r =>
      simp only [chunkChunkStep] at hstep
      split at hstep
      · next hguard =>
          obtain ⟨ht, hpending, -, hcount⟩ := hguard
          obtain ⟨⟨worker, ids, uncached⟩, hbegin, hask⟩ := Option.bind_eq_some_iff.mp hstep
          exact h.ask ht (Option.isNone_iff_eq_none.mp hpending) hi hcount hbegin hask
      · cases hstep
  | push t keys vals =>
      simp only [chunkChunkStep] at hstep
      split at hstep
      · next hguard =>
          obtain ⟨⟨worker, pairs⟩, hpush, hsend⟩ := Option.bind_eq_some_iff.mp hstep
          have hcall : (Call.push keys vals).Sorted C.t := hi
          obtain ⟨params, rfl, hadded⟩ := PSChunkChunkWorker.push_added
            C.partitioned.chunkSize_pos hpush
          exact h.sends hguard.1 (Option.isNone_iff_eq_none.mp hguard.2) hcall rfl hadded hsend
      · cases hstep
  | pushChunks t ids chunks =>
      simp only [chunkChunkStep] at hstep
      split at hstep
      · next hguard =>
          obtain ⟨worker, hpush, hsend⟩ := Option.bind_eq_some_iff.mp hstep
          have hcall : (Call.pushChunks ids chunks).Sorted C.t := hi
          have hlen : ∀ p ∈ ids.zip chunks, p.2.length ≤ C.t.chunkSize := fun p hp =>
            (hcall.2.2.2 p hp).trans_le (realChunkSize_le C.partitioned.chunkSize_pos p.1)
          obtain ⟨params, rfl, hadded⟩ := PSChunkChunkWorker.pushChunks_added hlen hpush
          exact h.sends hguard.1 (Option.isNone_iff_eq_none.mp hguard.2) hcall rfl hadded hsend
      · cases hstep

/-- The invariant holds after every run. -/
theorem chunkChunkInv_run {is : List (ChunkChunkInput Val)} (hvalid : ∀ i ∈ is, i.Valid C.t)
    (hrun : run (chunkChunkStep C threads) (.init C) is = some (s, out)) :
    ChunkChunkInv C threads out s := by
  have hinv := run_along (I := ChunkChunkInv C threads) ?_ (chunkChunkInv_init C threads)
    (along_of_forall hvalid [] _) hrun
  · rwa [List.nil_append] at hinv
  · exact fun hI hi hstep => chunkChunkInv_step hI hi hstep

end Invariant

/-- **Two levels of caches keep the staleness bounded.**  In every run of the `PSChunkChunkWorker`s
of a process, whatever the other workers call and in whatever order threads move and messages are
delivered: the assertion in `fetch_mgr_fetch_chunk` never fires; every value that a worker gets after
`p` pushes is the store at the start plus a set of pushes, each once, that has every push of every
worker numbered below `p - s`; and after `PrepareChunks` every requested chunk has a clock of at
least `p - s`. -/
theorem chunkChunk_bounded {S Val : Type} [StorageT S Val] [AddCommMonoid Val] (C : Cluster S Val)
    (threads : Finset ℕ) {is : List (ChunkChunkInput Val)} {s : ChunkChunkSystem S Val}
    {out : List (ℕ × WorkerEvent Val)} (hvalid : ∀ i ∈ is, i.Valid C.t)
    (hrun : run (chunkChunkStep C threads) (.init C) is = some (s, out)) :
    (∀ t, s.process.cache.threads t ≠ .aborted) ∧
      Throughout (BoundedEvent C s.process.cluster.calls) out := by
  have hinv := chunkChunkInv_run hvalid hrun
  obtain ⟨seen, hprocess⟩ := hinv.process
  exact ⟨hprocess.not_aborted, hinv.fresh⟩

/-- Worker 0 pulls a key of each server through the cache of the process and pushes to both; worker 1
finds what worker 0 has fetched, and worker 0 its own chunks. -/
def sharedChunks : List (ChunkChunkInput ℤ) :=
  [.background (.deliver 0 0), .background (.deliver 0 1), .background (.deliver 1 0),
    .background (.deliver 1 1), .pull 0 (.keys [0, 3])] ++
  List.replicate 7 (.background (.proceed 0)) ++
  [.background (.fetch 0), .background (.deliver 0 0), .background (.deliver 1 0),
    .background (.arrive 0 [1, 0])] ++
  List.replicate 6 (.background (.proceed 0)) ++
  [.push 0 [0, 3] [5, 7], .pull 1 (.keys [0])] ++
  List.replicate 4 (.background (.proceed 1)) ++
  [.background (.deliver 0 0), .background (.deliver 1 0), .pull 0 (.keys [0, 3])]

theorem chunkChunk_bounded_sharedChunks : ∃ s,
    run (chunkChunkStep (pairCluster 1) {0, 1}) (.init (pairCluster 1)) sharedChunks = some (s,
      [(0, .prepared [(0, 0), (1, 0)] 0), (0, .pulled [0, 3] [0, 0]), (0, .pushed),
        (1, .prepared [(0, 0)] 0), (1, .pulled [0] [0]),
        (0, .prepared [(0, 0), (1, 0)] 1), (0, .pulled [0, 3] [5, 7])]) ∧
    BoundedValue (pairCluster 1) s.process.cluster.calls 1 3 7 := by
  have hrun : run (chunkChunkStep (pairCluster 1) {0, 1}) (.init (pairCluster 1)) sharedChunks =
      some (_, [(0, .prepared [(0, 0), (1, 0)] 0), (0, .pulled [0, 3] [0, 0]), (0, .pushed),
        (1, .prepared [(0, 0)] 0), (1, .pulled [0] [0]),
        (0, .prepared [(0, 0), (1, 0)] 1), (0, .pulled [0, 3] [5, 7])]) := rfl
  have hvalid : ∀ i ∈ sharedChunks, i.Valid (pairCluster 1).t := by decide
  refine ⟨_, hrun, ?_⟩
  have hlast := (chunkChunk_bounded (pairCluster 1) {0, 1} hvalid hrun).2
    [(0, .prepared [(0, 0), (1, 0)] 0), (0, .pulled [0, 3] [0, 0]), (0, .pushed),
      (1, .prepared [(0, 0)] 0), (1, .pulled [0] [0]), (0, .prepared [(0, 0), (1, 0)] 1)]
    (0, .pulled [0, 3] [5, 7]) [] rfl
  -- the second of the two values
  have hreads := hlast.1
  exact (List.forall₂_cons.mp (List.forall₂_cons.mp hreads).2).1

end FlexPS.ML
