import FlexPS.ML.CachedChunk

/-!
# A worker with cached chunks in a cluster

A `PSChunkNoneWorker` among the workers of a cluster.  It alternates pulls and pushes; a pull
waits for the last push, fetches the chunks that are missing or too old and waits for the fetch.
The other workers call what they like, and servers and network do as they like.

## Main definitions

* `NoneSystem`, `noneStep` — the worker and the cluster.
* `NoneInv` — the invariant.
* `chunkNone_fresh` — what is returned contains the worker's own pushes and is fresh enough.
-/

namespace FlexPS.ML

open KVStore Lib ModelWithCM

variable {S Val : Type}

/-! ## The worker -/

namespace PSChunkNoneWorker

/-- `Pull` and `PullChunks` up to the fetch: the chunks of the pull and those to fetch. -/
def beginPull (t : RangeTable) (staleness : ℕ) (w : PSChunkNoneWorker Val) (r : Read) :
    Option (PSChunkNoneWorker Val × List ℕ × List ℕ) :=
  if w.pushCount ≠ w.pullCount then none
  else do
    let ids ← r.ids t
    let (toFetch, model) := w.model.beginPrepare staleness ids
    some ({ w with model, pullCount := w.pullCount + 1 }, ids, toFetch)

/-- `PushChunks`. -/
def pushChunks [Add Val] (w : PSChunkNoneWorker Val) (ids : List ℕ) (chunks : List (List Val)) :
    Option (PSChunkNoneWorker Val) :=
  if w.pushCount + 1 ≠ w.pullCount ∨ ids.length ≠ chunks.length then none
  else do
    let model ← w.model.pushChunks (ids.zip chunks)
    some { w with model, pushCount := w.pushCount + 1 }

/-- `Pull` and `PullChunks` once all chunks are there. -/
def endPull (t : RangeTable) (w : PSChunkNoneWorker Val) (r : Read) (ids : List ℕ) :
    Option (List (WorkerEvent Val)) := do
  let e ← r.handOut t w.model.params
  some [.prepared (ids.map fun c => (c, w.model.chunkClocks c)) w.model.clock, e]

end PSChunkNoneWorker

/-- A pull that waits for its fetch, which is call `number` of the worker. -/
structure PendingPull where
  read : Read
  ids : List ℕ
  toFetch : List ℕ
  number : ℕ

/-- The cluster and the worker; `lastPush` is the call that `ts_` stands for. -/
structure NoneSystem (S Val : Type) where
  cluster : ClusterState S Val
  worker : PSChunkNoneWorker Val
  lastPush : Option ℕ
  pending : Option PendingPull

/-- What the schedule decides. -/
inductive NoneInput (Val : Type) where
  | other (v : ℕ) (call : Call Val)
  | deliver (i v : ℕ)
  | pull (r : Read)
  | arrive (order : List ℕ)
  | push (keys : List ℕ) (vals : List Val)
  | pushChunks (ids : List ℕ) (chunks : List (List Val))

/-- The chunk that was written last behind the pointer of a chunk id. -/
def chunkAt (ids : List ℕ) (chunks : List (List Val)) (c : ℕ) : List Val :=
  ((ids.zip chunks).reverse.lookup c).getD []

section Step

variable [StorageT S Val] [AddCommMonoid Val] (C : Cluster S Val) (w : ℕ)

/-- Before anything happens. -/
def NoneSystem.init : NoneSystem S Val := ⟨C.init, .new, none, none⟩

/-- A pull once its chunks are known. -/
def NoneSystem.fetch (s : NoneSystem S Val) (worker : PSChunkNoneWorker Val) (r : Read)
    (ids toFetch : List ℕ) : Option (NoneSystem S Val × List (WorkerEvent Val)) :=
  if toFetch = [] then do
    let events ← worker.endPull C.t r ids
    some ({ s with worker }, events)
  else do
    let cluster ← C.send s.cluster w
      (.pullChunksWithMinClock toFetch (toFetch.map worker.model.params))
    let number := (s.cluster.calls w).length
    some ({ s with cluster, worker, pending := some ⟨r, ids, toFetch, number⟩ }, [])

/-- One step.  A pull counts up an `int`. -/
def noneStep (s : NoneSystem S Val) :
    NoneInput Val → Option (NoneSystem S Val × List (WorkerEvent Val))
  | .other v call =>
      if v = w then none
      else do
        let cluster ← C.send s.cluster v call
        some ({ s with cluster }, [])
  | .deliver i v => do
      let cluster ← C.deliver s.cluster i v
      some ({ s with cluster }, [])
  | .pull r =>
      if s.pending.isNone ∧ s.lastPush.all (C.returns s.cluster w) ∧
          s.worker.pullCount + 1 < 2 ^ 31 then do
        let (worker, ids, toFetch) ← s.worker.beginPull C.t C.staleness r
        s.fetch C w worker r ids toFetch
      else none
  | .arrive order => do
      let p ← s.pending
      let (chunks, clock) ← C.fetched s.cluster w p.number order
      let model := s.worker.model.fetchChunk p.toFetch (chunkAt p.toFetch chunks) clock
      let worker := { s.worker with model }
      let events ← worker.endPull C.t p.read p.ids
      some ({ s with worker, pending := none }, events)
  | .push keys vals =>
      if s.pending.isNone then do
        let (worker, _) ← s.worker.push C.t keys vals
        let cluster ← C.send s.cluster w (.push keys vals)
        some ({ s with cluster, worker, lastPush := some (s.cluster.calls w).length }, [.pushed])
      else none
  | .pushChunks ids chunks =>
      if s.pending.isNone then do
        let worker ← s.worker.pushChunks ids chunks
        let cluster ← C.send s.cluster w (.pushChunks ids chunks)
        some ({ s with cluster, worker, lastPush := some (s.cluster.calls w).length }, [.pushed])
      else none

variable {C w} in
/-- Sorted keys and chunk ids, in range, and no pull that names the last chunk twice. -/
def NoneInput.Valid (t : RangeTable) : NoneInput Val → Prop
  | other _ call => call.Sorted t
  | pull r => r.Valid t
  | push keys vals => (Call.push keys vals).Sorted t
  | pushChunks ids chunks => (Call.pushChunks ids chunks).Sorted t
  | _ => True

instance (t : RangeTable) (i : NoneInput Val) : Decidable (i.Valid t) := by
  cases i <;> unfold NoneInput.Valid <;> infer_instance

end Step

/-! ## The chunks to fetch -/

namespace ChunkBasedModelWithClocks

variable {stalest : ℤ} {chunkClocks : ℕ → ℤ}

/-- The chunks to fetch are in the order of the pull. -/
theorem chunksToFetch_sublist (isCached : ℕ → Bool) (ids : List ℕ) :
    (chunksToFetch stalest chunkClocks isCached ids).1.Sublist ids := by
  induction ids generalizing isCached with
  | nil => exact .slnil
  | cons c ids ih =>
      rw [chunksToFetch]
      split
      · exact (ih _).cons_cons c
      · exact (ih _).cons c

/-- What is fetched is marked as cached. -/
theorem chunksToFetch_isCached (isCached : ℕ → Bool) (ids : List ℕ) (c : ℕ) :
    (chunksToFetch stalest chunkClocks isCached ids).2 c = true ↔
      isCached c = true ∨ c ∈ (chunksToFetch stalest chunkClocks isCached ids).1 := by
  induction ids generalizing isCached with
  | nil => simp [chunksToFetch]
  | cons x ids ih =>
      rw [chunksToFetch]
      split
      · simp only [ih, List.mem_cons]
        by_cases hc : c = x
        · simp [hc]
        · simp [hc, Function.update_of_ne]
      · exact ih _

/-- What is not fetched is cached and new enough. -/
theorem chunksToFetch_fresh (isCached : ℕ → Bool) (ids : List ℕ) {c : ℕ} (hc : c ∈ ids) :
    c ∈ (chunksToFetch stalest chunkClocks isCached ids).1 ∨
      (isCached c = true ∧ stalest ≤ chunkClocks c) := by
  induction ids generalizing isCached with
  | nil => cases hc
  | cons x ids ih =>
      by_cases hx : c = x
      · subst hx
        rw [chunksToFetch]
        split
        · exact .inl (List.mem_cons_self ..)
        · next hnot =>
            simp only [not_or, Bool.not_eq_false, not_lt] at hnot
            exact .inr hnot
      · have hmem := (List.mem_cons.mp hc).resolve_left hx
        rw [chunksToFetch]
        split
        · refine (ih (Function.update isCached x true) hmem).imp (List.mem_cons_of_mem x) ?_
          rw [Function.update_of_ne hx]
          exact id
        · exact ih isCached hmem

end ChunkBasedModelWithClocks

/-- What a pull does before the fetch. -/
theorem PSChunkNoneWorker.beginPull_spec {t : RangeTable} {staleness : ℕ}
    {w worker : PSChunkNoneWorker Val} {r : Read} {ids toFetch : List ℕ}
    (h : w.beginPull t staleness r = some (worker, ids, toFetch)) :
    ∃ isCached, worker = { w with
        model := { w.model with isCached }, pullCount := w.pullCount + 1 } ∧
      r.ids t = some ids ∧ toFetch.Sublist ids ∧
      (∀ c, isCached c = true ↔ w.model.isCached c = true ∨ c ∈ toFetch) ∧
      ∀ c ∈ ids, c ∈ toFetch ∨ (w.model.isCached c = true ∧
        (w.model.clock : ℤ) - staleness ≤ w.model.chunkClocks c) := by
  unfold beginPull at h
  split at h
  · cases h
  · obtain ⟨ids', hids, h⟩ := Option.bind_eq_some_iff.mp h
    obtain ⟨rfl, hlists⟩ := Prod.mk.inj (Option.some.inj h)
    obtain ⟨rfl, rfl⟩ := Prod.mk.inj hlists
    exact ⟨_, rfl, hids, ChunkBasedModelWithClocks.chunksToFetch_sublist _ _,
      ChunkBasedModelWithClocks.chunksToFetch_isCached _ _,
      fun c hc => ChunkBasedModelWithClocks.chunksToFetch_fresh _ _ hc⟩

section Push

variable [AddCommMonoid Val] {t : RangeTable} {w worker : PSChunkNoneWorker Val}

/-- What `Push` does to the cached chunks. -/
theorem PSChunkNoneWorker.push_added (hsize : 0 < t.chunkSize) {keys : List ℕ} {vals : List Val}
    {pairs : List (ℕ × Val)} (h : w.push t keys vals = some (worker, pairs)) :
    w.pushCount + 1 = w.pullCount ∧ ∃ params, worker = { w with
        model := { w.model with params, clock := w.model.clock + 1 }
        pushCount := w.pushCount + 1 } ∧ Added t w.model.params params (keys.zip vals) := by
  unfold push ChunkBasedModelWithClocks.push pairUp at h
  split at h
  · cases h
  · next hturn =>
      split at h
      · simp only [Option.bind_eq_bind, Option.bind_some, Option.bind_eq_some_iff] at h
        obtain ⟨model, hmodel, h⟩ := h
        split at hmodel
        · obtain ⟨params, hparams, hmodel⟩ := Option.bind_eq_some_iff.mp hmodel
          obtain rfl := Option.some.inj hmodel
          obtain ⟨rfl, -⟩ := Prod.mk.inj (Option.some.inj h)
          exact ⟨not_not.mp hturn, params, rfl, (incAll_added hsize hparams).2⟩
        · cases hmodel
      · cases h

/-- What `PushChunks` does to the cached chunks. -/
theorem PSChunkNoneWorker.pushChunks_added {ids : List ℕ} {chunks : List (List Val)}
    (hlen : ∀ p ∈ ids.zip chunks, p.2.length ≤ t.chunkSize)
    (h : w.pushChunks ids chunks = some worker) :
    w.pushCount + 1 = w.pullCount ∧ ∃ params, worker = { w with
        model := { w.model with params, clock := w.model.clock + 1 }
        pushCount := w.pushCount + 1 } ∧
      Added t w.model.params params ((ids.zip chunks).flatMap (chunkPairs t.chunkSize)) := by
  unfold pushChunks ChunkBasedModelWithClocks.pushChunks at h
  split at h
  · cases h
  · next hturn =>
      simp only [Option.bind_eq_bind, Option.bind_eq_some_iff] at h
      obtain ⟨model, ⟨params, hparams, hmodel⟩, h⟩ := h
      obtain rfl := Option.some.inj hmodel
      obtain rfl := Option.some.inj h
      exact ⟨not_not.mp (not_or.mp hturn).1, params, rfl, incChunks_added hlen hparams⟩

end Push

theorem chunkAt_map {ids : List ℕ} (vals : ℕ → List Val) {c : ℕ} (hc : c ∈ ids) :
    chunkAt ids (ids.map vals) c = vals c := by
  have hzip : (ids.zip (ids.map vals)).reverse = ids.reverse.map fun x => (x, vals x) := by
    have hmap : (ids.map id).zip (ids.map vals) = ids.map fun x => (x, vals x) := List.zip_map'
    rw [List.map_reverse, ← hmap, List.map_id]
  rw [chunkAt, hzip]
  have hmem : c ∈ ids.reverse := List.mem_reverse.mpr hc
  generalize ids.reverse = xs at hmem
  induction xs with
  | nil => cases hmem
  | cons x xs ih =>
      rw [List.map_cons, List.lookup_cons]
      by_cases hx : c = x
      · simp [hx]
      · rw [beq_eq_false_iff_ne.mpr hx]
        exact ih ((List.mem_cons.mp hmem).resolve_left hx)

/-! ## The invariant -/

section Invariant

variable [StorageT S Val] [AddCommMonoid Val]

/-- A value after `p` pushes of worker `w`: the store at the start and a set of pushes, each once.
The pushes of the worker in it are its `p` pushes, and of every worker it has all that are
numbered below `p - s`. -/
def FreshValue (C : Cluster S Val) (calls : ℕ → List (Call Val)) (w p key : ℕ) (v : Val) : Prop :=
  ∃ A, C.Sent calls A ∧ v = C.held calls A key ∧ (∀ j, (w, j) ∈ A ↔ j < p) ∧
    ∀ u ∈ C.workers, ∀ j, j + C.staleness < p → (u, j) ∈ A

/-- What an event has to show, given what was seen before it: values are fresh, and prepared
chunks are at most the staleness behind the clock of the worker. -/
def FreshEvent (C : Cluster S Val) (calls : ℕ → List (Call Val)) (w : ℕ)
    (before : List (WorkerEvent Val)) (e : WorkerEvent Val) : Prop :=
  e.Reads C.t (FreshValue C calls w (before.countP WorkerEvent.isPush)) ∧
    ∀ clocks clock, e = .prepared clocks clock →
      clock = before.countP WorkerEvent.isPush ∧ ∀ x ∈ clocks, (clock : ℤ) - C.staleness ≤ x.2

theorem FreshEvent.later {C : Cluster S Val} {calls calls' : ℕ → List (Call Val)} {w : ℕ}
    {before : List (WorkerEvent Val)} {e : WorkerEvent Val} (h : FreshEvent C calls w before e)
    (hcalls : ∀ v, calls v <+: calls' v) : FreshEvent C calls' w before e := by
  refine ⟨h.1.imp fun key v ⟨A, hsent, hv, hown, hbelow⟩ => ?_, h.2⟩
  exact ⟨A, hsent.later hcalls, hv.trans (hsent.held_later hcalls key).symm, hown, hbelow⟩

/-- A chunk in the cache of the worker, with everything below its clock. -/
def FreshChunk (C : Cluster S Val) (calls : ℕ → List (Call Val)) (w p c : ℕ) (vals : List Val)
    (clock : ℤ) : Prop :=
  ∃ A, Holds C calls w p c vals A ∧ ∀ v ∈ C.workers, ∀ j : ℕ, (j : ℤ) < clock → (v, j) ∈ A

/-- What is known of a pull that waits. -/
structure PendingPull.Sound (C : Cluster S Val) (w : ℕ) (s : NoneSystem S Val) (p : PendingPull) :
    Prop where
  called : ∃ ptrs, (s.cluster.calls w)[p.number]? = some (.pullChunksWithMinClock p.toFetch ptrs)
  inOrder : C.t.InOrder p.toFetch
  number : pushNo (s.cluster.calls w) p.number = s.worker.pushCount
  marked : ∀ c ∈ p.toFetch, s.worker.model.isCached c = true
  covers : ∀ c ∈ p.ids, c ∈ p.toFetch ∨ (s.worker.model.isCached c = true ∧
    (s.worker.model.clock : ℤ) - C.staleness ≤ s.worker.model.chunkClocks c)
  reads : ∀ c ∈ p.read.reads C.t, c ∈ p.ids

/-- The invariant. -/
structure NoneInv (C : Cluster S Val) (w : ℕ) (out : List (WorkerEvent Val))
    (s : NoneSystem S Val) : Prop where
  cluster : ClusterInv C s.cluster
  pushes_eq : (pushes (s.cluster.calls w)).length = s.worker.pushCount
  clock_eq : s.worker.model.clock = s.worker.pushCount
  seen_eq : out.countP WorkerEvent.isPush = s.worker.pushCount
  counts : s.worker.pushCount ≤ s.worker.pullCount ∧ s.worker.pullCount < 2 ^ 31
  /-- Every cached chunk that is not being fetched. -/
  cached : ∀ c, s.worker.model.isCached c = true → (∀ p ∈ s.pending, c ∉ p.toFetch) →
    FreshChunk C s.cluster.calls w s.worker.pushCount c (s.worker.model.params c)
      (s.worker.model.chunkClocks c)
  pending : ∀ p ∈ s.pending, p.Sound C w s
  fresh : Throughout (FreshEvent C s.cluster.calls w) out

theorem noneInv_init (C : Cluster S Val) (w : ℕ) : NoneInv C w [] (NoneSystem.init C) where
  cluster := clusterInv_init
  pushes_eq := rfl
  clock_eq := rfl
  seen_eq := rfl
  counts := ⟨le_rfl, show 0 < 2 ^ 31 by decide⟩
  cached _ h := absurd h Bool.false_ne_true
  pending _ h := absurd h (by simp [NoneSystem.init])
  fresh := throughout_nil _

section Keep

variable {C : Cluster S Val} {w : ℕ} {out : List (WorkerEvent Val)} {s s' : NoneSystem S Val}

/-- What others do leaves the worker alone. -/
theorem NoneInv.others (h : NoneInv C w out s) {cluster : ClusterState S Val}
    (hcluster : ClusterInv C cluster) (hlater : s.cluster.Later cluster)
    (hsame : cluster.calls w = s.cluster.calls w) : NoneInv C w out { s with cluster } where
  cluster := hcluster
  pushes_eq := by
    rw [← h.pushes_eq]
    exact congrArg (fun calls => (pushes calls).length) hsame
  clock_eq := h.clock_eq
  seen_eq := h.seen_eq
  counts := h.counts
  cached c hc hfetch := by
    obtain ⟨A, hholds, hbelow⟩ := h.cached c hc hfetch
    exact ⟨A, hholds.later hlater.calls, hbelow⟩
  pending p hp := by
    have hsound := h.pending p hp
    refine ⟨?_, hsound.inOrder, ?_, hsound.marked, hsound.covers, hsound.reads⟩
    · simpa only [hsame] using hsound.called
    · simpa only [hsame] using hsound.number
  fresh := h.fresh.imp fun _ _ he => he.later hlater.calls

/-- A pull whose chunks are all there returns fresh values. -/
theorem NoneInv.endPull (h : NoneInv C w out s) (hpending : s.pending = none) {r : Read}
    {ids : List ℕ} {events : List (WorkerEvent Val)}
    (hevents : s.worker.endPull C.t r ids = some events)
    (hids : ∀ c ∈ ids, s.worker.model.isCached c = true ∧
      (s.worker.model.clock : ℤ) - C.staleness ≤ s.worker.model.chunkClocks c)
    (hreads : ∀ c ∈ r.reads C.t, c ∈ ids) : NoneInv C w (out ++ events) s := by
  simp only [PSChunkNoneWorker.endPull, Option.bind_eq_bind, Option.bind_eq_some_iff] at hevents
  obtain ⟨e, he, hevents⟩ := hevents
  obtain rfl := Option.some.inj hevents
  set prepared : WorkerEvent Val := .prepared
    (ids.map fun c => (c, s.worker.model.chunkClocks c)) s.worker.model.clock with hprepared
  have hread : e.Reads C.t (FreshValue C s.cluster.calls w s.worker.pushCount) := by
    refine reads_handOut he fun c hc => ?_
    obtain ⟨hcached, hclock⟩ := hids c (hreads c hc)
    obtain ⟨A, hholds, hbelow⟩ := h.cached c hcached (by simp [hpending])
    refine ⟨_, hholds.vals_eq, fun key => ⟨A, hholds.sent, rfl, hholds.own, fun u hu j hj => ?_⟩⟩
    rw [h.clock_eq] at hclock
    exact hbelow u hu j (by omega)
  have hout : (out ++ [prepared]).countP WorkerEvent.isPush = s.worker.pushCount := by
    rw [List.countP_append, h.seen_eq]
    rfl
  have heither : e.isPush = false ∧ ∀ clocks clock, e ≠ .prepared clocks clock := by
    cases r with
    | keys ks =>
        obtain ⟨vals, -, rfl⟩ := Option.map_eq_some_iff.mp he
        exact ⟨rfl, fun _ _ => by simp⟩
    | chunks ids =>
        obtain rfl := Option.some.inj he
        exact ⟨rfl, fun _ _ => by simp⟩
  refine ⟨h.cluster, h.pushes_eq, h.clock_eq, ?_, h.counts, h.cached, h.pending, ?_⟩
  · rw [← List.singleton_append, ← List.append_assoc, List.countP_append, hout]
    simp [heither.1]
  · rw [← List.singleton_append, ← List.append_assoc, throughout_snoc, throughout_snoc]
    refine ⟨⟨h.fresh, trivial, fun clocks clock heq => ?_⟩, ?_, fun clocks clock heq =>
      absurd heq (heither.2 clocks clock)⟩
    · obtain ⟨rfl, rfl⟩ := WorkerEvent.prepared.inj heq
      refine ⟨h.clock_eq.trans h.seen_eq.symm, fun x hx => ?_⟩
      obtain ⟨c, hc, rfl⟩ := List.mem_map.mp hx
      exact (hids c hc).2
    · rw [hout]
      exact hread

/-- A pull that finds all its chunks. -/
theorem NoneInv.serve (h : NoneInv C w out s) (hpending : s.pending = none)
    (hcount : s.worker.pullCount + 1 < 2 ^ 31) {isCached : ℕ → Bool}
    (hsame : ∀ c, isCached c = true ↔ s.worker.model.isCached c = true) :
    NoneInv C w out { s with
      worker := { s.worker with
        model := { s.worker.model with isCached }, pullCount := s.worker.pullCount + 1 } } where
  cluster := h.cluster
  pushes_eq := h.pushes_eq
  clock_eq := h.clock_eq
  seen_eq := h.seen_eq
  counts := ⟨h.counts.1.trans (Nat.le_succ _), hcount⟩
  cached c hc := h.cached c ((hsame c).mp hc)
  pending := by simp [hpending]
  fresh := h.fresh

/-- A pull that asks for chunks. -/
theorem NoneInv.ask (h : NoneInv C w out s) (hpending : s.pending = none)
    (hcount : s.worker.pullCount + 1 < 2 ^ 31) {isCached : ℕ → Bool} {r : Read}
    {ids toFetch : List ℕ} {ptrs : List (List Val)} {cluster : ClusterState S Val}
    (hsorted : (Call.pullChunksWithMinClock toFetch ptrs).Sorted C.t)
    (horder : C.t.InOrder toFetch)
    (hmarked : ∀ c, isCached c = true ↔ s.worker.model.isCached c = true ∨ c ∈ toFetch)
    (hkept : ∀ c ∈ ids, c ∈ toFetch ∨ (s.worker.model.isCached c = true ∧
      (s.worker.model.clock : ℤ) - C.staleness ≤ s.worker.model.chunkClocks c))
    (hreads : ∀ c ∈ r.reads C.t, c ∈ ids)
    (hsend : C.send s.cluster w (.pullChunksWithMinClock toFetch ptrs) = some cluster) :
    NoneInv C w out { s with
      cluster
      worker := { s.worker with
        model := { s.worker.model with isCached }, pullCount := s.worker.pullCount + 1 }
      pending := some ⟨r, ids, toFetch, (s.cluster.calls w).length⟩ } := by
  have hcluster := clusterInv_send h.cluster hsorted hsend
  have hlater := C.later_send hsend
  obtain ⟨-, rfl⟩ := C.send_eq hsend
  refine ⟨hcluster, ?_, h.clock_eq, h.seen_eq, ⟨h.counts.1.trans (Nat.le_succ _), hcount⟩,
    fun c hc hfetch => ?_, ?_, h.fresh.imp fun _ _ he => he.later hlater.calls⟩
  · simp only [Function.update_self]
    rw [← h.pushes_eq]
    simp [pushes, Call.isPush]
  · have hnot : c ∉ toFetch := hfetch _ rfl
    have hcached := ((hmarked c).mp hc).resolve_right hnot
    obtain ⟨A, hholds, hbelow⟩ := h.cached c hcached (by simp [hpending])
    exact ⟨A, hholds.later hlater.calls, hbelow⟩
  · intro p hp
    obtain rfl := Option.some.inj hp
    refine ⟨⟨ptrs, ?_⟩, horder, ?_, fun c hc => (hmarked c).mpr (.inr hc), fun c hc => ?_, hreads⟩
    · simp
    · have hnumber : pushNo (s.cluster.calls w ++ [Call.pullChunksWithMinClock toFetch ptrs])
          (s.cluster.calls w).length = s.worker.pushCount := by
        rw [pushNo_extend (List.prefix_append _ _) le_rfl, pushNo_length, h.pushes_eq]
      simpa only [Function.update_self] using hnumber
    · exact (hkept c hc).imp_right fun hc => ⟨(hmarked c).mpr (.inl hc.1), hc.2⟩

/-- A pull begins. -/
theorem NoneInv.pull (h : NoneInv C w out s) {r : Read} (hr : r.Valid C.t)
    {o : List (WorkerEvent Val)} (hstep : noneStep C w s (.pull r) = some (s', o)) :
    NoneInv C w (out ++ o) s' := by
  simp only [noneStep] at hstep
  split at hstep
  · next hguard =>
      obtain ⟨hpending, -, hcount⟩ := hguard
      rw [Option.isNone_iff_eq_none] at hpending
      obtain ⟨⟨worker, ids, toFetch⟩, hbegin, hfetch⟩ := Option.bind_eq_some_iff.mp hstep
      obtain ⟨isCached, rfl, hids, hsub, hmarked, hkept⟩ :=
        PSChunkNoneWorker.beginPull_spec hbegin
      obtain ⟨ids', hids', horder, hlt, hreads⟩ := hr.ids C.partitioned
      obtain rfl := Option.some.inj (hids'.symm.trans hids)
      unfold NoneSystem.fetch at hfetch
      split at hfetch
      · next hnil =>
          obtain ⟨events, hevents, hfetch⟩ := Option.bind_eq_some_iff.mp hfetch
          obtain ⟨rfl, rfl⟩ := Prod.mk.inj (Option.some.inj hfetch)
          have hnil : toFetch = [] := hnil
          subst hnil
          have hsame : ∀ c, isCached c = true ↔ s.worker.model.isCached c = true := by
            simpa using hmarked
          refine (h.serve hpending hcount hsame).endPull hpending hevents (fun c hc => ?_) hreads
          obtain ⟨hcached, hclock⟩ := (hkept c hc).resolve_left List.not_mem_nil
          exact ⟨(hsame c).mpr hcached, hclock⟩
      · obtain ⟨cluster, hsend, hfetch⟩ := Option.bind_eq_some_iff.mp hfetch
        obtain ⟨rfl, rfl⟩ := Prod.mk.inj (Option.some.inj hfetch)
        rw [List.append_nil]
        refine h.ask hpending hcount ⟨?_, ?_, by simp⟩ (horder.sublist hsub) hmarked hkept hreads
          hsend
        · exact (horder.imp And.left).sublist hsub
        · exact fun c hc => hlt c (hsub.subset hc)
  · cases hstep

/-- The chunks of a pull arrive. -/
theorem NoneInv.arrive (h : NoneInv C w out s) {order : List ℕ} {o : List (WorkerEvent Val)}
    (hstep : noneStep C w s (.arrive order) = some (s', o)) : NoneInv C w (out ++ o) s' := by
  simp only [noneStep, Option.bind_eq_bind, Option.bind_eq_some_iff] at hstep
  obtain ⟨p, hp, ⟨chunks, clock⟩, hfetched, events, hevents, hstep⟩ := hstep
  obtain ⟨rfl, rfl⟩ := Prod.mk.inj (Option.some.inj hstep)
  have hsound := h.pending p hp
  obtain ⟨ptrs, hcall⟩ := hsound.called
  obtain ⟨⟨vals, rfl, hcopies⟩, hle⟩ := h.cluster.fetched hcall hsound.inOrder hfetched
  have hclock : (s.worker.pushCount : ℤ) - C.staleness ≤ clock := by
    have hcounts := h.counts
    refine hle _ (by omega) fun i hi r hr hkey => ?_
    have hreply := h.cluster.minClock_reply hi hcall hr hkey
    rw [hsound.number] at hreply
    omega
  set answer := chunkAt p.toFetch (p.toFetch.map vals) with hanswer
  refine NoneInv.endPull (s := { s with
      worker := { s.worker with model := s.worker.model.fetchChunk p.toFetch answer clock }
      pending := none })
    ⟨h.cluster, h.pushes_eq, h.clock_eq, h.seen_eq, h.counts, fun c hc _ => ?_, by simp, h.fresh⟩
    rfl hevents (fun c hc => ?_) hsound.reads
  · simp only [ChunkBasedModelWithClocks.fetchChunk]
    split
    · next hmem =>
        -- the pushes of the worker that the server had are those it sent before the fetch
        obtain ⟨A, hcopy⟩ := hcopies c hmem
        rw [hanswer, chunkAt_map vals hmem]
        refine ⟨A, ⟨hcopy.vals_eq, hcopy.sent, fun j => ⟨fun hj => ?_, fun hj => ?_⟩⟩, hcopy.below⟩
        · rw [← h.pushes_eq]
          exact (hcopy.sent _ hj).2
        · rw [← hsound.number] at hj
          exact hcopy.own j hj
    · next hout =>
        refine h.cached c hc fun p' hp' => ?_
        obtain rfl := Option.some.inj (hp'.symm.trans hp)
        exact hout
  · simp only [ChunkBasedModelWithClocks.fetchChunk]
    rcases hsound.covers c hc with hmem | ⟨hcached, hfresh⟩
    · rw [if_pos hmem, h.clock_eq]
      exact ⟨hsound.marked c hmem, hclock⟩
    · refine ⟨hcached, ?_⟩
      split
      · rw [h.clock_eq]
        exact hclock
      · exact hfresh

/-- The worker pushes. -/
theorem NoneInv.pushed (h : NoneInv C w out s) (hpending : s.pending = none)
    (hturn : s.worker.pushCount + 1 = s.worker.pullCount) {call : Call Val}
    (hcall : call.Sorted C.t) (hpush : call.isPush = true) {params : ℕ → List Val}
    (hadded : Added C.t s.worker.model.params params (call.entries C.t))
    {cluster : ClusterState S Val} (hsend : C.send s.cluster w call = some cluster)
    (lastPush : Option ℕ) :
    NoneInv C w (out ++ [.pushed]) { s with
      cluster, lastPush
      worker := { s.worker with
        model := { s.worker.model with params, clock := s.worker.model.clock + 1 }
        pushCount := s.worker.pushCount + 1 } } := by
  have hcluster := clusterInv_send h.cluster hcall hsend
  have hlater := C.later_send hsend
  obtain ⟨hw, rfl⟩ := C.send_eq hsend
  refine ⟨hcluster, ?_, ?_, ?_, ⟨hturn.le, h.counts.2⟩, fun c hc hfetch => ?_, ?_, ?_⟩
  · simp only [Function.update_self]
    simp [pushes, hpush, ← h.pushes_eq]
  · rw [h.clock_eq]
  · rw [List.countP_append, h.seen_eq]
    rfl
  · obtain ⟨A, hholds, hbelow⟩ := h.cached c hc (by simp [hpending])
    exact ⟨_, hholds.push hw h.pushes_eq hpush hadded, fun v hv j hj =>
      Finset.mem_insert_of_mem (hbelow v hv j hj)⟩
  · simp [hpending]
  · rw [throughout_snoc]
    exact ⟨h.fresh.imp fun _ _ he => he.later hlater.calls, trivial, fun _ _ heq => by cases heq⟩

/-- **Every step keeps the invariant.** -/
theorem noneInv_step (h : NoneInv C w out s) {i : NoneInput Val} (hi : i.Valid C.t)
    {o : List (WorkerEvent Val)} (hstep : noneStep C w s i = some (s', o)) :
    NoneInv C w (out ++ o) s' := by
  cases i with
  | other v call =>
      simp only [noneStep] at hstep
      split at hstep
      · cases hstep
      · next hne =>
          obtain ⟨cluster, hsend, hstep⟩ := Option.bind_eq_some_iff.mp hstep
          obtain ⟨rfl, rfl⟩ := Prod.mk.inj (Option.some.inj hstep)
          rw [List.append_nil]
          refine h.others (clusterInv_send h.cluster hi hsend) (C.later_send hsend) ?_
          obtain ⟨-, rfl⟩ := C.send_eq hsend
          exact Function.update_of_ne (Ne.symm hne) _ _
  | deliver i v =>
      obtain ⟨cluster, hdeliver, hstep⟩ := Option.bind_eq_some_iff.mp hstep
      obtain ⟨rfl, rfl⟩ := Prod.mk.inj (Option.some.inj hstep)
      rw [List.append_nil]
      refine h.others (clusterInv_deliver h.cluster hdeliver) (C.later_deliver hdeliver) ?_
      obtain ⟨-, -, r, srv, new, -, -, rfl⟩ := C.deliver_eq hdeliver
      rfl
  | pull r => exact h.pull hi hstep
  | arrive order => exact h.arrive hstep
  | push keys vals =>
      simp only [noneStep] at hstep
      split at hstep
      · next hpending =>
          obtain ⟨⟨worker, pairs⟩, hpush, hstep⟩ := Option.bind_eq_some_iff.mp hstep
          obtain ⟨cluster, hsend, hstep⟩ := Option.bind_eq_some_iff.mp hstep
          obtain ⟨rfl, rfl⟩ := Prod.mk.inj (Option.some.inj hstep)
          obtain ⟨hturn, params, rfl, hadded⟩ := PSChunkNoneWorker.push_added
            C.partitioned.chunkSize_pos hpush
          have hcall : (Call.push keys vals).Sorted C.t := hi
          exact h.pushed (Option.isNone_iff_eq_none.mp hpending) hturn hcall rfl hadded hsend _
      · cases hstep
  | pushChunks ids chunks =>
      simp only [noneStep] at hstep
      split at hstep
      · next hpending =>
          obtain ⟨worker, hpush, hstep⟩ := Option.bind_eq_some_iff.mp hstep
          obtain ⟨cluster, hsend, hstep⟩ := Option.bind_eq_some_iff.mp hstep
          obtain ⟨rfl, rfl⟩ := Prod.mk.inj (Option.some.inj hstep)
          have hcall : (Call.pushChunks ids chunks).Sorted C.t := hi
          have hlen : ∀ p ∈ ids.zip chunks, p.2.length ≤ C.t.chunkSize := fun p hp =>
            (hcall.2.2.2 p hp).trans_le (realChunkSize_le C.partitioned.chunkSize_pos p.1)
          obtain ⟨hturn, params, rfl, hadded⟩ := PSChunkNoneWorker.pushChunks_added hlen hpush
          exact h.pushed (Option.isNone_iff_eq_none.mp hpending) hturn hcall rfl hadded hsend _
      · cases hstep

end Keep

/-- **`PSChunkNoneWorker` reads are fresh and include own writes.**  In every run in which no pull
names the last chunk twice, whatever the other workers call and in whatever order messages are
delivered: every value returned after `p` pushes of the worker is the store at the start plus a set
of pushes, each once, that has exactly the `p` pushes of the worker and every push numbered below
`p - s` of everybody; and after `PrepareChunks` every requested chunk has a clock of at least
`clock_ - staleness_`. -/
theorem chunkNone_fresh (C : Cluster S Val) (w : ℕ) {is : List (NoneInput Val)}
    {s : NoneSystem S Val} {out : List (WorkerEvent Val)} (hvalid : ∀ i ∈ is, i.Valid C.t)
    (hrun : run (noneStep C w) (.init C) is = some (s, out)) :
    Throughout (FreshEvent C s.cluster.calls w) out := by
  have hinv := run_along (I := NoneInv C w) ?_ (noneInv_init C w) (along_of_forall hvalid [] _) hrun
  · rw [List.nil_append] at hinv
    exact hinv.fresh
  · exact fun hI hi hstep => noneInv_step hI hi hstep

end Invariant

/-- The worker pulls a key of each server, pushes to both, and pulls again; the other worker
pushes in between. -/
def twoPulls : List (NoneInput ℤ) :=
  [.deliver 0 0, .deliver 0 1, .deliver 1 0, .deliver 1 1, .other 1 (.push [0] [3]),
    .pull (.keys [0, 3]), .deliver 0 0, .deliver 0 1, .deliver 1 0, .arrive [1, 0],
    .push [0, 3] [5, 7], .deliver 1 0, .deliver 0 0, .pull (.keys [0, 3])]

theorem chunkNone_fresh_twoPulls : ∃ s,
    run (noneStep (pairCluster 1) 0) (.init (pairCluster 1)) twoPulls = some (s,
      [.prepared [(0, 0), (1, 0)] 0, .pulled [0, 3] [0, 0], .pushed,
        .prepared [(0, 0), (1, 0)] 1, .pulled [0, 3] [5, 7]]) ∧
    FreshValue (pairCluster 1) s.cluster.calls 0 1 3 7 := by
  have hrun : run (noneStep (pairCluster 1) 0) (.init (pairCluster 1)) twoPulls = some (_,
      [.prepared [(0, 0), (1, 0)] 0, .pulled [0, 3] [0, 0], .pushed,
        .prepared [(0, 0), (1, 0)] 1, .pulled [0, 3] [5, 7]]) := rfl
  have hvalid : ∀ i ∈ twoPulls, i.Valid (pairCluster 1).t := by decide
  refine ⟨_, hrun, ?_⟩
  have hlast := chunkNone_fresh (pairCluster 1) 0 hvalid hrun
    [.prepared [(0, 0), (1, 0)] 0, .pulled [0, 3] [0, 0], .pushed, .prepared [(0, 0), (1, 0)] 1]
    (.pulled [0, 3] [5, 7]) [] rfl
  -- the second of the two values
  have hreads := hlast.1
  exact (List.forall₂_cons.mp (List.forall₂_cons.mp hreads).2).1

/-- One worker and one server with a chunk of three keys and one of two. -/
def soloCluster : Cluster (MapStore ℤ) ℤ where
  t := setMaxKeyAndChunkSize 1 5 3
  numServers := 1
  partitioned := partitioned_set (by omega) (by omega) (by omega) (by omega) (by omega) (by omega)
  isVector := false
  view i := mapView ℤ _ i
  owned i _ k _ hk := by
    have hmax : k < (setMaxKeyAndChunkSize 1 5 3).maxKey := hk.trans_le (Nat.min_le_right _ _)
    exact hmax.trans (by decide)
  workers := {0}
  workers_nonempty := Finset.singleton_nonempty 0
  staleness := 0
  kvId := 0
  firstTs _ := 0
  flags := (pairCluster 0).flags
  sendAll := (pairCluster 0).sendAll
  controlled := (pairCluster 0).controlled
  start i := .new i 1 ⟨fun _ => none⟩ false 0
  start_serverId _ := rfl
  start_isVector _ := rfl
  start_staleness _ := rfl
  start_initCount _ := rfl
  start_good _ := trivial

/-- The worker pulls the last chunk, pushes to both of its keys, and asks for it twice in one
`PullChunks`. -/
def lastTwice : List (NoneInput ℤ) :=
  [.deliver 0 0, .pull (.chunks [1]), .deliver 0 0, .arrive [0], .push [3, 4] [5, 7],
    .deliver 0 0, .pull (.chunks [1, 1]), .deliver 0 0, .arrive [0]]

/-- A chunk that is not the last one takes its place in the reply, the last one takes the rest of
it: the second of two copies of a short last chunk is cut in the middle.  What is left in the cache
is the value of the last key. -/
theorem chunkNone_fresh_fails : ∃ s out,
    run (noneStep soloCluster 0) (.init soloCluster) lastTwice = some (s, out) ∧
      out = [.prepared [(1, 0)] 0, .pulledChunks [1] [[0, 0]], .pushed,
        .prepared [(1, 1), (1, 1)] 1, .pulledChunks [1, 1] [[7], [7]]] ∧
      ¬ Throughout (FreshEvent soloCluster s.cluster.calls 0) out := by
  refine ⟨_, _, rfl, rfl, fun hfresh => ?_⟩
  have hlast := hfresh
    [.prepared [(1, 0)] 0, .pulledChunks [1] [[0, 0]], .pushed, .prepared [(1, 1), (1, 1)] 1]
    (.pulledChunks [1, 1] [[7], [7]]) [] rfl
  -- one value for two keys
  have hlength := (List.forall₂_cons.mp hlast.1).1.length_eq
  exact absurd hlength (by decide)

end FlexPS.ML
