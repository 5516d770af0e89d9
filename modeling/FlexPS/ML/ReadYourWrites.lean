import FlexPS.ML.ChunkChunkSystem

/-!
# The own pushes of a worker

A `PSChunkChunkWorker` adds what it pushes to its chunks, and a pull may write chunks of the process
cache over them.  What is in the process cache may have been fetched, by another thread, before the
worker pushed; the refreshed chunk then lacks pushes that the old one had.

## Main definitions

* `OwnEvent` — what is returned contains every push of the worker, once.
* `FetchedSince`, `CopiesSince` — what is copied out was fetched since the worker pushed.
* `OwnInv` — the invariant.
* `reads_own_pushes` — the own pushes are read as long as that is so.
* `reads_own_pushes_lost` — a run in which it is not.
-/

namespace FlexPS.ML

open KVStore Lib ModelWithCM

variable {S Val : Type}

/-! ## What is promised -/

section Promise

variable [StorageT S Val] [AddCommMonoid Val]

/-- A value of worker `w` after `p` pushes: the store at the start and a set of pushes, each once,
and those of the worker in it are its `p` pushes. -/
def OwnValue (C : Cluster S Val) (calls : ℕ → List (Call Val)) (w p key : ℕ) (v : Val) : Prop :=
  ∃ A, C.Sent calls A ∧ v = C.held calls A key ∧ ∀ j, (w, j) ∈ A ↔ j < p

/-- What a pull returns contains the pushes that its worker has made before. -/
def OwnEvent (C : Cluster S Val) (calls : ℕ → List (Call Val))
    (before : List (ℕ × WorkerEvent Val)) (e : ℕ × WorkerEvent Val) : Prop :=
  e.2.Reads C.t (OwnValue C calls e.1 (pushed before e.1))

theorem OwnEvent.later {C : Cluster S Val} {calls calls' : ℕ → List (Call Val)}
    {before : List (ℕ × WorkerEvent Val)} {e : ℕ × WorkerEvent Val}
    (h : OwnEvent C calls before e) (hcalls : ∀ v, calls v <+: calls' v) :
    OwnEvent C calls' before e :=
  h.imp fun key _ ⟨A, hsent, hv, hown⟩ =>
    ⟨A, hsent.later hcalls, hv.trans (hsent.held_later hcalls key).symm, hown⟩

end Promise

/-! ## Where chunks come from -/

/-- The call writes to the chunk. -/
def WritesTo (t : RangeTable) (call : Call Val) (c : ℕ) : Prop :=
  ∃ e ∈ call.entries t, e.1 / t.chunkSize = c

instance (t : RangeTable) (call : Call Val) (c : ℕ) : Decidable (WritesTo t call c) :=
  inferInstanceAs (Decidable (∃ e ∈ call.entries t, e.1 / t.chunkSize = c))

/-- A push that does not write to a chunk adds nothing to its keys. -/
theorem contribution_eq_zero [AddCommMonoid Val] {t : RangeTable} {n : ℕ} (ht : t.Partitioned n)
    {calls : ℕ → List (Call Val)} {x : ℕ × ℕ} {push : Call Val} {c key : ℕ}
    (hx : (pushes (calls x.1))[x.2]? = some push) (hout : ¬ WritesTo t push c)
    (hkey : key ∈ chunkKeys t c) : contribution t calls x key = 0 := by
  rw [contribution, hx, Option.map_some, Option.getD_some]
  refine written_of_notMem fun hmem => hout ?_
  obtain ⟨e, he, rfl⟩ := List.mem_map.mp hmem
  exact ⟨e, he, chunk_of_mem ht hkey⟩

section Fetched

variable [StorageT S Val] (C : Cluster S Val)

/-- The chunk, with its clock, came from a fetch, of chunks in order, that the server of the chunk
answered after the pushes of worker `w` to the chunk. -/
def FetchedSince (s : ClusterState S Val) (w c : ℕ) (vals : List Val) (clock : ℤ) : Prop :=
  ∃ v ∈ C.workers, ∃ k < (s.calls v).length, ∃ call ∈ (s.calls v)[k]?, ∃ ids ∈ call.fetches,
    C.t.InOrder ids ∧
    (∃ r ∈ C.fetched s v k (call.asked C.t C.numServers), r.2 = clock ∧ (c, vals) ∈ ids.zip r.1) ∧
    ∀ j < (s.calls w).length, ∀ push ∈ (s.calls w)[j]?, push.isPush = true → WritesTo C.t push c →
      C.AnsweredBefore s (C.serverOf c) (w, j) (v, k)

instance [DecidableEq Val] (s : ClusterState S Val) (w c : ℕ) (vals : List Val) (clock : ℤ) :
    Decidable (FetchedSince C s w c vals clock) := by
  unfold FetchedSince
  infer_instance

/-- What a thread has copied that is about to return from the process cache. -/
def CachePhase.copied : CachePhase Val → List (ℕ × List Val × ℤ)
  | copying _ [] copies => copies
  | _ => []

/-- A thread that is about to return from the process cache has copied chunks that were fetched
since it pushed to them. -/
def CopiesSince (s : ChunkChunkSystem S Val) : ChunkChunkInput Val → Prop
  | .background (.proceed t) => ∀ x ∈ (s.process.cache.threads t).copied,
      FetchedSince C s.process.cluster t x.1 x.2.1 x.2.2
  | _ => True

instance [DecidableEq Val] (s : ChunkChunkSystem S Val) :
    ∀ i : ChunkChunkInput Val, Decidable (CopiesSince C s i)
  | .background (.proceed t) => inferInstanceAs (Decidable
      (∀ x ∈ (s.process.cache.threads t).copied, FetchedSince C s.process.cluster t x.1 x.2.1 x.2.2))
  | .background (.send _ _) | .background (.deliver _ _) | .background (.call _ _)
  | .background (.wake _) | .background (.fetch _) | .background (.arrive _ _) => .isTrue trivial
  | .other _ _ | .pull _ _ | .push _ _ _ | .pushChunks _ _ _ => .isTrue trivial

variable [AddCommMonoid Val] {C} {s : ClusterState S Val} {w c : ℕ} {vals : List Val} {clock : ℤ}

/-- **A chunk that was fetched since the worker pushed** holds all its pushes. -/
theorem FetchedSince.holds (h : FetchedSince C s w c vals clock) (hs : ClusterInv C s)
    (hw : pushes (s.calls w) ≠ [] → w ∈ C.workers) :
    ∃ A, Holds C s.calls w (pushes (s.calls w)).length c vals A := by
  obtain ⟨v, -, k, -, call, hcall, ids, hids, horder, ⟨⟨chunks, clock'⟩, hfetched, rfl, hmem⟩,
    hsince⟩ := h
  obtain ⟨ptrs, rfl⟩ : ∃ ptrs, call = .pullChunksWithMinClock ids ptrs := by
    cases call with
    | pullChunksWithMinClock ids' ptrs => exact ⟨ptrs, by rw [Option.some.inj hids]⟩
    | _ => cases hids
  obtain ⟨⟨f, hchunks, hcopies⟩, -⟩ := hs.fetched hcall horder hfetched
  have hc : c ∈ ids ∧ f c = vals := by
    rw [hchunks, ← List.map_prod_left_eq_zip, List.mem_map] at hmem
    obtain ⟨id, hid, heq⟩ := hmem
    obtain ⟨rfl, rfl⟩ := Prod.mk.inj heq
    exact ⟨hid, rfl⟩
  obtain ⟨hid, rfl⟩ := hc
  obtain ⟨A, hcopy⟩ := hcopies c hid
  -- the pushes of the worker that are missing do not write to the chunk
  set own := (Finset.range (pushes (s.calls w)).length).image fun j => (w, j) with hown
  have hmem : ∀ j, (w, j) ∈ own ↔ j < (pushes (s.calls w)).length := by
    intro j
    simp [hown]
  have hzero : ∀ key ∈ chunkKeys C.t c, ∀ x ∈ A ∪ own, x ∉ A → contribution C.t s.calls x key = 0 := by
    intro key hkey x hx hout
    obtain ⟨j, hj, rfl⟩ := Finset.mem_image.mp ((Finset.mem_union.mp hx).resolve_left hout)
    obtain ⟨k', push, hpush, hisPush, rfl⟩ := exists_pushNo (Finset.mem_range.mp hj)
    refine contribution_eq_zero C.partitioned (pushes_getElem? hpush hisPush) (fun hwrites => hout ?_) hkey
    exact hcopy.acked w k' push hpush hisPush
      (hsince k' (List.getElem?_eq_some_iff.mp hpush).1 push hpush hisPush hwrites)
  refine ⟨A ∪ own, ?_, fun x hx => ?_, fun j => ⟨fun hj => ?_, fun hj => ?_⟩⟩
  · rw [hcopy.vals_eq]
    refine List.map_congr_left fun key hkey => ?_
    rw [Cluster.held, Cluster.held, Finset.sum_subset Finset.subset_union_left (hzero key hkey)]
  · rcases Finset.mem_union.mp hx with hx | hx
    · exact hcopy.sent x hx
    · obtain ⟨j, hj, rfl⟩ := Finset.mem_image.mp hx
      have hj := Finset.mem_range.mp hj
      exact ⟨hw (List.ne_nil_of_length_pos (by omega)), hj⟩
  · rcases Finset.mem_union.mp hj with hj | hj
    · exact (hcopy.sent _ hj).2
    · exact (hmem j).mp hj
  · exact Finset.mem_union_right _ ((hmem j).mpr hj)

end Fetched

/-! ## The invariant -/

section Invariant

variable [StorageT S Val] [AddCommMonoid Val]

/-- Every chunk of a worker holds its pushes, and what was returned did. -/
structure OwnInv (C : Cluster S Val) (threads : Finset ℕ) (out : List (ℕ × WorkerEvent Val))
    (s : ChunkChunkSystem S Val) : Prop where
  senders : ∀ v, pushes (s.process.cluster.calls v) ≠ [] → v ∈ C.workers
  chunks : ∀ t ∈ threads, ∀ c, 0 ≤ (s.workers t).chunkClocks c → ∃ A,
    Holds C s.process.cluster.calls t (s.workers t).pushCount c ((s.workers t).params c) A
  events : Throughout (OwnEvent C s.process.cluster.calls) out

theorem ownInv_init (C : Cluster S Val) (threads : Finset ℕ) :
    OwnInv C threads [] (ChunkChunkSystem.init C) where
  senders _ h := absurd rfl h
  chunks _ _ _ h := absurd (show (0 : ℤ) ≤ -1 from h) (by decide)
  events := throughout_nil _

variable {C : Cluster S Val} {threads : Finset ℕ} {out o : List (ℕ × WorkerEvent Val)}
  {s s' : ChunkChunkSystem S Val}

/-- The process goes on. -/
theorem OwnInv.process_later (h : OwnInv C threads out s) {process : ProcessState S Val}
    {pending : ℕ → Option CachePull} (hlater : s.process.cluster.Later process.cluster)
    (hsenders : ∀ v, pushes (process.cluster.calls v) ≠ [] → v ∈ C.workers) :
    OwnInv C threads out { s with process, pending } where
  senders := hsenders
  chunks t ht c hc := by
    obtain ⟨A, hholds⟩ := h.chunks t ht c hc
    exact ⟨A, hholds.later hlater.calls⟩
  events := h.events.imp fun _ _ he => he.later hlater.calls

/-- A worker changes what it holds. -/
theorem OwnInv.worker (h : OwnInv C threads out s) {t : ℕ} {worker : PSChunkChunkWorker Val}
    (hchunks : t ∈ threads → ∀ c, 0 ≤ worker.chunkClocks c → ∃ A,
      Holds C s.process.cluster.calls t worker.pushCount c (worker.params c) A) :
    OwnInv C threads out { s with workers := Function.update s.workers t worker } where
  senders := h.senders
  chunks v hv := by
    by_cases hvt : v = t
    · subst hvt
      simp only [Function.update_self]
      exact hchunks hv
    · simp only [Function.update_of_ne hvt]
      exact h.chunks v hv
  events := h.events

/-- A pull whose chunks are all there returns the pushes of its worker. -/
theorem OwnInv.endPull (h : OwnInv C threads out s) {t : ℕ} (ht : t ∈ threads)
    {worker : PSChunkChunkWorker Val} (hworker : s.workers t = worker)
    (hseen : pushed out t = worker.pushCount) {r : Read} {ids : List ℕ}
    {events : List (WorkerEvent Val)} (hevents : worker.endPull C.t r ids = some events)
    (hclocks : ∀ c ∈ r.reads C.t, 0 ≤ worker.chunkClocks c) :
    OwnInv C threads (out ++ events.map (t, ·)) s := by
  subst hworker
  obtain ⟨e, he, rfl, -⟩ := PSChunkChunkWorker.endPull_spec hevents
  refine ⟨h.senders, h.chunks, ?_⟩
  rw [List.map_cons, List.map_singleton, ← List.singleton_append, ← List.append_assoc,
    throughout_snoc, throughout_snoc]
  refine ⟨⟨h.events, trivial⟩, ?_⟩
  have hpushed (clocks : List (ℕ × ℤ)) (clock : ℕ) :
      pushed (out ++ [(t, (.prepared clocks clock : WorkerEvent Val))]) t =
        (s.workers t).pushCount := by
    rw [pushed_append, hseen]
    simp [pushed, WorkerEvent.isPush]
  rw [OwnEvent, hpushed]
  refine reads_handOut he fun c hc => ?_
  obtain ⟨A, hholds⟩ := h.chunks t ht c (hclocks c hc)
  exact ⟨_, hholds.vals_eq, fun key => ⟨A, hholds.sent, rfl, hholds.own⟩⟩

/-- **The process goes on**: a pull that ends has copied chunks that were fetched since its worker
pushed. -/
theorem OwnInv.background (h : OwnInv C threads out s) (hinv : ChunkChunkInv C threads out s)
    {i : ProcessInput Val} (hi : i.background = true) (hsince : CopiesSince C s (.background i))
    {process : ProcessState S Val} {seen : List (CacheEvent Val)}
    (hstep : processStep C s.process i = some (process, seen))
    (hfinish : ChunkChunkSystem.finish C { s with process } seen = some (s', o)) :
    OwnInv C threads (out ++ o) s' := by
  obtain ⟨before, hprocess⟩ := hinv.process
  have hnow := processInv_step hprocess (ProcessInput.valid_of_background hi)
    (by rintro t c rfl; cases hi) hstep
  have hback := processStep_background hi hstep
  have hsenders : ∀ v, pushes (process.cluster.calls v) ≠ [] → v ∈ C.workers := fun v hv =>
    h.senders v (by rwa [← hback.pushes_eq v])
  cases hinv.continues hback.calls hnow.not_aborted hfinish with
  | goes hcurrent =>
      rw [List.append_nil]
      exact h.process_later hback.later hsenders
  | @ends t p copies events hp _ _ hevents =>
      have hsound := hinv.pending t p hp
      obtain ⟨hchunks, hcopies⟩ := hprocess.handsOut (le_max_left _ _) hstep
      obtain ⟨rfl, -, call, hphase⟩ := processStep_returnsChunks hstep
      have hcopied : ∀ x ∈ copies, x ∈ (s.process.cache.threads t).copied := by
        rw [hphase]
        exact fun x hx => hx
      have hidle : OwnInv C threads out
          { s with process, pending := Function.update s.pending t none } :=
        h.process_later hback.later hsenders
      have hreturned : OwnInv C threads out
          { s with
            process
            workers := Function.update s.workers t ((s.workers t).copyOut copies)
            pending := Function.update s.pending t none } := by
        refine hidle.worker fun ht c hc => ?_
        rw [PSChunkChunkWorker.copyOut_pushCount]
        rcases PSChunkChunkWorker.copyOut_cases (w := s.workers t) copies c with
          ⟨x, hx, rfl, hparams, -⟩ | ⟨-, hparams, hclock⟩
        · obtain ⟨A, hholds⟩ := (hsince x (hcopied x hx)).holds hprocess.cluster
            (h.senders t)
          rw [hinv.pushes_eq t ht] at hholds
          rw [hparams]
          exact ⟨A, hholds.later hback.later.calls⟩
        · rw [hclock] at hc
          rw [hparams]
          obtain ⟨A, hholds⟩ := h.chunks t ht c hc
          exact ⟨A, hholds.later hback.later.calls⟩
      refine hreturned.endPull hsound.mem (Function.update_self ..) ?_ hevents fun c hc => ?_
      · rw [PSChunkChunkWorker.copyOut_pushCount]
        exact hinv.seen_eq t
      · exact (le_max_left _ _).trans (PSChunkChunkWorker.copyOut_fresh hchunks
          (fun x hx => (hcopies x hx).1) (hsound.covers c (hsound.reads c hc)))

/-- A pull begins. -/
theorem OwnInv.ask (h : OwnInv C threads out s) (hinv : ChunkChunkInv C threads out s) {t : ℕ}
    (ht : t ∈ threads) {r : Read} (hr : r.Sorted C.t) {worker : PSChunkChunkWorker Val}
    {ids uncached : List ℕ}
    (hbegin : (s.workers t).beginPull C.t C.staleness r = some (worker, ids, uncached))
    (hask : s.ask C t worker r ids uncached = some (s', o)) : OwnInv C threads (out ++ o) s' := by
  obtain ⟨-, rfl, hids, -, hcovers⟩ := PSChunkChunkWorker.beginPull_spec hbegin
  obtain ⟨ids', hids', -, -, hreads⟩ := hr.ids C.partitioned
  obtain rfl := Option.some.inj (hids'.symm.trans hids)
  have hcount : OwnInv C threads out
      { s with workers := Function.update s.workers t (s.workers t).countPull } :=
    h.worker fun ht => h.chunks t ht
  unfold ChunkChunkSystem.ask at hask
  split at hask
  · next hnil =>
      obtain ⟨events, hevents, hask⟩ := Option.bind_eq_some_iff.mp hask
      obtain ⟨rfl, rfl⟩ := Prod.mk.inj (Option.some.inj hask)
      subst hnil
      refine hcount.endPull ht (Function.update_self ..) (hinv.seen_eq t) hevents fun c hc => ?_
      exact (le_max_left _ _).trans ((hcovers c (hreads c hc)).resolve_left List.not_mem_nil)
  · obtain ⟨⟨process, seen⟩, hstep, hask⟩ := Option.bind_eq_some_iff.mp hask
    obtain ⟨rfl, rfl⟩ := Prod.mk.inj (Option.some.inj hask)
    rw [List.append_nil]
    have hcluster := (processStep_call hstep).1
    exact hcount.process_later (hcluster ▸ .refl _) (by rw [hcluster]; exact h.senders)

/-- A worker pushes. -/
theorem OwnInv.sends (h : OwnInv C threads out s) (hinv : ChunkChunkInv C threads out s) {t : ℕ}
    {params : ℕ → List Val} {call : Call Val} (hpush : call.isPush = true)
    (hadded : Added C.t (s.workers t).params params (call.entries C.t))
    (hsend : s.send C t { s.workers t with params, pushCount := (s.workers t).pushCount + 1 } call =
      some (s', o)) :
    OwnInv C threads (out ++ o) s' := by
  obtain ⟨⟨process, seen⟩, hstep, hpushed⟩ := Option.bind_eq_some_iff.mp hsend
  obtain ⟨rfl, rfl⟩ := Prod.mk.inj (Option.some.inj hpushed)
  clear hsend hpushed
  obtain ⟨-, cluster, hsend, rfl⟩ := processStep_send hstep
  have hlater := C.later_send hsend
  obtain ⟨hw, rfl⟩ := C.send_eq hsend
  refine ⟨fun v hv => ?_, fun v hv c hc => ?_, ?_⟩
  · by_cases hvt : v = t
    · exact hvt ▸ hw
    · simp only [Function.update_of_ne hvt] at hv
      exact h.senders v hv
  · by_cases hvt : v = t
    · subst hvt
      simp only [Function.update_self] at hc ⊢
      obtain ⟨A, hholds⟩ := h.chunks v hv c hc
      exact ⟨_, hholds.push hw (hinv.pushes_eq v hv) hpush hadded⟩
    · simp only [Function.update_of_ne hvt] at hc ⊢
      obtain ⟨A, hholds⟩ := h.chunks v hv c hc
      exact ⟨A, hholds.later hlater.calls⟩
  · rw [throughout_snoc]
    exact ⟨h.events.imp fun _ _ he => he.later hlater.calls, trivial⟩

/-- **Every step keeps the own pushes**, if what it copies was fetched since the thread pushed. -/
theorem ownInv_step (h : OwnInv C threads out s) (hinv : ChunkChunkInv C threads out s)
    {i : ChunkChunkInput Val} (hi : i.Valid C.t) (hsince : CopiesSince C s i)
    (hstep : chunkChunkStep C threads s i = some (s', o)) : OwnInv C threads (out ++ o) s' := by
  cases i with
  | other v call =>
      simp only [chunkChunkStep] at hstep
      split at hstep
      · cases hstep
      · obtain ⟨⟨process, seen⟩, hprocess, hstep⟩ := Option.bind_eq_some_iff.mp hstep
        obtain ⟨rfl, rfl⟩ := Prod.mk.inj (Option.some.inj hstep)
        rw [List.append_nil]
        obtain ⟨-, cluster, hsend, rfl⟩ := processStep_send hprocess
        have hlater := C.later_send hsend
        obtain ⟨hv, rfl⟩ := C.send_eq hsend
        refine h.process_later hlater fun u hu => ?_
        by_cases huv : u = v
        · exact huv ▸ hv
        · simp only [Function.update_of_ne huv] at hu
          exact h.senders u hu
  | background i =>
      simp only [chunkChunkStep] at hstep
      split at hstep
      · next hi =>
          obtain ⟨⟨process, seen⟩, hprocess, hfinish⟩ := Option.bind_eq_some_iff.mp hstep
          exact h.background hinv hi hsince hprocess hfinish
      · cases hstep
  | pull t r =>
      simp only [chunkChunkStep] at hstep
      split at hstep
      · next hguard =>
          obtain ⟨⟨worker, ids, uncached⟩, hbegin, hask⟩ := Option.bind_eq_some_iff.mp hstep
          exact h.ask hinv hguard.1 hi hbegin hask
      · cases hstep
  | push t keys vals =>
      simp only [chunkChunkStep] at hstep
      split at hstep
      · obtain ⟨⟨worker, pairs⟩, hpush, hsend⟩ := Option.bind_eq_some_iff.mp hstep
        obtain ⟨params, rfl, hadded⟩ := PSChunkChunkWorker.push_added C.partitioned.chunkSize_pos hpush
        exact h.sends hinv rfl hadded hsend
      · cases hstep
  | pushChunks t ids chunks =>
      simp only [chunkChunkStep] at hstep
      split at hstep
      · obtain ⟨worker, hpush, hsend⟩ := Option.bind_eq_some_iff.mp hstep
        have hlen : ∀ p ∈ ids.zip chunks, p.2.length ≤ C.t.chunkSize := fun p hp =>
          (hi.2.2.2 p hp).trans_le (realChunkSize_le C.partitioned.chunkSize_pos p.1)
        obtain ⟨params, rfl, hadded⟩ := PSChunkChunkWorker.pushChunks_added hlen hpush
        exact h.sends hinv rfl hadded hsend
      · cases hstep

end Invariant

/-- **Own pushes are read**, in every run in which whatever a thread copies out of the cache of the
process was fetched since the thread pushed to it: every value that a worker gets is the store at
the start plus a set of pushes, each once, that has all pushes of the worker. -/
theorem reads_own_pushes {S Val : Type} [StorageT S Val] [AddCommMonoid Val] (C : Cluster S Val)
    (threads : Finset ℕ) {is : List (ChunkChunkInput Val)} {s : ChunkChunkSystem S Val}
    {out : List (ℕ × WorkerEvent Val)} (hvalid : ∀ i ∈ is, i.Valid C.t)
    (hsince : Along (chunkChunkStep C threads) (fun _ s i => CopiesSince C s i) [] (.init C) is)
    (hrun : run (chunkChunkStep C threads) (.init C) is = some (s, out)) :
    Throughout (OwnEvent C s.process.cluster.calls) out := by
  have hinv := run_along (I := fun out s => ChunkChunkInv C threads out s ∧ OwnInv C threads out s)
    ?_ ⟨chunkChunkInv_init C threads, ownInv_init C threads⟩
    ((along_of_forall hvalid [] _).and hsince) hrun
  · exact hinv.2.events
  · exact fun hI hi hstep => ⟨chunkChunkInv_step hI.1 hi.1 hstep, ownInv_step hI.2 hI.1 hi.1 hi.2 hstep⟩

/-- Worker `t` pulls key 0 and fetches its chunk. -/
def fetchedPull (t : ℕ) : List (ChunkChunkInput ℤ) :=
  .pull t (.keys [0]) :: List.replicate 5 (.background (.proceed t)) ++
    [.background (.fetch t), .background (.deliver 0 t), .background (.arrive t [0])] ++
    List.replicate 4 (.background (.proceed t))

/-- Worker `t` pulls key 0 and finds its chunk in the cache of the process. -/
def copiedPull (t : ℕ) : List (ChunkChunkInput ℤ) :=
  .pull t (.keys [0]) :: List.replicate 4 (.background (.proceed t))

/-- Worker `t` pushes to key 0, and both servers get the push at once. -/
def deliveredPush (t : ℕ) (v : ℤ) : List (ChunkChunkInput ℤ) :=
  [.push t [0] [v], .background (.deliver 0 t), .background (.deliver 1 t)]

/-- Worker 0 has pushed once, and worker 1 twice. -/
def threePushes : List (ChunkChunkInput ℤ) :=
  [.background (.deliver 0 0), .background (.deliver 0 1), .background (.deliver 1 0),
    .background (.deliver 1 1)] ++ fetchedPull 0 ++ deliveredPush 0 1 ++ copiedPull 1 ++
    deliveredPush 1 10 ++ .pull 1 (.keys [0]) :: deliveredPush 1 100

/-- Worker 1 fetches the chunk again; then worker 0 pushes, and its next pull copies the chunk. -/
def pushAfterFetch : List (ChunkChunkInput ℤ) :=
  threePushes ++ fetchedPull 1 ++ .pull 0 (.keys [0]) :: deliveredPush 0 1000 ++ copiedPull 0

/-- The chunk that worker 0 copies was fetched before its push of 1000: what it gets are the pushes
of 1, 10 and 100. -/
theorem reads_own_pushes_lost : ∃ s out,
    run (chunkChunkStep (pairCluster 1) {0, 1}) (.init (pairCluster 1)) pushAfterFetch =
      some (s, out) ∧
    (∀ i ∈ pushAfterFetch, i.Valid (pairCluster 1).t) ∧
    ¬ Throughout (OwnEvent (pairCluster 1) s.process.cluster.calls) out := by
  have hrun : run (chunkChunkStep (pairCluster 1) {0, 1}) (.init (pairCluster 1)) pushAfterFetch =
      some (_, [(0, .prepared [(0, 0)] 0), (0, .pulled [0] [0]), (0, .pushed),
        (1, .prepared [(0, 0)] 0), (1, .pulled [0] [0]), (1, .pushed),
        (1, .prepared [(0, 0)] 1), (1, .pulled [0] [10]), (1, .pushed),
        (1, .prepared [(0, 1)] 2), (1, .pulled [0] [111]),
        (0, .prepared [(0, 0)] 1), (0, .pulled [0] [1]), (0, .pushed),
        (0, .prepared [(0, 1)] 2), (0, .pulled [0] [111])]) := rfl
  refine ⟨_, _, hrun, by decide, fun hown => ?_⟩
  have hlast := hown [_, _, _, _, _, _, _, _, _, _, _, _, _, _, _] (0, .pulled [0] [111]) [] rfl
  obtain ⟨A, hsent, hv, hpushes⟩ := (List.forall₂_cons.mp hlast).1
  generalize hcalls : ClusterState.calls _ = calls at hsent hv
  have h₀ : pushes (calls 0) = [.push [0] [1], .push [0] [1000]] := hcalls ▸ rfl
  have h₁ : pushes (calls 1) = [.push [0] [10], .push [0] [100]] := hcalls ▸ rfl
  clear hrun hown hlast hcalls
  -- no push makes a value smaller, and the last one of worker 0 is in the set
  have hnonneg : ∀ y ∈ A, ∀ push ∈ pushes (calls y.1), ∀ e ∈ push.entries (pairCluster 1).t,
      0 ≤ e.2 := by
    intro y hy
    have hworker : y.1 < 2 := Finset.mem_range.mp (hsent y hy).1
    have hcases : y.1 = 0 ∨ y.1 = 1 := by omega
    rcases hcases with hy | hy <;> rw [hy]
    · rw [h₀]
      decide
    · rw [h₁]
      decide
  have hmem : (0, 1) ∈ A := (hpushes 1).mpr (by decide)
  have hle := Cluster.contribution_le_held (C := pairCluster 1) hmem hnonneg 0
  have hpush : contribution (pairCluster 1).t calls (0, 1) 0 = 1000 := by
    rw [contribution, h₀]
    rfl
  have hbase : (pairCluster 1).base 0 = 0 := rfl
  rw [hpush, hbase, ← hv] at hle
  omega

/-- Worker 0 pushes; then worker 1 fetches the chunk again, and the next pull of worker 0 copies
it. -/
def pushBeforeFetch : List (ChunkChunkInput ℤ) :=
  threePushes ++ .pull 0 (.keys [0]) :: deliveredPush 0 1000 ++ fetchedPull 1 ++ copiedPull 0

theorem reads_own_pushes_kept : ∃ s,
    run (chunkChunkStep (pairCluster 1) {0, 1}) (.init (pairCluster 1)) pushBeforeFetch = some (s,
      [(0, .prepared [(0, 0)] 0), (0, .pulled [0] [0]), (0, .pushed),
        (1, .prepared [(0, 0)] 0), (1, .pulled [0] [0]), (1, .pushed),
        (1, .prepared [(0, 0)] 1), (1, .pulled [0] [10]), (1, .pushed),
        (0, .prepared [(0, 0)] 1), (0, .pulled [0] [1]), (0, .pushed),
        (1, .prepared [(0, 2)] 2), (1, .pulled [0] [1111]),
        (0, .prepared [(0, 2)] 2), (0, .pulled [0] [1111])]) ∧
    OwnValue (pairCluster 1) s.process.cluster.calls 0 2 0 1111 := by
  have hrun : run (chunkChunkStep (pairCluster 1) {0, 1}) (.init (pairCluster 1)) pushBeforeFetch =
      some (_, [(0, .prepared [(0, 0)] 0), (0, .pulled [0] [0]), (0, .pushed),
        (1, .prepared [(0, 0)] 0), (1, .pulled [0] [0]), (1, .pushed),
        (1, .prepared [(0, 0)] 1), (1, .pulled [0] [10]), (1, .pushed),
        (0, .prepared [(0, 0)] 1), (0, .pulled [0] [1]), (0, .pushed),
        (1, .prepared [(0, 2)] 2), (1, .pulled [0] [1111]),
        (0, .prepared [(0, 2)] 2), (0, .pulled [0] [1111])]) := rfl
  have hvalid : ∀ i ∈ pushBeforeFetch, i.Valid (pairCluster 1).t := by decide
  refine ⟨_, hrun, ?_⟩
  have hown := reads_own_pushes (pairCluster 1) {0, 1} hvalid (by decide +kernel) hrun
  have hlast := hown [_, _, _, _, _, _, _, _, _, _, _, _, _, _, _] (0, .pulled [0] [1111]) [] rfl
  exact (List.forall₂_cons.mp hlast).1

end FlexPS.ML
