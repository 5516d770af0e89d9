import FlexPS.ML.ChunkChunkSystem

/-!
# Workers with a push buffer

The `PSNoneChunkWorker`s of a process among the workers of a cluster, as far as they pull and push
chunks.  A push adds to the buffer of the process.  A pull first flushes the buffer: it takes out
what any thread has put in, one chunk after the other, and sends it, even when there is nothing to
send.  Then it asks the cache of the process, where the threads meet in the fetch manager.  The
workers of other processes call what they like, and servers and network do as they like.

## Main definitions

* `PushBuffer`, `PSNoneChunkWorker` — the buffer of the process and the worker.
* `NoneChunkSystem`, `noneChunkStep` — the cluster, the process and its workers.
* `NoneChunkInv` — the invariant.
* `fetches_fresh` — the assertion in the fetch manager never fires, for these workers and for
  `PSChunkChunkWorker`s.
-/

namespace FlexPS.ML

open KVStore Lib ModelWithCM

variable {S Val : Type}

/-! ## The buffer and the workers -/

/-- `PushBuffer`, less the mutexes of its chunks; `holder` has locked `big_mutex_`. -/
structure PushBuffer (Val : Type) where
  params : ℕ → List Val
  holder : Option ℕ

namespace PushBuffer

/-- The constructor. -/
def new : PushBuffer Val := ⟨fun _ => [], none⟩

/-- What an update is added to: an empty chunk is resized first. -/
def resized [Zero Val] (b : PushBuffer Val) (p : ℕ × List Val) : List Val :=
  if (b.params p.1).isEmpty then List.replicate p.2.length 0 else b.params p.1

/-- One round of the loop of `PushChunks`.  A chunk that is longer than what is there would be
written past the end. -/
def add [Zero Val] [Add Val] (b : PushBuffer Val) (p : ℕ × List Val) : Option (PushBuffer Val) :=
  if p.2.length ≤ (b.resized p).length then
    let sum := List.zipWith (· + ·) (b.resized p) p.2 ++ (b.resized p).drop p.2.length
    some { b with params := Function.update b.params p.1 sum }
  else none

/-- One round of the loop of `Flush`: a chunk that is not empty is moved out. -/
def take (b : PushBuffer Val) (i : ℕ) : PushBuffer Val × List (ℕ × List Val) :=
  if (b.params i).isEmpty then (b, [])
  else ({ b with params := Function.update b.params i [] }, [(i, b.params i)])

end PushBuffer

/-- `PSNoneChunkWorker`. -/
structure PSNoneChunkWorker where
  pullCount : ℕ
  pushCount : ℕ

namespace PSNoneChunkWorker

/-- A new worker. -/
def new : PSNoneChunkWorker := ⟨0, 0⟩

/-- `required_clock` once a pull is counted. -/
def requiredClock (staleness : ℕ) (w : PSNoneChunkWorker) : ℤ :=
  max ((w.pullCount : ℤ) - staleness) 0

end PSNoneChunkWorker

/-- Where a worker is in its call. -/
inductive NoneChunkPhase (Val : Type) where
  | idle
  /-- The loop of `PushBuffer::PushChunks`. -/
  | buffering (todo : List (ℕ × List Val))
  /-- `Flush`, before it has locked `big_mutex_`. -/
  | locking (ids : List ℕ)
  /-- The loop of `Flush`, at chunk `next`, with what it has taken out. -/
  | flushing (ids : List ℕ) (next : ℕ) (chunks : List (ℕ × List Val))
  /-- After `Flush`. -/
  | flushed (ids : List ℕ)
  /-- `PullChunksWithMinClock` of the cache of the process. -/
  | pulling (ids : List ℕ)

/-- What is seen of a worker: an update that it puts into the buffer, a chunk that it takes out, what
it sends, and what its pulls return. -/
inductive NoneChunkEvent (Val : Type) where
  | buffered (p : ℕ × List Val)
  | took (c : ℕ)
  | flushed (chunks : List (ℕ × List Val))
  | pulledChunks (ids : List ℕ) (chunks : List (List Val))

/-- The cluster, the process and its workers. -/
structure NoneChunkSystem (S Val : Type) where
  process : ProcessState S Val
  buffer : PushBuffer Val
  workers : ℕ → PSNoneChunkWorker
  phases : ℕ → NoneChunkPhase Val

/-- What the schedule decides. -/
inductive NoneChunkInput (Val : Type) where
  | other (v : ℕ) (call : Call Val)
  | background (i : ProcessInput Val)
  | pullChunks (t : ℕ) (ids : List ℕ)
  | pushChunks (t : ℕ) (ids : List ℕ) (chunks : List (List Val))
  | proceed (t : ℕ)

section Step

variable [StorageT S Val] [AddCommMonoid Val] (C : Cluster S Val) (threads : Finset ℕ)

namespace NoneChunkSystem

/-- Before anything happens. -/
def init : NoneChunkSystem S Val := ⟨.init C, .new, fun _ => .new, fun _ => .idle⟩

/-- Move one worker. -/
def put (s : NoneChunkSystem S Val) (t : ℕ) (phase : NoneChunkPhase Val) : NoneChunkSystem S Val :=
  { s with phases := Function.update s.phases t phase }

/-- The next step of a worker inside its call, up to the call of the cache. -/
def proceed (s : NoneChunkSystem S Val) (t : ℕ) :
    Option (NoneChunkSystem S Val × List (ℕ × NoneChunkEvent Val)) :=
  match s.phases t with
  | .idle | .pulling _ => none
  | .buffering (p :: todo) => do
      let buffer ← s.buffer.add p
      some ({ s with buffer }.put t (.buffering todo), [(t, .buffered p)])
  | .buffering [] => some (s.put t .idle, [])
  | .locking ids =>
      if s.buffer.holder = none then
        some ({ s with buffer := { s.buffer with holder := some t } }.put t (.flushing ids 0 []), [])
      else none
  | .flushing ids next chunks =>
      if next < C.t.chunkNum then
        let (buffer, new) := s.buffer.take next
        some ({ s with buffer }.put t (.flushing ids (next + 1) (chunks ++ new)),
          new.map fun p => (t, .took p.1))
      else do
        let (process, _) ← processStep C s.process
          (.send t (.pushChunks (chunks.map Prod.fst) (chunks.map Prod.snd)))
        let buffer := { s.buffer with holder := none }
        some ({ s with process, buffer }.put t (.flushed ids), [(t, .flushed chunks)])
  | .flushed ids => do
      let (process, _) ← processStep C s.process
        (.call t (.pullChunksWithMinClock ids ((s.workers t).requiredClock C.staleness)))
      some ({ s with process }.put t (.pulling ids), [])

/-- The call of the process cache returns, and with it the pull. -/
def finish (s : NoneChunkSystem S Val) :
    List (CacheEvent Val) → Option (NoneChunkSystem S Val × List (ℕ × NoneChunkEvent Val))
  | [.returnedChunks t ids _ copies] =>
      some (s.put t .idle, [(t, .pulledChunks ids (copies.map fun x => x.2.1))])
  | _ => some (s, [])

end NoneChunkSystem

/-- One step; `threads` are the workers of the process.  A pull counts up an `int`. -/
def noneChunkStep (s : NoneChunkSystem S Val) :
    NoneChunkInput Val → Option (NoneChunkSystem S Val × List (ℕ × NoneChunkEvent Val))
  | .other v call =>
      if v ∈ threads then none
      else do
        let (process, _) ← processStep C s.process (.send v call)
        some ({ s with process }, [])
  | .background i =>
      if i.background then do
        let (process, seen) ← processStep C s.process i
        NoneChunkSystem.finish { s with process } seen
      else none
  | .pullChunks t ids =>
      match s.phases t with
      | .idle =>
          if t ∈ threads ∧ (s.workers t).pullCount = (s.workers t).pushCount ∧
              (s.workers t).pullCount + 1 < 2 ^ 31 then
            let worker := { s.workers t with pullCount := (s.workers t).pullCount + 1 }
            some ({ s with workers := Function.update s.workers t worker }.put t (.locking ids), [])
          else none
      | _ => none
  | .pushChunks t ids chunks =>
      match s.phases t with
      | .idle =>
          if t ∈ threads ∧ (s.workers t).pushCount + 1 = (s.workers t).pullCount ∧
              ids.length = chunks.length then
            let worker := { s.workers t with pushCount := (s.workers t).pushCount + 1 }
            some ({ s with workers := Function.update s.workers t worker }.put t
              (.buffering (ids.zip chunks)), [])
          else none
      | _ => none
  | .proceed t => if t ∈ threads then s.proceed C t else none

/-- What callers have to respect: chunk ids in range, sorted where they are pulled, and chunks of
the size they should have. -/
def NoneChunkInput.Valid (t : RangeTable) : NoneChunkInput Val → Prop
  | other _ call => call.Sorted t
  | pullChunks _ ids => Listed t ids
  | pushChunks _ ids chunks => ∀ p ∈ ids.zip chunks,
      p.1 < t.chunkNum ∧ p.2.length = t.realChunkSize p.1
  | background _ | proceed _ => True

instance NoneChunkInput.decidableValid (t : RangeTable) :
    ∀ i : NoneChunkInput Val, Decidable (i.Valid t)
  | other _ call => inferInstanceAs (Decidable (call.Sorted t))
  | pullChunks _ ids =>
      inferInstanceAs (Decidable (ids.Pairwise (· ≤ ·) ∧ ∀ c ∈ ids, c < t.chunkNum))
  | pushChunks _ ids chunks => inferInstanceAs (Decidable (∀ p ∈ ids.zip chunks,
      p.1 < t.chunkNum ∧ p.2.length = t.realChunkSize p.1))
  | background _ | proceed _ => .isTrue trivial

end Step

/-! ## The invariant -/

namespace PushBuffer

/-- The chunks in the buffer have the size that they should have. -/
def Sized (t : RangeTable) (b : PushBuffer Val) : Prop :=
  ∀ c, b.params c = [] ∨ (b.params c).length = t.realChunkSize c

theorem Sized.add [AddCommMonoid Val] {t : RangeTable} {b b' : PushBuffer Val} (h : b.Sized t)
    {p : ℕ × List Val} (hp : p.2.length = t.realChunkSize p.1) (hadd : b.add p = some b') :
    b'.Sized t := by
  have hresized : (b.resized p).length = t.realChunkSize p.1 := by
    unfold resized
    split
    · rw [List.length_replicate, hp]
    · next hsome => exact (h p.1).resolve_left fun hnil => hsome (by rw [hnil]; rfl)
  unfold PushBuffer.add at hadd
  split at hadd
  · next hle =>
      obtain rfl := Option.some.inj hadd
      intro c
      by_cases hc : c = p.1
      · subst hc
        right
        simp only [Function.update_self]
        rw [List.length_append, List.length_zipWith, List.length_drop, min_eq_right hle,
          Nat.add_sub_cancel' hle, hresized]
      · simp only [Function.update_of_ne hc]
        exact h c
  · cases hadd

/-- What is taken out is one chunk, or nothing. -/
theorem Sized.take {t : RangeTable} {b b' : PushBuffer Val} (h : b.Sized t) {i : ℕ}
    {new : List (ℕ × List Val)} (htake : b.take i = (b', new)) : b'.Sized t ∧
      (new = [] ∨ ∃ vals, new = [(i, vals)] ∧ vals.length = t.realChunkSize i) := by
  unfold PushBuffer.take at htake
  split at htake
  · obtain ⟨rfl, rfl⟩ := Prod.mk.inj htake
    exact ⟨h, .inl rfl⟩
  · next hsome =>
      obtain ⟨rfl, rfl⟩ := Prod.mk.inj htake
      have hlen := (h i).resolve_left fun hnil => hsome (by rw [hnil]; rfl)
      refine ⟨fun c => ?_, .inr ⟨_, rfl, hlen⟩⟩
      by_cases hc : c = i
      · subst hc
        exact .inl (Function.update_self ..)
      · simp only [Function.update_of_ne hc]
        exact h c

end PushBuffer

namespace NoneChunkPhase

/-- What a worker can rely on in each phase. -/
def Sound (t : RangeTable) : NoneChunkPhase Val → Prop
  | idle => True
  | buffering todo => ∀ p ∈ todo, p.1 < t.chunkNum ∧ p.2.length = t.realChunkSize p.1
  | locking ids | flushed ids | pulling ids => Listed t ids
  | flushing ids next chunks => Listed t ids ∧ next ≤ t.chunkNum ∧
      chunks.Pairwise (fun p q => p.1 < q.1) ∧
      ∀ p ∈ chunks, p.1 < next ∧ p.2.length = t.realChunkSize p.1

/-- The pull has been counted, and its flush is still to be sent. -/
def unsent : NoneChunkPhase Val → ℕ
  | locking _ | flushing _ _ _ => 1
  | _ => 0

/-- The call of the cache that the worker is in. -/
def call (staleness : ℕ) (w : PSNoneChunkWorker) : NoneChunkPhase Val → Option CacheCall
  | pulling ids => some (.pullChunksWithMinClock ids (w.requiredClock staleness))
  | _ => none

end NoneChunkPhase

section Invariant

variable [StorageT S Val] [AddCommMonoid Val]

/-- The invariant: a worker has pushed as often as it has flushed, and its first call is a pull. -/
structure NoneChunkInv (C : Cluster S Val) (threads : Finset ℕ) (s : NoneChunkSystem S Val) :
    Prop where
  process : ∃ seen, ProcessInv C seen s.process
  buffer : s.buffer.Sized C.t
  sound : ∀ t, (s.phases t).Sound C.t
  current : ∀ t,
    (s.process.cache.threads t).current = (s.phases t).call C.staleness (s.workers t)
  counted : ∀ t ∈ threads,
    (pushes (s.process.cluster.calls t)).length + (s.phases t).unsent = (s.workers t).pullCount
  pullCount_lt : ∀ t, (s.workers t).pullCount < 2 ^ 31
  pulled : ∀ t, s.phases t ≠ .idle → 0 < (s.workers t).pullCount

theorem noneChunkInv_init (C : Cluster S Val) (threads : Finset ℕ) :
    NoneChunkInv C threads (NoneChunkSystem.init C) where
  process := ⟨[], processInv_init C⟩
  buffer _ := .inl rfl
  sound _ := trivial
  current _ := rfl
  counted _ _ := rfl
  pullCount_lt _ := show 0 < 2 ^ 31 by decide
  pulled _ hbusy := absurd rfl hbusy

variable {C : Cluster S Val} {threads : Finset ℕ} {s s' : NoneChunkSystem S Val}
  {o : List (ℕ × NoneChunkEvent Val)}

/-- One worker moves, and the process with it. -/
theorem NoneChunkInv.moved (h : NoneChunkInv C threads s) {t : ℕ} {process : ProcessState S Val}
    {buffer : PushBuffer Val} {workers : ℕ → PSNoneChunkWorker} {phase : NoneChunkPhase Val}
    (hprocess : ∃ seen, ProcessInv C seen process) (hbuffer : buffer.Sized C.t)
    (hsound : phase.Sound C.t) (hlt : (workers t).pullCount < 2 ^ 31)
    (hcurrent : (process.cache.threads t).current = phase.call C.staleness (workers t))
    (hcounted : t ∈ threads →
      (pushes (process.cluster.calls t)).length + phase.unsent = (workers t).pullCount)
    (hpulled : phase ≠ .idle → 0 < (workers t).pullCount)
    (hothers : ∀ v ≠ t, workers v = s.workers v ∧
      (process.cache.threads v).current = (s.process.cache.threads v).current ∧
      pushes (process.cluster.calls v) = pushes (s.process.cluster.calls v)) :
    NoneChunkInv C threads ⟨process, buffer, workers, Function.update s.phases t phase⟩ where
  process := hprocess
  buffer := hbuffer
  sound v := by
    by_cases hv : v = t
    · subst hv
      simpa only [Function.update_self] using hsound
    · simpa only [Function.update_of_ne hv] using h.sound v
  current v := by
    by_cases hv : v = t
    · subst hv
      simpa only [Function.update_self] using hcurrent
    · obtain ⟨hworker, hsame, -⟩ := hothers v hv
      simp only [Function.update_of_ne hv]
      rw [hworker, hsame]
      exact h.current v
  counted v hmem := by
    by_cases hv : v = t
    · subst hv
      simpa only [Function.update_self] using hcounted hmem
    · obtain ⟨hworker, -, hpushes⟩ := hothers v hv
      simp only [Function.update_of_ne hv]
      rw [hworker, hpushes]
      exact h.counted v hmem
  pullCount_lt v := by
    by_cases hv : v = t
    · exact hv ▸ hlt
    · show (workers v).pullCount < 2 ^ 31
      rw [(hothers v hv).1]
      exact h.pullCount_lt v
  pulled v hbusy := by
    by_cases hv : v = t
    · subst hv
      simp only [Function.update_self] at hbusy
      exact hpulled hbusy
    · simp only [Function.update_of_ne hv] at hbusy
      show 0 < (workers v).pullCount
      rw [(hothers v hv).1]
      exact h.pulled v hbusy

/-- A worker moves on its own. -/
theorem NoneChunkInv.put (h : NoneChunkInv C threads s) {t : ℕ} {buffer : PushBuffer Val}
    {phase : NoneChunkPhase Val} (hbuffer : buffer.Sized C.t) (hsound : phase.Sound C.t)
    (hcall : ∀ w, phase.call C.staleness w = (s.phases t).call C.staleness w)
    (hunsent : phase.unsent = (s.phases t).unsent) (hbusy : s.phases t ≠ .idle) :
    NoneChunkInv C threads ({ s with buffer }.put t phase) :=
  h.moved h.process hbuffer hsound (h.pullCount_lt t) ((h.current t).trans (hcall _).symm)
    (fun hmem => hunsent ▸ h.counted t hmem) (fun _ => h.pulled t hbusy) fun _ _ => ⟨rfl, rfl, rfl⟩

/-- A worker begins a call. -/
theorem NoneChunkInv.begins (h : NoneChunkInv C threads s) {t : ℕ} (hphase : s.phases t = .idle)
    {worker : PSNoneChunkWorker} {phase : NoneChunkPhase Val} (hsound : phase.Sound C.t)
    (hlt : worker.pullCount < 2 ^ 31) (hpos : 0 < worker.pullCount)
    (hcall : ∀ w, phase.call C.staleness w = none)
    (hcount : (s.workers t).pullCount + phase.unsent = worker.pullCount) :
    NoneChunkInv C threads
      ({ s with workers := Function.update s.workers t worker }.put t phase) := by
  have hcurrent := h.current t
  have hcounted := h.counted t
  rw [hphase] at hcurrent hcounted
  refine h.moved h.process h.buffer hsound ?_ (hcurrent.trans (hcall _).symm) (fun ht => ?_)
    (fun _ => ?_) fun v hv => ⟨Function.update_of_ne hv _ _, rfl, rfl⟩
  · simpa only [Function.update_self] using hlt
  · simp only [Function.update_self]
    rw [← hcount, ← hcounted ht]
    rfl
  · simpa only [Function.update_self] using hpos

omit [StorageT S Val] [AddCommMonoid Val] in
/-- Chunks that arrive end no pull. -/
theorem NoneChunkSystem.finish_eq {seen : List (CacheEvent Val)}
    (h : seen = [] ∨ ∃ t clock chunks, seen = [.delivered t clock chunks]) :
    s.finish seen = some (s, []) := by
  rcases h with rfl | ⟨t, clock, chunks, rfl⟩ <;> rfl

/-- The process goes on, and a pull may end. -/
theorem NoneChunkInv.background (h : NoneChunkInv C threads s) {i : ProcessInput Val}
    (hi : i.background = true) {process : ProcessState S Val} {seen : List (CacheEvent Val)}
    (hstep : processStep C s.process i = some (process, seen))
    (hfinish : NoneChunkSystem.finish { s with process } seen = some (s', o)) :
    NoneChunkInv C threads s' := by
  obtain ⟨before, hprocess⟩ := h.process
  have hnow := processInv_step hprocess (ProcessInput.valid_of_background hi)
    (by rintro t c rfl; cases hi) hstep
  have hback := processStep_background hi hstep
  cases hback.calls with
  | stay hcurrent hseen =>
      rw [NoneChunkSystem.finish_eq hseen] at hfinish
      obtain ⟨rfl, -⟩ := Prod.mk.inj (Option.some.inj hfinish)
      refine ⟨⟨_, hnow⟩, h.buffer, h.sound, fun t => (hcurrent t).trans (h.current t),
        fun t ht => ?_, h.pullCount_lt, h.pulled⟩
      show (pushes (process.cluster.calls t)).length + _ = _
      rw [hback.pushes_eq t]
      exact h.counted t ht
  | abort haborted => exact absurd haborted (hnow.not_aborted _)
  | @finish t c e hcurrent hidle hothers hreturns =>
      have hphase := (h.current t).symm.trans hcurrent
      have hcounted := h.counted t
      cases hp : s.phases t with
      | pulling ids =>
          rw [hp] at hphase hcounted
          obtain rfl := Option.some.inj hphase
          obtain ⟨copies, rfl⟩ := hreturns.resolve_left (by simp [CacheCall.managed])
          obtain ⟨rfl, -⟩ := Prod.mk.inj (Option.some.inj hfinish)
          refine h.moved ⟨_, hnow⟩ h.buffer trivial (h.pullCount_lt t) ?_ (fun ht => ?_)
            (absurd rfl) fun v hv => ⟨rfl, hothers v hv, hback.pushes_eq v⟩
          · rw [hidle]
            rfl
          · rw [hback.pushes_eq t]
            exact hcounted ht
      | _ =>
          rw [hp] at hphase
          cases hphase

/-- A worker sends what it has taken out of the buffer. -/
theorem NoneChunkInv.flush (h : NoneChunkInv C threads s) {t : ℕ} {ids : List ℕ} {next : ℕ}
    {chunks : List (ℕ × List Val)} (hphase : s.phases t = .flushing ids next chunks)
    {process : ProcessState S Val} {seen : List (CacheEvent Val)}
    (hstep : processStep C s.process
      (.send t (.pushChunks (chunks.map Prod.fst) (chunks.map Prod.snd))) = some (process, seen)) :
    NoneChunkInv C threads
      ({ s with process, buffer := { s.buffer with holder := none } }.put t (.flushed ids)) := by
  have hsound := h.sound t
  have hcurrent := h.current t
  have hcounted := h.counted t
  rw [hphase] at hsound hcurrent hcounted
  obtain ⟨hids, hnext, hstrict, hchunks⟩ := hsound
  have hzip : (chunks.map Prod.fst).zip (chunks.map Prod.snd) = chunks := by
    rw [List.zip_map']
    exact List.map_id _
  have hsorted : Call.Sorted C.t (.pushChunks (chunks.map Prod.fst) (chunks.map Prod.snd)) := by
    refine ⟨List.pairwise_map.mpr (hstrict.imp Nat.le_of_lt), fun c hc => ?_, by simp, ?_⟩
    · obtain ⟨p, hp, rfl⟩ := List.mem_map.mp hc
      exact (hchunks p hp).1.trans_le hnext
    · rw [hzip]
      exact fun p hp => (hchunks p hp).2
  obtain ⟨before, hprocess⟩ := h.process
  have hvalid : ProcessInput.Valid C.t
      (.send t (.pushChunks (chunks.map Prod.fst) (chunks.map Prod.snd))) := hsorted
  have hnow := processInv_step hprocess hvalid (by simp) hstep
  obtain ⟨-, cluster, hsend, rfl⟩ := processStep_send hstep
  obtain ⟨-, rfl⟩ := C.send_eq hsend
  refine h.moved ⟨_, hnow⟩ h.buffer hids (h.pullCount_lt t) hcurrent (fun ht => ?_)
    (fun _ => h.pulled t (by simp [hphase])) fun v hv => ?_
  · rw [← hcounted ht]
    simp only [Function.update_self, pushes, List.filter_append, List.length_append]
    rfl
  · exact ⟨rfl, rfl, by simp only [Function.update_of_ne hv]⟩

/-- A worker calls the cache, for a clock that its flushes let it get. -/
theorem NoneChunkInv.callCache (h : NoneChunkInv C threads s) {t : ℕ} (ht : t ∈ threads)
    {ids : List ℕ} (hphase : s.phases t = .flushed ids) {process : ProcessState S Val}
    {seen : List (CacheEvent Val)}
    (hstep : processStep C s.process (.call t (.pullChunksWithMinClock ids
      ((s.workers t).requiredClock C.staleness))) = some (process, seen)) :
    NoneChunkInv C threads ({ s with process }.put t (.pulling ids)) := by
  have hsound := h.sound t
  have hcounted := h.counted t ht
  have hlt := h.pullCount_lt t
  rw [hphase] at hsound hcounted
  obtain ⟨before, hprocess⟩ := h.process
  obtain ⟨hcluster, -, -, hcurrent, hothers⟩ := processStep_call hstep
  have hvalid : ProcessInput.Valid C.t (.call t (.pullChunksWithMinClock ids
      ((s.workers t).requiredClock C.staleness)) : ProcessInput Val) := hsound
  have hnow := processInv_step hprocess hvalid (fun t' c heq => ?_) hstep
  · refine h.moved ⟨_, hnow⟩ h.buffer hsound hlt hcurrent (fun _ => ?_)
      (fun _ => h.pulled t (by simp [hphase])) fun v hv => ?_
    · rw [hcluster]
      exact hcounted
    · rw [hcluster, hothers v hv]
      exact ⟨rfl, rfl, rfl⟩
  · obtain ⟨rfl, rfl⟩ := ProcessInput.call.inj heq
    have hflushed : (pushes (s.process.cluster.calls t)).length = (s.workers t).pullCount :=
      hcounted
    rw [CacheCall.Timely, CacheCall.minClock, PSNoneChunkWorker.requiredClock, hflushed]
    omega

/-- **A worker moves.** -/
theorem NoneChunkInv.proceed (h : NoneChunkInv C threads s) {t : ℕ} (ht : t ∈ threads)
    (hstep : s.proceed C t = some (s', o)) : NoneChunkInv C threads s' := by
  have hsound := h.sound t
  unfold NoneChunkSystem.proceed at hstep
  split at hstep
  · cases hstep
  · cases hstep
  · next p todo hphase =>
      rw [hphase] at hsound
      obtain ⟨hp, htodo⟩ := List.forall_mem_cons.mp hsound
      obtain ⟨buffer, hadd, hstep⟩ := Option.bind_eq_some_iff.mp hstep
      obtain ⟨rfl, -⟩ := Prod.mk.inj (Option.some.inj hstep)
      refine h.put (h.buffer.add hp.2 hadd) htodo (fun _ => ?_) ?_ (by simp [hphase]) <;>
        rw [hphase] <;> rfl
  · next hphase =>
      obtain ⟨rfl, -⟩ := Prod.mk.inj (Option.some.inj hstep)
      refine h.put h.buffer trivial (fun _ => ?_) ?_ (by simp [hphase]) <;> rw [hphase] <;> rfl
  · next ids hphase =>
      rw [hphase] at hsound
      split at hstep
      · obtain ⟨rfl, -⟩ := Prod.mk.inj (Option.some.inj hstep)
        refine h.put h.buffer ⟨hsound, Nat.zero_le _, .nil, by simp⟩ (fun _ => ?_) ?_
          (by simp [hphase]) <;> rw [hphase] <;> rfl
      · cases hstep
  · next ids next chunks hphase =>
      rw [hphase] at hsound
      obtain ⟨hids, -, hstrict, hchunks⟩ := hsound
      split at hstep
      · next hlt =>
          rcases htake : s.buffer.take next with ⟨buffer, new⟩
          rw [htake] at hstep
          obtain ⟨rfl, -⟩ := Prod.mk.inj (Option.some.inj hstep)
          obtain ⟨hbuffer, hnew⟩ := h.buffer.take htake
          have hflushing : (NoneChunkPhase.flushing ids (next + 1) (chunks ++ new)).Sound C.t := by
            rcases hnew with rfl | ⟨vals, rfl, hlen⟩
            · rw [List.append_nil]
              exact ⟨hids, hlt, hstrict, fun p hp =>
                ⟨(hchunks p hp).1.trans (Nat.lt_succ_self _), (hchunks p hp).2⟩⟩
            · refine ⟨hids, hlt, List.pairwise_append.mpr ⟨hstrict, List.pairwise_singleton _ _,
                fun p hp q hq => ?_⟩, fun p hp => ?_⟩
              · rw [List.mem_singleton.mp hq]
                exact (hchunks p hp).1
              · rcases List.mem_append.mp hp with hp | hp
                · exact ⟨(hchunks p hp).1.trans (Nat.lt_succ_self _), (hchunks p hp).2⟩
                · rw [List.mem_singleton.mp hp]
                  exact ⟨Nat.lt_succ_self _, hlen⟩
          refine h.put hbuffer hflushing (fun _ => ?_) ?_ (by simp [hphase]) <;> rw [hphase] <;> rfl
      · obtain ⟨⟨process, seen⟩, hsend, hstep⟩ := Option.bind_eq_some_iff.mp hstep
        obtain ⟨rfl, -⟩ := Prod.mk.inj (Option.some.inj hstep)
        exact h.flush hphase hsend
  · next ids hphase =>
      obtain ⟨⟨process, seen⟩, hcall, hstep⟩ := Option.bind_eq_some_iff.mp hstep
      obtain ⟨rfl, -⟩ := Prod.mk.inj (Option.some.inj hstep)
      exact h.callCache ht hphase hcall

/-- **Every step keeps the invariant.** -/
theorem noneChunkInv_step (h : NoneChunkInv C threads s) {i : NoneChunkInput Val}
    (hi : i.Valid C.t) (hstep : noneChunkStep C threads s i = some (s', o)) :
    NoneChunkInv C threads s' := by
  cases i with
  | other v call =>
      simp only [noneChunkStep] at hstep
      split at hstep
      · cases hstep
      · next hout =>
          obtain ⟨⟨process, seen⟩, hprocess, hstep⟩ := Option.bind_eq_some_iff.mp hstep
          obtain ⟨rfl, -⟩ := Prod.mk.inj (Option.some.inj hstep)
          obtain ⟨before, hinv⟩ := h.process
          have hnow := processInv_step hinv (i := .send v call) hi (by simp) hprocess
          obtain ⟨-, cluster, hsend, rfl⟩ := processStep_send hprocess
          obtain ⟨-, rfl⟩ := C.send_eq hsend
          refine ⟨⟨_, hnow⟩, h.buffer, h.sound, h.current, fun t ht => ?_, h.pullCount_lt,
            h.pulled⟩
          have hne : t ≠ v := fun heq => hout (heq ▸ ht)
          simp only [Function.update_of_ne hne]
          exact h.counted t ht
  | background i =>
      simp only [noneChunkStep] at hstep
      split at hstep
      · next hi =>
          obtain ⟨⟨process, seen⟩, hprocess, hfinish⟩ := Option.bind_eq_some_iff.mp hstep
          exact h.background hi hprocess hfinish
      · cases hstep
  | pullChunks t ids =>
      simp only [noneChunkStep] at hstep
      split at hstep
      · next hphase =>
          split at hstep
          · next hguard =>
              obtain ⟨rfl, -⟩ := Prod.mk.inj (Option.some.inj hstep)
              exact h.begins hphase hi hguard.2.2 (Nat.succ_pos _) (fun _ => rfl) rfl
          · cases hstep
      · cases hstep
  | pushChunks t ids chunks =>
      simp only [noneChunkStep] at hstep
      split at hstep
      · next hphase =>
          split at hstep
          · next hguard =>
              obtain ⟨rfl, -⟩ := Prod.mk.inj (Option.some.inj hstep)
              have hpos : 0 < (s.workers t).pullCount := by
                rw [← hguard.2.1]
                exact Nat.succ_pos _
              exact h.begins hphase hi (h.pullCount_lt t) hpos (fun _ => rfl) rfl
          · cases hstep
      · cases hstep
  | proceed t =>
      simp only [noneChunkStep] at hstep
      split at hstep
      · next ht => exact h.proceed ht hstep
      · cases hstep

/-- The invariant holds after every run. -/
theorem noneChunkInv_run {is : List (NoneChunkInput Val)} {out : List (ℕ × NoneChunkEvent Val)}
    (hvalid : ∀ i ∈ is, i.Valid C.t)
    (hrun : run (noneChunkStep C threads) (.init C) is = some (s, out)) :
    NoneChunkInv C threads s := by
  refine run_keeps ?_ hvalid (noneChunkInv_init C threads) hrun
  exact fun hi hI hstep => noneChunkInv_step hI hi hstep

end Invariant

/-! ## What fetches deliver -/

section Fetches

variable [StorageT S Val] [AddCommMonoid Val]

/-- Whatever a thread that waits for the servers gets has at least the clock that it asks for, and
its chunks contain every push below that clock. -/
def FetchesFresh (C : Cluster S Val) (s : ProcessState S Val) : Prop :=
  ∀ t k order chunks clock, s.fetches t = some k →
    C.fetched s.cluster t k order = some (chunks, clock) →
    ∃ c real wait, s.cache.threads t = .fetching c real wait ∧ c.minClock ≤ clock ∧
      List.Forall₂ (fun id vals => ∃ A, Contains C s.cluster.calls id vals clock A) real chunks

variable {C : Cluster S Val} {threads : Finset ℕ}

theorem ProcessInv.fetchesFresh {s : ProcessState S Val} {seen : List (CacheEvent Val)}
    (h : ProcessInv C seen s) : FetchesFresh C s := by
  intro t k order chunks clock hk hfetched
  obtain ⟨c, real, wait, hphase, hclock, vals, rfl, hcopies⟩ := h.fetched (h.honest t) hk hfetched
  refine ⟨c, real, wait, hphase, hclock, ?_⟩
  exact List.forall₂_map_right_iff.mpr (List.forall₂_same.mpr fun id hid => (hcopies id hid).contains)

end Fetches

/-- **The assertion in the fetch manager never fires**, whatever the other workers call and in
whatever order threads move and messages are delivered: not for the `PSChunkChunkWorker`s of a
process, and not for `PSNoneChunkWorker`s that pull and push chunks.  What a fetch delivers has at
least the clock that was asked for, and every chunk of it is the store at the start plus a set of
pushes, each once, that has all pushes numbered below the delivered clock. -/
theorem fetches_fresh {S Val : Type} [StorageT S Val] [AddCommMonoid Val] (C : Cluster S Val)
    (threads : Finset ℕ) :
    (∀ is s out, (∀ i ∈ is, i.Valid C.t) →
      run (chunkChunkStep C threads) (.init C) is = some (s, out) →
      (∀ t, s.process.cache.threads t ≠ .aborted) ∧ FetchesFresh C s.process) ∧
    (∀ is s out, (∀ i ∈ is, i.Valid C.t) →
      run (noneChunkStep C threads) (.init C) is = some (s, out) →
      (∀ t, s.process.cache.threads t ≠ .aborted) ∧ FetchesFresh C s.process) := by
  constructor
  · intro is s out hvalid hrun
    obtain ⟨seen, hprocess⟩ := (chunkChunkInv_run hvalid hrun).process
    exact ⟨hprocess.not_aborted, hprocess.fetchesFresh⟩
  · intro is s out hvalid hrun
    obtain ⟨seen, hprocess⟩ := (noneChunkInv_run hvalid hrun).process
    exact ⟨hprocess.not_aborted, hprocess.fetchesFresh⟩

/-- Worker `t` pulls chunk 0: it flushes the buffer and calls the cache of the process. -/
def flushedPull (t : ℕ) : List (NoneChunkInput ℤ) :=
  .pullChunks t [0] :: List.replicate 5 (.proceed t)

/-- Worker 0 fetches chunk 0 and puts an update into the buffer, which the flush of worker 1 takes
out; then worker 0 waits for the chunk again, with a clock that is at least 1. -/
def refetchedChunk : List (NoneChunkInput ℤ) :=
  [.background (.deliver 0 0), .background (.deliver 0 1), .background (.deliver 1 0),
    .background (.deliver 1 1)] ++ flushedPull 0 ++ List.replicate 5 (.background (.proceed 0)) ++
  [.background (.fetch 0), .background (.deliver 0 0), .background (.deliver 1 0),
    .background (.deliver 0 0), .background (.arrive 0 [0])] ++
  List.replicate 4 (.background (.proceed 0)) ++
  [.pushChunks 0 [0] [[5, 7]], .proceed 0, .proceed 0] ++ flushedPull 1 ++
  [.background (.deliver 0 1), .background (.deliver 1 1)] ++ flushedPull 0 ++
  List.replicate 5 (.background (.proceed 0)) ++
  [.background (.fetch 0), .background (.deliver 0 0), .background (.deliver 0 0)]

/-- Worker 0 waits for its second fetch, whose chunk has the clock it asks for and what the flush of
worker 1 took out; of `PSChunkChunkWorker`s none is aborted either. -/
theorem fetches_fresh_refetchedChunk :
    (∃ s out, run (noneChunkStep (pairCluster 1) {0, 1}) (.init (pairCluster 1)) refetchedChunk =
        some (s, out) ∧
      (pairCluster 1).fetched s.process.cluster 0 3 [0] = some ([[5, 7]], 1) ∧
      ∃ c real wait, s.process.cache.threads 0 = .fetching c real wait ∧ c.minClock ≤ 1 ∧
        List.Forall₂ (fun id vals => ∃ A, Contains (pairCluster 1) s.process.cluster.calls id vals 1 A)
          real [[5, 7]]) ∧
    ∃ s out, run (chunkChunkStep (pairCluster 1) {0, 1}) (.init (pairCluster 1)) sharedChunks =
        some (s, out) ∧ s.process.cache.threads 0 ≠ .aborted := by
  constructor
  · have hvalid : ∀ i ∈ refetchedChunk, i.Valid (pairCluster 1).t := by decide
    have hrun : ∃ s out, run (noneChunkStep (pairCluster 1) {0, 1}) (.init (pairCluster 1))
        refetchedChunk = some (s, out) ∧ s.process.fetches 0 = some 3 ∧
        (pairCluster 1).fetched s.process.cluster 0 3 [0] = some ([[5, 7]], 1) :=
      ⟨_, _, rfl, rfl, rfl⟩
    obtain ⟨s, out, hrun, hfetch, hfetched⟩ := hrun
    exact ⟨s, out, hrun, hfetched,
      ((fetches_fresh (pairCluster 1) {0, 1}).2 _ s out hvalid hrun).2 0 3 _ _ _ hfetch hfetched⟩
  · have hvalid : ∀ i ∈ sharedChunks, i.Valid (pairCluster 1).t := by decide
    have hrun : ∃ s out, run (chunkChunkStep (pairCluster 1) {0, 1}) (.init (pairCluster 1))
        sharedChunks = some (s, out) := ⟨_, _, rfl⟩
    obtain ⟨s, out, hrun⟩ := hrun
    exact ⟨s, out, hrun, ((fetches_fresh (pairCluster 1) {0, 1}).1 _ s out hvalid hrun).1 0⟩

end FlexPS.ML
