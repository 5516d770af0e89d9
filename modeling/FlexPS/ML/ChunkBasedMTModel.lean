import FlexPS.Lib.Mutexes
import FlexPS.Lib.Updates

/-!
# Chunks prepared by many threads

`ChunkBasedMTModel::PrepareChunks`: threads look into `is_cached_`, try to lock the chunks that are
missing, fetch those they have locked, and wait for those that others have locked.  Every lock,
try-lock and unlock and every access to `is_cached_` is a step of its own.

## Main definitions

* `ChunkBasedMTModel`, `PreparePhase`, `prepareStep` — the shared data, where a thread is in its
  call, and one step of one thread.
* `PrepareMove` — the steps, case by case.
* `PrepareInv` — the invariant: a chunk whose mutex was ever taken is cached or locked, and a chunk
  that was fetched is cached or locked by the thread that waits for it.
* `prepares_once` — every chunk is fetched at most once, every mutex is released by the thread that
  took it, a call returns when its chunks are cached, and the assertion never fails.
-/

namespace FlexPS.ML

open Lib

variable {Val : Type}

/-! ## Threads -/

/-- `ChunkBasedMTModel`, with the thread that holds each mutex. -/
structure ChunkBasedMTModel (Val : Type) where
  params : ℕ → List Val
  isCached : ℕ → Bool
  mtx : ℕ → Option ℕ

namespace ChunkBasedMTModel

/-- `is_cached_[id] = true`. -/
def cache (m : ChunkBasedMTModel Val) (id : ℕ) : ChunkBasedMTModel Val :=
  { m with isCached := Function.update m.isCached id true }

/-- `mtx_[id].lock()`, or a `try_lock` that succeeds. -/
def lock (m : ChunkBasedMTModel Val) (t id : ℕ) : ChunkBasedMTModel Val :=
  { m with mtx := Function.update m.mtx id (some t) }

/-- `mtx_[id].unlock()`. -/
def unlock (m : ChunkBasedMTModel Val) (id : ℕ) : ChunkBasedMTModel Val :=
  { m with mtx := Function.update m.mtx id none }

/-- The reply to a fetch is written into `params_`. -/
def receive (m : ChunkBasedMTModel Val) (chunks : List (ℕ × List Val)) : ChunkBasedMTModel Val :=
  { m with params := chunks.foldl (fun params p => Function.update params p.1 p.2) m.params }

end ChunkBasedMTModel

/-- The local variables of a call. -/
structure PrepareCall where
  chunkKeys : List ℕ
  chunksToFetch : List ℕ
  chunksToCheck : List ℕ

namespace PrepareCall

/-- The start of a call. -/
def new (chunkKeys : List ℕ) : PrepareCall := ⟨chunkKeys, [], []⟩

/-- `chunks_to_fetch.push_back(id)`. -/
def pushFetch (c : PrepareCall) (id : ℕ) : PrepareCall :=
  { c with chunksToFetch := c.chunksToFetch ++ [id] }

/-- `chunks_to_check.push_back(id)`. -/
def pushCheck (c : PrepareCall) (id : ℕ) : PrepareCall :=
  { c with chunksToCheck := c.chunksToCheck ++ [id] }

end PrepareCall

/-- Where a thread is in its call; `todo` is what the loop it stands in has still to visit. -/
inductive PreparePhase where
  | idle
  /-- Step 1, about to look whether the next chunk is cached; `current` is the last one visited. -/
  | collecting (c : PrepareCall) (current : Option ℕ) (todo : List ℕ)
  /-- Step 1, about to `try_lock`. -/
  | trying (c : PrepareCall) (id : ℕ) (todo : List ℕ)
  /-- Step 1, about to look again, with the lock. -/
  | rechecking (c : PrepareCall) (id : ℕ) (todo : List ℕ)
  /-- Step 1, about to unlock a chunk that another thread has fetched meanwhile. -/
  | releasing (c : PrepareCall) (id : ℕ) (todo : List ℕ)
  /-- Step 2, waiting for the servers. -/
  | fetching (c : PrepareCall)
  /-- Step 3, about to mark the next chunk as cached. -/
  | marking (c : PrepareCall) (todo : List ℕ)
  /-- Step 3, about to unlock the chunk. -/
  | unlocking (c : PrepareCall) (id : ℕ) (todo : List ℕ)
  /-- Step 4, inside `remove_if`. -/
  | removing (c : PrepareCall) (todo kept : List ℕ)
  /-- Step 4, about to lock the next chunk. -/
  | locking (c : PrepareCall) (todo : List ℕ)
  /-- Step 4, about to assert that the chunk is cached. -/
  | asserting (c : PrepareCall) (id : ℕ) (todo : List ℕ)
  /-- Step 4, about to unlock the chunk. -/
  | leaving (c : PrepareCall) (id : ℕ) (todo : List ℕ)
  /-- The assertion has failed. -/
  | aborted

/-- The threads and the model they share. -/
structure PrepareSystem (Val : Type) where
  model : ChunkBasedMTModel Val
  threads : ℕ → PreparePhase

/-- What is seen of the threads: locks, fetches and returns. -/
inductive PrepareEvent where
  | lock (e : LockEvent ℕ ℕ)
  | fetched (t : ℕ) (ids : List ℕ)
  | returned (t : ℕ) (chunkKeys : List ℕ)

/-- What the schedule decides; `update` is a `Push` to a chunk, whatever it adds. -/
inductive PrepareInput (Val : Type) where
  | call (t : ℕ) (chunkKeys : List ℕ)
  | proceed (t : ℕ)
  | deliver (t : ℕ) (chunks : List (List Val))
  | update (id : ℕ) (chunk : List Val)

namespace PrepareSystem

/-- No thread is in a call, after a `Load` that left these chunks. -/
def loaded (params : ℕ → List Val) (isCached : ℕ → Bool) : PrepareSystem Val :=
  ⟨⟨params, isCached, fun _ => none⟩, fun _ => .idle⟩

/-- Move one thread. -/
def put (s : PrepareSystem Val) (t : ℕ) (phase : PreparePhase) : PrepareSystem Val :=
  { s with threads := Function.update s.threads t phase }

/-- Move one thread that has changed the shared data. -/
def set (s : PrepareSystem Val) (t : ℕ) (m : ChunkBasedMTModel Val) (phase : PreparePhase) :
    PrepareSystem Val :=
  ⟨m, Function.update s.threads t phase⟩

end PrepareSystem

/-- The next step of a thread inside its call. -/
def prepare (s : PrepareSystem Val) (t : ℕ) : Option (PrepareSystem Val × List PrepareEvent) :=
  match s.threads t with
  | .idle | .fetching _ | .aborted => none
  | .collecting c current (id :: todo) =>
      if s.model.isCached id = false then
        if current ≠ some id then some (s.put t (.trying c id todo), [])
        else some (s.put t (.collecting c (some id) todo), [])
      else some (s.put t (.collecting c (some id) todo), [])
  | .trying c id todo =>
      if s.model.mtx id = none then
        some (s.set t (s.model.lock t id) (.rechecking c id todo), [.lock (.taken t id)])
      else some (s.put t (.collecting (c.pushCheck id) (some id) todo), [])
  | .rechecking c id todo =>
      if s.model.isCached id = false then
        some (s.put t (.collecting (c.pushFetch id) (some id) todo), [])
      else some (s.put t (.releasing c id todo), [])
  | .releasing c id todo =>
      some (s.set t (s.model.unlock id) (.collecting c (some id) todo),
        [.lock (.released t id)])
  | .collecting c _ [] =>
      if 0 < c.chunksToFetch.length then
        some (s.put t (.fetching c), [.fetched t c.chunksToFetch])
      else some (s.put t (.removing c c.chunksToCheck []), [])
  | .marking c (id :: todo) =>
      some (s.set t (s.model.cache id) (.unlocking c id todo), [])
  | .unlocking c id todo =>
      some (s.set t (s.model.unlock id) (.marking c todo), [.lock (.released t id)])
  | .marking c [] => some (s.put t (.removing c c.chunksToCheck []), [])
  | .removing c (id :: todo) kept =>
      if s.model.isCached id then some (s.put t (.removing c todo kept), [])
      else some (s.put t (.removing c todo (kept ++ [id])), [])
  | .removing c [] kept => some (s.put t (.locking c kept), [])
  | .locking c (id :: todo) =>
      if s.model.mtx id = none then
        some (s.set t (s.model.lock t id) (.asserting c id todo), [.lock (.taken t id)])
      else none
  | .asserting c id todo =>
      if s.model.isCached id then some (s.put t (.leaving c id todo), [])
      else some (s.put t .aborted, [])
  | .leaving c id todo =>
      some (s.set t (s.model.unlock id) (.locking c todo), [.lock (.released t id)])
  | .locking c [] => some (s.put t .idle, [.returned t c.chunkKeys])

/-- One step: a call, a step of a thread, the reply to a fetch, or a local update of a chunk. -/
def prepareStep (s : PrepareSystem Val) :
    PrepareInput Val → Option (PrepareSystem Val × List PrepareEvent)
  | .call t chunkKeys =>
      match s.threads t with
      | .idle => some (s.put t (.collecting (.new chunkKeys) none chunkKeys), [])
      | _ => none
  | .proceed t => prepare s t
  | .deliver t chunks =>
      match s.threads t with
      | .fetching c =>
          if chunks.length = c.chunksToFetch.length then
            some (s.set t (s.model.receive (c.chunksToFetch.zip chunks))
              (.marking c c.chunksToFetch), [])
          else none
      | _ => none
  | .update id chunk =>
      if s.model.isCached id then
        let model := { s.model with params := Function.update s.model.params id chunk }
        some ({ s with model := model }, [])
      else none

/-! ## What a step does -/

/-- The steps, case by case: the data and the phase of thread `t` before and after, and what is
seen. -/
inductive PrepareMove (t : ℕ) (m : ChunkBasedMTModel Val) :
    PreparePhase → ChunkBasedMTModel Val → PreparePhase → List PrepareEvent → Prop
  | call {keys} : PrepareMove t m .idle m (.collecting (.new keys) none keys) []
  | skip {c current id todo} (h : m.isCached id = true ∨ current = some id) :
      PrepareMove t m (.collecting c current (id :: todo)) m (.collecting c (some id) todo) []
  | miss {c current id todo} :
      PrepareMove t m (.collecting c current (id :: todo)) m (.trying c id todo) []
  | tryLock {c id todo} (hfree : m.mtx id = none) :
      PrepareMove t m (.trying c id todo) (m.lock t id) (.rechecking c id todo)
        [.lock (.taken t id)]
  | defer {c id todo} (hheld : m.mtx id ≠ none) :
      PrepareMove t m (.trying c id todo) m (.collecting (c.pushCheck id) (some id) todo) []
  | collect {c id todo} (h : m.isCached id = false) :
      PrepareMove t m (.rechecking c id todo) m (.collecting (c.pushFetch id) (some id) todo) []
  | late {c id todo} (h : m.isCached id = true) :
      PrepareMove t m (.rechecking c id todo) m (.releasing c id todo) []
  | release {c id todo} :
      PrepareMove t m (.releasing c id todo) (m.unlock id) (.collecting c (some id) todo)
        [.lock (.released t id)]
  | fetch {c current} :
      PrepareMove t m (.collecting c current []) m (.fetching c) [.fetched t c.chunksToFetch]
  | noFetch {c current} (h : c.chunksToFetch = []) :
      PrepareMove t m (.collecting c current []) m (.removing c c.chunksToCheck []) []
  | deliver {c} {chunks : List (List Val)} :
      PrepareMove t m (.fetching c) (m.receive (c.chunksToFetch.zip chunks))
        (.marking c c.chunksToFetch) []
  | mark {c id todo} :
      PrepareMove t m (.marking c (id :: todo)) (m.cache id) (.unlocking c id todo) []
  | unlock {c id todo} :
      PrepareMove t m (.unlocking c id todo) (m.unlock id) (.marking c todo)
        [.lock (.released t id)]
  | marked {c} : PrepareMove t m (.marking c []) m (.removing c c.chunksToCheck []) []
  | remove {c id todo kept} (h : m.isCached id = true) :
      PrepareMove t m (.removing c (id :: todo) kept) m (.removing c todo kept) []
  | keep {c id todo kept} :
      PrepareMove t m (.removing c (id :: todo) kept) m (.removing c todo (kept ++ [id])) []
  | removed {c kept} : PrepareMove t m (.removing c [] kept) m (.locking c kept) []
  | lock {c id todo} (hfree : m.mtx id = none) :
      PrepareMove t m (.locking c (id :: todo)) (m.lock t id) (.asserting c id todo)
        [.lock (.taken t id)]
  | check {c id todo} (h : m.isCached id = true) :
      PrepareMove t m (.asserting c id todo) m (.leaving c id todo) []
  | abort {c id todo} (h : m.isCached id = false) :
      PrepareMove t m (.asserting c id todo) m .aborted []
  | leave {c id todo} :
      PrepareMove t m (.leaving c id todo) (m.unlock id) (.locking c todo)
        [.lock (.released t id)]
  | returned {c} : PrepareMove t m (.locking c []) m .idle [.returned t c.chunkKeys]

/-- A step moves thread `t` and no other. -/
structure Moves (t : ℕ) (s s' : PrepareSystem Val) (o : List PrepareEvent) : Prop where
  move : PrepareMove t s.model (s.threads t) s'.model (s'.threads t) o
  others : ∀ t' ≠ t, s'.threads t' = s.threads t'

/-- A step moves one thread, or changes one cached chunk. -/
inductive PrepareStepOf (s s' : PrepareSystem Val) (o : List PrepareEvent) : Prop
  | move (t : ℕ) (h : Moves t s s' o)
  | update (id : ℕ) (hcached : s.model.isCached id = true)
      (hparams : ∀ id' ≠ id, s'.model.params id' = s.model.params id')
      (hflags : s'.model.isCached = s.model.isCached) (hmtx : s'.model.mtx = s.model.mtx)
      (hthreads : s'.threads = s.threads) (hout : o = [])

section Inversion

variable {s s' : PrepareSystem Val} {o : List PrepareEvent}

private theorem moves_set {t : ℕ} {phase phase' : PreparePhase} {m : ChunkBasedMTModel Val}
    (hphase : s.threads t = phase) (h : PrepareMove t s.model phase m phase' o) :
    Moves t s (s.set t m phase') o := by
  refine ⟨?_, fun t' hne => Function.update_of_ne hne _ _⟩
  simpa only [PrepareSystem.set, Function.update_self, hphase] using h

theorem prepare_moves {t : ℕ} (h : prepare s t = some (s', o)) : Moves t s s' o := by
  unfold prepare at h
  split at h
  · cases h
  · cases h
  · cases h
  · next c current id todo hphase =>
      split at h
      · split at h
        · obtain ⟨rfl, rfl⟩ := Prod.mk.inj (Option.some.inj h)
          exact moves_set hphase .miss
        · next hsame =>
            obtain ⟨rfl, rfl⟩ := Prod.mk.inj (Option.some.inj h)
            exact moves_set hphase (.skip (.inr (not_not.mp hsame)))
      · next hcached =>
          obtain ⟨rfl, rfl⟩ := Prod.mk.inj (Option.some.inj h)
          exact moves_set hphase (.skip (.inl (Bool.not_eq_false _ ▸ hcached)))
  · next c id todo hphase =>
      split at h
      · next hfree =>
          obtain ⟨rfl, rfl⟩ := Prod.mk.inj (Option.some.inj h)
          exact moves_set hphase (.tryLock hfree)
      · next hheld =>
          obtain ⟨rfl, rfl⟩ := Prod.mk.inj (Option.some.inj h)
          exact moves_set hphase (.defer hheld)
  · next c id todo hphase =>
      split at h
      · next hmissing =>
          obtain ⟨rfl, rfl⟩ := Prod.mk.inj (Option.some.inj h)
          exact moves_set hphase (.collect hmissing)
      · next hcached =>
          obtain ⟨rfl, rfl⟩ := Prod.mk.inj (Option.some.inj h)
          exact moves_set hphase (.late (Bool.not_eq_false _ ▸ hcached))
  · next c id todo hphase =>
      obtain ⟨rfl, rfl⟩ := Prod.mk.inj (Option.some.inj h)
      exact moves_set hphase .release
  · next c current hphase =>
      split at h
      · obtain ⟨rfl, rfl⟩ := Prod.mk.inj (Option.some.inj h)
        exact moves_set hphase .fetch
      · next hnone =>
          obtain ⟨rfl, rfl⟩ := Prod.mk.inj (Option.some.inj h)
          exact moves_set hphase (.noFetch (List.length_eq_zero_iff.mp (by omega)))
  · next c id todo hphase =>
      obtain ⟨rfl, rfl⟩ := Prod.mk.inj (Option.some.inj h)
      exact moves_set hphase .mark
  · next c id todo hphase =>
      obtain ⟨rfl, rfl⟩ := Prod.mk.inj (Option.some.inj h)
      exact moves_set hphase .unlock
  · next c hphase =>
      obtain ⟨rfl, rfl⟩ := Prod.mk.inj (Option.some.inj h)
      exact moves_set hphase .marked
  · next c id todo kept hphase =>
      split at h
      · next hcached =>
          obtain ⟨rfl, rfl⟩ := Prod.mk.inj (Option.some.inj h)
          exact moves_set hphase (.remove hcached)
      · obtain ⟨rfl, rfl⟩ := Prod.mk.inj (Option.some.inj h)
        exact moves_set hphase .keep
  · next c kept hphase =>
      obtain ⟨rfl, rfl⟩ := Prod.mk.inj (Option.some.inj h)
      exact moves_set hphase .removed
  · next c id todo hphase =>
      split at h
      · next hfree =>
          obtain ⟨rfl, rfl⟩ := Prod.mk.inj (Option.some.inj h)
          exact moves_set hphase (.lock hfree)
      · cases h
  · next c id todo hphase =>
      split at h
      · next hcached =>
          obtain ⟨rfl, rfl⟩ := Prod.mk.inj (Option.some.inj h)
          exact moves_set hphase (.check hcached)
      · next hmissing =>
          obtain ⟨rfl, rfl⟩ := Prod.mk.inj (Option.some.inj h)
          exact moves_set hphase (.abort (Bool.not_eq_true _ ▸ hmissing))
  · next c id todo hphase =>
      obtain ⟨rfl, rfl⟩ := Prod.mk.inj (Option.some.inj h)
      exact moves_set hphase .leave
  · next c hphase =>
      obtain ⟨rfl, rfl⟩ := Prod.mk.inj (Option.some.inj h)
      exact moves_set hphase .returned

/-- The reply to a fetch moves the thread that waits for it. -/
theorem deliver_moves {t : ℕ} {chunks : List (List Val)}
    (h : prepareStep s (.deliver t chunks) = some (s', o)) : Moves t s s' o := by
  simp only [prepareStep] at h
  split at h
  · next c hphase =>
      split at h
      · obtain ⟨rfl, rfl⟩ := Prod.mk.inj (Option.some.inj h)
        exact moves_set hphase .deliver
      · cases h
  · cases h

/-- **What a step does.** -/
theorem prepareStep_stepOf {i : PrepareInput Val} (h : prepareStep s i = some (s', o)) :
    PrepareStepOf s s' o := by
  cases i with
  | call t keys =>
      simp only [prepareStep] at h
      split at h
      · next hphase =>
          obtain ⟨rfl, rfl⟩ := Prod.mk.inj (Option.some.inj h)
          exact .move t (moves_set hphase .call)
      · cases h
  | proceed t => exact .move t (prepare_moves h)
  | deliver t chunks => exact .move t (deliver_moves h)
  | update id chunk =>
      simp only [prepareStep] at h
      split at h
      · next hcached =>
          obtain ⟨rfl, rfl⟩ := Prod.mk.inj (Option.some.inj h)
          exact .update id hcached (fun id' hne => Function.update_of_ne hne _ _) rfl rfl rfl rfl
      · cases h

end Inversion

/-! ## What a thread holds -/

namespace PreparePhase

/-- The mutexes that the thread holds. -/
def held : PreparePhase → List ℕ
  | collecting c _ _ | trying c _ _ => c.chunksToFetch
  | rechecking c id _ | releasing c id _ => c.chunksToFetch ++ [id]
  | fetching c => c.chunksToFetch
  | marking _ todo => todo
  | unlocking _ id todo => id :: todo
  | asserting _ id _ | leaving _ id _ => [id]
  | idle | removing _ _ _ | locking _ _ | aborted => []

/-- The chunks that the thread has locked in order to fetch them, and that are not yet cached. -/
def missing : PreparePhase → List ℕ
  | collecting c _ _ | trying c _ _ | rechecking c _ _ | releasing c _ _ | fetching c =>
      c.chunksToFetch
  | marking _ todo | unlocking _ _ todo => todo
  | idle | removing _ _ _ | locking _ _ | asserting _ _ _ | leaving _ _ _ | aborted => []

/-- The chunks that the thread has asked the servers for, and that are not yet cached. -/
def requested : PreparePhase → List ℕ
  | fetching c => c.chunksToFetch
  | marking _ todo | unlocking _ _ todo => todo
  | _ => []

/-- The chunks that another thread was found to have locked. -/
def deferred : PreparePhase → List ℕ
  | collecting c _ _ | trying c _ _ | rechecking c _ _ | releasing c _ _ | fetching c
  | marking c _ | unlocking c _ _ => c.chunksToCheck
  | removing _ todo kept => todo ++ kept
  | locking _ todo => todo
  | asserting _ id todo | leaving _ id todo => id :: todo
  | idle | aborted => []

/-- The chunks that the thread has not looked at. -/
def todo : PreparePhase → List ℕ
  | collecting _ _ todo => todo
  | trying _ id todo | rechecking _ id todo | releasing _ id todo => id :: todo
  | _ => []

/-- The locked chunk that the thread knows to be cached: it has seen or marked it so, or has waited
for its lock. -/
def settled : PreparePhase → List ℕ
  | releasing _ id _ | unlocking _ id _ | asserting _ id _ | leaving _ id _ => [id]
  | _ => []

/-- The chunks of the call. -/
def keys : PreparePhase → List ℕ
  | collecting c _ _ | trying c _ _ | rechecking c _ _ | releasing c _ _ | fetching c
  | marking c _ | unlocking c _ _ | removing c _ _ | locking c _ | asserting c _ _
  | leaving c _ _ => c.chunkKeys
  | idle | aborted => []

/-- The chunk that the loop has just visited. -/
def current : PreparePhase → Option ℕ
  | collecting _ current _ => current
  | _ => none

theorem missing_sublist_held (phase : PreparePhase) : phase.missing.Sublist phase.held := by
  cases phase with
  | rechecking c id todo => exact List.sublist_append_left _ _
  | releasing c id todo => exact List.sublist_append_left _ _
  | unlocking c id todo => exact List.sublist_cons_self _ _
  | _ => first | exact List.Sublist.refl _ | exact List.nil_sublist _

theorem requested_subset_missing (phase : PreparePhase) : phase.requested ⊆ phase.missing := by
  cases phase <;> first | exact List.Subset.refl _ | exact List.nil_subset _

end PreparePhase

/-- What is seen of the mutexes. -/
def PrepareEvent.lockEvent : PrepareEvent → Option (LockEvent ℕ ℕ)
  | lock e => some e
  | _ => none

/-- The takes and releases of mutexes in a history. -/
def lockEvents (history : List PrepareEvent) : List (LockEvent ℕ ℕ) :=
  history.filterMap PrepareEvent.lockEvent

/-- The chunks that an event asks the servers for. -/
def PrepareEvent.fetches : PrepareEvent → List ℕ
  | fetched _ ids => ids
  | _ => []

/-- The chunks fetched in a history, with repetitions. -/
def fetches (history : List PrepareEvent) : List ℕ := history.flatMap PrepareEvent.fetches

@[simp] theorem lockEvents_append (history o : List PrepareEvent) :
    lockEvents (history ++ o) = lockEvents history ++ lockEvents o :=
  List.filterMap_append

@[simp] theorem fetches_append (history o : List PrepareEvent) :
    fetches (history ++ o) = fetches history ++ fetches o :=
  List.flatMap_append

/-! ## One move -/

/-- The chunk is cached, or locked by a thread that leaves it cached. -/
def ChunkBasedMTModel.Claimed (m : ChunkBasedMTModel Val) (id : ℕ) : Prop :=
  m.isCached id = true ∨ m.mtx id ≠ none

/-- What a thread can rely on. -/
structure PreparePhase.Sound (m : ChunkBasedMTModel Val) (phase : PreparePhase) : Prop where
  alive : phase ≠ .aborted
  settled : ∀ id ∈ phase.settled, m.isCached id = true
  deferred : ∀ id ∈ phase.deferred, m.Claimed id
  covers : ∀ id ∈ phase.keys,
    m.isCached id = true ∨ id ∈ phase.missing ∨ id ∈ phase.deferred ∨ id ∈ phase.todo
  current : ∀ id, phase.current = some id →
    m.isCached id = true ∨ id ∈ phase.missing ∨ id ∈ phase.deferred

/-- How thread `t` may change the shared data under the others. -/
structure ChunkBasedMTModel.Later (t : ℕ) (m m' : ChunkBasedMTModel Val) : Prop where
  cached : ∀ id, m.isCached id = true → m'.isCached id = true
  claimed : ∀ id, m.Claimed id → m'.Claimed id
  /-- A chunk becomes cached under the lock. -/
  locked : ∀ id, m.mtx id ≠ some t → m'.isCached id = m.isCached id

theorem PreparePhase.Sound.later {t : ℕ} {m m' : ChunkBasedMTModel Val} {phase : PreparePhase}
    (h : phase.Sound m) (hlater : m.Later t m') : phase.Sound m' where
  alive := h.alive
  settled id hid := hlater.cached id (h.settled id hid)
  deferred id hid := hlater.claimed id (h.deferred id hid)
  covers id hid := (h.covers id hid).imp_left (hlater.cached id)
  current id hid := (h.current id hid).imp_left (hlater.cached id)

section Move

variable {t : ℕ} {m m' : ChunkBasedMTModel Val} {phase phase' : PreparePhase}
  {o : List PrepareEvent}

open ChunkBasedMTModel

/-- A move takes or releases at most one mutex. -/
theorem PrepareMove.mutexStep (h : PrepareMove t m phase m' phase' o) (hsound : phase.Sound m) :
    MutexStep t m.mtx phase.held m'.mtx phase'.held (lockEvents o) := by
  cases h with
  | tryLock hfree => exact .take hfree (List.perm_append_singleton _ _)
  | release => exact .release (List.perm_append_singleton _ _)
  | noFetch hnone =>
      simp only [PreparePhase.held, hnone]
      exact .keep
  | unlock => exact .release (List.Perm.refl _)
  | lock hfree => exact .take hfree (List.Perm.refl _)
  | abort hmissing =>
      have hcached := hsound.settled _ (List.mem_singleton_self _)
      rw [hmissing] at hcached
      cases hcached
  | leave => exact .release (List.Perm.refl _)
  | _ => exact .keep

theorem later_refl (t : ℕ) (m : ChunkBasedMTModel Val) : m.Later t m :=
  ⟨fun _ h => h, fun _ h => h, fun _ _ => rfl⟩

theorem later_lock (m : ChunkBasedMTModel Val) (t id : ℕ) : m.Later t (m.lock t id) := by
  refine ⟨fun _ h => h, fun id' h => ?_, fun _ _ => rfl⟩
  by_cases hid : id' = id
  · right
    simp [lock, hid]
  · simpa [Claimed, lock, Function.update_of_ne hid] using h

/-- A chunk is unlocked when it is cached. -/
theorem later_unlock {m : ChunkBasedMTModel Val} {id : ℕ} (hcached : m.isCached id = true)
    (t : ℕ) : m.Later t (m.unlock id) := by
  refine ⟨fun _ h => h, fun id' h => ?_, fun _ _ => rfl⟩
  by_cases hid : id' = id
  · exact .inl (hid ▸ hcached)
  · simpa [Claimed, unlock, Function.update_of_ne hid] using h

theorem later_cache {m : ChunkBasedMTModel Val} {t id : ℕ} (hheld : m.mtx id = some t) :
    m.Later t (m.cache id) := by
  have hmono : ∀ id', m.isCached id' = true → (m.cache id).isCached id' = true := by
    intro id' h
    by_cases hid : id' = id
    · simp [cache, hid]
    · simpa [cache, Function.update_of_ne hid] using h
  refine ⟨hmono, fun id' h => h.imp_left (hmono id'), fun id' hother => ?_⟩
  have hid : id' ≠ id := by
    rintro rfl
    exact hother hheld
  exact Function.update_of_ne hid _ _

theorem PrepareMove.later (h : PrepareMove t m phase m' phase' o) (hsound : phase.Sound m)
    (hheld : ∀ id ∈ phase.held, m.mtx id = some t) : m.Later t m' := by
  cases h with
  | tryLock => exact later_lock m t _
  | release => exact later_unlock (hsound.settled _ (List.mem_singleton_self _)) t
  | deliver => exact ⟨fun _ h => h, fun _ h => h, fun _ _ => rfl⟩
  | mark => exact later_cache (hheld _ (List.mem_cons_self ..))
  | unlock => exact later_unlock (hsound.settled _ (List.mem_singleton_self _)) t
  | lock => exact later_lock m t _
  | leave => exact later_unlock (hsound.settled _ (List.mem_singleton_self _)) t
  | _ => exact later_refl t m

/-- Nothing is known about a thread that is in no call. -/
theorem sound_idle (m : ChunkBasedMTModel Val) : PreparePhase.Sound m .idle where
  alive := by simp
  settled := by simp [PreparePhase.settled]
  deferred := by simp [PreparePhase.deferred]
  covers := by simp [PreparePhase.keys]
  current := by simp [PreparePhase.current]

/-- What a move guarantees of its own thread. -/
theorem PrepareMove.sound (h : PrepareMove t m phase m' phase' o) (hsound : phase.Sound m)
    (hlater : m.Later t m') : phase'.Sound m' := by
  have hkept := hsound.later hlater
  obtain ⟨halive, hsettled, hdeferred, hcovers, hcurrent⟩ := hkept
  simp only [PreparePhase.settled, PreparePhase.deferred, PreparePhase.keys, PreparePhase.missing,
    PreparePhase.todo, PreparePhase.current] at hsettled hdeferred hcovers hcurrent
  cases h with
  | call =>
      refine ⟨by simp, by simp [PreparePhase.settled], by simp [PreparePhase.deferred,
        PrepareCall.new], fun id hid => ?_, by simp [PreparePhase.current]⟩
      exact .inr (.inr (.inr hid))
  | @skip c current id todo hskip =>
      have hid : m.isCached id = true ∨ id ∈ c.chunksToFetch ∨ id ∈ c.chunksToCheck :=
        hskip.elim .inl fun heq => hcurrent id heq
      refine ⟨by simp, by simp [PreparePhase.settled], hdeferred, fun id' hid' => ?_,
        fun id' heq => Option.some.inj heq ▸ hid⟩
      rcases hcovers id' hid' with h | h | h | h
      · exact .inl h
      · exact .inr (.inl h)
      · exact .inr (.inr (.inl h))
      · rcases List.mem_cons.mp h with rfl | h
        · rcases hid with h | h | h
          · exact .inl h
          · exact .inr (.inl h)
          · exact .inr (.inr (.inl h))
        · exact .inr (.inr (.inr h))
  | miss => exact ⟨by simp, by simp [PreparePhase.settled], hdeferred, hcovers, by simp
      [PreparePhase.current]⟩
  | tryLock => exact ⟨by simp, by simp [PreparePhase.settled], hdeferred, hcovers, by simp
      [PreparePhase.current]⟩
  | @defer c id todo hheld =>
      refine ⟨by simp, by simp [PreparePhase.settled], fun id' hid' => ?_, fun id' hid' => ?_,
        fun id' heq => ?_⟩
      · rcases List.mem_append.mp hid' with hid' | hid'
        · exact hdeferred id' hid'
        · exact .inr (List.mem_singleton.mp hid' ▸ hheld)
      · simp only [PreparePhase.missing, PreparePhase.deferred, PreparePhase.todo,
          PrepareCall.pushCheck, List.mem_append, List.mem_singleton]
        have := hcovers id' hid'
        rw [List.mem_cons] at this
        tauto
      · obtain rfl := Option.some.inj heq
        exact .inr (.inr (List.mem_append_right _ (List.mem_singleton_self _)))
  | @collect c id todo hmissing =>
      refine ⟨by simp, by simp [PreparePhase.settled], hdeferred, fun id' hid' => ?_,
        fun id' heq => ?_⟩
      · simp only [PreparePhase.missing, PreparePhase.deferred, PreparePhase.todo,
          PrepareCall.pushFetch, List.mem_append, List.mem_singleton]
        have := hcovers id' hid'
        rw [List.mem_cons] at this
        tauto
      · obtain rfl := Option.some.inj heq
        exact .inr (.inl (List.mem_append_right _ (List.mem_singleton_self _)))
  | @late c id todo hcached =>
      exact ⟨by simp, fun id' hid' => List.mem_singleton.mp hid' ▸ hcached, hdeferred, hcovers,
        by simp [PreparePhase.current]⟩
  | @release c id todo =>
      have hcached := hsettled id (List.mem_singleton_self _)
      refine ⟨by simp, by simp [PreparePhase.settled], hdeferred, fun id' hid' => ?_,
        fun id' heq => Option.some.inj heq ▸ .inl hcached⟩
      rcases hcovers id' hid' with h | h | h | h
      · exact .inl h
      · exact .inr (.inl h)
      · exact .inr (.inr (.inl h))
      · rcases List.mem_cons.mp h with rfl | h
        · exact .inl hcached
        · exact .inr (.inr (.inr h))
  | fetch =>
      refine ⟨by simp, by simp [PreparePhase.settled], hdeferred, fun id' hid' => ?_,
        by simp [PreparePhase.current]⟩
      have := hcovers id' hid'
      tauto
  | noFetch hnone =>
      refine ⟨by simp, by simp [PreparePhase.settled], fun id' hid' => ?_, fun id' hid' => ?_,
        by simp [PreparePhase.current]⟩
      · exact hdeferred id' (by simpa [PreparePhase.deferred] using hid')
      · have := hcovers id' hid'
        simp only [PreparePhase.missing, PreparePhase.deferred, PreparePhase.todo, hnone,
          List.append_nil, List.not_mem_nil] at this ⊢
        tauto
  | deliver =>
      exact ⟨by simp, by simp [PreparePhase.settled], hdeferred, hcovers, by simp
        [PreparePhase.current]⟩
  | @mark c id todo =>
      have hcached : (m.cache id).isCached id = true := Function.update_self ..
      refine ⟨by simp, fun id' hid' => List.mem_singleton.mp hid' ▸ hcached, hdeferred,
        fun id' hid' => ?_, by simp [PreparePhase.current]⟩
      rcases hcovers id' hid' with h | h | h
      · exact .inl h
      · rcases List.mem_cons.mp h with rfl | h
        · exact .inl hcached
        · exact .inr (.inl h)
      · exact .inr (.inr h)
  | unlock =>
      exact ⟨by simp, by simp [PreparePhase.settled], hdeferred, hcovers, by simp
        [PreparePhase.current]⟩
  | marked =>
      refine ⟨by simp, by simp [PreparePhase.settled], fun id' hid' => ?_, fun id' hid' => ?_,
        by simp [PreparePhase.current]⟩
      · exact hdeferred id' (by simpa [PreparePhase.deferred] using hid')
      · simpa [PreparePhase.missing, PreparePhase.deferred, PreparePhase.todo] using
          hcovers id' hid'
  | @remove c id todo kept hcached =>
      refine ⟨by simp, by simp [PreparePhase.settled],
        fun id' hid' => hdeferred id' (List.mem_cons_of_mem _ hid'), fun id' hid' => ?_,
        by simp [PreparePhase.current]⟩
      rcases hcovers id' hid' with h | h | h | h
      · exact .inl h
      · cases h
      · rcases List.mem_cons.mp h with rfl | h
        · exact .inl hcached
        · exact .inr (.inr (.inl h))
      · cases h
  | @keep c id todo kept =>
      have hmem : ∀ id', id' ∈ todo ++ (kept ++ [id]) ↔ id' ∈ id :: todo ++ kept := by
        intro id'
        simp only [List.mem_append, List.mem_cons, List.not_mem_nil]
        tauto
      refine ⟨by simp, by simp [PreparePhase.settled],
        fun id' hid' => hdeferred id' ((hmem id').mp hid'), fun id' hid' => ?_,
        by simp [PreparePhase.current]⟩
      exact (hcovers id' hid').imp_right (.imp_right (.imp_left (hmem id').mpr))
  | removed => exact ⟨by simp, by simp [PreparePhase.settled], hdeferred, hcovers, by simp
      [PreparePhase.current]⟩
  | @lock c id todo hfree =>
      -- who has unlocked the chunk has left it cached
      have hcached : m.isCached id = true :=
        (hsound.deferred id (List.mem_cons_self ..)).resolve_right (not_not.mpr hfree)
      exact ⟨by simp, fun id' hid' => List.mem_singleton.mp hid' ▸ hcached, hdeferred, hcovers,
        by simp [PreparePhase.current]⟩
  | check => exact ⟨by simp, hsettled, hdeferred, hcovers, by simp [PreparePhase.current]⟩
  | @abort c id todo hmissing =>
      have hcached := hsettled id (List.mem_singleton_self _)
      rw [hmissing] at hcached
      cases hcached
  | @leave c id todo =>
      have hcached := hsettled id (List.mem_singleton_self _)
      refine ⟨by simp, by simp [PreparePhase.settled],
        fun id' hid' => hdeferred id' (List.mem_cons_of_mem _ hid'), fun id' hid' => ?_,
        by simp [PreparePhase.current]⟩
      rcases hcovers id' hid' with h | h | h | h
      · exact .inl h
      · cases h
      · rcases List.mem_cons.mp h with rfl | h
        · exact .inl hcached
        · exact .inr (.inr (.inl h))
      · cases h
  | returned => exact sound_idle m

/-- What a thread is to fetch stays missing until the thread itself marks it. -/
theorem PrepareMove.missing (h : PrepareMove t m phase m' phase' o) (hnodup : phase.held.Nodup)
    (hmissing : ∀ id ∈ phase.missing, m.isCached id = false) :
    ∀ id ∈ phase'.missing, m'.isCached id = false := by
  cases h with
  | collect h =>
      intro id' hid'
      rcases List.mem_append.mp hid' with hid' | hid'
      · exact hmissing id' hid'
      · exact List.mem_singleton.mp hid' ▸ h
  | @mark c id todo =>
      intro id' hid'
      have hne : id' ≠ id := fun heq => (List.nodup_cons.mp hnodup).1 (heq ▸ hid')
      exact (Function.update_of_ne hne _ _).trans (hmissing id' (List.mem_cons_of_mem _ hid'))
  | call => simp [PreparePhase.missing, PrepareCall.new]
  | noFetch => simp [PreparePhase.missing]
  | marked => simp [PreparePhase.missing]
  | _ => exact hmissing

/-- What a thread has asked for becomes cached. -/
theorem PrepareMove.requested (h : PrepareMove t m phase m' phase' o) {id : ℕ}
    (hid : id ∈ phase.requested) : m'.isCached id = true ∨ id ∈ phase'.requested := by
  cases h with
  | deliver => exact .inr hid
  | @mark c id' todo =>
      rcases List.mem_cons.mp hid with rfl | hid
      · exact .inl (Function.update_self ..)
      · exact .inr hid
  | unlock => exact .inr hid
  | _ => cases hid

/-- What a move asks the servers for is missing, and was not asked for by the thread before. -/
theorem PrepareMove.fetches (h : PrepareMove t m phase m' phase' o) :
    ML.fetches o = [] ∨
      (ML.fetches o = phase.missing ∧ phase.requested = [] ∧ phase'.requested = phase.missing) := by
  cases h with
  | fetch => exact .inr ⟨by simp [ML.fetches, PrepareEvent.fetches, PreparePhase.missing], rfl, rfl⟩
  | _ => exact .inl rfl

/-- When a call returns its chunks are cached. -/
theorem PrepareMove.cached_of_returned (h : PrepareMove t m phase m' phase' o) (hsound : phase.Sound m)
    {t' : ℕ} {keys : List ℕ} (hmem : .returned t' keys ∈ o) :
    ∀ id ∈ keys, m.isCached id = true := by
  cases h with
  | returned =>
      obtain ⟨-, rfl⟩ := PrepareEvent.returned.inj (List.mem_singleton.mp hmem)
      intro id hid
      exact (hsound.covers id hid).resolve_right (by simp [PreparePhase.missing,
        PreparePhase.deferred, PreparePhase.todo])
  | _ => simp at hmem

theorem receive_params_of_not_mem (m : ChunkBasedMTModel Val) (chunks : List (ℕ × List Val))
    {id : ℕ} (hid : id ∉ chunks.map Prod.fst) : (m.receive chunks).params id = m.params id :=
  assign_of_not_mem hid

/-- A fetch writes to no chunk that is cached. -/
theorem PrepareMove.params (h : PrepareMove t m phase m' phase' o)
    (hmissing : ∀ id ∈ phase.missing, m.isCached id = false) {id : ℕ}
    (hcached : m.isCached id = true) : m'.params id = m.params id := by
  cases h with
  | @deliver c chunks =>
      apply receive_params_of_not_mem
      intro hid
      obtain ⟨p, hp, rfl⟩ := List.mem_map.mp hid
      have hfalse := hmissing p.1 (List.of_mem_zip hp).1
      rw [hcached] at hfalse
      cases hfalse
  | _ => rfl

end Move

/-! ## The invariant -/

/-- What holds in every state that a run reaches from a model whose chunks `start` are cached. -/
structure PrepareInv (start : ℕ → Bool) (history : List PrepareEvent) (s : PrepareSystem Val) :
    Prop where
  owned : Owned s.model.mtx fun t => (s.threads t).held
  lawful : Lawful (lockEvents history)
  holders : holders (lockEvents history) = s.model.mtx
  sound : ∀ t, (s.threads t).Sound s.model
  missing : ∀ t, ∀ id ∈ (s.threads t).missing, s.model.isCached id = false
  loaded : ∀ id, start id = true → s.model.isCached id = true
  nodup : (fetches history).Nodup
  /-- A chunk that was fetched is cached, or a thread that has asked for it holds its lock. -/
  fetched : ∀ id ∈ fetches history,
    start id = false ∧ (s.model.isCached id = true ∨ ∃ t, id ∈ (s.threads t).requested)
  returned : ∀ t keys, .returned t keys ∈ history → ∀ id ∈ keys, s.model.isCached id = true

theorem prepareInv_loaded (params : ℕ → List Val) (isCached : ℕ → Bool) :
    PrepareInv isCached [] (.loaded params isCached) where
  owned := owned_free
  lawful := lawful_nil
  holders := rfl
  sound _ := sound_idle _
  missing _ _ h := absurd h List.not_mem_nil
  loaded _ h := h
  nodup := List.nodup_nil
  fetched _ h := absurd h List.not_mem_nil
  returned _ _ h := absurd h List.not_mem_nil

section Step

variable {start : ℕ → Bool} {s s' : PrepareSystem Val} {history o : List PrepareEvent} {t : ℕ}

/-- What a thread may rely on while another one moves. -/
theorem Moves.later (h : Moves t s s' o) (hinv : PrepareInv start history s) :
    s.model.Later t s'.model :=
  h.move.later (hinv.sound t) fun id hid => (hinv.owned.mem t id).mpr hid

/-- **A move keeps the invariant.** -/
theorem prepareInv_move (hinv : PrepareInv start history s)
    (hmoves : Moves t s s' o) : PrepareInv start (history ++ o) s' := by
  have hlater := hmoves.later hinv
  obtain ⟨h, hothers⟩ := hmoves
  have hheld : ∀ id ∈ (s.threads t).held, s.model.mtx id = some t :=
    fun id hid => (hinv.owned.mem t id).mpr hid
  have hmutex := h.mutexStep (hinv.sound t)
  have howned : Owned s'.model.mtx fun t => (s'.threads t).held :=
    MutexStep.owned hmutex hinv.owned fun t' ht => by rw [hothers t' ht]
  obtain ⟨hlawful, hholders⟩ := hmutex.lawful hinv.lawful hinv.holders hheld
  rw [← lockEvents_append] at hlawful hholders
  -- what the thread asks for is missing, so nobody has asked for it
  have hnew : ∀ id ∈ fetches o, id ∉ fetches history ∧ start id = false ∧
      id ∈ (s'.threads t).requested := by
    intro id hid
    rcases h.fetches with hnil | ⟨heq, hnone, hrequested⟩
    · rw [hnil] at hid
      cases hid
    · rw [heq] at hid
      have hfalse := hinv.missing t id hid
      refine ⟨fun hold => ?_, ?_, hrequested ▸ hid⟩
      · rcases (hinv.fetched id hold).2 with hcached | ⟨t', ht'⟩
        · rw [hfalse] at hcached
          cases hcached
        · have hmtx := (hinv.owned.mem t' id).mpr
            ((s.threads t').missing_sublist_held.subset ((s.threads t').requested_subset_missing ht'))
          have hmtx' := hheld id ((s.threads t).missing_sublist_held.subset hid)
          obtain rfl := Option.some.inj (hmtx.symm.trans hmtx')
          rw [hnone] at ht'
          cases ht'
      · by_contra hstart
        rw [hinv.loaded id (Bool.not_eq_false _ ▸ hstart)] at hfalse
        cases hfalse
  refine ⟨howned, hlawful, hholders, fun t' => ?_, fun t' => ?_,
    fun id hid => hlater.cached id (hinv.loaded id hid), ?_, fun id hid => ?_,
    fun t' keys hmem id hid => ?_⟩
  · by_cases ht : t' = t
    · subst ht
      exact h.sound (hinv.sound t') hlater
    · rw [hothers t' ht]
      exact (hinv.sound t').later hlater
  · by_cases ht : t' = t
    · subst ht
      exact h.missing (hinv.owned.nodup t') (hinv.missing t')
    · rw [hothers t' ht]
      intro id hid
      have hmtx := (hinv.owned.mem t' id).mpr ((s.threads t').missing_sublist_held.subset hid)
      rw [hlater.locked id (by rw [hmtx]; simpa using ht)]
      exact hinv.missing t' id hid
  · rw [fetches_append, List.nodup_append']
    refine ⟨hinv.nodup, ?_, fun id hid hid' => (hnew id hid').1 hid⟩
    rcases h.fetches with hnil | ⟨heq, -, -⟩
    · rw [hnil]
      exact List.nodup_nil
    · rw [heq]
      exact (hinv.owned.nodup t).sublist (s.threads t).missing_sublist_held
  · rw [fetches_append, List.mem_append] at hid
    rcases hid with hid | hid
    · obtain ⟨hstart, hcached | ⟨t', ht'⟩⟩ := hinv.fetched id hid
      · exact ⟨hstart, .inl (hlater.cached id hcached)⟩
      · refine ⟨hstart, ?_⟩
        by_cases ht : t' = t
        · subst ht
          exact (h.requested ht').imp_right fun hmem => ⟨t', hmem⟩
        · exact .inr ⟨t', by rwa [hothers t' ht]⟩
    · obtain ⟨-, hstart, hrequested⟩ := hnew id hid
      exact ⟨hstart, .inr ⟨t, hrequested⟩⟩
  · rcases List.mem_append.mp hmem with hmem | hmem
    · exact hlater.cached id (hinv.returned t' keys hmem id hid)
    · exact hlater.cached id (h.cached_of_returned (hinv.sound t) hmem id hid)

/-- **A step keeps the invariant.** -/
theorem prepareInv_step (hinv : PrepareInv start history s) (h : PrepareStepOf s s' o) :
    PrepareInv start (history ++ o) s' := by
  cases h with
  | move t hmoves => exact prepareInv_move hinv hmoves
  | update id hcached hparams hflags hmtx hthreads hout =>
      subst hout
      rw [List.append_nil]
      have hclaimed : ∀ id, s.model.Claimed id → s'.model.Claimed id := by
        intro id h
        rwa [ChunkBasedMTModel.Claimed, hflags, hmtx]
      have hlater : s.model.Later 0 s'.model :=
        ⟨fun id h => by rwa [hflags], hclaimed, fun id _ => by rw [hflags]⟩
      constructor
      · rw [hthreads, hmtx]
        exact hinv.owned
      · exact hinv.lawful
      · rw [hmtx]
        exact hinv.holders
      · intro t'
        rw [hthreads]
        exact (hinv.sound t').later hlater
      · rw [hthreads, hflags]
        exact hinv.missing
      · rw [hflags]
        exact hinv.loaded
      · exact hinv.nodup
      · rw [hthreads, hflags]
        exact hinv.fetched
      · rw [hflags]
        exact hinv.returned

end Step

/-- **The invariant holds in every run.** -/
theorem prepareInv_run {params : ℕ → List Val} {isCached : ℕ → Bool} {s : PrepareSystem Val}
    {is : List (PrepareInput Val)} {out : List PrepareEvent}
    (h : run prepareStep (.loaded params isCached) is = some (s, out)) :
    PrepareInv isCached out s := by
  have hrun := run_along (I := fun out s => PrepareInv isCached out s) ?_
    (prepareInv_loaded params isCached) (along_of_forall (fun _ _ => trivial) _ _) h
  · rwa [List.nil_append] at hrun
  · exact fun hinv _ hstep => prepareInv_step hinv (prepareStep_stepOf hstep)

/-! ## Progress -/

/-- An upper bound of the steps that the thread has before it. -/
def PreparePhase.work : PreparePhase → ℕ
  | collecting c _ todo =>
      8 * todo.length + 2 * c.chunksToFetch.length + 4 * c.chunksToCheck.length + 6
  | trying c _ todo =>
      8 * todo.length + 2 * c.chunksToFetch.length + 4 * c.chunksToCheck.length + 13
  | rechecking c _ todo =>
      8 * todo.length + 2 * c.chunksToFetch.length + 4 * c.chunksToCheck.length + 12
  | releasing c _ todo =>
      8 * todo.length + 2 * c.chunksToFetch.length + 4 * c.chunksToCheck.length + 11
  | fetching c => 2 * c.chunksToFetch.length + 4 * c.chunksToCheck.length + 5
  | marking c todo => 2 * todo.length + 4 * c.chunksToCheck.length + 4
  | unlocking c _ todo => 2 * todo.length + 4 * c.chunksToCheck.length + 5
  | removing _ todo kept => 4 * todo.length + 3 * kept.length + 3
  | locking _ todo => 3 * todo.length + 2
  | asserting _ _ todo => 3 * todo.length + 4
  | leaving _ _ todo => 3 * todo.length + 3
  | idle | aborted => 0

/-- A thread inside a call comes closer to its end with every step. -/
theorem PrepareMove.work_lt {t : ℕ} {m m' : ChunkBasedMTModel Val} {phase phase' : PreparePhase}
    {o : List PrepareEvent} (h : PrepareMove t m phase m' phase' o) (hcall : phase ≠ .idle) :
    phase'.work < phase.work := by
  cases h <;>
    simp only [PreparePhase.work, PrepareCall.pushFetch, PrepareCall.pushCheck, List.length_append,
      List.length_cons, List.length_nil] <;>
    first | omega | exact absurd rfl hcall

/-- The input lets thread `t` go on with its call. -/
def PrepareInput.Continues (t : ℕ) : PrepareInput Val → Prop
  | proceed t' => t' = t
  | deliver t' _ => t' = t
  | _ => False

section Progress

variable {s s' : PrepareSystem Val} {o : List PrepareEvent} {t : ℕ}

/-- A step of a thread inside its call. -/
theorem moves_of_continues {i : PrepareInput Val} (hi : i.Continues t)
    (h : prepareStep s i = some (s', o)) : Moves t s s' o ∧ s.threads t ≠ .idle := by
  cases i with
  | proceed t' =>
      obtain rfl : t' = t := hi
      refine ⟨prepare_moves h, fun hidle => ?_⟩
      simp [prepareStep, prepare, hidle] at h
  | deliver t' chunks =>
      obtain rfl : t' = t := hi
      refine ⟨deliver_moves h, fun hidle => ?_⟩
      simp [prepareStep, hidle] at h
  | _ => exact hi.elim

/-- A thread inside a call can go on, unless it waits for a lock that is held. -/
theorem continues_or_waits (hsound : (s.threads t).Sound s.model) (hcall : s.threads t ≠ .idle) :
    (∃ i : PrepareInput Val, i.Continues t ∧ (prepareStep s i).isSome) ∨
      ∃ c id todo, s.threads t = .locking c (id :: todo) ∧ s.model.mtx id ≠ none := by
  cases hphase : s.threads t with
  | idle => exact absurd hphase hcall
  | aborted => exact absurd hphase hsound.alive
  | fetching c =>
      refine .inl ⟨.deliver t (List.replicate c.chunksToFetch.length []), rfl, ?_⟩
      simp [prepareStep, hphase]
  | collecting c current todo =>
      refine .inl ⟨.proceed t, rfl, ?_⟩
      cases todo <;> simp only [prepareStep, prepare, hphase] <;> split <;>
        first | rfl | (split <;> rfl)
  | locking c todo =>
      cases todo with
      | nil => exact .inl ⟨.proceed t, rfl, by simp [prepareStep, prepare, hphase]⟩
      | cons id todo =>
          by_cases hfree : s.model.mtx id = none
          · exact .inl ⟨.proceed t, rfl, by simp [prepareStep, prepare, hphase, hfree]⟩
          · exact .inr ⟨c, id, todo, rfl, hfree⟩
  | marking c todo => exact .inl ⟨.proceed t, rfl, by cases todo <;> simp [prepareStep, prepare, hphase]⟩
  | removing c todo kept =>
      refine .inl ⟨.proceed t, rfl, ?_⟩
      cases todo <;> simp only [prepareStep, prepare, hphase] <;> first | rfl | (split <;> rfl)
  | _ =>
      refine .inl ⟨.proceed t, rfl, ?_⟩
      simp only [prepareStep, prepare, hphase]
      first | rfl | (split <;> rfl)

/-- A thread that holds a mutex does not wait for another. -/
theorem continues_of_held (hsound : (s.threads t).Sound s.model) (hheld : (s.threads t).held ≠ []) :
    ∃ i : PrepareInput Val, i.Continues t ∧ (prepareStep s i).isSome := by
  have hcall : s.threads t ≠ .idle := by
    intro hidle
    rw [hidle] at hheld
    exact hheld rfl
  rcases continues_or_waits hsound hcall with h | ⟨c, id, todo, hphase, -⟩
  · exact h
  · rw [hphase] at hheld
    exact absurd rfl hheld

/-- **Nobody is stuck**: while a thread is inside a call, some thread inside a call can go on. -/
theorem exists_continues {start : ℕ → Bool} {history : List PrepareEvent}
    (hinv : PrepareInv start history s) (hcall : s.threads t ≠ .idle) :
    ∃ t', ∃ i : PrepareInput Val, i.Continues t' ∧ (prepareStep s i).isSome := by
  rcases continues_or_waits (hinv.sound t) hcall with h | ⟨c, id, todo, -, hlocked⟩
  · exact ⟨t, h⟩
  · -- the holder of the lock can go on
    obtain ⟨t', ht'⟩ := Option.ne_none_iff_exists'.mp hlocked
    have hmem := (hinv.owned.mem t' id).mp ht'
    exact ⟨t', continues_of_held (hinv.sound t') (List.ne_nil_of_mem hmem)⟩

/-- A thread that goes on releases all that it holds, whatever the others do not do. -/
theorem exists_release {start : ℕ → Bool} {history : List PrepareEvent}
    (hinv : PrepareInv start history s) (t : ℕ) :
    ∃ (is : List (PrepareInput Val)) (s' : PrepareSystem Val) (out : List PrepareEvent),
      (∀ i ∈ is, i.Continues t) ∧ run prepareStep s is = some (s', out) ∧ (s'.threads t).held = [] := by
  generalize hwork : (s.threads t).work = work
  induction work using Nat.strongRecOn generalizing s history with
  | ind work ih =>
      by_cases hheld : (s.threads t).held = []
      · exact ⟨[], s, [], by simp, rfl, hheld⟩
      · obtain ⟨i, hi, hsome⟩ := continues_of_held (hinv.sound t) hheld
        obtain ⟨⟨s₁, o⟩, hstep⟩ := Option.isSome_iff_exists.mp hsome
        obtain ⟨hmoves, hcall⟩ := moves_of_continues hi hstep
        have hlt := hmoves.move.work_lt hcall
        obtain ⟨is, s', out, his, hrun, hnone⟩ :=
          ih _ (hwork ▸ hlt) (prepareInv_move hinv hmoves) rfl
        refine ⟨i :: is, s', o ++ out, List.forall_mem_cons.mpr ⟨hi, his⟩, ?_, hnone⟩
        rw [run_cons, hstep, Option.bind_some, hrun]
        rfl

end Progress

/-! ## Runs -/

/-- A cached chunk stays cached. -/
theorem cached_step {start : ℕ → Bool} {history o : List PrepareEvent}
    {s s' : PrepareSystem Val} (hinv : PrepareInv start history s) (h : PrepareStepOf s s' o)
    {id : ℕ} (hcached : s.model.isCached id = true) : s'.model.isCached id = true := by
  cases h with
  | move t hmoves => exact (hmoves.later hinv).cached id hcached
  | update id' _ _ hflags => rwa [hflags]

/-- A step changes a cached chunk only by an update of that chunk. -/
theorem params_of_cached {start : ℕ → Bool} {history o : List PrepareEvent}
    {s s' : PrepareSystem Val} {i : PrepareInput Val} (hinv : PrepareInv start history s)
    (h : prepareStep s i = some (s', o)) {id : ℕ} (hcached : s.model.isCached id = true)
    (hi : ∀ chunk, i ≠ .update id chunk) : s'.model.params id = s.model.params id := by
  cases i with
  | update id' chunk =>
      have hne : id ≠ id' := by
        rintro rfl
        exact hi chunk rfl
      simp only [prepareStep] at h
      split at h
      · obtain ⟨rfl, -⟩ := Prod.mk.inj (Option.some.inj h)
        exact Function.update_of_ne hne _ _
      · cases h
  | proceed t => exact (prepare_moves h).move.params (hinv.missing t) hcached
  | deliver t chunks => exact (deliver_moves h).move.params (hinv.missing t) hcached
  | call t keys =>
      simp only [prepareStep] at h
      split at h
      · obtain ⟨rfl, -⟩ := Prod.mk.inj (Option.some.inj h)
        rfl
      · cases h

/-- **Concurrent preparation fetches once.**  In every run of threads that call `PrepareChunks`, a
chunk is fetched at most once, and never when it is cached; cached chunks change by local updates
only.  A mutex is taken when it is free and released by the thread that took it, and when a thread
is in no call it has released all it took; a thread that goes on releases what it holds.  When a
call returns its chunks are cached, the assertion never fails, and while a thread is inside a call
some thread can go on. -/
theorem prepares_once {params : ℕ → List Val} {isCached : ℕ → Bool} {s : PrepareSystem Val}
    {is : List (PrepareInput Val)} {out : List PrepareEvent}
    (h : run prepareStep (.loaded params isCached) is = some (s, out)) :
    ((fetches out).Nodup ∧ ∀ id ∈ fetches out, isCached id = false) ∧
    (∀ i s' o, prepareStep s i = some (s', o) → ∀ id, s.model.isCached id = true →
      (∀ chunk, i ≠ .update id chunk) →
      s'.model.isCached id = true ∧ s'.model.params id = s.model.params id) ∧
    Lawful (lockEvents out) ∧
    (∀ t, s.threads t = .idle → ∀ id,
      (lockEvents out).count (.taken t id) = (lockEvents out).count (.released t id)) ∧
    (∀ t, ∃ is' s' out', (∀ i ∈ is', i.Continues t) ∧
      run prepareStep s is' = some (s', out') ∧ ∀ id, s'.model.mtx id ≠ some t) ∧
    (∀ t keys, .returned t keys ∈ out → ∀ id ∈ keys, s.model.isCached id = true) ∧
    (∀ t, s.threads t ≠ .aborted) ∧
    (∀ t, s.threads t ≠ .idle →
      ∃ t', ∃ i : PrepareInput Val, i.Continues t' ∧ (prepareStep s i).isSome) := by
  have hinv := prepareInv_run h
  refine ⟨⟨hinv.nodup, fun id hid => (hinv.fetched id hid).1⟩, fun i s' o hstep id hcached hi => ?_,
    hinv.lawful, fun t hidle id => ?_, fun t => ?_, hinv.returned, fun t => (hinv.sound t).alive,
    fun t hcall => exists_continues hinv hcall⟩
  · exact ⟨cached_step hinv (prepareStep_stepOf hstep) hcached,
      params_of_cached hinv hstep hcached hi⟩
  · have hnone : s.model.mtx id ≠ some t := by
      intro hheld
      have hmem := (hinv.owned.mem t id).mp hheld
      simp only [hidle] at hmem
      cases hmem
    rw [hinv.lawful.count_taken, hinv.holders, if_neg hnone, Nat.add_zero]
  · obtain ⟨is', s', out', his', hrun, hnone⟩ := exists_release hinv t
    refine ⟨is', s', out', his', hrun, fun id hheld => ?_⟩
    have hinv' := prepareInv_run (run_trans h hrun)
    have hmem := (hinv'.owned.mem t id).mp hheld
    simp only [hnone] at hmem
    cases hmem

/-- Thread 0 prepares the chunks 0 and 1, thread 1 the chunks 1 and 2; it waits for the lock of
chunk 1. -/
def overlappingCalls : List (PrepareInput ℕ) :=
  [PrepareInput.call 0 [0, 1]] ++ List.replicate 6 (PrepareInput.proceed 0) ++
    [PrepareInput.call 1 [1, 2]] ++ List.replicate 5 (PrepareInput.proceed 1) ++
    [PrepareInput.proceed 0, PrepareInput.proceed 1, PrepareInput.deliver 1 [[9]]] ++
    List.replicate 5 (PrepareInput.proceed 1) ++ [PrepareInput.deliver 0 [[5], [7]]] ++
    List.replicate 4 (PrepareInput.proceed 0) ++ [PrepareInput.update 1 [8]] ++
    List.replicate 4 (PrepareInput.proceed 1) ++ List.replicate 3 (PrepareInput.proceed 0)

theorem prepares_once_overlappingCalls : ∃ s out,
    run prepareStep (.loaded (fun _ => []) fun _ => false) overlappingCalls = some (s, out) ∧
    fetches out = [0, 1, 2] ∧ s.model.params 1 = [8] ∧
    (fetches out).Nodup ∧ Lawful (lockEvents out) ∧ s.threads 1 ≠ .aborted := by
  have hrun : (run prepareStep (.loaded (fun _ => []) fun _ => false) overlappingCalls).map
      (fun r => (fetches r.2, r.1.model.params 1)) = some ([0, 1, 2], [8]) := rfl
  obtain ⟨⟨s, out⟩, hrun, hout⟩ := Option.map_eq_some_iff.mp hrun
  obtain ⟨hfetches, hparams⟩ := Prod.mk.inj hout
  obtain ⟨⟨honce, -⟩, -, hlawful, -, -, -, halive, -⟩ := prepares_once hrun
  exact ⟨s, out, hrun, hfetches, hparams, honce, hlawful, halive 1⟩

end FlexPS.ML
