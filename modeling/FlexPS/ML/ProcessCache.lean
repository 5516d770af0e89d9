import FlexPS.ML.ModelWithCM

/-!
# The cache of a process

`ChunkBasedPSModel` holds chunks for all threads of a process, each with the clock it was
fetched with.  `PullWithMinClock` fetches the chunks that are too old for the caller itself.
`PullChunksWithMinClock` goes through the fetch manager: a list of clocks for every chunk tells
which fetches are under way and which are wanted, and a thread that finds its clock, or a
smaller one, in the list waits on a condition variable.

Threads interleave at their lock-protected steps.  What a thread reads without a lock, it reads
in a step of its own.  The condition variable may wake a thread at any time.

## Main definitions

* `ClockList` and `visit`, `eraseUpTo` — one list of `fetch_mgr_` and what is done to it.
* `ChunkBasedPSModel`, `CacheCall`, `CachePhase` — the shared data, the calls, and where a
  thread is.
* `cacheStep` — one step of one thread.
* `Move`, `cacheStep_stepOf` — what a step does, case by case.
-/

namespace FlexPS.ML

open KVStore Lib ModelWithCM

variable {Val : Type}

/-! ## Clock lists -/

/-- One list of `fetch_mgr_`: clocks, each with the mark that somebody is fetching for it. -/
abbrev ClockList := List (ℤ × Bool)

namespace ClockList

/-- The loop that inserts a clock, unmarked, before the first larger one. -/
def insertLoop (m : ℤ) : ClockList → ClockList
  | [] => []
  | e :: es =>
      if e.1 = m then e :: es
      else if m < e.1 then (m, false) :: e :: es
      else e :: insertLoop m es

/-- The insertion of a clock, which is put at the end when it is larger than the last one. -/
def insertClock (m : ℤ) (clocks : ClockList) : ClockList :=
  if (insertLoop m clocks).getLast?.all (·.1 < m) then insertLoop m clocks ++ [(m, false)]
  else insertLoop m clocks

/-- What the wait predicate does to the list of a chunk that is too old: the list, and whether
the chunk is to be fetched rather than waited for. -/
def visit (m : ℤ) : ClockList → ClockList × Bool
  | [] => ([(m, true)], true)
  | (front, marked) :: rest =>
      if m = front then
        if marked then ((front, marked) :: rest, false) else ((front, true) :: rest, true)
      else if front < m then (insertClock m ((front, marked) :: rest), false)
      else ((m, true) :: (front, marked) :: rest, true)

/-- What a finished fetch erases. -/
def eraseUpTo (clock : ℤ) (clocks : ClockList) : ClockList := clocks.dropWhile (·.1 ≤ clock)

/-- The clocks are strictly increasing. -/
def Increasing (clocks : ClockList) : Prop := clocks.Pairwise (·.1 < ·.1)

theorem insertClock_cons_of_lt {m : ℤ} {e : ℤ × Bool} (h : e.1 < m) (es : ClockList) :
    insertClock m (e :: es) = e :: insertClock m es := by
  have hloop : insertLoop m (e :: es) = e :: insertLoop m es := by
    rw [insertLoop, if_neg h.ne, if_neg (not_lt.mpr h.le)]
  rw [insertClock, insertClock, hloop]
  cases hes : insertLoop m es with
  | nil => simp [h]
  | cons x xs =>
      rw [List.getLast?_cons_cons]
      split <;> rfl

theorem insertClock_of_le {m : ℤ} {e : ℤ × Bool} {es : ClockList} (h : m ≤ e.1)
    (hes : Increasing (e :: es)) :
    insertClock m (e :: es) = if e.1 = m then e :: es else (m, false) :: e :: es := by
  have hlast : ∃ x, (e :: es).getLast? = some x ∧ m ≤ x.1 := by
    refine ⟨_, List.getLast?_eq_some_getLast (List.cons_ne_nil e es), ?_⟩
    rcases List.mem_cons.mp (List.getLast_mem (List.cons_ne_nil e es)) with hx | hx
    · rw [hx]
      exact h
    · exact h.trans (List.rel_of_pairwise_cons hes hx).le
  obtain ⟨x, hx, hle⟩ := hlast
  have hloop : insertLoop m (e :: es) = if e.1 = m then e :: es else (m, false) :: e :: es := by
    rw [insertLoop]
    split
    · rfl
    · next hne => rw [if_pos (lt_of_le_of_ne h (Ne.symm hne))]
  rw [insertClock, hloop]
  split
  · rw [hx, Option.all_some, if_neg (by simp [hle])]
  · rw [List.getLast?_cons_cons, hx, Option.all_some, if_neg (by simp [hle])]

/-- **The insertion** adds the clock, unmarked, unless it is there. -/
theorem mem_insertClock {m : ℤ} {clocks : ClockList} (h : Increasing clocks) {e : ℤ × Bool} :
    e ∈ insertClock m clocks ↔
      e ∈ clocks ∨ (e = (m, false) ∧ ∀ x ∈ clocks, x.1 ≠ m) := by
  induction clocks with
  | nil => simp [insertClock, insertLoop]
  | cons x xs ih =>
      rcases lt_or_ge x.1 m with hlt | hge
      · rw [insertClock_cons_of_lt hlt, List.mem_cons, ih h.of_cons]
        simp [hlt.ne, or_assoc]
      · rw [insertClock_of_le hge h]
        have hxs : ∀ y ∈ xs, y.1 ≠ m := fun y hy =>
          (hge.trans_lt (List.rel_of_pairwise_cons h hy)).ne'
        split
        · next heq => simp [heq]
        · next hne =>
            have hall : ∀ y ∈ x :: xs, y.1 ≠ m := List.forall_mem_cons.mpr ⟨hne, hxs⟩
            rw [List.mem_cons, or_comm]
            simp only [and_iff_left hall]

theorem increasing_insertClock {m : ℤ} {clocks : ClockList} (h : Increasing clocks) :
    Increasing (insertClock m clocks) := by
  induction clocks with
  | nil => simp [insertClock, insertLoop, Increasing]
  | cons x xs ih =>
      rcases lt_or_ge x.1 m with hlt | hge
      · rw [insertClock_cons_of_lt hlt]
        refine List.pairwise_cons.mpr ⟨fun y hy => ?_, ih h.of_cons⟩
        rcases (mem_insertClock h.of_cons).mp hy with hy | ⟨rfl, -⟩
        · exact List.rel_of_pairwise_cons h hy
        · exact hlt
      · rw [insertClock_of_le hge h]
        split
        · exact h
        · next hne =>
            refine List.pairwise_cons.mpr ⟨fun y hy => ?_, h⟩
            have hlt : m < x.1 := lt_of_le_of_ne hge (Ne.symm hne)
            rcases List.mem_cons.mp hy with rfl | hy
            · exact hlt
            · exact hlt.trans (List.rel_of_pairwise_cons h hy)

/-- A clock occurs once. -/
theorem Increasing.eq_of_mem {clocks : ClockList} (h : Increasing clocks) {a b : ℤ × Bool}
    (ha : a ∈ clocks) (hb : b ∈ clocks) (heq : a.1 = b.1) : a = b := by
  by_contra hne
  have hpairs : clocks.Pairwise fun x y => x.1 ≠ y.1 := h.imp fun hlt => hlt.ne
  have : Std.Symm fun x y : ℤ × Bool => x.1 ≠ y.1 := ⟨fun _ _ hxy => hxy.symm⟩
  exact hpairs.forall ha hb hne heq

/-- The visited list, and what the decision says about it. -/
structure Visited (m : ℤ) (clocks clocks' : ClockList) (fetch : Bool) : Prop where
  increasing : Increasing clocks'
  /-- Marks stay. -/
  marked : ∀ x, (x, true) ∈ clocks → (x, true) ∈ clocks'
  /-- Only the clock that is asked for may be new or newly marked. -/
  origin : ∀ x b, (x, b) ∈ clocks' → (x, b) ∈ clocks ∨ (x = m ∧ b = fetch)
  /-- To fetch is to mark the clock, which was not marked before. -/
  taken : fetch = true → (m, true) ∈ clocks' ∧ (m, true) ∉ clocks
  /-- To wait is to wait for what is in the list. -/
  waits : fetch = false → ∃ e rest, clocks' = e :: rest

theorem visit_spec {m : ℤ} {clocks : ClockList} (h : Increasing clocks) :
    Visited m clocks (visit m clocks).1 (visit m clocks).2 := by
  cases clocks with
  | nil =>
      simp only [visit]
      exact ⟨by simp [Increasing], by simp, by simp, by simp, by simp⟩
  | cons e rest =>
      obtain ⟨front, marked⟩ := e
      have hrest : ∀ y ∈ rest, front < y.1 := fun y hy => List.rel_of_pairwise_cons h hy
      simp only [visit]
      split
      · next heq =>
          subst heq
          cases marked with
          | true => exact ⟨h, fun x hx => hx, fun x b hx => .inl hx, by simp, fun _ => ⟨_, _, rfl⟩⟩
          | false =>
              refine ⟨List.pairwise_cons.mpr ⟨hrest, h.of_cons⟩, ?_, ?_, fun _ => ⟨by simp, ?_⟩,
                by simp⟩
              · intro x hx
                rcases List.mem_cons.mp hx with hx | hx
                · cases hx
                · exact List.mem_cons_of_mem _ hx
              · intro x b hx
                rcases List.mem_cons.mp hx with hx | hx
                · cases hx
                  exact .inr ⟨rfl, rfl⟩
                · exact .inl (List.mem_cons_of_mem _ hx)
              · intro hmem
                have := h.eq_of_mem hmem (List.mem_cons_self ..) rfl
                cases this
      · next hne =>
          split
          · next hlt =>
              refine ⟨increasing_insertClock h, ?_, ?_, by simp, fun _ => ?_⟩
              · exact fun x hx => (mem_insertClock h).mpr (.inl hx)
              · intro x b hx
                rcases (mem_insertClock h).mp hx with hx | ⟨hx, -⟩
                · exact .inl hx
                · cases hx
                  exact .inr ⟨rfl, rfl⟩
              · rw [insertClock_cons_of_lt hlt]
                exact ⟨_, _, rfl⟩
          · next hge =>
              have hlt : m < front := lt_of_le_of_ne (not_lt.mp hge) hne
              have hall : ∀ y ∈ (front, marked) :: rest, m < y.1 :=
                List.forall_mem_cons.mpr ⟨hlt, fun y hy => hlt.trans (hrest y hy)⟩
              refine ⟨List.pairwise_cons.mpr ⟨hall, h⟩, fun x hx => List.mem_cons_of_mem _ hx, ?_,
                fun _ => ⟨List.mem_cons_self .., fun hmem => (hall _ hmem).ne rfl⟩, by simp⟩
              intro x b hx
              rcases List.mem_cons.mp hx with hx | hx
              · cases hx
                exact .inr ⟨rfl, rfl⟩
              · exact .inl hx

theorem increasing_eraseUpTo {clock : ℤ} {clocks : ClockList} (h : Increasing clocks) :
    Increasing (eraseUpTo clock clocks) :=
  h.sublist (List.dropWhile_sublist _)

/-- **A finished fetch** erases exactly the clocks it covers. -/
theorem mem_eraseUpTo {clock : ℤ} {clocks : ClockList} (h : Increasing clocks) {e : ℤ × Bool} :
    e ∈ eraseUpTo clock clocks ↔ e ∈ clocks ∧ clock < e.1 := by
  induction clocks with
  | nil => simp [eraseUpTo]
  | cons x xs ih =>
      unfold eraseUpTo at ih ⊢
      by_cases hx : x.1 ≤ clock
      · rw [List.dropWhile_cons_of_pos (by simp [hx]), ih h.of_cons, List.mem_cons]
        constructor
        · exact fun he => ⟨.inr he.1, he.2⟩
        · rintro ⟨rfl | he, hlt⟩
          · omega
          · exact ⟨he, hlt⟩
      · rw [List.dropWhile_cons_of_neg (by simp [hx]), iff_self_and]
        intro he
        rcases List.mem_cons.mp he with rfl | he
        · omega
        · exact (not_le.mp hx).trans (List.rel_of_pairwise_cons h he)

end ClockList

/-! ## Threads -/

/-- `ChunkBasedPSModel`, less its mutexes. -/
structure ChunkBasedPSModel (Val : Type) where
  params : ℕ → List Val
  chunkClocks : ℕ → ℤ
  fetchMgr : ℕ → ClockList

namespace ChunkBasedPSModel

/-- The constructor. -/
def new : ChunkBasedPSModel Val := ⟨fun _ => [], fun _ => -1, fun _ => []⟩

/-- Step 3 of `fetch_chunk` for one chunk. -/
def store (m : ChunkBasedPSModel Val) (clock : ℤ) (p : ℕ × List Val) : ChunkBasedPSModel Val :=
  if m.chunkClocks p.1 < clock then
    { m with
      params := Function.update m.params p.1 p.2
      chunkClocks := Function.update m.chunkClocks p.1 clock }
  else m

/-- What the wait predicate does to the list of one chunk. -/
def visit (m : ChunkBasedPSModel Val) (minClock : ℤ) (id : ℕ) : ChunkBasedPSModel Val :=
  { m with fetchMgr := Function.update m.fetchMgr id ((m.fetchMgr id).visit minClock).1 }

/-- Step 3 of `fetch_mgr_fetch_chunk`. -/
def eraseFetched (m : ChunkBasedPSModel Val) (real : List ℕ) (clock : ℤ) :
    ChunkBasedPSModel Val :=
  { m with
    fetchMgr := fun id =>
      if id ∈ real then (m.fetchMgr id).eraseUpTo clock else m.fetchMgr id }

end ChunkBasedPSModel

/-- The two calls of the cache. -/
inductive CacheCall where
  | pullWithMinClock (keys : List ℕ) (minClock : ℤ)
  | pullChunksWithMinClock (chunks : List ℕ) (minClock : ℤ)

namespace CacheCall

/-- The clock asked for. -/
def minClock : CacheCall → ℤ
  | pullWithMinClock _ m => m
  | pullChunksWithMinClock _ m => m

/-- The call goes through the fetch manager. -/
def managed : CacheCall → Bool
  | pullWithMinClock _ _ => false
  | pullChunksWithMinClock _ _ => true

/-- The chunks of the call. -/
def chunks (t : RangeTable) : CacheCall → List ℕ
  | pullWithMinClock keys _ => keys.map (· / t.chunkSize)
  | pullChunksWithMinClock chunks _ => chunks

/-- The chunks whose clock the call looks at first. -/
def toCheck (t : RangeTable) : CacheCall → Option (List ℕ)
  | pullWithMinClock keys _ => chunksToPrepare t none keys
  | pullChunksWithMinClock chunks _ => some chunks

end CacheCall

/-- Where a thread is in its call. -/
inductive CachePhase (Val : Type) where
  | idle
  /-- Collecting the chunks that are too old; `todo` is still to be looked at. -/
  | collecting (call : CacheCall) (todo toFetch : List ℕ)
  /-- About to lock the fetch manager, in a new round or after a wakeup. -/
  | entering (call : CacheCall) (toFetch : List ℕ)
  /-- Inside the wait predicate. -/
  | evaluating (call : CacheCall) (todo real wait : List ℕ)
  /-- Waiting on the condition variable. -/
  | blocked (call : CacheCall) (toFetch : List ℕ)
  /-- `fetch_chunk`, waiting for the servers. -/
  | fetching (call : CacheCall) (real wait : List ℕ)
  /-- `fetch_chunk`, storing what the servers sent with `clock`. -/
  | storing (call : CacheCall) (clock : ℤ) (todo : List (ℕ × List Val)) (real wait : List ℕ)
  /-- The loop of `PullChunksWithMinClock` that copies chunks and their clocks out. -/
  | copying (call : CacheCall) (todo : List ℕ) (copies : List (ℕ × List Val × ℤ))
  /-- The loop of `PullWithMinClock`, by runs of places in one chunk; `looked` tells that the
  clock of the next chunk is already taken in. -/
  | reading (call : CacheCall) (todo : List (List (ℕ × ℕ))) (looked : Bool) (clock : Option ℤ)
      (vals : List Val)
  /-- The assertion in `fetch_mgr_fetch_chunk` has fired. -/
  | aborted

/-- The threads of a process and their cache; `lock` is the holder of `fetch_mgr_mtx_`. -/
structure CacheSystem (Val : Type) where
  model : ChunkBasedPSModel Val
  lock : Option ℕ
  threads : ℕ → CachePhase Val

/-- What the threads see: fetched chunks arrive, and calls return. -/
inductive CacheEvent (Val : Type) where
  | delivered (t : ℕ) (clock : ℤ) (chunks : List (ℕ × List Val))
  | returned (t : ℕ) (keys : List ℕ) (minClock : ℤ) (vals : List Val) (clock : Option ℤ)
  | returnedChunks (t : ℕ) (chunks : List ℕ) (minClock : ℤ) (copies : List (ℕ × List Val × ℤ))

/-- What the schedule decides. -/
inductive CacheInput (Val : Type) where
  | call (t : ℕ) (c : CacheCall)
  | proceed (t : ℕ)
  | wake (t : ℕ)
  | deliver (t : ℕ) (clock : ℤ) (chunks : List (List Val))

namespace CacheSystem

/-- No thread is in a call. -/
def new : CacheSystem Val := ⟨.new, none, fun _ => .idle⟩

/-- Move one thread. -/
def put (s : CacheSystem Val) (t : ℕ) (phase : CachePhase Val) : CacheSystem Val :=
  { s with threads := Function.update s.threads t phase }

end CacheSystem

/-- `notify_all`. -/
def CachePhase.notified : CachePhase Val → CachePhase Val
  | blocked call toFetch => entering call toFetch
  | phase => phase

/-- After a call has what it needs: the loop that hands it out. -/
def CachePhase.handOut (table : RangeTable) : CacheCall → Option (CachePhase Val)
  | .pullWithMinClock keys m => do
      let places ← keys.mapM (getLocation table)
      some (.reading (.pullWithMinClock keys m) (places.splitBy fun a b => a.1 == b.1) false none [])
  | .pullChunksWithMinClock chunks m => some (.copying (.pullChunksWithMinClock chunks m) chunks [])

/-- The head of the loop of `fetch_mgr_fetch_chunk`. -/
def CachePhase.nextRound (table : RangeTable) (call : CacheCall) (toFetch : List ℕ) :
    Option (CachePhase Val) :=
  if toFetch = [] then handOut table call else some (entering call toFetch)

/-- After the collection. -/
def CachePhase.collected (table : RangeTable) (call : CacheCall) (toFetch : List ℕ) :
    Option (CachePhase Val) :=
  if call.managed ∨ toFetch = [] then nextRound table call toFetch
  else some (fetching call toFetch [])

/-- The decision at the end of the wait predicate. -/
def CachePhase.decided (table : RangeTable) (call : CacheCall) (real wait : List ℕ) :
    Option (CachePhase Val) :=
  if real = [] then
    if wait = [] then handOut table call else some (blocked call wait)
  else some (fetching call real wait)

/-- The next step of a thread inside its call. -/
def proceed (table : RangeTable) (s : CacheSystem Val) (t : ℕ) :
    Option (CacheSystem Val × List (CacheEvent Val)) :=
  match s.threads t with
  | .idle | .blocked _ _ | .fetching _ _ _ | .aborted => none
  | .collecting call (id :: todo) toFetch =>
      let toFetch := if s.model.chunkClocks id < call.minClock then toFetch ++ [id] else toFetch
      some (s.put t (.collecting call todo toFetch), [])
  | .collecting call [] toFetch => do
      let phase ← CachePhase.collected table call toFetch
      some (s.put t phase, [])
  | .entering call toFetch =>
      if s.lock = none then
        some ({ s with lock := some t }.put t (.evaluating call toFetch [] []), [])
      else none
  | .evaluating call (id :: todo) real wait =>
      if s.model.chunkClocks id < call.minClock then
        let s' := { s with model := s.model.visit call.minClock id }
        if ((s.model.fetchMgr id).visit call.minClock).2
        then some (s'.put t (.evaluating call todo (real ++ [id]) wait), [])
        else some (s'.put t (.evaluating call todo real (wait ++ [id])), [])
      else some (s.put t (.evaluating call todo real wait), [])
  | .evaluating call [] real wait => do
      let phase ← CachePhase.decided table call real wait
      some ({ s with lock := none }.put t phase, [])
  | .storing call clock (p :: todo) real wait =>
      some ({ s with model := s.model.store clock p }.put t (.storing call clock todo real wait), [])
  | .storing call clock [] real wait =>
      if call.managed then
        if clock < call.minClock then some (s.put t .aborted, [])
        else if s.lock = none then do
          let phase ← CachePhase.nextRound table call wait
          let s' : CacheSystem Val :=
            ⟨s.model.eraseFetched real clock, none, fun t' => (s.threads t').notified⟩
          some (s'.put t phase, [])
        else none
      else do
        let phase ← CachePhase.handOut table call
        some (s.put t phase, [])
  | .copying call (id :: todo) copies =>
      let copy := (id, s.model.params id, s.model.chunkClocks id)
      some (s.put t (.copying call todo (copies ++ [copy])), [])
  | .copying call [] copies =>
      some (s.put t .idle, [.returnedChunks t (call.chunks table) call.minClock copies])
  | .reading call (places :: todo) false clock vals => do
      let (id, _) ← places.head?
      let seen := s.model.chunkClocks id
      let clock := if clock.all (seen < ·) then some seen else clock
      some (s.put t (.reading call (places :: todo) true clock vals), [])
  | .reading call (places :: todo) true clock vals => do
      let new ← places.mapM fun p => (s.model.params p.1)[p.2]?
      some (s.put t (.reading call todo false clock (vals ++ new)), [])
  | .reading (.pullWithMinClock keys m) [] _ clock vals =>
      some (s.put t .idle, [.returned t keys m vals clock])
  | .reading (.pullChunksWithMinClock _ _) [] _ _ _ => none

/-- One step of one thread. -/
def cacheStep (table : RangeTable) (s : CacheSystem Val) :
    CacheInput Val → Option (CacheSystem Val × List (CacheEvent Val))
  | .call t call =>
      match s.threads t with
      | .idle => do
          let todo ← call.toCheck table
          some (s.put t (.collecting call todo []), [])
      | _ => none
  | .proceed t => proceed table s t
  | .wake t =>
      match s.threads t with
      | .blocked call toFetch => some (s.put t (.entering call toFetch), [])
      | _ => none
  | .deliver t clock chunks =>
      match s.threads t with
      | .fetching call real wait =>
          if chunks.length = real.length then
            some (s.put t (.storing call clock (real.zip chunks) real wait),
              [.delivered t clock (real.zip chunks)])
          else none
      | _ => none

/-! ## What a step does -/

/-- The steps, case by case: the data and the phase of thread `t` before and after, and what is
seen. -/
inductive Move (table : RangeTable) (t : ℕ) (m : ChunkBasedPSModel Val) :
    CachePhase Val → ChunkBasedPSModel Val → CachePhase Val → List (CacheEvent Val) → Prop
  | call {c todo} (htodo : c.toCheck table = some todo) :
      Move table t m .idle m (.collecting c todo []) []
  | collectOld {c id todo toFetch} (hold : m.chunkClocks id < c.minClock) :
      Move table t m (.collecting c (id :: todo) toFetch) m
        (.collecting c todo (toFetch ++ [id])) []
  | collectFresh {c id todo toFetch} (hfresh : c.minClock ≤ m.chunkClocks id) :
      Move table t m (.collecting c (id :: todo) toFetch) m (.collecting c todo toFetch) []
  | collected {c toFetch phase} (hphase : CachePhase.collected table c toFetch = some phase) :
      Move table t m (.collecting c [] toFetch) m phase []
  | enter {c toFetch} : Move table t m (.entering c toFetch) m (.evaluating c toFetch [] []) []
  | take {c id todo real wait} (hold : m.chunkClocks id < c.minClock)
      (hvisit : ((m.fetchMgr id).visit c.minClock).2 = true) :
      Move table t m (.evaluating c (id :: todo) real wait) (m.visit c.minClock id)
        (.evaluating c todo (real ++ [id]) wait) []
  | await {c id todo real wait} (hold : m.chunkClocks id < c.minClock)
      (hvisit : ((m.fetchMgr id).visit c.minClock).2 = false) :
      Move table t m (.evaluating c (id :: todo) real wait) (m.visit c.minClock id)
        (.evaluating c todo real (wait ++ [id])) []
  | drop {c id todo real wait} (hfresh : c.minClock ≤ m.chunkClocks id) :
      Move table t m (.evaluating c (id :: todo) real wait) m (.evaluating c todo real wait) []
  | decide {c real wait phase} (hphase : CachePhase.decided table c real wait = some phase) :
      Move table t m (.evaluating c [] real wait) m phase []
  | wake {c toFetch} : Move table t m (.blocked c toFetch) m (.entering c toFetch) []
  | deliver {c real wait clock} {chunks : List (List Val)} (hlen : chunks.length = real.length) :
      Move table t m (.fetching c real wait) m (.storing c clock (real.zip chunks) real wait)
        [.delivered t clock (real.zip chunks)]
  | store {c clock p todo real wait} :
      Move table t m (.storing c clock (p :: todo) real wait) (m.store clock p)
        (.storing c clock todo real wait) []
  | abort {c clock real wait} (hclock : clock < c.minClock) :
      Move table t m (.storing c clock [] real wait) m .aborted []
  | finish {c clock real wait phase} (hmanaged : c.managed = true) (hclock : c.minClock ≤ clock)
      (hphase : CachePhase.nextRound table c wait = some phase) :
      Move table t m (.storing c clock [] real wait) (m.eraseFetched real clock) phase []
  | stored {c clock real wait phase} (hdirect : c.managed = false)
      (hphase : CachePhase.handOut table c = some phase) :
      Move table t m (.storing c clock [] real wait) m phase []
  | copy {c id todo copies} :
      Move table t m (.copying c (id :: todo) copies) m
        (.copying c todo (copies ++ [(id, m.params id, m.chunkClocks id)])) []
  | copied {c copies} :
      Move table t m (.copying c [] copies) m .idle
        [.returnedChunks t (c.chunks table) c.minClock copies]
  | look {c p places todo clock vals} :
      Move table t m (.reading c ((p :: places) :: todo) false clock vals) m
        (.reading c ((p :: places) :: todo) true
          (if clock.all (m.chunkClocks p.1 < ·) then some (m.chunkClocks p.1) else clock) vals) []
  | read {c places todo clock vals new}
      (hnew : places.mapM (fun p => (m.params p.1)[p.2]?) = some new) :
      Move table t m (.reading c (places :: todo) true clock vals) m
        (.reading c todo false clock (vals ++ new)) []
  | readAll {keys minClock looked clock vals} :
      Move table t m (.reading (.pullWithMinClock keys minClock) [] looked clock vals) m .idle
        [.returned t keys minClock vals clock]

/-- The thread is inside the wait predicate. -/
def CachePhase.evaluates : CachePhase Val → Bool
  | evaluating _ _ _ _ => true
  | _ => false

/-- The thread is about to erase what its fetch covers. -/
def CachePhase.finishes : CachePhase Val → Prop
  | storing c clock [] _ _ => c.managed = true ∧ c.minClock ≤ clock
  | _ => False

/-- What a step of thread `t` does to the lock of the fetch manager, with whether the thread is
inside the wait predicate before and after it. -/
inductive LockMove (t : ℕ) : Option ℕ → Bool → Option ℕ → Bool → Prop
  | keep {lock inside} : LockMove t lock inside lock inside
  | acquire : LockMove t none false (some t) true
  | release {lock} : LockMove t lock true none false

section Inversion

variable {table : RangeTable} {s s' : CacheSystem Val} {o : List (CacheEvent Val)}

/-- A step moves one thread.  The others stay where they are; when a fetch is finished, under the
lock, they are notified. -/
structure StepOf (table : RangeTable) (t : ℕ) (s s' : CacheSystem Val)
    (o : List (CacheEvent Val)) : Prop where
  move : Move table t s.model (s.threads t) s'.model (s'.threads t) o
  others : (¬ (s.threads t).finishes ∧ ∀ t' ≠ t, s'.threads t' = s.threads t') ∨
    (s.lock = none ∧ ∀ t' ≠ t, s'.threads t' = (s.threads t').notified)
  lock : LockMove t s.lock (s.threads t).evaluates s'.lock (s'.threads t).evaluates

/-- What is handed out is read or copied from the start. -/
theorem handOut_cases {c : CacheCall} {phase : CachePhase Val}
    (h : CachePhase.handOut table c = some phase) :
    (∃ todo, phase = .reading c todo false none []) ∨ ∃ todo, phase = .copying c todo [] := by
  cases c with
  | pullWithMinClock keys minClock =>
      simp only [CachePhase.handOut, Option.bind_eq_bind, Option.bind_eq_some_iff] at h
      obtain ⟨places, hplaces, h⟩ := h
      exact .inl ⟨_, (Option.some.inj h).symm⟩
  | pullChunksWithMinClock chunks minClock => exact .inr ⟨_, (Option.some.inj h).symm⟩

theorem evaluates_handOut {c : CacheCall} {phase : CachePhase Val}
    (h : CachePhase.handOut table c = some phase) : phase.evaluates = false := by
  rcases handOut_cases h with ⟨_, rfl⟩ | ⟨_, rfl⟩ <;> rfl

theorem evaluates_nextRound {c : CacheCall} {toFetch : List ℕ} {phase : CachePhase Val}
    (h : CachePhase.nextRound table c toFetch = some phase) : phase.evaluates = false := by
  unfold CachePhase.nextRound at h
  split at h
  · exact evaluates_handOut h
  · obtain rfl := Option.some.inj h
    rfl

theorem evaluates_collected {c : CacheCall} {toFetch : List ℕ} {phase : CachePhase Val}
    (h : CachePhase.collected table c toFetch = some phase) : phase.evaluates = false := by
  unfold CachePhase.collected at h
  split at h
  · exact evaluates_nextRound h
  · obtain rfl := Option.some.inj h
    rfl

theorem evaluates_decided {c : CacheCall} {real wait : List ℕ} {phase : CachePhase Val}
    (h : CachePhase.decided table c real wait = some phase) : phase.evaluates = false := by
  unfold CachePhase.decided at h
  split at h
  · split at h
    · exact evaluates_handOut h
    · obtain rfl := Option.some.inj h
      rfl
  · obtain rfl := Option.some.inj h
    rfl

private theorem stepOf_put {t : ℕ} {phase phase' : CachePhase Val} {model : ChunkBasedPSModel Val}
    {lock : Option ℕ} (hphase : s.threads t = phase)
    (h : Move table t s.model phase model phase' o) (hnot : ¬ phase.finishes)
    (hlock : LockMove t s.lock phase.evaluates lock phase'.evaluates) :
    StepOf table t s (CacheSystem.put ⟨model, lock, s.threads⟩ t phase') o := by
  constructor
  · simpa only [CacheSystem.put, Function.update_self, hphase] using h
  · exact .inl ⟨hphase ▸ hnot, fun t' hne => Function.update_of_ne hne _ _⟩
  · simpa only [CacheSystem.put, Function.update_self, hphase] using hlock

/-- A step that does not touch the lock. -/
private theorem stepOf_keep {t : ℕ} {phase phase' : CachePhase Val}
    {model : ChunkBasedPSModel Val} (hphase : s.threads t = phase)
    (h : Move table t s.model phase model phase' o) (hnot : ¬ phase.finishes)
    (hinside : phase'.evaluates = phase.evaluates) :
    StepOf table t s (CacheSystem.put ⟨model, s.lock, s.threads⟩ t phase') o :=
  stepOf_put hphase h hnot (hinside ▸ .keep)

theorem proceed_stepOf {t : ℕ} (h : proceed table s t = some (s', o)) :
    StepOf table t s s' o := by
  unfold proceed at h
  split at h
  · cases h
  · cases h
  · cases h
  · cases h
  · next call id todo toFetch hphase =>
      obtain ⟨rfl, rfl⟩ := Prod.mk.inj (Option.some.inj h)
      split
      · next hold => exact stepOf_keep hphase (.collectOld hold) not_false rfl
      · next hfresh => exact stepOf_keep hphase (.collectFresh (not_lt.mp hfresh)) not_false rfl
  · next call toFetch hphase =>
      obtain ⟨phase, hnext, h⟩ := Option.bind_eq_some_iff.mp h
      obtain ⟨rfl, rfl⟩ := Prod.mk.inj (Option.some.inj h)
      exact stepOf_keep hphase (.collected hnext) not_false (evaluates_collected hnext)
  · next call toFetch hphase =>
      split at h
      · next hfree =>
          obtain ⟨rfl, rfl⟩ := Prod.mk.inj (Option.some.inj h)
          exact stepOf_put hphase .enter not_false (hfree ▸ .acquire)
      · cases h
  · next call id todo real wait hphase =>
      split at h
      · next hold =>
          simp only at h
          split at h
          · next hvisit =>
              obtain ⟨rfl, rfl⟩ := Prod.mk.inj (Option.some.inj h)
              exact stepOf_keep hphase (.take hold hvisit) not_false rfl
          · next hvisit =>
              obtain ⟨rfl, rfl⟩ := Prod.mk.inj (Option.some.inj h)
              exact stepOf_keep hphase (.await hold (Bool.not_eq_true _ ▸ hvisit)) not_false rfl
      · next hfresh =>
          obtain ⟨rfl, rfl⟩ := Prod.mk.inj (Option.some.inj h)
          exact stepOf_keep hphase (.drop (not_lt.mp hfresh)) not_false rfl
  · next call real wait hphase =>
      obtain ⟨phase, hnext, h⟩ := Option.bind_eq_some_iff.mp h
      obtain ⟨rfl, rfl⟩ := Prod.mk.inj (Option.some.inj h)
      exact stepOf_put hphase (.decide hnext) not_false (evaluates_decided hnext ▸ .release)
  · next call clock p todo real wait hphase =>
      obtain ⟨rfl, rfl⟩ := Prod.mk.inj (Option.some.inj h)
      exact stepOf_keep hphase .store not_false rfl
  · next call clock real wait hphase =>
      split at h
      · next hmanaged =>
          split at h
          · next hclock =>
              obtain ⟨rfl, rfl⟩ := Prod.mk.inj (Option.some.inj h)
              exact stepOf_keep hphase (.abort hclock) (fun hf => not_le.mpr hclock hf.2) rfl
          · next hclock =>
              split at h
              · next hfree =>
                  obtain ⟨phase, hnext, h⟩ := Option.bind_eq_some_iff.mp h
                  obtain ⟨rfl, rfl⟩ := Prod.mk.inj (Option.some.inj h)
                  constructor
                  · rw [hphase]
                    simp only [CacheSystem.put, Function.update_self]
                    exact .finish hmanaged (not_lt.mp hclock) hnext
                  · exact .inr ⟨hfree, fun t' hne => Function.update_of_ne hne _ _⟩
                  · simp only [CacheSystem.put, Function.update_self, hphase, hfree,
                      evaluates_nextRound hnext]
                    exact .keep
              · cases h
      · next hdirect =>
          obtain ⟨phase, hnext, h⟩ := Option.bind_eq_some_iff.mp h
          obtain ⟨rfl, rfl⟩ := Prod.mk.inj (Option.some.inj h)
          exact stepOf_keep hphase (.stored (Bool.not_eq_true _ ▸ hdirect) hnext)
            (fun hf => hdirect hf.1) (evaluates_handOut hnext)
  · next call id todo copies hphase =>
      obtain ⟨rfl, rfl⟩ := Prod.mk.inj (Option.some.inj h)
      exact stepOf_keep hphase .copy not_false rfl
  · next call copies hphase =>
      obtain ⟨rfl, rfl⟩ := Prod.mk.inj (Option.some.inj h)
      exact stepOf_keep hphase .copied not_false rfl
  · next call places todo clock vals hphase =>
      obtain ⟨p, hp, h⟩ := Option.bind_eq_some_iff.mp h
      obtain ⟨rfl, rfl⟩ := Prod.mk.inj (Option.some.inj h)
      obtain ⟨rest, rfl⟩ := List.head?_eq_some_iff.mp hp
      exact stepOf_keep hphase .look not_false rfl
  · next call places todo clock vals hphase =>
      obtain ⟨new, hnew, h⟩ := Option.bind_eq_some_iff.mp h
      obtain ⟨rfl, rfl⟩ := Prod.mk.inj (Option.some.inj h)
      exact stepOf_keep hphase (.read hnew) not_false rfl
  · next keys minClock looked clock vals hphase =>
      obtain ⟨rfl, rfl⟩ := Prod.mk.inj (Option.some.inj h)
      exact stepOf_keep hphase .readAll not_false rfl
  · cases h

/-- The thread an input is about. -/
def CacheInput.thread : CacheInput Val → ℕ
  | call t _ | proceed t | wake t | deliver t _ _ => t

/-- **What a step does**: a move of the thread that the schedule names. -/
theorem cacheStep_stepOf {i : CacheInput Val} (h : cacheStep table s i = some (s', o)) :
    StepOf table i.thread s s' o := by
  cases i with
  | call t call =>
      simp only [cacheStep] at h
      split at h
      · next hphase =>
          obtain ⟨todo, htodo, h⟩ := Option.bind_eq_some_iff.mp h
          obtain ⟨rfl, rfl⟩ := Prod.mk.inj (Option.some.inj h)
          exact stepOf_keep hphase (.call htodo) not_false rfl
      · cases h
  | proceed t => exact proceed_stepOf h
  | wake t =>
      simp only [cacheStep] at h
      split at h
      · next call toFetch hphase =>
          obtain ⟨rfl, rfl⟩ := Prod.mk.inj (Option.some.inj h)
          exact stepOf_keep hphase .wake not_false rfl
      · cases h
  | deliver t clock chunks =>
      simp only [cacheStep] at h
      split at h
      · next call real wait hphase =>
          split at h
          · next hlen =>
              obtain ⟨rfl, rfl⟩ := Prod.mk.inj (Option.some.inj h)
              exact stepOf_keep hphase (.deliver hlen) not_false rfl
          · cases h
      · cases h

end Inversion

end FlexPS.ML
