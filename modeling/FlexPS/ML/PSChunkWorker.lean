import FlexPS.ML.ModelWithCM

/-!
# Workers with chunks as thread cache

`PSChunkNoneWorker` and `PSChunkChunkWorker` keep whole chunks, each with the clock it was
fetched with.  A pull fetches the chunks of its keys that are missing or whose clock is too far
behind the worker, the first worker from the servers and the second one from the cache of its
process; a fetched chunk replaces the cached one.  A push also adds to the cached chunks.

## Main definitions

* `incKey`, `incAll`, `incChunks` — adding to cached chunks.
* `ChunkBasedModelWithClocks`, `PSChunkNoneWorker` — the cache of the first worker, and its calls.
* `PSChunkChunkWorker` — the second worker and its calls.
-/

namespace FlexPS.ML

open KVStore Lib ModelWithCM

variable {Val : Type}

/-! ## Cached chunks -/

section Chunks

variable (t : RangeTable)

/-- `params_[loc.first][loc.second] += val`. -/
def incKey [Add Val] (params : ℕ → List Val) (p : ℕ × Val) : Option (ℕ → List Val) := do
  let (c, i) ← getLocation t p.1
  if i < (params c).length then some (Function.update params c ((params c).modify i (· + p.2)))
  else none

/-- The loop of `Push` over the cached chunks. -/
def incAll [Add Val] (params : ℕ → List Val) (pairs : List (ℕ × Val)) : Option (ℕ → List Val) :=
  pairs.foldlM (incKey t) params

/-- One round of the loop of `PushChunks` over the cached chunks, which asserts the length. -/
def incChunk [Add Val] (params : ℕ → List Val) (p : ℕ × List Val) : Option (ℕ → List Val) :=
  if (params p.1).length = p.2.length
  then some (Function.update params p.1 (List.zipWith (· + ·) (params p.1) p.2)) else none

/-- The loop of `PushChunks` over the cached chunks. -/
def incChunks [Add Val] (params : ℕ → List Val) (chunks : List (ℕ × List Val)) :
    Option (ℕ → List Val) :=
  chunks.foldlM incChunk params

/-- The loop of `Pull` over the cached chunks. -/
def readKeys (params : ℕ → List Val) (keys : List ℕ) : Option (List Val) :=
  keys.mapM fun key => do
    let (c, i) ← getLocation t key
    (params c)[i]?

end Chunks

/-! ## `PSChunkNoneWorker` -/

/-- `ChunkBasedModelWithClocks`; `clock` counts the pushes. -/
structure ChunkBasedModelWithClocks (Val : Type) where
  params : ℕ → List Val
  isCached : ℕ → Bool
  chunkClocks : ℕ → ℤ
  clock : ℕ

namespace ChunkBasedModelWithClocks

/-- The constructor. -/
def new : ChunkBasedModelWithClocks Val := ⟨fun _ => [], fun _ => false, fun _ => -1, 0⟩

/-- The loop of `PrepareChunks`: the chunks to fetch, which are marked as cached on the way. -/
def chunksToFetch (stalest : ℤ) (chunkClocks : ℕ → ℤ) :
    (ℕ → Bool) → List ℕ → List ℕ × (ℕ → Bool)
  | isCached, [] => ([], isCached)
  | isCached, c :: ids =>
      if isCached c = false ∨ chunkClocks c < stalest then
        let (rest, isCached) := chunksToFetch stalest chunkClocks (Function.update isCached c true) ids
        (c :: rest, isCached)
      else chunksToFetch stalest chunkClocks isCached ids

/-- `PrepareChunks` up to the fetch: the chunks to fetch. -/
def beginPrepare (staleness : ℕ) (m : ChunkBasedModelWithClocks Val) (ids : List ℕ) :
    List ℕ × ChunkBasedModelWithClocks Val :=
  let (toFetch, isCached) := chunksToFetch (m.clock - staleness) m.chunkClocks m.isCached ids
  (toFetch, { m with isCached })

/-- `fetch_chunk`, when the servers answer with `answer` and the clock. -/
def fetchChunk (m : ChunkBasedModelWithClocks Val) (toFetch : List ℕ) (answer : ℕ → List Val)
    (clock : ℤ) : ChunkBasedModelWithClocks Val :=
  { m with
    params := fun c => if c ∈ toFetch then answer c else m.params c
    chunkClocks := fun c => if c ∈ toFetch then clock else m.chunkClocks c }

/-- `PrepareChunks`; without a chunk to fetch nothing is asked. -/
def prepareChunks (staleness : ℕ) (m : ChunkBasedModelWithClocks Val) (ids : List ℕ)
    (answer : ℕ → List Val) (clock : ℤ) : ChunkBasedModelWithClocks Val :=
  let (toFetch, m) := m.beginPrepare staleness ids
  if toFetch = [] then m else m.fetchChunk toFetch answer clock

/-- `Push`; the chunks must be cached. -/
def push [Add Val] (t : RangeTable) (m : ChunkBasedModelWithClocks Val) (pairs : List (ℕ × Val)) :
    Option (ChunkBasedModelWithClocks Val) :=
  if pairs.all fun p => m.isCached (p.1 / t.chunkSize) then do
    let params ← incAll t m.params pairs
    some { m with params, clock := m.clock + 1 }
  else none

/-- `PushChunks`. -/
def pushChunks [Add Val] (m : ChunkBasedModelWithClocks Val) (chunks : List (ℕ × List Val)) :
    Option (ChunkBasedModelWithClocks Val) := do
  let params ← incChunks m.params chunks
  some { m with params, clock := m.clock + 1 }

end ChunkBasedModelWithClocks

/-- `PSChunkNoneWorker`. -/
structure PSChunkNoneWorker (Val : Type) where
  model : ChunkBasedModelWithClocks Val
  pullCount : ℕ
  pushCount : ℕ

namespace PSChunkNoneWorker

/-- A new worker. -/
def new : PSChunkNoneWorker Val := ⟨.new, 0, 0⟩

/-- `Pull`, with what the servers answer. -/
def pull (t : RangeTable) (staleness : ℕ) (w : PSChunkNoneWorker Val) (keys : List ℕ)
    (answer : ℕ → List Val) (clock : ℤ) : Option (PSChunkNoneWorker Val × List Val) :=
  if w.pushCount ≠ w.pullCount then none
  else do
    let ids ← chunksToPrepare t none keys
    let model := w.model.prepareChunks staleness ids answer clock
    let vals ← readKeys t model.params keys
    some ({ w with model, pullCount := w.pullCount + 1 }, vals)

/-- `Push`: what is sent, and the worker afterwards. -/
def push [Add Val] (t : RangeTable) (w : PSChunkNoneWorker Val) (keys : List ℕ) (vals : List Val) :
    Option (PSChunkNoneWorker Val × List (ℕ × Val)) :=
  if w.pushCount + 1 ≠ w.pullCount then none
  else do
    let pairs ← pairUp keys vals
    let model ← w.model.push t pairs
    some ({ w with model, pushCount := w.pushCount + 1 }, pairs)

end PSChunkNoneWorker

/-! ## `PSChunkChunkWorker` -/

/-- `PSChunkChunkWorker`. -/
structure PSChunkChunkWorker (Val : Type) where
  params : ℕ → List Val
  chunkClocks : ℕ → ℤ
  pullCount : ℕ
  pushCount : ℕ

namespace PSChunkChunkWorker

/-- A new worker. -/
def new : PSChunkChunkWorker Val := ⟨fun _ => [], fun _ => -1, 0, 0⟩

/-- The clock that `PrepareChunks` asks for once a pull is counted. -/
def minClock (staleness : ℕ) (w : PSChunkChunkWorker Val) : ℤ :=
  max 0 ((w.pullCount : ℤ) - staleness - 1)

/-- `uncached_chunks`: the chunks that are too old. -/
def uncachedChunks (staleness : ℕ) (w : PSChunkChunkWorker Val) (ids : List ℕ) : List ℕ :=
  ids.filter fun c => w.chunkClocks c < w.minClock staleness

/-- What `PullChunksWithMinClock` does to the cached chunks: `answer` and `clock` are the chunks
and the clocks that it copies out. -/
def refresh (w : PSChunkChunkWorker Val) (uncached : List ℕ) (answer : ℕ → List Val)
    (clock : ℕ → ℤ) : PSChunkChunkWorker Val :=
  { w with
    params := fun c => if c ∈ uncached then answer c else w.params c
    chunkClocks := fun c => if c ∈ uncached then clock c else w.chunkClocks c }

/-- `PrepareChunks`. -/
def prepareChunks (staleness : ℕ) (w : PSChunkChunkWorker Val) (ids : List ℕ)
    (answer : ℕ → List Val) (clock : ℕ → ℤ) : PSChunkChunkWorker Val :=
  w.refresh (w.uncachedChunks staleness ids) answer clock

/-- The worker once a pull is counted. -/
def countPull (w : PSChunkChunkWorker Val) : PSChunkChunkWorker Val :=
  { w with pullCount := w.pullCount + 1 }

/-- `Pull`, with what the cache of the process answers. -/
def pull (t : RangeTable) (staleness : ℕ) (w : PSChunkChunkWorker Val) (keys : List ℕ)
    (answer : ℕ → List Val) (clock : ℕ → ℤ) : Option (PSChunkChunkWorker Val × List Val) :=
  if w.pullCount ≠ w.pushCount then none
  else do
    let ids ← chunksToPrepare t none keys
    let w := w.countPull.prepareChunks staleness ids answer clock
    let vals ← readKeys t w.params keys
    some (w, vals)

/-- `Push`: what is sent, and the worker afterwards. -/
def push [Add Val] (t : RangeTable) (w : PSChunkChunkWorker Val) (keys : List ℕ)
    (vals : List Val) : Option (PSChunkChunkWorker Val × List (ℕ × Val)) :=
  if w.pullCount ≠ w.pushCount + 1 then none
  else do
    let pairs ← pairUp keys vals
    let params ← incAll t w.params pairs
    some ({ w with params, pushCount := w.pushCount + 1 }, pairs)

end PSChunkChunkWorker

/-! ## Adding to chunks -/

section Inc

variable [AddCommMonoid Val] {t : RangeTable} {params params' : ℕ → List Val}

/-- A key has a place in the cached chunks. -/
def HasPlace (t : RangeTable) (params : ℕ → List Val) (k : ℕ) : Prop :=
  k < t.maxKey ∧ k % t.chunkSize < (params (k / t.chunkSize)).length

/-- What is added to a place of a chunk. -/
def writtenAt (t : RangeTable) (pairs : List (ℕ × Val)) (c j : ℕ) : Val :=
  if j < t.chunkSize then written pairs (c * t.chunkSize + j) else 0

/-- Every place has got what the pairs add to it. -/
def Added (t : RangeTable) (params params' : ℕ → List Val) (pairs : List (ℕ × Val)) : Prop :=
  ∀ c j, (params' c)[j]? = (params c)[j]?.map (· + writtenAt t pairs c j)

theorem writtenAt_append (t : RangeTable) (xs ys : List (ℕ × Val)) (c j : ℕ) :
    writtenAt t (xs ++ ys) c j = writtenAt t xs c j + writtenAt t ys c j := by
  unfold writtenAt
  split
  · simp [written]
  · rw [add_zero]

theorem Added.refl (t : RangeTable) (params : ℕ → List Val) : Added t params params [] := by
  intro c j
  simp [writtenAt]

theorem Added.trans {params'' : ℕ → List Val} {xs ys : List (ℕ × Val)}
    (h : Added t params params' xs) (h' : Added t params' params'' ys) :
    Added t params params'' (xs ++ ys) := by
  intro c j
  rw [h' c j, h c j, Option.map_map]
  congr 1
  funext v
  rw [Function.comp_apply, writtenAt_append, add_assoc]

theorem Added.length {xs : List (ℕ × Val)} (h : Added t params params' xs) (c : ℕ) :
    (params' c).length = (params c).length := by
  apply Nat.le_antisymm
  · by_contra hlt
    have hget := h c (params c).length
    rw [List.getElem?_eq_none le_rfl, Option.map_none, List.getElem?_eq_none_iff] at hget
    exact hlt hget
  · by_contra hlt
    have hget := h c (params' c).length
    rw [List.getElem?_eq_none le_rfl, eq_comm, Option.map_eq_none_iff,
      List.getElem?_eq_none_iff] at hget
    exact hlt hget

theorem Added.hasPlace {xs : List (ℕ × Val)} (h : Added t params params' xs) {k : ℕ} :
    HasPlace t params' k ↔ HasPlace t params k := by
  rw [HasPlace, HasPlace, h.length]

/-- One addition fails exactly when the key has no place. -/
theorem incKey_eq_none {p : ℕ × Val} :
    incKey t params p = none ↔ ¬ HasPlace t params p.1 := by
  unfold incKey getLocation HasPlace
  by_cases hmax : p.1 < t.maxKey
  · by_cases hlt : p.1 % t.chunkSize < (params (p.1 / t.chunkSize)).length <;> simp [hmax, hlt]
  · simp [hmax]

theorem incKey_added (hsize : 0 < t.chunkSize) {p : ℕ × Val}
    (h : incKey t params p = some params') : Added t params params' [p] := by
  unfold incKey getLocation at h
  split at h
  · simp only [Option.bind_eq_bind, Option.bind_some] at h
    split at h
    · obtain rfl := Option.some.inj h
      intro c j
      have hwritten : writtenAt t [p] c j =
          if p.1 / t.chunkSize = c ∧ p.1 % t.chunkSize = j then p.2 else 0 := by
        have hdiv := Nat.div_add_mod' p.1 t.chunkSize
        have hmod := Nat.mod_lt p.1 hsize
        by_cases hloc : p.1 / t.chunkSize = c ∧ p.1 % t.chunkSize = j
        · obtain ⟨rfl, rfl⟩ := hloc
          simp [writtenAt, written, hmod, hdiv]
        · rw [if_neg hloc, writtenAt]
          split
          · next hj =>
              have hne : p.1 ≠ c * t.chunkSize + j := by
                intro heq
                apply hloc
                rw [heq, Nat.add_comm, Nat.add_mul_div_right _ _ hsize, Nat.div_eq_of_lt hj,
                  Nat.zero_add, Nat.add_mul_mod_self_right, Nat.mod_eq_of_lt hj]
                exact ⟨rfl, rfl⟩
              simp [written, hne]
          · rfl
      rw [hwritten]
      by_cases hc : c = p.1 / t.chunkSize
      · subst hc
        rw [Function.update_self, List.getElem?_modify]
        by_cases hj : p.1 % t.chunkSize = j <;> simp [hj]
      · rw [Function.update_of_ne hc, if_neg fun hloc => hc hloc.1.symm]
        simp
    · cases h
  · cases h

theorem incKey_hasPlace {p : ℕ × Val} (h : incKey t params p = some params') :
    HasPlace t params p.1 := by
  by_contra hnot
  rw [incKey_eq_none.mpr hnot] at h
  cases h

/-- **The loop of `Push` over the cached chunks** adds what is written to every key. -/
theorem incAll_added (hsize : 0 < t.chunkSize) {pairs : List (ℕ × Val)}
    (h : incAll t params pairs = some params') :
    (∀ p ∈ pairs, HasPlace t params p.1) ∧ Added t params params' pairs := by
  induction pairs generalizing params with
  | nil =>
      obtain rfl := Option.some.inj h
      exact ⟨by simp, .refl t params⟩
  | cons p pairs ih =>
      simp only [incAll, List.foldlM_cons, Option.bind_eq_bind, Option.bind_eq_some_iff] at h
      obtain ⟨params₁, hp, hrest⟩ := h
      have hadded := incKey_added hsize hp
      obtain ⟨hplaces, hadded'⟩ := ih hrest
      refine ⟨List.forall_mem_cons.mpr ⟨incKey_hasPlace hp, fun q hq => ?_⟩, hadded.trans hadded'⟩
      exact hadded.hasPlace.mp (hplaces q hq)

/-- It runs through when every key has a place. -/
theorem incAll_isSome (hsize : 0 < t.chunkSize) {pairs : List (ℕ × Val)}
    (h : ∀ p ∈ pairs, HasPlace t params p.1) : ∃ params', incAll t params pairs = some params' := by
  induction pairs generalizing params with
  | nil => exact ⟨params, rfl⟩
  | cons p pairs ih =>
      rw [List.forall_mem_cons] at h
      cases hp : incKey t params p with
      | none => exact absurd h.1 (incKey_eq_none.mp hp)
      | some params₁ =>
          have hadded := incKey_added hsize hp
          obtain ⟨params', hrest⟩ := ih fun q hq => hadded.hasPlace.mpr (h.2 q hq)
          exact ⟨params', by simp [incAll, hp, ← hrest]⟩

end Inc

section Twice

variable [AddCancelCommMonoid Val] {t : RangeTable} {params params₁ params₂ : ℕ → List Val}

/-- Adding something twice is adding it once only if it is zero. -/
theorem Added.twice_iff (hsize : 0 < t.chunkSize) {xs ys : List (ℕ × Val)}
    (hplaces : ∀ p ∈ xs, HasPlace t params p.1) (hsame : ∀ k, written ys k = written xs k)
    (h₁ : Added t params params₁ xs) (h₂ : Added t params params₂ (ys ++ xs)) :
    params₂ = params₁ ↔ ∀ k, written xs k = 0 := by
  have hdouble : ∀ c j, writtenAt t (ys ++ xs) c j = writtenAt t xs c j + writtenAt t xs c j := by
    intro c j
    rw [writtenAt_append]
    simp only [writtenAt, hsame]
  constructor
  · intro heq k
    by_contra hk
    have hmem : k ∈ xs.map Prod.fst := by
      by_contra hout
      exact hk (written_of_notMem hout)
    obtain ⟨p, hp, rfl⟩ := List.mem_map.mp hmem
    obtain ⟨v, hv⟩ : ∃ v, (params (p.1 / t.chunkSize))[p.1 % t.chunkSize]? = some v :=
      ⟨_, List.getElem?_eq_getElem (hplaces p hp).2⟩
    have hget := h₂ (p.1 / t.chunkSize) (p.1 % t.chunkSize)
    rw [heq, h₁, hv, Option.map_some, Option.map_some, Option.some.injEq, hdouble, ← add_assoc] at hget
    have hzero : writtenAt t xs (p.1 / t.chunkSize) (p.1 % t.chunkSize) = 0 := left_eq_add.mp hget
    rw [writtenAt, if_pos (Nat.mod_lt _ hsize), Nat.div_add_mod'] at hzero
    exact hk hzero
  · intro hzero
    funext c
    apply List.ext_getElem?
    intro j
    have hat : writtenAt t xs c j = 0 := by
      unfold writtenAt
      split
      · exact hzero _
      · rfl
    rw [h₁ c j, h₂ c j, hdouble, hat, add_zero]

end Twice

end FlexPS.ML
