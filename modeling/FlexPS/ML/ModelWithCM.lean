import FlexPS.KVStore.Reassembly
import FlexPS.ML.ByteChunkFileEditor

/-!
# Models with a managed cache

`ModelWithCM` keeps at most `cache_threshold_` chunks of a model in memory.  `Prepare` counts
itself in for every chunk of its keys, evicts chunks that nobody has counted in when memory
is full, and fetches what is missing, from the temporary file if the chunk was ever evicted
and from the KV store otherwise.  `Push` counts itself out again.  Which chunks are evicted is
up to a replacement policy.

The operations are taken as a whole: they hold the mutexes of the chunks they work on.  A
`replace_lock` that does not find enough chunks in one scan waits for other operations, so as
a whole operation it does not complete.

## Main definitions

* `ReplacePolicy` and `lru`, `lfu`, `random` — the replacement policies.
* `ModelWithCM` and `prepare`, `read`, `push`, `dump` — the operations of the class.
* `ModelWithCM.spilled` — the bytes of the chunks that are on disk.
* `CMSystem`, `cmStep` — workers that pull and push in turns.
-/

namespace FlexPS.ML

open KVStore Lib

variable {P Byte Val : Type}

/-- `RangeManager::GetLocation`: the chunk of a key and its place in the chunk. -/
def getLocation (t : RangeTable) (key : ℕ) : Option (ℕ × ℕ) :=
  if key < t.maxKey then some (key / t.chunkSize, key % t.chunkSize) else none

/-! ## Replacement policies -/

/-- The virtual functions of a cache manager, with its own state `P`.  `replaceLock` gets the
chunks that may be evicted and the number of chunks to evict. -/
structure ReplacePolicy (P : Type) where
  touch : P → ℕ → P
  replaceLock : P → List ℕ → ℕ → Option (List ℕ × P)
  /-- Only chunks that may be evicted are chosen, each once. -/
  sound : ∀ {p pool n chosen p'}, pool.Nodup → replaceLock p pool n = some (chosen, p') →
    chosen.Nodup ∧ ∀ c ∈ chosen, c ∈ pool

/-- `ModelWithCMRandom`: the first chunks that the scan finds. -/
def random : ReplacePolicy Unit where
  touch _ _ := ()
  replaceLock _ pool n := if pool.length < n then none else some (pool.take n, ())
  sound := by
    intro p pool n chosen p' hpool h
    split at h
    · cases h
    · obtain ⟨rfl, -⟩ := Prod.mk.inj (Option.some.inj h)
      exact ⟨hpool.sublist (List.take_sublist n pool), fun c hc => List.mem_of_mem_take hc⟩

section Sorted

-- `std::sort` by a key; how it orders equal keys is up to the library.
variable (sort : (ℕ → ℕ) → List ℕ → List ℕ) (hsort : ∀ f l, (sort f l).Perm l)

include hsort in
theorem take_sort_sound (f : ℕ → ℕ) {pool : List ℕ} (hpool : pool.Nodup) (n : ℕ) :
    ((sort f pool).take n).Nodup ∧ ∀ c ∈ (sort f pool).take n, c ∈ pool :=
  ⟨((hsort f pool).nodup_iff.mpr hpool).sublist (List.take_sublist _ _),
    fun _ hc => (hsort f pool).subset (List.mem_of_mem_take hc)⟩

/-- The state of `ModelWithCMLRU`. -/
structure LRUState where
  accessCount : ℕ
  recency : ℕ → ℕ

/-- `ModelWithCMLRU`: the least recently pushed chunks. -/
def lru : ReplacePolicy LRUState where
  touch p c := ⟨p.accessCount + 1, Function.update p.recency c (p.accessCount + 1)⟩
  replaceLock p pool n :=
    if pool.length < n then none else some ((sort p.recency pool).take n, p)
  sound := by
    intro p pool n chosen p' hpool h
    split at h
    · cases h
    · obtain ⟨rfl, -⟩ := Prod.mk.inj (Option.some.inj h)
      exact take_sort_sound sort hsort p.recency hpool n

/-- `ModelWithCMLFU`: the least frequently pushed chunks, whose frequency is then reset. -/
def lfu : ReplacePolicy (ℕ → ℕ) where
  touch p c := Function.update p c (p c + 1)
  replaceLock p pool n :=
    if pool.length < n then none
    else
      let chosen := (sort p pool).take n
      some (chosen, fun c => if c ∈ chosen then 0 else p c)
  sound := by
    intro p pool n chosen p' hpool h
    split at h
    · cases h
    · obtain ⟨rfl, -⟩ := Prod.mk.inj (Option.some.inj h)
      exact take_sort_sound sort hsort p hpool n

end Sorted

/-! ## The model -/

/-- `CacheStatus`. -/
inductive CacheStatus where
  | inKVStore
  | inDisk
  deriving DecidableEq, Repr

/-- `ModelWithCM`; vectors over the chunks are functions. -/
structure ModelWithCM (P Byte Val : Type) where
  params : ℕ → List Val
  isCached : ℕ → Bool
  status : ℕ → CacheStatus
  prepareCount : ℕ → ℤ
  numCached : ℤ
  cfe : ByteChunkFileEditor Byte Val
  policy : P

/-- What does not change: the table of the model, the bytes of its values, `cache_threshold_`, and
the number of chunks dumped when the threshold is passed. -/
structure CMConfig (Byte Val : Type) where
  t : RangeTable
  codec : FixedCodec Byte Val
  cacheThreshold : ℕ
  numDumps : ℕ

namespace ModelWithCM

/-- The constructor. -/
def new (t : RangeTable) (policy : P) : ModelWithCM P Byte Val where
  params _ := []
  isCached _ := false
  status _ := .inKVStore
  prepareCount _ := 0
  numCached := 0
  cfe := .new [] t.chunkSize t.getLastChunkSize t.chunkNum
  policy := policy

/-- The chunks of a list of keys; a chunk is listed again only after another one. -/
def chunksToPrepare (t : RangeTable) : Option ℕ → List ℕ → Option (List ℕ)
  | _, [] => some []
  | current, key :: keys => do
      let (c, _) ← getLocation t key
      let rest ← chunksToPrepare t (some c) keys
      some (if current = some c then rest else c :: rest)

/-- The chunks that `replace_lock` may lock: cached and counted in by nobody. -/
def pool (t : RangeTable) (m : ModelWithCM P Byte Val) : List ℕ :=
  (List.range t.chunkNum).filter fun c => m.isCached c && m.prepareCount c == 0

/-- `cfe_` with `params_` behind its `chunks_ptr_`. -/
def editor (t : RangeTable) (m : ModelWithCM P Byte Val) : ByteChunkFileEditor Byte Val :=
  { m.cfe with chunks := (List.range t.chunkNum).map m.params }

/-- `flush_to_disk` for one chunk, and the bookkeeping after it. -/
def flushToDisk [Inhabited Byte] (cfg : CMConfig Byte Val) (m : ModelWithCM P Byte Val) (c : ℕ) :
    Option (ModelWithCM P Byte Val) := do
  let (cfe, _) ← (m.editor cfg.t).writeChunk cfg.codec c
  some { m with
    cfe
    params := Function.update m.params c []
    isCached := Function.update m.isCached c false
    status := Function.update m.status c .inDisk }

/-- A chunk as `PullChunks` returns it from a KV store that holds `kv`. -/
def pullChunk (t : RangeTable) (kv : ℕ → Val) (c : ℕ) : List Val := (chunkKeys t c).map kv

/-- `read_from_disk` for one chunk, which throws when the chunk has no place. -/
def readFromDisk [Inhabited Val] (cfg : CMConfig Byte Val) (m : ModelWithCM P Byte Val) (c : ℕ) :
    Option (List Val × ByteChunkFileEditor Byte Val) := do
  let pos ← m.cfe.chunkMap c
  let (cfe, _) ← (m.editor cfg.t).readChunk cfg.codec c pos
  let chunk ← cfe.chunks[c]?
  some (chunk, cfe)

/-- Where `fetch_chunk` finds a chunk. -/
def fetched [Inhabited Val] (cfg : CMConfig Byte Val) (kv : ℕ → Val)
    (m : ModelWithCM P Byte Val) (c : ℕ) : Option (List Val × ByteChunkFileEditor Byte Val) :=
  match m.status c with
  | .inKVStore => some (pullChunk cfg.t kv c, m.cfe)
  | .inDisk => m.readFromDisk cfg c

/-- `fetch_chunk` for one chunk, and the bookkeeping after it. -/
def fetchChunk [Inhabited Val] (cfg : CMConfig Byte Val) (kv : ℕ → Val)
    (m : ModelWithCM P Byte Val) (c : ℕ) : Option (ModelWithCM P Byte Val) := do
  let (chunk, cfe) ← m.fetched cfg kv c
  some { m with
    cfe
    params := Function.update m.params c chunk
    isCached := Function.update m.isCached c true }

/-- The chunks to replace when `wanted` chunks would be cached. -/
def chunksToReplace (cfg : CMConfig Byte Val) (R : ReplacePolicy P)
    (m : ModelWithCM P Byte Val) (wanted : ℤ) : Option (List ℕ × P) :=
  if wanted > cfg.cacheThreshold then R.replaceLock m.policy (m.pool cfg.t) cfg.numDumps
  else some ([], m.policy)

/-- `Prepare` once it has counted itself in and some chunks are missing: replace and fetch.
After a replacement the number of cached chunks is asserted. -/
def replaceAndFetch [Inhabited Byte] [Inhabited Val] (cfg : CMConfig Byte Val)
    (R : ReplacePolicy P) (kv : ℕ → Val) (m : ModelWithCM P Byte Val) (toFetch : List ℕ) :
    Option (ModelWithCM P Byte Val × List ℕ) := do
  let wanted := m.numCached + toFetch.length
  let (toReplace, policy) ← m.chunksToReplace cfg R wanted
  let numCached := wanted - toReplace.length
  if wanted > cfg.cacheThreshold ∧ numCached > cfg.cacheThreshold then none
  else do
    let m ← toReplace.foldlM (flushToDisk cfg) { m with policy, numCached }
    let m ← toFetch.foldlM (fetchChunk cfg kv) m
    some (m, toReplace)

/-- `Prepare`: the model afterwards and the chunks it evicted. -/
def prepare [Inhabited Byte] [Inhabited Val] (cfg : CMConfig Byte Val) (R : ReplacePolicy P)
    (kv : ℕ → Val) (m : ModelWithCM P Byte Val) (keys : List ℕ) :
    Option (ModelWithCM P Byte Val × List ℕ) :=
  if cfg.cacheThreshold < keys.length then none
  else do
    let chunks ← chunksToPrepare cfg.t none keys
    let m := { m with
      prepareCount := chunks.foldl (fun count c => Function.update count c (count c + 1))
        m.prepareCount }
    let toFetch := chunks.filter fun c => !m.isCached c
    if toFetch = [] then some (m, []) else m.replaceAndFetch cfg R kv toFetch

/-- The loop of `Pull` after `Prepare`. -/
def read (t : RangeTable) (m : ModelWithCM P Byte Val) (keys : List ℕ) : Option (List Val) :=
  keys.mapM fun key => do
    let (c, i) ← getLocation t key
    (m.params c)[i]?

/-- The loop of `Push`; `current` is the chunk that is locked. -/
def pushFrom [Add Val] (t : RangeTable) (R : ReplacePolicy P) :
    Option ℕ → ModelWithCM P Byte Val → List (ℕ × Val) → Option (ModelWithCM P Byte Val)
  | _, m, [] => some m
  | current, m, (key, v) :: rest => do
      let (c, i) ← getLocation t key
      let m := if current = some c then m
        else { m with
          policy := R.touch m.policy c
          prepareCount := Function.update m.prepareCount c (m.prepareCount c - 1) }
      if i < (m.params c).length then
        pushFrom t R (some c)
          { m with params := Function.update m.params c ((m.params c).modify i (· + v)) } rest
      else none

/-- `Push`; every key needs a value. -/
def push [Add Val] (t : RangeTable) (R : ReplacePolicy P) (m : ModelWithCM P Byte Val)
    (keys : List ℕ) (vals : List Val) : Option (ModelWithCM P Byte Val) := do
  let pairs ← pairUp keys vals
  pushFrom t R none m pairs

/-- The chunks that `ChunkBasedModel::Dump` pushes: those that are not empty. -/
def dumped (t : RangeTable) (m : ModelWithCM P Byte Val) : List (ℕ × List Val) :=
  ((List.range t.chunkNum).filter fun c => !(m.params c).isEmpty).map fun c => (c, m.params c)

/-- An assign store after `PushChunks`. -/
def assignChunks (t : RangeTable) (kv : ℕ → Val) (chunks : List (ℕ × List Val)) : ℕ → Val :=
  (chunks.flatMap (chunkPairs t.chunkSize)).foldl (fun kv p => Function.update kv p.1 p.2) kv

/-- `Dump(kKVStoreChunks)` to an assign store. -/
def dump (t : RangeTable) (m : ModelWithCM P Byte Val) (kv : ℕ → Val) : ℕ → Val :=
  assignChunks t kv (m.dumped t)

/-- The bytes of the chunks that are on disk. -/
def spilled (cfg : CMConfig Byte Val) (m : ModelWithCM P Byte Val) : ℕ :=
  totalSize (fun c => cfg.t.realChunkSize c * cfg.codec.width)
    ((List.range cfg.t.chunkNum).filter fun c => m.status c = .inDisk)

end ModelWithCM

/-! ## The chunks of a request -/

open ModelWithCM

/-- The chunks of sorted keys are listed once each. -/
theorem chunksToPrepare_spec {t : RangeTable} {keys : List ℕ} (hsorted : keys.Pairwise (· ≤ ·))
    (hlt : ∀ k ∈ keys, k < t.maxKey) (current : Option ℕ)
    (hcurrent : ∀ c, current = some c → ∀ k ∈ keys, c ≤ k / t.chunkSize) :
    ∃ chunks, chunksToPrepare t current keys = some chunks ∧ chunks.Pairwise (· < ·) ∧
      (∀ c, c ∈ chunks ↔ current ≠ some c ∧ ∃ k ∈ keys, k / t.chunkSize = c) := by
  induction keys generalizing current with
  | nil => exact ⟨[], rfl, .nil, by simp⟩
  | cons k keys ih =>
      rw [List.pairwise_cons] at hsorted
      have hloc : getLocation t k = some (k / t.chunkSize, k % t.chunkSize) :=
        if_pos (hlt k (by simp))
      have hnext : ∀ c, some (k / t.chunkSize) = some c → ∀ j ∈ keys, c ≤ j / t.chunkSize := by
        intro c hc j hj
        rw [← Option.some.inj hc]
        exact Nat.div_le_div_right (hsorted.1 j hj)
      obtain ⟨chunks, hchunks, hstrict, hmem⟩ := ih hsorted.2 (fun j hj => hlt j (by simp [hj]))
        (some (k / t.chunkSize)) hnext
      refine ⟨if current = some (k / t.chunkSize) then chunks else k / t.chunkSize :: chunks,
        by simp [chunksToPrepare, hloc, hchunks], ?_, ?_⟩
      · split
        · exact hstrict
        · refine List.pairwise_cons.mpr ⟨fun c hc => ?_, hstrict⟩
          obtain ⟨hne, j, hj, rfl⟩ := (hmem c).mp hc
          have hle := hnext _ rfl j hj
          have hneq : k / t.chunkSize ≠ j / t.chunkSize := fun heq => hne (congrArg some heq)
          omega
      · intro c
        by_cases hcur : current = some (k / t.chunkSize)
        · rw [if_pos hcur, hmem, hcur]
          constructor
          · intro ⟨hne, j, hj, hjc⟩
            exact ⟨hne, j, by simp [hj], hjc⟩
          · intro ⟨hne, j, hj, hjc⟩
            refine ⟨hne, j, ?_, hjc⟩
            rcases List.mem_cons.mp hj with rfl | hj
            · exact absurd (congrArg some hjc) hne
            · exact hj
        · rw [if_neg hcur, List.mem_cons, hmem]
          constructor
          · rintro (rfl | ⟨hne, j, hj, rfl⟩)
            · exact ⟨hcur, k, by simp, rfl⟩
            · refine ⟨fun heq => ?_, j, by simp [hj], rfl⟩
              -- The locked chunk is not behind the first key.
              have hfirst := hcurrent _ heq k (by simp)
              have hrest := hnext _ rfl j hj
              exact hne (congrArg some (by omega))
          · intro ⟨_, j, hj, hjc⟩
            by_cases hck : c = k / t.chunkSize
            · exact .inl hck
            · refine .inr ⟨fun heq => hck (Option.some.inj heq).symm, j, ?_, hjc⟩
              rcases List.mem_cons.mp hj with rfl | hj
              · exact absurd hjc.symm hck
              · exact hj

/-- What callers of `Pull` and `Push` have to respect: sorted keys of the model. -/
def ValidKeys (t : RangeTable) (keys : List ℕ) : Prop :=
  keys.Pairwise (· ≤ ·) ∧ ∀ k ∈ keys, k < t.maxKey

instance (t : RangeTable) (keys : List ℕ) : Decidable (ValidKeys t keys) :=
  inferInstanceAs (Decidable (_ ∧ _))

/-- The chunks of a list of keys. -/
def Touches (t : RangeTable) (keys : List ℕ) (c : ℕ) : Prop := ∃ k ∈ keys, k / t.chunkSize = c

instance (t : RangeTable) (keys : List ℕ) (c : ℕ) : Decidable (Touches t keys c) :=
  inferInstanceAs (Decidable (∃ k ∈ keys, _))

theorem chunksToPrepare_none {t : RangeTable} {keys : List ℕ} (h : ValidKeys t keys) :
    ∃ chunks, chunksToPrepare t none keys = some chunks ∧ chunks.Nodup ∧
      ∀ c, c ∈ chunks ↔ Touches t keys c := by
  obtain ⟨chunks, hchunks, hstrict, hmem⟩ := chunksToPrepare_spec h.1 h.2 none (by simp)
  exact ⟨chunks, hchunks, hstrict.imp fun hlt => Nat.ne_of_lt hlt, by simpa [Touches] using hmem⟩

/-! ## Workers -/

/-- Where a worker is between two iterations: `Pull` is `Prepare` and the reads after it. -/
inductive Phase where
  | idle
  | prepared (keys : List ℕ)
  | pulled (keys : List ℕ)
  deriving DecidableEq, Repr

/-- The keys a worker has counted in for. -/
def Phase.keys : Phase → List ℕ
  | idle => []
  | prepared keys => keys
  | pulled keys => keys

/-- The model, the workers, and what was pushed so far. -/
structure CMSystem (P Byte Val : Type) where
  model : ModelWithCM P Byte Val
  phase : ℕ → Phase
  pushed : List (ℕ × Val)

/-- One whole operation of a worker. -/
inductive CMOp (Val : Type) where
  | prepare (worker : ℕ) (keys : List ℕ)
  | read (worker : ℕ)
  | push (worker : ℕ) (vals : List Val)

/-- What an operation shows: the chunks it evicted or the values it read. -/
inductive CMOut (Val : Type) where
  | replaced (chunks : List ℕ)
  | values (worker : ℕ) (keys : List ℕ) (vals : List Val)
  deriving DecidableEq, Repr

/-- One operation.  A worker prepares, reads and pushes in turns, and pushes the keys it has
prepared. -/
def cmStep [Inhabited Byte] [Inhabited Val] [Add Val] (cfg : CMConfig Byte Val)
    (R : ReplacePolicy P) (kv : ℕ → Val) (s : CMSystem P Byte Val) :
    CMOp Val → Option (CMSystem P Byte Val × List (CMOut Val))
  | .prepare w keys =>
      match s.phase w with
      | .idle => do
          let (model, replaced) ← s.model.prepare cfg R kv keys
          some ({ s with model, phase := Function.update s.phase w (.prepared keys) },
            [.replaced replaced])
      | _ => none
  | .read w =>
      match s.phase w with
      | .prepared keys => do
          let vals ← s.model.read cfg.t keys
          some ({ s with phase := Function.update s.phase w (.pulled keys) },
            [.values w keys vals])
      | _ => none
  | .push w vals =>
      match s.phase w with
      | .pulled keys => do
          let model ← s.model.push cfg.t R keys vals
          some ({ model, phase := Function.update s.phase w .idle
                  pushed := s.pushed ++ keys.zip vals }, [])
      | _ => none

/-- A new model and idle workers. -/
def CMSystem.init (t : RangeTable) (policy : P) : CMSystem P Byte Val :=
  ⟨.new t policy, fun _ => .idle, []⟩

end FlexPS.ML
