import FlexPS.KVStore.CallAndWait
import FlexPS.Lib.Lockstep
import FlexPS.Lib.Updates
import FlexPS.ML.CMContent
import FlexPS.ML.PSChunkWorker

/-!
# Models in chunks

`ChunkBasedModel` keeps the parameters in chunks and fetches a chunk when it is first needed;
`IntegralModel` keeps them in one vector that is loaded as a whole.  Both add pushes to what they
hold and bring it back to the KV store by a dump.

## Main definitions

* `ModelClient` — how a model reaches its KV store.
* `ChunkBasedModel`, `chunkBasedStep`, `dump` — the chunks, the four calls, and `Dump`.
* `IntegralModel`, `integralStep` — the vector and the same calls.
* `Caches` — cached chunks hold the content of the model, and the others the KV store's.
* `chunkBased_refines` — the chunks behave as the vector, and a dump brings all pushes back.
-/

namespace FlexPS.ML

open KVStore Lib ModelWithCM

variable {Val : Type}

/-! ## The models -/

/-- The worker of a model and the tables it works with. -/
structure ModelClient where
  tables : ℕ → RangeTable
  src : ℕ
  modelId : ℕ
  isLocal : ℕ → Bool

namespace ModelClient

/-- The range table of the model. -/
abbrev table (K : ModelClient) : RangeTable := K.tables K.modelId

/-- The default flags of a call, with this `send_all`. -/
def flags (K : ModelClient) (sendAll : Bool) : Flags := ⟨sendAll, true, true, K.isLocal⟩

end ModelClient

/-- Where `Load` and `Dump` go: `kKVStoreChunks` and `kKVStoreIntegral`. -/
inductive Hint where
  | kvStoreChunks
  | kvStoreIntegral

/-- The calls of a model; the chunks of a pull are the memory that it fills. -/
inductive ModelCall (Val : Type) where
  | pull (keys : List ℕ)
  | push (keys : List ℕ) (vals : List Val)
  | pullChunks (chunkKeys : List ℕ) (chunkVals : List (List Val))
  | pushChunks (chunkKeys : List ℕ) (chunkVals : List (List Val))

/-- What is seen of a model: the chunks it asks the servers for, and what its pulls return. -/
inductive ModelEvent (Val : Type) where
  | fetched (ids : List ℕ)
  | pulled (keys : List ℕ) (vals : List Val)
  | pulledChunks (ids : List ℕ) (chunks : List (List Val))

/-- `ChunkBasedModel`. -/
structure ChunkBasedModel (Val : Type) where
  params : ℕ → List Val
  isCached : ℕ → Bool

namespace ChunkBasedModel

/-- The constructor. -/
def new : ChunkBasedModel Val := ⟨fun _ => [], fun _ => false⟩

/-- The loop of `PrepareChunks`: the chunks to fetch, which are marked as cached on the way. -/
def collect (t : RangeTable) (m : ChunkBasedModel Val) :
    List ℕ → Option (ChunkBasedModel Val × List ℕ)
  | [] => some (m, [])
  | c :: ids =>
      if c < t.chunkNum then
        if m.isCached c = false then do
          let (m, rest) ← collect t { m with isCached := Function.update m.isCached c true } ids
          some (m, c :: rest)
        else collect t m ids
      else none

/-- One round of the loop of `Push`. -/
def pushKey [Add Val] (t : RangeTable) (m : ChunkBasedModel Val) (p : ℕ × Val) :
    Option (ChunkBasedModel Val) := do
  let (c, _) ← getLocation t p.1
  if m.isCached c then
    let params ← incKey t m.params p
    some { m with params }
  else none

/-- One round of the loop of `PushChunks`. -/
def pushChunk [Add Val] (t : RangeTable) (m : ChunkBasedModel Val) (p : ℕ × List Val) :
    Option (ChunkBasedModel Val) :=
  if p.1 < t.chunkNum then do
    let params ← incChunk m.params p
    some { m with params }
  else none

/-- The fetched chunks are written into `params_`. -/
def receive (m : ChunkBasedModel Val) (chunks : List (ℕ × List Val)) : ChunkBasedModel Val :=
  { m with params := chunks.foldl (fun params p => Function.update params p.1 p.2) m.params }

/-- All chunks with their numbers. -/
def chunks (t : RangeTable) (m : ChunkBasedModel Val) : List (ℕ × List Val) :=
  (List.range t.chunkNum).map fun c => (c, m.params c)

/-- The chunks that `Dump` pushes: all of them, or those that are not null. -/
def dumped (t : RangeTable) (m : ChunkBasedModel Val) : Hint → List (ℕ × List Val)
  | .kvStoreChunks => (m.chunks t).filter fun p => !p.2.isEmpty
  | .kvStoreIntegral => m.chunks t

end ChunkBasedModel

/-- A model and the servers of its KV store. -/
structure ModelSystem (S : ℕ × ℕ → Type) (Val : Type) where
  model : ChunkBasedModel Val
  servers : ∀ p, Server (S p) Val

section Code

variable {S : ℕ × ℕ → Type} [∀ p, StorageT (S p) Val] [Add Val] (K : ModelClient)

/-- A call of the model's worker, and `Wait`. -/
def ModelClient.call (sendAll : Bool) (servers : ∀ p, Server (S p) Val) (c : Call Val) :
    Option ((∀ p, Server (S p) Val) × Option (Dest Val)) :=
  callAndWait K.tables K.src K.modelId (K.flags sendAll) servers c

/-- `fetch_chunk` and `wait`, and `LoadChunks`. -/
def fetchChunk (s : ModelSystem S Val) (ids : List ℕ) : Option (ModelSystem S Val) := do
  let (servers, dest) ← K.call false s.servers (.pullChunks ids (ids.map s.model.params))
  match dest with
  | some (.chunks chunks) => some ⟨s.model.receive (ids.zip chunks), servers⟩
  | _ => none

/-- `PrepareChunks`. -/
def prepareChunks (s : ModelSystem S Val) (ids : List ℕ) :
    Option (ModelSystem S Val × List (ModelEvent Val)) := do
  let (model, toFetch) ← s.model.collect K.table ids
  if toFetch = [] then some ({ s with model }, [])
  else
    let s ← fetchChunk K { s with model } toFetch
    some (s, [.fetched toFetch])

/-- The four calls. -/
def chunkBasedStep (s : ModelSystem S Val) :
    ModelCall Val → Option (ModelSystem S Val × List (ModelEvent Val))
  | .pull keys => do
      let ids ← chunksToPrepare K.table none keys
      let (s, o) ← prepareChunks K s ids
      let vals ← readKeys K.table s.model.params keys
      some (s, o ++ [.pulled keys vals])
  | .push keys vals => do
      let pairs ← pairUp keys vals
      let model ← pairs.foldlM (ChunkBasedModel.pushKey K.table) s.model
      some ({ s with model }, [])
  | .pullChunks ids chunkVals =>
      if ids = [] then some (s, [.pulledChunks [] []])
      else if ids.length = chunkVals.length then do
        let (s, o) ← prepareChunks K s ids
        some (s, o ++ [.pulledChunks ids (ids.map s.model.params)])
      else none
  | .pushChunks ids chunkVals => do
      let pairs ← pairUp ids chunkVals
      let model ← pairs.foldlM (ChunkBasedModel.pushChunk K.table) s.model
      some ({ s with model }, [])

/-- `Load`. -/
def load (s : ModelSystem S Val) :
    Hint → Option (ModelSystem S Val × List (ModelEvent Val))
  | .kvStoreChunks => some (s, [])
  | .kvStoreIntegral => do
      let ids := List.range K.table.chunkNum
      let s ← fetchChunk K s ids
      some ({ s with model.isCached := fun c => decide (c < K.table.chunkNum) }, [.fetched ids])

/-- `Dump`. -/
def dump (s : ModelSystem S Val) (hint : Hint) : Option (ModelSystem S Val) := do
  let chunks := s.model.dumped K.table hint
  let (servers, _) ← K.call false s.servers (.pushChunks (chunks.map Prod.fst) (chunks.map Prod.snd))
  some { s with servers }

/-- `IntegralModel`. -/
structure IntegralModel (Val : Type) where
  params : List Val

namespace IntegralModel

/-- `IntegralModel::Load` with `kKVStoreIntegral`. -/
def load (numParams : ℕ) (servers : ∀ p, Server (S p) Val) :
    Option (IntegralModel Val × ∀ p, Server (S p) Val) := do
  let (servers, dest) ← K.call true servers (.pull (List.range numParams))
  match dest with
  | some (.vals vals) => some (⟨vals⟩, servers)
  | _ => none

/-- `IntegralModel::Dump` with `kKVStoreIntegral`. -/
def dump (numParams : ℕ) (m : IntegralModel Val) (servers : ∀ p, Server (S p) Val) :
    Option (∀ p, Server (S p) Val) := do
  let (servers, _) ← K.call true servers (.push (List.range numParams) m.params)
  some servers

/-- One round of the loop of `Push`. -/
def pushKey (m : IntegralModel Val) (p : ℕ × Val) : Option (IntegralModel Val) :=
  if p.1 < m.params.length then some ⟨m.params.modify p.1 (· + p.2)⟩ else none

omit [Add Val] in
/-- The loop of `Pull`. -/
def pull (m : IntegralModel Val) (keys : List ℕ) : Option (List Val) :=
  keys.mapM fun key => m.params[key]?

end IntegralModel

/-- The calls on the vector; what concerns a chunk concerns its keys. -/
def integralStep (t : RangeTable) (m : IntegralModel Val) :
    ModelCall Val → Option (IntegralModel Val × List (ModelEvent Val))
  | .pull keys => do
      let vals ← m.pull keys
      some (m, [.pulled keys vals])
  | .push keys vals => do
      let pairs ← pairUp keys vals
      let m ← pairs.foldlM IntegralModel.pushKey m
      some (m, [])
  | .pullChunks ids _ => do
      let chunks ← ids.mapM fun c => m.pull (chunkKeys t c)
      some (m, [.pulledChunks ids chunks])
  | .pushChunks ids chunkVals => do
      let pairs ← pairUp ids chunkVals
      let m ← (pairs.flatMap (chunkPairs t.chunkSize)).foldlM IntegralModel.pushKey m
      some (m, [])

end Code

/-! ## Content -/

/-- Cached chunks hold the values of `g`; the others are empty, and the KV store holds their
values. -/
structure Caches (t : RangeTable) (kv g : ℕ → Val) (m : ChunkBasedModel Val) : Prop where
  cached : ∀ c, m.isCached c = true → m.params c = (chunkKeys t c).map g
  absent : ∀ c, m.isCached c = false → m.params c = [] ∧ ∀ k ∈ chunkKeys t c, g k = kv k
  inRange : ∀ c, m.isCached c = true → c < t.chunkNum

/-- Replace a chunk. -/
def ChunkBasedModel.setChunk (m : ChunkBasedModel Val) (c : ℕ) (chunk : List Val) :
    ChunkBasedModel Val :=
  { m with params := Function.update m.params c chunk }

@[simp] theorem setChunk_self (m : ChunkBasedModel Val) (c : ℕ) (chunk : List Val) :
    (m.setChunk c chunk).params c = chunk :=
  Function.update_self ..

@[simp] theorem setChunk_isCached (m : ChunkBasedModel Val) (c : ℕ) (chunk : List Val) :
    (m.setChunk c chunk).isCached = m.isCached := rfl

theorem setChunk_of_ne (m : ChunkBasedModel Val) {c c' : ℕ} (h : c' ≠ c) (chunk : List Val) :
    (m.setChunk c chunk).params c' = m.params c' :=
  Function.update_of_ne h _ _

theorem caches_new (t : RangeTable) (kv : ℕ → Val) : Caches t kv kv .new where
  cached _ h := by cases h
  absent _ _ := ⟨rfl, fun _ _ => rfl⟩
  inRange _ h := by cases h

theorem nodup_chunkKeys (t : RangeTable) (c : ℕ) : (chunkKeys t c).Nodup :=
  List.nodup_range'

/-- The loop of `PrepareChunks` finds the chunks that are not cached, each once. -/
theorem collect_spec {t : RangeTable} (m : ChunkBasedModel Val) {ids : List ℕ}
    (hlt : ∀ c ∈ ids, c < t.chunkNum) :
    ∃ m' toFetch, m.collect t ids = some (m', toFetch) ∧ m'.params = m.params ∧
      (∀ c, m'.isCached c = true ↔ m.isCached c = true ∨ c ∈ ids) ∧ toFetch.Sublist ids ∧
      toFetch.Nodup ∧ ∀ c, c ∈ toFetch ↔ c ∈ ids ∧ m.isCached c = false := by
  induction ids generalizing m with
  | nil => exact ⟨m, [], rfl, rfl, by simp, .slnil, .nil, by simp⟩
  | cons c ids ih =>
      obtain ⟨hc, hrest⟩ := List.forall_mem_cons.mp hlt
      by_cases hcached : m.isCached c = false
      · obtain ⟨m', toFetch, hcollect, hparams, hflags, hsub, hnodup, hmem⟩ :=
          ih { m with isCached := Function.update m.isCached c true } hrest
        have hupdate : ∀ c', Function.update m.isCached c true c' = true ↔
            c' = c ∨ m.isCached c' = true := by
          intro c'
          by_cases heq : c' = c
          · simp [heq]
          · simp [heq]
        have hnot : c ∉ toFetch := by
          intro hin
          have hfalse := ((hmem c).mp hin).2
          simp at hfalse
        refine ⟨m', c :: toFetch, by simp [ChunkBasedModel.collect, hc, hcached, hcollect],
          hparams, fun c' => ?_, hsub.cons_cons c, List.nodup_cons.mpr ⟨hnot, hnodup⟩, fun c' => ?_⟩
        · rw [hflags, hupdate, List.mem_cons]
          tauto
        · rw [List.mem_cons, hmem, List.mem_cons]
          by_cases heq : c' = c
          · simp [heq, hcached]
          · simp [heq]
      · obtain ⟨m', toFetch, hcollect, hparams, hflags, hsub, hnodup, hmem⟩ := ih m hrest
        have htrue : m.isCached c = true := Bool.not_eq_false _ ▸ hcached
        refine ⟨m', toFetch, by simp [ChunkBasedModel.collect, hc, hcached, hcollect], hparams,
          fun c' => ?_, hsub.cons c, hnodup, fun c' => ?_⟩
        · rw [hflags, List.mem_cons]
          constructor
          · tauto
          · rintro (h | rfl | h)
            · exact .inl h
            · exact .inl htrue
            · exact .inr h
        · rw [hmem, List.mem_cons]
          constructor
          · tauto
          · rintro ⟨rfl | h, hfalse⟩
            · rw [htrue] at hfalse
              cases hfalse
            · exact ⟨h, hfalse⟩

theorem receive_params (m : ChunkBasedModel Val) (ids : List ℕ) (f : ℕ → List Val) (c : ℕ) :
    (m.receive (ids.zip (ids.map f))).params c = if c ∈ ids then f c else m.params c := by
  rw [← List.map_prod_left_eq_zip]
  have hassign : (ids.map fun c => (c, f c)).foldl (fun params p => Function.update params p.1 p.2)
      m.params c = if c ∈ (ids.map fun c => (c, f c)).map Prod.fst then f c else m.params c :=
    assign_pairs (by simp) c
  simpa [ChunkBasedModel.receive, Function.comp_def] using hassign

section Content

variable {t : RangeTable} {n : ℕ} {kv g : ℕ → Val} {m : ChunkBasedModel Val}

/-- Fetching the chunks that have been marked as cached. -/
theorem Caches.receive (h : Caches t kv g m) {m' : ChunkBasedModel Val} {toFetch : List ℕ}
    (hparams : m'.params = m.params)
    (hflags : ∀ c, m'.isCached c = true ↔ m.isCached c = true ∨ c ∈ toFetch)
    (hmissing : ∀ c ∈ toFetch, m.isCached c = false ∧ c < t.chunkNum) :
    Caches t kv g (m'.receive (toFetch.zip (toFetch.map fun c => (chunkKeys t c).map kv))) := by
  constructor
  · intro c hcached
    rw [receive_params, hparams]
    split
    · next hin =>
        obtain ⟨hfalse, -⟩ := hmissing c hin
        exact List.map_congr_left fun k hk => ((h.absent c hfalse).2 k hk).symm
    · next hnot => exact h.cached c (((hflags c).mp hcached).resolve_right hnot)
  · intro c hcached
    have hboth : ¬ (m.isCached c = true ∨ c ∈ toFetch) := fun hor => by
      have htrue := (hflags c).mpr hor
      have hfalse : m'.isCached c = false := hcached
      rw [hfalse] at htrue
      cases htrue
    obtain ⟨hfalse, hnot⟩ := not_or.mp hboth
    rw [receive_params, if_neg hnot, hparams]
    exact h.absent c (Bool.not_eq_true _ ▸ hfalse)
  · intro c hcached
    rcases (hflags c).mp hcached with hold | hin
    · exact h.inRange c hold
    · exact (hmissing c hin).2

variable [Add Val] (ht : t.Partitioned n)
include ht

omit [Add Val] in
/-- A change of the content of one cached chunk. -/
theorem Caches.change (h : Caches t kv g m) {c : ℕ} (hc : m.isCached c = true) {g' : ℕ → Val}
    (hg : ∀ k, k / t.chunkSize ≠ c → g' k = g k) :
    Caches t kv g' (m.setChunk c ((chunkKeys t c).map g')) := by
  have hsame : ∀ c', c' ≠ c → ∀ k ∈ chunkKeys t c', g' k = g k := by
    intro c' hne k hk
    exact hg k fun heq => hne (heq ▸ (chunk_of_mem ht hk).symm)
  constructor
  · intro c' hcached
    by_cases heq : c' = c
    · subst heq
      rw [setChunk_self]
    · rw [setChunk_of_ne m heq, h.cached c' hcached]
      exact List.map_congr_left fun k hk => (hsame c' heq k hk).symm
  · intro c' hcached
    have heq : c' ≠ c := by
      rintro rfl
      exact Bool.noConfusion (hc.symm.trans hcached)
    obtain ⟨hnil, hkv⟩ := h.absent c' hcached
    refine ⟨(setChunk_of_ne m heq _).trans hnil, fun k hk => ?_⟩
    rw [hsame c' heq k hk]
    exact hkv k hk
  · exact h.inRange

/-- Adding to one key of a cached chunk. -/
theorem Caches.pushKey (h : Caches t kv g m) {p : ℕ × Val} (hp : p.1 < t.maxKey)
    (hc : m.isCached (p.1 / t.chunkSize) = true) :
    ∃ m', m.pushKey t p = some m' ∧ Caches t kv (addAt g p) m' ∧ m'.isCached = m.isCached := by
  have hloc : getLocation t p.1 = some (p.1 / t.chunkSize, p.1 % t.chunkSize) := if_pos hp
  have hkey : (chunkKeys t (p.1 / t.chunkSize))[p.1 % t.chunkSize]? = some p.1 := by
    rw [chunkKeys, List.getElem?_range' (offset_lt_of_key ht hp), Nat.one_mul, Nat.div_add_mod']
  have hlen : p.1 % t.chunkSize < (m.params (p.1 / t.chunkSize)).length := by
    rw [h.cached _ hc]
    simpa using offset_lt_of_key ht hp
  have hmodify : (m.params (p.1 / t.chunkSize)).modify (p.1 % t.chunkSize) (· + p.2) =
      (chunkKeys t (p.1 / t.chunkSize)).map (addAt g p) := by
    rw [h.cached _ hc]
    exact map_modify g (nodup_chunkKeys t _) hkey (· + p.2)
  refine ⟨m.setChunk (p.1 / t.chunkSize) ((chunkKeys t (p.1 / t.chunkSize)).map (addAt g p)), ?_,
    ?_, rfl⟩
  · simp [ChunkBasedModel.pushKey, incKey, hloc, hc, hlen, hmodify, ChunkBasedModel.setChunk]
  · refine h.change ht hc fun k hk => addAt_of_ne g ?_
    rintro rfl
    exact hk rfl

/-- **`Push` adds what it is given.** -/
theorem Caches.push {pairs : List (ℕ × Val)} (h : Caches t kv g m)
    (hlt : ∀ p ∈ pairs, p.1 < t.maxKey)
    (hcached : ∀ p ∈ pairs, m.isCached (p.1 / t.chunkSize) = true) :
    ∃ m', pairs.foldlM (ChunkBasedModel.pushKey t) m = some m' ∧
      Caches t kv (addAll g pairs) m' ∧ m'.isCached = m.isCached := by
  induction pairs generalizing m g with
  | nil => exact ⟨m, rfl, h, rfl⟩
  | cons p pairs ih =>
      obtain ⟨hp, hlt⟩ := List.forall_mem_cons.mp hlt
      obtain ⟨hc, hcached⟩ := List.forall_mem_cons.mp hcached
      obtain ⟨m₁, hfirst, h₁, hflags₁⟩ := h.pushKey ht hp hc
      obtain ⟨m₂, hrest, h₂, hflags₂⟩ := ih h₁ hlt (by rwa [hflags₁])
      refine ⟨m₂, ?_, h₂, hflags₂.trans hflags₁⟩
      rw [List.foldlM_cons, hfirst]
      exact hrest

/-- Adding a chunk, which is as long as the one that is held. -/
theorem Caches.pushChunk (h : Caches t kv g m) {p : ℕ × List Val} (hp : p.1 < t.chunkNum)
    (hlen : (m.params p.1).length = p.2.length) :
    ∃ m', m.pushChunk t p = some m' ∧
      Caches t kv (addAll g (chunkPairs t.chunkSize p)) m' ∧ m'.isCached = m.isCached ∧
      ∀ c, (m'.params c).length = (m.params c).length := by
  have hresult : m.pushChunk t p =
      some (m.setChunk p.1 (List.zipWith (· + ·) (m.params p.1) p.2)) := by
    simp [ChunkBasedModel.pushChunk, incChunk, hp, hlen, ChunkBasedModel.setChunk]
  refine ⟨_, hresult, ?_, rfl, fun c => ?_⟩
  · cases hc : m.isCached p.1 with
    | false =>
        -- An empty chunk is added to one that is not cached.
        have hnil := (h.absent p.1 hc).1
        have hnil' : p.2 = [] := by
          rw [hnil] at hlen
          exact List.eq_nil_of_length_eq_zero hlen.symm
        have hsame : Function.update m.params p.1 [] = m.params := by
          rw [← hnil, Function.update_eq_self]
        simpa [hnil, hnil', chunkPairs, ChunkBasedModel.setChunk, hsame] using h
    | true =>
        have hsize : p.2.length = t.realChunkSize p.1 := by
          rw [← hlen, h.cached p.1 hc]
          simp
        have hpairs : chunkPairs t.chunkSize p = (chunkKeys t p.1).zip p.2 := by
          rw [chunkPairs, chunkKeys, hsize]
        have hadd : List.zipWith (· + ·) (m.params p.1) p.2 =
            (chunkKeys t p.1).map (addAll g (chunkPairs t.chunkSize p)) := by
          rw [h.cached p.1 hc, hpairs]
          exact zipWith_add g (nodup_chunkKeys t p.1) (by simp [hsize])
        rw [hadd]
        refine h.change ht hc fun k hk => addAll_of_not_mem g fun hmem => hk ?_
        rw [hpairs, List.map_fst_zip (by simp [hsize])] at hmem
        exact chunk_of_mem ht hmem
  · by_cases heq : c = p.1
    · subst heq
      simp [hlen]
    · rw [setChunk_of_ne m heq]

/-- **`PushChunks` adds what it is given.** -/
theorem Caches.pushChunks {chunks : List (ℕ × List Val)} (h : Caches t kv g m)
    (hlt : ∀ p ∈ chunks, p.1 < t.chunkNum)
    (hlen : ∀ p ∈ chunks, (m.params p.1).length = p.2.length) :
    ∃ m', chunks.foldlM (ChunkBasedModel.pushChunk t) m = some m' ∧
      Caches t kv (addAll g (chunks.flatMap (chunkPairs t.chunkSize))) m' ∧
      m'.isCached = m.isCached := by
  induction chunks generalizing m g with
  | nil => exact ⟨m, rfl, h, rfl⟩
  | cons p chunks ih =>
      obtain ⟨hp, hlt⟩ := List.forall_mem_cons.mp hlt
      obtain ⟨hl, hlen⟩ := List.forall_mem_cons.mp hlen
      obtain ⟨m₁, hfirst, h₁, hflags₁, hlen₁⟩ := h.pushChunk ht hp hl
      obtain ⟨m₂, hrest, h₂, hflags₂⟩ := ih h₁ hlt fun q hq => (hlen₁ q.1).trans (hlen q hq)
      refine ⟨m₂, ?_, ?_, hflags₂.trans hflags₁⟩
      · rw [List.foldlM_cons, hfirst]
        exact hrest
      · rwa [List.flatMap_cons, addAll_append]

omit [Add Val] in
/-- Reading one key of a cached chunk. -/
theorem Caches.readKey (h : Caches t kv g m) {k : ℕ} (hk : k < t.maxKey)
    (hcached : m.isCached (k / t.chunkSize) = true) :
    (do let (c, i) ← getLocation t k; (m.params c)[i]?) = some (g k) := by
  have hloc : getLocation t k = some (k / t.chunkSize, k % t.chunkSize) := if_pos hk
  have hkey : (chunkKeys t (k / t.chunkSize))[k % t.chunkSize]? = some k := by
    rw [chunkKeys, List.getElem?_range' (offset_lt_of_key ht hk), Nat.one_mul, Nat.div_add_mod']
  simp [hloc, h.cached _ hcached, hkey]

omit [Add Val] in
/-- **`Pull` reads the content.** -/
theorem Caches.readKeys (h : Caches t kv g m) {keys : List ℕ} (hlt : ∀ k ∈ keys, k < t.maxKey)
    (hcached : ∀ k ∈ keys, m.isCached (k / t.chunkSize) = true) :
    ML.readKeys t m.params keys = some (keys.map g) :=
  mapM_eq_map fun k hk => h.readKey ht (hlt k hk) (hcached k hk)

end Content

/-! ## The vector -/

section Integral

variable [Add Val]

/-- `Push` adds what it is given. -/
theorem IntegralModel.push_spec (g : ℕ → Val) {n : ℕ} {pairs : List (ℕ × Val)}
    (hlt : ∀ p ∈ pairs, p.1 < n) :
    pairs.foldlM IntegralModel.pushKey ⟨(List.range n).map g⟩ =
      some ⟨(List.range n).map (addAll g pairs)⟩ := by
  induction pairs generalizing g with
  | nil => rfl
  | cons p pairs ih =>
      obtain ⟨hp, hlt⟩ := List.forall_mem_cons.mp hlt
      have hkey : (List.range n)[p.1]? = some p.1 := by simp [hp]
      have hmodify : ((List.range n).map g).modify p.1 (· + p.2) = (List.range n).map (addAt g p) :=
        map_modify g List.nodup_range hkey (· + p.2)
      have hfirst : IntegralModel.pushKey ⟨(List.range n).map g⟩ p =
          some ⟨(List.range n).map (addAt g p)⟩ := by
        simp [IntegralModel.pushKey, hp, hmodify]
      rw [List.foldlM_cons, hfirst]
      exact ih (addAt g p) hlt

omit [Add Val] in
/-- `Pull` reads what is held. -/
theorem IntegralModel.pull_spec (g : ℕ → Val) {n : ℕ} {keys : List ℕ} (hlt : ∀ k ∈ keys, k < n) :
    IntegralModel.pull ⟨(List.range n).map g⟩ keys = some (keys.map g) := by
  refine mapM_eq_map fun k hk => ?_
  simp [hlt k hk]

end Integral

/-! ## The calls -/

/-- The chunks that were asked for in a history, with repetitions. -/
def fetchedChunks (history : List (ModelEvent Val)) : List ℕ :=
  history.flatMap fun e => match e with
    | .fetched ids => ids
    | _ => []

@[simp] theorem fetchedChunks_append (history o : List (ModelEvent Val)) :
    fetchedChunks (history ++ o) = fetchedChunks history ++ fetchedChunks o :=
  List.flatMap_append

/-- What the pulls of a history returned. -/
def results (history : List (ModelEvent Val)) : List (ModelEvent Val) :=
  history.filter fun e => match e with
    | .fetched _ => false
    | _ => true

@[simp] theorem results_append (history o : List (ModelEvent Val)) :
    results (history ++ o) = results history ++ results o :=
  List.filter_append ..

namespace ModelCall

/-- The entries that a push adds, in order. -/
def pushes (t : RangeTable) : ModelCall Val → List (ℕ × Val)
  | push keys vals => keys.zip vals
  | pushChunks ids chunkVals => (ids.zip chunkVals).flatMap (chunkPairs t.chunkSize)
  | _ => []

/-- What a pull returns of a model with the content `g`. -/
def returns (t : RangeTable) (g : ℕ → Val) : ModelCall Val → List (ModelEvent Val)
  | pull keys => [.pulled keys (keys.map g)]
  | pullChunks ids _ => [.pulledChunks ids (ids.map fun c => (chunkKeys t c).map g)]
  | _ => []

/-- What the caller has to respect: sorted keys or chunks of the model in a pull, cached chunks in a
`Push`, chunks as long as those that are held in a `PushChunks`, and as many values as keys. -/
def Admissible (t : RangeTable) (m : ChunkBasedModel Val) : ModelCall Val → Prop
  | pull keys => ValidKeys t keys
  | push keys vals => keys.length ≤ vals.length ∧
      ∀ k ∈ keys, k < t.maxKey ∧ m.isCached (k / t.chunkSize) = true
  | pullChunks ids chunkVals => ids.Pairwise (· ≤ ·) ∧ (∀ c ∈ ids, c < t.chunkNum) ∧
      ids.length = chunkVals.length
  | pushChunks ids chunkVals => ids.length ≤ chunkVals.length ∧
      ∀ p ∈ ids.zip chunkVals, p.1 < t.chunkNum ∧ (m.params p.1).length = p.2.length

end ModelCall

section System

variable {S : ℕ × ℕ → Type} [∀ p, StorageT (S p) Val] [Add Val] {K : ModelClient} {n : ℕ}
  {isVector : ℕ → Bool} (V : ∀ i, StoreView (S (K.modelId, i)) Val K.table i (isVector i))

/-- The KV store holds `kv`, and the model has the content `g`. -/
structure Synced (n : ℕ) (kv g : ℕ → Val) (s : ModelSystem S Val) : Prop where
  servers : AssignServers V n s.servers
  stored : ∀ k < K.table.maxKey, stored V s.servers k = kv k
  caches : Caches K.table kv g s.model

variable (ht : K.table.Partitioned n)
  (hown : ∀ i < n, ∀ k, K.table.keyBound n i ≤ k → k < K.table.keyBound n (i + 1) → (V i).Owned k)
include ht

omit [Add Val] in
/-- The keys of a chunk are keys of the model. -/
theorem chunkKeys_lt {c k : ℕ} (hc : c < K.table.chunkNum) (hk : k ∈ chunkKeys K.table c) :
    k < K.table.maxKey := by
  rw [chunkKeys, ht.realChunkSize_eq hc, List.mem_range'_1] at hk
  omega

include hown

/-- **A fetch** writes what the KV store holds into the chunks. -/
theorem fetchChunk_spec {kv : ℕ → Val} {s : ModelSystem S Val} (hs : AssignServers V n s.servers)
    (hstored : ∀ k < K.table.maxKey, stored V s.servers k = kv k) {ids : List ℕ} (hne : ids ≠ [])
    (hstrict : ids.Pairwise (· < ·)) (hlt : ∀ c ∈ ids, c < K.table.chunkNum) :
    ∃ servers, fetchChunk K s ids = some ⟨s.model.receive (ids.zip (ids.map fun c =>
        (chunkKeys K.table c).map kv)), servers⟩ ∧ AssignServers V n servers ∧
      ∀ k < K.table.maxKey, stored V servers k = kv k := by
  have hvalid : (Call.pullChunks ids (ids.map s.model.params)).ValidPull K.table :=
    ⟨hne, hstrict, hlt, by simp⟩
  obtain ⟨servers, hcall, hs', hsame⟩ :=
    callAndWait_pull V ht hown hs K.src (K.flags false) hvalid.fits
  have hchunks : (Call.pullChunks ids (ids.map s.model.params)).result K.table
      (heldBy V s.servers) = .chunks (ids.map fun c => (chunkKeys K.table c).map kv) := by
    refine congrArg Dest.chunks (List.map_congr_left fun c hc => ?_)
    rw [← ht.realChunkSize_eq (hlt c hc)]
    refine List.map_congr_left fun k hk => ?_
    rw [← hstored k (chunkKeys_lt ht (hlt c hc) hk), KVStore.stored, owner_chunkKeys ht hlt hc hk]
  refine ⟨servers, ?_, hs', fun k hk => (hsame k hk).trans (hstored k hk)⟩
  rw [fetchChunk, ModelClient.call, hcall, hchunks]
  rfl

/-- **`PrepareChunks`** fetches the chunks that are not cached, and changes no content. -/
theorem prepareChunks_spec {kv g : ℕ → Val} {s : ModelSystem S Val} (h : Synced V n kv g s)
    {ids : List ℕ} (hsorted : ids.Pairwise (· ≤ ·)) (hlt : ∀ c ∈ ids, c < K.table.chunkNum) :
    ∃ s' o, prepareChunks K s ids = some (s', o) ∧ Synced V n kv g s' ∧
      (∀ c, s'.model.isCached c = true ↔ s.model.isCached c = true ∨ c ∈ ids) ∧ results o = [] ∧
      (fetchedChunks o).Nodup ∧
      ∀ c, c ∈ fetchedChunks o ↔ c ∈ ids ∧ s.model.isCached c = false := by
  obtain ⟨m, toFetch, hcollect, hparams, hflags, hsub, hnodup, hmem⟩ := collect_spec s.model hlt
  by_cases hnil : toFetch = []
  · have hnone : ∀ c, m.isCached c = true ↔ s.model.isCached c = true := by
      intro c
      rw [hflags]
      constructor
      · rintro (hc | hc)
        · exact hc
        · by_contra hfalse
          have hin := (hmem c).mpr ⟨hc, Bool.not_eq_true _ ▸ hfalse⟩
          rw [hnil] at hin
          cases hin
      · exact .inl
    have hsame : m = s.model := by
      have hcached : m.isCached = s.model.isCached := by
        funext c
        exact Bool.eq_iff_iff.mpr (hnone c)
      cases m
      cases hm : s.model
      rw [hm] at hparams hcached
      exact congr (congrArg ChunkBasedModel.mk hparams) hcached
    subst hsame
    refine ⟨s, [], ?_, h, hflags, rfl, .nil, fun c => ?_⟩
    · simp [prepareChunks, hcollect, hnil]
    · rw [← hmem, hnil]
      rfl
  · have hstrict : toFetch.Pairwise (· < ·) :=
      ((hsorted.sublist hsub).and hnodup).imp fun hlt => lt_of_le_of_ne hlt.1 hlt.2
    have hlt' : ∀ c ∈ toFetch, c < K.table.chunkNum := fun c hc => hlt c (hsub.subset hc)
    obtain ⟨servers, hfetch, hs', hstored⟩ := fetchChunk_spec V ht hown
      (s := ⟨m, s.servers⟩) h.servers h.stored hnil hstrict hlt'
    have hflags' : ∀ c, m.isCached c = true ↔ s.model.isCached c = true ∨ c ∈ toFetch := by
      intro c
      rw [hflags, hmem]
      cases s.model.isCached c <;> simp
    refine ⟨⟨m.receive (toFetch.zip (toFetch.map fun c => (chunkKeys K.table c).map kv)), servers⟩,
      [.fetched toFetch], ?_, ⟨hs', hstored, ?_⟩, hflags, rfl, ?_, fun c => ?_⟩
    · simp [prepareChunks, hcollect, hnil, hfetch]
    · exact h.caches.receive hparams hflags' fun c hc => ⟨((hmem c).mp hc).2, hlt' c hc⟩
    · simpa [fetchedChunks] using hnodup
    · simpa [fetchedChunks] using hmem c

/-- **One call** that respects the assertions succeeds, adds what is pushed to the content, returns
the content of what is pulled, and fetches only chunks that were not cached. -/
theorem chunkBasedStep_spec {kv g : ℕ → Val} {s : ModelSystem S Val} (h : Synced V n kv g s)
    {c : ModelCall Val} (hc : c.Admissible K.table s.model) :
    ∃ s' o, chunkBasedStep K s c = some (s', o) ∧
      Synced V n kv (addAll g (c.pushes K.table)) s' ∧ results o = c.returns K.table g ∧
      (fetchedChunks o).Nodup ∧
      (∀ id ∈ fetchedChunks o, s.model.isCached id = false) ∧
      ∀ id, s'.model.isCached id = true ↔ s.model.isCached id = true ∨ id ∈ fetchedChunks o := by
  cases c with
  | pull keys =>
      obtain ⟨ids, hids, hstrict, hmem⟩ := chunksToPrepare_spec hc.1 hc.2 none (by simp)
      have hin : ∀ k ∈ keys, k / K.table.chunkSize ∈ ids := fun k hk =>
        (hmem _).mpr ⟨by simp, k, hk, rfl⟩
      have hlt : ∀ id ∈ ids, id < K.table.chunkNum := by
        intro id hid
        obtain ⟨-, k, hk, rfl⟩ := (hmem id).mp hid
        exact chunk_lt_of_key ht (hc.2 k hk)
      obtain ⟨s', o, hprepare, hs', hflags, hnone, hnodup, hfetched⟩ :=
        prepareChunks_spec V ht hown h (hstrict.imp fun hlt => Nat.le_of_lt hlt) hlt
      have hread := hs'.caches.readKeys ht hc.2 fun k hk => (hflags _).mpr (.inr (hin k hk))
      refine ⟨s', o ++ [.pulled keys (keys.map g)], ?_, hs', ?_, ?_, fun id hid => ?_, fun id => ?_⟩
      · simp [chunkBasedStep, hids, hprepare, hread]
      · rw [results_append, hnone]
        rfl
      · simpa [fetchedChunks] using hnodup
      · exact ((hfetched id).mp (by simpa [fetchedChunks] using hid)).2
      · rw [hflags, fetchedChunks_append, List.mem_append, hfetched]
        cases s.model.isCached id <;> simp [fetchedChunks]
  | push keys vals =>
      obtain ⟨hlen, hkeys⟩ := hc
      have hmem : ∀ p ∈ keys.zip vals, p.1 ∈ keys := fun p hp => (List.of_mem_zip hp).1
      obtain ⟨m', hpush, hcaches, hflags⟩ := h.caches.push ht
        (fun p hp => (hkeys p.1 (hmem p hp)).1) fun p hp => (hkeys p.1 (hmem p hp)).2
      refine ⟨⟨m', s.servers⟩, [], ?_, ⟨h.servers, h.stored, hcaches⟩, rfl, .nil, by simp
        [fetchedChunks], by simp [hflags, fetchedChunks]⟩
      simp [chunkBasedStep, pairUp, hlen, hpush]
  | pullChunks ids chunkVals =>
      obtain ⟨hsorted, hlt, hlen⟩ := hc
      by_cases hnil : ids = []
      · subst hnil
        exact ⟨s, [.pulledChunks [] []], rfl, h, rfl, .nil, by simp [fetchedChunks],
          by simp [fetchedChunks]⟩
      · obtain ⟨s', o, hprepare, hs', hflags, hnone, hnodup, hfetched⟩ :=
          prepareChunks_spec V ht hown h hsorted hlt
        have hread : ids.map s'.model.params = ids.map fun c => (chunkKeys K.table c).map g :=
          List.map_congr_left fun id hid => hs'.caches.cached id ((hflags id).mpr (.inr hid))
        refine ⟨s', o ++ [.pulledChunks ids (ids.map s'.model.params)], ?_, hs', ?_, ?_,
          fun id hid => ?_, fun id => ?_⟩
        · simp [chunkBasedStep, hnil, hlen, hprepare]
        · rw [results_append, hnone, hread]
          rfl
        · simpa [fetchedChunks] using hnodup
        · exact ((hfetched id).mp (by simpa [fetchedChunks] using hid)).2
        · rw [hflags, fetchedChunks_append, List.mem_append, hfetched]
          cases s.model.isCached id <;> simp [fetchedChunks]
  | pushChunks ids chunkVals =>
      obtain ⟨hlen, hchunks⟩ := hc
      obtain ⟨m', hpush, hcaches, hflags⟩ := h.caches.pushChunks ht
        (fun p hp => (hchunks p hp).1) fun p hp => (hchunks p hp).2
      refine ⟨⟨m', s.servers⟩, [], ?_, ⟨h.servers, h.stored, hcaches⟩, rfl, .nil, by simp
        [fetchedChunks], by simp [hflags, fetchedChunks]⟩
      simp [chunkBasedStep, pairUp, hlen, hpush]

/-- **A dump** leaves the KV store with the content of the model. -/
theorem dump_spec {kv g : ℕ → Val} {s : ModelSystem S Val} (h : Synced V n kv g s) (hint : Hint) :
    ∃ s', dump K s hint = some s' ∧ s'.model = s.model ∧ AssignServers V n s'.servers ∧
      ∀ k < K.table.maxKey, stored V s'.servers k = g k := by
  set chunks := s.model.dumped K.table hint with hchunks
  have hsub : chunks.Sublist (s.model.chunks K.table) := by
    rw [hchunks]
    cases hint with
    | kvStoreChunks => exact List.filter_sublist
    | kvStoreIntegral => exact List.Sublist.refl _
  have hentry : ∀ p ∈ chunks, p.1 < K.table.chunkNum ∧ p.2 = s.model.params p.1 := by
    intro p hp
    obtain ⟨c, hc, rfl⟩ := List.mem_map.mp (hsub.subset hp)
    exact ⟨List.mem_range.mp hc, rfl⟩
  have hmem : ∀ c < K.table.chunkNum, s.model.params c ≠ [] → (c, s.model.params c) ∈ chunks := by
    intro c hc hne
    have hall : (c, s.model.params c) ∈ s.model.chunks K.table :=
      List.mem_map.mpr ⟨c, List.mem_range.mpr hc, rfl⟩
    rw [hchunks]
    cases hint with
    | kvStoreChunks => exact List.mem_filter.mpr ⟨hall, by simpa using hne⟩
    | kvStoreIntegral => exact hall
  have hzip : (chunks.map Prod.fst).zip (chunks.map Prod.snd) = chunks := by
    rw [List.zip_map']
    simp
  have hlen : ∀ p ∈ chunks, p.2.length ≤ K.table.realChunkSize p.1 := by
    intro p hp
    rw [(hentry p hp).2]
    cases hc : s.model.isCached p.1 with
    | false => simp [(h.caches.absent p.1 hc).1]
    | true => simp [h.caches.cached p.1 hc]
  have hfits : (Call.pushChunks (chunks.map Prod.fst) (chunks.map Prod.snd)).FitsPush K.table := by
    refine ⟨?_, fun c hc => ?_, by simp, fun p hp => ?_⟩
    · have hstrict : ((s.model.chunks K.table).map Prod.fst).Pairwise (· < ·) := by
        simpa [ChunkBasedModel.chunks, Function.comp_def] using List.pairwise_lt_range
      exact hstrict.sublist (hsub.map Prod.fst)
    · obtain ⟨p, hp, rfl⟩ := List.mem_map.mp hc
      exact (hentry p hp).1
    · rw [hzip] at hp
      rw [← ht.realChunkSize_eq (hentry p hp).1]
      exact hlen p hp
  obtain ⟨servers, hcall, hs', hwritten, hrest⟩ :=
    callAndWait_push V ht hown h.servers K.src (K.flags false) hfits
  refine ⟨⟨s.model, servers⟩, ?_, rfl, hs', fun k hk => ?_⟩
  · simp only [dump, ModelClient.call, ← hchunks, hcall, Option.bind_eq_bind, Option.bind_some]
  have hkey := key_mem_chunkKeys ht hk
  have hentries : (Call.pushChunks (chunks.map Prod.fst) (chunks.map Prod.snd)).entries K.table =
      chunks.flatMap (chunkPairs K.table.chunkSize) := by
    rw [Call.entries, hzip]
  rw [hentries] at hwritten hrest
  cases hc : s.model.isCached (k / K.table.chunkSize) with
  | true =>
      -- The chunk of the key is pushed as a whole.
      have hparams := h.caches.cached _ hc
      have hne : s.model.params (k / K.table.chunkSize) ≠ [] := by
        rw [hparams]
        simpa using List.ne_nil_of_mem hkey
      refine hwritten (k, g k) (List.mem_flatMap.mpr ⟨_, hmem _ (h.caches.inRange _ hc) hne, ?_⟩)
      have hpairs : chunkPairs K.table.chunkSize
          (k / K.table.chunkSize, s.model.params (k / K.table.chunkSize)) =
          (chunkKeys K.table (k / K.table.chunkSize)).map fun k => (k, g k) := by
        rw [chunkPairs, hparams, List.length_map, length_chunkKeys, ← chunkKeys]
        have hzip' := List.zip_map' (f := id) (g := g) (l := chunkKeys K.table (k / K.table.chunkSize))
        rwa [List.map_id] at hzip'
      rw [hpairs]
      exact List.mem_map_of_mem hkey
  | false =>
      -- Nothing is pushed to the keys of the chunk.
      obtain ⟨-, hkv⟩ := h.caches.absent _ hc
      rw [hrest k hk, h.stored k hk, hkv k hkey]
      intro hin
      obtain ⟨p, hp, hpk⟩ := List.mem_map.mp hin
      obtain ⟨x, hx, hpx⟩ := List.mem_flatMap.mp hp
      have hlong := hlen x hx
      obtain ⟨j, hval, hj⟩ := mem_chunkPairs.mp hpx
      obtain ⟨hjlt, -⟩ := List.getElem?_eq_some_iff.mp hval
      have hsame : k / K.table.chunkSize = x.1 := by
        refine chunk_of_mem ht ?_
        rw [← hpk, chunkKeys, List.mem_range'_1]
        omega
      rw [(hentry x hx).2, ← hsame, (h.caches.absent _ hc).1] at hjlt
      cases hjlt

/-- `Load` leaves a model with the content of the KV store. -/
theorem load_spec {servers : ∀ p, Server (S p) Val} (hs : AssignServers V n servers)
    (hint : Hint) : ∃ s o, load K ⟨.new, servers⟩ hint = some (s, o) ∧
      Synced V n (stored V servers) (stored V servers) s ∧ results o = [] ∧
      (fetchedChunks o).Nodup ∧
      ∀ id, s.model.isCached id = true ↔ id ∈ fetchedChunks o := by
  have hnew : Synced V n (stored V servers) (stored V servers) ⟨.new, servers⟩ :=
    ⟨hs, fun _ _ => rfl, caches_new _ _⟩
  cases hint with
  | kvStoreChunks => exact ⟨_, [], rfl, hnew, rfl, .nil, fun id => by
      simp [ChunkBasedModel.new, fetchedChunks]⟩
  | kvStoreIntegral =>
      have hlt : ∀ c ∈ List.range K.table.chunkNum, c < K.table.chunkNum := fun c hc =>
        List.mem_range.mp hc
      have hne : List.range K.table.chunkNum ≠ [] := by
        rw [ht.chunkNum_eq]
        simp
      obtain ⟨servers', hfetch, hs', hstored⟩ := fetchChunk_spec V ht hown
        (s := ⟨.new, servers⟩) hs (fun _ _ => rfl) hne List.pairwise_lt_range hlt
      have hall := @Caches.receive _ _ _ _ _ hnew.caches
        ⟨fun _ => [], fun c => decide (c < K.table.chunkNum)⟩ _ rfl
        (fun c => by simp [ChunkBasedModel.new]) fun c hc => ⟨rfl, hlt c hc⟩
      refine ⟨⟨_, servers'⟩, [.fetched (List.range K.table.chunkNum)], ?_, ⟨hs', hstored, hall⟩, rfl,
        ?_, fun id => ?_⟩
      · rw [load]
        simp only [hfetch]
        rfl
      · simpa [fetchedChunks] using List.nodup_range
      · simp [fetchedChunks]

omit hown in
/-- The same call on the vector. -/
theorem integralStep_spec {kv g : ℕ → Val} {s : ModelSystem S Val} (h : Synced V n kv g s)
    {c : ModelCall Val} (hc : c.Admissible K.table s.model) :
    integralStep K.table ⟨(List.range K.table.maxKey).map g⟩ c =
      some (⟨(List.range K.table.maxKey).map (addAll g (c.pushes K.table))⟩,
        c.returns K.table g) := by
  cases c with
  | pull keys =>
      simp [integralStep, IntegralModel.pull_spec g hc.2, ModelCall.pushes, ModelCall.returns]
  | push keys vals =>
      obtain ⟨hlen, hkeys⟩ := hc
      have hlt : ∀ p ∈ keys.zip vals, p.1 < K.table.maxKey := fun p hp =>
        (hkeys p.1 (List.of_mem_zip hp).1).1
      have hpush := IntegralModel.push_spec g hlt
      simp [integralStep, pairUp, hlen, hpush, ModelCall.pushes, ModelCall.returns]
  | pullChunks ids chunkVals =>
      have hpull : ids.mapM (fun c => IntegralModel.pull ⟨(List.range K.table.maxKey).map g⟩
          (chunkKeys K.table c)) = some (ids.map fun c => (chunkKeys K.table c).map g) :=
        mapM_eq_map fun c hin => IntegralModel.pull_spec g fun k hk =>
          chunkKeys_lt ht (hc.2.1 c hin) hk
      simp [integralStep, hpull, ModelCall.pushes, ModelCall.returns]
  | pushChunks ids chunkVals =>
      obtain ⟨hlen, hchunks⟩ := hc
      have hlt : ∀ p ∈ (ids.zip chunkVals).flatMap (chunkPairs K.table.chunkSize),
          p.1 < K.table.maxKey := by
        intro p hp
        obtain ⟨x, hx, hpx⟩ := List.mem_flatMap.mp hp
        obtain ⟨hnum, hsame⟩ := hchunks x hx
        obtain ⟨j, hval, hj⟩ := mem_chunkPairs.mp hpx
        obtain ⟨hjlt, -⟩ := List.getElem?_eq_some_iff.mp hval
        refine chunkKeys_lt ht hnum ?_
        rw [chunkKeys, List.mem_range'_1]
        cases hcached : s.model.isCached x.1 with
        | false =>
            rw [← hsame, (h.caches.absent x.1 hcached).1] at hjlt
            cases hjlt
        | true =>
            rw [← hsame, h.caches.cached x.1 hcached, List.length_map, length_chunkKeys] at hjlt
            omega
      simp [integralStep, pairUp, hlen, IntegralModel.push_spec g hlt, ModelCall.pushes,
        ModelCall.returns]

/-- **A run of calls** that respect the assertions, on the chunks and on the vector. -/
theorem chunkBased_run {kv g : ℕ → Val} {s : ModelSystem S Val} (h : Synced V n kv g s)
    {before : List (ModelEvent Val)} (hnodup : (fetchedChunks before).Nodup)
    (hfetched : ∀ id, s.model.isCached id = true ↔ id ∈ fetchedChunks before)
    {cs : List (ModelCall Val)} (hcs : Along (chunkBasedStep K)
      (fun _ s c => c.Admissible K.table s.model) before s cs) :
    ∃ s' out, run (chunkBasedStep K) s cs = some (s', out) ∧
      Synced V n kv (addAll g (cs.flatMap (ModelCall.pushes K.table))) s' ∧
      (fetchedChunks (before ++ out)).Nodup ∧
      (∀ id, s'.model.isCached id = true ↔ id ∈ fetchedChunks (before ++ out)) ∧
      run (integralStep K.table) ⟨(List.range K.table.maxKey).map g⟩ cs =
        some (⟨(List.range K.table.maxKey).map
          (addAll g (cs.flatMap (ModelCall.pushes K.table)))⟩, results out) := by
  induction cs generalizing s g before with
  | nil =>
      exact ⟨s, [], rfl, h, by simpa using hnodup, by simpa using hfetched, rfl⟩
  | cons c cs ih =>
      obtain ⟨hc, hrest⟩ := hcs
      obtain ⟨s₁, o, hstep, h₁, hresults, hnodup₁, hnew, hflags⟩ := chunkBasedStep_spec V ht hown h hc
      have hdisjoint : (fetchedChunks (before ++ o)).Nodup := by
        rw [fetchedChunks_append, List.nodup_append']
        refine ⟨hnodup, hnodup₁, fun id hold hid => ?_⟩
        have htrue := (hfetched id).mpr hold
        rw [hnew id hid] at htrue
        cases htrue
      have hfetched₁ : ∀ id, s₁.model.isCached id = true ↔ id ∈ fetchedChunks (before ++ o) := by
        intro id
        rw [hflags, hfetched, fetchedChunks_append, List.mem_append]
      obtain ⟨s', out, hrun, hs', hnodup', hfetched', hintegral⟩ :=
        ih h₁ hdisjoint hfetched₁ (hrest s₁ o hstep)
      rw [List.append_assoc] at hnodup' hfetched'
      refine ⟨s', o ++ out, ?_, ?_, hnodup', hfetched', ?_⟩
      · simp [run_cons, hstep, hrun]
      · rwa [List.flatMap_cons, addAll_append]
      · rw [run_cons, integralStep_spec V ht h hc, Option.bind_some, hintegral, Option.bind_some,
          List.flatMap_cons, addAll_append, results_append, hresults]

/-- Loading the vector. -/
theorem IntegralModel.load_spec {servers : ∀ p, Server (S p) Val} (hs : AssignServers V n servers) :
    ∃ servers', IntegralModel.load K K.table.maxKey servers =
        some (⟨(List.range K.table.maxKey).map (stored V servers)⟩, servers') ∧
      AssignServers V n servers' := by
  have hne : List.range K.table.maxKey ≠ [] := by
    have hpos := ht.maxKey_pos
    simp
    omega
  have hvalid : (Call.pull (List.range K.table.maxKey) : Call Val).ValidPull K.table :=
    ⟨hne, List.pairwise_lt_range, fun k hk => List.mem_range.mp hk⟩
  obtain ⟨servers', hcall, hs', -⟩ := callAndWait_pull V ht hown hs K.src (K.flags true) hvalid.fits
  refine ⟨servers', ?_, hs'⟩
  rw [IntegralModel.load, ModelClient.call, hcall]
  rfl

/-- Dumping the vector. -/
theorem IntegralModel.dump_spec {servers : ∀ p, Server (S p) Val} (hs : AssignServers V n servers)
    (g : ℕ → Val) : ∃ servers', IntegralModel.dump K K.table.maxKey
        ⟨(List.range K.table.maxKey).map g⟩ servers = some servers' ∧
      ∀ k < K.table.maxKey, stored V servers' k = g k := by
  have hfits : (Call.push (List.range K.table.maxKey) ((List.range K.table.maxKey).map g)).FitsPush
      K.table := ⟨List.pairwise_lt_range, fun k hk => List.mem_range.mp hk, by simp⟩
  obtain ⟨servers', hcall, -, hwritten, -⟩ :=
    callAndWait_push V ht hown hs K.src (K.flags true) hfits
  refine ⟨servers', ?_, fun k hk => hwritten (k, g k) ?_⟩
  · rw [IntegralModel.dump, ModelClient.call, hcall]
    rfl
  · have hzip := List.zip_map' (f := id) (g := g) (l := List.range K.table.maxKey)
    rw [List.map_id] at hzip
    rw [Call.entries, hzip]
    exact List.mem_map_of_mem (List.mem_range.mpr hk)

end System

/-- **A model in chunks refines the flat vector.**  Loaded from the same assign store and given the
same calls, all of them within the assertions, the chunks and the vector return the same; no chunk
is fetched twice; and after a dump of either kind the KV store holds for every key what it held
before and then all that was pushed, as after a dump of the vector, while the keys of chunks that
were never fetched hold what they held.  The table is cut as `SetMaxKeyAndChunkSize` cuts it;
customized ranges need not be those of chunks. -/
theorem chunkBased_refines {S : ℕ × ℕ → Type} [∀ p, StorageT (S p) Val] [Add Val] {K : ModelClient}
    {n : ℕ} {isVector : ℕ → Bool} (V : ∀ i, StoreView (S (K.modelId, i)) Val K.table i (isVector i))
    (ht : K.table.Partitioned n)
    (hown : ∀ i r k, K.table.serverKeyRanges[i]? = some r → r.begin_ ≤ k → k < r.end_ →
      (V i).Owned k)
    {servers : ∀ p, Server (S p) Val} (hs : AssignServers V n servers) (hint : Hint) :
    ∃ s₀ o₀ I₀ servers₀, load K ⟨.new, servers⟩ hint = some (s₀, o₀) ∧
      IntegralModel.load K K.table.maxKey servers = some (I₀, servers₀) ∧
      ∀ cs, Along (chunkBasedStep K) (fun _ s c => c.Admissible K.table s.model) o₀ s₀ cs →
        ∃ s out I, run (chunkBasedStep K) s₀ cs = some (s, out) ∧
          run (integralStep K.table) I₀ cs = some (I, results out) ∧
          (fetchedChunks (o₀ ++ out)).Nodup ∧
          ∀ hint', ∃ s' servers', dump K s hint' = some s' ∧
            IntegralModel.dump K K.table.maxKey I servers₀ = some servers' ∧
            (∀ k < K.table.maxKey, stored V s'.servers k = stored V servers' k ∧
              stored V s'.servers k = (((cs.flatMap (ModelCall.pushes K.table)).filter fun p =>
                p.1 = k).map Prod.snd).foldl (· + ·) (stored V servers k)) ∧
            ∀ c < K.table.chunkNum, c ∉ fetchedChunks (o₀ ++ out) →
              ∀ k ∈ chunkKeys K.table c, stored V s'.servers k = stored V servers k := by
  have hbounds := owned_of_ranges V ht hown
  obtain ⟨s₀, o₀, hload, h₀, -, hnodup, hfetched⟩ := load_spec V ht hbounds hs hint
  obtain ⟨servers₀, hintegral, hs₀⟩ := IntegralModel.load_spec V ht hbounds hs
  refine ⟨s₀, o₀, _, servers₀, hload, hintegral, fun cs hcs => ?_⟩
  obtain ⟨s, out, hrun, h, hnodup', hfetched', hsame⟩ :=
    chunkBased_run V ht hbounds h₀ hnodup hfetched hcs
  refine ⟨s, out, _, hrun, hsame, hnodup', fun hint' => ?_⟩
  obtain ⟨s', hdump, -, -, hstored⟩ := dump_spec V ht hbounds h hint'
  obtain ⟨servers', hdump', hstored'⟩ := IntegralModel.dump_spec V ht hbounds hs₀
    (addAll (stored V servers) (cs.flatMap (ModelCall.pushes K.table)))
  refine ⟨s', servers', hdump, hdump', fun k hk => ⟨?_, ?_⟩, fun c hc hnot k hk => ?_⟩
  · rw [hstored k hk, hstored' k hk]
  · rw [hstored k hk, addAll_apply]
  · have hfalse : s.model.isCached c = false := by
      rw [← Bool.not_eq_true, hfetched']
      exact hnot
    rw [hstored k (chunkKeys_lt ht hc hk)]
    exact (h.caches.absent c hfalse).2 k hk

/-- Two servers, five keys in chunks of two. -/
def twoServers : ModelClient :=
  ⟨fun _ => setMaxKeyAndChunkSize 2 5 2, 0, 0, fun i => decide (i = 0)⟩

/-- Key `k` holds `10 * k`. -/
def tens (p : ℕ × ℕ) : Server (MapStore ℕ) ℕ :=
  .default ⟨p.2, ⟨fun k => some (10 * k)⟩, false, true⟩

theorem twoServers_partitioned : twoServers.table.Partitioned 2 :=
  partitioned_set (by decide) (by decide) (by decide) (by decide) (by decide) (by decide)

theorem twoServers_owned : ∀ i r k, twoServers.table.serverKeyRanges[i]? = some r →
    r.begin_ ≤ k → k < r.end_ → (mapView ℕ twoServers.table i).Owned k := by
  intro i r k hr _ hend
  have hle : ∀ r ∈ twoServers.table.serverKeyRanges, r.end_ ≤ 5 := by decide
  have := hle r (List.mem_of_getElem? hr)
  exact (by omega : k < 2 ^ 64)

theorem chunkBased_refines_twoServers : ∃ s s' : ModelSystem (fun _ => MapStore ℕ) ℕ,
    run (chunkBasedStep twoServers) ⟨.new, tens⟩ [.pull [1, 4], .push [1, 4] [7, 8],
      .pullChunks [1, 2] [[], []], .pushChunks [2] [[100]]] =
      some (s, [.fetched [0, 2], .pulled [1, 4] [10, 40], .fetched [1],
        .pulledChunks [1, 2] [[20, 30], [48]]]) ∧
    dump twoServers s .kvStoreChunks = some s' ∧
    stored (fun i => mapView ℕ twoServers.table i) s'.servers 4 = 148 := by
  obtain ⟨s₀, o₀, I₀, servers₀, hload, -, hall⟩ :=
    chunkBased_refines (fun i => mapView ℕ twoServers.table i) twoServers_partitioned twoServers_owned
      (⟨fun _ _ => rfl, fun _ _ => trivial⟩ : AssignServers _ 2 tens) .kvStoreChunks
  obtain ⟨rfl, rfl⟩ := Prod.mk.inj (Option.some.inj hload)
  have hcalls : Along (chunkBasedStep twoServers)
      (fun _ s c => c.Admissible twoServers.table s.model) [] ⟨.new, tens⟩
      [.pull [1, 4], .push [1, 4] [7, 8], .pullChunks [1, 2] [[], []], .pushChunks [2] [[100]]] := by
    apply along_cons rfl ⟨by decide, by decide⟩
    apply along_cons rfl ⟨by decide, by decide⟩
    apply along_cons rfl ⟨by decide, by decide, rfl⟩
    apply along_cons rfl ⟨by decide, by decide⟩
    trivial
  obtain ⟨s, out, I, hrun, -, -, hafter⟩ := hall _ hcalls
  have hout : (run (chunkBasedStep twoServers) ⟨.new, tens⟩ [.pull [1, 4], .push [1, 4] [7, 8],
      .pullChunks [1, 2] [[], []], .pushChunks [2] [[100]]]).map Prod.snd =
      some [.fetched [0, 2], .pulled [1, 4] [10, 40], .fetched [1],
        .pulledChunks [1, 2] [[20, 30], [48]]] := rfl
  rw [hrun] at hout
  obtain rfl := Option.some.inj hout
  obtain ⟨s', servers', hdumped, -, hstored, -⟩ := hafter .kvStoreChunks
  exact ⟨s, s', hrun, hdumped, (hstored 4 (by decide)).2⟩

end FlexPS.ML
