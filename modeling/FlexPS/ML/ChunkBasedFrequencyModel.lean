import FlexPS.KVStore.AnyOrder
import FlexPS.ML.ChunkBasedModel

/-!
# Frequent keys

`ChunkBasedFrequencyModel` keeps the values of frequent keys in a hash map of their own.  The chunk
of a frequent key may still be fetched for the other keys in it, and then the key has a second value,
which no call changes.  A dump pushes the chunks and after them the map, in the order in which the
map is iterated.

## Main definitions

* `FrequencySystem` and its operations — `loadFrequent`, `pull`, `push`, `dump`.
* `FrequencySynced` — where the values of the keys are held between the calls.
* `KeepsOneValue` — after a dump the KV store holds what was pushed.
* `chunkBasedFrequency_dump_iff` — when that is so.
-/

namespace FlexPS.ML

open KVStore Lib

variable {Val : Type}

/-! ## The code -/

/-- `ChunkBasedFrequencyModel` with the servers of its KV store: the chunks, and
`frequent_pool_`. -/
structure FrequencySystem (S : ℕ × ℕ → Type) (Val : Type) where
  base : ModelSystem S Val
  frequentPool : ℕ → Option Val

namespace FrequencySystem

/-- A new model. -/
def new {S : ℕ × ℕ → Type} (servers : ∀ p, Server (S p) Val) : FrequencySystem S Val :=
  ⟨⟨.new, servers⟩, fun _ => none⟩

/-- The loop of `Prepare`, with the chunks that are to be fetched so far. -/
def collect (t : RangeTable) (pool : ℕ → Option Val) :
    ChunkBasedModel Val → List ℕ → List ℕ → Option (ChunkBasedModel Val × List ℕ)
  | m, toFetch, [] => some (m, toFetch)
  | m, toFetch, key :: keys =>
      match pool key with
      | some _ => collect t pool m toFetch keys
      | none => do
          let (c, _) ← getLocation t key
          if m.isCached c = false ∧ toFetch.getLast? ≠ some c then
            collect t pool { m with isCached := Function.update m.isCached c true }
              (toFetch ++ [c]) keys
          else collect t pool m toFetch keys

/-- The value of a key, from the pool or from its chunk. -/
def readKey (t : RangeTable) (pool : ℕ → Option Val) (params : ℕ → List Val) (key : ℕ) :
    Option Val :=
  match pool key with
  | some v => some v
  | none => do
      let (c, i) ← getLocation t key
      (params c)[i]?

section Code

variable {S : ℕ × ℕ → Type} [∀ p, StorageT (S p) Val] [Add Val] (K : ModelClient)

/-- `LoadFrequent`. -/
def loadFrequent (s : FrequencySystem S Val) (frequentIds : List ℕ) :
    Option (FrequencySystem S Val) := do
  let (servers, dest) ← K.call true s.base.servers (.pull frequentIds)
  match dest with
  | some (.vals params) => do
      let pairs ← pairUp frequentIds params
      some ⟨{ s.base with servers }, pairs.foldl (fun pool p => Function.update pool p.1 (some p.2))
        s.frequentPool⟩
  | _ => none

/-- `Prepare`. -/
def prepare (s : FrequencySystem S Val) (keys : List ℕ) : Option (FrequencySystem S Val) := do
  let (model, toFetch) ← collect K.table s.frequentPool s.base.model [] keys
  if toFetch = [] then some { s with base := { s.base with model } }
  else
    let base ← fetchChunk K { s.base with model } toFetch
    some { s with base }

/-- `Pull`. -/
def pull (s : FrequencySystem S Val) (keys : List ℕ) :
    Option (FrequencySystem S Val × List Val) := do
  let s ← s.prepare K keys
  let vals ← keys.mapM (readKey K.table s.frequentPool s.base.model.params)
  some (s, vals)

omit [∀ p, StorageT (S p) Val] in
/-- One round of the loop of `Push`. -/
def pushKey (t : RangeTable) (s : FrequencySystem S Val) (p : ℕ × Val) :
    Option (FrequencySystem S Val) :=
  match s.frequentPool p.1 with
  | some v => some { s with frequentPool := Function.update s.frequentPool p.1 (some (v + p.2)) }
  | none => do
      let params ← incKey t s.base.model.params p
      some { s with base.model.params := params }

omit [∀ p, StorageT (S p) Val] in
/-- `Push`. -/
def push (s : FrequencySystem S Val) (keys : List ℕ) (vals : List Val) :
    Option (FrequencySystem S Val) := do
  let pairs ← pairUp keys vals
  pairs.foldlM (pushKey K.table) s

/-- `Dump`; the pool is iterated in the given order. -/
def dump (s : FrequencySystem S Val) (order : List ℕ) : Option (FrequencySystem S Val) := do
  let base ← ML.dump K s.base .kvStoreIntegral
  let vals ← order.mapM s.frequentPool
  let servers ← AnyOrder.pushAndWait K.tables K.src K.modelId (K.flags true) base.servers order vals
  some { s with base := { base with servers } }

/-- `Pull` and then `Push` of the same keys. -/
def pullPush (s : FrequencySystem S Val) (call : List ℕ × List Val) :
    Option (FrequencySystem S Val) := do
  let (s, _) ← s.pull K call.1
  s.push K call.1 call.2

end Code

end FrequencySystem

/-- What a key held at first, and all that was pushed to it. -/
def valueAfter [Add Val] (initial : ℕ → Val) (calls : List (List ℕ × List Val)) : ℕ → Val :=
  addAll initial (calls.flatMap fun call => call.1.zip call.2)

/-- A `Pull` from the KV store after a dump returns the given value for every key. -/
def KeepsOneValue {S : ℕ × ℕ → Type} [∀ p, StorageT (S p) Val] [Add Val] (K : ModelClient)
    (s : FrequencySystem S Val) (order : List ℕ) (value : ℕ → Val) : Prop :=
  ∃ s', s.dump K order = some s' ∧ ∀ k < K.table.maxKey, ∃ servers,
    K.call true s'.base.servers (.pull [k]) = some (servers, some (.vals [value k]))

/-! ## Where the values are -/

/-- The pool holds the frequent keys; the chunks hold the others, and the initial values of the
frequent keys. -/
structure FrequencySynced {S : ℕ × ℕ → Type} [∀ p, StorageT (S p) Val] {K : ModelClient}
    {isVector : ℕ → Bool} (V : ∀ i, StoreView (S (K.modelId, i)) Val K.table i (isVector i))
    (n : ℕ) (frequentIds : List ℕ) (kv g : ℕ → Val) (s : FrequencySystem S Val) : Prop where
  base : Synced V n kv (fun k => if k ∈ frequentIds then kv k else g k) s.base
  pool : ∀ k, s.frequentPool k = if k ∈ frequentIds then some (g k) else none

namespace FrequencySystem

/-- `Prepare` collects the chunks of the keys that are not frequent, as `PrepareChunks` does. -/
theorem collect_eq {t : RangeTable} {n : ℕ} (ht : t.Partitioned n) (pool : ℕ → Option Val)
    {keys : List ℕ} (hlt : ∀ k ∈ keys, k < t.maxKey) (m : ChunkBasedModel Val) (toFetch : List ℕ)
    (hlast : ∀ c, toFetch.getLast? = some c → m.isCached c = true) :
    collect t pool m toFetch keys = (m.collect t ((keys.filter fun k => (pool k).isNone).map
      (· / t.chunkSize))).map fun r => (r.1, toFetch ++ r.2) := by
  induction keys generalizing m toFetch with
  | nil => simp [collect, ChunkBasedModel.collect]
  | cons key keys ih =>
      obtain ⟨hkey, hrest⟩ := List.forall_mem_cons.mp hlt
      cases hpool : pool key with
      | some v => simp [collect, hpool, ih hrest m toFetch hlast]
      | none =>
          have hloc : getLocation t key = some (key / t.chunkSize, key % t.chunkSize) := if_pos hkey
          have hchunk := chunk_lt_of_key ht hkey
          by_cases hcached : m.isCached (key / t.chunkSize) = false
          · have hnew : toFetch.getLast? ≠ some (key / t.chunkSize) := by
              intro hsome
              rw [hlast _ hsome] at hcached
              cases hcached
            have hstep := ih hrest
              { m with isCached := Function.update m.isCached (key / t.chunkSize) true }
              (toFetch ++ [key / t.chunkSize]) (by simp)
            simp [collect, hpool, hloc, hcached, hnew, hstep, ChunkBasedModel.collect, hchunk,
              Option.map_eq_bind, Option.bind_assoc]
          · simp [collect, hpool, hloc, hcached, ih hrest m toFetch hlast, ChunkBasedModel.collect,
              hchunk]

section System

variable {S : ℕ × ℕ → Type} [∀ p, StorageT (S p) Val] [Add Val] {K : ModelClient} {n : ℕ}
  {isVector : ℕ → Bool} (V : ∀ i, StoreView (S (K.modelId, i)) Val K.table i (isVector i))
  (ht : K.table.Partitioned n)
  (hown : ∀ i < n, ∀ k, K.table.keyBound n i ≤ k → k < K.table.keyBound n (i + 1) → (V i).Owned k)
  {frequentIds : List ℕ} {kv g : ℕ → Val} {s : FrequencySystem S Val}
include ht hown

/-- `LoadFrequent` fills the pool with what the KV store holds. -/
theorem loadFrequent_spec {servers : ∀ p, Server (S p) Val} (hs : AssignServers V n servers)
    (hids : ValidKeys K.table frequentIds) :
    ∃ s, loadFrequent K (.new servers) frequentIds = some s ∧
      FrequencySynced V n frequentIds (stored V servers) (stored V servers) s := by
  obtain ⟨servers', hcall, hs', hsame⟩ :=
    callAndWait_pull V ht hown hs K.src (K.flags true) (c := .pull frequentIds) hids
  have hpairs : pairUp frequentIds (frequentIds.map fun k => heldBy V servers (K.table.owner k) k) =
      some (frequentIds.map fun k => (k, stored V servers k)) := by
    rw [pairUp, if_pos (by simp), List.map_prod_left_eq_zip]
    rfl
  have hload : loadFrequent K (.new servers) frequentIds = some ⟨⟨.new, servers'⟩,
      (frequentIds.map fun k => (k, stored V servers k)).foldl
        (fun pool p => Function.update pool p.1 (some p.2)) fun _ => none⟩ := by
    rw [loadFrequent, new, ModelClient.call, hcall]
    simp only [Option.bind_eq_bind, Option.bind_some, Call.result, hpairs]
  refine ⟨_, hload, ⟨hs', hsame, ?_⟩, fun k => ?_⟩
  · simpa using caches_new K.table (stored V servers)
  · have hpool := @assign_pairs _ _ _ _ (fun p : ℕ × Val => some p.2) Prod.fst
      (fun k => some (stored V servers k)) (fun _ => none)
      (frequentIds.map fun k => (k, stored V servers k)) (by simp) k
    simpa [Function.comp_def] using hpool

/-- `Prepare` fetches the chunks of the keys that are not frequent. -/
theorem prepare_spec (h : FrequencySynced V n frequentIds kv g s) {keys : List ℕ}
    (hkeys : ValidKeys K.table keys) :
    ∃ s', s.prepare K keys = some s' ∧ FrequencySynced V n frequentIds kv g s' ∧
      ∀ k ∈ keys, k ∉ frequentIds → s'.base.model.isCached (k / K.table.chunkSize) = true := by
  set ids := (keys.filter fun k => (s.frequentPool k).isNone).map (· / K.table.chunkSize) with hids
  have hsorted : ids.Pairwise (· ≤ ·) := by
    rw [hids, List.pairwise_map]
    exact (hkeys.1.filter _).imp fun hle => Nat.div_le_div_right hle
  have hlt : ∀ c ∈ ids, c < K.table.chunkNum := by
    intro c hc
    obtain ⟨k, hk, rfl⟩ := List.mem_map.mp hc
    exact chunk_lt_of_key ht (hkeys.2 k (List.mem_filter.mp hk).1)
  obtain ⟨base, o, hprepare, hbase, hflags, -⟩ := prepareChunks_spec V ht hown h.base hsorted hlt
  have hcollect := collect_eq ht s.frequentPool hkeys.2 s.base.model [] (by simp)
  have hresult : s.prepare K keys = some { s with base } := by
    rw [prepareChunks] at hprepare
    rw [prepare, hcollect, ← hids]
    cases hc : s.base.model.collect K.table ids with
    | none => simp [hc] at hprepare
    | some r =>
        simp only [hc, Option.bind_eq_bind, Option.bind_some, Option.map_some, List.nil_append]
          at hprepare ⊢
        split at hprepare
        · next hnil =>
            obtain ⟨rfl, -⟩ := Prod.mk.inj (Option.some.inj hprepare)
            rw [if_pos hnil]
        · next hne =>
            obtain ⟨base', hfetch, hsome⟩ := Option.bind_eq_some_iff.mp hprepare
            obtain ⟨rfl, -⟩ := Prod.mk.inj (Option.some.inj hsome)
            rw [if_neg hne, hfetch]
            rfl
  refine ⟨_, hresult, ⟨hbase, h.pool⟩, fun k hk hnot => (hflags _).mpr (.inr ?_)⟩
  have hnone : (s.frequentPool k).isNone = true := by simp [h.pool, hnot]
  exact List.mem_map_of_mem (List.mem_filter.mpr ⟨hk, hnone⟩)

/-- **`Pull` returns the values of the keys**, and changes none. -/
theorem pull_spec (h : FrequencySynced V n frequentIds kv g s) {keys : List ℕ}
    (hkeys : ValidKeys K.table keys) :
    ∃ s', s.pull K keys = some (s', keys.map g) ∧ FrequencySynced V n frequentIds kv g s' ∧
      ∀ k ∈ keys, k ∉ frequentIds → s'.base.model.isCached (k / K.table.chunkSize) = true := by
  obtain ⟨s', hprepare, h', hcached⟩ := prepare_spec V ht hown h hkeys
  have hread : keys.mapM (readKey K.table s'.frequentPool s'.base.model.params) =
      some (keys.map g) := by
    refine mapM_eq_map fun k hk => ?_
    by_cases hin : k ∈ frequentIds
    · simp [readKey, h'.pool, hin]
    · have hchunk := h'.base.caches.readKey ht (hkeys.2 k hk) (hcached k hk hin)
      rw [if_neg hin] at hchunk
      simpa [readKey, h'.pool, hin] using hchunk
  exact ⟨s', by simp [pull, hprepare, hread], h', hcached⟩

omit hown in
/-- **One round of `Push`** adds to the key where its value is held. -/
theorem pushKey_spec (h : FrequencySynced V n frequentIds kv g s) {p : ℕ × Val}
    (hp : p.1 < K.table.maxKey)
    (hcached : p.1 ∉ frequentIds → s.base.model.isCached (p.1 / K.table.chunkSize) = true) :
    ∃ s', s.pushKey K.table p = some s' ∧ FrequencySynced V n frequentIds kv (addAt g p) s' ∧
      s'.base.model.isCached = s.base.model.isCached := by
  by_cases hin : p.1 ∈ frequentIds
  · have hsame : (fun k => if k ∈ frequentIds then kv k else addAt g p k) =
        fun k => if k ∈ frequentIds then kv k else g k := by
      funext k
      by_cases hk : k ∈ frequentIds
      · rw [if_pos hk, if_pos hk]
      · have hne : k ≠ p.1 := fun heq => hk (heq ▸ hin)
        rw [if_neg hk, if_neg hk, addAt_of_ne g hne]
    have hpush : s.pushKey K.table p = some { s with
        frequentPool := Function.update s.frequentPool p.1 (some (g p.1 + p.2)) } := by
      simp only [pushKey, h.pool, hin, if_true]
    refine ⟨_, hpush, ⟨?_, fun k => ?_⟩, rfl⟩
    · rw [hsame]
      exact h.base
    · by_cases hk : k = p.1
      · subst hk
        simp [hin]
      · simp only [Function.update_of_ne hk, h.pool, addAt_of_ne g hk]
  · have hc := hcached hin
    obtain ⟨m, hpush, hcaches, hflags⟩ := h.base.caches.pushKey ht hp hc
    have hsame : addAt (fun k => if k ∈ frequentIds then kv k else g k) p =
        fun k => if k ∈ frequentIds then kv k else addAt g p k := by
      funext k
      by_cases hk : k = p.1
      · subst hk
        simp [hin]
      · simp [addAt_of_ne _ hk]
    have hloc : getLocation K.table p.1 = some (p.1 / K.table.chunkSize, p.1 % K.table.chunkSize) :=
      if_pos hp
    rw [hsame] at hcaches
    rw [ChunkBasedModel.pushKey, hloc] at hpush
    simp only [Option.bind_eq_bind, Option.bind_some, hc, if_true] at hpush
    obtain ⟨params, hinc, rfl⟩ := Option.map_eq_some_iff.mp (Option.map_eq_bind ▸ hpush)
    refine ⟨{ s with base.model.params := params }, ?_, ⟨⟨h.base.servers, h.base.stored, hcaches⟩,
      fun k => ?_⟩, rfl⟩
    · simp [pushKey, h.pool, hin, hinc]
    · rw [h.pool k]
      by_cases hk : k ∈ frequentIds
      · have hne : k ≠ p.1 := fun heq => hin (heq ▸ hk)
        rw [if_pos hk, if_pos hk, addAt_of_ne g hne]
      · rw [if_neg hk, if_neg hk]

omit hown in
/-- The loop of `Push`. -/
theorem push_spec (h : FrequencySynced V n frequentIds kv g s) {pairs : List (ℕ × Val)}
    (hlt : ∀ p ∈ pairs, p.1 < K.table.maxKey)
    (hcached : ∀ p ∈ pairs, p.1 ∉ frequentIds →
      s.base.model.isCached (p.1 / K.table.chunkSize) = true) :
    ∃ s', pairs.foldlM (pushKey K.table) s = some s' ∧
      FrequencySynced V n frequentIds kv (addAll g pairs) s' := by
  induction pairs generalizing s g with
  | nil => exact ⟨s, rfl, h⟩
  | cons p pairs ih =>
      obtain ⟨hp, hlt⟩ := List.forall_mem_cons.mp hlt
      obtain ⟨hc, hcached⟩ := List.forall_mem_cons.mp hcached
      obtain ⟨s₁, hfirst, h₁, hflags⟩ := pushKey_spec V ht h hp hc
      obtain ⟨s₂, hrest, h₂⟩ := ih h₁ hlt (by rwa [hflags])
      refine ⟨s₂, ?_, h₂⟩
      rw [List.foldlM_cons, hfirst]
      exact hrest

/-- **A run of pulls and pushes** adds what is pushed. -/
theorem pullPush_run (h : FrequencySynced V n frequentIds kv g s)
    {calls : List (List ℕ × List Val)}
    (hcalls : ∀ call ∈ calls, ValidKeys K.table call.1 ∧ call.1.length ≤ call.2.length) :
    ∃ s', calls.foldlM (pullPush K) s = some s' ∧
      FrequencySynced V n frequentIds kv (valueAfter g calls) s' := by
  induction calls generalizing s g with
  | nil => exact ⟨s, rfl, h⟩
  | cons call calls ih =>
      obtain ⟨⟨hkeys, hlen⟩, hrest⟩ := List.forall_mem_cons.mp hcalls
      obtain ⟨s₁, hpull, h₁, hcached⟩ := pull_spec V ht hown h hkeys
      have hmem : ∀ p ∈ call.1.zip call.2, p.1 ∈ call.1 := fun p hp => (List.of_mem_zip hp).1
      obtain ⟨s₂, hpush, h₂⟩ := push_spec V ht h₁ (fun p hp => hkeys.2 p.1 (hmem p hp))
        fun p hp => hcached p.1 (hmem p hp)
      obtain ⟨s₃, hrun, h₃⟩ := ih h₂ hrest
      have hstep : s.pullPush K call = some s₂ := by
        simp [pullPush, hpull, push, pairUp, hlen, hpush]
      refine ⟨s₃, ?_, ?_⟩
      · rw [List.foldlM_cons, hstep]
        exact hrun
      · rw [valueAfter, List.flatMap_cons, addAll_append]
        exact h₃

/-- **`Dump`**: the chunks bring the values of the keys that are not frequent and the initial values
of the others; what is left is to push the pool. -/
theorem dump_eq (h : FrequencySynced V n frequentIds kv g s) {order : List ℕ}
    (hmem : ∀ k ∈ order, k ∈ frequentIds) :
    ∃ base : ModelSystem S Val, AssignServers V n base.servers ∧
      (∀ k < K.table.maxKey, stored V base.servers k = if k ∈ frequentIds then kv k else g k) ∧
      s.dump K order = (AnyOrder.pushAndWait K.tables K.src K.modelId (K.flags true) base.servers
        order (order.map g)).map fun servers => { s with base := { base with servers } } := by
  obtain ⟨base, hdump, -, hs, hstored⟩ := ML.dump_spec V ht hown h.base .kvStoreIntegral
  have hvals : order.mapM s.frequentPool = some (order.map g) :=
    mapM_eq_map fun k hk => by rw [h.pool, if_pos (hmem k hk)]
  refine ⟨base, hs, hstored, ?_⟩
  rw [dump, hdump, hvals, Option.map_eq_bind]
  rfl

/-- The value that a pull of one key returns. -/
theorem pull_one {servers : ∀ p, Server (S p) Val} (hs : AssignServers V n servers) {k : ℕ}
    (hk : k < K.table.maxKey) :
    ∃ servers', K.call true servers (.pull [k]) =
      some (servers', some (.vals [stored V servers k])) := by
  have hfits : (Call.pull [k] : Call Val).FitsPull K.table := ⟨by simp, by simpa using hk⟩
  obtain ⟨servers', hcall, -⟩ := callAndWait_pull V ht hown hs K.src (K.flags true) hfits
  exact ⟨servers', hcall⟩

/-- **Which dumps keep the values**: those that put a frequent key into the slice of another server
only if that server has a place for it and nothing was changed. -/
theorem keepsOneValue_iff (h : FrequencySynced V n frequentIds kv g s)
    (hids : ∀ k ∈ frequentIds, k < K.table.maxKey) (hV : ∀ i < n, (V i).Rejects) {order : List ℕ}
    (hnodup : order.Nodup) (hmem : ∀ k, k ∈ order ↔ k ∈ frequentIds) :
    KeepsOneValue K s order g ↔ ∀ i < n, ∀ k ∈ AnyOrder.keysOf K.table order i,
      K.table.owner k ≠ i → (V i).Owned k ∧ g k = kv k := by
  have hlt : ∀ k ∈ order, k < K.table.maxKey := fun k hk => hids k ((hmem k).mp hk)
  have hlen : order.length = (order.map g).length := by simp
  obtain ⟨base, hs, hstored, hdump⟩ := dump_eq V ht hown h fun k hk => (hmem k).mp hk
  constructor
  · rintro ⟨s', hs', hpull⟩ i hi k hk hne
    rw [hdump] at hs'
    obtain ⟨servers, hpush, rfl⟩ := Option.map_eq_some_iff.mp hs'
    have howned := AnyOrder.owned_of_pushAndWait V ht hs hlen hV hlt hpush
    obtain ⟨servers', hpush', hgood, -, hrest⟩ :=
      AnyOrder.pushAndWait_spec V ht hs hlen hnodup howned hown K.src (K.flags true)
    obtain rfl := Option.some.inj (hpush.symm.trans hpush')
    have hin : k ∈ order := AnyOrder.mem_of_keysOf ht hi hk
    have hkey := hlt k hin
    have hnot : k ∉ AnyOrder.keysOf K.table order (K.table.owner k) := fun hmine =>
      hne (AnyOrder.keysOf_unique ht hlt hnodup (ht.owner_spec hkey).1 hi hmine hk)
    obtain ⟨after, hcall⟩ := hpull k hkey
    obtain ⟨after', hcall'⟩ := pull_one V ht hown hgood hkey
    have hval : g k = stored V servers k := by
      have hsame := (Prod.mk.inj (Option.some.inj (hcall.symm.trans hcall'))).2
      simpa using hsame
    refine ⟨howned i hi k hk, ?_⟩
    rw [hval, hrest k hkey hnot, hstored k hkey, if_pos ((hmem k).mp hin)]
  · intro hcond
    have howned : ∀ i < n, ∀ k ∈ AnyOrder.keysOf K.table order i, (V i).Owned k := by
      intro i hi k hk
      by_cases heq : K.table.owner k = i
      · obtain ⟨-, hlo, hhi⟩ := ht.owner_spec (hlt k (AnyOrder.mem_of_keysOf ht hi hk))
        exact hown i hi k (heq ▸ hlo) (heq ▸ hhi)
      · exact (hcond i hi k hk heq).1
    obtain ⟨servers, hpush, hgood, hwritten, hrest⟩ :=
      AnyOrder.pushAndWait_spec V ht hs hlen hnodup howned hown K.src (K.flags true)
    refine ⟨{ s with base := { base with servers } }, ?_, fun k hk => ?_⟩
    · rw [hdump, hpush]
      rfl
    have hval : stored V servers k = g k := by
      by_cases hmine : k ∈ AnyOrder.keysOf K.table order (K.table.owner k)
      · have hin := AnyOrder.mem_of_keysOf ht (ht.owner_spec hk).1 hmine
        refine hwritten (k, g k) ?_ hk hmine
        rw [← List.map_prod_left_eq_zip]
        exact List.mem_map_of_mem hin
      · rw [hrest k hk hmine, hstored k hk]
        by_cases hin : k ∈ frequentIds
        · -- The key is in the slice of another server.
          have hall := (hmem k).mpr hin
          rw [← AnyOrder.flatMap_keysOf ht hlt] at hall
          obtain ⟨i, hi, hk'⟩ := List.mem_flatMap.mp hall
          have hne : K.table.owner k ≠ i := fun heq => hmine (heq ▸ hk')
          rw [if_pos hin, (hcond i (List.mem_range.mp hi) k hk' hne).2]
        · rw [if_neg hin]
    obtain ⟨servers', hcall⟩ := pull_one V ht hown hgood hk
    exact ⟨servers', hval ▸ hcall⟩

end System

end FrequencySystem

/-- **When a dump brings all pushes back.**  Frequent keys are loaded and any calls made; then the
map is dumped in some order of its keys.  Afterwards every pull from the KV store returns what the
key held at first and all that was pushed to it, if and only if each frequent key is cut into the
slice of its owner, or into that of a server with a place for it and nothing was changed.  All keys
are cut into the slices of their owners if and only if the order visits them server by server. -/
theorem chunkBasedFrequency_dump_iff {S : ℕ × ℕ → Type} [∀ p, StorageT (S p) Val] [Add Val]
    {K : ModelClient} {n : ℕ} {isVector : ℕ → Bool}
    (V : ∀ i, StoreView (S (K.modelId, i)) Val K.table i (isVector i))
    (ht : K.table.Partitioned n)
    (hown : ∀ i r k, K.table.serverKeyRanges[i]? = some r → r.begin_ ≤ k → k < r.end_ →
      (V i).Owned k)
    (hV : ∀ i < n, (V i).Rejects) {servers : ∀ p, Server (S p) Val}
    (hs : AssignServers V n servers) {frequentIds : List ℕ}
    (hids : ValidKeys K.table frequentIds) :
    ∃ s₀, FrequencySystem.loadFrequent K (.new servers) frequentIds = some s₀ ∧
      ∀ calls : List (List ℕ × List Val),
        (∀ call ∈ calls, ValidKeys K.table call.1 ∧ call.1.length ≤ call.2.length) →
        ∃ s, calls.foldlM (FrequencySystem.pullPush K) s₀ = some s ∧
          ∀ order : List ℕ, order.Nodup → (∀ k, k ∈ order ↔ k ∈ frequentIds) →
            (KeepsOneValue K s order (valueAfter (stored V servers) calls) ↔
              ∀ i < n, ∀ k ∈ AnyOrder.keysOf K.table order i, K.table.owner k ≠ i →
                (V i).Owned k ∧
                  valueAfter (stored V servers) calls k = stored V servers k) ∧
            ((∀ i < n, ∀ k ∈ AnyOrder.keysOf K.table order i, K.table.owner k = i) ↔
              (order.map K.table.owner).Pairwise (· ≤ ·)) := by
  have hbounds := owned_of_ranges V ht hown
  obtain ⟨s₀, hload, h₀⟩ := FrequencySystem.loadFrequent_spec V ht hbounds hs hids
  refine ⟨s₀, hload, fun calls hcalls => ?_⟩
  obtain ⟨s, hrun, h⟩ := FrequencySystem.pullPush_run V ht hbounds h₀ hcalls
  refine ⟨s, hrun, fun order hnodup hmem => ⟨?_, ?_⟩⟩
  · exact FrequencySystem.keepsOneValue_iff V ht hbounds h hids.2 hV hnodup hmem
  · exact AnyOrder.keysOf_owner_iff ht fun k hk => hids.2 k ((hmem k).mp hk)

/-- Two servers that keep their ranges in vectors; there are no others. -/
def rowViews : ∀ i, StoreView (VecStore ℕ) ℕ twoServers.table i (decide (i < 2))
  | 0 => vecView _ 0 ⟨0, 4⟩ rfl (by decide) (by decide)
  | 1 => vecView _ 1 ⟨4, 5⟩ rfl (by decide) (by decide)
  | i + 2 =>
    { Owned _ := False
      Good _ := True
      view _ _ := 0
      interval := 0
      intervalOf_eq := by simp [intervalOf]
      read_eq _ := False.elim
      write_eq _ _ := False.elim }

/-- Key `k` holds `10 * k`. -/
def rowServers (p : ℕ × ℕ) : Server (VecStore ℕ) ℕ :=
  .default ⟨p.2, ⟨if p.2 = 0 then [0, 10, 20, 30] else [40]⟩, decide (p.2 < 2), true⟩

theorem rowViews_owned : ∀ i r k, twoServers.table.serverKeyRanges[i]? = some r → r.begin_ ≤ k →
    k < r.end_ → (rowViews i).Owned k := by
  rintro (_ | _ | i) r k hr hbegin hend
  · obtain rfl := Option.some.inj hr
    exact ⟨hbegin, hend⟩
  · obtain rfl := Option.some.inj hr
    exact ⟨hbegin, hend⟩
  · cases hr

theorem rejects_rowViews : ∀ i < 2, (rowViews i).Rejects := by
  rintro (_ | _ | i) hi
  · exact rejects_vecView (by decide) 0 ⟨0, 4⟩ rfl (by decide) (by decide)
  · exact rejects_vecView (by decide) 1 ⟨4, 5⟩ rfl (by decide) (by decide)
  · omega

theorem rowServers_good : ∀ i < 2, (rowViews i).Good (rowServers (0, i)).store := by
  rintro (_ | _ | i) hi
  · rfl
  · rfl
  · omega

/-- Maps and vectors. -/
theorem chunkBasedFrequency_dump_iff_twoServers :
    (∃ s₀ s, FrequencySystem.loadFrequent twoServers (.new tens) [1, 4] = some s₀ ∧
      [([1, 4], [7, 8])].foldlM (FrequencySystem.pullPush twoServers) s₀ = some s ∧
      KeepsOneValue twoServers s [1, 4]
        (valueAfter (stored (fun i => mapView ℕ twoServers.table i) tens) [([1, 4], [7, 8])])) ∧
    ∃ s₀ s, FrequencySystem.loadFrequent twoServers (.new rowServers) [1, 4] = some s₀ ∧
      [([1, 4], [7, 8])].foldlM (FrequencySystem.pullPush twoServers) s₀ = some s ∧
      KeepsOneValue twoServers s [1, 4]
        (valueAfter (stored rowViews rowServers) [([1, 4], [7, 8])]) := by
  constructor
  · obtain ⟨s₀, hload, hcalls⟩ := chunkBasedFrequency_dump_iff
      (fun i => mapView ℕ twoServers.table i) twoServers_partitioned twoServers_owned
      (fun i _ => rejects_mapView (by decide) i)
      (⟨fun _ _ => rfl, fun _ _ => trivial⟩ : AssignServers _ 2 tens)
      (by decide : ValidKeys twoServers.table [1, 4])
    obtain ⟨s, hrun, horder⟩ := hcalls [([1, 4], [7, 8])] (by decide)
    obtain ⟨hkeeps, hsorted⟩ := horder [1, 4] (by decide) fun _ => Iff.rfl
    have howner := hsorted.mpr (by decide)
    exact ⟨s₀, s, hload, hrun, hkeeps.mpr fun i hi k hk hne => absurd (howner i hi k hk) hne⟩
  · obtain ⟨s₀, hload, hcalls⟩ := chunkBasedFrequency_dump_iff (S := fun _ => VecStore ℕ)
      rowViews twoServers_partitioned rowViews_owned rejects_rowViews
      ⟨fun _ _ => rfl, rowServers_good⟩ (by decide : ValidKeys twoServers.table [1, 4])
    obtain ⟨s, hrun, horder⟩ := hcalls [([1, 4], [7, 8])] (by decide)
    obtain ⟨hkeeps, hsorted⟩ := horder [1, 4] (by decide) fun _ => Iff.rfl
    have howner := hsorted.mpr (by decide)
    exact ⟨s₀, s, hload, hrun, hkeeps.mpr fun i hi k hk hne => absurd (howner i hi k hk) hne⟩

/-- The searches put both keys into the slice of the first server when the key of the second comes
first. -/
theorem chunkBasedFrequency_misrouted :
    ∃ s₀ s, FrequencySystem.loadFrequent twoServers (.new tens) [1, 4] = some s₀ ∧
      [([1, 4], [7, 8])].foldlM (FrequencySystem.pullPush twoServers) s₀ = some s ∧
      ¬ KeepsOneValue twoServers s [4, 1]
        (valueAfter (stored (fun i => mapView ℕ twoServers.table i) tens) [([1, 4], [7, 8])]) := by
  have hread : (do
      let s₀ ← FrequencySystem.loadFrequent twoServers (.new tens) [1, 4]
      let s ← [([1, 4], [7, 8])].foldlM (FrequencySystem.pullPush twoServers) s₀
      let s' ← s.dump twoServers [4, 1]
      (twoServers.call true s'.base.servers (.pull [4])).map Prod.snd) =
      some (some (.vals [40])) := by decide +kernel
  obtain ⟨s₀, hload, hread⟩ := Option.bind_eq_some_iff.mp hread
  obtain ⟨s, hrun, hread⟩ := Option.bind_eq_some_iff.mp hread
  refine ⟨s₀, s, hload, hrun, ?_⟩
  rintro ⟨s', hdump, hpull⟩
  obtain ⟨servers, hcall⟩ := hpull 4 (by decide)
  have hvalue : valueAfter (stored (fun i => mapView ℕ twoServers.table i) tens)
      [([1, 4], [7, 8])] 4 = 48 := by decide
  rw [hdump, Option.bind_eq_bind, Option.bind_some, hcall, hvalue] at hread
  simp at hread

end FlexPS.ML
