import FlexPS.ML.CMSystem
import Mathlib.Data.Finset.Card

/-!
# The capacity of a managed cache

`num_cached_` is to count the chunks that are cached, and not to pass `cache_threshold_`.
`Prepare` keeps the count, but the number of chunks that it evicts does not depend on how many it
fetches.  `PullChunks` goes through `PrepareChunks` of a class that has no count.

## Main definitions

* `CMCall`, `cmCall` — the calls of a `ModelWithCM`, one after another.
* `ModelWithCM.cachedChunks` — the chunks with `is_cached_` set.
* `ModelWithCM.WithinCapacity` — `num_cached_` counts them and is within the threshold.
* `CMCall.WithinCapacity` — the calls after which this is still so.
* `cache_capacity` — it is so in every run of such calls.
-/

namespace FlexPS.ML

open KVStore Lib ModelWithCM

variable {P Byte Val : Type}

/-! ## The calls -/

/-- A call; `assert` compares the lengths of both arguments of `PullChunks` and `PushChunks`. -/
inductive CMCall (Val : Type) where
  | pull (keys : List ℕ)
  | push (keys : List ℕ) (vals : List Val)
  | pullChunks (chunkKeys : List ℕ)
  | pushChunks (chunks : List (ℕ × List Val))

/-- What a call returns. -/
inductive CMReply (Val : Type) where
  | values (vals : List Val)
  | chunks (vals : List (List Val))

namespace ModelWithCM

/-- The chunks whose mutexes `Prepare` locks all at once, which never succeeds when one of them is
there twice; `none` also for the failed assertion on the number of keys. -/
def chunksToLock (cfg : CMConfig Byte Val) (keys : List ℕ) : Option (List ℕ) :=
  if cfg.cacheThreshold < keys.length then none
  else do
    let chunks ← chunksToPrepare cfg.t none keys
    if chunks.Nodup then some chunks else none

/-- `prepare_count_` after `Prepare` has counted itself in. -/
def countIn (m : ModelWithCM P Byte Val) (chunks : List ℕ) : ModelWithCM P Byte Val :=
  { m with prepareCount :=
      chunks.foldl (fun count c => Function.update count c (count c + 1)) m.prepareCount }

/-- `chunks_to_fetch`. -/
def chunksToFetch (m : ModelWithCM P Byte Val) (chunks : List ℕ) : List ℕ :=
  chunks.filter fun c => !m.isCached c

/-- `Pull`. -/
def pull [Inhabited Byte] [Inhabited Val] (cfg : CMConfig Byte Val) (R : ReplacePolicy P)
    (kv : ℕ → Val) (m : ModelWithCM P Byte Val) (keys : List ℕ) :
    Option (ModelWithCM P Byte Val × List Val) :=
  if keys = [] then some (m, [])
  else do
    let _ ← chunksToLock cfg keys
    let (m, _) ← m.prepare cfg R kv keys
    let vals ← m.read cfg.t keys
    some (m, vals)

/-- The first loop of `PrepareChunks` when nobody else locks a chunk: the chunks that are not
cached, each once. -/
def collectUncached (m : ModelWithCM P Byte Val) : List ℕ → List ℕ → List ℕ
  | toFetch, [] => toFetch
  | toFetch, c :: cs =>
      if m.isCached c ∨ c ∈ toFetch then m.collectUncached toFetch cs
      else m.collectUncached (toFetch ++ [c]) cs

/-- `PrepareChunks`, which is that of `ChunkBasedMTModel`.  When all chunks are on disk, there is no
request to wait for, and the timestamp `-1` is out of range. -/
def prepareChunks [Inhabited Val] (cfg : CMConfig Byte Val) (kv : ℕ → Val)
    (m : ModelWithCM P Byte Val) (chunkKeys : List ℕ) : Option (ModelWithCM P Byte Val) :=
  if chunkKeys.all (· < cfg.t.chunkNum) then
    let toFetch := m.collectUncached [] chunkKeys
    if toFetch = [] then some m
    else if toFetch.any (m.status · = .inKVStore) then toFetch.foldlM (fetchChunk cfg kv) m
    else none
  else none

/-- `PullChunks`. -/
def pullChunks [Inhabited Val] (cfg : CMConfig Byte Val) (kv : ℕ → Val)
    (m : ModelWithCM P Byte Val) (chunkKeys : List ℕ) :
    Option (ModelWithCM P Byte Val × List (List Val)) :=
  if chunkKeys = [] then some (m, [])
  else do
    let m ← m.prepareChunks cfg kv chunkKeys
    if chunkKeys.length ≤ cfg.t.chunkNum then some (m, chunkKeys.map m.params) else none

/-- One round of the loop of `PushChunks`. -/
def pushChunk [Add Val] (t : RangeTable) (m : ModelWithCM P Byte Val) (p : ℕ × List Val) :
    Option (ModelWithCM P Byte Val) :=
  if p.1 < t.chunkNum ∧ (m.params p.1).length = p.2.length then
    some { m with params := Function.update m.params p.1 (List.zipWith (· + ·) (m.params p.1) p.2) }
  else none

/-- `PushChunks`. -/
def pushChunks [Add Val] (t : RangeTable) (m : ModelWithCM P Byte Val) (chunks : List (ℕ × List Val)) :
    Option (ModelWithCM P Byte Val) :=
  if chunks.length ≤ t.chunkNum then chunks.foldlM (pushChunk t) m else none

end ModelWithCM

/-- One call; `none` if it does not return, or fails an assertion. -/
def cmCall [Inhabited Byte] [Inhabited Val] [Add Val] (cfg : CMConfig Byte Val)
    (R : ReplacePolicy P) (kv : ℕ → Val) (m : ModelWithCM P Byte Val) :
    CMCall Val → Option (ModelWithCM P Byte Val × List (CMReply Val))
  | .pull keys => (m.pull cfg R kv keys).map fun r => (r.1, [.values r.2])
  | .push keys vals => (m.push cfg.t R keys vals).map fun m => (m, [])
  | .pullChunks chunkKeys => (m.pullChunks cfg kv chunkKeys).map fun r => (r.1, [.chunks r.2])
  | .pushChunks chunks => (m.pushChunks cfg.t chunks).map fun m => (m, [])

/-! ## The cached chunks -/

namespace ModelWithCM

/-- The chunks with `is_cached_` set. -/
def cachedChunks (t : RangeTable) (m : ModelWithCM P Byte Val) : Finset ℕ :=
  {c ∈ Finset.range t.chunkNum | m.isCached c}

/-- `num_cached_` counts the cached chunks, and there are at most `cache_threshold_`. -/
structure WithinCapacity (cfg : CMConfig Byte Val) (m : ModelWithCM P Byte Val) : Prop where
  count : m.numCached = (m.cachedChunks cfg.t).card
  le : m.numCached ≤ cfg.cacheThreshold

/-- What `replace_lock` returns in `Prepare`: `none` if it is not called, `some none` if it does not
return. -/
def replaceCall (cfg : CMConfig Byte Val) (R : ReplacePolicy P) (m : ModelWithCM P Byte Val)
    (keys : List ℕ) : Option (Option (List ℕ × P)) := do
  let chunks ← chunksToLock cfg keys
  if m.chunksToFetch chunks ≠ [] ∧
      m.numCached + (m.chunksToFetch chunks).length > cfg.cacheThreshold then
    some (R.replaceLock m.policy ((m.countIn chunks).pool cfg.t) cfg.numDumps)
  else none

/-- The assertion on `num_cached_` after `replace_lock` does not fail. -/
def AssertHolds (cfg : CMConfig Byte Val) (R : ReplacePolicy P) (m : ModelWithCM P Byte Val)
    (keys : List ℕ) : Prop :=
  ∀ chunks r, chunksToLock cfg keys = some chunks → m.replaceCall cfg R keys = some (some r) →
    m.numCached + (m.chunksToFetch chunks).length - r.1.length ≤ cfg.cacheThreshold

end ModelWithCM

/-- The chunks of a list of keys. -/
def requestedChunks (t : RangeTable) (keys : List ℕ) : Finset ℕ :=
  (keys.map (· / t.chunkSize)).toFinset

/-- The chunks that a `Pull` asks for fit with those that are cached when `num_dumps` chunks are
evicted; a `PullChunks` asks for cached chunks only. -/
def CMCall.Fits (cfg : CMConfig Byte Val) (m : ModelWithCM P Byte Val) : CMCall Val → Prop
  | .pull keys =>
      (m.cachedChunks cfg.t ∪ requestedChunks cfg.t keys).card ≤ cfg.cacheThreshold + cfg.numDumps
  | .pullChunks chunkKeys => ∀ c ∈ chunkKeys, m.isCached c
  | _ => True

/-- In every run of calls that are admitted, `num_cached_` counts the cached chunks and is within
the threshold, and no admitted `Pull` fails the assertion on it. -/
def RespectsCapacity [Inhabited Byte] [Inhabited Val] [Add Val] (cfg : CMConfig Byte Val)
    (R : ReplacePolicy P) (kv : ℕ → Val) (admits : ModelWithCM P Byte Val → CMCall Val → Prop) : Prop :=
  ∀ policy calls m out, Along (cmCall cfg R kv) (fun _ m call => admits m call) []
      (.new cfg.t policy) calls →
    run (cmCall cfg R kv) (.new cfg.t policy) calls = some (m, out) →
    m.WithinCapacity cfg ∧ ∀ keys, admits m (.pull keys) → m.AssertHolds cfg R keys

/-! ## The replacement policies -/

/-- `replace_lock` returns when there are enough chunks, and then with as many as it is asked for. -/
structure ReplacePolicy.Complete (R : ReplacePolicy P) : Prop where
  returns : ∀ p pool n, (R.replaceLock p pool n).isSome = true ↔ n ≤ pool.length
  length : ∀ {p pool n chosen p'}, R.replaceLock p pool n = some (chosen, p') → chosen.length = n

/-- A policy that takes the first chunks of the pool, in an order of its own, is complete. -/
theorem ReplacePolicy.Complete.ofTake {R : ReplacePolicy P}
    (hR : ∀ p pool n, ∃ (order : List ℕ) (p' : P), order.length = pool.length ∧
      R.replaceLock p pool n = if pool.length < n then none else some (order.take n, p')) :
    R.Complete where
  returns p pool n := by
    obtain ⟨order, p', -, hlock⟩ := hR p pool n
    rw [hlock]
    split
    · next hlt => exact iff_of_false nofun (not_le.mpr hlt)
    · next hge => exact iff_of_true rfl (not_lt.mp hge)
  length {p pool n chosen p₁} h := by
    obtain ⟨order, p', hlen, hlock⟩ := hR p pool n
    rw [hlock] at h
    split at h
    · cases h
    · next hge =>
        obtain ⟨rfl, -⟩ := Prod.mk.inj (Option.some.inj h)
        exact List.length_take_of_le (hlen ▸ not_lt.mp hge)

theorem complete_random : random.Complete :=
  .ofTake fun _ pool _ => ⟨pool, (), rfl, rfl⟩

section Sorted

variable {sort : (ℕ → ℕ) → List ℕ → List ℕ} (hsort : ∀ f l, (sort f l).Perm l)

theorem complete_lru : (lru sort hsort).Complete :=
  .ofTake fun p pool _ => ⟨sort p.recency pool, p, (hsort p.recency pool).length_eq, rfl⟩

theorem complete_lfu : (lfu sort hsort).Complete :=
  .ofTake fun p pool _ => ⟨sort p pool, _, (hsort p pool).length_eq, rfl⟩

end Sorted

/-! ## What the operations do to the cached chunks -/

section Requests

variable {t : RangeTable} {n : ℕ} {keys chunks : List ℕ}

/-- The chunks of any list of keys, not only a sorted one. -/
theorem mem_chunksToPrepare {current : Option ℕ} (h : chunksToPrepare t current keys = some chunks) :
    (∀ k ∈ keys, k < t.maxKey ∧ (current = some (k / t.chunkSize) ∨ k / t.chunkSize ∈ chunks)) ∧
    ∀ c ∈ chunks, ∃ k ∈ keys, k / t.chunkSize = c := by
  induction keys generalizing current chunks with
  | nil =>
      obtain rfl := Option.some.inj h
      exact ⟨nofun, nofun⟩
  | cons k keys ih =>
      simp only [chunksToPrepare, Option.bind_eq_bind, Option.bind_eq_some_iff] at h
      obtain ⟨⟨c, i⟩, hloc, rest, hrest, h⟩ := h
      obtain ⟨hall, hmem⟩ := ih hrest
      unfold getLocation at hloc
      split at hloc
      · next hlt =>
          obtain ⟨rfl, rfl⟩ := Prod.mk.inj (Option.some.inj hloc)
          obtain rfl := Option.some.inj h
          have hsub : rest ⊆ if current = some (k / t.chunkSize) then rest
              else k / t.chunkSize :: rest := by
            split
            · exact List.Subset.refl _
            · exact List.subset_cons_self _ _
          have hfirst : current = some (k / t.chunkSize) ∨ k / t.chunkSize ∈
              if current = some (k / t.chunkSize) then rest else k / t.chunkSize :: rest := by
            split
            · next hcur => exact .inl hcur
            · exact .inr (List.mem_cons_self ..)
          refine ⟨fun k' hk' => ?_, fun c hc => ?_⟩
          · rcases List.mem_cons.mp hk' with rfl | hk'
            · exact ⟨hlt, hfirst⟩
            · obtain ⟨hlt', hin⟩ := hall k' hk'
              refine ⟨hlt', ?_⟩
              rcases hin with heq | hin
              · rw [← Option.some.inj heq]
                exact hfirst
              · exact .inr (hsub hin)
          · have hc : c = k / t.chunkSize ∨ c ∈ rest := by
              split at hc
              · exact .inr hc
              · exact List.mem_cons.mp hc
            rcases hc with rfl | hc
            · exact ⟨k, List.mem_cons_self .., rfl⟩
            · obtain ⟨k', hk', hkc⟩ := hmem c hc
              exact ⟨k', List.mem_cons_of_mem _ hk', hkc⟩
      · cases hloc

/-- What `Prepare` locks are the chunks of the keys, each once. -/
theorem chunksToLock_spec {cfg : CMConfig Byte Val} (ht : cfg.t.Partitioned n)
    (h : chunksToLock cfg keys = some chunks) :
    chunksToPrepare cfg.t none keys = some chunks ∧ chunks.Nodup ∧
      keys.length ≤ cfg.cacheThreshold ∧ chunks.toFinset = requestedChunks cfg.t keys ∧
      ∀ c ∈ chunks, c < cfg.t.chunkNum := by
  unfold chunksToLock at h
  split at h
  · cases h
  · next hle =>
      simp only [Option.bind_eq_bind, Option.bind_eq_some_iff] at h
      obtain ⟨chunks', hchunks, h⟩ := h
      split at h
      · next hnodup =>
          obtain rfl := Option.some.inj h
          obtain ⟨hall, hmem⟩ := mem_chunksToPrepare hchunks
          refine ⟨hchunks, hnodup, not_lt.mp hle, ?_, fun c hc => ?_⟩
          · ext c
            simp only [requestedChunks, List.mem_toFinset, List.mem_map]
            refine ⟨hmem c, ?_⟩
            rintro ⟨k, hk, rfl⟩
            exact (hall k hk).2.resolve_left (Option.some_ne_none _).symm
          · obtain ⟨k, hk, rfl⟩ := hmem c hc
            exact chunk_lt_of_key ht (hall k hk).1
      · cases h

end Requests

namespace ModelWithCM

variable {t : RangeTable} {cfg : CMConfig Byte Val} {kv : ℕ → Val} {m m' : ModelWithCM P Byte Val}
  {chunks : List ℕ}

theorem mem_cachedChunks {c : ℕ} :
    c ∈ m.cachedChunks t ↔ c < t.chunkNum ∧ m.isCached c = true := by
  rw [cachedChunks, Finset.mem_filter, Finset.mem_range]

/-- Evicting chunks. -/
theorem flushAll_cached [Inhabited Byte] (h : chunks.foldlM (flushToDisk cfg) m = some m') :
    m'.cachedChunks t = m.cachedChunks t \ chunks.toFinset ∧ m'.numCached = m.numCached := by
  induction chunks generalizing m with
  | nil =>
      obtain rfl := Option.some.inj h
      exact ⟨by simp, rfl⟩
  | cons c chunks ih =>
      rw [List.foldlM_cons] at h
      obtain ⟨m₁, hfirst, h⟩ := Option.bind_eq_some_iff.mp h
      obtain ⟨r, -, hfirst⟩ := Option.bind_eq_some_iff.mp hfirst
      obtain rfl := Option.some.inj hfirst
      obtain ⟨hcached, hcount⟩ := ih h
      refine ⟨?_, hcount⟩
      rw [hcached]
      ext c'
      simp only [Finset.mem_sdiff, mem_cachedChunks, List.mem_toFinset, List.mem_cons, not_or]
      by_cases hne : c' = c
      · simp [hne]
      · simp [hne]

/-- Fetching chunks. -/
theorem fetchAll_cached [Inhabited Val] (hlt : ∀ c ∈ chunks, c < t.chunkNum)
    (h : chunks.foldlM (fetchChunk cfg kv) m = some m') :
    m'.cachedChunks t = m.cachedChunks t ∪ chunks.toFinset ∧ m'.numCached = m.numCached := by
  induction chunks generalizing m with
  | nil =>
      obtain rfl := Option.some.inj h
      exact ⟨by simp, rfl⟩
  | cons c chunks ih =>
      rw [List.foldlM_cons] at h
      obtain ⟨m₁, hfirst, h⟩ := Option.bind_eq_some_iff.mp h
      obtain ⟨r, -, hfirst⟩ := Option.bind_eq_some_iff.mp hfirst
      obtain rfl := Option.some.inj hfirst
      obtain ⟨hcached, hcount⟩ := ih (fun c' hc' => hlt c' (List.mem_cons_of_mem _ hc')) h
      refine ⟨?_, hcount⟩
      rw [hcached]
      ext c'
      simp only [Finset.mem_union, mem_cachedChunks, List.mem_toFinset, List.mem_cons]
      by_cases hne : c' = c
      · simp [hne, hlt c (List.mem_cons_self ..)]
      · simp [hne]

/-- What is fetched for some chunks is what they add to the cached ones. -/
theorem card_chunksToFetch (hnodup : chunks.Nodup) (hlt : ∀ c ∈ chunks, c < t.chunkNum) :
    (m.chunksToFetch chunks).Nodup ∧
    (m.chunksToFetch chunks).toFinset = chunks.toFinset \ m.cachedChunks t ∧
    (m.cachedChunks t).card + (m.chunksToFetch chunks).length =
      (m.cachedChunks t ∪ chunks.toFinset).card := by
  have hfetch : (m.chunksToFetch chunks).Nodup := hnodup.filter _
  have hset : (m.chunksToFetch chunks).toFinset = chunks.toFinset \ m.cachedChunks t := by
    ext c
    simp only [chunksToFetch, List.mem_toFinset, List.mem_filter, Finset.mem_sdiff,
      mem_cachedChunks, not_and, Bool.not_eq_true]
    refine and_congr_right fun hc => ?_
    simp [hlt c hc]
  refine ⟨hfetch, hset, ?_⟩
  rw [← List.toFinset_card_of_nodup hfetch, hset, Nat.add_comm, Finset.card_sdiff_add_card,
    Finset.union_comm]

/-- The chunks that are replaced are cached. -/
theorem chunksToReplace_sound {R : ReplacePolicy P} {wanted : ℤ}
    {chosen : List ℕ} {policy : P} (h : m.chunksToReplace cfg R wanted = some (chosen, policy)) :
    chosen.Nodup ∧ chosen.toFinset ⊆ m.cachedChunks cfg.t := by
  unfold chunksToReplace at h
  split at h
  · obtain ⟨hnodup, hsub⟩ := R.sound (List.nodup_range.filter _) h
    refine ⟨hnodup, fun c hc => ?_⟩
    have hpool := List.mem_filter.mp (hsub c (List.mem_toFinset.mp hc))
    exact mem_cachedChunks.mpr
      ⟨List.mem_range.mp hpool.1, (mem_pool (hsub c (List.mem_toFinset.mp hc))).1⟩
  · obtain ⟨rfl, -⟩ := Prod.mk.inj (Option.some.inj h)
    exact ⟨List.nodup_nil, by simp⟩

variable {R : ReplacePolicy P} {n : ℕ} {keys : List ℕ}

/-- `Prepare`, once the chunks are locked. -/
theorem prepare_of_locked [Inhabited Byte] [Inhabited Val]
    (hlock : chunksToLock cfg keys = some chunks) :
    m.prepare cfg R kv keys = if m.chunksToFetch chunks = [] then some (m.countIn chunks, [])
      else (m.countIn chunks).replaceAndFetch cfg R kv (m.chunksToFetch chunks) := by
  unfold chunksToLock at hlock
  unfold prepare
  split at hlock
  · cases hlock
  · next hle =>
      simp only [Option.bind_eq_bind, Option.bind_eq_some_iff] at hlock
      obtain ⟨chunks', hchunks, hlock⟩ := hlock
      split at hlock
      · obtain rfl := Option.some.inj hlock
        rw [if_neg hle, hchunks]
        rfl
      · cases hlock

/-- **`Prepare` keeps the count**, and what it lets pass is within the threshold. -/
theorem prepare_withinCapacity [Inhabited Byte] [Inhabited Val] (ht : cfg.t.Partitioned n)
    (hlock : chunksToLock cfg keys = some chunks) (h : m.WithinCapacity cfg) {replaced : List ℕ}
    (hprepare : m.prepare cfg R kv keys = some (m', replaced)) : m'.WithinCapacity cfg := by
  obtain ⟨-, hnodup, -, -, hlt⟩ := chunksToLock_spec ht hlock
  obtain ⟨hfetch, hset, hcard⟩ := card_chunksToFetch (m := m) hnodup hlt
  rw [prepare_of_locked hlock] at hprepare
  split at hprepare
  · obtain ⟨rfl, -⟩ := Prod.mk.inj (Option.some.inj hprepare)
    exact ⟨h.count, h.le⟩
  · simp only [replaceAndFetch, Option.bind_eq_bind, Option.bind_eq_some_iff] at hprepare
    obtain ⟨⟨toReplace, policy⟩, hreplace, hprepare⟩ := hprepare
    obtain ⟨hchosen, hsub⟩ := chunksToReplace_sound hreplace
    have hsub : toReplace.toFinset ⊆ m.cachedChunks cfg.t := hsub
    simp only at hprepare
    split at hprepare
    · cases hprepare
    · next hassert =>
        simp only [Option.bind_eq_some_iff, Option.some.injEq, Prod.mk.injEq] at hprepare
        obtain ⟨m₁, hflush, m₂, hfetched, rfl, -⟩ := hprepare
        obtain ⟨hcached₁, hcount₁⟩ := flushAll_cached hflush
        obtain ⟨hcached₂, hcount₂⟩ := fetchAll_cached
          (fun c hc => hlt c (List.mem_filter.mp hc).1) hfetched
        have hcached₁ : m₁.cachedChunks cfg.t = m.cachedChunks cfg.t \ toReplace.toFinset := hcached₁
        have hcached₂ : m₂.cachedChunks cfg.t =
            m₁.cachedChunks cfg.t ∪ (m.chunksToFetch chunks).toFinset := hcached₂
        have hcount : m₂.numCached =
            m.numCached + (m.chunksToFetch chunks).length - toReplace.length :=
          hcount₂.trans hcount₁
        have hnew : Disjoint (m.cachedChunks cfg.t \ toReplace.toFinset)
            (chunks.toFinset \ m.cachedChunks cfg.t) :=
          Finset.disjoint_sdiff.mono_left Finset.sdiff_subset
        have hafter : (m₂.cachedChunks cfg.t).card + toReplace.length =
            (m.cachedChunks cfg.t).card + (m.chunksToFetch chunks).length := by
          rw [hcached₂, hcached₁, hset, Finset.card_union_of_disjoint hnew, ← hset,
            List.toFinset_card_of_nodup hfetch, ← List.toFinset_card_of_nodup hchosen,
            Nat.add_right_comm, Finset.card_sdiff_add_card_eq_card hsub]
        have hbefore := h.count
        have hcapacity : (m.countIn chunks).numCached = m.numCached := rfl
        constructor
        · omega
        · omega

/-- The assertion does not fail when the chunks fit. -/
theorem assertHolds_of_fits (ht : cfg.t.Partitioned n) (hR : R.Complete) (h : m.WithinCapacity cfg)
    (hfits : (m.cachedChunks cfg.t ∪ requestedChunks cfg.t keys).card ≤
      cfg.cacheThreshold + cfg.numDumps) : m.AssertHolds cfg R keys := by
  intro chunks r hlock hcall
  obtain ⟨-, hnodup, -, hset, hlt⟩ := chunksToLock_spec ht hlock
  obtain ⟨-, -, hcard⟩ := card_chunksToFetch (m := m) hnodup hlt
  simp only [replaceCall, hlock, Option.bind_eq_bind, Option.bind_some] at hcall
  split at hcall
  · have hlen := hR.length (Option.some.inj hcall)
    have hcount := h.count
    rw [hset] at hcard
    omega
  · cases hcall

theorem pushChunks_cached [Add Val] {pushed : List (ℕ × List Val)}
    (h : pushed.foldlM (pushChunk t) m = some m') :
    m'.isCached = m.isCached ∧ m'.numCached = m.numCached := by
  induction pushed generalizing m with
  | nil =>
      obtain rfl := Option.some.inj h
      exact ⟨rfl, rfl⟩
  | cons p pushed ih =>
      rw [List.foldlM_cons] at h
      obtain ⟨m₁, hfirst, h⟩ := Option.bind_eq_some_iff.mp h
      unfold pushChunk at hfirst
      split at hfirst
      · obtain rfl := Option.some.inj hfirst
        have hrest := ih h
        exact hrest
      · cases hfirst

/-- Nothing is fetched when all chunks are cached. -/
theorem collectUncached_of_cached (h : ∀ c ∈ chunks, m.isCached c) (toFetch : List ℕ) :
    m.collectUncached toFetch chunks = toFetch := by
  induction chunks with
  | nil => rfl
  | cons c chunks ih =>
      rw [collectUncached, if_pos (.inl (h c (List.mem_cons_self ..)))]
      exact ih fun c' hc' => h c' (List.mem_cons_of_mem _ hc')

theorem WithinCapacity.congr (h : m.WithinCapacity cfg) (hcached : m'.isCached = m.isCached)
    (hcount : m'.numCached = m.numCached) : m'.WithinCapacity cfg := by
  have hchunks : m'.cachedChunks cfg.t = m.cachedChunks cfg.t := by
    rw [cachedChunks, cachedChunks, hcached]
  exact ⟨hchunks ▸ hcount ▸ h.count, hcount ▸ h.le⟩

end ModelWithCM

/-! ## Runs -/

section Runs

variable [Inhabited Byte] [Inhabited Val] [Add Val] {cfg : CMConfig Byte Val}
  {R : ReplacePolicy P} {kv : ℕ → Val} {n : ℕ} {m m' : ModelWithCM P Byte Val}

omit [Inhabited Byte] [Inhabited Val] [Add Val] in
theorem withinCapacity_new (cfg : CMConfig Byte Val) (policy : P) :
    (ModelWithCM.new cfg.t policy : ModelWithCM P Byte Val).WithinCapacity cfg := by
  have hnone : (ModelWithCM.new cfg.t policy : ModelWithCM P Byte Val).cachedChunks cfg.t = ∅ := by
    ext c
    simp [mem_cachedChunks, ModelWithCM.new]
  refine ⟨?_, Int.natCast_nonneg _⟩
  rw [hnone]
  rfl

/-- **A call that fits** keeps the cache within its capacity. -/
theorem cmCall_withinCapacity (ht : cfg.t.Partitioned n) (h : m.WithinCapacity cfg)
    {call : CMCall Val} (hfits : call.Fits cfg m) {out : List (CMReply Val)}
    (hcall : cmCall cfg R kv m call = some (m', out)) : m'.WithinCapacity cfg := by
  cases call with
  | pull keys =>
      obtain ⟨⟨m₁, vals⟩, hpull, heq⟩ := Option.map_eq_some_iff.mp hcall
      obtain ⟨rfl, -⟩ := Prod.mk.inj heq
      unfold ModelWithCM.pull at hpull
      split at hpull
      · obtain ⟨rfl, -⟩ := Prod.mk.inj (Option.some.inj hpull)
        exact h
      · obtain ⟨chunks, hlock, hpull⟩ := Option.bind_eq_some_iff.mp hpull
        obtain ⟨⟨m₂, replaced⟩, hprepare, hpull⟩ := Option.bind_eq_some_iff.mp hpull
        obtain ⟨vals', -, hpull⟩ := Option.bind_eq_some_iff.mp hpull
        obtain ⟨rfl, -⟩ := Prod.mk.inj (Option.some.inj hpull)
        exact prepare_withinCapacity ht hlock h hprepare
  | push keys vals =>
      obtain ⟨m₁, hpush, heq⟩ := Option.map_eq_some_iff.mp hcall
      obtain ⟨rfl, -⟩ := Prod.mk.inj heq
      obtain ⟨pairs, -, hpush⟩ := Option.bind_eq_some_iff.mp hpush
      obtain ⟨hcached, hcount, -⟩ := pushFrom_frame hpush
      exact h.congr hcached hcount
  | pullChunks chunkKeys =>
      obtain ⟨⟨m₁, vals⟩, hpull, heq⟩ := Option.map_eq_some_iff.mp hcall
      obtain ⟨rfl, -⟩ := Prod.mk.inj heq
      unfold ModelWithCM.pullChunks at hpull
      split at hpull
      · obtain ⟨rfl, -⟩ := Prod.mk.inj (Option.some.inj hpull)
        exact h
      · obtain ⟨m₂, hprepare, hpull⟩ := Option.bind_eq_some_iff.mp hpull
        split at hpull
        · obtain ⟨rfl, -⟩ := Prod.mk.inj (Option.some.inj hpull)
          unfold prepareChunks at hprepare
          simp only [collectUncached_of_cached hfits, if_true] at hprepare
          split at hprepare
          · obtain rfl := Option.some.inj hprepare
            exact h
          · cases hprepare
        · cases hpull
  | pushChunks chunks =>
      obtain ⟨m₁, hpush, heq⟩ := Option.map_eq_some_iff.mp hcall
      obtain ⟨rfl, -⟩ := Prod.mk.inj heq
      unfold ModelWithCM.pushChunks at hpush
      split at hpush
      · obtain ⟨hcached, hcount⟩ := pushChunks_cached hpush
        exact h.congr hcached hcount
      · cases hpush

/-- The capacity is respected with every policy that evicts as many chunks as it is asked for. -/
theorem respectsCapacity_of_complete (ht : cfg.t.Partitioned n) (hR : R.Complete) (kv : ℕ → Val) :
    RespectsCapacity cfg R kv fun m call => call.Fits cfg m := by
  intro policy calls m out halong hrun
  have h : m.WithinCapacity cfg := by
    refine run_along (I := fun _ m => m.WithinCapacity cfg) (fun hm hfits hcall => ?_)
      (withinCapacity_new cfg policy) halong hrun
    exact cmCall_withinCapacity ht hm hfits hcall
  exact ⟨h, fun keys hfits => assertHolds_of_fits ht hR h hfits⟩

/-- **The cache respects its capacity** in every run of calls whose chunks fit, with each of the
replacement policies and however many chunks it dumps at a time. -/
theorem cache_capacity (cfg : CMConfig Byte Val) (n : ℕ) (ht : cfg.t.Partitioned n)
    (sort : (ℕ → ℕ) → List ℕ → List ℕ) (hsort : ∀ f l, (sort f l).Perm l) (kv : ℕ → Val) :
    RespectsCapacity cfg (lru sort hsort) kv (fun m call => call.Fits cfg m) ∧
    RespectsCapacity cfg (lfu sort hsort) kv (fun m call => call.Fits cfg m) ∧
    RespectsCapacity cfg random kv (fun m call => call.Fits cfg m) :=
  ⟨respectsCapacity_of_complete ht (complete_lru hsort) kv,
    respectsCapacity_of_complete ht (complete_lfu hsort) kv,
    respectsCapacity_of_complete ht complete_random kv⟩

end Runs

/-- A worker goes through three chunks of which two fit, and pulls the last one once more. -/
def roundCalls : List (CMCall ℤ) :=
  [.pull [0, 1], .push [0, 1] [5, 6], .pull [2, 3], .push [2, 3] [1, 1], .pull [4],
    .pullChunks [2]]

/-- One chunk has been evicted, and two are cached. -/
theorem cache_capacity_roundCalls : ∃ m out,
    run (cmCall twoChunks random fun k => (k : ℤ)) (.new twoChunks.t ()) roundCalls = some (m, out) ∧
    m.numCached = 2 ∧ m.WithinCapacity twoChunks := by
  obtain ⟨-, -, hrandom⟩ := cache_capacity twoChunks 1 twoChunks_partitioned (fun _ l => l)
    (fun _ _ => .rfl) fun k => (k : ℤ)
  have hrun : run (cmCall twoChunks random fun k => (k : ℤ)) (.new twoChunks.t ()) roundCalls =
      some (_, _) := rfl
  refine ⟨_, _, hrun, rfl, (hrandom () _ _ _ ?_ hrun).1⟩
  apply along_cons rfl (show _ ≤ _ by decide)
  apply along_cons rfl trivial
  apply along_cons rfl (show _ ≤ _ by decide)
  apply along_cons rfl trivial
  apply along_cons rfl (show _ ≤ _ by decide)
  have hlast : ∀ (m : ModelWithCM Unit ℤ ℤ), m.isCached 2 = true →
      (CMCall.pullChunks [2] : CMCall ℤ).Fits twoChunks m := by
    intro m hm c hc
    obtain rfl := List.mem_singleton.mp hc
    exact hm
  apply along_cons rfl (hlast _ rfl)
  trivial

/-- **The cache does not respect its capacity** otherwise: a chunk that `PullChunks` fetches is not
counted, and when two chunks are missing the one that is evicted is not enough. -/
theorem cache_capacity_fails :
    ¬ RespectsCapacity twoChunks random (fun k => (k : ℤ)) (fun _ _ => True) ∧
    ∃ m out, run (cmCall twoChunks random fun k => (k : ℤ)) (.new twoChunks.t ())
      [.pull [0, 1], .push [0, 1] [5, 6], .pull [2, 3], .push [2, 3] [1, 1]] = some (m, out) ∧
      ¬ m.AssertHolds twoChunks random [4, 6] := by
  constructor
  · intro h
    have hrun : run (cmCall twoChunks random fun k => (k : ℤ)) (.new twoChunks.t ()) [.pullChunks [0]] =
        some (_, _) := rfl
    have halong : Along (cmCall twoChunks random fun k => (k : ℤ)) (fun _ _ _ => True) []
        (.new twoChunks.t ()) [.pullChunks [0]] := ⟨trivial, fun _ _ _ => trivial⟩
    exact absurd (h () _ _ _ halong hrun).1.count (by decide)
  · have hrun : run (cmCall twoChunks random fun k => (k : ℤ)) (.new twoChunks.t ())
        [.pull [0, 1], .push [0, 1] [5, 6], .pull [2, 3], .push [2, 3] [1, 1]] = some (_, _) := rfl
    refine ⟨_, _, hrun, fun h => ?_⟩
    have hle := h [2, 3] ([0], ()) rfl rfl
    exact absurd hle (by decide)

end FlexPS.ML
