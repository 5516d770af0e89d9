import FlexPS.ML.CacheCapacity

/-!
# When a replacement terminates

`replace_lock` scans for chunks until it has as many as it is to evict.  With a single worker, only
the chunks that its own `Prepare` has counted in are protected, and nobody else will ever release
one: the scan has to succeed the first time.

## Main definitions

* `roundTrips` — a worker pulls and pushes.
* `ModelWithCM.Replaceable` — there are enough chunks that the request does not ask for.
* `ReplacesIff` — exactly then a request does not wait in `replace_lock` for ever.
* `replacement_terminates` — which requests do not.
-/

namespace FlexPS.ML

open KVStore Lib ModelWithCM

variable {P Byte Val : Type}

/-- A worker pulls and pushes the same keys, again and again. -/
def roundTrips (pairs : List (List ℕ × List Val)) : List (CMOp Val) :=
  pairs.flatMap fun p => [.prepare 0 p.1, .read 0, .push 0 p.2]

/-- The chunks of the keys and the cached ones fit, or there are so many that enough of the cached
ones are not asked for. -/
def ModelWithCM.Replaceable (cfg : CMConfig Byte Val) (m : ModelWithCM P Byte Val)
    (keys : List ℕ) : Prop :=
  (m.cachedChunks cfg.t ∪ requestedChunks cfg.t keys).card ≤ cfg.cacheThreshold ∨
  (requestedChunks cfg.t keys).card + cfg.numDumps ≤
    (m.cachedChunks cfg.t ∪ requestedChunks cfg.t keys).card

/-- `replace_lock` returns if and only if the request is replaceable, and then so does `Prepare`,
unless its assertion on `num_cached_` fails. -/
def ModelWithCM.ReplacesIff [Inhabited Byte] [Inhabited Val] (cfg : CMConfig Byte Val)
    (R : ReplacePolicy P) (kv : ℕ → Val) (m : ModelWithCM P Byte Val) (keys : List ℕ) : Prop :=
  (m.replaceCall cfg R keys ≠ some none ↔ m.Replaceable cfg keys) ∧
  (m.Replaceable cfg keys → m.AssertHolds cfg R keys → (m.prepare cfg R kv keys).isSome = true)

/-- What holds of every request of a single worker after any number of round trips. -/
def AfterRoundTrips [Inhabited Byte] [Inhabited Val] [Add Val] (cfg : CMConfig Byte Val)
    (R : ReplacePolicy P) (kv : ℕ → Val) (Q : ModelWithCM P Byte Val → List ℕ → Prop) : Prop :=
  ∀ policy pairs s out, (∀ p ∈ pairs, ValidKeys cfg.t p.1) →
    run (cmStep cfg R kv) (.init cfg.t policy) (roundTrips pairs) = some (s, out) →
    ∀ keys, ValidKeys cfg.t keys → keys.length ≤ cfg.cacheThreshold → Q s.model keys

/-! ## Between two round trips -/

section Idle

variable {cfg : CMConfig Byte Val} {R : ReplacePolicy P} {kv : ℕ → Val} {n : ℕ} {keys : List ℕ}

/-- Sorted keys are locked. -/
theorem chunksToLock_of_valid (hkeys : ValidKeys cfg.t keys)
    (hlen : keys.length ≤ cfg.cacheThreshold) : ∃ chunks, chunksToLock cfg keys = some chunks := by
  obtain ⟨chunks, hchunks, hnodup, -⟩ := chunksToPrepare_none hkeys
  exact ⟨chunks, by simp [chunksToLock, hchunks, hnodup, not_lt.mpr hlen]⟩

/-- Then `replace_lock` finds the cached chunks that the request does not ask for. -/
theorem length_pool (ht : cfg.t.Partitioned n) {m : ModelWithCM P Byte Val} {chunks : List ℕ}
    (hcounts : ∀ c, m.prepareCount c = 0) (hlock : chunksToLock cfg keys = some chunks) :
    ((m.countIn chunks).pool cfg.t).length + (requestedChunks cfg.t keys).card =
      (m.cachedChunks cfg.t ∪ requestedChunks cfg.t keys).card := by
  obtain ⟨-, hnodup, -, hset, -⟩ := chunksToLock_spec ht hlock
  have hcount : ∀ c, (m.countIn chunks).prepareCount c = if c ∈ chunks then 1 else 0 := by
    intro c
    simp only [countIn, foldl_update hnodup (· + 1), hcounts]
    rfl
  have hpool : ((m.countIn chunks).pool cfg.t).toFinset =
      m.cachedChunks cfg.t \ requestedChunks cfg.t keys := by
    ext c
    rw [← hset]
    simp only [pool, List.mem_toFinset, List.mem_filter, List.mem_range, Bool.and_eq_true,
      beq_iff_eq, hcount, Finset.mem_sdiff, mem_cachedChunks, and_assoc]
    refine and_congr_right fun _ => and_congr_right fun _ => ?_
    split
    · next hc => exact iff_of_false (by decide) (not_not.mpr hc)
    · next hc => exact iff_of_true rfl hc
  have hpoolNodup : ((m.countIn chunks).pool cfg.t).Nodup := List.nodup_range.filter _
  rw [← List.toFinset_card_of_nodup hpoolNodup, hpool, Finset.card_sdiff_add_card]

/-- **`replace_lock` returns exactly for the replaceable requests.** -/
theorem replaceCall_ne_iff (ht : cfg.t.Partitioned n) (hR : R.Complete) {m : ModelWithCM P Byte Val}
    (hcounts : ∀ c, m.prepareCount c = 0) (h : m.WithinCapacity cfg)
    (hkeys : ValidKeys cfg.t keys) (hlen : keys.length ≤ cfg.cacheThreshold) :
    m.replaceCall cfg R keys ≠ some none ↔ m.Replaceable cfg keys := by
  obtain ⟨chunks, hlock⟩ := chunksToLock_of_valid hkeys hlen
  obtain ⟨-, hnodup, -, hset, hlt⟩ := chunksToLock_spec ht hlock
  obtain ⟨-, -, hcard⟩ := card_chunksToFetch (m := m) hnodup hlt
  have hpool := length_pool ht hcounts hlock
  have hcount := h.count
  have hle := h.le
  have hfetch : m.chunksToFetch chunks = [] ↔ (m.chunksToFetch chunks).length = 0 :=
    List.length_eq_zero_iff.symm
  have hreturns := hR.returns m.policy ((m.countIn chunks).pool cfg.t) cfg.numDumps
  rw [hset] at hcard
  unfold Replaceable
  simp only [replaceCall, hlock, Option.bind_eq_bind, Option.bind_some, ne_eq]
  split
  · next hcall =>
      rw [hfetch] at hcall
      rw [Option.some.injEq, ← ne_eq, Option.ne_none_iff_isSome, hreturns]
      omega
  · next hcall =>
      rw [hfetch] at hcall
      refine iff_of_true (Option.some_ne_none _).symm (.inl ?_)
      omega

/-- Replacing and fetching succeed unless the assertion fails. -/
theorem replaceAndFetch_isSome [Inhabited Byte] [Inhabited Val] {m : ModelWithCM P Byte Val}
    {g : ℕ → Val} {toFetch chosen : List ℕ} {policy : P} (h : Keeps cfg kv g m)
    (hnodup : toFetch.Nodup) (hlt : ∀ c ∈ toFetch, c < cfg.t.chunkNum)
    (hmissing : ∀ c ∈ toFetch, m.isCached c = false)
    (hreplace : m.chunksToReplace cfg R (m.numCached + toFetch.length) = some (chosen, policy))
    (hle : m.numCached + toFetch.length > cfg.cacheThreshold →
      m.numCached + toFetch.length - chosen.length ≤ (cfg.cacheThreshold : ℤ)) :
    (m.replaceAndFetch cfg R kv toFetch).isSome = true := by
  obtain ⟨hchosen, hsub⟩ := chunksToReplace_sound hreplace
  have hstart : Keeps cfg kv g
      { m with policy, numCached := m.numCached + toFetch.length - chosen.length } :=
    h.congr rfl rfl rfl rfl
  obtain ⟨m₁, hflush, h₁, hcached₁, -⟩ := hstart.flushAll hchosen fun c hc =>
    (mem_cachedChunks.mp (hsub (List.mem_toFinset.mpr hc))).2
  obtain ⟨m₂, hfetched, -⟩ := h₁.fetchAll hnodup hlt fun c hc => by
    rw [hcached₁, hmissing c hc, Bool.false_and]
  rw [replaceAndFetch_of_steps rfl hreplace hle hflush hfetched, Option.isSome_some]

/-- `Prepare` then returns, unless it fails its assertion. -/
theorem prepare_isSome [Inhabited Byte] [Inhabited Val] (ht : cfg.t.Partitioned n)
    {m : ModelWithCM P Byte Val} {g : ℕ → Val} (h : Keeps cfg kv g m)
    (hkeys : ValidKeys cfg.t keys) (hlen : keys.length ≤ cfg.cacheThreshold)
    (hcall : m.replaceCall cfg R keys ≠ some none) (hassert : m.AssertHolds cfg R keys) :
    (m.prepare cfg R kv keys).isSome = true := by
  obtain ⟨chunks, hlock⟩ := chunksToLock_of_valid hkeys hlen
  obtain ⟨-, hnodup, -, -, hlt⟩ := chunksToLock_spec ht hlock
  have hlt : ∀ c ∈ m.chunksToFetch chunks, c < cfg.t.chunkNum := fun c hc =>
    hlt c (List.mem_filter.mp hc).1
  have hkeeps : Keeps cfg kv g (m.countIn chunks) := h.congr rfl rfl rfl rfl
  have hmissing : ∀ c ∈ m.chunksToFetch chunks, (m.countIn chunks).isCached c = false := by
    intro c hc
    have hnot : m.isCached c = false := by simpa using (List.mem_filter.mp hc).2
    exact hnot
  rw [prepare_of_locked hlock]
  split
  · rfl
  · next hfetch =>
      have hassert := fun r => hassert chunks r hlock
      simp only [replaceCall, hlock, Option.bind_eq_bind, Option.bind_some] at hcall hassert
      by_cases hover : m.numCached + (m.chunksToFetch chunks).length > cfg.cacheThreshold
      · rw [if_pos ⟨hfetch, hover⟩] at hcall hassert
        obtain ⟨⟨chosen, policy⟩, hsome⟩ := Option.ne_none_iff_exists'.mp fun hnone =>
          hcall (congrArg some hnone)
        exact replaceAndFetch_isSome hkeeps (hnodup.filter _) hlt hmissing ((if_pos hover).trans hsome)
          fun _ => hassert _ (congrArg some hsome)
      · exact replaceAndFetch_isSome hkeeps (hnodup.filter _) hlt hmissing (if_neg hover)
          fun hover' => absurd hover' hover

end Idle

/-! ## Runs -/

section Runs

variable [Inhabited Byte] [Inhabited Val] [AddCommMonoid Val] {cfg : CMConfig Byte Val}
  {R : ReplacePolicy P} {kv : ℕ → Val} {n : ℕ} {s s' : CMSystem P Byte Val}

/-- The operations of the workers keep the cache within its capacity. -/
theorem cmStep_withinCapacity (ht : cfg.t.Partitioned n) {op : CMOp Val} (hop : op.Valid cfg.t)
    (h : s.model.WithinCapacity cfg) {out : List (CMOut Val)}
    (hstep : cmStep cfg R kv s op = some (s', out)) : s'.model.WithinCapacity cfg := by
  cases op with
  | prepare w keys =>
      simp only [cmStep] at hstep
      split at hstep
      · obtain ⟨⟨m', replaced⟩, hprepare, heq⟩ := Option.bind_eq_some_iff.mp hstep
        obtain ⟨rfl, -⟩ := Prod.mk.inj (Option.some.inj heq)
        have hlen : keys.length ≤ cfg.cacheThreshold := by
          by_contra hlong
          rw [ModelWithCM.prepare, if_pos (not_le.mp hlong)] at hprepare
          cases hprepare
        obtain ⟨chunks, hlock⟩ := chunksToLock_of_valid hop hlen
        exact prepare_withinCapacity ht hlock h hprepare
      · cases hstep
  | read w =>
      simp only [cmStep] at hstep
      split at hstep
      · obtain ⟨vals, -, heq⟩ := Option.bind_eq_some_iff.mp hstep
        obtain ⟨rfl, -⟩ := Prod.mk.inj (Option.some.inj heq)
        exact h
      · cases hstep
  | push w vals =>
      simp only [cmStep] at hstep
      split at hstep
      · obtain ⟨m', hpush, heq⟩ := Option.bind_eq_some_iff.mp hstep
        obtain ⟨rfl, -⟩ := Prod.mk.inj (Option.some.inj heq)
        obtain ⟨pairs, -, hpush⟩ := Option.bind_eq_some_iff.mp hpush
        obtain ⟨hcached, hcount, -⟩ := pushFrom_frame hpush
        exact h.congr hcached hcount
      · cases hstep

/-- The worker of an operation. -/
def CMOp.worker : CMOp Val → ℕ
  | .prepare w _ => w
  | .read w => w
  | .push w _ => w

omit [AddCommMonoid Val] in
/-- Only the worker of an operation changes its phase, and a push makes it idle. -/
theorem cmStep_phase [Add Val] {op : CMOp Val} {out : List (CMOut Val)}
    (hstep : cmStep cfg R kv s op = some (s', out)) :
    (∀ w, w ≠ op.worker → s'.phase w = s.phase w) ∧
    ∀ w vals, op = .push w vals → s'.phase w = .idle := by
  cases op with
  | prepare w keys =>
      simp only [cmStep] at hstep
      split at hstep
      · obtain ⟨r, -, heq⟩ := Option.bind_eq_some_iff.mp hstep
        obtain ⟨rfl, -⟩ := Prod.mk.inj (Option.some.inj heq)
        exact ⟨fun w' hw' => Function.update_of_ne hw' _ _, fun _ _ heq => by cases heq⟩
      · cases hstep
  | read w =>
      simp only [cmStep] at hstep
      split at hstep
      · obtain ⟨vals, -, heq⟩ := Option.bind_eq_some_iff.mp hstep
        obtain ⟨rfl, -⟩ := Prod.mk.inj (Option.some.inj heq)
        exact ⟨fun w' hw' => Function.update_of_ne hw' _ _, fun _ _ heq => by cases heq⟩
      · cases hstep
  | push w vals =>
      simp only [cmStep] at hstep
      split at hstep
      · obtain ⟨m', -, heq⟩ := Option.bind_eq_some_iff.mp hstep
        obtain ⟨rfl, -⟩ := Prod.mk.inj (Option.some.inj heq)
        refine ⟨fun w' hw' => Function.update_of_ne hw' _ _, ?_⟩
        rintro _ _ ⟨⟩
        exact Function.update_self ..
      · cases hstep

omit [AddCommMonoid Val] in
/-- After round trips the worker is idle again. -/
theorem idle_of_roundTrips [Add Val] {pairs : List (List ℕ × List Val)} {out : List (CMOut Val)}
    (hidle : ∀ w, s.phase w = .idle)
    (hrun : run (cmStep cfg R kv) s (roundTrips pairs) = some (s', out)) :
    ∀ w, s'.phase w = .idle := by
  induction pairs generalizing s out with
  | nil =>
      obtain ⟨rfl, -⟩ := Prod.mk.inj (Option.some.inj hrun)
      exact hidle
  | cons p pairs ih =>
      rw [roundTrips, List.flatMap_cons] at hrun
      simp only [List.cons_append, List.nil_append, run_cons] at hrun
      obtain ⟨⟨s₁, o₁⟩, hprepare, hrun⟩ := Option.bind_eq_some_iff.mp hrun
      obtain ⟨⟨t₁, p₁⟩, hrun, heq₁⟩ := Option.bind_eq_some_iff.mp hrun
      obtain ⟨⟨s₂, o₂⟩, hread, hrun⟩ := Option.bind_eq_some_iff.mp hrun
      obtain ⟨⟨t₂, p₂⟩, hrun, heq₂⟩ := Option.bind_eq_some_iff.mp hrun
      obtain ⟨⟨s₃, o₃⟩, hpush, hrun⟩ := Option.bind_eq_some_iff.mp hrun
      obtain ⟨⟨t₃, p₃⟩, hrest, heq₃⟩ := Option.bind_eq_some_iff.mp hrun
      obtain ⟨rfl, -⟩ := Prod.mk.inj (Option.some.inj heq₁)
      obtain ⟨rfl, -⟩ := Prod.mk.inj (Option.some.inj heq₂)
      obtain ⟨rfl, -⟩ := Prod.mk.inj (Option.some.inj heq₃)
      refine ih (fun w => ?_) hrest
      obtain ⟨hother, hself⟩ := cmStep_phase hpush
      by_cases hw : w = 0
      · exact hw ▸ hself 0 _ rfl
      · rw [hother w hw, (cmStep_phase hread).1 w hw, (cmStep_phase hprepare).1 w hw, hidle w]

/-- The policies that evict as many chunks as they are asked for. -/
theorem afterRoundTrips_of_complete (ht : cfg.t.Partitioned n) (hR : R.Complete) (kv : ℕ → Val) :
    AfterRoundTrips cfg R kv (ReplacesIff cfg R kv) := by
  intro policy pairs s out hpairs hrun keys hkeys hlen
  have hvalid : ∀ op ∈ roundTrips pairs, op.Valid cfg.t := by
    intro op hop
    obtain ⟨p, hp, hop⟩ := List.mem_flatMap.mp hop
    simp only [List.mem_cons, List.not_mem_nil, or_false] at hop
    rcases hop with rfl | rfl | rfl
    · exact hpairs p hp
    · trivial
    · trivial
  obtain ⟨hinv, hcapacity⟩ : CMInv cfg kv s ∧ s.model.WithinCapacity cfg := by
    refine run_keeps (I := fun s => CMInv cfg kv s ∧ s.model.WithinCapacity cfg)
      (fun hop h hstep => ?_) hvalid ⟨cmInv_init ht kv policy, withinCapacity_new cfg policy⟩ hrun
    exact ⟨cmInv_step R ht hop h.1 hstep, cmStep_withinCapacity ht hop h.2 hstep⟩
  have hcounts := hinv.prepareCount_of_idle (idle_of_roundTrips (fun _ => rfl) hrun)
  have hiff := replaceCall_ne_iff ht hR hcounts hcapacity hkeys hlen
  exact ⟨hiff, fun hreplaceable hassert =>
    prepare_isSome ht hinv.keeps hkeys hlen (hiff.mpr hreplaceable) hassert⟩

/-- **When a replacement terminates** after any round trips of a single worker, with each of the
replacement policies and however many chunks it dumps at a time. -/
theorem replacement_terminates (cfg : CMConfig Byte Val) (n : ℕ) (ht : cfg.t.Partitioned n)
    (sort : (ℕ → ℕ) → List ℕ → List ℕ) (hsort : ∀ f l, (sort f l).Perm l) (kv : ℕ → Val) :
    AfterRoundTrips cfg (lru sort hsort) kv (ReplacesIff cfg (lru sort hsort) kv) ∧
    AfterRoundTrips cfg (lfu sort hsort) kv (ReplacesIff cfg (lfu sort hsort) kv) ∧
    AfterRoundTrips cfg random kv (ReplacesIff cfg random kv) :=
  ⟨afterRoundTrips_of_complete ht (complete_lru hsort) kv,
    afterRoundTrips_of_complete ht (complete_lfu hsort) kv,
    afterRoundTrips_of_complete ht complete_random kv⟩

end Runs

/-- A worker goes through two chunks, which both fit. -/
def twoRoundTrips : List (List ℕ × List ℤ) := [([0, 1], [5, 6]), ([2, 3], [1, 1])]

/-- One chunk is evicted at a time: it may ask for one that is cached and another one. -/
theorem replacement_terminates_twoChunks : ∃ s out,
    run (cmStep twoChunks random fun k => (k : ℤ)) (.init twoChunks.t ()) (roundTrips twoRoundTrips) =
      some (s, out) ∧
    s.model.replaceCall twoChunks random [0, 4] ≠ some none := by
  obtain ⟨-, -, hrandom⟩ := replacement_terminates twoChunks 1 twoChunks_partitioned (fun _ l => l)
    (fun _ _ => .rfl) fun k => (k : ℤ)
  have hrun : run (cmStep twoChunks random fun k => (k : ℤ)) (.init twoChunks.t ())
      (roundTrips twoRoundTrips) = some (_, _) := rfl
  exact ⟨_, _, hrun, (hrandom () twoRoundTrips _ _ (by decide) hrun [0, 4] (by decide)
    (by decide)).1.mpr (.inr (by decide))⟩

/-- Both chunks are evicted at a time. -/
def twoChunksAtOnce : CMConfig ℤ ℤ := ⟨setMaxKeyAndChunkSize 1 7 2, intCodec, 2, 2⟩

/-- **A replacement may not terminate**: one of the two cached chunks is asked for, so there are
never two to evict. -/
theorem replacement_terminates_fails :
    ¬ AfterRoundTrips twoChunksAtOnce random (fun k => (k : ℤ)) fun m keys =>
      m.replaceCall twoChunksAtOnce random keys ≠ some none := by
  intro h
  have hrun : run (cmStep twoChunksAtOnce random fun k => (k : ℤ)) (.init twoChunksAtOnce.t ())
      (roundTrips twoRoundTrips) = some (_, _) := rfl
  exact h () twoRoundTrips _ _ (by decide) hrun [0, 4] (by decide) (by decide) rfl

end FlexPS.ML
