import FlexPS.Lib.Updates
import FlexPS.ML.CMContent
import Mathlib.Algebra.Order.BigOperators.Group.Finset

/-!
# Eviction is transparent

In every run of whole operations the number of workers that have counted in for a chunk is
its `prepare_count_`, the chunks they work on are cached, and the content of every chunk is
what the KV store held plus everything that was pushed.

## Main definitions

* `CMInv` — the invariant of a system.
* `eviction_transparent` — every pull returns the initial value plus all pushes.
* `dump_complete` — what `Dump` leaves in the KV store, and when that is everything.
-/

namespace FlexPS.ML

open KVStore Lib ModelWithCM

variable {P Byte Val : Type}

/-! ## Counting -/

/-- Changing the counters of different chunks. -/
theorem foldl_update {chunks : List ℕ} (hnodup : chunks.Nodup) (f : ℤ → ℤ) (count : ℕ → ℤ) (c : ℕ) :
    chunks.foldl (fun count c => Function.update count c (f (count c))) count c =
      if c ∈ chunks then f (count c) else count c := by
  induction chunks generalizing count with
  | nil => simp
  | cons c' chunks ih =>
      rw [List.nodup_cons] at hnodup
      rw [List.foldl_cons, ih hnodup.2]
      by_cases hc : c = c'
      · subst hc
        simp [hnodup.1]
      · simp [hc]

/-! ## The invariant -/

/-- The value of a key: what the KV store holds plus what was pushed. -/
def CMSystem.value [AddCommMonoid Val] (kv : ℕ → Val) (s : CMSystem P Byte Val) (k : ℕ) : Val :=
  kv k + written s.pushed k

/-- The workers that have counted in for a chunk, out of those in `active`. -/
def CMSystem.holders (t : RangeTable) (s : CMSystem P Byte Val) (active : Finset ℕ) (c : ℕ) : ℤ :=
  ∑ w ∈ active, if Touches t (s.phase w).keys c then 1 else 0

/-- The invariant of a system. -/
structure CMInv [AddCommMonoid Val] (cfg : CMConfig Byte Val) (kv : ℕ → Val)
    (s : CMSystem P Byte Val) : Prop where
  keeps : Keeps cfg kv (s.value kv) s.model
  valid : ∀ w, ValidKeys cfg.t (s.phase w).keys
  counts : ∃ active : Finset ℕ, (∀ w, w ∉ active → (s.phase w).keys = []) ∧
    ∀ c, s.model.prepareCount c = s.holders cfg.t active c
  held : ∀ w, ∀ k ∈ (s.phase w).keys, s.model.isCached (k / cfg.t.chunkSize)

section Counts

variable {t : RangeTable} {s : CMSystem P Byte Val} {active : Finset ℕ}

/-- A worker outside `active` may be added. -/
theorem holders_insert (hactive : ∀ w, w ∉ active → (s.phase w).keys = []) (w c : ℕ) :
    s.holders t (insert w active) c = s.holders t active c := by
  by_cases hw : w ∈ active
  · rw [Finset.insert_eq_of_mem hw]
  · rw [CMSystem.holders, Finset.sum_insert hw, hactive w hw, if_neg (by simp [Touches]), zero_add]
    rfl

/-- One worker changes its keys. -/
theorem holders_update {w : ℕ} (hw : w ∈ active) (phase : Phase) (m : ModelWithCM P Byte Val)
    (pushed : List (ℕ × Val)) (c : ℕ) :
    CMSystem.holders t ⟨m, Function.update s.phase w phase, pushed⟩ active c =
      s.holders t active c + (if Touches t phase.keys c then 1 else 0) -
        if Touches t (s.phase w).keys c then 1 else 0 := by
  have hrest : ∀ w' ∈ active.erase w, (if Touches t (Function.update s.phase w phase w').keys c
      then (1 : ℤ) else 0) = if Touches t (s.phase w').keys c then 1 else 0 := by
    intro w' hw'
    rw [Function.update_of_ne (Finset.ne_of_mem_erase hw')]
  rw [CMSystem.holders, CMSystem.holders, ← Finset.add_sum_erase _ _ hw,
    ← Finset.add_sum_erase active _ hw, Finset.sum_congr rfl hrest]
  simp only [Function.update_self]
  omega

/-- A chunk that a worker holds is counted. -/
theorem holders_pos {w : ℕ} (hw : w ∈ active) {c : ℕ} (hc : Touches t (s.phase w).keys c) :
    0 < s.holders t active c := by
  rw [CMSystem.holders, ← Finset.add_sum_erase _ _ hw, if_pos hc]
  have hnonneg : 0 ≤ ∑ w ∈ active.erase w, if Touches t (s.phase w).keys c then (1 : ℤ) else 0 :=
    Finset.sum_nonneg fun w _ => by split <;> omega
  omega

/-- A chunk that is counted is held by a worker. -/
theorem exists_holder {c : ℕ} (h : 0 < s.holders t active c) :
    ∃ w, Touches t (s.phase w).keys c := by
  by_contra hnone
  have hzero : s.holders t active c = 0 := Finset.sum_eq_zero fun w _ =>
    if_neg fun hw => hnone ⟨w, hw⟩
  omega

end Counts

/-! ## Counting in -/

section Counted

variable {t : RangeTable} {s : CMSystem P Byte Val}

theorem mem_pool {t : RangeTable} {m : ModelWithCM P Byte Val} {c : ℕ} (hc : c ∈ m.pool t) :
    m.isCached c ∧ m.prepareCount c = 0 := by
  simpa using (List.mem_filter.mp hc).2

/-- What workers hold is cached, if what is counted is. -/
theorem held_of_counts {active : Finset ℕ}
    (hactive : ∀ w, w ∉ active → (s.phase w).keys = [])
    (hcounts : ∀ c, s.model.prepareCount c = s.holders t active c)
    (hcached : ∀ c, 0 < s.model.prepareCount c → s.model.isCached c) (w : ℕ) :
    ∀ k ∈ (s.phase w).keys, s.model.isCached (k / t.chunkSize) := by
  intro k hk
  apply hcached
  rw [hcounts]
  refine holders_pos (w := w) ?_ ⟨k, hk, rfl⟩
  by_contra hw
  rw [hactive w hw] at hk
  cases hk

/-- One worker changes its keys: the others are as before. -/
theorem active_insert {active : Finset ℕ} (hactive : ∀ w, w ∉ active → (s.phase w).keys = [])
    (w : ℕ) (phase : Phase) :
    ∀ w', w' ∉ insert w active → (Function.update s.phase w phase w').keys = [] := by
  intro w' hw'
  rw [Finset.mem_insert, not_or] at hw'
  rw [Function.update_of_ne hw'.1]
  exact hactive w' hw'.2

end Counted

/-! ## Operations -/

section Steps

variable [AddCommMonoid Val] {cfg : CMConfig Byte Val} {kv : ℕ → Val} {s : CMSystem P Byte Val}

theorem cmInv_init {n : ℕ} (ht : cfg.t.Partitioned n) (kv : ℕ → Val) (policy : P) :
    CMInv cfg kv (.init cfg.t policy : CMSystem P Byte Val) := by
  have hpos : 0 < cfg.t.chunkNum := by
    rw [ht.chunkNum_eq]
    exact Nat.succ_pos _
  have hle : cfg.t.chunkNum ≤ 2 ^ 64 := by
    rw [ht.chunkNum_eq]
    have hdiv := Nat.div_le_self (cfg.t.maxKey - 1) cfg.t.chunkSize
    have hmax := ht.maxKey_pos
    have hlt := ht.maxKey_lt
    omega
  refine ⟨⟨⟨ByteChunkFileEditor.actualSize_new hpos hle [], nofun, fun _ _ => rfl, nofun⟩,
    fun _ => ⟨nofun, ?_, ?_⟩⟩, ?_, ⟨∅, fun _ _ => rfl, fun _ => rfl⟩, nofun⟩
  · exact ⟨[], [], ByteChunkFileEditor.describes_new .., fun _ => iff_of_false nofun nofun, nofun⟩
  · intro c _ _ k _
    simp [CMSystem.value, CMSystem.init]
  · exact fun w => ⟨.nil, by simp [CMSystem.init, Phase.keys]⟩

/-- A chunk that is counted is cached. -/
theorem CMInv.cached_of_count (h : CMInv cfg kv s) {c : ℕ} (hc : 0 < s.model.prepareCount c) :
    s.model.isCached c := by
  obtain ⟨active, -, hcounts⟩ := h.counts
  rw [hcounts] at hc
  obtain ⟨w, k, hk, rfl⟩ := exists_holder hc
  exact h.held w k hk

/-- Nobody is counted in when all workers are idle. -/
theorem CMInv.prepareCount_of_idle (h : CMInv cfg kv s) (hidle : ∀ w, s.phase w = .idle) (c : ℕ) :
    s.model.prepareCount c = 0 := by
  obtain ⟨active, -, hcounts⟩ := h.counts
  rw [hcounts]
  refine Finset.sum_eq_zero fun w _ => if_neg ?_
  rw [hidle w]
  simp [Phase.keys, Touches]

theorem inv_read (h : CMInv cfg kv s) {w : ℕ} {keys : List ℕ} (hphase : s.phase w = .prepared keys) :
    CMInv cfg kv { s with phase := Function.update s.phase w (.pulled keys) } := by
  have hsame : ∀ w', (Function.update s.phase w (.pulled keys) w').keys = (s.phase w').keys := by
    intro w'
    by_cases hw : w' = w
    · subst hw
      rw [Function.update_self, hphase]
      rfl
    · rw [Function.update_of_ne hw]
  obtain ⟨active, hactive, hcounts⟩ := h.counts
  refine ⟨h.keeps, fun w' => by rw [hsame]; exact h.valid w', ⟨active, fun w' hw' => ?_, fun c => ?_⟩,
    fun w' => by rw [hsame]; exact h.held w'⟩
  · rw [hsame]
    exact hactive w' hw'
  · rw [hcounts]
    exact Finset.sum_congr rfl fun w' _ => by rw [hsame]

section Prepare

variable [Inhabited Byte] [Inhabited Val] (R : ReplacePolicy P)

omit [AddCommMonoid Val] in
/-- Replacing and fetching: only chunks that nobody has counted in for are evicted. -/
theorem replaceAndFetch_spec {g : ℕ → Val} {m m' : ModelWithCM P Byte Val} {toFetch replaced : List ℕ}
    (h : Keeps cfg kv g m) (hnodup : toFetch.Nodup) (hlt : ∀ c ∈ toFetch, c < cfg.t.chunkNum)
    (hmissing : ∀ c ∈ toFetch, m.isCached c = false)
    (hstep : m.replaceAndFetch cfg R kv toFetch = some (m', replaced)) :
    Keeps cfg kv g m' ∧ m'.prepareCount = m.prepareCount ∧
      (∀ c ∈ replaced, m.prepareCount c = 0) ∧
      ∀ c, m'.isCached c = (m.isCached c && decide (c ∉ replaced) || decide (c ∈ toFetch)) := by
  simp only [replaceAndFetch, Option.bind_eq_bind, Option.bind_eq_some_iff] at hstep
  obtain ⟨⟨toReplace, policy⟩, hreplace, hstep⟩ := hstep
  have hsound : toReplace.Nodup ∧ ∀ c ∈ toReplace, m.isCached c ∧ m.prepareCount c = 0 := by
    unfold chunksToReplace at hreplace
    split at hreplace
    · have hpool : (m.pool cfg.t).Nodup := List.nodup_range.filter _
      obtain ⟨hnodup, hsub⟩ := R.sound hpool hreplace
      exact ⟨hnodup, fun c hc => mem_pool (hsub c hc)⟩
    · obtain ⟨rfl, -⟩ := Prod.mk.inj (Option.some.inj hreplace)
      simp
  simp only at hstep
  split at hstep
  · cases hstep
  simp only [Option.bind_eq_some_iff, Option.some.injEq, Prod.mk.injEq] at hstep
  obtain ⟨m₁, hflush, m₂, hfetch, rfl, rfl⟩ := hstep
  have hstart : Keeps cfg kv g { m with
      policy, numCached := m.numCached + toFetch.length - toReplace.length } :=
    h.congr rfl rfl rfl rfl
  obtain ⟨_, hflush', h₁, hcached₁, hcount₁⟩ :=
    hstart.flushAll hsound.1 fun c hc => (hsound.2 c hc).1
  obtain rfl := Option.some.inj (hflush'.symm.trans hflush)
  obtain ⟨_, hfetch', h₂, hcached₂, hcount₂⟩ := h₁.fetchAll hnodup hlt fun c hc => by
    rw [hcached₁, hmissing c hc, Bool.false_and]
  obtain rfl := Option.some.inj (hfetch'.symm.trans hfetch)
  refine ⟨h₂, hcount₂.trans hcount₁, fun c hc => (hsound.2 c hc).2, fun c => ?_⟩
  rw [hcached₂, hcached₁]

variable {n : ℕ} (ht : cfg.t.Partitioned n)
include ht

/-- **`Prepare` counts in, evicts unprotected chunks only and fetches what is missing.** -/
theorem prepare_spec (h : CMInv cfg kv s) {keys : List ℕ} (hkeys : ValidKeys cfg.t keys)
    {m' : ModelWithCM P Byte Val} {replaced : List ℕ}
    (hprepare : s.model.prepare cfg R kv keys = some (m', replaced)) :
    Keeps cfg kv (s.value kv) m' ∧
      (∀ c, m'.prepareCount c = s.model.prepareCount c + if Touches cfg.t keys c then 1 else 0) ∧
      ∀ c, 0 < m'.prepareCount c → m'.isCached c ∧ c ∉ replaced := by
  obtain ⟨chunks, hchunks, hnodup, hmem⟩ := chunksToPrepare_none hkeys
  unfold ModelWithCM.prepare at hprepare
  split at hprepare
  · cases hprepare
  simp only [hchunks, Option.bind_eq_bind, Option.bind_some] at hprepare
  set counted : ModelWithCM P Byte Val := { s.model with
    prepareCount := chunks.foldl (fun count c => Function.update count c (count c + 1))
      s.model.prepareCount } with hcounted
  have hcount : ∀ c, counted.prepareCount c =
      s.model.prepareCount c + if Touches cfg.t keys c then 1 else 0 := by
    intro c
    rw [hcounted]
    simp only [foldl_update hnodup (· + 1), hmem]
    split <;> omega
  have hkeeps : Keeps cfg kv (s.value kv) counted := h.keeps.congr rfl rfl rfl rfl
  -- What is counted was cached before, or is a chunk of the keys.
  have hcached : ∀ c, 0 < counted.prepareCount c → s.model.isCached c = false →
      c ∈ chunks.filter fun c => !s.model.isCached c := by
    intro c hc hnot
    refine List.mem_filter.mpr ⟨?_, by simp [hnot]⟩
    by_contra hout
    rw [hcount, if_neg fun ht => hout ((hmem c).mpr ht), add_zero] at hc
    rw [h.cached_of_count hc] at hnot
    cases hnot
  have hlt : ∀ c ∈ chunks.filter fun c => !s.model.isCached c, c < cfg.t.chunkNum := by
    intro c hc
    obtain ⟨k, hk, rfl⟩ := (hmem c).mp (List.mem_filter.mp hc).1
    exact chunk_lt_of_key ht (hkeys.2 k hk)
  split at hprepare
  · next hfetch =>
      obtain ⟨rfl, rfl⟩ := Prod.mk.inj (Option.some.inj hprepare)
      refine ⟨hkeeps, hcount, fun c hc => ⟨?_, by simp⟩⟩
      by_contra hnot
      have hmiss := hcached c hc (by simpa using hnot)
      rw [hfetch] at hmiss
      cases hmiss
  · obtain ⟨hkeeps', hcount', hreplaced, hcached'⟩ := replaceAndFetch_spec R hkeeps
      (hnodup.filter _) hlt (fun c hc => by simpa using (List.mem_filter.mp hc).2) hprepare
    refine ⟨hkeeps', fun c => by rw [hcount', hcount], fun c hc => ?_⟩
    rw [hcount'] at hc
    have hout : c ∉ replaced := fun hin => by
      rw [hreplaced c hin] at hc
      exact absurd hc (lt_irrefl 0)
    refine ⟨?_, hout⟩
    rw [hcached']
    cases hold : s.model.isCached c with
    | true => simp [hout]
    | false =>
        have hin := hcached c hc hold
        simp [hin]

theorem inv_prepare (h : CMInv cfg kv s) {w : ℕ} (hidle : s.phase w = .idle) {keys : List ℕ}
    (hkeys : ValidKeys cfg.t keys) {m' : ModelWithCM P Byte Val} {replaced : List ℕ}
    (hprepare : s.model.prepare cfg R kv keys = some (m', replaced)) :
    CMInv cfg kv { s with model := m', phase := Function.update s.phase w (.prepared keys) } := by
  obtain ⟨hkeeps, hcount, hcached⟩ := prepare_spec R ht h hkeys hprepare
  obtain ⟨active, hactive, hcounts⟩ := h.counts
  have hactive' := active_insert hactive w (.prepared keys)
  have hcounts' : ∀ c, m'.prepareCount c = CMSystem.holders cfg.t
      ⟨m', Function.update s.phase w (.prepared keys), s.pushed⟩ (insert w active) c := by
    intro c
    have hnone : ¬ Touches cfg.t (s.phase w).keys c := by simp [hidle, Phase.keys, Touches]
    rw [holders_update (Finset.mem_insert_self w active), holders_insert hactive, hcount, hcounts,
      if_neg hnone, sub_zero]
    rfl
  refine ⟨hkeeps, fun w' => ?_, ⟨_, hactive', hcounts'⟩,
    held_of_counts hactive' hcounts' fun c hc => (hcached c hc).1⟩
  by_cases hw : w' = w
  · subst hw
    simpa [Phase.keys] using hkeys
  · simpa [hw] using h.valid w'

end Prepare

variable {n : ℕ} (ht : cfg.t.Partitioned n)
include ht

/-- A prepared worker reads the values of its keys. -/
theorem read_spec (h : CMInv cfg kv s) (hfits : s.model.spilled cfg < 2 ^ 31) (w : ℕ) :
    s.model.read cfg.t (s.phase w).keys = some ((s.phase w).keys.map (s.value kv)) := by
  have hkey : ∀ k ∈ (s.phase w).keys, ((getLocation cfg.t k).bind fun loc =>
      (s.model.params loc.1)[loc.2]?) = some (s.value kv k) := by
    intro k hk
    have hlt := (h.valid w).2 k hk
    have hoff := offset_lt_of_key ht hlt
    rw [getLocation, if_pos hlt, Option.bind_some, (h.keeps.contents hfits).cached _ (h.held w k hk)]
    simp [chunkKeys, hoff, Nat.div_add_mod']
  rw [ModelWithCM.read]
  generalize (s.phase w).keys = keys at hkey
  induction keys with
  | nil => rfl
  | cons k keys ih =>
      have hfirst := hkey k (by simp)
      simp only [List.mapM_cons, Option.bind_eq_bind] at ih ⊢
      rw [hfirst, Option.bind_some, ih fun j hj => hkey j (by simp [hj])]
      rfl

/-- A push of a worker that has pulled succeeds, and the invariant holds again. -/
theorem inv_push (R : ReplacePolicy P) (h : CMInv cfg kv s) {w : ℕ} {keys : List ℕ}
    (hphase : s.phase w = .pulled keys) {vals : List Val} (hlen : keys.length ≤ vals.length) :
    ∃ m', s.model.push cfg.t R keys vals = some m' ∧
      CMInv cfg kv { model := m', phase := Function.update s.phase w .idle
                     pushed := s.pushed ++ keys.zip vals } := by
  have hkeys : (s.phase w).keys = keys := by
    rw [hphase]
    rfl
  have hvalid : ValidKeys cfg.t keys := hkeys ▸ h.valid w
  have hfst : (keys.zip vals).map Prod.fst = keys := List.map_fst_zip hlen
  have hmem : ∀ p ∈ keys.zip vals, p.1 ∈ keys := fun p hp => (List.of_mem_zip hp).1
  obtain ⟨m', chunks, hpush, hchunks, hkeeps, hcached, hcount⟩ :=
    h.keeps.push ht R none (fun p hp => hvalid.2 p.1 (hmem p hp))
      (fun p hp => h.held w p.1 (hkeys ▸ hmem p hp))
  rw [hfst] at hchunks
  obtain ⟨chunks', hchunks', hnodup, htouch⟩ := chunksToPrepare_none hvalid
  obtain rfl := Option.some.inj (hchunks'.symm.trans hchunks)
  refine ⟨m', by simp [ModelWithCM.push, pairUp, hlen, hpush], ?_⟩
  obtain ⟨active, hactive, hcounts⟩ := h.counts
  have hactive' := active_insert hactive w .idle
  have hcounts' : ∀ c, m'.prepareCount c = CMSystem.holders cfg.t
      ⟨m', Function.update s.phase w .idle, s.pushed ++ keys.zip vals⟩ (insert w active) c := by
    intro c
    have hnone : ¬ Touches cfg.t Phase.idle.keys c := by simp [Phase.keys, Touches]
    rw [holders_update (Finset.mem_insert_self w active), holders_insert hactive, if_neg hnone,
      hcount, foldl_update hnodup (· - 1), hkeys, add_zero, hcounts]
    simp only [htouch]
    split <;> omega
  have hidle : ∀ w', ∀ k ∈ (Function.update s.phase w .idle w').keys, k ∈ (s.phase w').keys := by
    intro w' k hk
    by_cases hw : w' = w
    · subst hw
      rw [Function.update_self] at hk
      cases hk
    · rwa [Function.update_of_ne hw] at hk
  refine ⟨?_, fun w' => ?_, ⟨_, hactive', hcounts'⟩, fun w' k hk => ?_⟩
  · have hvalue : CMSystem.value kv
        ⟨m', Function.update s.phase w .idle, s.pushed ++ keys.zip vals⟩ =
        fun k => s.value kv k + written (keys.zip vals) k := by
      funext k
      simp [CMSystem.value, written, add_assoc]
    rw [hvalue]
    exact hkeeps
  · by_cases hw : w' = w
    · subst hw
      simp [Phase.keys, ValidKeys]
    · simpa [hw] using h.valid w'
  · rw [hcached]
    exact h.held w' k (hidle w' k hk)

end Steps

/-! ## Runs -/

/-- A `Prepare` with sorted keys of the model. -/
def CMOp.Valid (t : RangeTable) : CMOp Val → Prop
  | .prepare _ keys => ValidKeys t keys
  | _ => True

section Runs

variable [Inhabited Byte] [Inhabited Val] [AddCommMonoid Val] {cfg : CMConfig Byte Val} {n : ℕ}
  (ht : cfg.t.Partitioned n) (R : ReplacePolicy P) {kv : ℕ → Val}

/-- A step of a worker keeps the invariant. -/
theorem cmInv_step (ht : cfg.t.Partitioned n) {s s' : CMSystem P Byte Val} {op : CMOp Val}
    {out : List (CMOut Val)} (hop : op.Valid cfg.t) (h : CMInv cfg kv s)
    (hstep : cmStep cfg R kv s op = some (s', out)) : CMInv cfg kv s' := by
  cases op with
  | prepare w keys =>
      simp only [cmStep] at hstep
      split at hstep
      · next hidle =>
          simp only [Option.bind_eq_bind, Option.bind_eq_some_iff, Option.some.injEq] at hstep
          obtain ⟨⟨m', replaced⟩, hprepare, heq⟩ := hstep
          rw [← (Prod.mk.inj heq).1]
          exact inv_prepare R ht h hidle hop hprepare
      · cases hstep
  | read w =>
      simp only [cmStep] at hstep
      split at hstep
      · next keys hphase =>
          simp only [Option.bind_eq_bind, Option.bind_eq_some_iff, Option.some.injEq] at hstep
          obtain ⟨vals, hread, heq⟩ := hstep
          rw [← (Prod.mk.inj heq).1]
          exact inv_read h hphase
      · cases hstep
  | push w vals =>
      simp only [cmStep] at hstep
      split at hstep
      · next keys hphase =>
          simp only [Option.bind_eq_bind, Option.bind_eq_some_iff, Option.some.injEq] at hstep
          obtain ⟨m', hpush, heq⟩ := hstep
          have hlen : keys.length ≤ vals.length := by
            by_contra hshort
            simp [ModelWithCM.push, pairUp, hshort] at hpush
          obtain ⟨m'', hpush', hinv⟩ := inv_push ht R h hphase hlen
          obtain rfl := Option.some.inj (hpush'.symm.trans hpush)
          rw [← (Prod.mk.inj heq).1]
          exact hinv
      · cases hstep

include ht in
/-- Every reachable system has the invariant. -/
theorem cmInv_run (policy : P) {ops : List (CMOp Val)} (hops : ∀ op ∈ ops, op.Valid cfg.t)
    {s : CMSystem P Byte Val} {out : List (CMOut Val)}
    (hrun : run (cmStep cfg R kv) (.init cfg.t policy) ops = some (s, out)) : CMInv cfg kv s :=
  run_keeps (fun hop h hstep => cmInv_step R ht hop h hstep) hops (cmInv_init ht kv policy) hrun

/-- **Eviction is transparent.**  In every run, a chunk that a worker has counted in for is
cached as a whole and is not evicted by a further `Prepare`, and a worker that has pulled can push.
As long as the chunks on disk fit in an `int`, the content of every chunk, wherever it lives, is
what the KV store held plus all pushes, and a prepared worker reads just that. -/
theorem eviction_transparent (ht : cfg.t.Partitioned n) (policy : P) {ops : List (CMOp Val)}
    (hops : ∀ op ∈ ops, op.Valid cfg.t) {s : CMSystem P Byte Val} {out : List (CMOut Val)}
    (hrun : run (cmStep cfg R kv) (.init cfg.t policy) ops = some (s, out)) :
    (∀ c, 0 < s.model.prepareCount c →
      s.model.isCached c ∧ (s.model.params c).length = cfg.t.realChunkSize c) ∧
    (∀ keys m' replaced, ValidKeys cfg.t keys →
      s.model.prepare cfg R kv keys = some (m', replaced) →
      ∀ c, 0 < m'.prepareCount c → m'.isCached c ∧ c ∉ replaced) ∧
    (∀ w keys vals, s.phase w = .pulled keys → keys.length ≤ vals.length →
      (s.model.push cfg.t R keys vals).isSome) ∧
    (s.model.spilled cfg < 2 ^ 31 →
      (∀ c, s.model.content cfg kv c =
        (chunkKeys cfg.t c).map fun k => kv k + written s.pushed k) ∧
      ∀ w keys, s.phase w = .prepared keys →
        s.model.read cfg.t keys = some (keys.map fun k => kv k + written s.pushed k)) := by
  have h := cmInv_run ht R policy hops hrun
  refine ⟨fun c hc => ?_, fun keys m' replaced hkeys hprepare => ?_,
    fun w keys vals hphase hlen => ?_, fun hfits => ⟨fun c => ?_, fun w keys hphase => ?_⟩⟩
  · have hcached := h.cached_of_count hc
    exact ⟨hcached, (h.keeps.sized.cached c hcached).2⟩
  · exact (prepare_spec R ht h hkeys hprepare).2.2
  · obtain ⟨m', hpush, -⟩ := inv_push ht R h hphase hlen
    rw [hpush, Option.isSome_some]
  · exact h.keeps.content_eq hfits c
  · have hread := read_spec ht h hfits w
    rw [hphase] at hread
    exact hread

end Runs

/-- The four bytes of an `int`, the lowest first; the highest one holds what is left. -/
def intCodec : FixedCodec ℤ ℤ where
  put v := [v % 256, v / 256 % 256, v / 65536 % 256, v / 16777216]
  get
    | a :: b :: c :: d :: bin => some (a + 256 * b + 65536 * c + 16777216 * d, bin)
    | _ => none
  get_put v bin := by
    simp only [List.cons_append, List.nil_append, Option.some.injEq, Prod.mk.injEq, and_true]
    omega
  width := 4
  length_put _ := rfl

/-- Seven keys in chunks of two, of which two are in memory and one is evicted at a time. -/
def twoChunks : CMConfig ℤ ℤ := ⟨setMaxKeyAndChunkSize 1 7 2, intCodec, 2, 1⟩

/-- One worker goes through three chunks and back to the first. -/
def roundOps : List (CMOp ℤ) :=
  [.prepare 0 [0, 1], .read 0, .push 0 [5, 6], .prepare 0 [2, 3], .read 0, .push 0 [1, 1],
    .prepare 0 [4], .read 0, .push 0 [7], .prepare 0 [0, 1]]

theorem twoChunks_partitioned : twoChunks.t.Partitioned 1 :=
  partitioned_set (by omega) (by omega) (by omega) (by omega) (by omega) (by omega)

theorem valid_roundOps : ∀ op ∈ roundOps, op.Valid twoChunks.t := by
  simp [roundOps, CMOp.Valid, ValidKeys, twoChunks, setMaxKeyAndChunkSize]

/-- The first chunk was evicted and is read back from the file with its pushes. -/
theorem eviction_transparent_roundOps : ∃ s out,
    run (cmStep twoChunks random fun k => (k : ℤ)) (.init twoChunks.t ()) roundOps = some (s, out) ∧
    .replaced [0] ∈ out ∧ s.phase 0 = .prepared [0, 1] ∧
    s.model.read twoChunks.t [0, 1] = some [5, 7] := by
  have hrun : (run (cmStep twoChunks random fun k => (k : ℤ)) (.init twoChunks.t ()) roundOps).map
      (fun p => (p.2, p.1.phase 0, p.1.pushed, p.1.model.spilled twoChunks)) = some
        ([.replaced [], .values 0 [0, 1] [0, 1], .replaced [], .values 0 [2, 3] [2, 3],
          .replaced [0], .values 0 [4] [4], .replaced [1]], .prepared [0, 1],
          [(0, 5), (1, 6), (2, 1), (3, 1), (4, 7)], 16) := by
    decide
  obtain ⟨⟨s, out⟩, hs, heq⟩ := Option.map_eq_some_iff.mp hrun
  simp only [Prod.mk.injEq] at heq
  obtain ⟨hout, hphase, hpushed, hspilled⟩ := heq
  have hspilled : s.model.spilled twoChunks < 2 ^ 31 := by
    rw [hspilled]
    decide
  obtain ⟨-, -, -, hcontents⟩ :=
    eviction_transparent random twoChunks_partitioned () valid_roundOps hs
  refine ⟨s, out, hs, by simp [hout], hphase, ?_⟩
  have hvals := (hcontents hspilled).2 0 [0, 1] hphase
  rw [hpushed] at hvals
  exact hvals

/-- Three chunks of two gigabytes, of which two are in memory and evicted at a time. -/
def hugeChunks : CMConfig ℤ ℤ := ⟨setMaxKeyAndChunkSize 1 (3 * 2 ^ 29) (2 ^ 29), intCodec, 2, 2⟩

/-- A worker pushes to two chunks and goes on to the third, and another one to the second. -/
def hugeOps : List (CMOp ℤ) :=
  [.prepare 0 [0, 2 ^ 29], .read 0, .push 0 [5, 5], .prepare 0 [2 ^ 30], .prepare 1 [2 ^ 29]]

theorem hugeChunks_partitioned : hugeChunks.t.Partitioned 1 :=
  partitioned_set (by omega) (by omega) (by omega) (by omega) (by omega) (by omega)

theorem hugeChunks_num : hugeChunks.t.chunkNum = 3 := by
  rw [hugeChunks_partitioned.chunkNum_eq]
  rfl

theorem hugeChunks_size {c : ℕ} (hc : c < 3) : hugeChunks.t.realChunkSize c = 2 ^ 29 := by
  have hmax : hugeChunks.t.maxKey = 3 * 2 ^ 29 := rfl
  have hsize : hugeChunks.t.chunkSize = 2 ^ 29 := rfl
  rw [hugeChunks_partitioned.realChunkSize_eq (by rwa [hugeChunks_num]), hmax, hsize]
  omega

/-- The first chunk takes all the bytes that an `int` counts, and the place of the second one is
negative. -/
theorem flush_hugeChunks {m : ModelWithCM Unit ℤ ℤ} (hsized : Sized hugeChunks.t m)
    (hmap : ∀ c, m.cfe.chunkMap c = none) (hwritten : m.cfe.bytesWritten = 0)
    (hcached : m.isCached 0 = true ∧ m.isCached 1 = true) :
    ∃ m', [0, 1].foldlM (flushToDisk hugeChunks) m = some m' ∧ m'.params 1 = [] ∧
      m'.isCached 1 = false ∧ m'.status 1 = .inDisk ∧ m'.status 2 = m.status 2 ∧
      m'.numCached = m.numCached ∧ m'.cfe.chunkMap 1 = some (-2 ^ 31) ∧
      m'.cfe.actualSize 1 = 2 ^ 29 ∧ m'.cfe.file.pos = m'.cfe.file.contents.length := by
  have hlength : ∀ c, m.isCached c = true → (m.params c).length = m.cfe.actualSize c :=
    fun c hc => (hsized.cached c hc).2.trans (hsized.size_eq c).symm
  have hlt : ∀ c, c < 3 → c < hugeChunks.t.chunkNum := fun c hc => by rwa [hugeChunks_num]
  obtain ⟨cfe₀, hwrite₀, hactual₀, hmap₀, hwritten₀, -⟩ :=
    ByteChunkFileEditor.writeChunk_first (c := intCodec) (e := m.editor hugeChunks.t)
      (editor_chunk (hlt 0 (by omega))) (hlength 0 hcached.1) (hmap 0)
  have hwritten₀ : cfe₀.bytesWritten = -2 ^ 31 := by
    rw [hwritten₀]
    change toInt32 (wrap64 (m.cfe.bytesWritten + m.cfe.actualSize 0 * 4)) = _
    rw [hwritten, hsized.size_eq, hugeChunks_size (by omega)]
    rfl
  let m₀ : ModelWithCM Unit ℤ ℤ := { m with
    cfe := cfe₀
    params := Function.update m.params 0 []
    isCached := Function.update m.isCached 0 false
    status := Function.update m.status 0 .inDisk }
  have hlength₀ : (m₀.params 1).length = cfe₀.actualSize 1 :=
    (hlength 1 hcached.2).trans (congrFun hactual₀ 1).symm
  have hmap₀ : cfe₀.chunkMap 1 = none := by
    rw [hmap₀, Function.update_of_ne (by decide)]
    exact hmap 1
  obtain ⟨cfe₁, hwrite₁, hactual₁, hmap₁, -, hend₁⟩ :=
    ByteChunkFileEditor.writeChunk_first (c := intCodec) (e := m₀.editor hugeChunks.t)
      (editor_chunk (hlt 1 (by omega))) hlength₀ hmap₀
  have hflush₀ : m.flushToDisk hugeChunks 0 = some m₀ := flushToDisk_of_write hwrite₀
  have hflush : [0, 1].foldlM (flushToDisk hugeChunks) m = some { m₀ with
      cfe := cfe₁
      params := Function.update m₀.params 1 []
      isCached := Function.update m₀.isCached 1 false
      status := Function.update m₀.status 1 .inDisk } := by
    rw [List.foldlM_cons, hflush₀, Option.bind_eq_bind, Option.bind_some, List.foldlM_cons,
      flushToDisk_of_write hwrite₁]
    rfl
  refine ⟨_, hflush, ?_, ?_, ?_, rfl, rfl, ?_, ?_, hend₁⟩
  · simp
  · simp
  · simp
  · change cfe₁.chunkMap 1 = _
    rw [hmap₁, Function.update_self]
    exact congrArg some hwritten₀
  · exact (congrFun (hactual₁.trans hactual₀) 1).trans
      ((hsized.size_eq 1).trans (hugeChunks_size (by omega)))

/-- Both chunks in memory are evicted for the third one. -/
theorem prepare_hugeChunks {m : ModelWithCM Unit ℤ ℤ} (kv : ℕ → ℤ) (hsized : Sized hugeChunks.t m)
    (hmap : ∀ c, m.cfe.chunkMap c = none) (hwritten : m.cfe.bytesWritten = 0)
    (hcached : m.isCached = Function.update (Function.update (fun _ => false) 0 true) 1 true)
    (hstatus : ∀ c, m.status c = .inKVStore) (hcount : ∀ c, m.prepareCount c = 0)
    (hnum : m.numCached = 2) :
    ∃ m', m.prepare hugeChunks random kv [2 ^ 30] = some (m', [0, 1]) ∧ m'.isCached 1 = false ∧
      m'.status 1 = .inDisk ∧ m'.params 1 = [] ∧ m'.numCached = 1 ∧
      m'.cfe.chunkMap 1 = some (-2 ^ 31) ∧ m'.cfe.actualSize 1 = 2 ^ 29 ∧
      m'.cfe.file.pos = m'.cfe.file.contents.length := by
  let counted : ModelWithCM Unit ℤ ℤ := { m with
    prepareCount := Function.update m.prepareCount 2 (m.prepareCount 2 + 1) }
  have hpool : counted.pool hugeChunks.t = [0, 1] := by
    rw [pool, hugeChunks_num]
    simp [counted, List.range_succ, hcached, hcount]
  have hreplace : counted.chunksToReplace hugeChunks random 3 = some ([0, 1], ()) := by
    rw [chunksToReplace, if_pos (by decide), hpool]
    rfl
  have hwanted : counted.numCached + ([2] : List ℕ).length = 3 := by
    change m.numCached + 1 = 3
    omega
  obtain ⟨m₁, hflush, hparams, huncached, hdisk, hkv, hnum₁, hplace, hactual, hend⟩ :=
    flush_hugeChunks (m := { counted with numCached := 1 })
      ⟨hsized.1, hsized.2, hsized.3, hsized.4⟩ hmap hwritten
      (by rw [show counted.isCached = _ from hcached]; exact ⟨rfl, rfl⟩)
  refine ⟨{ m₁ with
    params := Function.update m₁.params 2 (pullChunk hugeChunks.t kv 2)
    isCached := Function.update m₁.isCached 2 true }, ?_, ?_, hdisk, ?_, hnum₁, hplace, hactual,
    hend⟩
  · rw [prepare_missing (c := 2) rfl (by rw [hcached]; rfl) (by decide)]
    refine replaceAndFetch_of_steps hwanted hreplace (by decide) hflush ?_
    rw [List.foldlM_cons, fetchChunk_kv (hkv.trans (hstatus 2))]
    rfl
  · simpa using huncached
  · simpa using hparams

/-- The second chunk is read from its negative place. -/
theorem prepare_negative {m : ModelWithCM Unit ℤ ℤ} (kv : ℕ → ℤ) (hmissing : m.isCached 1 = false)
    (hdisk : m.status 1 = .inDisk) (hempty : m.params 1 = []) (hnum : m.numCached = 1)
    (hplace : m.cfe.chunkMap 1 = some (-2 ^ 31)) (hactual : m.cfe.actualSize 1 = 2 ^ 29)
    (hend : m.cfe.file.pos = m.cfe.file.contents.length) :
    ∃ m', m.prepare hugeChunks random kv [2 ^ 29] = some (m', []) ∧
      m'.params 1 = resize [] (2 ^ 29) := by
  let counted : ModelWithCM Unit ℤ ℤ := { m with
    prepareCount := Function.update m.prepareCount 1 (m.prepareCount 1 + 1) }
  have hwanted : counted.numCached + ([1] : List ℕ).length = 2 := by
    change m.numCached + 1 = 2
    omega
  have hreplace : counted.chunksToReplace hugeChunks random 2 = some ([], ()) :=
    if_neg (by decide)
  have hlt : 1 < hugeChunks.t.chunkNum := by
    rw [hugeChunks_num]
    omega
  let wanted : ModelWithCM Unit ℤ ℤ := { counted with numCached := 2 }
  have hchunk : (wanted.editor hugeChunks.t).chunks[1]? = some [] :=
    (editor_chunk hlt).trans (congrArg some hempty)
  have hread := ByteChunkFileEditor.readChunk_negative (c := intCodec) hchunk
    (show (-2 ^ 31 : ℤ) < 0 by decide) hend rfl
  have hactual : (wanted.editor hugeChunks.t).actualSize 1 = 2 ^ 29 := hactual
  rw [hactual] at hread
  obtain ⟨m', hfetch, hparams⟩ : ∃ m', wanted.fetchChunk hugeChunks kv 1 = some m' ∧
      m'.params = Function.update wanted.params 1 (resize [] (2 ^ 29)) :=
    fetchChunk_disk (show wanted.status 1 = .inDisk from hdisk)
      (show wanted.cfe.chunkMap 1 = some (-2 ^ 31) from hplace) hlt hread
  refine ⟨m', (prepare_missing (c := 1) rfl hmissing (by decide)).trans
    (replaceAndFetch_of_steps hwanted hreplace (by decide) rfl ?_), ?_⟩
  · change (wanted.fetchChunk hugeChunks kv 1).bind _ = _
    rw [hfetch]
    rfl
  · rw [hparams, Function.update_self]

theorem valid_hugeOps : ∀ op ∈ hugeOps, op.Valid hugeChunks.t := by
  simp [hugeOps, CMOp.Valid, ValidKeys, hugeChunks, setMaxKeyAndChunkSize]

section Steps

variable [Inhabited Byte] [Inhabited Val] [Add Val] {cfg : CMConfig Byte Val} {R : ReplacePolicy P}
  {kv : ℕ → Val} {s : CMSystem P Byte Val} {m : ModelWithCM P Byte Val} {w : ℕ} {keys : List ℕ}

theorem cmStep_prepare {replaced : List ℕ} (hphase : s.phase w = .idle)
    (hprepare : s.model.prepare cfg R kv keys = some (m, replaced)) :
    cmStep cfg R kv s (.prepare w keys) =
      some (⟨m, Function.update s.phase w (.prepared keys), s.pushed⟩, [.replaced replaced]) := by
  simp only [cmStep, hphase, hprepare, Option.bind_eq_bind, Option.bind_some]

theorem cmStep_push {vals : List Val} (hphase : s.phase w = .pulled keys)
    (hpush : s.model.push cfg.t R keys vals = some m) :
    cmStep cfg R kv s (.push w vals) =
      some (⟨m, Function.update s.phase w .idle, s.pushed ++ keys.zip vals⟩, []) := by
  simp only [cmStep, hphase, hpush, Option.bind_eq_bind, Option.bind_some]

end Steps

/-- **Eviction is not transparent** when the chunks on disk take two gigabytes: the place of the
second chunk wraps, and its pull returns `0` although `5` was pushed. -/
theorem eviction_transparent_fails : ∃ s out,
    run (cmStep hugeChunks random fun _ => 0) (.init hugeChunks.t ()) hugeOps = some (s, out) ∧
    (∀ op ∈ hugeOps, op.Valid hugeChunks.t) ∧ s.phase 1 = .prepared [2 ^ 29] ∧
    s.model.read hugeChunks.t [2 ^ 29] = some [0] ∧ 0 + written s.pushed (2 ^ 29) = 5 := by
  have hops : ∀ op ∈ hugeOps.take 2, op.Valid hugeChunks.t := fun op hop =>
    valid_hugeOps op (List.mem_of_mem_take hop)
  obtain ⟨s₁, hrun, hphase, hidle, hpushed, hcached, hstatus, hnum, hmap, hwritten⟩ :
      ∃ s₁, run (cmStep hugeChunks random fun _ => 0) (.init hugeChunks.t ()) (hugeOps.take 2) =
        some (s₁, [.replaced [], .values 0 [0, 2 ^ 29] [0, 0]]) ∧
      s₁.phase 0 = .pulled [0, 2 ^ 29] ∧ (∀ w, w ≠ 0 → s₁.phase w = .idle) ∧ s₁.pushed = [] ∧
      s₁.model.isCached = Function.update (Function.update (fun _ => false) 0 true) 1 true ∧
      (∀ c, s₁.model.status c = .inKVStore) ∧ s₁.model.numCached = 2 ∧
      (∀ c, s₁.model.cfe.chunkMap c = none) ∧ s₁.model.cfe.bytesWritten = 0 :=
    ⟨_, rfl, rfl, fun w hw => by simp [hw, CMSystem.init], rfl, rfl, fun _ => rfl, rfl,
      fun _ => rfl, rfl⟩
  have hlen : [0, 2 ^ 29].length ≤ ([5, 5] : List ℤ).length := le_rfl
  obtain ⟨m₂, hpush, hinv⟩ := inv_push hugeChunks_partitioned random
    (cmInv_run hugeChunks_partitioned random () hops hrun) hphase hlen
  obtain ⟨pairs, -, hframe⟩ : ∃ pairs, pairUp [0, 2 ^ 29] [5, 5] = some pairs ∧
      pushFrom hugeChunks.t random none s₁.model pairs = some m₂ := Option.bind_eq_some_iff.mp hpush
  obtain ⟨hcached₂, hnum₂, hstatus₂, hcfe₂⟩ := pushFrom_frame hframe
  have hcount := hinv.prepareCount_of_idle fun w => by
    by_cases hw : w = 0
    · simp [hw]
    · simpa [hw] using hidle w hw
  obtain ⟨m₃, hprepare₃, hmissing₃, hdisk₃, hempty₃, hnum₃, hplace₃, hactual₃, hend₃⟩ :=
    prepare_hugeChunks (fun _ => 0) hinv.keeps.sized (hcfe₂ ▸ hmap) (hcfe₂ ▸ hwritten)
      (hcached₂.trans hcached) (fun c => (congrFun hstatus₂ c).trans (hstatus c)) hcount
      (hnum₂.trans hnum)
  obtain ⟨m₄, hprepare₄, hparams₄⟩ :=
    prepare_negative (fun _ => 0) hmissing₃ hdisk₃ hempty₃ hnum₃ hplace₃ hactual₃ hend₃
  have hidle₂ : Function.update s₁.phase 0 .idle 0 = .idle := Function.update_self ..
  have hidle₃ : Function.update (Function.update s₁.phase 0 .idle) 0 (.prepared [2 ^ 30]) 1 =
      .idle := by
    rw [Function.update_of_ne (by decide), Function.update_of_ne (by decide)]
    exact hidle 1 (by decide)
  have hall := run_snoc (run_snoc (run_snoc hrun (cmStep_push hphase hpush))
    (cmStep_prepare (w := 0) hidle₂ hprepare₃)) (cmStep_prepare (w := 1) hidle₃ hprepare₄)
  refine ⟨_, _, hall, valid_hugeOps, ?_, ?_, ?_⟩
  · simp
  · have hloc : getLocation hugeChunks.t (2 ^ 29) = some (1, 0) := rfl
    have hzero : (resize ([] : List ℤ) (2 ^ 29))[0]? = some 0 := by
      rw [resize, List.take_nil, List.nil_append, List.getElem?_replicate, if_pos (by decide)]
      rfl
    rw [ModelWithCM.read, List.mapM_cons, List.mapM_nil, hloc]
    simp only [hparams₄, hzero, Option.bind_eq_bind, Option.bind_some]
    rfl
  · rw [hpushed]
    rfl

/-! ## Dumping -/

section Dump

/-- The pairs of a chunk that holds the values of `g`. -/
theorem chunkPairs_map {t : RangeTable} {g : ℕ → Val} {c : ℕ} :
    chunkPairs t.chunkSize (c, (chunkKeys t c).map g) = (chunkKeys t c).map fun k => (k, g k) := by
  simp only [chunkPairs, List.length_map, length_chunkKeys]
  rw [← chunkKeys]
  exact List.map_prod_left_eq_zip.symm

variable {cfg : CMConfig Byte Val} {n : ℕ} {kv g : ℕ → Val} {m : ModelWithCM P Byte Val}

/-- What is dumped: the values of `g` at the keys of the cached chunks. -/
theorem mem_dumped (h : Keeps cfg kv g m) (hfits : m.spilled cfg < 2 ^ 31) (p : ℕ × Val) :
    p ∈ (m.dumped cfg.t).flatMap (chunkPairs cfg.t.chunkSize) ↔
      ∃ c < cfg.t.chunkNum, m.isCached c ∧ p.1 ∈ chunkKeys cfg.t c ∧ p.2 = g p.1 := by
  have hcontents := (h.contents hfits).cached
  simp only [dumped, List.mem_flatMap, List.mem_map, List.mem_filter, List.mem_range]
  constructor
  · intro ⟨_, ⟨c, ⟨hc, hne⟩, rfl⟩, hp⟩
    cases hcached : m.isCached c with
    | false => simp [h.sized.empty c hcached] at hne
    | true =>
        rw [hcontents c hcached, chunkPairs_map, List.mem_map] at hp
        obtain ⟨k, hk, rfl⟩ := hp
        exact ⟨c, hc, hcached, hk, rfl⟩
  · intro ⟨c, hc, hcached, hk, hval⟩
    refine ⟨_, ⟨c, ⟨hc, ?_⟩, rfl⟩, ?_⟩
    · rw [hcontents c hcached]
      simpa using List.ne_nil_of_mem hk
    · rw [hcontents c hcached, chunkPairs_map, List.mem_map]
      exact ⟨p.1, hk, Prod.ext rfl hval.symm⟩

/-- What a dump leaves in the KV store: the content of the cached chunks, and what was there
before for all others. -/
theorem dump_eq (ht : cfg.t.Partitioned n) (h : Keeps cfg kv g m)
    (hfits : m.spilled cfg < 2 ^ 31) {k : ℕ} (hk : k < cfg.t.maxKey) :
    m.dump cfg.t kv k = if m.isCached (k / cfg.t.chunkSize) then g k else kv k := by
  have hg : ∀ p ∈ (m.dumped cfg.t).flatMap (chunkPairs cfg.t.chunkSize), p.2 = g p.1 := by
    intro p hp
    obtain ⟨c, -, -, -, hval⟩ := (mem_dumped h hfits p).mp hp
    exact hval
  have hmem : k ∈ ((m.dumped cfg.t).flatMap (chunkPairs cfg.t.chunkSize)).map Prod.fst ↔
      m.isCached (k / cfg.t.chunkSize) := by
    rw [List.mem_map]
    constructor
    · intro ⟨p, hp, hpk⟩
      obtain ⟨c, -, hcached, hin, -⟩ := (mem_dumped h hfits p).mp hp
      rwa [← hpk, chunk_of_mem ht hin]
    · intro hcached
      exact ⟨(k, g k), (mem_dumped h hfits _).mpr
        ⟨_, chunk_lt_of_key ht hk, hcached, key_mem_chunkKeys ht hk, rfl⟩, rfl⟩
  rw [dump, assignChunks, assign_pairs hg]
  simp only [hmem]

/-- **When a dump is complete.**  After every run whose chunks on disk fit in an `int`, `Dump` leaves
the initial value plus all pushes at every key, if and only if what was pushed to the chunks that
are on disk then sums up to zero: these chunks are not dumped. -/
theorem dump_complete [Inhabited Byte] [Inhabited Val] [AddCancelCommMonoid Val]
    (ht : cfg.t.Partitioned n) (R : ReplacePolicy P) (kv : ℕ → Val) (policy : P)
    {ops : List (CMOp Val)} (hops : ∀ op ∈ ops, op.Valid cfg.t) {s : CMSystem P Byte Val}
    {out : List (CMOut Val)}
    (hrun : run (cmStep cfg R kv) (.init cfg.t policy) ops = some (s, out))
    (hfits : s.model.spilled cfg < 2 ^ 31) :
    (∀ k < cfg.t.maxKey, s.model.dump cfg.t kv k = kv k + written s.pushed k) ↔
      ∀ k < cfg.t.maxKey, s.model.isCached (k / cfg.t.chunkSize) = false →
        s.model.status (k / cfg.t.chunkSize) = .inDisk → written s.pushed k = 0 := by
  have h := (cmInv_run ht R policy hops hrun).keeps
  constructor
  · intro hall k hk hout _
    have hdump := dump_eq ht h hfits hk
    rw [if_neg (by simp [hout]), hall k hk] at hdump
    exact add_eq_left.mp hdump
  · intro hzero k hk
    rw [dump_eq ht h hfits hk]
    split
    · rfl
    · next hout =>
        have hout' : s.model.isCached (k / cfg.t.chunkSize) = false := by simpa using hout
        cases hstatus : s.model.status (k / cfg.t.chunkSize) with
        | inDisk => rw [hzero k hk hout' hstatus, add_zero]
        | inKVStore =>
            exact ((h.contents hfits).stored _ hout' hstatus k (key_mem_chunkKeys ht hk)).symm

end Dump

/-- One worker goes through three chunks; then the first one is on disk. -/
def evictOps : List (CMOp ℤ) :=
  [.prepare 0 [0, 1], .read 0, .push 0 [5, 6], .prepare 0 [2, 3], .read 0, .push 0 [1, 1],
    .prepare 0 [4], .read 0, .push 0 [7]]

theorem valid_evictOps : ∀ op ∈ evictOps, op.Valid twoChunks.t := by
  simp [evictOps, CMOp.Valid, ValidKeys, twoChunks, setMaxKeyAndChunkSize]

/-- The chunk on disk is not dumped: the pushes to key `0` are lost. -/
theorem dump_complete_fails : ∃ s out,
    run (cmStep twoChunks random fun k => (k : ℤ)) (.init twoChunks.t ()) evictOps = some (s, out) ∧
    (∀ op ∈ evictOps, op.Valid twoChunks.t) ∧ s.phase 0 = .idle ∧
    ¬ ∀ k < twoChunks.t.maxKey,
      s.model.dump twoChunks.t (fun k => (k : ℤ)) k = k + written s.pushed k := by
  have hrun : (run (cmStep twoChunks random fun k => (k : ℤ)) (.init twoChunks.t ()) evictOps).map
      (fun p => (p.1.phase 0, p.1.pushed, p.1.model.dump twoChunks.t (fun k => (k : ℤ)) 0)) =
        some (.idle, [(0, 5), (1, 6), (2, 1), (3, 1), (4, 7)], 0) := by
    decide
  obtain ⟨⟨s, out⟩, hs, heq⟩ := Option.map_eq_some_iff.mp hrun
  simp only [Prod.mk.injEq] at heq
  obtain ⟨hphase, hpushed, hdump⟩ := heq
  refine ⟨s, out, hs, valid_evictOps, hphase, fun hall => ?_⟩
  have hzero := hall 0 (by decide)
  rw [hdump, hpushed] at hzero
  exact absurd hzero (by decide)

/-- Two chunks fit into memory: everything is dumped. -/
theorem dump_complete_evictOps : ∃ s out,
    run (cmStep twoChunks random fun k => (k : ℤ)) (.init twoChunks.t ()) (evictOps.take 6) =
      some (s, out) ∧
    ∀ k < twoChunks.t.maxKey,
      s.model.dump twoChunks.t (fun k => (k : ℤ)) k = k + written s.pushed k := by
  have hrun : (run (cmStep twoChunks random fun k => (k : ℤ)) (.init twoChunks.t ())
      (evictOps.take 6)).map (fun p => (p.1.model.spilled twoChunks,
        (List.range 4).map p.1.model.status)) = some (0, List.replicate 4 .inKVStore) := by
    decide
  obtain ⟨⟨s, out⟩, hs, heq⟩ := Option.map_eq_some_iff.mp hrun
  obtain ⟨hspilled, heq⟩ := Prod.mk.inj heq
  have hspilled : s.model.spilled twoChunks = 0 := hspilled
  refine ⟨s, out, hs, (dump_complete twoChunks_partitioned random _ ()
    (fun op hop => valid_evictOps op (List.mem_of_mem_take hop)) hs
    (by rw [hspilled]; decide)).mpr ?_⟩
  intro k hk _ hdisk
  have hchunk := chunk_lt_of_key twoChunks_partitioned hk
  have hstatus : s.model.status (k / twoChunks.t.chunkSize) ∈ List.replicate 4 .inKVStore := by
    rw [← heq]
    exact List.mem_map_of_mem (List.mem_range.mpr hchunk)
  rw [List.eq_of_mem_replicate hstatus] at hdisk
  cases hdisk

end FlexPS.ML
