import FlexPS.ML.ModelWithCM
import Mathlib.Algebra.Order.Ring.Int

/-!
# The content of a cache-managed model

Wherever a chunk lives, its values are those of one function of the keys, as long as the places in
the temporary file fit in an `int`: `Keeps` says so of every chunk, in memory, in the file or still
in the KV store.  Evicting and fetching chunks keep the function, a push adds what it writes.  That
chunks are in memory in full length does not depend on the places.

## Main definitions

* `Sized` — the cached chunks have their full length, and what is on disk has a place.
* `Contents`, `Keeps` — the chunks hold the values of a function.
* `ModelWithCM.content` — the logical content of a chunk.
* `Keeps.flush`, `Keeps.fetch`, `Keeps.push` — the operations on chunks.
-/

namespace FlexPS.ML

open KVStore Lib

variable {P Byte Val : Type}

/-! ## Chunks and keys -/

section Keys

variable {t : RangeTable} {n : ℕ} (ht : t.Partitioned n)
include ht

/-- A key is in its chunk. -/
theorem chunk_lt_of_key {k : ℕ} (hk : k < t.maxKey) : k / t.chunkSize < t.chunkNum := by
  rw [ht.chunkNum_eq, Nat.lt_succ_iff]
  exact Nat.div_le_div_right (by omega)

theorem offset_lt_of_key {k : ℕ} (hk : k < t.maxKey) :
    k % t.chunkSize < t.realChunkSize (k / t.chunkSize) := by
  rw [ht.realChunkSize_eq (chunk_lt_of_key ht hk)]
  have hmod := Nat.mod_lt k ht.chunkSize_pos
  have hdiv := Nat.div_add_mod' k t.chunkSize
  rw [Nat.add_mul, Nat.one_mul]
  omega

theorem key_mem_chunkKeys {k : ℕ} (hk : k < t.maxKey) : k ∈ chunkKeys t (k / t.chunkSize) := by
  have hoff := offset_lt_of_key ht hk
  have hdiv := Nat.div_add_mod' k t.chunkSize
  rw [chunkKeys, List.mem_range'_1]
  omega

omit ht in
theorem realChunkSize_le (hsize : 0 < t.chunkSize) (c : ℕ) : t.realChunkSize c ≤ t.chunkSize := by
  unfold RangeTable.realChunkSize RangeTable.getLastChunkSize
  have hmod := Nat.mod_lt t.maxKey hsize
  split
  · split <;> omega
  · exact le_rfl

omit ht in
/-- No chunk is empty. -/
theorem realChunkSize_pos (hsize : 0 < t.chunkSize) (c : ℕ) : 0 < t.realChunkSize c := by
  unfold RangeTable.realChunkSize RangeTable.getLastChunkSize
  split
  · split
    · next hmod => exact Nat.pos_of_ne_zero hmod
    · exact hsize
  · exact hsize

/-- The keys of a chunk have that chunk. -/
theorem chunk_of_mem {c k : ℕ} (hk : k ∈ chunkKeys t c) : k / t.chunkSize = c := by
  have hle := realChunkSize_le ht.chunkSize_pos c
  rw [chunkKeys, List.mem_range'_1] at hk
  rw [Nat.div_eq_iff ht.chunkSize_pos]
  omega

end Keys

@[simp] theorem length_chunkKeys (t : RangeTable) (c : ℕ) :
    (chunkKeys t c).length = t.realChunkSize c := by
  simp [chunkKeys]

/-- Adding to one entry of a chunk adds to one key. -/
theorem modify_chunkKeys [AddZeroClass Val] (t : RangeTable) (c i : ℕ) (g : ℕ → Val) (v : Val) :
    ((chunkKeys t c).map g).modify i (· + v) =
      (chunkKeys t c).map fun k => g k + if c * t.chunkSize + i = k then v else 0 := by
  apply List.ext_getElem?
  intro j
  rw [List.getElem?_modify, List.getElem?_map, List.getElem?_map]
  by_cases hj : j < t.realChunkSize c
  · have hkey : (chunkKeys t c)[j]? = some (c * t.chunkSize + j) := by
      simp [chunkKeys, hj]
    rw [hkey]
    by_cases hij : i = j
    · simp [hij]
    · simp [hij]
  · rw [List.getElem?_eq_none (by simpa using hj)]
    rfl

/-! ## Content -/

/-- The cached chunks are in memory in full length, the others take no memory, and a chunk that is
on disk has a place in the file. -/
structure Sized (t : RangeTable) (m : ModelWithCM P Byte Val) : Prop where
  size_eq : ∀ c, m.cfe.actualSize c = t.realChunkSize c
  cached : ∀ c, m.isCached c → c < t.chunkNum ∧ (m.params c).length = t.realChunkSize c
  empty : ∀ c, m.isCached c = false → m.params c = []
  placed : ∀ c, m.status c = .inDisk → c < t.chunkNum ∧ (m.cfe.chunkMap c).isSome

/-- Every chunk holds the values of `g`: in memory if it is cached, in the file if it was
evicted, and in the KV store otherwise. -/
structure Contents (cfg : CMConfig Byte Val) (kv g : ℕ → Val) (m : ModelWithCM P Byte Val) :
    Prop where
  cached : ∀ c, m.isCached c → m.params c = (chunkKeys cfg.t c).map g
  evicted : ∃ history order, ByteChunkFileEditor.Describes cfg.codec history m.cfe order ∧
    (∀ c, c ∈ order ↔ m.status c = .inDisk) ∧
    ∀ c, m.isCached c = false → m.status c = .inDisk →
      ByteChunkFileEditor.lastWrite history c = some ((chunkKeys cfg.t c).map g)
  stored : ∀ c, m.isCached c = false → m.status c = .inKVStore →
    ∀ k ∈ chunkKeys cfg.t c, g k = kv k

/-- The chunks hold the values of `g` as long as those on disk fit in an `int`. -/
structure Keeps (cfg : CMConfig Byte Val) (kv g : ℕ → Val) (m : ModelWithCM P Byte Val) :
    Prop where
  sized : Sized cfg.t m
  contents : m.spilled cfg < 2 ^ 31 → Contents cfg kv g m

/-- The logical content of a chunk; that of a chunk on disk is what `read_chunks` restores. -/
def ModelWithCM.content [Inhabited Val] (cfg : CMConfig Byte Val) (kv : ℕ → Val)
    (m : ModelWithCM P Byte Val) (c : ℕ) : List Val :=
  if m.isCached c then m.params c
  else match m.status c with
    | .inDisk => ((m.readFromDisk cfg c).map Prod.fst).getD []
    | .inKVStore => ModelWithCM.pullChunk cfg.t kv c

/-! ## The operations step by step -/

section Steps

open ModelWithCM

variable {cfg : CMConfig Byte Val} {kv : ℕ → Val} {m m' : ModelWithCM P Byte Val} {c : ℕ}

/-- Evicting a chunk that is written to the file. -/
theorem flushToDisk_of_write [Inhabited Byte] {cfe : ByteChunkFileEditor Byte Val}
    {events : List (ChunkEvent Val)}
    (hwrite : (m.editor cfg.t).writeChunk cfg.codec c = some (cfe, events)) :
    m.flushToDisk cfg c = some { m with
      cfe
      params := Function.update m.params c []
      isCached := Function.update m.isCached c false
      status := Function.update m.status c .inDisk } := by
  simp only [flushToDisk, hwrite, Option.bind_eq_bind, Option.bind_some]

/-- Replacing and fetching, put together. -/
theorem replaceAndFetch_of_steps [Inhabited Byte] [Inhabited Val] {R : ReplacePolicy P}
    {toFetch chosen : List ℕ} {policy : P} {wanted : ℤ} {m₁ m₂ : ModelWithCM P Byte Val}
    (hwanted : m.numCached + toFetch.length = wanted)
    (hreplace : m.chunksToReplace cfg R wanted = some (chosen, policy))
    (hassert : wanted > cfg.cacheThreshold → wanted - chosen.length ≤ cfg.cacheThreshold)
    (hflush : chosen.foldlM (flushToDisk cfg)
      { m with policy, numCached := wanted - chosen.length } = some m₁)
    (hfetch : toFetch.foldlM (fetchChunk cfg kv) m₁ = some m₂) :
    m.replaceAndFetch cfg R kv toFetch = some (m₂, chosen) := by
  have hpass : ¬ (wanted > (cfg.cacheThreshold : ℤ) ∧
      wanted - chosen.length > (cfg.cacheThreshold : ℤ)) :=
    fun ⟨hover, hfail⟩ => absurd (hassert hover) (not_le.mpr hfail)
  simp only [replaceAndFetch, hwanted, hreplace, Option.bind_eq_bind, Option.bind_some,
    if_neg hpass, hflush, hfetch]

/-- Fetching a chunk from the KV store. -/
theorem fetchChunk_kv [Inhabited Val] (hkv : m.status c = .inKVStore) :
    m.fetchChunk cfg kv c = some { m with
      params := Function.update m.params c (pullChunk cfg.t kv c)
      isCached := Function.update m.isCached c true } := by
  simp only [fetchChunk, ModelWithCM.fetched, hkv, Option.bind_eq_bind, Option.bind_some]

/-- Fetching a chunk that is read from the file. -/
theorem fetchChunk_disk [Inhabited Val] (hdisk : m.status c = .inDisk) {pos : ℤ}
    (hplace : m.cfe.chunkMap c = some pos) {file : File Byte} {chunk : List Val}
    {event : ChunkEvent Val} (hlt : c < cfg.t.chunkNum)
    (hread : (m.editor cfg.t).readChunk cfg.codec c pos =
      some ({ m.editor cfg.t with file, chunks := (m.editor cfg.t).chunks.set c chunk }, event)) :
    ∃ m', m.fetchChunk cfg kv c = some m' ∧ m'.params = Function.update m.params c chunk := by
  have hset : c < (m.editor cfg.t).chunks.length := by simpa [editor] using hlt
  refine ⟨{ m with
    cfe := { m.editor cfg.t with file, chunks := (m.editor cfg.t).chunks.set c chunk }
    params := Function.update m.params c chunk
    isCached := Function.update m.isCached c true }, ?_, rfl⟩
  simp only [fetchChunk, ModelWithCM.fetched, hdisk, ModelWithCM.readFromDisk, hplace, hread,
    Option.bind_eq_bind, Option.bind_some, List.getElem?_set_self hset]

/-- What `Prepare` does when one chunk is missing. -/
theorem prepare_missing [Inhabited Byte] [Inhabited Val] {R : ReplacePolicy P} {k : ℕ}
    (hchunks : chunksToPrepare cfg.t none [k] = some [c]) (hmissing : m.isCached c = false)
    (hpos : 0 < cfg.cacheThreshold) :
    m.prepare cfg R kv [k] = ({ m with
      prepareCount := Function.update m.prepareCount c (m.prepareCount c + 1) } :
        ModelWithCM P Byte Val).replaceAndFetch cfg R kv [c] := by
  have hfetch : [c].filter (fun c => !m.isCached c) = [c] := by simp [hmissing]
  have hroom : ¬cfg.cacheThreshold < [k].length := by simpa using hpos.ne'
  unfold ModelWithCM.prepare
  rw [if_neg hroom, hchunks, Option.bind_eq_bind, Option.bind_some]
  simp only [hfetch, List.cons_ne_nil, if_false]
  rfl

/-- A push changes values, counters and the policy only. -/
theorem pushFrom_frame [Add Val] {t : RangeTable} {R : ReplacePolicy P} {current : Option ℕ}
    {pairs : List (ℕ × Val)} (h : pushFrom t R current m pairs = some m') :
    m'.isCached = m.isCached ∧ m'.numCached = m.numCached ∧ m'.status = m.status ∧
      m'.cfe = m.cfe := by
  induction pairs generalizing m current with
  | nil =>
      obtain rfl := Option.some.inj h
      exact ⟨rfl, rfl, rfl, rfl⟩
  | cons p pairs ih =>
      obtain ⟨⟨c, i⟩, -, h⟩ := Option.bind_eq_some_iff.mp h
      simp only at h
      -- the chunk is locked already, or it is counted out first
      split at h
      · split at h
        · have hrest := ih h
          exact hrest
        · cases h
      · split at h
        · have hrest := ih h
          exact hrest
        · cases h

end Steps

/-! ## What is on disk -/

section Spilled

open ModelWithCM

variable {cfg : CMConfig Byte Val} {m m' : ModelWithCM P Byte Val}

/-- What is on disk stays there. -/
theorem spilled_le (h : ∀ c, m.status c = .inDisk → m'.status c = .inDisk) :
    m.spilled cfg ≤ m'.spilled cfg := by
  refine totalSize_le (List.nodup_range.filter _) fun c hc => ?_
  simp only [List.mem_filter, List.mem_range, decide_eq_true_eq] at hc ⊢
  exact ⟨hc.1, h c hc.2⟩

theorem spilled_congr (h : m'.status = m.status) : m'.spilled cfg = m.spilled cfg := by
  rw [spilled, spilled, h]

/-- Chunks that are on disk. -/
theorem Sized.totalSize_le_spilled (h : Sized cfg.t m) {order : List ℕ} (hnodup : order.Nodup)
    (hdisk : ∀ c ∈ order, m.status c = .inDisk) :
    totalSize (fun c => cfg.t.realChunkSize c * cfg.codec.width) order ≤ m.spilled cfg := by
  refine totalSize_le hnodup fun c hc => ?_
  simp only [List.mem_filter, List.mem_range, decide_eq_true_eq]
  exact ⟨(h.placed c (hdisk c hc)).1, hdisk c hc⟩

/-- Evicting a chunk, which then has a place in the file. -/
theorem Sized.flush (h : Sized cfg.t m) {c : ℕ} (hlt : c < cfg.t.chunkNum)
    {cfe : ByteChunkFileEditor Byte Val} (hactual : cfe.actualSize = m.cfe.actualSize)
    (hplaced : ∀ c', (cfe.chunkMap c').isSome ↔ (m.cfe.chunkMap c').isSome ∨ c' = c) :
    Sized cfg.t { m with
      cfe
      params := Function.update m.params c []
      isCached := Function.update m.isCached c false
      status := Function.update m.status c .inDisk } := by
  constructor
  · intro c'
    rw [← h.size_eq c']
    exact congrFun hactual c'
  · intro c' hcached
    by_cases hne : c' = c
    · simp [hne] at hcached
    · simpa [hne] using h.cached c' (by simpa [hne] using hcached)
  · intro c' hcached
    by_cases hne : c' = c
    · simp [hne]
    · simpa [hne] using h.empty c' (by simpa [hne] using hcached)
  · intro c' hdisk
    by_cases hne : c' = c
    · exact ⟨hne ▸ hlt, (hplaced c').mpr (.inr hne)⟩
    · obtain ⟨hlt', hplace⟩ := h.placed c' (by simpa [hne] using hdisk)
      exact ⟨hlt', (hplaced c').mpr (.inl hplace)⟩

/-- A chunk behind `chunks_ptr_`. -/
theorem editor_chunk {t : RangeTable} {c : ℕ} (hc : c < t.chunkNum) :
    (m.editor t).chunks[c]? = some (m.params c) := by
  simp [editor, hc]

end Spilled

namespace Keeps

open ModelWithCM

variable {cfg : CMConfig Byte Val} {kv g : ℕ → Val} {m : ModelWithCM P Byte Val}

/-- The fields that `Keeps` is about. -/
theorem congr (h : Keeps cfg kv g m) {m' : ModelWithCM P Byte Val} (hparams : m'.params = m.params)
    (hcached : m'.isCached = m.isCached) (hstatus : m'.status = m.status) (hcfe : m'.cfe = m.cfe) :
    Keeps cfg kv g m' := by
  constructor
  · constructor
    · rw [hcfe]
      exact h.sized.size_eq
    · rw [hcached, hparams]
      exact h.sized.cached
    · rw [hcached, hparams]
      exact h.sized.empty
    · rw [hstatus, hcfe]
      exact h.sized.placed
  · intro hfits
    rw [spilled_congr hstatus] at hfits
    constructor
    · rw [hcached, hparams]
      exact (h.contents hfits).cached
    · rw [hcached, hstatus, hcfe]
      exact (h.contents hfits).evicted
    · rw [hcached, hstatus]
      exact (h.contents hfits).stored

/-- Evicting a cached chunk. -/
theorem flush [Inhabited Byte] (h : Keeps cfg kv g m) {c : ℕ} (hc : m.isCached c) :
    ∃ m', m.flushToDisk cfg c = some m' ∧ Keeps cfg kv g m' ∧
      m'.isCached = Function.update m.isCached c false ∧ m'.prepareCount = m.prepareCount := by
  obtain ⟨hlt, hlength⟩ := h.sized.cached c hc
  have hchunk : (m.editor cfg.t).chunks[c]? = some (m.params c) := editor_chunk hlt
  have hsize : (m.params c).length = (m.editor cfg.t).actualSize c :=
    hlength.trans (h.sized.size_eq c).symm
  obtain ⟨cfe, hwrite, hactual, hplaced⟩ :=
    ByteChunkFileEditor.writeChunk_total (c := cfg.codec) hchunk hsize
  let m' : ModelWithCM P Byte Val := { m with
    cfe
    params := Function.update m.params c []
    isCached := Function.update m.isCached c false
    status := Function.update m.status c .inDisk }
  have hstatus : ∀ c', m'.status c' = .inDisk ↔ c' = c ∨ m.status c' = .inDisk := by
    intro c'
    by_cases hne : c' = c
    · simp [m', hne]
    · simp [m', hne]
  have hmono : m.spilled cfg ≤ m'.spilled cfg :=
    spilled_le fun c' hdisk => (hstatus c').mpr (.inr hdisk)
  have hsized : Sized cfg.t m' := h.sized.flush hlt hactual hplaced
  refine ⟨m', flushToDisk_of_write hwrite, ⟨hsized, fun hfits => ?_⟩, rfl, rfl⟩
  have hbefore := h.contents (Nat.lt_of_le_of_lt hmono hfits)
  obtain ⟨history, order, hdescribes, hmem, hlast⟩ := hbefore.evicted
  have heditor : ByteChunkFileEditor.Describes cfg.codec history (m.editor cfg.t) order :=
    hdescribes.congr rfl rfl rfl rfl
  have hbytes : (m.editor cfg.t).byteSize cfg.codec =
      fun c => cfg.t.realChunkSize c * cfg.codec.width := by
    funext c'
    rw [← h.sized.size_eq c']
    rfl
  -- The new chunk is on disk as well, so everything up to its end fits.
  obtain ⟨cfe', order', hwrite', hdescribes', -⟩ := heditor.writeChunk hchunk hsize fun hnot => by
    rw [hbytes]
    refine Nat.lt_of_le_of_lt (hsized.totalSize_le_spilled ?_ fun c' hc' => ?_) hfits
    · exact List.nodup_append.mpr ⟨heditor.nodup, List.nodup_singleton c, fun a ha b hb heq =>
        hnot (List.mem_singleton.mp hb ▸ heq ▸ ha)⟩
    · rw [hstatus]
      rcases List.mem_append.mp hc' with hold | hnew
      · exact .inr ((hmem c').mp hold)
      · exact .inl (List.mem_singleton.mp hnew)
  obtain rfl := (Prod.mk.inj (Option.some.inj (hwrite.symm.trans hwrite'))).1
  constructor
  · intro c' hcached
    by_cases hne : c' = c
    · simp [m', hne] at hcached
    · simpa [m', hne] using hbefore.cached c' (by simpa [m', hne] using hcached)
  · refine ⟨_, order', hdescribes', fun c' => ?_, fun c' hcached hdisk => ?_⟩
    · rw [hdescribes'.mem_iff, hstatus, ← hmem, hdescribes.mem_iff]
      by_cases hne : c' = c
      · simp [hne]
      · rw [ByteChunkFileEditor.lastWrite_wrote_of_ne history hne, or_iff_right hne]
    · by_cases hne : c' = c
      · rw [hne, ByteChunkFileEditor.lastWrite_wrote_self, hbefore.cached c hc]
      · rw [ByteChunkFileEditor.lastWrite_wrote_of_ne history hne]
        exact hlast c' (by simpa [m', hne] using hcached) (by simpa [m', hne] using hdisk)
  · intro c' hcached hkv
    by_cases hne : c' = c
    · simp [m', hne] at hkv
    · exact hbefore.stored c' (by simpa [m', hne] using hcached) (by simpa [m', hne] using hkv)

/-- Evicting some cached chunks. -/
theorem flushAll [Inhabited Byte] {chunks : List ℕ} (hnodup : chunks.Nodup) (h : Keeps cfg kv g m)
    (hcached : ∀ c ∈ chunks, m.isCached c) :
    ∃ m', chunks.foldlM (flushToDisk cfg) m = some m' ∧ Keeps cfg kv g m' ∧
      (∀ c, m'.isCached c = (m.isCached c && decide (c ∉ chunks))) ∧
      m'.prepareCount = m.prepareCount := by
  induction chunks generalizing m with
  | nil => exact ⟨m, rfl, h, by simp, rfl⟩
  | cons c chunks ih =>
      rw [List.nodup_cons] at hnodup
      obtain ⟨m₁, hflush, h₁, hcached₁, hcount₁⟩ := h.flush (hcached c (by simp))
      have hstill : ∀ c' ∈ chunks, m₁.isCached c' := by
        intro c' hc'
        have hne : c' ≠ c := fun heq => hnodup.1 (heq ▸ hc')
        rw [hcached₁, Function.update_of_ne hne]
        exact hcached c' (by simp [hc'])
      obtain ⟨m₂, hrest, h₂, hcached₂, hcount₂⟩ := ih hnodup.2 h₁ hstill
      refine ⟨m₂, ?_, h₂, fun c' => ?_, hcount₂.trans hcount₁⟩
      · rw [List.foldlM_cons, hflush]
        exact hrest
      · rw [hcached₂, hcached₁]
        by_cases hne : c' = c
        · simp [hne]
        · simp [hne]

section Files

variable [Inhabited Val]

/-- A chunk on disk is read in full length, and as it was written. -/
theorem readFromDisk (h : Keeps cfg kv g m) {c : ℕ} (hdisk : m.status c = .inDisk) :
    ∃ chunk file, m.readFromDisk cfg c = some (chunk, { m.editor cfg.t with
        file := file, chunks := (m.editor cfg.t).chunks.set c chunk }) ∧
      chunk.length = cfg.t.realChunkSize c ∧ file.contents = m.cfe.file.contents ∧
      (m.spilled cfg < 2 ^ 31 → m.isCached c = false → chunk = (chunkKeys cfg.t c).map g) := by
  obtain ⟨hc, hplaced⟩ := h.sized.placed c hdisk
  obtain ⟨pos, hpos⟩ := Option.isSome_iff_exists.mp hplaced
  have hlt : c < (m.editor cfg.t).chunks.length := by simpa [editor] using hc
  obtain ⟨chunk, file, hread, hsize, hcontents⟩ :=
    ByteChunkFileEditor.readChunk_total (c := cfg.codec) hlt pos
  refine ⟨chunk, file, ?_, hsize.trans (h.sized.size_eq c), hcontents, fun hfits hcached => ?_⟩
  · simp only [ModelWithCM.readFromDisk, hpos, hread, Option.bind_eq_bind, Option.bind_some,
      List.getElem?_set_self hlt]
  · obtain ⟨history, order, hdescribes, -, hlast⟩ := (h.contents hfits).evicted
    have heditor : ByteChunkFileEditor.Describes cfg.codec history (m.editor cfg.t) order :=
      hdescribes.congr rfl rfl rfl rfl
    obtain ⟨pos', file', hpos', -, hread'⟩ :=
      heditor.readChunk (hlast c hcached hdisk) hlt
    obtain rfl := Option.some.inj (hpos.symm.trans hpos')
    have hsame := (Prod.mk.inj (Option.some.inj (hread.symm.trans hread'))).2
    exact (ChunkEvent.restored.inj hsame).2

theorem content_eq (h : Keeps cfg kv g m) (hfits : m.spilled cfg < 2 ^ 31) (c : ℕ) :
    m.content cfg kv c = (chunkKeys cfg.t c).map g := by
  unfold content
  split
  · next hcached => exact (h.contents hfits).cached c hcached
  · next hcached =>
      have hcached' : m.isCached c = false := by simpa using hcached
      split
      · next hdisk =>
          obtain ⟨chunk, file, hread, -, -, hchunk⟩ := h.readFromDisk hdisk
          rw [hread, Option.map_some, Option.getD_some, hchunk hfits hcached']
      · next hkv =>
          exact (List.map_congr_left fun k hk => (h.contents hfits).stored c hcached' hkv k hk).symm


/-- What `fetch_chunk` finds. -/
theorem fetched (h : Keeps cfg kv g m) {c : ℕ} (hcached : m.isCached c = false) :
    ∃ chunk cfe, m.fetched cfg kv c = some (chunk, cfe) ∧
      chunk.length = cfg.t.realChunkSize c ∧ cfe.actualSize = m.cfe.actualSize ∧
      cfe.chunkMap = m.cfe.chunkMap ∧ cfe.bytesWritten = m.cfe.bytesWritten ∧
      cfe.file.contents = m.cfe.file.contents ∧
      (m.spilled cfg < 2 ^ 31 → chunk = (chunkKeys cfg.t c).map g) := by
  unfold ModelWithCM.fetched
  split
  · next hkv =>
      refine ⟨_, m.cfe, rfl, by simp [pullChunk], rfl, rfl, rfl, rfl, fun hfits => ?_⟩
      exact List.map_congr_left fun k hk => ((h.contents hfits).stored c hcached hkv k hk).symm
  · next hdisk =>
      obtain ⟨chunk, file, hread, hlength, hcontents, hchunk⟩ := h.readFromDisk hdisk
      exact ⟨chunk, _, hread, hlength, rfl, rfl, rfl, hcontents, fun hfits => hchunk hfits hcached⟩

/-- Fetching a chunk that is not cached. -/
theorem fetch (h : Keeps cfg kv g m) {c : ℕ} (hlt : c < cfg.t.chunkNum)
    (hc : m.isCached c = false) :
    ∃ m', m.fetchChunk cfg kv c = some m' ∧ Keeps cfg kv g m' ∧
      m'.isCached = Function.update m.isCached c true ∧ m'.prepareCount = m.prepareCount := by
  obtain ⟨chunk, cfe, hfetched, hlength, hactual, hmap, hwritten, hcontents, hchunk⟩ := h.fetched hc
  let m' : ModelWithCM P Byte Val := { m with
    cfe
    params := Function.update m.params c chunk
    isCached := Function.update m.isCached c true }
  refine ⟨m', by simp [fetchChunk, hfetched, m'], ⟨?_, fun hfits => ?_⟩, rfl, rfl⟩
  · constructor
    · intro c'
      rw [← h.sized.size_eq c']
      exact congrFun hactual c'
    · intro c' hcached
      by_cases hne : c' = c
      · simpa [m', hne] using ⟨hlt, hlength⟩
      · simpa [m', hne] using h.sized.cached c' (by simpa [m', hne] using hcached)
    · intro c' hcached
      by_cases hne : c' = c
      · simp [m', hne] at hcached
      · simpa [m', hne] using h.sized.empty c' (by simpa [m', hne] using hcached)
    · intro c' hdisk
      rw [show m'.cfe.chunkMap = m.cfe.chunkMap from hmap]
      exact h.sized.placed c' hdisk
  · have hbefore := h.contents hfits
    constructor
    · intro c' hcached
      by_cases hne : c' = c
      · simpa [m', hne] using hchunk hfits
      · simpa [m', hne] using hbefore.cached c' (by simpa [m', hne] using hcached)
    · obtain ⟨history, order, hdescribes, hmem, hlast⟩ := hbefore.evicted
      refine ⟨history, order, hdescribes.congr hcontents hmap hwritten hactual, hmem,
        fun c' hcached hdisk => hlast c' ?_ hdisk⟩
      by_cases hne : c' = c
      · simp [m', hne] at hcached
      · simpa [m', hne] using hcached
    · intro c' hcached hkv
      by_cases hne : c' = c
      · simp [m', hne] at hcached
      · exact hbefore.stored c' (by simpa [m', hne] using hcached) hkv

/-- Fetching some chunks that are not cached. -/
theorem fetchAll {chunks : List ℕ} (hnodup : chunks.Nodup) (h : Keeps cfg kv g m)
    (hlt : ∀ c ∈ chunks, c < cfg.t.chunkNum) (hcached : ∀ c ∈ chunks, m.isCached c = false) :
    ∃ m', chunks.foldlM (fetchChunk cfg kv) m = some m' ∧ Keeps cfg kv g m' ∧
      (∀ c, m'.isCached c = (m.isCached c || decide (c ∈ chunks))) ∧
      m'.prepareCount = m.prepareCount := by
  induction chunks generalizing m with
  | nil => exact ⟨m, rfl, h, by simp, rfl⟩
  | cons c chunks ih =>
      rw [List.nodup_cons] at hnodup
      obtain ⟨m₁, hfetch, h₁, hcached₁, hcount₁⟩ := h.fetch (hlt c (by simp))
        (hcached c (by simp))
      have hstill : ∀ c' ∈ chunks, m₁.isCached c' = false := by
        intro c' hc'
        have hne : c' ≠ c := fun heq => hnodup.1 (heq ▸ hc')
        rw [hcached₁, Function.update_of_ne hne]
        exact hcached c' (by simp [hc'])
      obtain ⟨m₂, hrest, h₂, hcached₂, hcount₂⟩ := ih hnodup.2 h₁
        (fun c' hc' => hlt c' (by simp [hc'])) hstill
      refine ⟨m₂, ?_, h₂, fun c' => ?_, hcount₂.trans hcount₁⟩
      · rw [List.foldlM_cons, hfetch]
        exact hrest
      · rw [hcached₂, hcached₁]
        by_cases hne : c' = c
        · simp [hne]
        · simp [hne]

end Files

section Push

variable [AddCommMonoid Val] {n : ℕ} (ht : cfg.t.Partitioned n)
include ht

/-- Adding to one key of a cached chunk. -/
theorem add (h : Keeps cfg kv g m) {k : ℕ} (hk : k < cfg.t.maxKey)
    (hc : m.isCached (k / cfg.t.chunkSize)) (v : Val) :
    k % cfg.t.chunkSize < (m.params (k / cfg.t.chunkSize)).length ∧
      Keeps cfg kv (fun j => g j + if k = j then v else 0) { m with
        params := Function.update m.params (k / cfg.t.chunkSize)
          ((m.params (k / cfg.t.chunkSize)).modify (k % cfg.t.chunkSize) (· + v)) } := by
  obtain ⟨hlt, hlength⟩ := h.sized.cached _ hc
  have hnot : ∀ c, m.isCached c = false → c ≠ k / cfg.t.chunkSize := by
    rintro c hcached rfl
    rw [hc] at hcached
    cases hcached
  -- The other chunks do not have the key.
  have hother : ∀ c, c ≠ k / cfg.t.chunkSize → ∀ j ∈ chunkKeys cfg.t c,
      g j + (if k = j then v else 0) = g j := by
    intro c hne j hj
    have hkj : k ≠ j := by
      rintro rfl
      exact hne (chunk_of_mem ht hj).symm
    rw [if_neg hkj, add_zero]
  have hmap : ∀ c, c ≠ k / cfg.t.chunkSize → (chunkKeys cfg.t c).map g =
      (chunkKeys cfg.t c).map fun j => g j + if k = j then v else 0 := fun c hne =>
    List.map_congr_left fun j hj => (hother c hne j hj).symm
  refine ⟨by rw [hlength]; exact offset_lt_of_key ht hk, ?_, fun hfits => ?_⟩
  · refine ⟨h.sized.size_eq, fun c hcached => ?_, fun c hcached => ?_, h.sized.placed⟩
    · by_cases hne : c = k / cfg.t.chunkSize
      · subst hne
        simpa using ⟨hlt, hlength⟩
      · simpa [hne] using h.sized.cached c hcached
    · simpa [hnot c hcached] using h.sized.empty c hcached
  · have hbefore := h.contents hfits
    obtain ⟨history, order, hdescribes, hmem, hlast⟩ := hbefore.evicted
    refine ⟨fun c hcached => ?_, ⟨history, order, hdescribes, hmem, fun c hcached hdisk => ?_⟩,
      fun c hcached hkv j hj => ?_⟩
    · by_cases hne : c = k / cfg.t.chunkSize
      · subst hne
        simp only [Function.update_self, hbefore.cached _ hc]
        rw [modify_chunkKeys, Nat.div_add_mod']
      · simp only [Function.update_of_ne hne, hbefore.cached c hcached, hmap c hne]
    · rw [← hmap c (hnot c hcached)]
      exact hlast c hcached hdisk
    · rw [hother c (hnot c hcached) j hj]
      exact hbefore.stored c hcached hkv j hj

/-- **A push adds what it writes**, touches nothing else, and counts itself out of its
chunks. -/
theorem push (R : ReplacePolicy P) {pairs : List (ℕ × Val)} (current : Option ℕ)
    (h : Keeps cfg kv g m) (hlt : ∀ p ∈ pairs, p.1 < cfg.t.maxKey)
    (hcached : ∀ p ∈ pairs, m.isCached (p.1 / cfg.t.chunkSize)) :
    ∃ m' chunks, pushFrom cfg.t R current m pairs = some m' ∧
      chunksToPrepare cfg.t current (pairs.map Prod.fst) = some chunks ∧
      Keeps cfg kv (fun k => g k + written pairs k) m' ∧ m'.isCached = m.isCached ∧
      m'.prepareCount =
        chunks.foldl (fun count c => Function.update count c (count c - 1)) m.prepareCount := by
  induction pairs generalizing m g current with
  | nil => exact ⟨m, [], rfl, rfl, by simpa using h, rfl, rfl⟩
  | cons p pairs ih =>
      obtain ⟨k, v⟩ := p
      have hk : k < cfg.t.maxKey := hlt (k, v) (by simp)
      have hc : m.isCached (k / cfg.t.chunkSize) := hcached (k, v) (by simp)
      have hloc : getLocation cfg.t k = some (k / cfg.t.chunkSize, k % cfg.t.chunkSize) := if_pos hk
      set c := k / cfg.t.chunkSize with hcdef
      -- A chunk that was not locked before is counted out first.
      let m₁ : ModelWithCM P Byte Val := if current = some c then m
        else { m with
          policy := R.touch m.policy c
          prepareCount := Function.update m.prepareCount c (m.prepareCount c - 1) }
      have hsame : m₁.params = m.params ∧ m₁.isCached = m.isCached ∧ m₁.status = m.status ∧
          m₁.cfe = m.cfe := by
        simp only [m₁]
        split <;> exact ⟨rfl, rfl, rfl, rfl⟩
      have h₁ : Keeps cfg kv g m₁ := h.congr hsame.1 hsame.2.1 hsame.2.2.1 hsame.2.2.2
      obtain ⟨hlen, h₂⟩ := h₁.add ht hk (by rw [hsame.2.1]; exact hc) v
      obtain ⟨m', chunks, hpush, hchunks, h₃, hcached₃, hcount₃⟩ := ih (some c) h₂
        (fun p hp => hlt p (by simp [hp])) (fun p hp => by
          have := hcached p (by simp [hp])
          rwa [← hsame.2.1] at this)
      refine ⟨m', if current = some c then chunks else c :: chunks, ?_, ?_, ?_, ?_, ?_⟩
      · simp only [pushFrom, hloc, Option.bind_eq_bind, Option.bind_some]
        rw [if_pos hlen]
        exact hpush
      · simp only [List.map_cons, chunksToPrepare, hloc, Option.bind_eq_bind, Option.bind_some,
          hchunks]
      · have hwritten : (fun j => g j + written ((k, v) :: pairs) j) =
            fun j => g j + (if k = j then v else 0) + written pairs j := by
          funext j
          rw [written_cons, add_assoc]
        rw [hwritten]
        exact h₃
      · exact hcached₃.trans hsame.2.1
      · rw [hcount₃]
        simp only [m₁]
        split
        · rfl
        · rfl

end Push

end Keeps

end FlexPS.ML
