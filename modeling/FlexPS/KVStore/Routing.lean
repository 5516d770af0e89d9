import FlexPS.KVStore.PushRequest

/-!
# Which server has a key

The table of a store cuts the keys and the chunks into one range per server.  Here the
table is described by what a reader of it needs: the ranges tile the key space and the
chunk space, and a key and its chunk are on the same server.  `Slice_`, `PartitionChunks_`
and the two lookups of the range manager all find that server.

## Main definitions

* `Tiles` — ranges that follow one another without a gap.
* `setMaxKeyAndChunkSize_partitions` — the table `SetMaxKeyAndChunkSize` computes.
* `routing_agrees` — the four ways to find a server.
-/

namespace FlexPS.KVStore

open Lib

variable {Val : Type}

/-! ## Tilings -/

/-- The ranges follow one another without a gap from the first bound to the last.  A range
may be empty. -/
def Tiles : ℕ → ℕ → List Range → Prop
  | first, last, [] => first = last
  | first, last, r :: rs => r.begin_ = first ∧ r.begin_ ≤ r.end_ ∧ Tiles r.end_ last rs

theorem tiles_rangesFrom {b : ℕ → ℕ} (hb : Monotone b) (j m : ℕ) :
    Tiles (b j) (b (j + m)) (rangesFrom b j m) := by
  induction m generalizing j with
  | zero => rfl
  | succ m ih =>
      rw [rangesFrom_succ]
      refine ⟨rfl, hb (Nat.le_succ j), ?_⟩
      have hrest := ih (j + 1)
      rwa [Nat.add_right_comm] at hrest

/-- The lookup stops behind the range that holds the key. -/
theorem rangesBegun_rangesFrom {b : ℕ → ℕ} (hb : Monotone b) {i j m key : ℕ} (hji : j ≤ i)
    (him : i < j + m) (hlo : b i ≤ key) (hhi : key < b (i + 1)) :
    RangeTable.rangesBegun key (rangesFrom b j m) = i + 1 - j := by
  induction m generalizing j with
  | zero => omega
  | succ m ih =>
      have hbegun : key ≥ b j := (hb hji).trans hlo
      rw [rangesFrom_succ, RangeTable.rangesBegun, if_pos hbegun]
      rcases Nat.eq_or_lt_of_le hji with rfl | hlt
      · have hnext : RangeTable.rangesBegun key (rangesFrom b (j + 1) m) = 0 := by
          cases m with
          | zero => rfl
          | succ m => rw [rangesFrom_succ, RangeTable.rangesBegun, if_neg (by simpa using hhi)]
        rw [hnext]
        omega
      · rw [ih hlt (by omega)]
        omega

/-! ## Tables cut at the chunk bounds -/

namespace RangeTable.Partitioned

variable {t : RangeTable} {n : ℕ} (ht : t.Partitioned n)
include ht

theorem serverChunkRanges_eq : t.serverChunkRanges = rangesFrom (chunkBound n t.chunkNum) 0 n := by
  rw [ht.chunkRanges_eq, rangesFrom, List.range_eq_range']

theorem serverKeyRanges_getElem? {i : ℕ} {r : Range} :
    t.serverKeyRanges[i]? = some r ↔ i < n ∧ r = ⟨t.keyBound n i, t.keyBound n (i + 1)⟩ := by
  rw [List.getElem?_eq_some_iff]
  constructor
  · rintro ⟨hi, rfl⟩
    exact ⟨by rwa [← ht.serverKeyRanges_length], ht.serverKeyRanges_getElem hi⟩
  · rintro ⟨hi, rfl⟩
    have hlen : i < t.serverKeyRanges.length := by rwa [ht.serverKeyRanges_length]
    exact ⟨hlen, ht.serverKeyRanges_getElem hlen⟩

theorem serverChunkRanges_getElem? {i : ℕ} {r : Range} :
    t.serverChunkRanges[i]? = some r ↔
      i < n ∧ r = ⟨chunkBound n t.chunkNum i, chunkBound n t.chunkNum (i + 1)⟩ := by
  rw [ht.chunkRanges_eq]
  exact getElem?_map_range

/-- A key lies behind the first key of a server exactly when its chunk lies behind the
server's first chunk. -/
theorem keyBound_le_iff {key : ℕ} (hkey : key < t.maxKey) (i : ℕ) :
    t.keyBound n i ≤ key ↔ chunkBound n t.chunkNum i ≤ key / t.chunkSize := by
  rw [Nat.le_div_iff_mul_le ht.chunkSize_pos, RangeTable.keyBound]
  omega

/-- **A key and its chunk are on the same server.** -/
theorem contains_iff {i key : ℕ} {r c : Range} (hr : t.serverKeyRanges[i]? = some r)
    (hc : t.serverChunkRanges[i]? = some c) :
    r.Contains key ↔ key < t.maxKey ∧ c.Contains (key / t.chunkSize) := by
  obtain ⟨-, rfl⟩ := ht.serverKeyRanges_getElem?.mp hr
  obtain ⟨-, rfl⟩ := ht.serverChunkRanges_getElem?.mp hc
  have hend : t.keyBound n (i + 1) ≤ t.maxKey := Nat.min_le_right _ _
  constructor
  · rintro ⟨hlo, hhi⟩
    have hkey : key < t.maxKey := Nat.lt_of_lt_of_le hhi hend
    refine ⟨hkey, (ht.keyBound_le_iff hkey i).mp hlo, ?_⟩
    exact Nat.lt_of_not_le fun hle => Nat.not_le_of_lt hhi ((ht.keyBound_le_iff hkey _).mpr hle)
  · rintro ⟨hkey, hlo, hhi⟩
    refine ⟨(ht.keyBound_le_iff hkey i).mpr hlo, ?_⟩
    exact Nat.lt_of_not_le fun hle => Nat.not_le_of_lt hhi ((ht.keyBound_le_iff hkey _).mp hle)

/-- A key lies in the range of its owner and in no other. -/
theorem contains_iff_owner {i key : ℕ} {r : Range} (hr : t.serverKeyRanges[i]? = some r)
    (hkey : key < t.maxKey) : r.Contains key ↔ t.owner key = i := by
  obtain ⟨hi, rfl⟩ := ht.serverKeyRanges_getElem?.mp hr
  constructor
  · rintro ⟨hlo, hhi⟩
    exact ht.owner_eq hi hlo hhi
  · rintro rfl
    exact (ht.owner_spec hkey).2

/-- **The linear lookup finds the owner.** -/
theorem getServerFromKey_eq {key : ℕ} (hkey : key < t.maxKey) :
    t.getServerFromKey key = t.owner key := by
  obtain ⟨hi, hlo, hhi⟩ := ht.owner_spec hkey
  rw [RangeTable.getServerFromKey, ht.serverKeyRanges_eq,
    rangesBegun_rangesFrom (t.keyBound_mono n) (Nat.zero_le _) (by simpa using hi) hlo hhi]
  omega

theorem getServerFromChunk_eq {c : ℕ} (hc : c < t.chunkNum) :
    t.getServerFromChunk c = t.owner (c * t.chunkSize) := by
  have hkey := ht.chunk_lt hc
  rw [RangeTable.getServerFromChunk, wrap64_of_lt (hkey.trans ht.maxKey_lt),
    ht.getServerFromKey_eq hkey]

/-- The first key of a chunk is in that chunk. -/
theorem mul_chunkSize_div (c : ℕ) : c * t.chunkSize / t.chunkSize = c :=
  Nat.mul_div_cancel c ht.chunkSize_pos

end RangeTable.Partitioned

/-! ## The table of a store -/

/-- A server has as many chunks as any other, up to one. -/
theorem chunkBound_succ_sub (numServers chunkNum i j : ℕ) :
    chunkBound numServers chunkNum (i + 1) - chunkBound numServers chunkNum i ≤
      chunkBound numServers chunkNum (j + 1) - chunkBound numServers chunkNum j + 1 := by
  simp only [chunkBound, Nat.add_mul, Nat.one_mul]
  omega

/-- What the table of a store says: the keys below `max_key` and their chunks are dealt out
to the servers in order, chunk by chunk. -/
structure RangeTable.DealsOut (t : RangeTable) (numServers maxKey chunkSize : ℕ) : Prop where
  keyRanges_length : t.serverKeyRanges.length = numServers
  keyRanges_tile : Tiles 0 maxKey t.serverKeyRanges
  chunkRanges_length : t.serverChunkRanges.length = numServers
  chunkRanges_tile : Tiles 0 ((maxKey + chunkSize - 1) / chunkSize) t.serverChunkRanges
  /-- Chunk bounds fit in a word, and key bounds are the products over the numbers, not over
  the words. -/
  exact_bounds : ∀ (i : ℕ) (r c : Range), t.serverKeyRanges[i]? = some r →
    t.serverChunkRanges[i]? = some c → c.begin_ < 2 ^ 64 ∧ c.end_ < 2 ^ 64 ∧
      r = ⟨min (c.begin_ * chunkSize) maxKey, min (c.end_ * chunkSize) maxKey⟩
  even : ∀ c ∈ t.serverChunkRanges, ∀ c' ∈ t.serverChunkRanges,
    c.end_ - c.begin_ ≤ c'.end_ - c'.begin_ + 1
  key_iff_chunk : ∀ (i : ℕ) (r c : Range), t.serverKeyRanges[i]? = some r →
    t.serverChunkRanges[i]? = some c →
      ∀ key, r.Contains key ↔ key < maxKey ∧ c.Contains (key / chunkSize)
  one_server : ∀ key < maxKey, ∃! i : ℕ, ∃ r : Range,
    t.serverKeyRanges[i]? = some r ∧ r.Contains key

namespace RangeTable.Partitioned

variable {t : RangeTable} {n : ℕ} (ht : t.Partitioned n)
include ht

theorem chunkNum_eq_ceil : t.chunkNum = (t.maxKey + t.chunkSize - 1) / t.chunkSize := by
  have hsum : t.maxKey + t.chunkSize - 1 = t.maxKey - 1 + t.chunkSize := by
    have := ht.maxKey_pos
    omega
  rw [ht.chunkNum_eq, hsum, Nat.add_div_right _ ht.chunkSize_pos]

theorem chunkNum_lt : t.chunkNum < 2 ^ 64 := by
  have hdiv : (t.maxKey - 1) / t.chunkSize ≤ t.maxKey - 1 := Nat.div_le_self _ _
  have hpos := ht.maxKey_pos
  have hlt := ht.maxKey_lt
  rw [ht.chunkNum_eq]
  omega

theorem dealsOut : t.DealsOut n t.maxKey t.chunkSize := by
  have hchunks : ∀ {i}, i ≤ n → chunkBound n t.chunkNum i < 2 ^ 64 := fun {i} hi =>
    ((chunkBound_mono n t.chunkNum hi).trans
      (chunkBound_self t.chunkNum ht.numServers_pos).le).trans_lt ht.chunkNum_lt
  refine ⟨ht.serverKeyRanges_length, ?_, ?_, ?_, ?_, ?_, ?_, ?_⟩
  · have htile := tiles_rangesFrom (t.keyBound_mono n) 0 n
    rwa [Partitioned.keyBound_zero, Nat.zero_add, ht.keyBound_last,
      ← ht.serverKeyRanges_eq] at htile
  · simp [ht.chunkRanges_eq]
  · have htile := tiles_rangesFrom (chunkBound_mono n t.chunkNum) 0 n
    rwa [chunkBound_zero, Nat.zero_add, chunkBound_self _ ht.numServers_pos,
      ← ht.serverChunkRanges_eq, ht.chunkNum_eq_ceil] at htile
  · intro i r c hr hc
    obtain ⟨-, rfl⟩ := ht.serverKeyRanges_getElem?.mp hr
    obtain ⟨hi, rfl⟩ := ht.serverChunkRanges_getElem?.mp hc
    exact ⟨hchunks hi.le, hchunks hi, rfl⟩
  · intro c hc c' hc'
    obtain ⟨i, -, rfl⟩ := List.mem_map.mp (ht.chunkRanges_eq ▸ hc)
    obtain ⟨j, -, rfl⟩ := List.mem_map.mp (ht.chunkRanges_eq ▸ hc')
    exact chunkBound_succ_sub n t.chunkNum i j
  · intro i r c hr hc key
    exact ht.contains_iff hr hc
  · intro key hkey
    obtain ⟨hi, hlo, hhi⟩ := ht.owner_spec hkey
    refine ⟨t.owner key, ⟨_, ht.serverKeyRanges_getElem?.mpr ⟨hi, rfl⟩, hlo, hhi⟩, ?_⟩
    rintro j ⟨r, hr, hcontains⟩
    exact ((ht.contains_iff_owner hr hkey).mp hcontains).symm

end RangeTable.Partitioned

/-- **`SetMaxKeyAndChunkSize` deals out the key space**, chunk by chunk, without a gap and
without an overlap, and no bound it stores has wrapped around. -/
theorem setMaxKeyAndChunkSize_partitions {numServers maxKey chunkSize : ℕ}
    (hpos : 0 < numServers) (hservers : numServers < 2 ^ 31) (hsizepos : 0 < chunkSize)
    (hsize : chunkSize < 2 ^ 31) (hkey : 0 < maxKey) (hlt : maxKey < 2 ^ 64) :
    (setMaxKeyAndChunkSize numServers maxKey chunkSize).DealsOut numServers maxKey chunkSize :=
  (partitioned_set hpos hservers hsizepos hsize hkey hlt).dealsOut

/-- A key bound at the end of the words. -/
theorem setMaxKeyAndChunkSize_partitions_wide :
    (setMaxKeyAndChunkSize 5 (2 ^ 64 - 1) (2 ^ 31 - 1)).DealsOut 5 (2 ^ 64 - 1) (2 ^ 31 - 1) :=
  setMaxKeyAndChunkSize_partitions (by decide) (by decide) (by decide) (by decide) (by decide)
    (by decide)

/-! ## Finding the server -/

/-- The slices of a request: together they are the request, and each holds the entries that
`GetServerFromKey` sends to its server, whose range they lie in. -/
structure RangeTable.SlicesOf (t : RangeTable) (numServers : ℕ) (send : KVPairs Val)
    (sliced : List (Bool × KVPairs Val)) : Prop where
  length_eq : sliced.length = numServers
  keys_eq : sliced.flatMap (fun s => s.2.keys) = send.keys
  vals_eq : sliced.flatMap (fun s => s.2.vals) = send.vals
  vals_length : ∀ s ∈ sliced, s.2.vals.length = s.2.keys.length
  flag_iff : ∀ s ∈ sliced, s.1 = true ↔ s.2.keys ≠ []
  server : ∀ k ∈ send.keys, ∃ (i : ℕ) (r : Range) (s : Bool × KVPairs Val),
    t.getServerFromKey k = i ∧ t.serverKeyRanges[i]? = some r ∧ r.Contains k ∧
      sliced[i]? = some s ∧ k ∈ s.2.keys
  only_server : ∀ (i : ℕ) (s : Bool × KVPairs Val), sliced[i]? = some s → ∀ k ∈ s.2.keys,
    t.getServerFromKey k = i

/-- The parts of a chunk request: together they are the request, and each chunk is in the
part of the server that `GetServerFromChunk` names, whose chunk range holds the chunk and
whose key range holds its keys. -/
structure RangeTable.PartsOf (t : RangeTable) (numServers : ℕ) (chunkIds : List ℕ)
    (parts : List (List ℕ)) : Prop where
  length_eq : parts.length = numServers
  chunks_eq : parts.flatten = chunkIds
  server : ∀ c ∈ chunkIds, ∃ (i : ℕ) (part : List ℕ) (cr r : Range),
    t.getServerFromChunk c = i ∧ parts[i]? = some part ∧ c ∈ part ∧
      t.serverChunkRanges[i]? = some cr ∧ cr.Contains c ∧ t.serverKeyRanges[i]? = some r ∧
        ∀ key < t.maxKey, key / t.chunkSize = c → r.Contains key
  only_server : ∀ (i : ℕ) (part : List ℕ), parts[i]? = some part → ∀ c ∈ part,
    t.getServerFromChunk c = i

namespace RangeTable.Partitioned

variable {t : RangeTable} {n : ℕ} (ht : t.Partitioned n)
include ht

/-- The positions at the bounds run from the first entry to the end. -/
theorem below_keyBound_ends {f : ℕ → ℕ} {xs : List ℕ} (hlt : ∀ x ∈ xs, f x < t.maxKey) :
    below f xs (t.keyBound n 0) = 0 ∧ below f xs (t.keyBound n n) = xs.length := by
  constructor
  · rw [Partitioned.keyBound_zero]
    exact below_eq_zero fun x _ => Nat.zero_le _
  · rw [ht.keyBound_last]
    exact below_eq_length hlt

omit ht in
theorem below_keyBound_mono {f : ℕ → ℕ} (xs : List ℕ) :
    Monotone fun i => below f xs (t.keyBound n i) := fun _ _ hij =>
  below_mono xs (t.keyBound_mono n hij)

/-- **Every slice is what its server owns.** -/
theorem slicesOf {send : KVPairs Val} (hsorted : send.keys.Pairwise (· ≤ ·))
    (hlt : ∀ k ∈ send.keys, k < t.maxKey) (hlen : send.vals.length = send.keys.length) :
    t.SlicesOf n send (slice_ send t.serverKeyRanges) := by
  obtain ⟨hfirst, hlast⟩ := ht.below_keyBound_ends (f := id) hlt
  have hmono := below_keyBound_mono (t := t) (n := n) (f := id) send.keys
  set k := send.vals.length / send.keys.length with hk
  have hkeys : ∀ i, segment send.keys (below id send.keys (t.keyBound n i))
      (below id send.keys (t.keyBound n (i + 1))) = t.keysOf n i send.keys := fun i =>
    segment_below (f := id) hsorted (t.keyBound_mono n (Nat.le_succ i))
  -- With one value per key the values of a slice stand where its keys stand.
  have hstride : ∀ i, below id send.keys (t.keyBound n i) * k =
      below id send.keys (t.keyBound n i) := by
    intro i
    rcases Nat.eq_zero_or_pos send.keys.length with hzero | hpos
    · have := below_le_length (f := id) send.keys (t.keyBound n i)
      have hnone : below id send.keys (t.keyBound n i) = 0 := by omega
      rw [hnone, Nat.zero_mul]
    · rw [hk, hlen, Nat.div_self hpos, Nat.mul_one]
  have hmem : ∀ {i key}, i < n → (key ∈ t.keysOf n i send.keys ↔
      key ∈ send.keys ∧ t.owner key = i) := by
    intro i key hi
    constructor
    · intro hkey
      obtain ⟨hin, hlo, hhi⟩ := mem_between.mp hkey
      exact ⟨hin, ht.owner_eq hi hlo hhi⟩
    · rintro ⟨hin, rfl⟩
      exact mem_between.mpr ⟨hin, (ht.owner_spec (hlt key hin)).2⟩
  have hslice := ht.slice_eq send hsorted
  simp only [← hk, hstride] at hslice
  rw [hslice]
  refine ⟨by simp, ?_, ?_, ?_, ?_, ?_, ?_⟩
  · rw [List.flatMap_map, ← List.flatMap_congr fun i _ => hkeys i]
    exact (flatMap_segment send.keys hmono n).trans (by simp only [hfirst, hlast, segment_all])
  · rw [List.flatMap_map]
    exact (flatMap_segment send.vals hmono n).trans
      (by simp only [hfirst, hlast, ← hlen, segment_all])
  · intro s hs
    obtain ⟨i, hi, rfl⟩ := List.mem_map.mp hs
    have hend := below_le_length (f := id) send.keys (t.keyBound n (i + 1))
    rw [← hkeys i, length_segment hend, length_segment (hend.trans hlen.ge)]
  · intro s hs
    obtain ⟨i, hi, rfl⟩ := List.mem_map.mp hs
    simp
  · intro key hkey
    obtain ⟨hi, hlo, hhi⟩ := ht.owner_spec (hlt key hkey)
    exact ⟨t.owner key, _, _, ht.getServerFromKey_eq (hlt key hkey),
      ht.serverKeyRanges_getElem?.mpr ⟨hi, rfl⟩, ⟨hlo, hhi⟩,
      getElem?_map_range.mpr ⟨hi, rfl⟩, (hmem hi).mpr ⟨hkey, rfl⟩⟩
  · intro i s hs key hkey
    obtain ⟨hi, rfl⟩ := getElem?_map_range.mp hs
    obtain ⟨hin, howner⟩ := (hmem hi).mp hkey
    rw [ht.getServerFromKey_eq (hlt key hin), howner]

/-- **Every part is what its server owns**, and `PartitionChunks_` runs out of no ranges. -/
theorem partsOf {chunkIds : List ℕ} (hsorted : chunkIds.Pairwise (· < ·))
    (hlt : ∀ c ∈ chunkIds, c < t.chunkNum) :
    ∃ pos, partitionChunks_ t chunkIds = some pos ∧
      t.PartsOf n chunkIds ((pieces pos).map fun p => segment chunkIds p.1 p.2) := by
  have hbegin : ∀ c ∈ chunkIds, c * t.chunkSize < t.maxKey := fun c hc => ht.chunk_lt (hlt c hc)
  have hle : chunkIds.Pairwise fun c d => c * t.chunkSize ≤ d * t.chunkSize :=
    hsorted.imp fun h => Nat.mul_le_mul_right _ h.le
  obtain ⟨hfirst, hlast⟩ := ht.below_keyBound_ends (f := (· * t.chunkSize)) hbegin
  have hmem : ∀ {i c}, i < n → (c ∈ t.chunksOf n i chunkIds ↔
      c ∈ chunkIds ∧ t.owner (c * t.chunkSize) = i) := by
    intro i c hi
    constructor
    · intro hc
      obtain ⟨hin, hlo, hhi⟩ := mem_between.mp hc
      exact ⟨hin, ht.owner_eq hi hlo hhi⟩
    · rintro ⟨hin, rfl⟩
      exact mem_between.mpr ⟨hin, (ht.owner_spec (hbegin c hin)).2⟩
  refine ⟨_, ht.partitionChunks_eq (hsorted.imp fun h => h.le) hlt, ?_⟩
  have hparts : ∀ i, segment chunkIds (below (· * t.chunkSize) chunkIds (t.keyBound n i))
      (below (· * t.chunkSize) chunkIds (t.keyBound n (i + 1))) = t.chunksOf n i chunkIds :=
    fun i => segment_below hle (t.keyBound_mono n (Nat.le_succ i))
  rw [pieces_map_range, List.map_map]
  refine ⟨by simp, ?_, ?_, ?_⟩
  · have hall := flatMap_segment chunkIds
      (below_keyBound_mono (t := t) (n := n) (f := (· * t.chunkSize)) chunkIds) n
    rw [hfirst, hlast, segment_all, List.flatMap_def] at hall
    exact hall
  · intro c hc
    obtain ⟨hi, hlo, hhi⟩ := ht.owner_spec (hbegin c hc)
    have hr := ht.serverKeyRanges_getElem?.mpr ⟨hi, rfl⟩
    have hcr := ht.serverChunkRanges_getElem?.mpr ⟨hi, rfl⟩
    have hchunk := ((ht.contains_iff hr hcr).mp ⟨hlo, hhi⟩).2
    rw [ht.mul_chunkSize_div] at hchunk
    refine ⟨_, _, _, _, ht.getServerFromChunk_eq (hlt c hc), getElem?_map_range.mpr ⟨hi, rfl⟩, ?_,
      hcr, hchunk, hr, ?_⟩
    · rw [Function.comp_apply, hparts]
      exact (hmem hi).mpr ⟨hc, rfl⟩
    · rintro key hkey rfl
      exact (ht.contains_iff hr hcr).mpr ⟨hkey, hchunk⟩
  · intro i part hpart c hc
    obtain ⟨hi, rfl⟩ := getElem?_map_range.mp hpart
    rw [Function.comp_apply, hparts] at hc
    obtain ⟨hin, howner⟩ := (hmem hi).mp hc
    rw [ht.getServerFromChunk_eq (hlt c hin), howner]

end RangeTable.Partitioned

/-- **Routing agrees**: for every table of `SetMaxKeyAndChunkSize`, the binary searches of
`Slice_`, the walk of `PartitionChunks_` and the lookups of the range manager find the same
server, the one that owns the key or the chunk. -/
theorem routing_agrees {numServers maxKey chunkSize : ℕ} (hpos : 0 < numServers)
    (hservers : numServers < 2 ^ 31) (hsizepos : 0 < chunkSize) (hsize : chunkSize < 2 ^ 31)
    (hkey : 0 < maxKey) (hlt : maxKey < 2 ^ 64) :
    (∀ send : KVPairs Val, send.keys.Pairwise (· ≤ ·) → (∀ k ∈ send.keys, k < maxKey) →
      send.vals.length = send.keys.length →
        (setMaxKeyAndChunkSize numServers maxKey chunkSize).SlicesOf numServers send
          (slice_ send (setMaxKeyAndChunkSize numServers maxKey chunkSize).serverKeyRanges)) ∧
    ∀ chunkIds : List ℕ, chunkIds.Pairwise (· < ·) →
      (∀ c ∈ chunkIds, c < (setMaxKeyAndChunkSize numServers maxKey chunkSize).chunkNum) →
        ∃ pos, partitionChunks_ (setMaxKeyAndChunkSize numServers maxKey chunkSize) chunkIds =
          some pos ∧
          (setMaxKeyAndChunkSize numServers maxKey chunkSize).PartsOf numServers chunkIds
            ((pieces pos).map fun p => segment chunkIds p.1 p.2) := by
  have ht := partitioned_set hpos hservers hsizepos hsize hkey hlt
  constructor
  · intro send hsorted hkeys hlen
    exact ht.slicesOf hsorted hkeys hlen
  · intro chunkIds hsorted hchunks
    exact ht.partsOf hsorted hchunks

/-- More servers than chunks: the last servers own nothing. -/
theorem routing_agrees_emptyServers :
    (setMaxKeyAndChunkSize 5 13 5).SlicesOf 5 (⟨[0, 4, 12], [7, 8, 9]⟩ : KVPairs ℕ)
        (slice_ ⟨[0, 4, 12], [7, 8, 9]⟩ (setMaxKeyAndChunkSize 5 13 5).serverKeyRanges) ∧
      ∃ pos, partitionChunks_ (setMaxKeyAndChunkSize 5 13 5) [0, 2] = some pos ∧
        (setMaxKeyAndChunkSize 5 13 5).PartsOf 5 [0, 2]
          ((pieces pos).map fun p => segment [0, 2] p.1 p.2) := by
  have hroute := @routing_agrees ℕ 5 13 5
    (by decide) (by decide) (by decide) (by decide) (by decide) (by decide)
  exact ⟨hroute.1 _ (by decide) (by decide) rfl, hroute.2 _ (by decide) (by decide)⟩

end FlexPS.KVStore
