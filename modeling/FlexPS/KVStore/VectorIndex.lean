import FlexPS.KVStore.Routing

/-!
# The index into a vector store

A vector store holds the values of the keys from the begin of its server's range on, so a key is
found at its distance from that begin.  The begin is a 64-bit key, but `GetServerInterval` returns
it as an `int`; the difference is then taken in unsigned arithmetic, where the `int` is extended by
its sign.

## Main definitions

* `RangeTable.vectorIndex` — where `update` and `retrieve` look for a key.
* `RangeTable.Touches` — the keys that requests to a server ask for.
* `RangeTable.IndexesInBounds` — all of them are looked for where they are.
* `indexesInBounds_iff` — the servers for which this is so.
-/

namespace FlexPS.KVStore

/-- The index of a key in the vector of a server whose range begins at `interval`, an `int`, as the
loops `writeAll` and `readAll` of `update` and `retrieve` compute it. -/
def vectorIndex (interval : ℤ) (key : ℕ) : ℕ := wrap64 (key - interval)

/-- The begin of a range survives as an `int`: it is small, or so large that the sign extension
restores it. -/
def FitsInt (begin_ : ℕ) : Prop := begin_ < 2 ^ 31 ∨ 2 ^ 64 - 2 ^ 31 ≤ begin_

instance decidableFitsInt (begin_ : ℕ) : Decidable (FitsInt begin_) := by
  unfold FitsInt
  infer_instance

/-- A word and its `int` differ by a multiple of `2 ^ 32`. -/
theorem toInt32_spec (n : ℕ) : ∃ c : ℤ, toInt32 n = n - 2 ^ 32 * c ∧
    -2 ^ 31 ≤ toInt32 n ∧ toInt32 n < 2 ^ 31 := by
  refine ⟨((n : ℤ) + 2 ^ 31) / 2 ^ 32, ?_⟩
  unfold toInt32
  rw [Int.bmod_def]
  split <;> omega

/-- **The index is the distance from the begin if and only if the begin fits in an `int`.** -/
theorem vectorIndex_eq_iff {begin_ key : ℕ} (hle : begin_ ≤ key) (hlt : key < 2 ^ 64) :
    vectorIndex (toInt32 begin_) key = key - begin_ ↔ FitsInt begin_ := by
  obtain ⟨c, hc, hlo, hhi⟩ := toInt32_spec begin_
  unfold vectorIndex wrap64 FitsInt
  omega

namespace RangeTable

variable (t : RangeTable) (serverId : ℕ)

/-- The keys that a server is asked for: those of its range, and the elements of its chunks. -/
def Touches (key : ℕ) : Prop :=
  (∃ r, t.serverKeyRanges[serverId]? = some r ∧ r.Contains key) ∨
    ∃ c chunkId, t.serverChunkRanges[serverId]? = some c ∧ c.Contains chunkId ∧
      key ∈ chunkKeys t chunkId

/-- Every key that the server is asked for is looked for at its distance from the begin of the
range, which is an index of a vector of `GetServerSize` elements. -/
def IndexesInBounds : Prop :=
  ∃ r interval size, t.serverKeyRanges[serverId]? = some r ∧
    t.getServerInterval serverId = some interval ∧ t.getServerSize serverId = some size ∧
    ∀ key, t.Touches serverId key →
      (vectorIndex interval key : ℤ) = key - r.begin_ ∧ vectorIndex interval key < size

end RangeTable

namespace RangeTable.Partitioned

variable {t : RangeTable} {n serverId : ℕ} (ht : t.Partitioned n)
include ht

/-- The elements of the chunks of a server are keys of its range. -/
theorem touches_iff {r : Range} (hr : t.serverKeyRanges[serverId]? = some r) (key : ℕ) :
    t.Touches serverId key ↔ r.Contains key := by
  obtain ⟨hi, -⟩ := ht.serverKeyRanges_getElem?.mp hr
  constructor
  · rintro (⟨r', hr', hkey⟩ | ⟨c, chunkId, hc, hchunk, hkey⟩)
    · obtain rfl := Option.some.inj (hr.symm.trans hr')
      exact hkey
    · obtain ⟨-, rfl⟩ := ht.serverChunkRanges_getElem?.mp hc
      have hlt : chunkId < t.chunkNum := by
        have hmono := chunkBound_mono n t.chunkNum hi
        rw [chunkBound_self _ ht.numServers_pos] at hmono
        exact hchunk.2.trans_le hmono
      rw [chunkKeys, ht.realChunkSize_eq hlt, List.mem_range'_1] at hkey
      have hdiv : key / t.chunkSize = chunkId := by
        refine Nat.div_eq_of_lt_le hkey.1 ?_
        omega
      refine (ht.contains_iff hr hc).mpr ⟨by omega, ?_⟩
      rwa [hdiv]
  · exact fun hkey => .inl ⟨r, hr, hkey⟩

/-- A server looks for its keys in bounds if and only if it has none or its begin fits. -/
theorem indexesInBounds {r : Range} (hr : t.serverKeyRanges[serverId]? = some r) :
    t.IndexesInBounds serverId ↔ r.begin_ = r.end_ ∨ FitsInt r.begin_ := by
  obtain ⟨-, rfl⟩ := ht.serverKeyRanges_getElem?.mp hr
  have hle : t.keyBound n serverId ≤ t.keyBound n (serverId + 1) :=
    t.keyBound_mono n (Nat.le_succ serverId)
  have hend : t.keyBound n (serverId + 1) < 2 ^ 64 :=
    (Nat.min_le_right _ _).trans_lt ht.maxKey_lt
  have hinterval : t.getServerInterval serverId = some (toInt32 (t.keyBound n serverId)) := by
    rw [RangeTable.getServerInterval, hr, Option.map_some]
  have hsize : t.getServerSize serverId =
      some (t.keyBound n (serverId + 1) - t.keyBound n serverId) := by
    rw [RangeTable.getServerSize, hr, Option.map_some, Range.size, wrap64_sub hle hend]
  constructor
  · rintro ⟨r, interval, size, hr', hinterval', hsize', hkeys⟩
    obtain rfl := Option.some.inj (hr.symm.trans hr')
    obtain rfl := Option.some.inj (hinterval.symm.trans hinterval')
    refine or_iff_not_imp_left.mpr fun hne => ?_
    -- the first key of the range shows whether the begin fits
    have hfirst := (hkeys _ ((ht.touches_iff hr _).mpr ⟨le_rfl, lt_of_le_of_ne hle hne⟩)).1
    refine (vectorIndex_eq_iff le_rfl (hle.trans_lt hend)).mp (Int.ofNat.inj ?_)
    rw [Nat.sub_self]
    exact hfirst.trans (Int.sub_self _)
  · intro h
    refine ⟨_, _, _, hr, hinterval, hsize, fun key hkey => ?_⟩
    obtain ⟨hlo, hhi⟩ := (ht.touches_iff hr key).mp hkey
    simp only at hlo hhi
    rcases h with hempty | hfits
    · simp only at hempty
      omega
    · rw [(vectorIndex_eq_iff hlo (hhi.trans hend)).mpr hfits]
      exact ⟨Int.ofNat_sub hlo, Nat.sub_lt_sub_right hlo hhi⟩

end RangeTable.Partitioned

/-! ## A store without keys -/

/-- Empty chunk ranges give empty key ranges. -/
theorem keyRanges_replicate (n chunkSize : ℕ) :
    keyRanges (List.replicate (n + 1) ⟨0, 0⟩) chunkSize 0 = List.replicate (n + 1) ⟨0, 0⟩ := by
  have hzero : wrap64 (((0 : ℕ) : ℤ) * chunkSize) = 0 := by
    rw [Nat.cast_zero, zero_mul]
    rfl
  have htrim : trimBack (List.replicate n ⟨0, 0⟩) 0 = List.replicate n ⟨0, 0⟩ := by
    cases n with
    | zero => rfl
    | succ n => rfl
  have hraw : ((List.replicate (n + 1) (⟨0, 0⟩ : Range)).map fun r =>
      (⟨wrap64 (r.begin_ * chunkSize), wrap64 (r.end_ * chunkSize)⟩ : Range)).reverse =
      ⟨0, 0⟩ :: List.replicate n ⟨0, 0⟩ := by
    rw [List.map_replicate, List.reverse_replicate, List.replicate_succ, hzero]
  unfold keyRanges
  simp only [hraw]
  rw [if_neg (lt_irrefl 0), htrim, ← List.replicate_succ, List.reverse_replicate]

section NoKeys

variable {numServers chunkSize serverId : ℕ} (hservers : numServers < 2 ^ 31)
  (hsize : chunkSize < 2 ^ 31) (hserver : serverId < numServers)

/-- With `max_key` zero, chunks of one key are counted up to `2 ^ 64`, which wraps around. -/
theorem chunkNum_zero_one (numServers : ℕ) :
    (setMaxKeyAndChunkSize numServers 0 1).chunkNum = 0 := by
  have hwrap : wrap64 (wrap64 (((0 : ℕ) : ℤ) - 1) / 1 + 1 : ℕ) = 0 := by decide
  exact hwrap

include hsize

/-- Larger chunks are so many that every server has some. -/
theorem chunkNum_zero (hmany : 1 < chunkSize) (numServers : ℕ) :
    (setMaxKeyAndChunkSize numServers 0 chunkSize).chunkNum = (2 ^ 64 - 1) / chunkSize + 1 ∧
      2 ^ 33 ≤ (2 ^ 64 - 1) / chunkSize := by
  have hwrap : wrap64 (((0 : ℕ) : ℤ) - 1) = 2 ^ 64 - 1 := by decide
  have hle : (2 ^ 64 - 1) / chunkSize ≤ (2 ^ 64 - 1) / 2 := Nat.div_le_div_left hmany (by omega)
  have hge : (2 ^ 64 - 1) / (2 ^ 31 - 1) ≤ (2 ^ 64 - 1) / chunkSize :=
    Nat.div_le_div_left (by omega) (by omega)
  refine ⟨?_, by omega⟩
  simp only [setMaxKeyAndChunkSize, hwrap]
  exact wrap64_of_lt (by omega)

include hservers hserver

/-- With `max_key` zero, all key ranges are empty. -/
theorem serverKeyRanges_zero (hsizepos : 0 < chunkSize) :
    (setMaxKeyAndChunkSize numServers 0 chunkSize).serverKeyRanges[serverId]? = some ⟨0, 0⟩ := by
  have hpos : 0 < numServers := Nat.zero_lt_of_lt hserver
  have hranges : (setMaxKeyAndChunkSize numServers 0 chunkSize).serverKeyRanges = keyRanges
      (chunkRanges numServers (setMaxKeyAndChunkSize numServers 0 chunkSize).chunkNum)
      chunkSize 0 := rfl
  rw [hranges]
  rcases Nat.eq_or_lt_of_le (Nat.succ_le_of_lt hsizepos) with hone | hmany
  · obtain rfl : chunkSize = 1 := hone.symm
    have hchunks : chunkRanges numServers 0 = List.replicate numServers ⟨0, 0⟩ := by
      rw [chunkRanges_eq 0 hpos]
      simp [chunkBound]
    obtain ⟨n, rfl⟩ := Nat.exists_eq_succ_of_ne_zero hpos.ne'
    rw [chunkNum_zero_one, hchunks, keyRanges_replicate, List.getElem?_replicate, if_pos hserver]
  · rw [(chunkNum_zero hsize hmany numServers).1, keyRanges_chunkRanges hpos hservers hsizepos hsize
      (by omega : 0 < 2 ^ 64) le_rfl (Nat.zero_le _)]
    simp [hserver]

/-- With `max_key` zero, a server is asked for no key if and only if the chunks have one key. -/
theorem indexesInBounds_zero (hsizepos : 0 < chunkSize) :
    (setMaxKeyAndChunkSize numServers 0 chunkSize).IndexesInBounds serverId ↔ chunkSize = 1 := by
  have hpos : 0 < numServers := Nat.zero_lt_of_lt hserver
  have hr := serverKeyRanges_zero hservers hsize hserver hsizepos
  set t := setMaxKeyAndChunkSize numServers 0 chunkSize with ht
  have hchunks : t.serverChunkRanges[serverId]? =
      some ⟨chunkBound numServers t.chunkNum serverId,
        chunkBound numServers t.chunkNum (serverId + 1)⟩ := by
    have hranges : t.serverChunkRanges = chunkRanges numServers t.chunkNum := rfl
    rw [hranges, chunkRanges_eq _ hpos]
    simp [hserver]
  have hinterval : t.getServerInterval serverId = some 0 := by
    rw [RangeTable.getServerInterval, hr]
    rfl
  have hempty : t.getServerSize serverId = some 0 := by
    rw [RangeTable.getServerSize, hr]
    rfl
  rcases Nat.eq_or_lt_of_le (Nat.succ_le_of_lt hsizepos) with hone | hmany
  · obtain rfl : chunkSize = 1 := hone.symm
    refine iff_of_true ⟨_, _, _, hr, hinterval, hempty, ?_⟩ rfl
    rintro key (⟨r, hr', hkey⟩ | ⟨c, chunkId, hc, hchunk, -⟩)
    · obtain rfl := Option.some.inj (hr.symm.trans hr')
      exact absurd hkey.2 (Nat.not_lt_zero key)
    · obtain rfl := Option.some.inj (hchunks.symm.trans hc)
      have hend := hchunk.2
      rw [ht, chunkNum_zero_one] at hend
      simp [chunkBound] at hend
  · refine iff_of_false ?_ (by omega)
    rintro ⟨r, interval, size, -, -, hsize', hbounds⟩
    -- the first element of the first chunk is outside the empty vector
    obtain ⟨hnum, hge⟩ := chunkNum_zero hsize hmany numServers
    rw [← ht] at hnum
    have hbase : 0 < t.chunkNum / numServers := Nat.div_pos (by omega) hpos
    have hsome : chunkBound numServers t.chunkNum serverId <
        chunkBound numServers t.chunkNum (serverId + 1) := by
      simp only [chunkBound, Nat.add_mul, Nat.one_mul]
      omega
    have hlast : t.realChunkSize (chunkBound numServers t.chunkNum serverId) = chunkSize := by
      unfold RangeTable.realChunkSize RangeTable.getLastChunkSize
      simp [ht, setMaxKeyAndChunkSize]
    have hkey : chunkBound numServers t.chunkNum serverId * t.chunkSize ∈
        chunkKeys t (chunkBound numServers t.chunkNum serverId) := by
      rw [chunkKeys, hlast, List.mem_range'_1]
      omega
    obtain ⟨-, hlt⟩ := hbounds _ (.inr ⟨_, _, hchunks, ⟨le_rfl, hsome⟩, hkey⟩)
    obtain rfl := Option.some.inj (hempty.symm.trans hsize')
    exact absurd hlt (Nat.not_lt_zero _)

end NoKeys

/-! ## Every store -/

/-- **The index into a vector store is right** for every key of a server, and in bounds, if and
only if the server has no keys or its range begins below `2 ^ 31`, or in the last `2 ^ 31` words. -/
theorem indexesInBounds_iff {numServers maxKey chunkSize serverId : ℕ}
    (hservers : numServers < 2 ^ 31) (hsizepos : 0 < chunkSize) (hsize : chunkSize < 2 ^ 31)
    (hlt : maxKey < 2 ^ 64 - 1) (hserver : serverId < numServers) :
    (setMaxKeyAndChunkSize numServers maxKey chunkSize).IndexesInBounds serverId ↔
      (0 < maxKey ∨ chunkSize = 1) ∧
      ∀ r, (setMaxKeyAndChunkSize numServers maxKey chunkSize).serverKeyRanges[serverId]? = some r →
        r.begin_ = r.end_ ∨ FitsInt r.begin_ := by
  have hpos : 0 < numServers := Nat.zero_lt_of_lt hserver
  rcases Nat.eq_zero_or_pos maxKey with rfl | hkey
  · rw [indexesInBounds_zero hservers hsize hserver hsizepos]
    simp only [lt_irrefl, false_or]
    refine (and_iff_left fun r hr => .inl ?_).symm
    rw [serverKeyRanges_zero hservers hsize hserver hsizepos] at hr
    obtain rfl := Option.some.inj hr
    rfl
  · have ht := partitioned_set hpos hservers hsizepos hsize hkey (by omega)
    rw [and_iff_right (.inl hkey)]
    constructor
    · intro h r hr
      exact (ht.indexesInBounds hr).mp h
    · intro h
      have hr := ht.serverKeyRanges_getElem?.mpr ⟨hserver, rfl⟩
      exact (ht.indexesInBounds hr).mpr (h _ hr)

/-- The first of two servers. -/
theorem indexesInBounds_iff_firstServer :
    (setMaxKeyAndChunkSize 2 (2 ^ 32) (2 ^ 20)).IndexesInBounds 0 := by
  refine (indexesInBounds_iff (by omega) (by omega) (by omega) (by omega) (by omega)).mpr
    ⟨.inl (by omega), fun r hr => .inr (.inl ?_)⟩
  have hfirst : (setMaxKeyAndChunkSize 2 (2 ^ 32) (2 ^ 20)).serverKeyRanges[0]? =
      some ⟨0, 2 ^ 31⟩ := by decide
  obtain rfl := Option.some.inj (hr.symm.trans hfirst)
  exact Nat.two_pow_pos 31

/-- **The range of the second server begins at `2 ^ 31`**, which is negative as an `int`: its first
key is looked for behind the end of the vector. -/
theorem indexesInBounds_fails :
    ¬ ∀ numServers maxKey chunkSize serverId : ℕ, numServers < 2 ^ 31 → 0 < chunkSize →
      chunkSize < 2 ^ 31 → 0 < maxKey → maxKey < 2 ^ 64 - 1 → serverId < numServers →
      (setMaxKeyAndChunkSize numServers maxKey chunkSize).IndexesInBounds serverId := by
  intro h
  have hsecond : (setMaxKeyAndChunkSize 2 (2 ^ 32) (2 ^ 20)).serverKeyRanges[1]? =
      some ⟨2 ^ 31, 2 ^ 32⟩ := by decide
  obtain ⟨r, interval, size, hr, hinterval, hsize, hbounds⟩ :=
    h 2 (2 ^ 32) (2 ^ 20) 1 (by omega) (by omega) (by omega) (by omega) (by omega) (by omega)
  obtain rfl := Option.some.inj (hsecond.symm.trans hr)
  have hnegative : (setMaxKeyAndChunkSize 2 (2 ^ 32) (2 ^ 20)).getServerInterval 1 =
      some (-2 ^ 31) := by decide
  obtain rfl := Option.some.inj (hnegative.symm.trans hinterval)
  have hfirst := (hbounds (2 ^ 31) (.inl ⟨_, hsecond, le_rfl, by decide⟩)).1
  exact absurd hfirst (by decide)

end FlexPS.KVStore
