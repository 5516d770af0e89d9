import Mathlib.Data.Nat.Basic
import Mathlib.Data.Int.Basic
import Mathlib.Tactic.Common
import Mathlib.Tactic.Linarith
import Mathlib.Tactic.Ring

/-!
# ℕ ranges and chunks

`RangeManager` cuts the key space `[0, max_key)` into chunks of `chunk_size` keys
and hands contiguous runs of chunks to the servers.  Keys are 64-bit words: a key
bound is computed with wraparound, as the source computes it, and `partitioned_set`
shows that no stored bound has wrapped.

The table of one store is a `RangeTable`.  Everything later proofs need about it is
`RangeTable.Partitioned`: both lists of ranges are read off one increasing sequence
of chunk bounds.

## Main definitions

* `setMaxKeyAndChunkSize` — the table computed for a store.
* `chunkBound` — the first chunk of each server.
* `RangeTable.Partitioned` — the ranges are cut at the chunk bounds.
-/

namespace FlexPS.KVStore

/-- Reduction to 64 bits, as unsigned arithmetic on `uint64_t` does it. -/
def wrap64 (x : ℤ) : ℕ := (x % 2 ^ 64).toNat

/-- Conversion of a 64-bit word to `int`. -/
def toInt32 (n : ℕ) : ℤ := Int.bmod n (2 ^ 32)

theorem wrap64_of_lt {n : ℕ} (h : n < 2 ^ 64) : wrap64 n = n := by
  unfold wrap64
  omega

theorem toInt32_of_lt {n : ℕ} (h : n < 2 ^ 31) : toInt32 n = n := by
  unfold toInt32
  rw [Int.bmod_eq_of_le] <;> omega

/-- `pslite::Range`, the half-open interval `[begin_, end_)`. -/
structure Range where
  begin_ : ℕ
  end_ : ℕ
  deriving DecidableEq, Repr

namespace Range

def size (r : Range) : ℕ := wrap64 (r.end_ - r.begin_)

/-- `x` lies in the interval. -/
def Contains (r : Range) (x : ℕ) : Prop := r.begin_ ≤ x ∧ x < r.end_

end Range

/-- What `RangeManager` stores for one `kv_id`. -/
structure RangeTable where
  maxKey : ℕ
  chunkSize : ℕ
  chunkNum : ℕ
  serverKeyRanges : List Range
  serverChunkRanges : List Range
  deriving DecidableEq, Repr

/-- The chunk ranges: `remain` servers take one chunk more than the others, and the
last server takes what is left. -/
def chunkRanges (numServers chunkNum : ℕ) : List Range :=
  let base := chunkNum / numServers
  let remain := chunkNum % numServers
  let stop := remain * (base + 1)
  (List.range remain).map (fun i => ⟨i * (base + 1), (i + 1) * (base + 1)⟩) ++
    (List.range (numServers - remain - 1)).map
      (fun i => ⟨stop + i * base, stop + (i + 1) * base⟩) ++
    [⟨stop + (numServers - remain - 1) * base, chunkNum⟩]

/-- The backward pass over the key ranges, from the one before the last to the
first: a range that reaches beyond the begin of the next one is cut there, and the
pass stops at the first range that does not. -/
def trimBack : List Range → ℕ → List Range
  | [], _ => []
  | thisOne :: rest, nextBegin =>
      if thisOne.end_ > nextBegin then
        let cut : Range := ⟨thisOne.begin_, nextBegin⟩
        let cut := if cut.begin_ > cut.end_ then ⟨cut.end_, cut.end_⟩ else cut
        cut :: trimBack rest cut.begin_
      else thisOne :: rest

/-- The key ranges of given chunk ranges.  The last range ends at `max_key`. -/
def keyRanges (ranges : List Range) (chunkSize : ℕ) (maxKey : ℕ) : List Range :=
  let raw := ranges.map fun r =>
    (⟨wrap64 (r.begin_ * chunkSize), wrap64 (r.end_ * chunkSize)⟩ : Range)
  match raw.reverse with
  | [] => []
  | back :: others =>
      let lastOne : Range := ⟨back.begin_, maxKey⟩
      let lastOne := if lastOne.begin_ > lastOne.end_ then ⟨maxKey, maxKey⟩ else lastOne
      (lastOne :: trimBack others lastOne.begin_).reverse

/-- `RangeManager::SetMaxKeyAndChunkSize` with `num_servers_ = numServers`. -/
def setMaxKeyAndChunkSize (numServers : ℕ) (maxKey : ℕ) (chunkSize : ℕ) : RangeTable :=
  let chunkNum := wrap64 (wrap64 (maxKey - 1) / chunkSize + 1 : ℕ)
  let ranges := chunkRanges numServers chunkNum
  { maxKey, chunkSize, chunkNum
    serverKeyRanges := keyRanges ranges chunkSize maxKey
    serverChunkRanges := ranges }

namespace RangeTable

variable (t : RangeTable)

/-- `RangeManager::GetServerInterval`: the begin of a server's range, returned as an
`int`; `at` throws past the last server. -/
def getServerInterval (serverId : ℕ) : Option ℤ :=
  (t.serverKeyRanges[serverId]?).map fun r => toInt32 r.begin_

/-- `RangeManager::GetServerSize`. -/
def getServerSize (serverId : ℕ) : Option ℕ := (t.serverKeyRanges[serverId]?).map Range.size

/-- The loop of `GetServerFromKey`: how many ranges, counted from the first, begin at or
before the key. -/
def rangesBegun (key : ℕ) : List Range → ℕ
  | [] => 0
  | r :: rs => if key ≥ r.begin_ then rangesBegun key rs + 1 else 0

/-- `RangeManager::GetServerFromKey`. -/
def getServerFromKey (key : ℕ) : ℤ := rangesBegun key t.serverKeyRanges - 1

/-- `RangeManager::GetServerFromChunk`. -/
def getServerFromChunk (chunkId : ℕ) : ℤ :=
  t.getServerFromKey (wrap64 ((chunkId * t.chunkSize : ℕ) : ℤ))

/-- `RangeManager::GetLastChunkSize`. -/
def getLastChunkSize : ℕ :=
  if t.maxKey % t.chunkSize ≠ 0 then t.maxKey % t.chunkSize else t.chunkSize

/-- The number of values the servers send for one chunk. -/
def realChunkSize (chunkId : ℕ) : ℕ :=
  if chunkId = t.chunkNum - 1 then t.getLastChunkSize else t.chunkSize

end RangeTable

/-! ## The bounds between servers -/

/-- The first chunk of server `i`: the servers before it have `base` chunks each, and
the first `remain` of them one more. -/
def chunkBound (numServers chunkNum i : ℕ) : ℕ :=
  i * (chunkNum / numServers) + min i (chunkNum % numServers)

@[simp] theorem chunkBound_zero (numServers chunkNum : ℕ) :
    chunkBound numServers chunkNum 0 = 0 := by
  simp [chunkBound]

theorem chunkBound_self {numServers : ℕ} (chunkNum : ℕ) (h : 0 < numServers) :
    chunkBound numServers chunkNum numServers = chunkNum := by
  have hmod := Nat.mod_lt chunkNum h
  rw [chunkBound, Nat.min_eq_right hmod.le]
  exact Nat.div_add_mod chunkNum numServers

theorem chunkBound_mono (numServers chunkNum : ℕ) : Monotone (chunkBound numServers chunkNum) := by
  intro i j hij
  unfold chunkBound
  have := Nat.mul_le_mul_right (chunkNum / numServers) hij
  omega

theorem chunkRanges_eq {numServers : ℕ} (chunkNum : ℕ) (h : 0 < numServers) :
    chunkRanges numServers chunkNum = (List.range numServers).map fun i =>
      ⟨chunkBound numServers chunkNum i, chunkBound numServers chunkNum (i + 1)⟩ := by
  have hmod := Nat.mod_lt chunkNum h
  have hlast := chunkBound_self chunkNum h
  set base := chunkNum / numServers with hbase
  set remain := chunkNum % numServers with hremain
  have hbound : ∀ i, chunkBound numServers chunkNum i = i * base + min i remain := fun _ => rfl
  have hsplit : List.range numServers =
      List.range remain ++ (List.range (numServers - remain - 1)).map (remain + ·) ++
        [numServers - 1] := by
    have h₁ : numServers = (remain + (numServers - remain - 1)) + 1 := by omega
    conv_lhs => rw [h₁, List.range_succ, List.range_add]
    congr 2
    omega
  rw [hsplit, List.map_append, List.map_append, List.map_map, List.map_singleton]
  simp only [chunkRanges, ← hbase, ← hremain]
  congr 1
  · congr 1
    · refine List.map_congr_left fun i hi => ?_
      have hi' := List.mem_range.mp hi
      rw [hbound, hbound, Nat.min_eq_left hi'.le, Nat.min_eq_left hi', Nat.mul_add, Nat.mul_add]
      simp
    · refine List.map_congr_left fun i _ => ?_
      rw [Function.comp_apply, hbound, hbound, Nat.min_eq_right (by omega),
        Nat.min_eq_right (by omega)]
      congr 1 <;> ring
  · have hn : numServers - 1 + 1 = numServers := by omega
    rw [hn, hlast, hbound, Nat.min_eq_right (by omega)]
    congr 2
    have : numServers - 1 = remain + (numServers - remain - 1) := by omega
    conv_rhs => rw [this]
    ring

/-- Trimming ranges cut at an increasing sequence is trimming the sequence. -/
theorem trimBack_map {b : ℕ → ℕ} (hb : Monotone b) (m : ℕ) :
    ∀ k, trimBack ((List.range k).reverse.map fun i => ⟨b i, b (i + 1)⟩) (min (b k) m) =
      (List.range k).reverse.map fun i => ⟨min (b i) m, min (b (i + 1)) m⟩ := by
  intro k
  induction k with
  | zero => rfl
  | succ k ih =>
      have hk : b k ≤ b (k + 1) := hb (Nat.le_succ k)
      simp only [List.range_succ, List.reverse_append, List.reverse_cons, List.reverse_nil,
        List.nil_append, List.singleton_append, List.map_cons, trimBack]
      by_cases hcut : b (k + 1) > min (b (k + 1)) m
      · -- The range reaches beyond `m`, so it is cut and the pass goes on.
        have hm : min (b (k + 1)) m = m := by omega
        have hcutBegin : (if b k > m then (⟨m, m⟩ : Range) else ⟨b k, m⟩) = ⟨min (b k) m, m⟩ := by
          split
          · next h => rw [Nat.min_eq_right (by omega)]
          · next h => rw [Nat.min_eq_left (by omega)]
        rw [if_pos hcut, hm, hcutBegin, ih]
      · -- Everything from here down is below `m` already.
        rw [if_neg hcut]
        have hm : b (k + 1) ≤ m := by omega
        rw [Nat.min_eq_left (hk.trans hm), Nat.min_eq_left hm]
        congr 1
        refine List.map_congr_left fun i hi => ?_
        rw [List.mem_reverse, List.mem_range] at hi
        have h₁ : b i ≤ b k := hb hi.le
        have h₂ : b (i + 1) ≤ b k := hb hi
        rw [Nat.min_eq_left (by omega), Nat.min_eq_left (by omega)]

/-- The table's ranges are cut at the chunk bounds, as `SetMaxKeyAndChunkSize` cuts them; those that
`CustomizeRanges` is given may be others. -/
structure RangeTable.Partitioned (t : RangeTable) (numServers : ℕ) : Prop where
  numServers_pos : 0 < numServers
  chunkSize_pos : 0 < t.chunkSize
  maxKey_pos : 0 < t.maxKey
  maxKey_lt : t.maxKey < 2 ^ 64
  chunkNum_eq : t.chunkNum = (t.maxKey - 1) / t.chunkSize + 1
  chunkRanges_eq : t.serverChunkRanges = (List.range numServers).map fun i =>
    ⟨chunkBound numServers t.chunkNum i, chunkBound numServers t.chunkNum (i + 1)⟩
  keyRanges_eq : t.serverKeyRanges = (List.range numServers).map fun i =>
    ⟨min (chunkBound numServers t.chunkNum i * t.chunkSize) t.maxKey,
      min (chunkBound numServers t.chunkNum (i + 1) * t.chunkSize) t.maxKey⟩

/-- The last chunk begins below `max_key`. -/
theorem last_chunk_lt {maxKey chunkSize c : ℕ} (hkey : 0 < maxKey)
    (hc : c < (maxKey - 1) / chunkSize + 1) : c * chunkSize < maxKey := by
  have h₁ : c * chunkSize ≤ (maxKey - 1) / chunkSize * chunkSize :=
    Nat.mul_le_mul_right _ (by omega)
  have h₂ := Nat.div_mul_le_self (maxKey - 1) chunkSize
  omega

/-- All chunks together reach `max_key`. -/
theorem maxKey_le_chunks {maxKey chunkSize : ℕ} (hsize : 0 < chunkSize) :
    maxKey ≤ ((maxKey - 1) / chunkSize + 1) * chunkSize := by
  have := Nat.lt_div_mul_add (a := maxKey - 1) hsize
  rw [Nat.add_mul, Nat.one_mul]
  omega

/-- No begin of a key range wraps: with more servers than chunks the products are
small, and otherwise every server begins at a chunk below the last one. -/
theorem chunkBound_mul_lt {numServers maxKey chunkSize i : ℕ} (hservers : numServers < 2 ^ 31)
    (hsize : chunkSize < 2 ^ 31) (hkey : 0 < maxKey) (hle : maxKey ≤ 2 ^ 64)
    (hi : i < numServers) :
    chunkBound numServers ((maxKey - 1) / chunkSize + 1) i * chunkSize < 2 ^ 64 := by
  set chunkNum := (maxKey - 1) / chunkSize + 1 with hnum
  rcases Nat.eq_zero_or_pos (chunkNum / numServers) with hbase | hbase
  · have hle : chunkBound numServers chunkNum i ≤ 2 ^ 31 := by
      simp only [chunkBound, hbase]
      omega
    calc
      chunkBound numServers chunkNum i * chunkSize ≤ 2 ^ 31 * 2 ^ 31 :=
        Nat.mul_le_mul hle hsize.le
      _ < 2 ^ 64 := by norm_num
  · have hnext : chunkBound numServers chunkNum i < chunkBound numServers chunkNum (i + 1) := by
      simp only [chunkBound, Nat.add_mul, Nat.one_mul]
      omega
    have hend : chunkBound numServers chunkNum (i + 1) ≤ chunkNum :=
      (chunkBound_mono numServers chunkNum hi).trans (chunkBound_self chunkNum (by omega)).le
    exact (last_chunk_lt hkey (hnext.trans_le hend)).trans_le hle

/-- The key ranges are the chunk ranges in keys, cut at `max_key`; the chunks may reach further,
up to `top`. -/
theorem keyRanges_chunkRanges {numServers top maxKey chunkSize : ℕ} (hpos : 0 < numServers)
    (hservers : numServers < 2 ^ 31) (hsizepos : 0 < chunkSize) (hsize : chunkSize < 2 ^ 31)
    (htop : 0 < top) (hle : top ≤ 2 ^ 64) (hkey : maxKey ≤ top) :
    keyRanges (chunkRanges numServers ((top - 1) / chunkSize + 1)) chunkSize maxKey =
      (List.range numServers).map fun i =>
        ⟨min (chunkBound numServers ((top - 1) / chunkSize + 1) i * chunkSize) maxKey,
          min (chunkBound numServers ((top - 1) / chunkSize + 1) (i + 1) * chunkSize)
            maxKey⟩ := by
  set chunkNum := (top - 1) / chunkSize + 1 with hnum
  set b : ℕ → ℕ := fun i => chunkBound numServers chunkNum i * chunkSize with hbdef
  have hb : Monotone b := fun i j hij =>
    Nat.mul_le_mul_right _ (chunkBound_mono numServers chunkNum hij)
  have hwrap : ∀ i < numServers, wrap64 (b i) = b i := fun i hi =>
    wrap64_of_lt (chunkBound_mul_lt hservers hsize htop hle hi)
  obtain ⟨n, rfl⟩ : ∃ n, numServers = n + 1 := ⟨numServers - 1, by omega⟩
  have hlastEnd : maxKey ≤ b (n + 1) := by
    simp only [hbdef, chunkBound_self chunkNum hpos]
    exact hkey.trans (maxKey_le_chunks hsizepos)
  have hothers : (List.range n).reverse.map (fun i =>
      (⟨wrap64 (b i), wrap64 (b (i + 1))⟩ : Range)) =
      (List.range n).reverse.map fun i => ⟨b i, b (i + 1)⟩ := by
    refine List.map_congr_left fun i hi => ?_
    rw [List.mem_reverse, List.mem_range] at hi
    rw [hwrap i (by omega), hwrap (i + 1) (by omega)]
  have hlastOne : (if b n > maxKey then (⟨maxKey, maxKey⟩ : Range) else ⟨b n, maxKey⟩) =
      ⟨min (b n) maxKey, maxKey⟩ := by
    split
    · next h => rw [Nat.min_eq_right (by omega)]
    · next h => rw [Nat.min_eq_left (by omega)]
  have hraw : (chunkRanges (n + 1) chunkNum).map (fun r =>
      (⟨wrap64 (r.begin_ * chunkSize), wrap64 (r.end_ * chunkSize)⟩ : Range)) =
      (List.range (n + 1)).map fun i => ⟨wrap64 (b i), wrap64 (b (i + 1))⟩ := by
    rw [chunkRanges_eq chunkNum hpos, List.map_map]
    refine List.map_congr_left fun i _ => ?_
    simp [hbdef]
  simp only [keyRanges, hraw, List.range_succ, List.map_append, List.map_singleton,
    List.reverse_append, List.reverse_singleton, List.singleton_append, ← List.map_reverse,
    hothers, hwrap n (by omega), hlastOne, trimBack_map hb]
  simp [List.map_reverse, hbdef] at hlastEnd ⊢
  exact hlastEnd

/-- **`SetMaxKeyAndChunkSize` cuts the key space at the chunk bounds**, for every
number of servers, key bound and chunk size of their machine types. -/
theorem partitioned_set {numServers maxKey chunkSize : ℕ} (hpos : 0 < numServers)
    (hservers : numServers < 2 ^ 31) (hsizepos : 0 < chunkSize) (hsize : chunkSize < 2 ^ 31)
    (hkey : 0 < maxKey) (hlt : maxKey < 2 ^ 64) :
    (setMaxKeyAndChunkSize numServers maxKey chunkSize).Partitioned numServers := by
  have hwrap : wrap64 ((maxKey : ℤ) - 1) = maxKey - 1 := by
    unfold wrap64
    omega
  have hdiv : (maxKey - 1) / chunkSize ≤ maxKey - 1 := Nat.div_le_self _ _
  have hnum : wrap64 ((maxKey - 1) / chunkSize + 1 : ℕ) = (maxKey - 1) / chunkSize + 1 :=
    wrap64_of_lt (by omega)
  have hchunkNum : (setMaxKeyAndChunkSize numServers maxKey chunkSize).chunkNum =
      (maxKey - 1) / chunkSize + 1 := by
    simp only [setMaxKeyAndChunkSize, hwrap, hnum]
  refine ⟨hpos, hsizepos, hkey, hlt, hchunkNum, ?_, ?_⟩
  · rw [hchunkNum]
    simp only [setMaxKeyAndChunkSize, hwrap, hnum]
    exact chunkRanges_eq _ hpos
  · rw [hchunkNum]
    simp only [setMaxKeyAndChunkSize, hwrap, hnum]
    exact keyRanges_chunkRanges hpos hservers hsizepos hsize hkey hlt.le le_rfl

end FlexPS.KVStore
