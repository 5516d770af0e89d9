import FlexPS.Lib.LowerBound
import FlexPS.KVStore.Wire

/-!
# Slicing a request over the servers

Before a request is sent, `Slice_` cuts its keys by binary searches for the ends of the servers'
key ranges and `PartitionChunks_` cuts the chunk ids with one pass over the ranges.  On a table
cut at the chunk bounds and sorted keys or chunk ids both compute, for every server, the keys or
chunks of the request that lie in that server's range.

## Main definitions

* `slice_`, `partitionChunks_` — the two functions of `KVWorker`.
* `waitNum` — how many replies a request waits for.
* `RangeTable.keyBound` — the first key of every server.
* `cuts` — where the slices of keys in any order end.
* `slice_eq`, `partitionChunks_eq` — the pieces, as filters of the request.
-/

namespace FlexPS.KVStore

open Lib

variable {Val : Type}

/-! ## The code -/

/-- The positions after the first, for the ranges that are left. -/
def slicePositionsFrom : ℕ → List ℕ → List Range → List ℕ
  | _, _, [] => []
  | pos, rest, r :: rs =>
      let len := lowerBound id rest r.end_
      (pos + len) :: slicePositionsFrom (pos + len) (rest.drop len) rs

/-- The vector `pos` of `Slice_`: one entry more than there are ranges. -/
def slicePositions (keys : List ℕ) : List Range → List ℕ
  | [] => [0]
  | r :: rs =>
      let first := lowerBound id keys r.begin_
      first :: slicePositionsFrom first (keys.drop first) (r :: rs)

/-- Neighbouring positions. -/
def pieces (pos : List ℕ) : List (ℕ × ℕ) := pos.zip pos.tail

/-- `KVWorker::Slice_`: for every server whether its slice is not empty, and the slice. -/
def slice_ (send : KVPairs Val) (ranges : List Range) : List (Bool × KVPairs Val) :=
  let k := send.vals.length / send.keys.length
  (pieces (slicePositions send.keys ranges)).map fun p =>
    (p.1 != p.2, ⟨segment send.keys p.1 p.2, segment send.vals (p.1 * k) (p.2 * k)⟩)

/-- The inner loop of `PartitionChunks_`: leave the ranges that end at or before `key`.
It asserts that a range is left. -/
def skipRanges (key : ℕ) : List Range → Option (ℕ × List Range)
  | [] => none
  | r :: rs =>
      if key ≥ r.end_ then (skipRanges key rs).map fun p => (p.1 + 1, p.2)
      else some (0, r :: rs)

/-- The outer loop of `PartitionChunks_`, from chunk number `i` on. -/
def partitionFrom (chunkSize : ℕ) : List ℕ → ℕ → List Range → Option (List ℕ)
  | [], i, ranges => some (List.replicate ranges.length i)
  | c :: cs, i, ranges => do
      let (skipped, ranges) ← skipRanges (c * chunkSize) ranges
      let pos ← partitionFrom chunkSize cs (i + 1) ranges
      some (List.replicate skipped i ++ pos)

/-- `KVWorker::PartitionChunks_`. -/
def partitionChunks_ (t : RangeTable) (chunkIds : List ℕ) : Option (List ℕ) :=
  (partitionFrom t.chunkSize chunkIds 0 t.serverKeyRanges).map fun pos => 0 :: pos

/-- The `wait_num` of `GetTimestamp_` and `GetTimestampChunk_`. -/
def waitNum (pos : List ℕ) : ℕ := (pieces pos).countP fun p => p.1 != p.2

/-! ## Positions of any request -/

/-- Positions between which the pieces of `length` entries lie. -/
def Positions (length : ℕ) (pos : List ℕ) : Prop :=
  pos.Pairwise (· ≤ ·) ∧ ∀ x ∈ pos, x ≤ length

theorem Positions.cons {length a b : ℕ} {pos : List ℕ} (hab : a ≤ b)
    (h : Positions length (b :: pos)) : Positions length (a :: b :: pos) := by
  refine ⟨List.pairwise_cons.mpr ⟨fun x hx => ?_, h.1⟩, List.forall_mem_cons.mpr ⟨?_, h.2⟩⟩
  · rcases List.mem_cons.mp hx with rfl | hx
    · exact hab
    · exact hab.trans ((List.pairwise_cons.mp h.1).1 x hx)
  · exact hab.trans (h.2 b List.mem_cons_self)

theorem Positions.replicate {length a : ℕ} {pos : List ℕ} (h : Positions length (a :: pos)) (k : ℕ) :
    Positions length (a :: (List.replicate k a ++ pos)) := by
  induction k with
  | zero => exact h
  | succ k ih => exact ih.cons (Nat.le_refl a)

/-- A piece begins before it ends. -/
theorem Positions.of_mem_pieces {length : ℕ} {pos : List ℕ} (h : Positions length pos) {p : ℕ × ℕ}
    (hp : p ∈ pieces pos) : p.1 ≤ p.2 ∧ p.2 ≤ length := by
  cases pos with
  | nil => cases hp
  | cons a pos =>
      induction pos generalizing a with
      | nil => cases hp
      | cons b pos ih =>
          obtain ⟨ha, hrest⟩ := List.pairwise_cons.mp h.1
          rcases List.mem_cons.mp hp with rfl | hp
          · exact ⟨ha b List.mem_cons_self, h.2 b (by simp)⟩
          · exact ih b ⟨hrest, fun x hx => h.2 x (List.mem_cons_of_mem a hx)⟩ hp

/-- The pieces are together no longer than the request. -/
theorem Positions.sum_pieces_le {length : ℕ} {pos : List ℕ} (h : Positions length pos) :
    ((pieces pos).map fun p => p.2 - p.1).sum ≤ length := by
  cases pos with
  | nil => exact Nat.zero_le _
  | cons a pos =>
      suffices hsum : a + ((pieces (a :: pos)).map fun p => p.2 - p.1).sum ≤ length by omega
      induction pos generalizing a with
      | nil => simpa [pieces] using h.2 a List.mem_cons_self
      | cons b pos ih =>
          obtain ⟨ha, hrest⟩ := List.pairwise_cons.mp h.1
          have hab := ha b List.mem_cons_self
          have hsum := ih b ⟨hrest, fun x hx => h.2 x (List.mem_cons_of_mem a hx)⟩
          have hcons : pieces (a :: b :: pos) = (a, b) :: pieces (b :: pos) := rfl
          rw [hcons, List.map_cons, List.sum_cons]
          omega

theorem positions_slicePositionsFrom {length pos : ℕ} {rest : List ℕ} (ranges : List Range)
    (hlength : pos + rest.length = length) :
    Positions length (pos :: slicePositionsFrom pos rest ranges) := by
  induction ranges generalizing pos rest with
  | nil => exact ⟨List.pairwise_singleton _ _, by simp [slicePositionsFrom]; omega⟩
  | cons r ranges ih =>
      have hle := lowerBound_le_length (f := id) rest r.end_
      refine (ih ?_).cons (Nat.le_add_right _ _)
      rw [List.length_drop]
      omega

/-- The slices of any keys. -/
theorem positions_slicePositions (keys : List ℕ) (ranges : List Range) :
    Positions keys.length (slicePositions keys ranges) := by
  cases ranges with
  | nil => exact ⟨List.pairwise_singleton _ _, by simp [slicePositions]⟩
  | cons r ranges =>
      have hle := lowerBound_le_length (f := id) keys r.begin_
      refine positions_slicePositionsFrom (r :: ranges) ?_
      rw [List.length_drop]
      omega

theorem positions_partitionFrom {chunkSize length i : ℕ} {cs : List ℕ} {ranges : List Range}
    {pos : List ℕ} (hlength : i + cs.length = length)
    (h : partitionFrom chunkSize cs i ranges = some pos) : Positions length (i :: pos) := by
  induction cs generalizing i ranges pos with
  | nil =>
      obtain rfl := Option.some.inj h
      have hbase : Positions length [i] :=
        ⟨List.pairwise_singleton _ _, by simpa using Nat.le_of_eq hlength⟩
      simpa using hbase.replicate ranges.length
  | cons c cs ih =>
      obtain ⟨⟨skipped, ranges'⟩, -, h⟩ := Option.bind_eq_some_iff.mp h
      obtain ⟨pos', hrest, h⟩ := Option.bind_eq_some_iff.mp h
      obtain rfl := Option.some.inj h
      have hnext := (ih (by rw [List.length_cons] at hlength; omega) hrest).cons (Nat.le_succ i)
      have hsub : (i :: pos').Sublist (i :: (i + 1) :: pos') :=
        (List.sublist_cons_self (i + 1) pos').cons_cons i
      have hlater : Positions length (i :: pos') :=
        ⟨hnext.1.sublist hsub, fun x hx => hnext.2 x (hsub.subset hx)⟩
      exact hlater.replicate skipped

/-- The parts of any chunk ids. -/
theorem positions_partitionChunks {t : RangeTable} {chunkIds pos : List ℕ}
    (h : partitionChunks_ t chunkIds = some pos) : Positions chunkIds.length pos := by
  obtain ⟨pos', hpos, rfl⟩ := Option.map_eq_some_iff.mp h
  exact positions_partitionFrom (Nat.zero_add _) hpos

/-! ## Positions of an increasing sequence of bounds -/

theorem pieces_map_range (p : ℕ → ℕ) (n : ℕ) :
    pieces ((List.range (n + 1)).map p) = (List.range n).map fun i => (p i, p (i + 1)) := by
  apply List.ext_getElem
  · simp [pieces]
  · intro i h₁ h₂
    simp [pieces]

/-- Ranges cut at the bounds `b j, …, b (j + m)`. -/
def rangesFrom (b : ℕ → ℕ) (j m : ℕ) : List Range :=
  (List.range' j m).map fun i => ⟨b i, b (i + 1)⟩

theorem rangesFrom_succ (b : ℕ → ℕ) (j m : ℕ) :
    rangesFrom b j (m + 1) = ⟨b j, b (j + 1)⟩ :: rangesFrom b (j + 1) m := by
  rw [rangesFrom, List.range'_succ, List.map_cons]
  rfl

/-! ## Keys in any order -/

/-- Where the slices end. -/
def cuts (b : ℕ → ℕ) (keys : List ℕ) : ℕ → ℕ
  | 0 => lowerBound id keys (b 0)
  | i + 1 => cuts b keys i + lowerBound id (keys.drop (cuts b keys i)) (b (i + 1))

section Cuts

variable (b : ℕ → ℕ) (keys : List ℕ)

theorem cuts_mono : Monotone (cuts b keys) :=
  monotone_nat_of_le_succ fun _ => Nat.le_add_right _ _

theorem cuts_le_length (i : ℕ) : cuts b keys i ≤ keys.length := by
  induction i with
  | zero => exact lowerBound_le_length _ _
  | succ i ih =>
      have hle := lowerBound_le_length (f := id) (keys.drop (cuts b keys i)) (b (i + 1))
      rw [List.length_drop] at hle
      rw [cuts]
      omega

theorem slicePositionsFrom_eq (j m : ℕ) :
    slicePositionsFrom (cuts b keys j) (keys.drop (cuts b keys j)) (rangesFrom b j m) =
      (List.range' (j + 1) m).map (cuts b keys) := by
  induction m generalizing j with
  | zero => rfl
  | succ m ih =>
      rw [rangesFrom_succ, slicePositionsFrom, List.range'_succ, List.map_cons, ← ih (j + 1),
        List.drop_drop]
      rfl

/-- The positions are where the searches for the bounds end. -/
theorem slicePositions_eq {n : ℕ} (hn : 0 < n) :
    slicePositions keys (rangesFrom b 0 n) = (List.range (n + 1)).map (cuts b keys) := by
  cases n with
  | zero => omega
  | succ n =>
      have hrest := slicePositionsFrom_eq b keys 0 (n + 1)
      rw [List.range_eq_range', List.range'_succ, List.map_cons, Nat.zero_add, ← Nat.zero_add 1,
        ← hrest, rangesFrom_succ, slicePositions]
      rfl

end Cuts

section Bounds

variable {b : ℕ → ℕ} (hb : Monotone b)
include hb

/-- Where the keys below every bound come first, the slices end at the bounds. -/
theorem cuts_eq_below {keys : List ℕ}
    (hsplit : ∀ i, keys.Pairwise fun x y => y < b i → x < b i) (i : ℕ) :
    cuts b keys i = below id keys (b i) := by
  induction i with
  | zero => exact lowerBound_eq_below (hsplit 0)
  | succ i ih =>
      have hle : b i ≤ b (i + 1) := hb (Nat.le_succ i)
      have hmono := below_mono (f := id) keys hle
      have hrest : lowerBound id (keys.drop (below id keys (b i))) (b (i + 1)) =
          below id (keys.drop (below id keys (b i))) (b (i + 1)) :=
        lowerBound_eq_below (hsplit (i + 1)).drop
      rw [cuts, ih, hrest, below_drop hle]
      exact Nat.add_sub_of_le hmono

omit hb in
/-- The inner loop stops at the first range that ends after the key. -/
theorem skipRanges_eq {key j m : ℕ} (hkey : key < b (j + m)) (hm : 0 < m) :
    ∃ k < m, skipRanges key (rangesFrom b j m) = some (k, rangesFrom b (j + k) (m - k)) ∧
      key < b (j + k + 1) ∧ ∀ i, j < i → i ≤ j + k → b i ≤ key := by
  induction m generalizing j with
  | zero => omega
  | succ m ih =>
      rw [rangesFrom_succ, skipRanges]
      by_cases hend : key ≥ b (j + 1)
      · have hm' : 0 < m := by
          by_contra hzero
          obtain rfl : m = 0 := by omega
          exact absurd hkey (Nat.not_lt_of_ge hend)
        obtain ⟨k, hk, hskip, hlt, hle⟩ := ih (j := j + 1) (by rwa [Nat.add_right_comm]) hm'
        refine ⟨k + 1, by omega, ?_, ?_, ?_⟩
        · have hstart : j + 1 + k = j + (k + 1) := by omega
          have hcount : m - k = m + 1 - (k + 1) := by omega
          rw [if_pos hend, hskip, Option.map_some, hstart, hcount]
        · have hindex : j + (k + 1) + 1 = j + 1 + k + 1 := by omega
          rwa [hindex]
        · intro i hi hik
          rcases Nat.eq_or_lt_of_le hi with rfl | hi
          · exact hend
          · exact hle i hi (by omega)
      · refine ⟨0, by omega, ?_, by simpa using hend, fun i hi hik => by omega⟩
        rw [if_neg hend, ← rangesFrom_succ]
        rfl

theorem partitionFrom_eq {chunkSize : ℕ} {cs : List ℕ} (i j m : ℕ) (hm : 0 < m)
    (hsorted : cs.Pairwise (· ≤ ·)) (hlt : ∀ c ∈ cs, c * chunkSize < b (j + m)) :
    partitionFrom chunkSize cs i (rangesFrom b j m) =
      some ((List.range' (j + 1) m).map fun l => i + below (· * chunkSize) cs (b l)) := by
  induction cs generalizing i j m with
  | nil => simp [partitionFrom, rangesFrom, List.map_const']
  | cons c cs ih =>
      rw [List.pairwise_cons] at hsorted
      obtain ⟨k, hk, hskip, hnext, hbefore⟩ := skipRanges_eq (hlt c (by simp)) hm
      have hrest := ih (i + 1) (j + k) (m - k) (by omega) hsorted.2 fun c' hc' => by
        have hindex : j + k + (m - k) = j + m := by omega
        rw [hindex]
        exact hlt c' (by simp [hc'])
      have hsplit : List.range' (j + 1) m =
          List.range' (j + 1) k ++ List.range' (j + k + 1) (m - k) := by
        have hlen : m = k + (m - k) := by omega
        conv_lhs => rw [hlen, ← List.range'_append_1]
        congr 2
        omega
      simp only [partitionFrom, hskip, hrest, Option.bind_eq_bind, Option.bind_some, hsplit,
        List.map_append]
      congr 2
      · refine (List.eq_replicate_iff.mpr ⟨by simp, ?_⟩).symm
        intro x hx
        obtain ⟨l, hl, rfl⟩ := List.mem_map.mp hx
        rw [List.mem_range'_1] at hl
        rw [below_cons, if_neg (by have := hbefore l (by omega) (by omega); omega), Nat.add_zero]
      · refine List.map_congr_left fun l hl => ?_
        rw [List.mem_range'_1] at hl
        have hle : b (j + k + 1) ≤ b l := hb hl.1
        rw [below_cons, if_pos (by omega)]
        omega

end Bounds

/-! ## The pieces of a request -/

namespace RangeTable

variable (t : RangeTable) (n : ℕ)

/-- The first key of every server, and `max_key` after the last. -/
def keyBound (i : ℕ) : ℕ := min (chunkBound n t.chunkNum i * t.chunkSize) t.maxKey

theorem keyBound_mono : Monotone (t.keyBound n) := by
  intro i j hij
  have := Nat.mul_le_mul_right t.chunkSize (chunkBound_mono n t.chunkNum hij)
  simp only [keyBound]
  omega

/-- The keys of a request that lie in the range of server `i`. -/
def keysOf (i : ℕ) (keys : List ℕ) : List ℕ :=
  between id (t.keyBound n i) (t.keyBound n (i + 1)) keys

/-- The chunks of a request that lie in the range of server `i`. -/
def chunksOf (i : ℕ) (chunkIds : List ℕ) : List ℕ :=
  between (· * t.chunkSize) (t.keyBound n i) (t.keyBound n (i + 1)) chunkIds

variable {t n}

namespace Partitioned

theorem serverKeyRanges_eq (ht : t.Partitioned n) :
    t.serverKeyRanges = rangesFrom (t.keyBound n) 0 n := by
  rw [ht.keyRanges_eq, rangesFrom, List.range_eq_range']
  rfl

theorem keyBound_zero : t.keyBound n 0 = 0 := by
  simp [keyBound]

theorem keyBound_last (ht : t.Partitioned n) : t.keyBound n n = t.maxKey := by
  rw [keyBound, chunkBound_self _ ht.numServers_pos, ht.chunkNum_eq]
  exact Nat.min_eq_right (maxKey_le_chunks ht.chunkSize_pos)

/-- A chunk begins below `max_key`. -/
theorem chunk_lt (ht : t.Partitioned n) {c : ℕ} (hc : c < t.chunkNum) :
    c * t.chunkSize < t.maxKey := by
  rw [ht.chunkNum_eq] at hc
  exact last_chunk_lt ht.maxKey_pos hc

/-- The pieces that `Slice_` cuts. -/
theorem pieces_slicePositions (ht : t.Partitioned n) (keys : List ℕ) :
    pieces (slicePositions keys t.serverKeyRanges) = (List.range n).map fun i =>
      (cuts (t.keyBound n) keys i, cuts (t.keyBound n) keys (i + 1)) := by
  rw [ht.serverKeyRanges_eq, slicePositions_eq _ _ ht.numServers_pos, pieces_map_range]

/-- **`Slice_` hands every server its keys**, and the values at their positions. -/
theorem slice_eq (ht : t.Partitioned n) (send : KVPairs Val)
    (hsorted : send.keys.Pairwise (· ≤ ·)) : slice_ send t.serverKeyRanges =
      (List.range n).map fun i => (!(t.keysOf n i send.keys).isEmpty, ⟨t.keysOf n i send.keys,
        segment send.vals
          (below id send.keys (t.keyBound n i) * (send.vals.length / send.keys.length))
          (below id send.keys (t.keyBound n (i + 1)) *
            (send.vals.length / send.keys.length))⟩) := by
  have hcuts := cuts_eq_below (t.keyBound_mono n) fun i =>
    split_of_sorted (f := id) hsorted (t.keyBound n i)
  rw [slice_, ht.pieces_slicePositions, List.map_map]
  refine List.map_congr_left fun i _ => ?_
  have hle := t.keyBound_mono n (Nat.le_succ i)
  have hpiece : segment send.keys (below id send.keys (t.keyBound n i))
      (below id send.keys (t.keyBound n (i + 1))) = t.keysOf n i send.keys :=
    segment_below (f := id) hsorted hle
  have hflag : (below id send.keys (t.keyBound n i) != below id send.keys (t.keyBound n (i + 1))) =
      !(t.keysOf n i send.keys).isEmpty := by
    rw [← hpiece, segment_isEmpty (below_mono send.keys hle) (below_le_length _ _)]
  simp only [Function.comp_apply, hcuts, hpiece, hflag]

/-- **`PartitionChunks_` hands every server its chunks.** -/
theorem partitionChunks_eq (ht : t.Partitioned n) {chunkIds : List ℕ}
    (hsorted : chunkIds.Pairwise (· ≤ ·)) (hlt : ∀ c ∈ chunkIds, c < t.chunkNum) :
    partitionChunks_ t chunkIds = some ((List.range (n + 1)).map fun i =>
      below (· * t.chunkSize) chunkIds (t.keyBound n i)) := by
  have hpos : partitionFrom t.chunkSize chunkIds 0 (rangesFrom (t.keyBound n) 0 n) = _ :=
    partitionFrom_eq (t.keyBound_mono n) 0 0 n ht.numServers_pos hsorted fun c hc => by
      rw [Nat.zero_add, ht.keyBound_last]
      exact ht.chunk_lt (hlt c hc)
  have hfirst : below (· * t.chunkSize) chunkIds (t.keyBound n 0) = 0 := by
    rw [keyBound_zero]
    exact below_eq_zero fun c _ => Nat.zero_le _
  rw [partitionChunks_, ht.serverKeyRanges_eq, hpos, Option.map_some, List.range_succ_eq_map,
    List.map_cons, hfirst, List.map_map, List.range'_eq_map_range, List.map_map]
  congr 2
  refine List.map_congr_left fun i _ => ?_
  simp [Nat.add_comm]

end Partitioned

end RangeTable

end FlexPS.KVStore
