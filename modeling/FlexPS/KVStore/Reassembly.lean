import FlexPS.KVStore.PullRequest

/-!
# Putting the replies of a pull together

The replies to one pull hold the parts of the request, one per server asked, in whatever
order they came.  Sorting them by first key gives the order of the servers, because the
servers' ranges are, and copying the values by position then gives the request's own order.

## Main definitions

* `RangeTable.owner` — the server whose range holds a key.
* `Call.answer` — what a server sends back for its part.
* `Call.result` — what a pull is for: for every key the value its owner holds.
* `run_callback` — the callback turns any order of the replies into that result.
-/

namespace FlexPS.KVStore

open Lib

variable {Val : Type}

/-! ## Owners -/

/-- The server whose range holds a key: the first range that ends after it. -/
def RangeTable.owner (t : RangeTable) (k : ℕ) : ℕ := t.serverKeyRanges.findIdx fun r => k < r.end_

namespace RangeTable.Partitioned

variable {t : RangeTable} {n : ℕ} (ht : t.Partitioned n)
include ht

theorem serverKeyRanges_length : t.serverKeyRanges.length = n := by
  simp [ht.serverKeyRanges_eq, rangesFrom]

theorem serverKeyRanges_getElem {i : ℕ} (hi : i < t.serverKeyRanges.length) :
    t.serverKeyRanges[i] = ⟨t.keyBound n i, t.keyBound n (i + 1)⟩ := by
  simp only [ht.serverKeyRanges_eq, rangesFrom, List.getElem_map, List.getElem_range']
  simp

/-- The owner of a key is the server between whose bounds it lies. -/
theorem owner_eq {i k : ℕ} (hi : i < n) (hlo : t.keyBound n i ≤ k)
    (hhi : k < t.keyBound n (i + 1)) : t.owner k = i := by
  have hlen : i < t.serverKeyRanges.length := by rwa [ht.serverKeyRanges_length]
  rw [RangeTable.owner, List.findIdx_eq hlen]
  constructor
  · simpa [ht.serverKeyRanges_getElem] using hhi
  · intro j hj
    have hle : t.keyBound n (j + 1) ≤ t.keyBound n i := t.keyBound_mono n hj
    simp only [ht.serverKeyRanges_getElem, decide_eq_false_iff_not]
    omega

/-- The parts that a request is cut into by the position `f` of its entries: what is done
to every part, put together, is done to every entry with its owner. -/
theorem flatMap_parts {f : ℕ → ℕ} {xs : List ℕ} (hsorted : xs.Pairwise fun x y => f x ≤ f y)
    (hlt : ∀ x ∈ xs, f x < t.maxKey) {α : Type} (g : ℕ → ℕ → α) :
    (List.range n).flatMap
        (fun i => (between f (t.keyBound n i) (t.keyBound n (i + 1)) xs).map (g i)) =
      xs.map fun x => g (t.owner (f x)) x := by
  have hpart : ∀ i ∈ List.range n,
      (between f (t.keyBound n i) (t.keyBound n (i + 1)) xs).map (g i) =
        (between f (t.keyBound n i) (t.keyBound n (i + 1)) xs).map fun x => g (t.owner (f x)) x := by
    intro i hi
    refine List.map_congr_left fun x hx => ?_
    obtain ⟨-, hlo, hhi⟩ := mem_between.mp hx
    rw [ht.owner_eq (List.mem_range.mp hi) hlo hhi]
  have hall : between f (t.keyBound n 0) (t.keyBound n n) xs = xs := by
    rw [between, List.filter_eq_self]
    intro x hx
    simpa [Partitioned.keyBound_zero, ht.keyBound_last] using hlt x hx
  rw [List.flatMap_congr hpart, ← List.map_flatMap, flatMap_between hsorted (t.keyBound_mono n) n,
    hall]

/-- A server has a part exactly when it owns an entry of the request. -/
theorem between_ne_nil_iff {f : ℕ → ℕ} {xs : List ℕ} (hsorted : xs.Pairwise fun x y => f x ≤ f y)
    (hlt : ∀ x ∈ xs, f x < t.maxKey) (i : ℕ) :
    (i < n ∧ between f (t.keyBound n i) (t.keyBound n (i + 1)) xs ≠ []) ↔
      ∃ x ∈ xs, t.owner (f x) = i := by
  have hparts := ht.flatMap_parts hsorted hlt Prod.mk
  constructor
  · rintro ⟨hi, hpart⟩
    obtain ⟨x, hx⟩ := List.exists_mem_of_ne_nil _ hpart
    obtain ⟨hmem, hlo, hhi⟩ := mem_between.mp hx
    exact ⟨x, hmem, ht.owner_eq hi hlo hhi⟩
  · rintro ⟨x, hx, rfl⟩
    have hmem : (t.owner (f x), x) ∈ xs.map fun x => (t.owner (f x), x) := List.mem_map_of_mem hx
    rw [← hparts, List.mem_flatMap] at hmem
    obtain ⟨j, hj, hmem⟩ := hmem
    obtain ⟨y, hy, hpair⟩ := List.mem_map.mp hmem
    obtain ⟨rfl, rfl⟩ := Prod.mk.inj hpair
    exact ⟨List.mem_range.mp hj, List.ne_nil_of_mem hy⟩

/-- The last chunk is short when `chunk_size` does not divide `max_key`. -/
theorem realChunkSize_eq {c : ℕ} (hc : c < t.chunkNum) :
    t.realChunkSize c = min ((c + 1) * t.chunkSize) t.maxKey - c * t.chunkSize := by
  have hsize := ht.chunkSize_pos
  have hkey := ht.maxKey_pos
  have hdiv := Nat.div_add_mod (t.maxKey - 1) t.chunkSize
  have hmod := Nat.mod_lt (t.maxKey - 1) hsize
  set q := (t.maxKey - 1) / t.chunkSize with hq
  set r := (t.maxKey - 1) % t.chunkSize with hr
  have hnum : t.chunkNum = q + 1 := ht.chunkNum_eq
  have hmax : t.maxKey = t.chunkSize * q + (r + 1) := by omega
  rw [RangeTable.realChunkSize, Nat.add_mul, Nat.one_mul]
  by_cases hlast : c = t.chunkNum - 1
  · obtain rfl : c = q := by omega
    have hrest : t.maxKey % t.chunkSize = (r + 1) % t.chunkSize := by
      rw [hmax, Nat.mul_add_mod]
    rw [if_pos hlast, RangeTable.getLastChunkSize, hrest, Nat.mul_comm q]
    rcases Nat.eq_or_lt_of_le (show r + 1 ≤ t.chunkSize from hmod) with hfull | hshort
    · have hzero : (r + 1) % t.chunkSize = 0 := by rw [hfull, Nat.mod_self]
      rw [hzero]
      simp only [ne_eq, not_true_eq_false, if_false]
      omega
    · rw [Nat.mod_eq_of_lt hshort, if_pos (by omega)]
      omega
  · have hle : (c + 1) * t.chunkSize ≤ q * t.chunkSize := Nat.mul_le_mul_right _ (by omega)
    rw [Nat.add_mul, Nat.one_mul] at hle
    rw [if_neg hlast, Nat.min_eq_left (by rw [hmax, Nat.mul_comm t.chunkSize q]; omega)]
    omega

end RangeTable.Partitioned

namespace RangeTable

/-- Chunk ids as the callback of a chunk pull needs them: sorted, with nothing after the last
chunk. -/
def InOrder (t : RangeTable) (ids : List ℕ) : Prop :=
  ids.Pairwise fun a b => a ≤ b ∧ a ≠ t.chunkNum - 1

instance (t : RangeTable) (ids : List ℕ) : Decidable (t.InOrder ids) := by
  unfold InOrder
  infer_instance

/-- Different chunks in ascending order are in order. -/
theorem inOrder_of_lt (t : RangeTable) {ids : List ℕ} (hstrict : ids.Pairwise (· < ·))
    (hlt : ∀ c ∈ ids, c < t.chunkNum) : t.InOrder ids := by
  refine hstrict.imp_of_mem fun {a b} _ hb hab => ⟨Nat.le_of_lt hab, ?_⟩
  have := hlt b hb
  omega

end RangeTable

/-! ## Sorting -/

/-- Sorting by a position that increases strictly along some order gives that order. -/
theorem sortByFront_eq {α : Type} {f : α → ℕ} {recv sorted : List α} (hperm : recv.Perm sorted)
    (hsorted : sorted.Pairwise fun a b => f a < f b) : sortByFront f recv = sorted := by
  have hinsert := List.perm_insertionSort (fun a b => f a ≤ f b) recv
  have hpair : (sortByFront f recv).Pairwise fun a b => f a ≤ f b :=
    letI : Std.Total fun a b => f a ≤ f b := ⟨fun a b => Nat.le_total (f a) (f b)⟩
    letI : IsTrans α fun a b => f a ≤ f b := ⟨fun a b c hab hbc => Nat.le_trans hab hbc⟩
    List.pairwise_insertionSort (fun a b => f a ≤ f b) recv
  have hle : sorted.Pairwise fun a b => f a ≤ f b := hsorted.imp fun h => Nat.le_of_lt h
  refine List.Perm.eq_of_pairwise ?_ hpair hle (hinsert.trans hperm)
  intro a b ha hb hab hba
  have ha' : a ∈ sorted := hperm.subset (hinsert.subset ha)
  have heq : f a = f b := Nat.le_antisymm hab hba
  exact List.inj_on_of_nodup_map (f := f)
    (List.pairwise_map.mpr (hsorted.imp fun h => Nat.ne_of_lt h)) ha' hb heq

/-! ## Copying chunks -/

/-- Copying one reply: its values are those of its chunks one after the other, and only the
last chunk of the store may be short. -/
theorem copyChunks_eq {chunkSize chunkNum : ℕ} {g : ℕ → List Val} {cs : List ℕ}
    (horder : cs.Pairwise fun c _ => c ≠ chunkNum - 1)
    (hsize : ∀ c ∈ cs, c ≠ chunkNum - 1 → (g c).length = chunkSize) (pre : List Val)
    (done rest : List (List Val)) (hroom : cs.length ≤ rest.length) :
    copyChunks chunkSize chunkNum (pre ++ cs.flatMap g) cs pre.length done.length (done ++ rest) =
      some ((done ++ cs.map g).length, done ++ cs.map g ++ rest.drop cs.length) := by
  induction cs generalizing pre done rest with
  | nil => simp [copyChunks]
  | cons c cs ih =>
      cases rest with
      | nil => simp at hroom
      | cons old rest =>
          rw [List.pairwise_cons] at horder
          -- After the last chunk of the store nothing follows, so it takes what is left.
          have hlast : c = chunkNum - 1 → cs = [] := by
            intro hc
            cases cs with
            | nil => rfl
            | cons c' cs => exact absurd hc (horder.1 c' (by simp))
          have htake : (if c = chunkNum - 1 then (pre ++ (c :: cs).flatMap g).length - pre.length
              else chunkSize) = (g c).length := by
            split
            · next hc => simp [hlast hc]
            · next hc => rw [hsize c (by simp) hc]
          have hcopied : ((pre ++ (c :: cs).flatMap g).drop pre.length).take (g c).length = g c := by
            simp
          have hset : (done ++ old :: rest).set done.length (g c) = (done ++ [g c]) ++ rest := by
            simp
          simp only [copyChunks, htake, hcopied, hset]
          rw [if_pos (by simp)]
          by_cases hc : c = chunkNum - 1
          · simp [hlast hc, copyChunks]
          · have hih := ih horder.2 (fun c' hc' => hsize c' (by simp [hc'])) (pre ++ g c)
              (done ++ [g c]) rest (by simpa using hroom)
            rw [List.length_append, hsize c (by simp) hc, List.length_append] at hih
            simpa using hih

/-- Copying all replies, given as chunk ids with the values of every chunk. -/
theorem fillChunks_eq (chunkSize chunkNum : ℕ) {ι : Type} (cs : ι → List ℕ)
    (g : ι → ℕ → List Val) (items : List ι)
    (horder : ∀ i ∈ items, (cs i).Pairwise fun c _ => c ≠ chunkNum - 1)
    (hsize : ∀ i ∈ items, ∀ c ∈ cs i, c ≠ chunkNum - 1 → (g i c).length = chunkSize)
    (done rest : List (List Val)) (hroom : (items.flatMap cs).length ≤ rest.length) :
    fillChunks chunkSize chunkNum (items.map fun i => ⟨cs i, (cs i).flatMap (g i)⟩) done.length
        (done ++ rest) =
      some (done ++ items.flatMap (fun i => (cs i).map (g i)) ++
        rest.drop (items.flatMap cs).length) := by
  induction items generalizing done rest with
  | nil => simp [fillChunks]
  | cons i items ih =>
      rw [List.flatMap_cons, List.length_append] at hroom
      have hcopy := copyChunks_eq (horder i (by simp)) (hsize i (by simp)) [] done rest (by omega)
      have hih := ih (fun j hj => horder j (by simp [hj])) (fun j hj => hsize j (by simp [hj]))
        (done ++ (cs i).map (g i)) (rest.drop (cs i).length) (by rw [List.length_drop]; omega)
      rw [List.nil_append, List.length_nil] at hcopy
      simp only [List.map_cons, fillChunks, hcopy, Option.bind_eq_bind, Option.bind_some, hih]
      simp

/-! ## The callback -/

namespace Call

/-- What server `i` sends back for its part when it holds `held i`. -/
def answer (t : RangeTable) (n : ℕ) (held : ℕ → ℕ → Val) (c : Call Val) (i : ℕ) : KVPairs Val :=
  ⟨c.part t n i, (c.touched t (c.part t n i)).map (held i)⟩

/-- The servers that own something a pull asks for. -/
def owners (t : RangeTable) : Call Val → List ℕ
  | pull keys => keys.map t.owner
  | pullChunks chunkIds _ => chunkIds.map fun c => t.owner (c * t.chunkSize)
  | _ => []

/-- What a pull is for: the value of every key, or of every key of every chunk, as its owner
holds it. -/
def result (t : RangeTable) (held : ℕ → ℕ → Val) : Call Val → Dest Val
  | pull keys => .vals (keys.map fun k => held (t.owner k) k)
  | pullChunks chunkIds _ => .chunks (chunkIds.map fun c =>
      (List.range' (c * t.chunkSize) (min ((c + 1) * t.chunkSize) t.maxKey - c * t.chunkSize)).map
        (held (t.owner (c * t.chunkSize))))
  | _ => .vals []

end Call

theorem flatMap_filter_eq {α β : Type} {p : α → Bool} {g : α → List β} {l : List α}
    (h : ∀ x ∈ l, p x = false → g x = []) : (l.filter p).flatMap g = l.flatMap g := by
  induction l with
  | nil => rfl
  | cons x l ih =>
      have hl := ih fun y hy => h y (by simp [hy])
      cases hp : p x with
      | true => rw [List.filter_cons_of_pos hp, List.flatMap_cons, List.flatMap_cons, hl]
      | false =>
          rw [List.filter_cons_of_neg (by simp [hp]), List.flatMap_cons, h x (by simp) hp, hl,
            List.nil_append]

/-- Along the servers asked, the first keys or chunk ids of the parts increase. -/
theorem front_answer_lt (t : RangeTable) (n : ℕ) (held : ℕ → ℕ → Val) (c : Call Val) :
    ((c.asked t n).map (c.answer t n held)).Pairwise fun a b => front a < front b := by
  rw [List.pairwise_map]
  refine (List.pairwise_lt_range.filter _).imp_of_mem ?_
  intro i j hi hj hij
  have hmem : ∀ l ∈ c.asked t n, front (c.answer t n held l) ∈ c.part t n l := by
    intro l hl
    cases hpart : c.part t n l with
    | nil => simp [Call.asked, hpart] at hl
    | cons k ks => simp [front, Call.answer, hpart]
  have hbound : t.keyBound n (i + 1) ≤ t.keyBound n j := t.keyBound_mono n hij
  have hi := hmem i hi
  have hj := hmem j hj
  have hkeys : ∀ {keys : List ℕ} {a b : ℕ}, a ∈ t.keysOf n i keys → b ∈ t.keysOf n j keys →
      a < b := by
    intro keys a b ha hb
    have h₁ : a < t.keyBound n (i + 1) := (mem_between.mp ha).2.2
    have h₂ : t.keyBound n j ≤ b := (mem_between.mp hb).2.1
    omega
  have hchunks : ∀ {ids : List ℕ} {a b : ℕ}, a ∈ t.chunksOf n i ids → b ∈ t.chunksOf n j ids →
      a < b := by
    intro ids a b ha hb
    have h₁ : a * t.chunkSize < t.keyBound n (i + 1) := (mem_between.mp ha).2.2
    have h₂ : t.keyBound n j ≤ b * t.chunkSize := (mem_between.mp hb).2.1
    exact Nat.lt_of_mul_lt_mul_right (a := t.chunkSize) (by omega)
  cases c with
  | push keys vals => exact hkeys hi hj
  | pull keys => exact hkeys hi hj
  | pushChunks ids chunks => exact hchunks hi hj
  | pullChunks ids chunks => exact hchunks hi hj
  | pullChunksWithMinClock ids chunks => exact hchunks hi hj

section Callback

variable {t : RangeTable} {n : ℕ} (ht : t.Partitioned n)
include ht

/-- A valid pull asks the owners of what it asks for. -/
theorem mem_asked {c : Call Val} (hc : c.ValidPull t) (i : ℕ) :
    i ∈ c.asked t n ↔ i ∈ c.owners t := by
  have hasked : i ∈ c.asked t n ↔ i < n ∧ c.part t n i ≠ [] := by
    simp [Call.asked]
  rw [hasked]
  cases c with
  | pull keys =>
      obtain ⟨-, hstrict, hlt⟩ := hc
      have hsorted : keys.Pairwise (· ≤ ·) := hstrict.imp fun h => Nat.le_of_lt h
      exact (ht.between_ne_nil_iff (f := id) hsorted hlt i).trans List.mem_map.symm
  | pullChunks ids chunks =>
      obtain ⟨-, hstrict, hlt, -⟩ := hc
      have hsorted : ids.Pairwise fun a b => a * t.chunkSize ≤ b * t.chunkSize :=
        hstrict.imp fun h => Nat.mul_le_mul_right _ (Nat.le_of_lt h)
      have hbelow : ∀ c ∈ ids, c * t.chunkSize < t.maxKey := fun c hc => ht.chunk_lt (hlt c hc)
      exact (ht.between_ne_nil_iff hsorted hbelow i).trans List.mem_map.symm
  | push _ _ => exact hc.elim
  | pushChunks _ _ => exact hc.elim
  | pullChunksWithMinClock _ _ => exact hc.elim

theorem asked_ne_nil {c : Call Val} (hc : c.ValidPull t) : c.asked t n ≠ [] := by
  obtain ⟨i, hi⟩ : ∃ i, i ∈ c.owners t := by
    cases c with
    | pull keys =>
        obtain ⟨k, hk⟩ := List.exists_mem_of_ne_nil _ hc.1
        exact ⟨_, List.mem_map_of_mem hk⟩
    | pullChunks ids chunks =>
        obtain ⟨c, hc⟩ := List.exists_mem_of_ne_nil _ hc.1
        exact ⟨_, List.mem_map_of_mem hc⟩
    | push _ _ => exact hc.elim
    | pushChunks _ _ => exact hc.elim
    | pullChunksWithMinClock _ _ => exact hc.elim
  exact List.ne_nil_of_mem ((mem_asked ht hc i).mpr hi)

/-- The keys of a chunk lie in the range of the chunk's server. -/
theorem chunkKeys_bounds {i c k : ℕ} {ids : List ℕ} (hlt : ∀ c ∈ ids, c < t.chunkNum)
    (hc : c ∈ t.chunksOf n i ids) (hk : k ∈ chunkKeys t c) :
    t.keyBound n i ≤ k ∧ k < t.keyBound n (i + 1) := by
  obtain ⟨hmem, hlo, hhi⟩ := mem_between.mp hc
  rw [chunkKeys, ht.realChunkSize_eq (hlt c hmem), List.mem_range'_1] at hk
  have hstart : c * t.chunkSize < chunkBound n t.chunkNum (i + 1) * t.chunkSize :=
    hhi.trans_le (Nat.min_le_left _ _)
  have hend : (c + 1) * t.chunkSize ≤ chunkBound n t.chunkNum (i + 1) * t.chunkSize :=
    Nat.mul_le_mul_right _ (Nat.lt_of_mul_lt_mul_right hstart)
  constructor
  · omega
  · rw [RangeTable.keyBound, Nat.lt_min]
    have := ht.chunk_lt (hlt c hmem)
    omega

/-- A server reads keys of its own range only. -/
theorem touched_bounds {c : Call Val} (hc : c.FitsPull t) {i k : ℕ}
    (hk : k ∈ c.touched t (c.part t n i)) : t.keyBound n i ≤ k ∧ k < t.keyBound n (i + 1) := by
  cases c with
  | pull keys => exact (mem_between.mp hk).2
  | pullChunks ids chunks =>
      obtain ⟨c, hmem, hk⟩ := List.mem_flatMap.mp hk
      exact chunkKeys_bounds ht hc.2.1 hmem hk
  | push _ _ => exact hc.elim
  | pushChunks _ _ => exact hc.elim
  | pullChunksWithMinClock _ _ => exact hc.elim

/-- What is done to the parts of all servers asked, put together. -/
theorem flatMap_asked {f : ℕ → ℕ} {xs : List ℕ} (hsorted : xs.Pairwise fun x y => f x ≤ f y)
    (hlt : ∀ x ∈ xs, f x < t.maxKey) {α : Type} (g : ℕ → ℕ → α) :
    ((List.range n).filter fun i =>
        !(between f (t.keyBound n i) (t.keyBound n (i + 1)) xs).isEmpty).flatMap
        (fun i => (between f (t.keyBound n i) (t.keyBound n (i + 1)) xs).map (g i)) =
      xs.map fun x => g (t.owner (f x)) x := by
  rw [← ht.flatMap_parts hsorted hlt g]
  refine flatMap_filter_eq fun i _ hempty => ?_
  have hnil : between f (t.keyBound n i) (t.keyBound n (i + 1)) xs = [] := by simpa using hempty
  rw [hnil, List.map_nil]

/-- The values of the replies to a `Pull`, in the order of the servers. -/
theorem flatMap_answer {keys : List ℕ} (hsorted : keys.Pairwise (· ≤ ·))
    (hlt : ∀ k ∈ keys, k < t.maxKey) (held : ℕ → ℕ → Val) :
    (((Call.pull keys : Call Val).asked t n).map
      ((Call.pull keys).answer t n held)).flatMap KVPairs.vals =
        keys.map fun k => held (t.owner k) k := by
  rw [List.flatMap_map]
  exact flatMap_asked ht (f := id) hsorted hlt held

/-- The callback of `PullChunks` after sorting. -/
theorem fillChunks_answer {ids : List ℕ} {chunks : List (List Val)}
    (horder : t.InOrder ids) (hlt : ∀ c ∈ ids, c < t.chunkNum)
    (hlen : ids.length = chunks.length) (held : ℕ → ℕ → Val) :
    fillChunks t.chunkSize t.chunkNum (((Call.pullChunks ids chunks).asked t n).map
        ((Call.pullChunks ids chunks).answer t n held)) 0 chunks =
      some (ids.map fun c => (chunkKeys t c).map (held (t.owner (c * t.chunkSize)))) := by
  have hsorted : ids.Pairwise fun a b => a * t.chunkSize ≤ b * t.chunkSize :=
    horder.imp fun h => Nat.mul_le_mul_right _ h.1
  have hbelow : ∀ c ∈ ids, c * t.chunkSize < t.maxKey := fun c hc => ht.chunk_lt (hlt c hc)
  have hasked : ∀ {α : Type} (g : ℕ → ℕ → α),
      ((Call.pullChunks ids chunks).asked t n).flatMap (fun i => (t.chunksOf n i ids).map (g i)) =
        ids.map fun c => g (t.owner (c * t.chunkSize)) c :=
    fun g => flatMap_asked ht hsorted hbelow g
  have hall := hasked fun _ c => c
  simp only [List.map_id'] at hall
  have hfill := fillChunks_eq t.chunkSize t.chunkNum (t.chunksOf n · ids)
    (fun i c => (chunkKeys t c).map (held i))
    ((Call.pullChunks ids chunks).asked t n) (fun i _ => (horder.imp And.right).filter _)
    (fun i _ c _ hlast => by
      rw [List.length_map, chunkKeys, List.length_range', RangeTable.realChunkSize, if_neg hlast])
    [] chunks (by rw [hall, hlen])
  rw [hall, List.nil_append, List.length_nil, hlen, List.drop_length, List.append_nil,
    List.nil_append, hasked fun i c => (chunkKeys t c).map (held i)] at hfill
  rw [← hfill]
  congr 2
  funext i
  simp [Call.answer, Call.touched, Call.part, List.map_flatMap]

/-- **The callback turns any order of the replies into the result.** -/
theorem run_callback {c : Call Val} (hc : c.FitsPull t) {cb : Callback Val}
    (hcb : c.callback = some cb) {held : ℕ → ℕ → Val} {recv : List (KVPairs Val)}
    (hperm : recv.Perm ((c.asked t n).map (c.answer t n held))) :
    cb.run t (.kvs recv) = some (c.result t held) := by
  have hsort := sortByFront_eq hperm (front_answer_lt t n held c)
  cases c with
  | pull keys =>
      obtain ⟨hsorted, hlt⟩ := hc
      obtain rfl : Callback.pull keys = cb := Option.some.inj hcb
      rw [Callback.run, hsort, flatMap_answer ht hsorted hlt]
      rfl
  | pullChunks ids chunks =>
      obtain ⟨hstrict, hlt, hlen⟩ := hc
      obtain rfl : Callback.pullChunks ids chunks = cb := Option.some.inj hcb
      rw [Callback.run, hsort, fillChunks_answer ht (t.inOrder_of_lt hstrict hlt) hlt hlen]
      simp only [Option.map_some, Call.result, Option.some.injEq, Dest.chunks.injEq]
      refine List.map_congr_left fun c hc => ?_
      rw [chunkKeys, ht.realChunkSize_eq (hlt c hc)]
  | push _ _ => exact hc.elim
  | pushChunks _ _ => exact hc.elim
  | pullChunksWithMinClock _ _ => exact hc.elim

omit ht in
/-- The loop that looks for the least clock. -/
theorem le_leastClock {α : Type} {f : α → ℤ} {recv : List α} {start x : ℤ} :
    x ≤ recv.foldl (fun m s => if f s < m then f s else m) start ↔
      x ≤ start ∧ ∀ s ∈ recv, x ≤ f s := by
  induction recv generalizing start with
  | nil => simp
  | cons s recv ih =>
      rw [List.foldl_cons, ih, List.forall_mem_cons]
      split
      · next hlt =>
          constructor
          · exact fun h => ⟨h.1.trans hlt.le, h.1, h.2⟩
          · exact fun h => ⟨h.2.1, h.2.2⟩
      · next hge =>
          constructor
          · exact fun h => ⟨h.1, h.1.trans (not_lt.mp hge), h.2⟩
          · exact fun h => ⟨h.1, h.2.2⟩

/-- **The callback of `PullChunksWithMinClock`** hands out the chunks as their owners hold them,
and the least clock of the replies. -/
theorem run_callback_clock {ids : List ℕ} {chunks : List (List Val)} (horder : t.InOrder ids)
    (hlt : ∀ c ∈ ids, c < t.chunkNum) (hlen : ids.length = chunks.length)
    {held : ℕ → ℕ → Val} {clock : ℕ → ℤ} {recv : List (KVPairs Val × ℤ)}
    (hperm : recv.Perm (((Call.pullChunksWithMinClock ids chunks).asked t n).map fun i =>
      ((Call.pullChunksWithMinClock ids chunks).answer t n held i, clock i))) :
    ∃ m, (Callback.pullChunksWithMinClock ids chunks).run t (.withMinClock recv) =
        some (.chunksWithMinClock
          (ids.map fun c => (chunkKeys t c).map (held (t.owner (c * t.chunkSize)))) m) ∧
      ∀ x, x ≤ m ↔ x ≤ 2 ^ 31 - 1 ∧
        ∀ i ∈ (Call.pullChunksWithMinClock ids chunks).asked t n, x ≤ clock i := by
  have hsorted : (((Call.pullChunksWithMinClock ids chunks).asked t n).map fun i =>
      ((Call.pullChunksWithMinClock ids chunks).answer t n held i, clock i)).Pairwise
        fun a b => front a.1 < front b.1 := by
    have := front_answer_lt t n held (Call.pullChunksWithMinClock ids chunks)
    rw [List.pairwise_map] at this ⊢
    exact this
  have hsort := sortByFront_eq (f := fun s : KVPairs Val × ℤ => front s.1) hperm hsorted
  have hfill := fillChunks_answer ht horder hlt hlen held
  set sorted := ((Call.pullChunksWithMinClock ids chunks).asked t n).map fun i =>
    ((Call.pullChunksWithMinClock ids chunks).answer t n held i, clock i) with hdef
  refine ⟨sorted.foldl (fun m s => if s.2 < m then s.2 else m) (2 ^ 31 - 1), ?_, fun x => ?_⟩
  · rw [Callback.run, hsort, hdef, List.map_map]
    exact congrArg (Option.map _) hfill
  · rw [le_leastClock, hdef]
    simp

end Callback

end FlexPS.KVStore
