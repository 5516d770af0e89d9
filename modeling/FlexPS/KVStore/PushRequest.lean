import FlexPS.KVStore.Exchange

/-!
# The slices of a push

On a table cut at the chunk bounds a valid `Push` or `PushChunks` sends every server the
entries of the request that lie in its range, and an assign server that handles its slice
holds these entries afterwards.

## Main definitions

* `Call.ValidPush` — what a caller of `Push` and `PushChunks` has to respect.
* `Call.entries`, `Call.entriesOf` — what a call writes, and what of it a server gets.
* `slices_push`, `isPushSlice_pushMessage` — the messages of a valid push.
* `receive_push` — what a slice does to an assign server.
-/

namespace FlexPS.KVStore

open Lib

variable {Val : Type}

namespace Call

/-- Keys or chunk ids are strictly increasing, in range, and there is at least one; every
key has a value and every chunk all values of the chunk. -/
def ValidPush (t : RangeTable) : Call Val → Prop
  | push keys vals => keys ≠ [] ∧ keys.Pairwise (· < ·) ∧ (∀ k ∈ keys, k < t.maxKey) ∧
      keys.length = vals.length
  | pushChunks chunkIds chunks =>
      chunkIds ≠ [] ∧ chunkIds.Pairwise (· < ·) ∧ (∀ c ∈ chunkIds, c < t.chunkNum) ∧
        chunkIds.length = chunks.length ∧
        ∀ p ∈ chunkIds.zip chunks, p.2.length =
          min ((p.1 + 1) * t.chunkSize) t.maxKey - p.1 * t.chunkSize
  | _ => False

/-- What a server can make sense of: the keys or chunk ids are strictly increasing and in range,
every key has a value, and no chunk is longer than it should be.  A chunk that is shorter writes
what it has. -/
def FitsPush (t : RangeTable) : Call Val → Prop
  | push keys vals => keys.Pairwise (· < ·) ∧ (∀ k ∈ keys, k < t.maxKey) ∧ keys.length = vals.length
  | pushChunks chunkIds chunks =>
      chunkIds.Pairwise (· < ·) ∧ (∀ c ∈ chunkIds, c < t.chunkNum) ∧
        chunkIds.length = chunks.length ∧
        ∀ p ∈ chunkIds.zip chunks, p.2.length ≤
          min ((p.1 + 1) * t.chunkSize) t.maxKey - p.1 * t.chunkSize
  | _ => False

theorem ValidPush.fits {t : RangeTable} {c : Call Val} (hc : c.ValidPush t) : c.FitsPush t := by
  cases c with
  | push keys vals => exact hc.2
  | pushChunks ids chunks =>
      obtain ⟨-, hstrict, hlt, hlen, hfull⟩ := hc
      exact ⟨hstrict, hlt, hlen, fun p hp => (hfull p hp).le⟩
  | pull _ => exact hc.elim
  | pullChunks _ _ => exact hc.elim
  | pullChunksWithMinClock _ _ => exact hc.elim

/-- A push registers no callback. -/
theorem FitsPush.callback {t : RangeTable} {c : Call Val} (hc : c.FitsPush t) :
    c.callback = none := by
  cases c with
  | push keys vals => rfl
  | pushChunks ids chunks => rfl
  | pull _ => exact hc.elim
  | pullChunks _ _ => exact hc.elim
  | pullChunksWithMinClock _ _ => exact hc.elim

/-- The entries a push writes. -/
def entries (t : RangeTable) : Call Val → List (ℕ × Val)
  | push keys vals => keys.zip vals
  | pushChunks chunkIds chunks => (chunkIds.zip chunks).flatMap (chunkPairs t.chunkSize)
  | _ => []

/-- The entries that server `i` gets. -/
def entriesOf (t : RangeTable) (n i : ℕ) : Call Val → List (ℕ × Val)
  | push keys vals =>
      between (fun p => id p.1) (t.keyBound n i) (t.keyBound n (i + 1)) (keys.zip vals)
  | pushChunks chunkIds chunks =>
      (between (fun p => p.1 * t.chunkSize) (t.keyBound n i) (t.keyBound n (i + 1))
        (chunkIds.zip chunks)).flatMap (chunkPairs t.chunkSize)
  | _ => []

/-- The message of a `Push` or `PushChunks` for server `i`. -/
def pushMessage (t : RangeTable) (n src ts : ℕ) (f : Flags) : Call Val → ℕ → Option (Request Val)
  | push keys vals, i =>
      sliceMessage src ts (f.cmd 0 false i) true f.sendAll (t.keysOf n i keys)
        (sliceBody true (f.zeroCopy i) ⟨t.keysOf n i keys, t.valsOf n i ⟨keys, vals⟩⟩)
  | pushChunks chunkIds chunks, i =>
      sliceMessage src ts (f.cmd 1 false i) true f.sendAll (t.chunksOf n i chunkIds)
        (chunkBody true (f.zeroCopy i) (t.chunksOf n i chunkIds)
          (t.chunkValsOf n i chunkIds chunks))
  | _, _ => none

end Call

/-! ## Messages -/

/-- The messages of a valid push. -/
theorem slices_push {t : RangeTable} {n : ℕ} (ht : t.Partitioned n) (src : ℕ) (f : Flags)
    {c : Call Val} (hc : c.FitsPush t) :
    c.slices t src f = some ((c.asked t n).length, fun ts =>
      some ((List.range n).map (c.pushMessage t n src ts f))) := by
  cases c with
  | push keys vals =>
      obtain ⟨hstrict, -⟩ := hc
      have hsorted : keys.Pairwise (· ≤ ·) := hstrict.imp fun h => Nat.le_of_lt h
      simp only [Call.slices, countP_slice ht ⟨keys, vals⟩ hsorted,
        send_slice ht src _ true f ⟨keys, vals⟩ hsorted]
      rfl
  | pushChunks chunkIds chunks =>
      obtain ⟨hstrict, hlt, hlen, -⟩ := hc
      have hsorted : chunkIds.Pairwise (· ≤ ·) := hstrict.imp fun h => Nat.le_of_lt h
      simp only [Call.slices, hlen, ne_eq, not_true_eq_false, if_false,
        ht.partitionChunks_eq hsorted hlt, Option.bind_eq_bind, Option.bind_some,
        waitNum_partition hsorted, sendChunks_partition _ _ _ _ false (by simp) _ hsorted]
      rfl
  | pull _ => exact hc.elim
  | pullChunks _ _ => exact hc.elim
  | pullChunksWithMinClock _ _ => exact hc.elim

/-- A message that carries some entries: nothing or an empty body for no entries, and a body
that decodes to them otherwise. -/
def IsPushSlice (t : RangeTable) (pairs : List (ℕ × Val)) : Option (Request Val) → Prop
  | none => pairs = []
  | some r => r.push = true ∧ r.cmd % consistencyControlOffMagic ≤ 3 ∧
      ((r.bin = [] ∧ pairs = []) ∨
        (r.bin ≠ [] ∧ decodePush t (r.cmd % consistencyControlOffMagic) r.bin = some pairs))

theorem isPushSlice_sliceMessage {t : RangeTable} {src ts cmd : ℕ} {sendAll : Bool}
    {part : List ℕ} {pairs : List (ℕ × Val)} {body : BinStream Val} (hbody : body ≠ [])
    (hcmd : cmd % consistencyControlOffMagic ≤ 3) (hempty : part = [] → pairs = [])
    (hdecode : decodePush t (cmd % consistencyControlOffMagic) body = some pairs) :
    IsPushSlice t pairs (sliceMessage src ts cmd true sendAll part body) := by
  cases part with
  | nil => cases sendAll <;> simp [sliceMessage, IsPushSlice, hcmd, hempty]
  | cons k ks => simp [sliceMessage, IsPushSlice, hcmd, hbody, hdecode]

/-- Every encoding of the part of a `Push` carries the entries of its server. -/
theorem decodePush_push {t : RangeTable} (n i : ℕ) (zeroCopy : Bool) {keys : List ℕ}
    {vals : List Val} (hsorted : keys.Pairwise (· ≤ ·)) (hlen : keys.length = vals.length) :
    decodePush t (if zeroCopy then 2 else 0)
        (sliceBody true zeroCopy ⟨t.keysOf n i keys, t.valsOf n i ⟨keys, vals⟩⟩) =
      some ((Call.push keys vals).entriesOf t n i) := by
  have hbounds := t.keyBound_mono n (Nat.le_succ i)
  have hsorted' : keys.Pairwise fun x y => id x ≤ id y := hsorted
  rw [decodePush_sliceBody]
  by_cases hne : keys = []
  · obtain rfl : vals = [] := List.eq_nil_of_length_eq_zero (by rw [← hlen, hne]; rfl)
    subst hne
    rfl
  · have hk : vals.length / keys.length = 1 := by
      rw [← hlen]
      exact Nat.div_self (List.length_pos_of_ne_nil hne)
    have hzip : (t.keysOf n i keys).zip (t.valsOf n i ⟨keys, vals⟩) =
        Call.entriesOf t n i (.push keys vals) := by
      simp only [RangeTable.valsOf, hk, Nat.mul_one]
      exact between_zip_segment hlen.le hsorted' hbounds
    have hlength : (t.keysOf n i keys).length = (t.valsOf n i ⟨keys, vals⟩).length := by
      rw [RangeTable.keysOf, ← segment_below hsorted' hbounds]
      simp only [RangeTable.valsOf, hk, Nat.mul_one]
      rw [length_segment (below_le_length _ _),
        length_segment ((below_le_length _ _).trans hlen.le)]
    rw [pairUp, if_pos hlength.le, hzip]

/-- Every encoding of the part of a `PushChunks` carries the entries of its server. -/
theorem decodePush_pushChunks {t : RangeTable} (n i : ℕ) (zeroCopy : Bool) {chunkIds : List ℕ}
    {chunks : List (List Val)} (hsorted : chunkIds.Pairwise (· ≤ ·))
    (hlen : chunkIds.length = chunks.length) :
    decodePush t (if zeroCopy then 3 else 1) (chunkBody true zeroCopy (t.chunksOf n i chunkIds)
        (t.chunkValsOf n i chunkIds chunks)) =
      some ((Call.pushChunks chunkIds chunks).entriesOf t n i) := by
  have hbounds := t.keyBound_mono n (Nat.le_succ i)
  have hscaled : chunkIds.Pairwise fun x y => x * t.chunkSize ≤ y * t.chunkSize :=
    hsorted.imp fun h => Nat.mul_le_mul_right _ h
  have hzip := between_zip_segment hlen.le hscaled hbounds
  have hlength : (t.chunksOf n i chunkIds).length =
      (t.chunkValsOf n i chunkIds chunks).length := by
    rw [RangeTable.chunksOf, ← segment_below hscaled hbounds, RangeTable.chunkValsOf,
      length_segment (below_le_length _ _), length_segment ((below_le_length _ _).trans hlen.le)]
  rw [decodePush_chunkBody t _ hlength, Call.entriesOf, ← hzip]
  rfl

/-- A server without a part of a push gets no entries. -/
theorem entriesOf_eq_nil {t : RangeTable} {n i : ℕ} {c : Call Val} (hpart : c.part t n i = []) :
    c.entriesOf t n i = [] := by
  have hnone : ∀ {α : Type} {f : ℕ → ℕ} {xs : List ℕ} {ys : List α},
      between f (t.keyBound n i) (t.keyBound n (i + 1)) xs = [] →
      between (fun p => f p.1) (t.keyBound n i) (t.keyBound n (i + 1)) (xs.zip ys) = [] := by
    intro α f xs ys hnil
    rw [List.eq_nil_iff_forall_not_mem]
    intro p hp
    obtain ⟨hmem, hbounds⟩ := mem_between.mp hp
    have hx := mem_between.mpr ⟨(List.of_mem_zip hmem).1, hbounds⟩
    rw [hnil] at hx
    cases hx
  cases c with
  | push keys vals => exact hnone hpart
  | pushChunks chunkIds chunks =>
      have hnil : between (fun p => p.1 * t.chunkSize) (t.keyBound n i) (t.keyBound n (i + 1))
          (chunkIds.zip chunks) = [] := hnone hpart
      rw [Call.entriesOf, hnil, List.flatMap_nil]
  | pull _ => rfl
  | pullChunks _ _ => rfl
  | pullChunksWithMinClock _ _ => rfl

/-- Every message of a push carries its server's entries. -/
theorem isPushSlice_pushMessage {t : RangeTable} (n src ts : ℕ) (f : Flags) {c : Call Val}
    (hc : c.FitsPush t) (i : ℕ) :
    IsPushSlice t (c.entriesOf t n i) (c.pushMessage t n src ts f i) := by
  cases c with
  | push keys vals =>
      obtain ⟨hstrict, -, hlen⟩ := hc
      apply isPushSlice_sliceMessage (sliceBody_ne_nil _ _ _)
      · rw [cmd_keys]
        split <;> omega
      · exact fun hpart => entriesOf_eq_nil hpart
      · rw [cmd_keys]
        exact decodePush_push n i _ (hstrict.imp fun h => Nat.le_of_lt h) hlen
  | pushChunks chunkIds chunks =>
      obtain ⟨hstrict, -, hlen, -⟩ := hc
      apply isPushSlice_sliceMessage (chunkBody_ne_nil _ _ _ _)
      · rw [cmd_chunks]
        split <;> omega
      · exact fun hpart => entriesOf_eq_nil hpart
      · rw [cmd_chunks]
        exact decodePush_pushChunks n i _ (hstrict.imp fun h => Nat.le_of_lt h) hlen
  | pull _ => exact hc.elim
  | pullChunks _ _ => exact hc.elim
  | pullChunksWithMinClock _ _ => exact hc.elim

/-! ## Entries -/

/-- A pair of a zip with strictly increasing keys is known by its key. -/
theorem zip_inj {α : Type} {keys : List ℕ} {vals : List α} (hstrict : keys.Pairwise (· < ·))
    (hlen : keys.length = vals.length) {p q : ℕ × α} (hp : p ∈ keys.zip vals)
    (hq : q ∈ keys.zip vals) (hkey : p.1 = q.1) : p = q := by
  have hfst : ((keys.zip vals).map Prod.fst).Nodup := by
    rw [List.map_fst_zip hlen.le]
    exact hstrict.imp fun h => Nat.ne_of_lt h
  exact List.inj_on_of_nodup_map hfst hp hq hkey

theorem mem_chunkPairs {chunkSize : ℕ} {x : ℕ × List Val} {p : ℕ × Val} :
    p ∈ chunkPairs chunkSize x ↔ ∃ j, x.2[j]? = some p.2 ∧ p.1 = x.1 * chunkSize + j := by
  constructor
  · intro hp
    obtain ⟨j, hj, rfl⟩ := List.mem_iff_getElem.mp hp
    have hlt : j < x.2.length := by simpa [chunkPairs] using hj
    exact ⟨j, by simp [chunkPairs, hlt], by simp [chunkPairs]⟩
  · rintro ⟨j, hval, hkey⟩
    obtain ⟨hlt, hval⟩ := List.getElem?_eq_some_iff.mp hval
    rw [List.mem_iff_getElem]
    refine ⟨j, by simpa [chunkPairs] using hlt, ?_⟩
    apply Prod.ext
    · simp [chunkPairs, hkey]
    · simpa [chunkPairs] using hval

section Entries

variable {t : RangeTable} {n : ℕ} (ht : t.Partitioned n)
include ht

/-- A key lies in the range of its owner. -/
theorem RangeTable.Partitioned.owner_spec {k : ℕ} (hk : k < t.maxKey) :
    t.owner k < n ∧ t.keyBound n (t.owner k) ≤ k ∧ k < t.keyBound n (t.owner k + 1) := by
  have hpart : t.owner k < n ∧
      between id (t.keyBound n (t.owner k)) (t.keyBound n (t.owner k + 1)) [k] ≠ [] :=
    (ht.between_ne_nil_iff (f := id) (by simp) (by simpa using hk) (t.owner k)).mpr ⟨k, by simp, rfl⟩
  obtain ⟨x, hx⟩ := List.exists_mem_of_ne_nil _ hpart.2
  obtain ⟨hmem, hlo, hhi⟩ := mem_between.mp hx
  obtain rfl : x = k := by simpa using hmem
  exact ⟨hpart.1, hlo, hhi⟩

/-- The keys a chunk of a push writes are keys of that chunk. -/
theorem chunkPairs_key {ids : List ℕ} {chunks : List (List Val)}
    (hc : (Call.pushChunks ids chunks).FitsPush t) {x : ℕ × List Val} (hx : x ∈ ids.zip chunks)
    {p : ℕ × Val} (hp : p ∈ chunkPairs t.chunkSize x) : p.1 ∈ chunkKeys t x.1 := by
  obtain ⟨-, hlt, -, hfull⟩ := hc
  obtain ⟨j, hval, hkey⟩ := mem_chunkPairs.mp hp
  obtain ⟨hj, -⟩ := List.getElem?_eq_some_iff.mp hval
  have hle := hfull x hx
  rw [← ht.realChunkSize_eq (hlt x.1 (List.of_mem_zip hx).1)] at hle
  rw [chunkKeys, List.mem_range'_1]
  omega

/-- The keys of a chunk have the owner of the chunk. -/
theorem owner_chunkKeys {ids : List ℕ} (hlt : ∀ c ∈ ids, c < t.chunkNum) {c : ℕ} (hc : c ∈ ids)
    {k : ℕ} (hk : k ∈ chunkKeys t c) : t.owner k = t.owner (c * t.chunkSize) := by
  obtain ⟨hn, hlo, hhi⟩ := ht.owner_spec (ht.chunk_lt (hlt c hc))
  have hin : c ∈ t.chunksOf n (t.owner (c * t.chunkSize)) ids := mem_between.mpr ⟨hc, hlo, hhi⟩
  obtain ⟨hlo', hhi'⟩ := chunkKeys_bounds ht hlt hin hk
  exact ht.owner_eq hn hlo' hhi'

/-- A server gets entries of its own range only. -/
theorem entriesOf_bounds {c : Call Val} (hc : c.FitsPush t) {i : ℕ} {p : ℕ × Val}
    (hp : p ∈ c.entriesOf t n i) : t.keyBound n i ≤ p.1 ∧ p.1 < t.keyBound n (i + 1) := by
  cases c with
  | push keys vals => exact (mem_between.mp hp).2
  | pushChunks ids chunks =>
      obtain ⟨x, hx, hp⟩ := List.mem_flatMap.mp hp
      obtain ⟨hmem, hlo, hhi⟩ := mem_between.mp hx
      have hin : x.1 ∈ t.chunksOf n i ids := mem_between.mpr ⟨(List.of_mem_zip hmem).1, hlo, hhi⟩
      exact chunkKeys_bounds ht hc.2.1 hin (chunkPairs_key ht hc hmem hp)
  | pull _ => exact hc.elim
  | pullChunks _ _ => exact hc.elim
  | pullChunksWithMinClock _ _ => exact hc.elim

/-- The owner of an entry's key gets the entry. -/
theorem mem_entriesOf_owner {c : Call Val} (hc : c.FitsPush t) {p : ℕ × Val}
    (hp : p ∈ c.entries t) : t.owner p.1 < n ∧ p ∈ c.entriesOf t n (t.owner p.1) := by
  cases c with
  | push keys vals =>
      obtain ⟨-, hlt, -⟩ := hc
      obtain ⟨hn, hlo, hhi⟩ := ht.owner_spec (hlt p.1 (List.of_mem_zip hp).1)
      exact ⟨hn, mem_between.mpr ⟨hp, hlo, hhi⟩⟩
  | pushChunks ids chunks =>
      obtain ⟨x, hx, hpx⟩ := List.mem_flatMap.mp hp
      have hlt := hc.2.1
      have hid := (List.of_mem_zip hx).1
      obtain ⟨hn, hlo, hhi⟩ := ht.owner_spec (ht.chunk_lt (hlt x.1 hid))
      rw [owner_chunkKeys ht hlt hid (chunkPairs_key ht hc hx hpx)]
      exact ⟨hn, List.mem_flatMap.mpr ⟨x, mem_between.mpr ⟨hx, hlo, hhi⟩, hpx⟩⟩
  | pull _ => exact hc.elim
  | pullChunks _ _ => exact hc.elim
  | pullChunksWithMinClock _ _ => exact hc.elim

omit ht in
theorem mem_entries_of_entriesOf {c : Call Val} {i : ℕ} {p : ℕ × Val}
    (hp : p ∈ c.entriesOf t n i) : p ∈ c.entries t := by
  cases c with
  | push keys vals => exact (mem_between.mp hp).1
  | pushChunks ids chunks =>
      obtain ⟨x, hx, hp⟩ := List.mem_flatMap.mp hp
      exact List.mem_flatMap.mpr ⟨x, (mem_between.mp hx).1, hp⟩
  | pull _ => cases hp
  | pullChunks _ _ => cases hp
  | pullChunksWithMinClock _ _ => cases hp

/-- No two entries of a push differ on a key. -/
theorem entries_one {c : Call Val} (hc : c.FitsPush t) :
    ∀ p ∈ c.entries t, ∀ q ∈ c.entries t, p.1 = q.1 → p.2 = q.2 := by
  cases c with
  | push keys vals =>
      obtain ⟨hstrict, -, hlen⟩ := hc
      intro p hp q hq hkey
      rw [zip_inj hstrict hlen hp hq hkey]
  | pushChunks ids chunks =>
      intro p hp q hq hkey
      obtain ⟨x, hx, hpx⟩ := List.mem_flatMap.mp hp
      obtain ⟨y, hy, hqy⟩ := List.mem_flatMap.mp hq
      obtain ⟨hstrict, -, hlen, hfull⟩ := hc
      obtain ⟨j, hval, hj⟩ := mem_chunkPairs.mp hpx
      obtain ⟨l, hval', hl⟩ := mem_chunkPairs.mp hqy
      -- A key determines its chunk and its place in the chunk.
      have hsmall : ∀ {x : ℕ × List Val} {j : ℕ} {v : Val}, x ∈ ids.zip chunks → x.2[j]? = some v →
          j < t.chunkSize := by
        intro x j v hx hval
        obtain ⟨hlt, -⟩ := List.getElem?_eq_some_iff.mp hval
        have hle := hfull x hx
        rw [Nat.add_mul, Nat.one_mul] at hle
        omega
      have h₁ := hsmall hx hval
      have h₂ := hsmall hy hval'
      have hpos := ht.chunkSize_pos
      have hdiv : ∀ {a j : ℕ}, j < t.chunkSize → (a * t.chunkSize + j) / t.chunkSize = a := by
        intro a j hj
        rw [Nat.add_comm, Nat.add_mul_div_right _ _ hpos, Nat.div_eq_of_lt hj, Nat.zero_add]
      have hchunk : x.1 = y.1 := by
        rw [← hdiv (a := x.1) h₁, ← hdiv (a := y.1) h₂, ← hj, ← hl, hkey]
      obtain rfl : x = y := zip_inj hstrict hlen hx hy hchunk
      obtain rfl : j = l := by omega
      exact Option.some.inj (hval.symm.trans hval')
  | pull _ => exact hc.elim
  | pullChunks _ _ => exact hc.elim
  | pullChunksWithMinClock _ _ => exact hc.elim

end Entries

/-! ## Handling a slice -/

section Handle

variable {S : Type} [StorageT S Val] [Add Val] {t : RangeTable} {i : ℕ} {isVector : Bool}
  (V : StoreView S Val t i isVector)

/-- **An assign server that handled its slice of a push holds the entries**, and otherwise what it
held before. -/
theorem receive_push {store : S} (hgood : V.Good store) {pairs : List (ℕ × Val)}
    (howned : ∀ p ∈ pairs, V.Owned p.1) (hone : ∀ p ∈ pairs, ∀ q ∈ pairs, p.1 = q.1 → p.2 = q.2)
    {m : Option (Request Val)} (hm : IsPushSlice t pairs m) (kvId : ℕ) :
    ∃ store' out, (Server.default ⟨i, store, isVector, true⟩ : Server S Val).receive t kvId m =
        some (.default ⟨i, store', isVector, true⟩, out) ∧
      V.Good store' ∧ (∀ p ∈ pairs, V.view store' p.1 = p.2) ∧
      ∀ j, V.Owned j → j ∉ pairs.map Prod.fst → V.view store' j = V.view store j := by
  cases m with
  | none =>
      obtain rfl : pairs = [] := hm
      exact ⟨store, [], rfl, hgood, by simp, fun _ _ _ => rfl⟩
  | some r =>
      obtain ⟨hpush, hcmd, hbin⟩ := hm
      have hinit : r.cmd % consistencyControlOffMagic ≠ 4 := by omega
      rcases hbin with ⟨hempty, rfl⟩ | ⟨hbody, hdecode⟩
      · refine ⟨store, [], ?_, hgood, by simp, fun _ _ _ => rfl⟩
        simp [Server.receive, Server.handle, DefaultUpdateServer.handle, hinit, serveDirect, hpush,
          applyPush, Request.entry, hempty]
      · obtain ⟨store', hupdate, hgood', hview, hrest⟩ := V.update_assign hgood ⟨hdecode, howned⟩ hone
        refine ⟨store', [pushReply kvId ⟨r.cmd % consistencyControlOffMagic, r.src, r.ts, r.bin⟩],
          ?_, hgood', hview, hrest⟩
        simp [Server.receive, Server.handle, DefaultUpdateServer.handle, hinit, serveDirect, hpush,
          applyPush, Request.entry, hbody, hupdate, pushReply]

/-- **A server answers its slice of a pull with what it holds**, and keeps holding it. -/
theorem receive_pull {store : S} (hgood : V.Good store) (isAssign : Bool) {c : Call Val}
    {part : List ℕ} (howned : ∀ k ∈ c.touched t part, V.Owned k) {src ts : ℕ}
    {m : Option (Request Val)} (hm : IsSlice t src ts c part m) (kvId : ℕ) :
    ∃ store' out, (Server.default ⟨i, store, isVector, isAssign⟩ : Server S Val).receive t kvId m =
        some (.default ⟨i, store', isVector, isAssign⟩, out) ∧
      V.Good store' ∧ (∀ j, V.Owned j → V.view store' j = V.view store j) ∧
      (part = [] → out = []) ∧
      (part ≠ [] → ∃ cmd ≤ 3, out = [{ kvId, ts, cmd, push := false, src
                                       res := ⟨part, (c.touched t part).map (V.view store)⟩ }]) := by
  cases m with
  | none => exact ⟨store, [], rfl, hgood, fun _ _ => rfl, fun _ => rfl, fun hne => absurd hm hne⟩
  | some r =>
      obtain ⟨hts, hsrc, hpush, hbin, hcmd, hdecode⟩ := hm
      have hinit : r.cmd % consistencyControlOffMagic ≠ 4 := by omega
      by_cases hpart : part = []
      · refine ⟨store, [], ?_, hgood, fun _ _ => rfl, fun _ => rfl, fun hne => absurd hpart hne⟩
        simp [Server.receive, Server.handle, DefaultUpdateServer.handle, hinit, serveDirect, hpush,
          answerPull, answerPullAs, Request.entry, hbin.mpr hpart]
      · have hbody : r.bin ≠ [] := fun hnil => hpart (hbin.mp hnil)
        obtain ⟨store', hretrieve, hgood', hview⟩ := V.retrieve_eq hgood ⟨hdecode hpart, howned⟩
        refine ⟨store', _, ?_, hgood', hview, fun hnil => absurd hnil hpart, fun _ =>
          ⟨r.cmd % consistencyControlOffMagic, hcmd, rfl⟩⟩
        simp [Server.receive, Server.handle, DefaultUpdateServer.handle, hinit, serveDirect, hpush,
          answerPull, answerPullAs, Request.entry, hbody, hretrieve, hts, hsrc]

end Handle

end FlexPS.KVStore
