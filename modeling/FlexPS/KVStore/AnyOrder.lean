import FlexPS.KVStore.CallAndWait

/-!
# A push of keys in any order

`Slice_` ends its slices by binary searches for the ends of the ranges.  On sorted keys the searches
find where the ranges end.  Keys in another order are cut as well, into consecutive slices, and
every server gets a slice; a key gets to its owner only by its place in the order.

## Main definitions

* `AnyOrder.keysOf` — the keys in the slice for a server.
* `AnyOrder.pushAndWait` — a push of such slices.
* `AnyOrder.keysOf_owner_iff` — when every key gets to its owner.
* `AnyOrder.pushAndWait_spec` — what the servers hold afterwards.
-/

namespace FlexPS.KVStore

open Lib

variable {Val : Type}

namespace AnyOrder

/-! ## The code -/

/-- The keys that `Slice_` puts into the slice of server `i`. -/
def keysOf (t : RangeTable) (keys : List ℕ) (i : ℕ) : List ℕ :=
  ((pieces (slicePositions keys t.serverKeyRanges))[i]?.map fun p => segment keys p.1 p.2).getD []

/-- `Push` and `Wait`. -/
def pushAndWait {S : ℕ × ℕ → Type} [∀ p, StorageT (S p) Val] [Add Val] (tables : ℕ → RangeTable)
    (src kvId : ℕ) (f : Flags) (servers : ∀ p, Server (S p) Val) (keys : List ℕ)
    (vals : List Val) : Option (∀ p, Server (S p) Val) := do
  let sliced := slice_ ⟨keys, vals⟩ (tables kvId).serverKeyRanges
  let (servers, _) ← exchange tables kvId servers (send_ src 0 true sliced f)
  some servers

/-! ## The slices -/

section Table

variable {t : RangeTable} {n : ℕ} (ht : t.Partitioned n)
include ht

theorem keysOf_eq (keys : List ℕ) {i : ℕ} (hi : i < n) : keysOf t keys i =
    segment keys (cuts (t.keyBound n) keys i) (cuts (t.keyBound n) keys (i + 1)) := by
  simp [keysOf, ht.pieces_slicePositions, hi]

/-- All keys are in some slice, in their order. -/
theorem flatMap_keysOf {keys : List ℕ} (hlt : ∀ k ∈ keys, k < t.maxKey) :
    (List.range n).flatMap (keysOf t keys) = keys := by
  have hfirst : cuts (t.keyBound n) keys 0 = 0 := by
    have hzero : below id keys (t.keyBound n 0) = 0 := by
      rw [RangeTable.Partitioned.keyBound_zero]
      exact below_eq_zero fun k _ => Nat.zero_le _
    rw [cuts, lowerBound_eq_below, hzero]
    rw [RangeTable.Partitioned.keyBound_zero]
    exact List.pairwise_of_forall fun _ _ h => absurd h (Nat.not_lt_zero _)
  have hlast : cuts (t.keyBound n) keys n = keys.length := by
    obtain ⟨m, rfl⟩ := Nat.exists_eq_add_one.mpr ht.numServers_pos
    have hall : ∀ k ∈ keys.drop (cuts (t.keyBound (m + 1)) keys m),
        id k < t.keyBound (m + 1) (m + 1) := by
      intro k hk
      rw [ht.keyBound_last]
      exact hlt k (List.mem_of_mem_drop hk)
    have hle := cuts_le_length (t.keyBound (m + 1)) keys m
    rw [cuts, lowerBound_eq_below, below_eq_length hall, List.length_drop]
    · omega
    · exact List.pairwise_of_forall_mem_list fun x hx y _ _ => hall x hx
  have hslices : (List.range n).flatMap (keysOf t keys) = (List.range n).flatMap fun i =>
      segment keys (cuts (t.keyBound n) keys i) (cuts (t.keyBound n) keys (i + 1)) :=
    List.flatMap_congr fun i hi => keysOf_eq ht keys (List.mem_range.mp hi)
  rw [hslices, flatMap_segment keys (cuts_mono _ _), hfirst, hlast, segment_all]

theorem mem_of_keysOf {keys : List ℕ} {i k : ℕ} (hi : i < n) (hk : k ∈ keysOf t keys i) :
    k ∈ keys := by
  rw [keysOf_eq ht keys hi] at hk
  exact List.mem_of_mem_drop (List.mem_of_mem_take hk)

/-- No key is in two slices. -/
theorem keysOf_unique {keys : List ℕ} (hlt : ∀ k ∈ keys, k < t.maxKey) (hnodup : keys.Nodup)
    {i j k : ℕ} (hi : i < n) (hj : j < n) (hki : k ∈ keysOf t keys i) (hkj : k ∈ keysOf t keys j) :
    i = j := by
  rw [← flatMap_keysOf ht hlt, List.nodup_flatMap] at hnodup
  have : Std.Symm (Function.onFun List.Disjoint (keysOf t keys)) := ⟨fun _ _ h => h.symm⟩
  by_contra hne
  exact hnodup.2.forall (List.mem_range.mpr hi) (List.mem_range.mpr hj) hne hki hkj

/-- A key lies below a bound if its owner does. -/
theorem owner_lt_iff {k i : ℕ} (hk : k < t.maxKey) : k < t.keyBound n i ↔ t.owner k < i := by
  obtain ⟨-, hlo, hhi⟩ := ht.owner_spec hk
  constructor
  · intro hlt
    by_contra hle
    have := t.keyBound_mono n (Nat.le_of_not_lt hle)
    omega
  · intro hlt
    exact hhi.trans_le (t.keyBound_mono n hlt)

/-- **Every key gets to its owner just if the owners of the keys come in order.** -/
theorem keysOf_owner_iff {keys : List ℕ} (hlt : ∀ k ∈ keys, k < t.maxKey) :
    (∀ i < n, ∀ k ∈ keysOf t keys i, t.owner k = i) ↔
      (keys.map t.owner).Pairwise (· ≤ ·) := by
  constructor
  · intro howner
    rw [← flatMap_keysOf ht hlt, List.pairwise_map, List.pairwise_flatMap]
    constructor
    · intro i hi
      have hsame := howner i (List.mem_range.mp hi)
      exact List.pairwise_of_forall_mem_list fun x hx y hy => by rw [hsame x hx, hsame y hy]
    · refine List.pairwise_lt_range.imp_of_mem fun hi hj hij x hx y hy => ?_
      rw [howner _ (List.mem_range.mp hi) x hx, howner _ (List.mem_range.mp hj) y hy]
      exact Nat.le_of_lt hij
  · intro hsorted i hi k hk
    have hsplit : ∀ i, keys.Pairwise fun x y => y < t.keyBound n i → x < t.keyBound n i := by
      intro i
      refine (List.pairwise_map.mp hsorted).imp_of_mem fun hx hy hle hy' => ?_
      rw [owner_lt_iff ht (hlt _ hx)]
      exact hle.trans_lt ((owner_lt_iff ht (hlt _ hy)).mp hy')
    rw [keysOf_eq ht keys hi, cuts_eq_below (t.keyBound_mono n) hsplit,
      cuts_eq_below (t.keyBound_mono n) hsplit] at hk
    -- The place of the key lies between the two bounds, so the key does.
    obtain ⟨j, hj⟩ := List.mem_iff_getElem?.mp hk
    rw [Lib.segment, List.getElem?_take, List.getElem?_drop] at hj
    split at hj
    · next hlen =>
        have hlo := mt (lt_below_iff (f := id) (hsplit i) hj).mpr (by omega)
        have hhi := (lt_below_iff (f := id) (hsplit (i + 1)) hj).mp (by omega)
        exact ht.owner_eq hi (Nat.le_of_not_lt hlo) hhi
    · cases hj

end Table

/-! ## The messages -/

/-- The entries in the slice of server `i`. -/
def entriesOf (t : RangeTable) (n : ℕ) (keys : List ℕ) (vals : List Val) (i : ℕ) :
    List (ℕ × Val) :=
  segment (keys.zip vals) (cuts (t.keyBound n) keys i) (cuts (t.keyBound n) keys (i + 1))

/-- The message for server `i`. -/
def message (t : RangeTable) (n src : ℕ) (f : Flags) (keys : List ℕ) (vals : List Val) (i : ℕ) :
    Option (Request Val) :=
  sliceMessage src 0 (f.cmd 0 false i) true f.sendAll (keysOf t keys i)
    (sliceBody true (f.zeroCopy i) ⟨keysOf t keys i,
      segment vals (cuts (t.keyBound n) keys i) (cuts (t.keyBound n) keys (i + 1))⟩)

section Messages

variable {t : RangeTable} {n : ℕ} (ht : t.Partitioned n) {keys : List ℕ} {vals : List Val}
  (hlen : keys.length = vals.length)
include ht hlen

theorem map_fst_entriesOf {i : ℕ} (hi : i < n) :
    (entriesOf t n keys vals i).map Prod.fst = keysOf t keys i := by
  rw [keysOf_eq ht keys hi, entriesOf, ← segment_zip, List.map_fst_zip]
  simp [Lib.segment, hlen]

theorem send_eq (src : ℕ) (f : Flags) :
    send_ src 0 true (slice_ ⟨keys, vals⟩ t.serverKeyRanges) f =
      (List.range n).map (message t n src f keys vals) := by
  rw [send_, slice_, ht.pieces_slicePositions, List.map_map, zipIdx_map_range, List.map_map]
  refine List.map_congr_left fun i hi => ?_
  have hkeys := keysOf_eq ht keys (List.mem_range.mp hi)
  have hflag := segment_isEmpty (cuts_mono (t.keyBound n) keys (Nat.le_succ i))
    (cuts_le_length (t.keyBound n) keys (i + 1))
  have hscale : ∀ j ≤ keys.length, j * (vals.length / keys.length) = j := by
    intro j hj
    rcases Nat.eq_zero_or_pos keys.length with hzero | hpos
    · obtain rfl : j = 0 := by omega
      exact Nat.zero_mul _
    · rw [← hlen, Nat.div_self hpos, Nat.mul_one]
  simp only [Function.comp_apply, message, sliceMessage, ← hflag, ← hkeys,
    hscale _ (cuts_le_length _ _ _)]
  cases (keysOf t keys i).isEmpty <;> rfl

/-- Every message carries the entries of its slice. -/
theorem isPushSlice_message (src : ℕ) (f : Flags) {i : ℕ} (hi : i < n) :
    IsPushSlice t (entriesOf t n keys vals i) (message t n src f keys vals i) := by
  have hkeys := keysOf_eq ht keys hi
  apply isPushSlice_sliceMessage (sliceBody_ne_nil _ _ _)
  · rw [cmd_keys]
    split <;> omega
  · intro hnil
    rw [← map_fst_entriesOf ht hlen hi] at hnil
    exact List.map_eq_nil_iff.mp hnil
  · have hle := cuts_le_length (t.keyBound n) keys (i + 1)
    rw [cmd_keys, decodePush_sliceBody, pairUp, hkeys, segment_zip, if_pos]
    · rfl
    · rw [length_segment hle, length_segment (hlen ▸ hle)]

end Messages

end AnyOrder

/-! ## What the servers hold -/

/-- There is no place in the container for a key of the store that its server does not own. -/
def StoreView.Rejects {S : Type} [StorageT S Val] {t : RangeTable} {i : ℕ} {isVector : Bool}
    (V : StoreView S Val t i isVector) : Prop :=
  ∀ s k v, V.Good s → k < t.maxKey → ¬ V.Owned k → StorageT.write s (wrap64 (k - V.interval)) v = none

theorem rejects_mapView [Zero Val] {t : RangeTable} (hkeys : t.maxKey < 2 ^ 64) (i : ℕ) :
    (mapView Val t i).Rejects :=
  fun _ _ _ _ hk hnot => absurd (hk.trans hkeys) hnot

theorem rejects_vecView [Zero Val] {t : RangeTable} (hkeys : t.maxKey < 2 ^ 64) (i : ℕ) (r : Range)
    (hr : t.serverKeyRanges[i]? = some r) (hbegin : r.begin_ < 2 ^ 31) (hend : r.end_ < 2 ^ 64) :
    (vecView t i r hr hbegin hend : StoreView (VecStore Val) Val t i true).Rejects := by
  intro s k v hs hk hnot
  have hlen : s.elems.length = r.end_ - r.begin_ := hs
  have hout : ¬ (r.begin_ ≤ k ∧ k < r.end_) := hnot
  refine if_neg ?_
  rw [hlen]
  simp only [vecView, wrap64]
  omega

section Rejects

variable {S : Type} [StorageT S Val] [Add Val] {t : RangeTable} {i : ℕ} {isVector : Bool}
  {V : StoreView S Val t i isVector} (hV : V.Rejects) {store : S} (hgood : V.Good store)
  {pairs : List (ℕ × Val)} (hlt : ∀ p ∈ pairs, p.1 < t.maxKey)
include hV hgood hlt

/-- What is written to a container belongs there. -/
theorem StoreView.owned_of_writeAll {store' : S}
    (h : writeAll true V.interval store pairs = some store') : ∀ p ∈ pairs, V.Owned p.1 := by
  induction pairs generalizing store with
  | nil => simp
  | cons p pairs ih =>
      obtain ⟨hp, hrest⟩ := List.forall_mem_cons.mp hlt
      by_cases howned : V.Owned p.1
      · obtain ⟨store₁, hwrite, hgood₁, -⟩ := V.write_eq p.2 hgood howned
        have hnext : writeAll true V.interval store₁ pairs = some store' := by
          simpa [writeAll, writeAt, hwrite] using h
        exact List.forall_mem_cons.mpr ⟨howned, ih hgood₁ hrest hnext⟩
      · rw [writeAll, writeAt, if_pos rfl, hV _ _ _ hgood hp howned] at h
        cases h

/-- A server that can handle a slice owns its keys. -/
theorem owned_of_receive {m : Option (Request Val)} (hm : IsPushSlice t pairs m) {kvId : ℕ}
    {r : Server S Val × List (Reply Val)}
    (h : (Server.default ⟨i, store, isVector, true⟩ : Server S Val).receive t kvId m = some r) :
    ∀ p ∈ pairs, V.Owned p.1 := by
  cases m with
  | none =>
      obtain rfl : pairs = [] := hm
      simp
  | some req =>
      obtain ⟨hpush, hcmd, ⟨-, rfl⟩ | ⟨hbody, hdecode⟩⟩ := hm
      · simp
      · have hinit : req.cmd % consistencyControlOffMagic ≠ 4 := by omega
        cases hwrite : writeAll true V.interval store pairs with
        | some store' => exact V.owned_of_writeAll hV hgood hlt hwrite
        | none =>
            have hupdate : update t i req.bin store (req.cmd % consistencyControlOffMagic) isVector
                true = none := by
              simp [update, hdecode, V.intervalOf_eq, hwrite]
            simp [Server.receive, Server.handle, DefaultUpdateServer.handle, hinit, serveDirect,
              hpush, applyPush, Request.entry, hbody, hupdate] at h

end Rejects

section Servers

variable {S : ℕ × ℕ → Type} [∀ p, StorageT (S p) Val] [Add Val] {tables : ℕ → RangeTable}
  {kvId n : ℕ}

/-- Where all messages are handled, each is. -/
theorem receive_of_exchange {servers : ∀ p, Server (S p) Val} {message : ℕ → Option (Request Val)}
    {r : (∀ p, Server (S p) Val) × List (Reply Val)}
    (h : exchange tables kvId servers ((List.range n).map message) = some r) :
    ∀ i < n, ∃ next, (servers (kvId, i)).receive (tables kvId) kvId (message i) = some next := by
  rw [exchange, zipIdx_map_range] at h
  suffices hall : (∀ i < n, ∃ next,
      (servers (kvId, i)).receive (tables kvId) kvId (message i) = some next) ∧
      ∀ i, n ≤ i → r.1 (kvId, i) = servers (kvId, i) from hall.1
  induction n generalizing r with
  | zero =>
      obtain rfl : (servers, []) = r := Option.some.inj h
      exact ⟨fun i hi => absurd hi (Nat.not_lt_zero i), fun _ _ => rfl⟩
  | succ n ih =>
      rw [List.range_succ, List.map_append, run_append] at h
      obtain ⟨r₁, hrun, h⟩ := Option.bind_eq_some_iff.mp h
      obtain ⟨r₂, hlast, h⟩ := Option.bind_eq_some_iff.mp h
      obtain ⟨hbefore, hsame⟩ := ih hrun
      rw [List.map_singleton, run_cons] at hlast
      obtain ⟨r₃, hdeliver, hlast⟩ := Option.bind_eq_some_iff.mp hlast
      obtain ⟨next, hreceive, hnext⟩ := Option.bind_eq_some_iff.mp hdeliver
      rw [hsame n le_rfl] at hreceive
      refine ⟨fun i hi => ?_, fun i hi => ?_⟩
      · rcases Nat.lt_succ_iff_lt_or_eq.mp hi with hi | rfl
        · exact hbefore i hi
        · exact ⟨next, hreceive⟩
      · obtain rfl := Option.some.inj hnext
        obtain rfl := Option.some.inj hlast
        obtain rfl := Option.some.inj h
        have hne : ((kvId, i) : ℕ × ℕ) ≠ (kvId, n) := by simp; omega
        rw [← hsame i (by omega)]
        exact Function.update_of_ne hne _ _

end Servers

namespace AnyOrder

section Servers

variable {S : ℕ × ℕ → Type} [∀ p, StorageT (S p) Val] [Add Val] {tables : ℕ → RangeTable}
  {kvId n : ℕ} {isVector : ℕ → Bool}
  (V : ∀ i, StoreView (S (kvId, i)) Val (tables kvId) i (isVector i))
  {servers : ∀ p, Server (S p) Val} (ht : (tables kvId).Partitioned n)
  (hs : AssignServers V n servers) {keys : List ℕ} {vals : List Val}
  (hlen : keys.length = vals.length)
include ht hs hlen

/-- A push of keys in any order is handled only if every server has a place for its slice. -/
theorem owned_of_pushAndWait (hV : ∀ i < n, (V i).Rejects)
    (hlt : ∀ k ∈ keys, k < (tables kvId).maxKey) {src : ℕ} {f : Flags}
    {servers' : ∀ p, Server (S p) Val}
    (h : pushAndWait tables src kvId f servers keys vals = some servers') :
    ∀ i < n, ∀ k ∈ keysOf (tables kvId) keys i, (V i).Owned k := by
  intro i hi k hk
  rw [pushAndWait, send_eq ht hlen] at h
  obtain ⟨r, hexchange, -⟩ := Option.bind_eq_some_iff.mp h
  obtain ⟨next, hnext⟩ := receive_of_exchange hexchange i hi
  rw [hs.server i hi] at hnext
  rw [← map_fst_entriesOf ht hlen hi] at hk
  obtain ⟨p, hp, rfl⟩ := List.mem_map.mp hk
  refine owned_of_receive (hV i hi) (hs.good i hi) (fun q hq => ?_)
    (isPushSlice_message ht hlen src f hi) hnext p hp
  exact hlt q.1 (List.of_mem_zip (List.mem_of_mem_drop (List.mem_of_mem_take hq))).1

/-- **What the servers hold after a push of keys in any order**: a key that is in the slice of its
owner is assigned, and any other keeps its value. -/
theorem pushAndWait_spec (hnodup : keys.Nodup)
    (howned : ∀ i < n, ∀ k ∈ keysOf (tables kvId) keys i, (V i).Owned k)
    (hown : ∀ i < n, ∀ k, (tables kvId).keyBound n i ≤ k → k < (tables kvId).keyBound n (i + 1) →
      (V i).Owned k) (src : ℕ) (f : Flags) :
    ∃ servers', pushAndWait tables src kvId f servers keys vals = some servers' ∧
      AssignServers V n servers' ∧
      (∀ p ∈ keys.zip vals, p.1 < (tables kvId).maxKey →
        p.1 ∈ keysOf (tables kvId) keys ((tables kvId).owner p.1) →
        stored V servers' p.1 = p.2) ∧
      ∀ k < (tables kvId).maxKey, k ∉ keysOf (tables kvId) keys ((tables kvId).owner k) →
        stored V servers' k = stored V servers k := by
  have hsub : ∀ {i p}, p ∈ entriesOf (tables kvId) n keys vals i → p ∈ keys.zip vals :=
    fun hp => List.mem_of_mem_drop (List.mem_of_mem_take hp)
  have hone : ∀ p ∈ keys.zip vals, ∀ q ∈ keys.zip vals, p.1 = q.1 → p = q := by
    have hfst : ((keys.zip vals).map Prod.fst).Nodup := by rwa [List.map_fst_zip hlen.le]
    exact fun p hp q hq => List.inj_on_of_nodup_map hfst hp hq
  obtain ⟨servers', out, hexchange, hs', hheld⟩ := exchange_push V hs
    (fun i hi p hp => howned i hi p.1 (map_fst_entriesOf ht hlen hi ▸ List.mem_map_of_mem hp))
    (fun _ _ p hp q hq hkey => congrArg Prod.snd (hone p (hsub hp) q (hsub hq) hkey))
    (fun i hi => isPushSlice_message ht hlen src f hi)
  refine ⟨servers', ?_, hs', fun p hp hkey hin => ?_, fun k hk hnot => ?_⟩
  · rw [pushAndWait, send_eq ht hlen, hexchange]
    rfl
  · have hn := (ht.owner_spec hkey).1
    rw [← map_fst_entriesOf ht hlen hn] at hin
    obtain ⟨q, hq, hqk⟩ := List.mem_map.mp hin
    obtain rfl := hone q (hsub hq) p hp hqk
    exact (hheld _ hn).1 q hq
  · obtain ⟨hn, hlo, hhi⟩ := ht.owner_spec hk
    rw [← map_fst_entriesOf ht hlen hn] at hnot
    exact (hheld _ hn).2 k (hown _ hn k hlo hhi) hnot

end Servers

end AnyOrder

end FlexPS.KVStore
