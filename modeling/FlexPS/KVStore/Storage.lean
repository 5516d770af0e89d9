import FlexPS.KVStore.Wire
import Mathlib.Algebra.BigOperators.Group.List.Basic
import Mathlib.Algebra.Group.Basic

/-!
# The store of a server: `update` and `retrieve`

A server is generic in the container that holds its parameters; all it uses of it is
`operator[]`.  `MapStore` is `std::unordered_map`, where reading a missing key inserts
a zero, and `VecStore` is `std::vector`, where an index past the end is undefined.

A push body is decoded into the pairs it writes and a pull body into the keys it
reads, once per command; the loops over them are shared.

## Main definitions

* `StorageT`, `MapStore`, `VecStore` — the containers.
* `decodePush`, `decodePull` — the commands' encodings.
* `update`, `retrieve` — the two functions of `handles/basic.hpp`.
* `StoreView` — a container seen as a function from the keys a server owns.
* `update_add`, `retrieve_eq` — what the two functions do to that function.
-/

namespace FlexPS.KVStore

open Lib

variable {S Val : Type}

/-- `operator[]` of the storage type of a server. -/
class StorageT (S : Type) (Val : outParam Type) where
  /-- `store[i]` as a value; the container may insert a default entry. -/
  read : S → ℕ → Option (Val × S)
  /-- `store[i] = v`. -/
  write : S → ℕ → Val → Option S

/-- `std::unordered_map<Key, Val>`. -/
structure MapStore (Val : Type) where
  entries : ℕ → Option Val

/-- `std::vector<Val>`. -/
structure VecStore (Val : Type) where
  elems : List Val
  deriving DecidableEq, Repr

/-- Insert or overwrite an entry. -/
def MapStore.insert (m : MapStore Val) (i : ℕ) (v : Val) : MapStore Val :=
  ⟨Function.update m.entries i (some v)⟩

/-- The value of a key, zero where there is no entry. -/
def MapStore.get [Zero Val] (m : MapStore Val) (i : ℕ) : Val := (m.entries i).getD 0

instance [Zero Val] : StorageT (MapStore Val) Val where
  read m i := some (m.get i, m.insert i (m.get i))
  write m i v := some (m.insert i v)

instance : StorageT (VecStore Val) Val where
  read v i := v.elems[i]?.map fun x => (x, v)
  write v i x := if i < v.elems.length then some ⟨v.elems.set i x⟩ else none

theorem MapStore.get_insert [Zero Val] (m : MapStore Val) (i j : ℕ) (v : Val) :
    (m.insert i v).get j = if j = i then v else m.get j := by
  by_cases h : j = i
  · subst h
    simp [MapStore.get, MapStore.insert]
  · simp [MapStore.get, MapStore.insert, h]

section Code

variable [StorageT S Val] [Add Val]

/-- `store[i] = v` on an assign server, `store[i] += v` on an add server. -/
def writeAt (isAssign : Bool) (s : S) (i : ℕ) (v : Val) : Option S :=
  if isAssign then StorageT.write s i v
  else do
    let (old, s) ← StorageT.read s i
    StorageT.write s i (old + v)

/-- The loop of `update` over the written entries. -/
def writeAll (isAssign : Bool) (interval : ℤ) : S → List (ℕ × Val) → Option S
  | s, [] => some s
  | s, (k, v) :: rest => do
      let s ← writeAt isAssign s (wrap64 (k - interval)) v
      writeAll isAssign interval s rest

/-- The loop of `retrieve` over the read entries. -/
def readAll (interval : ℤ) : S → List ℕ → Option (List Val × S)
  | s, [] => some ([], s)
  | s, k :: rest => do
      let (v, s) ← StorageT.read s (wrap64 (k - interval))
      let (vs, s) ← readAll interval s rest
      some (v :: vs, s)

end Code

/-- Pair two vectors of which the second is indexed by the positions of the first. -/
def pairUp {α β : Type} (xs : List α) (ys : List β) : Option (List (α × β)) :=
  if xs.length ≤ ys.length then some (xs.zip ys) else none

/-- The entries a chunk writes, from `chunk_id * chunk_size` on. -/
def chunkPairs (chunkSize : ℕ) (p : ℕ × List Val) : List (ℕ × Val) :=
  (List.range' (p.1 * chunkSize) p.2.length).zip p.2

/-- The entries a push body writes, by command. -/
def decodePush (t : RangeTable) : ℕ → BinStream Val → Option (List (ℕ × Val))
  | 0, bin => do
      let (keys, bin) ← Cell.words.get bin
      let (vals, _) ← Cell.vals.get bin
      pairUp keys vals
  | 1, bin => do
      let (chunkIds, bin) ← Cell.words.get bin
      let (chunks, _) ← Cell.vals.getN chunkIds.length bin
      let pairs ← pairUp chunkIds chunks
      some (pairs.flatMap (chunkPairs t.chunkSize))
  | 2, bin => do
      let (recv, _) ← Cell.kvPtrCodec.get bin
      pairUp recv.keys recv.vals
  | 3, bin => do
      let (recv, _) ← Cell.chunkPtrCodec.get bin
      let pairs ← pairUp recv.1 recv.2
      some (pairs.flatMap (chunkPairs t.chunkSize))
  | _, _ => none

/-- The keys of one chunk. -/
def chunkKeys (t : RangeTable) (chunkId : ℕ) : List ℕ :=
  List.range' (chunkId * t.chunkSize) (t.realChunkSize chunkId)

/-- What a pull body asks for, by command: the keys that are sent back (chunk ids for
a chunk request) and the entries that are read. -/
def decodePull (t : RangeTable) : ℕ → BinStream Val → Option (List ℕ × List ℕ)
  | 0, bin => do
      let (keys, _) ← Cell.words.get bin
      some (keys, keys)
  | 1, bin => do
      let (chunkIds, _) ← Cell.words.get bin
      some (chunkIds, chunkIds.flatMap (chunkKeys t))
  | 2, bin => do
      let (recv, _) ← Cell.kvPtrCodec.get bin
      some (recv.keys, recv.keys)
  | 3, bin => do
      let (recv, _) ← Cell.chunkPtrCodec.get bin
      some (recv.1, recv.1.flatMap (chunkKeys t))
  | _, _ => none

/-- `is_vector ? GetServerInterval(kv_id, server_id) : 0`. -/
def intervalOf (t : RangeTable) (serverId : ℕ) (isVector : Bool) : Option ℤ :=
  if isVector then t.getServerInterval serverId else some 0

section Code

variable [StorageT S Val]

/-- `update`: apply a push body to the store.  An unknown command throws. -/
def update [Add Val] (t : RangeTable) (serverId : ℕ) (bin : BinStream Val) (store : S) (cmd : ℕ)
    (isVector isAssign : Bool) : Option S := do
  let pairs ← decodePush t cmd bin
  let interval ← intervalOf t serverId isVector
  writeAll isAssign interval store pairs

/-- `retrieve`: the values a pull body asks for. -/
def retrieve (t : RangeTable) (serverId : ℕ) (bin : BinStream Val) (store : S) (cmd : ℕ)
    (isVector : Bool) : Option (KVPairs Val × S) := do
  let (keys, touched) ← decodePull t cmd bin
  let interval ← intervalOf t serverId isVector
  let (vals, store) ← readAll interval store touched
  some (⟨keys, vals⟩, store)

end Code

/-! ## A store as a function on the keys its server owns -/

/-- A container used by a server as a function on the keys that server owns.  `Good`
is the container's own invariant; both accesses keep it. -/
structure StoreView (S Val : Type) [StorageT S Val] (t : RangeTable) (serverId : ℕ)
    (isVector : Bool) where
  /-- The keys the server owns. -/
  Owned : ℕ → Prop
  /-- The invariant of the container. -/
  Good : S → Prop
  /-- The value the container holds for a key. -/
  view : S → ℕ → Val
  interval : ℤ
  intervalOf_eq : intervalOf t serverId isVector = some interval
  read_eq : ∀ {s k}, Good s → Owned k → ∃ s',
    StorageT.read s (wrap64 (k - interval)) = some (view s k, s') ∧ Good s' ∧
      ∀ j, Owned j → view s' j = view s j
  write_eq : ∀ {s k} v, Good s → Owned k → ∃ s',
    StorageT.write s (wrap64 (k - interval)) v = some s' ∧ Good s' ∧
      ∀ j, Owned j → view s' j = if j = k then v else view s j

/-- The sum of the values that a list of entries writes to a key. -/
def written [AddCommMonoid Val] (pairs : List (ℕ × Val)) (k : ℕ) : Val :=
  ((pairs.filter fun p => p.1 = k).map Prod.snd).sum

@[simp] theorem written_nil [AddCommMonoid Val] (k : ℕ) :
    written ([] : List (ℕ × Val)) k = 0 := rfl

theorem written_cons [AddCommMonoid Val] (p : ℕ × Val) (pairs : List (ℕ × Val)) (k : ℕ) :
    written (p :: pairs) k = (if p.1 = k then p.2 else 0) + written pairs k := by
  by_cases h : p.1 = k <;> simp [written, h]

theorem written_append [AddCommMonoid Val] (xs ys : List (ℕ × Val)) (k : ℕ) :
    written (xs ++ ys) k = written xs k + written ys k := by
  rw [written, List.filter_append, List.map_append, List.sum_append]
  rfl

/-- What nobody writes has the sum zero. -/
theorem written_of_notMem [AddCommMonoid Val] {xs : List (ℕ × Val)} {k : ℕ}
    (h : k ∉ xs.map Prod.fst) : written xs k = 0 := by
  have hnil : xs.filter (fun p => p.1 = k) = [] := by
    rw [List.filter_eq_nil_iff]
    intro p hp hk
    exact h (List.mem_map.mpr ⟨p, hp, by simpa using hk⟩)
  rw [written, hnil, List.map_nil, List.sum_nil]

namespace StoreView

variable [StorageT S Val] {t : RangeTable} {serverId : ℕ} {isVector : Bool}
  (V : StoreView S Val t serverId isVector)

/-- Reading a list of owned keys returns their values and changes none. -/
theorem readAll_eq {s : S} (hs : V.Good s) (ks : List ℕ) (hk : ∀ k ∈ ks, V.Owned k) :
    ∃ s', readAll V.interval s ks = some (ks.map (V.view s), s') ∧ V.Good s' ∧
      ∀ j, V.Owned j → V.view s' j = V.view s j := by
  induction ks generalizing s with
  | nil => exact ⟨s, rfl, hs, fun _ _ => rfl⟩
  | cons k ks ih =>
      obtain ⟨s₁, hread, hs₁, hview₁⟩ := V.read_eq hs (hk k (by simp))
      obtain ⟨s₂, hrest, hs₂, hview₂⟩ := ih hs₁ fun j hj => hk j (by simp [hj])
      have hmap : ks.map (V.view s₁) = ks.map (V.view s) :=
        List.map_congr_left fun j hj => hview₁ j (hk j (by simp [hj]))
      refine ⟨s₂, ?_, hs₂, fun j hj => (hview₂ j hj).trans (hview₁ j hj)⟩
      simp [readAll, hread, hrest, hmap]

/-- Adding a list of owned entries adds what is written to each key. -/
theorem writeAll_add [AddCommMonoid Val] {s : S} (hs : V.Good s) (pairs : List (ℕ × Val))
    (hk : ∀ p ∈ pairs, V.Owned p.1) :
    ∃ s', writeAll false V.interval s pairs = some s' ∧ V.Good s' ∧
      ∀ j, V.Owned j → V.view s' j = V.view s j + written pairs j := by
  induction pairs generalizing s with
  | nil => exact ⟨s, rfl, hs, fun _ _ => by simp⟩
  | cons p pairs ih =>
      have hp : V.Owned p.1 := hk p (by simp)
      obtain ⟨s₁, hread, hs₁, hview₁⟩ := V.read_eq hs hp
      obtain ⟨s₂, hwrite, hs₂, hview₂⟩ := V.write_eq (V.view s p.1 + p.2) hs₁ hp
      obtain ⟨s₃, hrest, hs₃, hview₃⟩ := ih hs₂ fun q hq => hk q (by simp [hq])
      refine ⟨s₃, ?_, hs₃, ?_⟩
      · simp [writeAll, writeAt, hread, hwrite, hrest]
      · intro j hj
        rw [hview₃ j hj, hview₂ j hj, hview₁ j hj, written_cons]
        by_cases hjk : j = p.1
        · simp [hjk, add_assoc]
        · simp [hjk, Ne.symm hjk]

/-- Assigning a list of owned entries, of which no two differ on a key, assigns all of
them and changes nothing else. -/
theorem writeAll_assign [Add Val] {s : S} (hs : V.Good s) {pairs : List (ℕ × Val)}
    (hk : ∀ p ∈ pairs, V.Owned p.1) (hone : ∀ p ∈ pairs, ∀ q ∈ pairs, p.1 = q.1 → p.2 = q.2) :
    ∃ s', writeAll true V.interval s pairs = some s' ∧ V.Good s' ∧
      (∀ p ∈ pairs, V.view s' p.1 = p.2) ∧
      ∀ j, V.Owned j → j ∉ pairs.map Prod.fst → V.view s' j = V.view s j := by
  induction pairs generalizing s with
  | nil => exact ⟨s, rfl, hs, by simp, fun _ _ _ => rfl⟩
  | cons p pairs ih =>
      have hp : V.Owned p.1 := hk p (by simp)
      obtain ⟨s₁, hwrite, hs₁, hview₁⟩ := V.write_eq p.2 hs hp
      obtain ⟨s₂, hrest, hs₂, hnew, hold⟩ := ih hs₁ (fun q hq => hk q (by simp [hq]))
        fun q hq q' hq' => hone q (by simp [hq]) q' (by simp [hq'])
      refine ⟨s₂, by simp [writeAll, writeAt, hwrite, hrest], hs₂, ?_, ?_⟩
      · intro q hq
        rcases List.mem_cons.mp hq with rfl | hq
        · by_cases hagain : q.1 ∈ pairs.map Prod.fst
          · obtain ⟨q', hq', hkey⟩ := List.mem_map.mp hagain
            rw [← hkey, hnew q' hq']
            exact hone q' (by simp [hq']) q (by simp) hkey
          · rw [hold q.1 hp hagain, hview₁ q.1 hp, if_pos rfl]
        · exact hnew q hq
      · intro j hj hnot
        rw [List.map_cons, List.mem_cons, not_or] at hnot
        rw [hold j hj hnot.2, hview₁ j hj, if_neg hnot.1]

/-- A push body that writes owned keys only. -/
structure PushOk (cmd : ℕ) (bin : BinStream Val) (pairs : List (ℕ × Val)) : Prop where
  decode : decodePush t cmd bin = some pairs
  owned : ∀ p ∈ pairs, V.Owned p.1

/-- A pull body that reads owned keys only. -/
structure PullOk (cmd : ℕ) (bin : BinStream Val) (keys touched : List ℕ) : Prop where
  decode : decodePull t cmd bin = some (keys, touched)
  owned : ∀ k ∈ touched, V.Owned k

/-- **`update` on an add server adds the body to the store.** -/
theorem update_add [AddCommMonoid Val] {s : S} (hs : V.Good s) {cmd : ℕ} {bin : BinStream Val}
    {pairs : List (ℕ × Val)} (hp : V.PushOk cmd bin pairs) :
    ∃ s', update t serverId bin s cmd isVector false = some s' ∧ V.Good s' ∧
      ∀ j, V.Owned j → V.view s' j = V.view s j + written pairs j := by
  obtain ⟨s', hw, hs', hview⟩ := V.writeAll_add hs pairs hp.owned
  exact ⟨s', by simp [update, hp.decode, V.intervalOf_eq, hw], hs', hview⟩

/-- **`update` on an assign server assigns the body to the store.** -/
theorem update_assign [Add Val] {s : S} (hs : V.Good s) {cmd : ℕ} {bin : BinStream Val}
    {pairs : List (ℕ × Val)} (hp : V.PushOk cmd bin pairs)
    (hone : ∀ p ∈ pairs, ∀ q ∈ pairs, p.1 = q.1 → p.2 = q.2) :
    ∃ s', update t serverId bin s cmd isVector true = some s' ∧ V.Good s' ∧
      (∀ p ∈ pairs, V.view s' p.1 = p.2) ∧
      ∀ j, V.Owned j → j ∉ pairs.map Prod.fst → V.view s' j = V.view s j := by
  obtain ⟨s', hw, hs', hnew, hold⟩ := V.writeAll_assign hs hp.owned hone
  exact ⟨s', by simp [update, hp.decode, V.intervalOf_eq, hw], hs', hnew, hold⟩

/-- **`retrieve` returns the values held for the keys asked for.** -/
theorem retrieve_eq {s : S} (hs : V.Good s) {cmd : ℕ} {bin : BinStream Val}
    {keys touched : List ℕ} (hp : V.PullOk cmd bin keys touched) :
    ∃ s', retrieve t serverId bin s cmd isVector =
        some (⟨keys, touched.map (V.view s)⟩, s') ∧ V.Good s' ∧
      ∀ j, V.Owned j → V.view s' j = V.view s j := by
  obtain ⟨s', hr, hs', hview⟩ := V.readAll_eq hs touched hp.owned
  exact ⟨s', by simp [retrieve, hp.decode, V.intervalOf_eq, hr], hs', hview⟩

end StoreView

/-! ## The two containers -/

/-- A map store owns every 64-bit key; a missing key is a zero. -/
def mapView (Val : Type) [Zero Val] (t : RangeTable) (serverId : ℕ) :
    StoreView (MapStore Val) Val t serverId false where
  Owned k := k < 2 ^ 64
  Good _ := True
  view m k := m.get k
  interval := 0
  intervalOf_eq := rfl
  read_eq := by
    intro m k _ hk
    have hidx : wrap64 ((k : ℤ) - 0) = k := by rw [sub_zero, wrap64_of_lt hk]
    refine ⟨_, by rw [hidx]; rfl, trivial, ?_⟩
    intro j _
    rw [MapStore.get_insert]
    split
    · next h => rw [h]
    · rfl
  write_eq := by
    intro m k v _ hk
    have hidx : wrap64 ((k : ℤ) - 0) = k := by rw [sub_zero, wrap64_of_lt hk]
    refine ⟨_, by rw [hidx]; rfl, trivial, ?_⟩
    intro j _
    rw [MapStore.get_insert]

/-- The index of a key of a range, computed in unsigned arithmetic. -/
theorem wrap64_sub {k b : ℕ} (hle : b ≤ k) (hlt : k < 2 ^ 64) :
    wrap64 ((k : ℤ) - b) = k - b := by
  unfold wrap64
  omega

/-- A vector store of a range that begins below `2 ^ 31` owns the keys of the range. -/
def vecView [Zero Val] (t : RangeTable) (serverId : ℕ) (r : Range)
    (hr : t.serverKeyRanges[serverId]? = some r) (hbegin : r.begin_ < 2 ^ 31)
    (hend : r.end_ < 2 ^ 64) : StoreView (VecStore Val) Val t serverId true where
  Owned k := r.begin_ ≤ k ∧ k < r.end_
  Good v := v.elems.length = r.end_ - r.begin_
  view v k := v.elems.getD (k - r.begin_) 0
  interval := r.begin_
  intervalOf_eq := by simp [intervalOf, RangeTable.getServerInterval, hr, toInt32_of_lt hbegin]
  read_eq := by
    rintro v k hv ⟨hk₁, hk₂⟩
    have hlt : k - r.begin_ < v.elems.length := by omega
    refine ⟨v, ?_, hv, fun _ _ => rfl⟩
    rw [wrap64_sub hk₁ (by omega)]
    simp [StorageT.read, hlt]
  write_eq := by
    rintro v k x hv ⟨hk₁, hk₂⟩
    have hlt : k - r.begin_ < v.elems.length := by omega
    refine ⟨⟨v.elems.set (k - r.begin_) x⟩, ?_, by simpa using hv, ?_⟩
    · rw [wrap64_sub hk₁ (by omega)]
      exact if_pos hlt
    · rintro j ⟨hj₁, hj₂⟩
      have hiff : k - r.begin_ = j - r.begin_ ↔ j = k := by omega
      simp only [List.getD_eq_getElem?_getD, List.getElem?_set, hiff, hlt, if_true]
      split <;> rfl

end FlexPS.KVStore
