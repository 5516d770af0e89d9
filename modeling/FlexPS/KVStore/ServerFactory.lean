import FlexPS.KVStore.StorageTwins
import FlexPS.KVStore.Reassembly
import FlexPS.KVStore.PullCorrect

/-!
# The server factory

`KVStore::ServerFactory` picks a server class, a container and the assign flag by a hint.
For three of the four families the map and the vector server give the same replies to every
sequence of requests for keys of the server.  The fourth is `default_add`: its map server is
built with the assign flag, like the one of `default_assign`, so it overwrites where the
vector server adds.

## Main definitions

* `ServerBase`, `StoreServer` — the server classes, with either container.
* `serverFactory` — `KVStore::ServerFactory`.
* `storage_unobservable` — the families whose container cannot be told from the replies.
-/

namespace FlexPS.KVStore

open Lib

variable {S Val : Type}

/-- A server of one of the three classes. -/
inductive ServerBase (S Val : Type) where
  | default (srv : DefaultUpdateServer S)
  | bsp (srv : BSPServer S Val)
  | ssp (srv : SSPServer S Val)

/-- `Process` of the class. -/
def ServerBase.handle [StorageT S Val] [Add Val] (t : RangeTable) (kvId : ℕ) :
    ServerBase S Val → Request Val → Option (ServerBase S Val × List (Reply Val))
  | default srv, r => (srv.handle t kvId r).map fun p => (default p.1, p.2)
  | bsp srv, r => (srv.handle t kvId r).map fun p => (bsp p.1, p.2)
  | ssp srv, r => (srv.handle t kvId r).map fun p => (ssp p.1, p.2)

/-- A server with its container. -/
inductive StoreServer (Val : Type) where
  | map (srv : ServerBase (MapStore Val) Val)
  | vector (srv : ServerBase (VecStore Val) Val)

/-- The replies of a new server to a sequence of requests. -/
def StoreServer.replies [Zero Val] [Add Val] (t : RangeTable) (kvId : ℕ)
    (requests : List (Request Val)) : StoreServer Val → Option (List (Reply Val))
  | map srv => (run (ServerBase.handle t kvId) srv requests).map Prod.snd
  | vector srv => (run (ServerBase.handle t kvId) srv requests).map Prod.snd

/-- The hints of `ServerFactory`. -/
inductive Hint where
  | defaultAssignMap
  | defaultAddMap
  | bspAddMap
  | sspAddMap
  | defaultAssignVector
  | defaultAddVector
  | bspAddVector
  | sspAddVector
  deriving DecidableEq, Repr

/-- The hint a string spells; any other string is unknown. -/
def Hint.ofString : String → Option Hint
  | "default_assign_map" => some defaultAssignMap
  | "default_add_map" => some defaultAddMap
  | "bsp_add_map" => some bspAddMap
  | "ssp_add_map" => some sspAddMap
  | "default_assign_vector" => some defaultAssignVector
  | "default_add_vector" => some defaultAddVector
  | "bsp_add_vector" => some bspAddVector
  | "ssp_add_vector" => some sspAddVector
  | _ => none

section Factory

variable [Zero Val] (t : RangeTable) (numWorkers : ℤ) (staleness serverId : ℕ)

/-- An empty map. -/
def newMap : MapStore Val := ⟨fun _ => none⟩

/-- `store.resize(GetServerSize(id, server_id))`, after the assertion on the maximal key. -/
def newVector : Option (VecStore Val) :=
  if t.maxKey = 2 ^ 64 - 1 then none
  else (t.getServerSize serverId).map fun size => ⟨List.replicate size 0⟩

/-- The branches of `KVStore::ServerFactory`. -/
def Hint.build : Hint → Option (StoreServer Val)
  | defaultAssignMap => some (.map (.default ⟨serverId, newMap, false, true⟩))
  | defaultAddMap => some (.map (.default ⟨serverId, newMap, false, true⟩))
  | bspAddMap => some (.map (.bsp (.new serverId numWorkers newMap false false)))
  | sspAddMap => some (.map (.ssp (.new serverId numWorkers newMap false staleness)))
  | defaultAssignVector => (newVector t serverId).map fun store =>
      .vector (.default ⟨serverId, store, true, true⟩)
  | defaultAddVector => (newVector t serverId).map fun store =>
      .vector (.default ⟨serverId, store, true, false⟩)
  | bspAddVector => (newVector t serverId).map fun store =>
      .vector (.bsp (.new serverId numWorkers store true false))
  | sspAddVector => (newVector t serverId).map fun store =>
      .vector (.ssp (.new serverId numWorkers store true staleness))

/-- `KVStore::ServerFactory`; an unknown hint fails an assertion. -/
def serverFactory (hint : String) : Option (StoreServer Val) := do
  let hint ← Hint.ofString hint
  hint.build t numWorkers staleness serverId

end Factory

/-- The families of servers. -/
inductive Family where
  | defaultAssign
  | defaultAdd
  | bspAdd
  | sspAdd
  deriving DecidableEq, Repr

/-- The name of a family in its hints. -/
def Family.name : Family → String
  | defaultAssign => "default_assign"
  | defaultAdd => "default_add"
  | bspAdd => "bsp_add"
  | sspAdd => "ssp_add"

/-! ## Servers on twin containers -/

section Twins

variable {S' : Type} [StorageT S Val] [StorageT S' Val] {t : RangeTable} {serverId : ℕ}
  {isVector isVector' : Bool} (V : StoreView S Val t serverId isVector)
  (V' : StoreView S' Val t serverId isVector') (Own : ℕ → Prop)

/-- Servers of one class on twin containers. -/
inductive ServerBase.Twin : ServerBase S Val → ServerBase S' Val → Prop
  | default {a b} (h : DefaultUpdateServer.Twin V V' Own a b) : Twin (default a) (default b)
  | bsp {a b} (h : BSPServer.Twin V V' Own a b) : Twin (bsp a) (bsp b)
  | ssp {a b} (h : SSPServer.Twin V V' Own a b) : Twin (ssp a) (ssp b)

variable {V V' Own} [Add Val] (hown : ∀ k, Own k → V.Owned k) (hown' : ∀ k, Own k → V'.Owned k)
include hown hown'

theorem ServerBase.handle_twins {a : ServerBase S Val} {b : ServerBase S' Val}
    (h : Twin V V' Own a b) (kvId : ℕ) {r : Request Val} (hr : r.Within t Own) :
    Option.Rel (Outcome (Twin V V' Own) Eq) (a.handle t kvId r) (b.handle t kvId r) := by
  cases h with
  | default h =>
      exact rel_map (DefaultUpdateServer.handle_twins hown hown' h kvId hr) fun p q hpq =>
        ⟨.default hpq.1, hpq.2⟩
  | bsp h =>
      exact rel_map (BSPServer.handle_twins hown hown' h kvId hr) fun p q hpq =>
        ⟨.bsp hpq.1, hpq.2⟩
  | ssp h =>
      exact rel_map (SSPServer.handle_twins hown hown' h kvId hr) fun p q hpq =>
        ⟨.ssp hpq.1, hpq.2⟩

/-- **Twin servers give the same replies to every sequence of requests.** -/
theorem ServerBase.run_twins {a : ServerBase S Val} {b : ServerBase S' Val}
    (h : Twin V V' Own a b) (kvId : ℕ) {requests : List (Request Val)}
    (hr : ∀ r ∈ requests, r.Within t Own) :
    (run (handle t kvId) a requests).map Prod.snd = (run (handle t kvId) b requests).map Prod.snd := by
  refine outputs_eq (R := Twin V V' Own) (run_lockstep (I := fun r r' => r = r' ∧ r.Within t Own)
    (fun {a b r r'} hab hrr => ?_) (List.forall₂_same.mpr fun r hmem => ⟨rfl, hr r hmem⟩) h)
  obtain ⟨rfl, hr⟩ := hrr
  exact handle_twins hown hown' hab kvId hr

end Twins

/-! ## Telling assign from add -/

section Probe

variable [StorageT S Val] [Add Val] {t : RangeTable} {serverId : ℕ} {isVector : Bool}

/-- A push of one entry. -/
def pushOne (k : ℕ) (v : Val) : Request Val :=
  { ts := 0, cmd := 0, push := true, src := 0, bin := Cell.words.put [k] ++ Cell.vals.put [v] }

/-- A pull of one key. -/
def pullOne (k : ℕ) : Request Val :=
  { ts := 1, cmd := 0, push := false, src := 0, bin := Cell.words.put [k] }

omit [Add Val] in
theorem within_pushOne {Own : ℕ → Prop} {k : ℕ} (hk : Own k) (v : Val) :
    (pushOne k v).Within t Own := by
  intro pairs hdecode p hp
  have hpairs : decodePush t 0 (Cell.words.put [k] ++ Cell.vals.put [v]) = some [(k, v)] := by
    simp [decodePush, pairUp]
  obtain rfl := Option.some.inj (hpairs.symm.trans hdecode)
  rwa [List.mem_singleton.mp hp]

omit [Add Val] in
theorem within_pullOne {Own : ℕ → Prop} {k : ℕ} (hk : Own k) :
    (pullOne k : Request Val).Within t Own := by
  intro keys touched hdecode j hj
  have hkeys : decodePull t 0 (Cell.words.put [k] : BinStream Val) = some ([k], [k]) := by
    simp [decodePull]
  obtain ⟨-, rfl⟩ := Prod.mk.inj (Option.some.inj (hkeys.symm.trans hdecode))
  rwa [List.mem_singleton.mp hj]

variable (V : StoreView S Val t serverId isVector)

/-- One push to a default server. -/
theorem handle_pushOne (kvId : ℕ) (isAssign : Bool) {s : S} (hs : V.Good s) {k : ℕ}
    (hk : V.Owned k) (v : Val) :
    ∃ s', ServerBase.handle t kvId (.default ⟨serverId, s, isVector, isAssign⟩) (pushOne k v) =
        some (.default ⟨serverId, s', isVector, isAssign⟩, [pushReply kvId (pushOne k v).entry]) ∧
      V.Good s' ∧ V.view s' k = if isAssign then v else V.view s k + v := by
  have hwrite : ∃ s', writeAt isAssign s (wrap64 (k - V.interval)) v = some s' ∧ V.Good s' ∧
      V.view s' k = if isAssign then v else V.view s k + v := by
    cases isAssign with
    | true =>
        obtain ⟨s', hwrite, hgood, hview⟩ := V.write_eq v hs hk
        exact ⟨s', hwrite, hgood, by rw [hview k hk, if_pos rfl, if_pos rfl]⟩
    | false =>
        obtain ⟨s₁, hread, hgood₁, -⟩ := V.read_eq hs hk
        obtain ⟨s', hwrite, hgood, hview⟩ := V.write_eq (V.view s k + v) hgood₁ hk
        exact ⟨s', by simp [writeAt, hread, hwrite], hgood, by simp [hview k hk]⟩
  obtain ⟨s', hwrite, hgood, hview⟩ := hwrite
  refine ⟨s', ?_, hgood, hview⟩
  have hupdate : update t serverId (pushOne k v).bin s 0 isVector isAssign = some s' := by
    simp [update, pushOne, decodePush, pairUp, V.intervalOf_eq, writeAll, hwrite]
  have hbin : (pushOne k v).bin ≠ [] := by simp [pushOne]
  simp only [pushOne] at hupdate hbin
  simp [ServerBase.handle, DefaultUpdateServer.handle, serveDirect, applyPush, pushOne,
    Request.entry, hupdate, hbin, pushReply]

/-- **Two pushes and a pull tell the assign flag**: the last reply is the second value or the
sum. -/
theorem run_probe (kvId : ℕ) (isAssign : Bool) {s : S} (hs : V.Good s) {k : ℕ} (hk : V.Owned k)
    (x y : Val) :
    (run (ServerBase.handle t kvId) (.default ⟨serverId, s, isVector, isAssign⟩)
      [pushOne k x, pushOne k y, pullOne k]).map Prod.snd =
      some [pushReply kvId (pushOne k x).entry, pushReply kvId (pushOne k y).entry,
        { kvId, ts := 1, cmd := 0, push := false, src := 0
          res := ⟨[k], [if isAssign then y else V.view s k + x + y]⟩ }] := by
  obtain ⟨s₁, hfirst, hgood₁, hview₁⟩ := handle_pushOne V kvId isAssign hs hk x
  obtain ⟨s₂, hsecond, hgood₂, hview₂⟩ := handle_pushOne V kvId isAssign hgood₁ hk y
  have hpull : V.PullOk 0 (Cell.words.put [k]) [k] [k] := ⟨by simp [decodePull], by simpa using hk⟩
  obtain ⟨s₃, hretrieve, -⟩ := V.retrieve_eq hgood₂ hpull
  have hthird : ServerBase.handle t kvId (.default ⟨serverId, s₂, isVector, isAssign⟩) (pullOne k) =
      some (.default ⟨serverId, s₃, isVector, isAssign⟩,
        [{ kvId, ts := 1, cmd := 0, push := false, src := 0, res := ⟨[k], [V.view s₂ k]⟩ }]) := by
    simp [ServerBase.handle, DefaultUpdateServer.handle, serveDirect, answerPull, answerPullAs,
      pullOne, Request.entry, hretrieve]
  have hval : V.view s₂ k = if isAssign then y else V.view s k + x + y := by
    rw [hview₂, hview₁]
    cases isAssign <;> rfl
  simp [run_cons, hfirst, hsecond, hthird, hval]

end Probe

/-! ## Servers without keys -/

section NoKeys

variable [StorageT S Val] [Add Val] {t : RangeTable} {serverId : ℕ} {isVector : Bool}

/-- A push that writes no key does not see the assign flag. -/
theorem update_noKeys {cmd : ℕ} {bin : BinStream Val} {Own : ℕ → Prop} (hnone : ∀ k, ¬ Own k)
    (hbody : PushWithin t Own cmd bin) (s : S) (isAssign isAssign' : Bool) :
    update t serverId bin s cmd isVector isAssign =
      update t serverId bin s cmd isVector isAssign' := by
  unfold update
  cases hdecode : decodePush t cmd bin with
  | none => rfl
  | some pairs =>
      cases pairs with
      | nil => rfl
      | cons p pairs => exact absurd (hbody _ hdecode p (by simp)) (hnone p.1)

/-- Two default servers that differ in the assign flag and own no keys. -/
theorem run_noKeys {Own : ℕ → Prop} (hnone : ∀ k, ¬ Own k) (kvId : ℕ) (s : S)
    (isAssign isAssign' : Bool) {requests : List (Request Val)}
    (hr : ∀ r ∈ requests, r.Within t Own) :
    (run (ServerBase.handle t kvId) (.default ⟨serverId, s, isVector, isAssign⟩) requests).map
        Prod.snd =
      (run (ServerBase.handle t kvId) (.default ⟨serverId, s, isVector, isAssign'⟩) requests).map
        Prod.snd := by
  refine outputs_eq (R := fun (a b : ServerBase S Val) => ∃ s,
      a = .default ⟨serverId, s, isVector, isAssign⟩ ∧
      b = .default ⟨serverId, s, isVector, isAssign'⟩)
    (run_lockstep (I := fun r r' => r = r' ∧ r.Within t Own) (fun {a b r r'} hab hrr => ?_)
      (List.forall₂_same.mpr fun r hmem => ⟨rfl, hr r hmem⟩) ⟨s, rfl, rfl⟩)
  obtain ⟨s, rfl, rfl⟩ := hab
  obtain ⟨rfl, hr⟩ := hrr
  have hserve : serveDirect t kvId serverId isVector isAssign s r =
      serveDirect t kvId serverId isVector isAssign' s r := by
    unfold serveDirect
    dsimp only
    split
    · next hpush =>
        unfold Request.Within at hr
        rw [if_pos hpush] at hr
        have hbody : PushWithin t Own (r.cmd % consistencyControlOffMagic) r.entry.bin := hr
        simp only [applyPush, update_noKeys hnone hbody s isAssign isAssign']
    · rfl
  unfold ServerBase.handle DefaultUpdateServer.handle
  dsimp only
  rw [hserve]
  split
  · exact .none
  · cases serveDirect t kvId serverId isVector isAssign' s r with
    | none => exact .none
    | some p => exact .some ⟨⟨p.1, rfl, rfl⟩, List.forall₂_same.mpr fun _ _ => rfl⟩

end NoKeys

/-! ## The factory's servers -/

section Factory

variable [Zero Val] [Add Val] {t : RangeTable} {serverId : ℕ} {r : Range}
  (hr : t.serverKeyRanges[serverId]? = some r)
include hr

omit [Add Val] in
/-- The vector holds the range of the server. -/
theorem newVector_eq (hle : r.begin_ ≤ r.end_) (hend : r.end_ < 2 ^ 64)
    (hmax : t.maxKey ≠ 2 ^ 64 - 1) :
    newVector t serverId = some (⟨List.replicate (r.end_ - r.begin_) 0⟩ : VecStore Val) := by
  have hsize : r.size = r.end_ - r.begin_ := wrap64_sub hle hend
  rw [newVector, if_neg hmax, RangeTable.getServerSize, hr, Option.map_some, Option.map_some, hsize]

omit [Add Val] in
/-- A new map and a new vector hold zeros. -/
theorem twins_new (hend : r.end_ < 2 ^ 64) (hbegin : r.begin_ < 2 ^ 31) :
    Twins (mapView Val t serverId) (vecView t serverId r hr hbegin hend)
      (fun k => r.begin_ ≤ k ∧ k < r.end_) newMap ⟨List.replicate (r.end_ - r.begin_) 0⟩ where
  good := trivial
  good' := List.length_replicate
  view := by
    intro k hk
    have hlt : k - r.begin_ < r.end_ - r.begin_ := by omega
    simp [mapView, vecView, MapStore.get, newMap, hlt]

/-- **The container cannot be told from the replies, except for `default_add`.**  The map and
the vector server of a family give the same replies to every sequence of requests for keys of
the server if and only if the family is not `default_add`, or the server has no keys.  The ranges
may be set by `SetMaxKeyAndChunkSize` or customized. -/
theorem storage_unobservable (hle : r.begin_ ≤ r.end_) (hend : r.end_ < 2 ^ 64)
    (hbegin : r.begin_ < 2 ^ 31) (hmax : t.maxKey ≠ 2 ^ 64 - 1)
    (hadd : ∃ x y : Val, 0 + x + y ≠ y) (kvId : ℕ) (numWorkers : ℤ) (staleness : ℕ)
    (family : Family) :
    ∃ a b : StoreServer Val,
      serverFactory t numWorkers staleness serverId (family.name ++ "_map") = some a ∧
      serverFactory t numWorkers staleness serverId (family.name ++ "_vector") = some b ∧
      ((∀ requests : List (Request Val),
          (∀ q ∈ requests, q.Within t fun k => r.begin_ ≤ k ∧ k < r.end_) →
            a.replies t kvId requests = b.replies t kvId requests) ↔
        family ≠ .defaultAdd ∨ r.end_ ≤ r.begin_) := by
  let V : StoreView (MapStore Val) Val t serverId false := mapView Val t serverId
  let V' : StoreView (VecStore Val) Val t serverId true := vecView t serverId r hr hbegin hend
  have hown : ∀ k, r.begin_ ≤ k ∧ k < r.end_ → V.Owned k := fun k hk => hk.2.trans hend
  have hown' : ∀ k, r.begin_ ≤ k ∧ k < r.end_ → V'.Owned k := fun k hk => hk
  have htwins : Twins V V' (fun k => r.begin_ ≤ k ∧ k < r.end_) newMap
      ⟨List.replicate (r.end_ - r.begin_) 0⟩ := twins_new hr hend hbegin
  have hvector : newVector t serverId =
      some (⟨List.replicate (r.end_ - r.begin_) 0⟩ : VecStore Val) := newVector_eq hr hle hend hmax
  cases family with
  | defaultAssign =>
      refine ⟨_, _, rfl, congrArg (Option.map _) hvector, iff_of_true ?_ (.inl (by decide))⟩
      intro requests hq
      exact ServerBase.run_twins hown hown' (.default (.mk true htwins)) kvId hq
  | bspAdd =>
      refine ⟨_, _, rfl, congrArg (Option.map _) hvector, iff_of_true ?_ (.inl (by decide))⟩
      intro requests hq
      exact ServerBase.run_twins hown hown'
        (.bsp ⟨rfl, rfl, rfl, htwins, allParked_nil, allParked_nil⟩) kvId hq
  | sspAdd =>
      refine ⟨_, _, rfl, congrArg (Option.map _) hvector, iff_of_true ?_ (.inl (by decide))⟩
      intro requests hq
      exact ServerBase.run_twins hown hown'
        (.ssp ⟨rfl, rfl, rfl, htwins, allParked_nil, allParked_nil⟩) kvId hq
  | defaultAdd =>
      refine ⟨_, _, rfl, congrArg (Option.map _) hvector, ?_⟩
      constructor
      · -- Two pushes to the first key show the difference.
        intro hsame
        by_contra hkeys
        have hlt : r.begin_ < r.end_ := by
          simp only [ne_eq, not_true_eq_false, false_or, not_le] at hkeys
          exact hkeys
        obtain ⟨x, y, hxy⟩ := hadd
        have hfirst : r.begin_ ≤ r.begin_ ∧ r.begin_ < r.end_ := ⟨le_rfl, hlt⟩
        have hreplies := hsame [pushOne r.begin_ x, pushOne r.begin_ y, pullOne r.begin_] (by
          intro q hq
          simp only [List.mem_cons, List.not_mem_nil, or_false] at hq
          rcases hq with rfl | rfl | rfl
          · exact within_pushOne hfirst x
          · exact within_pushOne hfirst y
          · exact within_pullOne hfirst)
        have hmap := run_probe V kvId true htwins.good (hown _ hfirst) x y
        have hvec := run_probe V' kvId false htwins.good' (hown' _ hfirst) x y
        have heq := (hmap.symm.trans hreplies).trans hvec
        have hzero : V'.view ⟨List.replicate (r.end_ - r.begin_) 0⟩ r.begin_ = 0 :=
          (htwins.view _ hfirst).symm
        rw [hzero] at heq
        simp only [if_true, Option.some.injEq, List.cons.injEq, Reply.mk.injEq, KVPairs.mk.injEq,
          and_true, true_and, Bool.false_eq_true, if_false] at heq
        exact hxy heq.symm
      · intro hempty requests hq
        have hnone : ∀ k, ¬ (r.begin_ ≤ k ∧ k < r.end_) := by
          intro k hk
          rcases hempty with hempty | hempty
          · exact hempty rfl
          · omega
        exact (run_noKeys hnone kvId newMap true false hq).trans
          (ServerBase.run_twins hown hown' (.default (.mk false htwins)) kvId hq)

end Factory

/-- The two `default_add` servers of the first of two servers, after pushes of 1 and 2 to key 0:
the map server answers 2 and the vector server 3. -/
theorem storage_unobservable_fails :
    ∃ (a b : StoreServer ℤ) (requests : List (Request ℤ)),
      serverFactory nineKeys 1 0 0 "default_add_map" = some a ∧
      serverFactory nineKeys 1 0 0 "default_add_vector" = some b ∧
      (∀ q ∈ requests, q.Within nineKeys fun k => 0 ≤ k ∧ k < 6) ∧
      nineKeys.serverKeyRanges[0]? = some ⟨0, 6⟩ ∧
      (a.replies nineKeys 0 requests).map (fun out => out.map Reply.res) =
        some [.empty, .empty, ⟨[0], [2]⟩] ∧
      (b.replies nineKeys 0 requests).map (fun out => out.map Reply.res) =
        some [.empty, .empty, ⟨[0], [3]⟩] ∧
      a.replies nineKeys 0 requests ≠ b.replies nineKeys 0 requests := by
  refine ⟨_, _, [pushOne 0 1, pushOne 0 2, pullOne 0], rfl, rfl, ?_, rfl, rfl, rfl, by decide⟩
  intro q hq
  simp only [List.mem_cons, List.not_mem_nil, or_false] at hq
  rcases hq with rfl | rfl | rfl
  · exact within_pushOne (by omega) 1
  · exact within_pushOne (by omega) 2
  · exact within_pullOne (by omega)

/-- The SSP servers of the first of two servers. -/
theorem storage_unobservable_sspAdd : ∃ a b : StoreServer ℤ,
    serverFactory nineKeys 3 1 0 "ssp_add_map" = some a ∧
    serverFactory nineKeys 3 1 0 "ssp_add_vector" = some b ∧
    ∀ requests : List (Request ℤ), (∀ q ∈ requests, q.Within nineKeys fun k => 0 ≤ k ∧ k < 6) →
      a.replies nineKeys 0 requests = b.replies nineKeys 0 requests := by
  have hr : nineKeys.serverKeyRanges[0]? = some ⟨0, 6⟩ := rfl
  obtain ⟨a, b, ha, hb, hiff⟩ := storage_unobservable hr (by decide) (by decide) (by decide) (by decide)
    (⟨1, 0, by decide⟩ : ∃ x y : ℤ, 0 + x + y ≠ y) 0 3 1 .sspAdd
  exact ⟨a, b, ha, hb, hiff.mpr (.inl (by decide))⟩

end FlexPS.KVStore
