import FlexPS.Lib.Lockstep
import FlexPS.KVStore.BSPServer
import FlexPS.KVStore.SSPServer

/-!
# Two containers that hold the same

A server uses its container through `operator[]` only.  Two servers that differ in the
container, and whose containers hold the same values for the keys of the server, answer
every request for these keys in the same way and keep holding the same; so do the servers
that park requests, because a parked request is for keys of the server too.

## Main definitions

* `PushWithin`, `PullWithin`, `Request.Within` — a body that touches some keys only.
* `Twins` — two containers that hold the same values.
* `DefaultUpdateServer.handle_twins`, `BSPServer.handle_twins`, `SSPServer.handle_twins` —
  one request to two servers with such containers.
-/

namespace FlexPS.KVStore

open Lib

variable {S S' Val : Type}

/-! ## Bodies -/

/-- A push body that writes keys of `Own` only, if it can be decoded. -/
def PushWithin (t : RangeTable) (Own : ℕ → Prop) (cmd : ℕ) (bin : BinStream Val) : Prop :=
  ∀ pairs, decodePush t cmd bin = some pairs → ∀ p ∈ pairs, Own p.1

/-- A pull body that reads keys of `Own` only, if it can be decoded. -/
def PullWithin (t : RangeTable) (Own : ℕ → Prop) (cmd : ℕ) (bin : BinStream Val) : Prop :=
  ∀ keys touched, decodePull t cmd bin = some (keys, touched) → ∀ k ∈ touched, Own k

/-- A request whose keys and chunks belong to `Own`. -/
def Request.Within (t : RangeTable) (Own : ℕ → Prop) (r : Request Val) : Prop :=
  if r.push then PushWithin t Own (r.cmd % consistencyControlOffMagic) r.bin
  else PullWithin t Own (bodyCmd (r.cmd % consistencyControlOffMagic)) r.bin

/-- A command above the clock magic is not decoded without taking it off. -/
theorem PullWithin.of_body {t : RangeTable} {Own : ℕ → Prop} {cmd : ℕ} {bin : BinStream Val}
    (h : PullWithin t Own (bodyCmd cmd) bin) : PullWithin t Own cmd bin := by
  by_cases hcmd : cmd > withMinClockMagic
  · intro keys touched hdecode
    have hnone : decodePull t cmd bin = none := by
      unfold withMinClockMagic at hcmd
      obtain ⟨c, rfl⟩ : ∃ c, cmd = c + 4 := ⟨cmd - 4, by omega⟩
      rfl
    rw [hnone] at hdecode
    cases hdecode
  · rwa [bodyCmd, if_neg hcmd] at h

/-- Every entry of every buffer. -/
def AllParked (P : Blocked Val → Prop) (buf : List (List (Blocked Val))) : Prop :=
  ∀ e, ∀ b ∈ slot buf e, P b

section AllParked

variable {P : Blocked Val → Prop} {buf : List (List (Blocked Val))}

theorem allParked_nil : AllParked P [] := fun _ _ hb => absurd hb List.not_mem_nil

theorem AllParked.clearAt (h : AllParked P buf) (e : ℕ) : AllParked P (clearAt buf e) := by
  intro e' b hb
  rw [slot_clearAt] at hb
  split at hb
  · exact absurd hb List.not_mem_nil
  · exact h e' b hb

theorem AllParked.grow (h : AllParked P buf) (n : ℕ) : AllParked P (grow buf n) := by
  intro e b hb
  rw [slot_grow] at hb
  exact h e b hb

theorem AllParked.park (h : AllParked P buf) (e : ℕ) {b : Blocked Val} (hb : P b) :
    AllParked P (park buf e b) := by
  intro e' b' hb'
  rw [Lib.park, slot_modifyAt] at hb'
  split at hb'
  · rcases List.mem_append.mp hb' with hb' | hb'
    · exact h e b' hb'
    · rwa [List.mem_singleton.mp hb']
  · exact h e' b' hb'

end AllParked

/-! ## Containers -/

section Twins

variable [StorageT S Val] [StorageT S' Val] {t : RangeTable} {serverId : ℕ}
  {isVector isVector' : Bool} (V : StoreView S Val t serverId isVector)
  (V' : StoreView S' Val t serverId isVector') {Own : ℕ → Prop}

/-- Two containers that hold the same values for the keys of `Own`. -/
structure Twins (Own : ℕ → Prop) (s : S) (s' : S') : Prop where
  good : V.Good s
  good' : V'.Good s'
  view : ∀ k, Own k → V.view s k = V'.view s' k

variable {V V'} (hown : ∀ k, Own k → V.Owned k) (hown' : ∀ k, Own k → V'.Owned k)
include hown hown'

theorem Twins.write {s : S} {s' : S'} (h : Twins V V' Own s s') {k : ℕ} (hk : Own k) (v : Val) :
    Option.Rel (Twins V V' Own) (StorageT.write s (wrap64 (k - V.interval)) v)
      (StorageT.write s' (wrap64 (k - V'.interval)) v) := by
  obtain ⟨s₁, hwrite, hgood, hview⟩ := V.write_eq v h.good (hown k hk)
  obtain ⟨s₁', hwrite', hgood', hview'⟩ := V'.write_eq v h.good' (hown' k hk)
  rw [hwrite, hwrite']
  refine .some ⟨hgood, hgood', fun j hj => ?_⟩
  rw [hview j (hown j hj), hview' j (hown' j hj), h.view j hj]

theorem Twins.read {s : S} {s' : S'} (h : Twins V V' Own s s') {k : ℕ} (hk : Own k) :
    Option.Rel (fun p q => p.1 = q.1 ∧ Twins V V' Own p.2 q.2)
      (StorageT.read s (wrap64 (k - V.interval))) (StorageT.read s' (wrap64 (k - V'.interval))) := by
  obtain ⟨s₁, hread, hgood, hview⟩ := V.read_eq h.good (hown k hk)
  obtain ⟨s₁', hread', hgood', hview'⟩ := V'.read_eq h.good' (hown' k hk)
  rw [hread, hread']
  refine .some ⟨h.view k hk, hgood, hgood', fun j hj => ?_⟩
  rw [hview j (hown j hj), hview' j (hown' j hj), h.view j hj]

theorem Twins.writeAll [Add Val] (isAssign : Bool) {pairs : List (ℕ × Val)}
    (hpairs : ∀ p ∈ pairs, Own p.1) {s : S} {s' : S'} (h : Twins V V' Own s s') :
    Option.Rel (Twins V V' Own) (writeAll isAssign V.interval s pairs)
      (writeAll isAssign V'.interval s' pairs) := by
  induction pairs generalizing s s' with
  | nil => exact .some h
  | cons p pairs ih =>
      have hp : Own p.1 := hpairs p (by simp)
      have hwrite : Option.Rel (Twins V V' Own)
          (writeAt isAssign s (wrap64 (p.1 - V.interval)) p.2)
          (writeAt isAssign s' (wrap64 (p.1 - V'.interval)) p.2) := by
        unfold writeAt
        split
        · exact h.write hown hown' hp p.2
        · refine rel_bind (h.read hown hown' hp) fun x y hxy => ?_
          obtain ⟨hval, hstore⟩ := hxy
          dsimp only
          rw [hval]
          exact hstore.write hown hown' hp _
      exact rel_bind hwrite fun s₁ s₁' h₁ => ih (fun q hq => hpairs q (by simp [hq])) h₁

theorem Twins.readAll {keys : List ℕ} (hkeys : ∀ k ∈ keys, Own k) {s : S} {s' : S'}
    (h : Twins V V' Own s s') :
    Option.Rel (fun p q => p.1 = q.1 ∧ Twins V V' Own p.2 q.2) (readAll V.interval s keys)
      (readAll V'.interval s' keys) := by
  induction keys generalizing s s' with
  | nil => exact .some ⟨rfl, h⟩
  | cons k keys ih =>
      refine rel_bind (h.read hown hown' (hkeys k (by simp))) fun x y hxy => ?_
      refine rel_bind (ih (fun j hj => hkeys j (by simp [hj])) hxy.2) fun xs ys hrest => ?_
      exact .some ⟨by rw [hxy.1, hrest.1], hrest.2⟩

/-- `update` on both. -/
theorem Twins.update [Add Val] (isAssign : Bool) {cmd : ℕ} {bin : BinStream Val}
    (hbody : PushWithin t Own cmd bin) {s : S} {s' : S'} (h : Twins V V' Own s s') :
    Option.Rel (Twins V V' Own) (update t serverId bin s cmd isVector isAssign)
      (update t serverId bin s' cmd isVector' isAssign) := by
  simp only [KVStore.update, V.intervalOf_eq, V'.intervalOf_eq, Option.bind_eq_bind,
    Option.bind_some]
  cases hdecode : decodePush t cmd bin with
  | none => exact .none
  | some pairs => exact h.writeAll hown hown' isAssign (hbody pairs hdecode)

/-- `retrieve` on both. -/
theorem Twins.retrieve {cmd : ℕ} {bin : BinStream Val} (hbody : PullWithin t Own cmd bin) {s : S}
    {s' : S'} (h : Twins V V' Own s s') :
    Option.Rel (fun p q => p.1 = q.1 ∧ Twins V V' Own p.2 q.2)
      (retrieve t serverId bin s cmd isVector) (retrieve t serverId bin s' cmd isVector') := by
  simp only [KVStore.retrieve, V.intervalOf_eq, V'.intervalOf_eq, Option.bind_eq_bind,
    Option.bind_some]
  cases hdecode : decodePull t cmd bin with
  | none => exact .none
  | some p =>
      simp only [Option.bind_some]
      refine rel_bind (h.readAll hown hown' (hbody p.1 p.2 hdecode)) fun x y hxy => ?_
      exact .some ⟨by rw [hxy.1], hxy.2⟩

/-! ## Requests -/

theorem Twins.applyPush [Add Val] (kvId : ℕ) (isAssign : Bool) {b : Blocked Val}
    (hbody : PushWithin t Own b.cmd b.bin) {s : S} {s' : S'} (h : Twins V V' Own s s') :
    Option.Rel (Outcome (Twins V V' Own) Eq) (applyPush t kvId serverId isVector isAssign s b)
      (applyPush t kvId serverId isVector' isAssign s' b) := by
  unfold KVStore.applyPush
  split
  · exact .some ⟨h, .nil⟩
  · refine rel_bind (h.update hown hown' isAssign hbody) fun s₁ s₁' h₁ => ?_
    exact .some ⟨h₁, .cons rfl .nil⟩

theorem Twins.answerPullAs (kvId bodyCmd : ℕ) (minClock : ℤ) {b : Blocked Val}
    (hbody : PullWithin t Own bodyCmd b.bin) {s : S} {s' : S'} (h : Twins V V' Own s s') :
    Option.Rel (Outcome (Twins V V' Own) Eq)
      (answerPullAs t kvId serverId isVector bodyCmd minClock s b)
      (answerPullAs t kvId serverId isVector' bodyCmd minClock s' b) := by
  unfold KVStore.answerPullAs
  split
  · exact .some ⟨h, .nil⟩
  · refine rel_bind (h.retrieve hown hown' hbody) fun p q hpq => ?_
    obtain ⟨hres, hstore⟩ := hpq
    exact .some ⟨hstore, .cons (by rw [hres]) .nil⟩

theorem Twins.serveDirect [Add Val] (kvId : ℕ) (isAssign : Bool) {r : Request Val}
    (hr : r.Within t Own) {s : S} {s' : S'} (h : Twins V V' Own s s') :
    Option.Rel (Outcome (Twins V V' Own) Eq) (serveDirect t kvId serverId isVector isAssign s r)
      (serveDirect t kvId serverId isVector' isAssign s' r) := by
  unfold Request.Within at hr
  unfold KVStore.serveDirect
  dsimp only
  split
  · next hpush =>
      rw [if_pos hpush] at hr
      exact h.applyPush hown hown' kvId isAssign hr
  · next hpush =>
      rw [if_neg hpush] at hr
      exact h.answerPullAs hown hown' kvId _ (-1) hr.of_body

end Twins

/-! ## Servers -/

section Servers

variable [StorageT S Val] [StorageT S' Val] [Add Val] {t : RangeTable} {serverId : ℕ}
  {isVector isVector' : Bool} {V : StoreView S Val t serverId isVector}
  {V' : StoreView S' Val t serverId isVector'} {Own : ℕ → Prop}
  (hown : ∀ k, Own k → V.Owned k) (hown' : ∀ k, Own k → V'.Owned k)

/-- Default servers on twin containers. -/
inductive DefaultUpdateServer.Twin (V : StoreView S Val t serverId isVector)
    (V' : StoreView S' Val t serverId isVector') (Own : ℕ → Prop) :
    DefaultUpdateServer S → DefaultUpdateServer S' → Prop
  | mk {s : S} {s' : S'} (isAssign : Bool) (h : Twins V V' Own s s') :
      Twin V V' Own ⟨serverId, s, isVector, isAssign⟩ ⟨serverId, s', isVector', isAssign⟩

include hown hown' in
theorem DefaultUpdateServer.handle_twins {a : DefaultUpdateServer S} {b : DefaultUpdateServer S'}
    (h : Twin V V' Own a b) (kvId : ℕ) {r : Request Val} (hr : r.Within t Own) :
    Option.Rel (Outcome (Twin V V' Own) Eq) (a.handle t kvId r) (b.handle t kvId r) := by
  cases h with
  | mk isAssign h =>
      unfold handle
      split
      · exact .none
      · refine rel_bind (h.serveDirect hown hown' kvId isAssign hr) fun p q hpq => ?_
        exact .some ⟨.mk isAssign hpq.1, hpq.2⟩

include hown hown' in
/-- A released buffer of pushes. -/
theorem Twins.run_applyPush (kvId : ℕ) (isAssign : Bool) {buffer : List (Blocked Val)}
    (hbuffer : ∀ b ∈ buffer, PushWithin t Own b.cmd b.bin) {s : S} {s' : S'}
    (h : Twins V V' Own s s') :
    Option.Rel (Outcome (Twins V V' Own) Eq)
      (run (KVStore.applyPush t kvId serverId isVector isAssign) s buffer)
      (run (KVStore.applyPush t kvId serverId isVector' isAssign) s' buffer) := by
  refine run_lockstep (I := fun b c => b = c ∧ PushWithin t Own b.cmd b.bin)
    (fun {s s' b c} hs hbc => ?_) (List.forall₂_same.mpr fun b hb => ⟨rfl, hbuffer b hb⟩) h
  obtain ⟨rfl, hbody⟩ := hbc
  exact hs.applyPush hown hown' kvId isAssign hbody

include hown hown' in
omit [Add Val] in
/-- A released buffer of pulls. -/
theorem Twins.run_answerPullAs (kvId : ℕ) (cmd : Blocked Val → ℕ) (minClock : Blocked Val → ℤ)
    {buffer : List (Blocked Val)} (hbuffer : ∀ b ∈ buffer, PullWithin t Own (cmd b) b.bin) {s : S}
    {s' : S'} (h : Twins V V' Own s s') :
    Option.Rel (Outcome (Twins V V' Own) Eq)
      (run (fun s b => KVStore.answerPullAs t kvId serverId isVector (cmd b) (minClock b) s b) s
        buffer)
      (run (fun s b => KVStore.answerPullAs t kvId serverId isVector' (cmd b) (minClock b) s b) s'
        buffer) := by
  refine run_lockstep (I := fun b c => b = c ∧ PullWithin t Own (cmd b) b.bin)
    (fun {s s' b c} hs hbc => ?_) (List.forall₂_same.mpr fun b hb => ⟨rfl, hbuffer b hb⟩) h
  obtain ⟨rfl, hbody⟩ := hbc
  exact hs.answerPullAs hown hown' kvId _ _ hbody

/-! ## The BSP server -/

namespace BSPServer

/-- The server with another container. -/
def withStore (srv : BSPServer S Val) (store : S') (isVector : Bool) : BSPServer S' Val where
  numWorkers := srv.numWorkers
  pushIter := srv.pushIter
  pushCount := srv.pushCount
  pushProgress := srv.pushProgress
  blockedPushes := srv.blockedPushes
  pullIter := srv.pullIter
  pullCount := srv.pullCount
  pullProgress := srv.pullProgress
  blockedPulls := srv.blockedPulls
  initReplyPhase := srv.initReplyPhase
  replyPhase := srv.replyPhase
  isVector := isVector
  isAssign := srv.isAssign
  store := store
  serverId := srv.serverId
  initCount := srv.initCount

/-- BSP servers on twin containers, with requests for keys of `Own` parked. -/
structure Twin (V : StoreView S Val t serverId isVector)
    (V' : StoreView S' Val t serverId isVector') (Own : ℕ → Prop) (a : BSPServer S Val)
    (b : BSPServer S' Val) : Prop where
  same : b = a.withStore b.store isVector'
  serverId_eq : a.serverId = serverId
  isVector_eq : a.isVector = isVector
  stores : Twins V V' Own a.store b.store
  pushes : AllParked (fun b => PushWithin t Own b.cmd b.bin) a.blockedPushes
  pulls : AllParked (fun b => PullWithin t Own b.cmd b.bin) a.blockedPulls

variable {a : BSPServer S Val} {b : BSPServer S' Val}

include hown hown'

omit [Add Val] in
theorem releasePulls_twins (h : Twin V V' Own a b) (kvId : ℕ) :
    Option.Rel (Outcome (Twin V V' Own) Eq) (a.releasePulls t kvId) (b.releasePulls t kvId) := by
  obtain ⟨hsame, rfl, rfl, hstores, hpushes, hpulls⟩ := h
  rw [hsame]
  refine rel_bind (hstores.run_answerPullAs hown hown' kvId Blocked.cmd (fun _ => -1)
    (hpulls a.pullIter)) fun p q hpq => ?_
  exact .some ⟨⟨rfl, rfl, rfl, hpq.1, hpushes, hpulls.clearAt _⟩, hpq.2⟩

theorem releasePushes_twins (h : Twin V V' Own a b) (kvId : ℕ) :
    Option.Rel (Outcome (Twin V V' Own) Eq) (a.releasePushes t kvId) (b.releasePushes t kvId) := by
  obtain ⟨hsame, rfl, rfl, hstores, hpushes, hpulls⟩ := h
  rw [hsame]
  refine rel_bind (hstores.run_applyPush hown hown' kvId a.isAssign (hpushes a.pushIter))
    fun p q hpq => ?_
  exact .some ⟨⟨rfl, rfl, rfl, hpq.1, hpushes.clearAt _, hpulls⟩, hpq.2⟩

theorem handlePush_twins (h : Twin V V' Own a b) (kvId : ℕ) {r : Request Val}
    (hr : PushWithin t Own r.cmd r.bin) :
    Option.Rel (Outcome (Twin V V' Own) Eq) (a.handlePush t kvId r) (b.handlePush t kvId r) := by
  obtain ⟨hsame, rfl, rfl, hstores, hpushes, hpulls⟩ := h
  rw [hsame]
  unfold handlePush
  dsimp only [withStore]
  split
  · exact .some ⟨⟨rfl, rfl, rfl, hstores, hpushes.park _ hr, hpulls⟩, .nil⟩
  · refine rel_bind (hstores.applyPush hown hown' kvId a.isAssign (b := r.entry) hr)
      fun p q hpq => ?_
    obtain ⟨hstores', hout⟩ := hpq
    refine rel_ite (fun _ => ?_) fun _ => ?_
    · refine rel_bind (R := Outcome (Twin V V' Own) Eq) (releasePulls_twins hown hown' ?_ kvId)
        fun p' q' hpq' => ?_
      · exact ⟨rfl, rfl, rfl, hstores', hpushes, hpulls⟩
      · exact .some (.append hout hpq')
    · exact .some ⟨⟨rfl, rfl, rfl, hstores', hpushes, hpulls⟩, hout⟩

theorem handlePull_twins (h : Twin V V' Own a b) (kvId : ℕ) {r : Request Val}
    (hr : PullWithin t Own r.cmd r.bin) :
    Option.Rel (Outcome (Twin V V' Own) Eq) (a.handlePull t kvId r) (b.handlePull t kvId r) := by
  obtain ⟨hsame, rfl, rfl, hstores, hpushes, hpulls⟩ := h
  rw [hsame]
  unfold handlePull
  dsimp only [withStore]
  split
  · exact .some ⟨⟨rfl, rfl, rfl, hstores, hpushes, hpulls.park _ hr⟩, .nil⟩
  · refine rel_bind (hstores.answerPullAs hown hown' kvId r.cmd (-1) (b := r.entry) hr)
      fun p q hpq => ?_
    obtain ⟨hstores', hout⟩ := hpq
    refine rel_ite (fun _ => ?_) fun _ => ?_
    · refine rel_bind (R := Outcome (Twin V V' Own) Eq) (releasePushes_twins hown hown' ?_ kvId)
        fun p' q' hpq' => ?_
      · exact ⟨rfl, rfl, rfl, hstores', hpushes, hpulls⟩
      · exact .some (.append hout hpq')
    · exact .some ⟨⟨rfl, rfl, rfl, hstores', hpushes, hpulls⟩, hout⟩

/-- **A BSP server does the same on twin containers.** -/
theorem handle_twins (h : Twin V V' Own a b) (kvId : ℕ) {r : Request Val} (hr : r.Within t Own) :
    Option.Rel (Outcome (Twin V V' Own) Eq) (a.handle t kvId r) (b.handle t kvId r) := by
  unfold handle
  split
  · obtain ⟨hsame, rfl, rfl, hstores, hpushes, hpulls⟩ := h
    rw [hsame]
    refine rel_ite (fun _ => ?_) fun _ => ?_
    · refine rel_bind (rel_refl (R := Eq) (fun _ => rfl) _) fun p _ hp => ?_
      subst hp
      exact .some ⟨⟨rfl, rfl, rfl, hstores, allParked_nil, allParked_nil⟩, .cons rfl .nil⟩
    · exact .some ⟨⟨rfl, rfl, rfl, hstores, hpushes, hpulls⟩, .cons rfl .nil⟩
  split
  · obtain ⟨hsame, rfl, rfl, hstores, hpushes, hpulls⟩ := h
    rw [hsame]
    refine rel_bind (hstores.serveDirect hown hown' kvId a.isAssign hr) fun p q hpq => ?_
    exact .some ⟨⟨rfl, rfl, rfl, hpq.1, hpushes, hpulls⟩, hpq.2⟩
  · next hcontrol =>
      have hmod : r.cmd % consistencyControlOffMagic = r.cmd := Nat.mod_eq_of_lt (by omega)
      unfold Request.Within at hr
      rw [hmod] at hr
      split
      · next hpush =>
          rw [if_pos hpush] at hr
          exact handlePush_twins hown hown' h kvId hr
      · next hpush =>
          rw [if_neg hpush] at hr
          exact handlePull_twins hown hown' h kvId hr.of_body

end BSPServer

/-! ## The SSP server -/

namespace SSPServer

/-- The server with another container. -/
def withStore (srv : SSPServer S Val) (store : S') (isVector : Bool) : SSPServer S' Val where
  numWorkers := srv.numWorkers
  staleness := srv.staleness
  minClock := srv.minClock
  clockCount := srv.clockCount
  workerProgress := srv.workerProgress
  blockedPushes := srv.blockedPushes
  blockedPulls := srv.blockedPulls
  isVector := isVector
  store := store
  serverId := srv.serverId
  initCount := srv.initCount

/-- SSP servers on twin containers, with requests for keys of `Own` parked. -/
structure Twin (V : StoreView S Val t serverId isVector)
    (V' : StoreView S' Val t serverId isVector') (Own : ℕ → Prop) (a : SSPServer S Val)
    (b : SSPServer S' Val) : Prop where
  same : b = a.withStore b.store isVector'
  serverId_eq : a.serverId = serverId
  isVector_eq : a.isVector = isVector
  stores : Twins V V' Own a.store b.store
  pushes : AllParked (fun b => PushWithin t Own b.cmd b.bin) a.blockedPushes
  pulls : AllParked (fun b => PullWithin t Own (bodyCmd b.cmd) b.bin) a.blockedPulls

variable {a : SSPServer S Val} {b : SSPServer S' Val}

include hown hown'

theorem releaseClock_twins (h : Twin V V' Own a b) (kvId : ℕ) :
    Option.Rel (Outcome (Twin V V' Own) Eq) (a.releaseClock t kvId) (b.releaseClock t kvId) := by
  obtain ⟨hsame, rfl, rfl, hstores, hpushes, hpulls⟩ := h
  rw [hsame]
  refine rel_bind (hstores.run_applyPush hown hown' kvId false (hpushes.grow _ a.minClock))
    fun p q hpq => ?_
  refine rel_bind (hpq.1.run_answerPullAs hown hown' kvId (fun b => bodyCmd b.cmd)
    (fun b => sentClock b.cmd a.minClock) (hpulls.grow _ a.minClock)) fun p' q' hpq' => ?_
  exact .some ⟨⟨rfl, rfl, rfl, hpq'.1, (hpushes.grow _).clearAt _, (hpulls.grow _).clearAt _⟩,
    List.rel_append hpq.2 hpq'.2⟩

theorem processPush_twins (h : Twin V V' Own a b) (kvId : ℕ) {e : Blocked Val}
    (he : PushWithin t Own e.cmd e.bin) :
    Option.Rel (Outcome (Twin V V' Own) Eq) (a.processPush t kvId e) (b.processPush t kvId e) := by
  obtain ⟨hsame, rfl, rfl, hstores, hpushes, hpulls⟩ := h
  rw [hsame]
  refine rel_bind (hstores.applyPush hown hown' kvId false he) fun p q hpq => ?_
  obtain ⟨hstores', hout⟩ := hpq
  refine rel_bind (rel_refl (R := Eq) (fun _ => rfl) _) fun count _ hcount => ?_
  subst hcount
  refine rel_ite (fun _ => ?_) fun _ => ?_
  · refine rel_bind (R := Outcome (Twin V V' Own) Eq) (releaseClock_twins hown hown' ?_ kvId)
      fun p' q' hpq' => ?_
    · exact ⟨rfl, rfl, rfl, hstores', hpushes, hpulls⟩
    · exact .some (.append hout hpq')
  · exact .some ⟨⟨rfl, rfl, rfl, hstores', hpushes, hpulls⟩, hout⟩

theorem handlePush_twins (h : Twin V V' Own a b) (kvId : ℕ) {r : Request Val}
    (hr : PushWithin t Own r.cmd r.bin) :
    Option.Rel (Outcome (Twin V V' Own) Eq) (a.handlePush t kvId r) (b.handlePush t kvId r) := by
  obtain ⟨hsame, rfl, rfl, hstores, hpushes, hpulls⟩ := h
  rw [hsame]
  unfold handlePush
  dsimp only [withStore]
  split
  · refine processPush_twins hown hown' ?_ kvId hr
    exact ⟨rfl, rfl, rfl, hstores, hpushes, hpulls⟩
  · exact .some ⟨⟨rfl, rfl, rfl, hstores, hpushes.park _ hr, hpulls⟩, .nil⟩

omit [Add Val] in
theorem handlePull_twins (h : Twin V V' Own a b) (kvId : ℕ) {r : Request Val}
    (hr : PullWithin t Own (bodyCmd r.cmd) r.bin) :
    Option.Rel (Outcome (Twin V V' Own) Eq) (a.handlePull t kvId r) (b.handlePull t kvId r) := by
  obtain ⟨hsame, rfl, rfl, hstores, hpushes, hpulls⟩ := h
  rw [hsame]
  unfold handlePull
  dsimp only [withStore]
  split
  · refine rel_bind (hstores.answerPullAs hown hown' kvId (bodyCmd r.cmd)
      (sentClock r.cmd a.minClock) (b := r.entry) hr) fun p q hpq => ?_
    exact .some ⟨⟨rfl, rfl, rfl, hpq.1, hpushes, hpulls⟩, hpq.2⟩
  · exact .some ⟨⟨rfl, rfl, rfl, hstores, hpushes, hpulls.park _ hr⟩, .nil⟩

/-- **An SSP server does the same on twin containers.** -/
theorem handle_twins (h : Twin V V' Own a b) (kvId : ℕ) {r : Request Val} (hr : r.Within t Own) :
    Option.Rel (Outcome (Twin V V' Own) Eq) (a.handle t kvId r) (b.handle t kvId r) := by
  unfold handle
  split
  · obtain ⟨hsame, rfl, rfl, hstores, hpushes, hpulls⟩ := h
    rw [hsame]
    refine rel_ite (fun _ => ?_) fun _ => ?_
    · refine rel_bind (rel_refl (R := Eq) (fun _ => rfl) _) fun p _ hp => ?_
      subst hp
      exact .some ⟨⟨rfl, rfl, rfl, hstores, allParked_nil, allParked_nil⟩, .cons rfl .nil⟩
    · exact .some ⟨⟨rfl, rfl, rfl, hstores, hpushes, hpulls⟩, .cons rfl .nil⟩
  split
  · obtain ⟨hsame, rfl, rfl, hstores, hpushes, hpulls⟩ := h
    rw [hsame]
    refine rel_bind (hstores.serveDirect hown hown' kvId false hr) fun p q hpq => ?_
    exact .some ⟨⟨rfl, rfl, rfl, hpq.1, hpushes, hpulls⟩, hpq.2⟩
  · next hcontrol =>
      have hmod : r.cmd % consistencyControlOffMagic = r.cmd := Nat.mod_eq_of_lt (by omega)
      unfold Request.Within at hr
      rw [hmod] at hr
      split
      · next hpush =>
          rw [if_pos hpush] at hr
          exact handlePush_twins hown hown' h kvId hr
      · next hpush =>
          rw [if_neg hpush] at hr
          exact handlePull_twins hown hown' h kvId hr

end SSPServer

end Servers

end FlexPS.KVStore
