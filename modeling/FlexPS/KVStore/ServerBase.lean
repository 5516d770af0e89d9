import FlexPS.Lib.Machine
import FlexPS.KVStore.Storage
import Mathlib.Algebra.BigOperators.Group.Finset.Basic

/-!
# What all servers share

Every server applies a push body or answers a pull body in the same way: an empty
body changes nothing and gets no reply.  The consistency servers also park requests,
as the tuple `cmd, src, ts, bin`, and later run the same code over a whole buffer.

## Main definitions

* `Blocked` — a parked request.
* `applyPush`, `answerPull` — handle one request body and reply to it.
* `DefaultUpdateServer` — the server without consistency control.
* `run_applyPush`, `run_answerPull` — what releasing a whole buffer does.
-/

namespace FlexPS.KVStore

open Lib

variable {S Val ι : Type}

/-- `ServerBase::consistency_control_off_magic_`. -/
def consistencyControlOffMagic : ℕ := 100

/-- `ServerBase::with_min_clock_magic_`. -/
def withMinClockMagic : ℕ := 10

/-- An entry of `blocked_pushes_` and `blocked_pulls_`. -/
structure Blocked (Val : Type) where
  cmd : ℕ
  src : ℕ
  ts : ℕ
  bin : BinStream Val
  deriving DecidableEq, Repr

/-- The tuple a server keeps of a request. -/
def Request.entry (r : Request Val) : Blocked Val := ⟨r.cmd, r.src, r.ts, r.bin⟩

/-- The request that was parked. -/
def Blocked.key (b : Blocked Val) : ℕ × ℕ := (b.src, b.ts)

/-- The command and the body of a request. -/
structure Body (Val : Type) where
  cmd : ℕ
  bin : BinStream Val
  deriving DecidableEq, Repr

/-- A command under consistency control. -/
def Controlled (cmd : ℕ) : Prop := cmd ≠ 4 ∧ cmd < consistencyControlOffMagic

instance (cmd : ℕ) : Decidable (Controlled cmd) :=
  inferInstanceAs (Decidable (cmd ≠ 4 ∧ cmd < consistencyControlOffMagic))

section Code

variable [StorageT S Val]

/-- Apply a push body and acknowledge it; an empty body gets no reply. -/
def applyPush [Add Val] (t : RangeTable) (kvId serverId : ℕ) (isVector isAssign : Bool) (store : S)
    (b : Blocked Val) : Option (S × List (Reply Val)) :=
  if b.bin.isEmpty then some (store, [])
  else do
    let store ← update t serverId b.bin store b.cmd isVector isAssign
    some (store, [{ kvId, ts := b.ts, cmd := b.cmd, push := true, src := b.src, res := .empty }])

/-- Answer a pull body with the given command code and clock; an empty body gets no
reply. -/
def answerPullAs (t : RangeTable) (kvId serverId : ℕ) (isVector : Bool) (bodyCmd : ℕ)
    (minClock : ℤ) (store : S) (b : Blocked Val) : Option (S × List (Reply Val)) :=
  if b.bin.isEmpty then some (store, [])
  else do
    let (res, store) ← retrieve t serverId b.bin store bodyCmd isVector
    some (store, [{ kvId, ts := b.ts, cmd := b.cmd, push := false, src := b.src, res, minClock }])

/-- Answer a pull body with its own command code and without a clock. -/
def answerPull (t : RangeTable) (kvId serverId : ℕ) (isVector : Bool) (store : S)
    (b : Blocked Val) : Option (S × List (Reply Val)) :=
  answerPullAs t kvId serverId isVector b.cmd (-1) store b

/-- A request served at once: what the default server does, and what the consistency
servers do for a command with consistency control off. -/
def serveDirect [Add Val] (t : RangeTable) (kvId serverId : ℕ) (isVector isAssign : Bool)
    (store : S) (r : Request Val) : Option (S × List (Reply Val)) :=
  let b : Blocked Val := { r.entry with cmd := r.cmd % consistencyControlOffMagic }
  if r.push then applyPush t kvId serverId isVector isAssign store b
  else answerPull t kvId serverId isVector store b

end Code

/-- `DefaultUpdateServer`. -/
structure DefaultUpdateServer (S : Type) where
  serverId : ℕ
  store : S
  isVector : Bool
  isAssign : Bool
  deriving DecidableEq, Repr

/-- `DefaultUpdateServer::Process` after the header; command 4 fails an assertion. -/
def DefaultUpdateServer.handle [StorageT S Val] [Add Val] (t : RangeTable) (kvId : ℕ)
    (srv : DefaultUpdateServer S) (r : Request Val) :
    Option (DefaultUpdateServer S × List (Reply Val)) :=
  if r.cmd % consistencyControlOffMagic = 4 then none
  else do
    let (store, out) ← serveDirect t kvId srv.serverId srv.isVector srv.isAssign srv.store r
    some ({ srv with store }, out)

/-! ## Who gets a reply -/

section Replies

variable [StorageT S Val] {t : RangeTable} {kvId serverId : ℕ} {isVector : Bool}

theorem applyPush_key [Add Val] {isAssign : Bool} {s s' : S} {b : Blocked Val}
    {out : List (Reply Val)} (h : applyPush t kvId serverId isVector isAssign s b = some (s', out)) :
    ∀ r ∈ out, r.key = b.key := by
  unfold applyPush at h
  split at h
  · simp only [Option.some.injEq, Prod.mk.injEq] at h
    simp [← h.2]
  · simp only [Option.bind_eq_bind, Option.bind_eq_some_iff, Option.some.injEq,
      Prod.mk.injEq] at h
    obtain ⟨s₁, -, -, rfl⟩ := h
    simp [Reply.key, Blocked.key]

theorem answerPullAs_key {bodyCmd : ℕ} {minClock : ℤ} {s s' : S} {b : Blocked Val}
    {out : List (Reply Val)}
    (h : answerPullAs t kvId serverId isVector bodyCmd minClock s b = some (s', out)) :
    ∀ r ∈ out, r.key = b.key := by
  unfold answerPullAs at h
  split at h
  · simp only [Option.some.injEq, Prod.mk.injEq] at h
    simp [← h.2]
  · simp only [Option.bind_eq_bind, Option.bind_eq_some_iff, Option.some.injEq,
      Prod.mk.injEq] at h
    obtain ⟨s₁, -, -, rfl⟩ := h
    simp [Reply.key, Blocked.key]

theorem serveDirect_key [Add Val] {isAssign : Bool} {s s' : S} {r : Request Val}
    {out : List (Reply Val)}
    (h : serveDirect t kvId serverId isVector isAssign s r = some (s', out)) :
    ∀ y ∈ out, y.key = r.key := by
  unfold serveDirect at h
  split at h
  · exact applyPush_key h
  · exact answerPullAs_key h

end Replies

/-! ## Releasing a buffer -/

section Release

variable [StorageT S Val] {t : RangeTable} {serverId : ℕ} {isVector : Bool}

namespace StoreView

variable (V : StoreView S Val t serverId isVector)

/-- A push body that is empty, or writes owned keys only. -/
def PushBody (cmd : ℕ) (bin : BinStream Val) : Prop :=
  bin ≠ [] → ∃ pairs, V.PushOk cmd bin pairs

/-- A pull body that is empty, or reads owned keys only. -/
def PullBody (cmd : ℕ) (bin : BinStream Val) : Prop :=
  bin ≠ [] → ∃ keys touched, V.PullOk cmd bin keys touched

end StoreView

/-- The entries a parked push writes: none when its body is empty. -/
def Blocked.pairs (t : RangeTable) (b : Blocked Val) : List (ℕ × Val) :=
  if b.bin.isEmpty then [] else (decodePush t b.cmd b.bin).getD []

/-- The acknowledgement of a push. -/
def pushReply (kvId : ℕ) (b : Blocked Val) : Reply Val :=
  { kvId, ts := b.ts, cmd := b.cmd, push := true, src := b.src, res := .empty }

/-- The answer to a pull out of a store that holds `held`. -/
def pullReply (t : RangeTable) (kvId bodyCmd : ℕ) (minClock : ℤ) (held : ℕ → Val)
    (b : Blocked Val) : Reply Val :=
  let asked := (decodePull t bodyCmd b.bin).getD ([], [])
  { kvId, ts := b.ts, cmd := b.cmd, push := false, src := b.src
    res := ⟨asked.1, asked.2.map held⟩, minClock }

variable (V : StoreView S Val t serverId isVector)

/-- **Applying one push** adds what it writes and acknowledges a non-empty body. -/
theorem applyPush_eq [AddCommMonoid Val] (kvId : ℕ) {s : S} (hs : V.Good s) {b : Blocked Val}
    (hb : V.PushBody b.cmd b.bin) :
    ∃ s', applyPush t kvId serverId isVector false s b =
        some (s', if b.bin = [] then [] else [pushReply kvId b]) ∧ V.Good s' ∧
      ∀ j, V.Owned j → V.view s' j = V.view s j + written (b.pairs t) j := by
  by_cases hbin : b.bin = []
  · exact ⟨s, by simp [applyPush, hbin], hs, by simp [Blocked.pairs, hbin]⟩
  · obtain ⟨pairs, hp⟩ := hb hbin
    obtain ⟨s', hu, hs', hview⟩ := V.update_add hs hp
    refine ⟨s', by simp [applyPush, hbin, hu, pushReply], hs', ?_⟩
    simpa [Blocked.pairs, hbin, hp.decode] using hview

/-- **Answering one pull** reports the values held and changes none of them. -/
theorem answerPullAs_eq (kvId bodyCmd : ℕ) (minClock : ℤ) {s : S} (hs : V.Good s) {b : Blocked Val}
    (hb : V.PullBody bodyCmd b.bin) {held : ℕ → Val} (hheld : ∀ j, V.Owned j → V.view s j = held j) :
    ∃ s', answerPullAs t kvId serverId isVector bodyCmd minClock s b =
        some (s', if b.bin = [] then [] else [pullReply t kvId bodyCmd minClock held b]) ∧
      V.Good s' ∧ ∀ j, V.Owned j → V.view s' j = held j := by
  by_cases hbin : b.bin = []
  · exact ⟨s, by simp [answerPullAs, hbin], hs, hheld⟩
  · obtain ⟨keys, touched, hp⟩ := hb hbin
    obtain ⟨s', hr, hs', hview⟩ := V.retrieve_eq hs hp
    have hvals : touched.map (V.view s) = touched.map held :=
      List.map_congr_left fun k hk => hheld k (hp.owned k hk)
    refine ⟨s', ?_, hs', fun j hj => (hview j hj).trans (hheld j hj)⟩
    simp [answerPullAs, hbin, hr, pullReply, hp.decode, hvals]

/-- Releasing a buffer of pushes adds up what they write. -/
theorem run_applyPush [AddCommMonoid Val] (kvId : ℕ) (f : ι → Blocked Val) (items : List ι)
    (hf : ∀ i ∈ items, V.PushBody (f i).cmd (f i).bin) {s : S} (hs : V.Good s) :
    ∃ s', run (applyPush t kvId serverId isVector false) s (items.map f) =
        some (s', (items.filter fun i => (f i).bin ≠ []).map fun i => pushReply kvId (f i)) ∧
      V.Good s' ∧
      ∀ j, V.Owned j →
        V.view s' j = V.view s j + (items.map fun i => written ((f i).pairs t) j).sum := by
  induction items generalizing s with
  | nil => exact ⟨s, rfl, hs, by simp⟩
  | cons i items ih =>
      obtain ⟨s₁, happly, hs₁, hview₁⟩ := applyPush_eq V kvId hs (hf i (by simp))
      obtain ⟨s₂, hrun, hs₂, hview₂⟩ := ih (fun i' hi' => hf i' (by simp [hi'])) hs₁
      refine ⟨s₂, ?_, hs₂, ?_⟩
      · rw [List.map_cons, run_cons, happly, Option.bind_some, hrun]
        by_cases hbin : (f i).bin = [] <;> simp [hbin]
      · intro j hj
        rw [hview₂ j hj, hview₁ j hj, List.map_cons, List.sum_cons, add_assoc]

/-- Releasing a buffer of pulls answers each of them out of the same store. -/
theorem run_answerPullAs (kvId : ℕ) (bodyCmd : Blocked Val → ℕ) (minClock : Blocked Val → ℤ)
    (f : ι → Blocked Val) (items : List ι)
    (hf : ∀ i ∈ items, V.PullBody (bodyCmd (f i)) (f i).bin) {s : S} (hs : V.Good s)
    {held : ℕ → Val} (hheld : ∀ j, V.Owned j → V.view s j = held j) :
    ∃ s', run (fun s b => answerPullAs t kvId serverId isVector (bodyCmd b) (minClock b) s b) s
          (items.map f) =
        some (s', (items.filter fun i => (f i).bin ≠ []).map fun i =>
          pullReply t kvId (bodyCmd (f i)) (minClock (f i)) held (f i)) ∧
      V.Good s' ∧ ∀ j, V.Owned j → V.view s' j = held j := by
  induction items generalizing s with
  | nil => exact ⟨s, rfl, hs, hheld⟩
  | cons i items ih =>
      obtain ⟨s₁, hanswer, hs₁, hview₁⟩ :=
        answerPullAs_eq V kvId (bodyCmd (f i)) (minClock (f i)) hs (hf i (by simp)) hheld
      obtain ⟨s₂, hrun, hs₂, hview₂⟩ := ih (fun i' hi' => hf i' (by simp [hi'])) hs₁ hview₁
      refine ⟨s₂, ?_, hs₂, hview₂⟩
      rw [List.map_cons, run_cons, hanswer, Option.bind_some, hrun]
      by_cases hbin : (f i).bin = [] <;> simp [hbin]

end Release

end FlexPS.KVStore
