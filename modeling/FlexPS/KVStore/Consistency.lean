import FlexPS.KVStore.BSPServer
import FlexPS.KVStore.SSPServer

/-!
# What the consistency servers share

The BSP and the SSP server treat an Init in the same way: the first one of an epoch
resets them, the others are only counted.  They reply to the message at hand or to
parked messages, never to anything else.  That is all that the change of epochs depends
on, so it is stated once here, together with the counters that a reset clears.

## Main definitions

* `ConsistencyServer` — the shared interface and its laws.
* `BSPServer.consistency`, `SSPServer.consistency` — the two servers.
-/

namespace FlexPS.KVStore

open Lib

variable {S Val : Type}

/-- A server with consistency control, as seen by a change of epochs.  `C` is the type of
its counters of pushes and pulls. -/
structure ConsistencyServer (Srv Val C : Type) where
  handle : RangeTable → ℕ → Srv → Request Val → Option (Srv × List (Reply Val))
  counters : Srv → C
  numWorkers : Srv → ℤ
  initCount : Srv → ℕ
  /-- The requests in the buffers, by sender and timestamp. -/
  Parked : Srv → ℕ × ℕ → Prop
  /-- The first Init of an epoch sets the number of workers and empties the buffers. -/
  first_init : ∀ {t kvId srv r srv' out} {n : ℤ}, r.cmd = 4 → r.bin = Cell.intCodec.put n →
    n ≠ -1 → initCount srv = 0 → handle t kvId srv r = some (srv', out) →
      numWorkers srv' = n ∧ initCount srv' = (if n = 1 then 0 else 1) ∧
        (∀ x, ¬ Parked srv' x) ∧ ∀ y ∈ out, y.key = r.key
  /-- A further Init is only counted. -/
  later_init : ∀ {t kvId srv r srv' out}, r.cmd = 4 → initCount srv ≠ 0 →
    handle t kvId srv r = some (srv', out) →
      counters srv' = counters srv ∧ numWorkers srv' = numWorkers srv ∧
        initCount srv' =
          (if ((initCount srv + 1 : ℕ) : ℤ) = numWorkers srv then 0 else initCount srv + 1) ∧
        (∀ x, Parked srv' x → Parked srv x) ∧ ∀ y ∈ out, y.key = r.key
  /-- A push or a pull is parked or answered, and may release parked ones. -/
  request : ∀ {t kvId srv r srv' out}, r.cmd ≠ 4 → handle t kvId srv r = some (srv', out) →
    numWorkers srv' = numWorkers srv ∧ initCount srv' = initCount srv ∧
      (∀ x, Parked srv' x → Parked srv x ∨ x = r.key) ∧
      ∀ y ∈ out, Parked srv y.key ∨ y.key = r.key

/-! ## Buffers -/

/-- A request is in some buffer of the vector. -/
def InBuffer (buf : List (List (Blocked Val))) (x : ℕ × ℕ) : Prop :=
  ∃ e, ∃ b ∈ slot buf e, b.key = x

@[simp] theorem inBuffer_nil (x : ℕ × ℕ) : ¬ InBuffer ([] : List (List (Blocked Val))) x := by
  rintro ⟨e, b, hb, -⟩
  exact List.not_mem_nil hb

theorem inBuffer_clearAt {buf : List (List (Blocked Val))} {e : ℕ} {x : ℕ × ℕ}
    (h : InBuffer (clearAt buf e) x) : InBuffer buf x := by
  obtain ⟨e', b, hb, hx⟩ := h
  rw [slot_clearAt] at hb
  split at hb
  · exact absurd hb List.not_mem_nil
  · exact ⟨e', b, hb, hx⟩

theorem inBuffer_park {buf : List (List (Blocked Val))} {e : ℕ} {r : Request Val} {x : ℕ × ℕ}
    (h : InBuffer (park buf e r.entry) x) : InBuffer buf x ∨ x = r.key := by
  obtain ⟨e', b, hb, rfl⟩ := h
  rw [park, slot_modifyAt] at hb
  split at hb
  · rcases List.mem_append.mp hb with hb | hb
    · exact Or.inl ⟨e, b, hb, rfl⟩
    · rw [List.mem_singleton.mp hb]
      exact Or.inr rfl
  · exact Or.inl ⟨e', b, hb, rfl⟩

theorem inBuffer_grow {buf : List (List (Blocked Val))} {n : ℕ} {x : ℕ × ℕ} :
    InBuffer (grow buf n) x ↔ InBuffer buf x := by
  simp only [InBuffer, slot_grow]

section Release

variable {step : S → Blocked Val → Option (S × List (Reply Val))}

/-- A released buffer answers requests that were in it. -/
theorem inBuffer_of_released {s s' : S} {out : List (Reply Val)}
    {buf : List (List (Blocked Val))} {e : ℕ}
    (hstep : ∀ {s b s' o}, step s b = some (s', o) → ∀ y ∈ o, y.key = b.key)
    (h : run step s (slot buf e) = some (s', out)) : ∀ y ∈ out, InBuffer buf y.key := by
  intro y hy
  obtain ⟨b, hb, hkey⟩ := run_outputs (Q := fun b y => Reply.key y = b.key) hstep h y hy
  exact ⟨e, b, hb, hkey.symm⟩

end Release

/-! ## The BSP server -/

namespace BSPServer

/-- The requests in the buffers. -/
def Parked (srv : BSPServer S Val) (x : ℕ × ℕ) : Prop :=
  InBuffer srv.blockedPushes x ∨ InBuffer srv.blockedPulls x

variable [StorageT S Val] {t : RangeTable} {kvId : ℕ} {srv srv' : BSPServer S Val}
  {r : Request Val} {out : List (Reply Val)}

theorem releasePulls_spec (h : srv.releasePulls t kvId = some (srv', out)) :
    srv'.numWorkers = srv.numWorkers ∧ srv'.initCount = srv.initCount ∧
      (∀ x, srv'.Parked x → srv.Parked x) ∧ ∀ y ∈ out, srv.Parked y.key := by
  simp only [releasePulls, Option.bind_eq_bind, Option.bind_eq_some_iff, Option.some.injEq,
    Prod.mk.injEq] at h
  obtain ⟨⟨store, released⟩, hrun, rfl, rfl⟩ := h
  refine ⟨rfl, rfl, fun x hx => hx.imp_right inBuffer_clearAt, fun y hy => Or.inr ?_⟩
  exact inBuffer_of_released answerPullAs_key hrun y hy

theorem releasePushes_spec [Add Val] (h : srv.releasePushes t kvId = some (srv', out)) :
    srv'.numWorkers = srv.numWorkers ∧ srv'.initCount = srv.initCount ∧
      (∀ x, srv'.Parked x → srv.Parked x) ∧ ∀ y ∈ out, srv.Parked y.key := by
  simp only [releasePushes, Option.bind_eq_bind, Option.bind_eq_some_iff, Option.some.injEq,
    Prod.mk.injEq] at h
  obtain ⟨⟨store, released⟩, hrun, rfl, rfl⟩ := h
  refine ⟨rfl, rfl, fun x hx => hx.imp_left inBuffer_clearAt, fun y hy => Or.inl ?_⟩
  exact inBuffer_of_released applyPush_key hrun y hy

theorem handlePush_spec [Add Val] (h : srv.handlePush t kvId r = some (srv', out)) :
    srv'.numWorkers = srv.numWorkers ∧ srv'.initCount = srv.initCount ∧
      (∀ x, srv'.Parked x → srv.Parked x ∨ x = r.key) ∧
      ∀ y ∈ out, srv.Parked y.key ∨ y.key = r.key := by
  unfold handlePush at h
  simp only [Option.bind_eq_bind] at h
  split at h
  · simp only [Option.some.injEq, Prod.mk.injEq] at h
    obtain ⟨rfl, rfl⟩ := h
    refine ⟨rfl, rfl, ?_, by simp⟩
    rintro x (hx | hx)
    · exact (inBuffer_park hx).imp_left Or.inl
    · exact Or.inl (Or.inr hx)
  · rw [Option.bind_eq_some_iff] at h
    obtain ⟨⟨store, first⟩, hfirst, h⟩ := h
    have hkey := applyPush_key hfirst
    split at h
    · rw [Option.bind_eq_some_iff] at h
      obtain ⟨⟨srv₁, released⟩, hrelease, h⟩ := h
      simp only [Option.some.injEq, Prod.mk.injEq] at h
      obtain ⟨rfl, rfl⟩ := h
      obtain ⟨hn, hi, hp, hy⟩ := releasePulls_spec hrelease
      refine ⟨hn, hi, fun x hx => Or.inl (hp x hx), fun y hmem => ?_⟩
      rcases List.mem_append.mp hmem with hmem | hmem
      · exact Or.inr (hkey y hmem)
      · exact Or.inl (hy y hmem)
    · simp only [Option.some.injEq, Prod.mk.injEq] at h
      obtain ⟨rfl, rfl⟩ := h
      exact ⟨rfl, rfl, fun x hx => Or.inl hx, fun y hmem => Or.inr (hkey y hmem)⟩

theorem handlePull_spec [Add Val] (h : srv.handlePull t kvId r = some (srv', out)) :
    srv'.numWorkers = srv.numWorkers ∧ srv'.initCount = srv.initCount ∧
      (∀ x, srv'.Parked x → srv.Parked x ∨ x = r.key) ∧
      ∀ y ∈ out, srv.Parked y.key ∨ y.key = r.key := by
  unfold handlePull at h
  simp only [Option.bind_eq_bind] at h
  split at h
  · simp only [Option.some.injEq, Prod.mk.injEq] at h
    obtain ⟨rfl, rfl⟩ := h
    refine ⟨rfl, rfl, ?_, by simp⟩
    rintro x (hx | hx)
    · exact Or.inl (Or.inl hx)
    · exact (inBuffer_park hx).imp_left Or.inr
  · rw [Option.bind_eq_some_iff] at h
    obtain ⟨⟨store, first⟩, hfirst, h⟩ := h
    have hkey := answerPullAs_key hfirst
    split at h
    · rw [Option.bind_eq_some_iff] at h
      obtain ⟨⟨srv₁, released⟩, hrelease, h⟩ := h
      simp only [Option.some.injEq, Prod.mk.injEq] at h
      obtain ⟨rfl, rfl⟩ := h
      obtain ⟨hn, hi, hp, hy⟩ := releasePushes_spec hrelease
      refine ⟨hn, hi, fun x hx => Or.inl (hp x hx), fun y hmem => ?_⟩
      rcases List.mem_append.mp hmem with hmem | hmem
      · exact Or.inr (hkey y hmem)
      · exact Or.inl (hy y hmem)
    · simp only [Option.some.injEq, Prod.mk.injEq] at h
      obtain ⟨rfl, rfl⟩ := h
      exact ⟨rfl, rfl, fun x hx => Or.inl hx, fun y hmem => Or.inr (hkey y hmem)⟩

/-- The BSP server, with its four counters. -/
def consistency [Add Val] :
    ConsistencyServer (BSPServer S Val) Val (List ℕ × List ℕ × List ℕ × List ℕ) where
  handle := BSPServer.handle
  counters srv := (srv.pushCount, srv.pullCount, srv.pushProgress, srv.pullProgress)
  numWorkers := BSPServer.numWorkers
  initCount := BSPServer.initCount
  Parked := BSPServer.Parked
  first_init := by
    intro t kvId srv r srv' out n hcmd hbin hn hcount h
    simp only [handle, hcmd, if_true, handleInit, hcount, hbin, Codec.get_put_nil,
      Option.bind_eq_bind, Option.bind_some, Option.some.injEq] at h
    obtain ⟨rfl, rfl⟩ := h
    refine ⟨by simp [reset, hn], ?_, ?_, by simp [Reply.key, Request.key]⟩
    · simp [reset, hn, hcount, eq_comm]
    · rintro x (hx | hx)
      · exact inBuffer_nil x hx
      · exact inBuffer_nil x hx
  later_init := by
    intro t kvId srv r srv' out hcmd hcount h
    simp only [handle, hcmd, if_true, handleInit, hcount, if_false, Option.some.injEq,
      countInit, Prod.mk.injEq] at h
    obtain ⟨rfl, rfl⟩ := h
    exact ⟨rfl, rfl, rfl, fun x hx => hx, by simp [Reply.key, Request.key]⟩
  request := by
    intro t kvId srv r srv' out hcmd h
    simp only [handle, if_neg hcmd, Option.bind_eq_bind] at h
    split at h
    · simp only [Option.bind_eq_some_iff, Option.some.injEq, Prod.mk.injEq] at h
      obtain ⟨⟨store, out₁⟩, hserve, rfl, rfl⟩ := h
      exact ⟨rfl, rfl, fun x hx => Or.inl hx, fun y hy => Or.inr (serveDirect_key hserve y hy)⟩
    · split at h
      · exact handlePush_spec h
      · exact handlePull_spec h

end BSPServer

/-! ## The SSP server -/

namespace SSPServer

/-- The requests in the buffers. -/
def Parked (srv : SSPServer S Val) (x : ℕ × ℕ) : Prop :=
  InBuffer srv.blockedPushes x ∨ InBuffer srv.blockedPulls x

variable [StorageT S Val] {t : RangeTable} {kvId : ℕ} {srv srv' : SSPServer S Val}
  {r : Request Val} {out : List (Reply Val)}

theorem releaseClock_spec [Add Val] (h : srv.releaseClock t kvId = some (srv', out)) :
    srv'.numWorkers = srv.numWorkers ∧ srv'.initCount = srv.initCount ∧
      (∀ x, srv'.Parked x → srv.Parked x) ∧ ∀ y ∈ out, srv.Parked y.key := by
  simp only [releaseClock, Option.bind_eq_bind, Option.bind_eq_some_iff, Option.some.injEq,
    Prod.mk.injEq] at h
  obtain ⟨⟨store, pushed⟩, hpush, ⟨store', pulled⟩, hpull, rfl, rfl⟩ := h
  refine ⟨rfl, rfl, fun x hx => ?_, fun y hy => ?_⟩
  · exact hx.imp (fun hx => inBuffer_grow.mp (inBuffer_clearAt hx))
      fun hx => inBuffer_grow.mp (inBuffer_clearAt hx)
  · rcases List.mem_append.mp hy with hy | hy
    · exact Or.inl (inBuffer_grow.mp (inBuffer_of_released applyPush_key hpush y hy))
    · exact Or.inr (inBuffer_grow.mp (inBuffer_of_released answerPullAs_key hpull y hy))

theorem processPush_spec [Add Val] (h : srv.processPush t kvId r.entry = some (srv', out)) :
    srv'.numWorkers = srv.numWorkers ∧ srv'.initCount = srv.initCount ∧
      (∀ x, srv'.Parked x → srv.Parked x) ∧ ∀ y ∈ out, srv.Parked y.key ∨ y.key = r.key := by
  simp only [processPush, Option.bind_eq_bind, Option.bind_eq_some_iff] at h
  obtain ⟨⟨store, first⟩, hfirst, count, -, h⟩ := h
  have hkey := applyPush_key hfirst
  split at h
  · rw [Option.bind_eq_some_iff] at h
    obtain ⟨⟨srv₁, released⟩, hrelease, h⟩ := h
    simp only [Option.some.injEq, Prod.mk.injEq] at h
    obtain ⟨rfl, rfl⟩ := h
    obtain ⟨hn, hi, hp, hy⟩ := releaseClock_spec hrelease
    refine ⟨hn, hi, hp, fun y hmem => ?_⟩
    rcases List.mem_append.mp hmem with hmem | hmem
    · exact Or.inr (hkey y hmem)
    · exact Or.inl (hy y hmem)
  · simp only [Option.some.injEq, Prod.mk.injEq] at h
    obtain ⟨rfl, rfl⟩ := h
    exact ⟨rfl, rfl, fun x hx => hx, fun y hmem => Or.inr (hkey y hmem)⟩

theorem handlePush_spec [Add Val] (h : srv.handlePush t kvId r = some (srv', out)) :
    srv'.numWorkers = srv.numWorkers ∧ srv'.initCount = srv.initCount ∧
      (∀ x, srv'.Parked x → srv.Parked x ∨ x = r.key) ∧
      ∀ y ∈ out, srv.Parked y.key ∨ y.key = r.key := by
  unfold handlePush at h
  simp only at h
  split at h
  · obtain ⟨hn, hi, hp, hy⟩ := processPush_spec h
    exact ⟨hn, hi, fun x hx => Or.inl (hp x hx), hy⟩
  · simp only [Option.some.injEq, Prod.mk.injEq] at h
    obtain ⟨rfl, rfl⟩ := h
    refine ⟨rfl, rfl, ?_, by simp⟩
    rintro x (hx | hx)
    · exact (inBuffer_park hx).imp_left Or.inl
    · exact Or.inl (Or.inr hx)

theorem handlePull_spec (h : srv.handlePull t kvId r = some (srv', out)) :
    srv'.numWorkers = srv.numWorkers ∧ srv'.initCount = srv.initCount ∧
      (∀ x, srv'.Parked x → srv.Parked x ∨ x = r.key) ∧
      ∀ y ∈ out, srv.Parked y.key ∨ y.key = r.key := by
  unfold handlePull at h
  simp only [Option.bind_eq_bind] at h
  split at h
  · simp only [Option.bind_eq_some_iff, Option.some.injEq, Prod.mk.injEq] at h
    obtain ⟨⟨store, out₁⟩, hanswer, rfl, rfl⟩ := h
    exact ⟨rfl, rfl, fun x hx => Or.inl hx, fun y hy => Or.inr (answerPullAs_key hanswer y hy)⟩
  · simp only [Option.some.injEq, Prod.mk.injEq] at h
    obtain ⟨rfl, rfl⟩ := h
    refine ⟨rfl, rfl, ?_, by simp⟩
    rintro x (hx | hx)
    · exact Or.inl (Or.inl hx)
    · exact (inBuffer_park hx).imp_left Or.inr

/-- The SSP server, with its two counters. -/
def consistency [Add Val] : ConsistencyServer (SSPServer S Val) Val (List ℕ × List ℕ) where
  handle := SSPServer.handle
  counters srv := (srv.clockCount, srv.workerProgress)
  numWorkers := SSPServer.numWorkers
  initCount := SSPServer.initCount
  Parked := SSPServer.Parked
  first_init := by
    intro t kvId srv r srv' out n hcmd hbin hn hcount h
    simp only [handle, hcmd, if_true, handleInit, hcount, hbin, Codec.get_put_nil,
      Option.bind_eq_bind, Option.bind_some, Option.some.injEq] at h
    obtain ⟨rfl, rfl⟩ := h
    refine ⟨by simp [reset, hn], ?_, ?_, by simp [Reply.key, Request.key]⟩
    · simp [reset, hn, hcount, eq_comm]
    · rintro x (hx | hx)
      · exact inBuffer_nil x hx
      · exact inBuffer_nil x hx
  later_init := by
    intro t kvId srv r srv' out hcmd hcount h
    simp only [handle, hcmd, if_true, handleInit, hcount, if_false, Option.some.injEq,
      countInit, Prod.mk.injEq] at h
    obtain ⟨rfl, rfl⟩ := h
    exact ⟨rfl, rfl, rfl, fun x hx => hx, by simp [Reply.key, Request.key]⟩
  request := by
    intro t kvId srv r srv' out hcmd h
    simp only [handle, if_neg hcmd, Option.bind_eq_bind] at h
    split at h
    · simp only [Option.bind_eq_some_iff, Option.some.injEq, Prod.mk.injEq] at h
      obtain ⟨⟨store, out₁⟩, hserve, rfl, rfl⟩ := h
      exact ⟨rfl, rfl, fun x hx => Or.inl hx, fun y hy => Or.inr (serveDirect_key hserve y hy)⟩
    · split at h
      · exact handlePush_spec h
      · exact handlePull_spec h

end SSPServer

end FlexPS.KVStore
