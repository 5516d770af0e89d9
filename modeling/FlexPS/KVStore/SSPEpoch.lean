import FlexPS.Lib.Progress
import FlexPS.KVStore.SSPServer
import Mathlib.Data.Nat.Nth
import Mathlib.Algebra.BigOperators.Group.Finset.Basic

/-!
# One epoch of the SSP server

Every worker sends an Init and then any sequence of pushes and pulls.  The *clock* of a
message is the number of pushes its worker sent before it: the number of a push, and
what a pull may expect to see.  Pushes and pulls wait under one rule: a message is
handled when its clock is at most `staleness` above the clock of the slowest worker and
is parked until then.

## Main definitions

* `SSPEpoch`, `SSPEpoch.message` — the workers and what they send.
* `SSPEpoch.clock`, `SSPEpoch.progress` — pushes sent before a message, and so far.
* `SSPEpoch.applied`, `Waiting`, `Answered` — where a message is at a given clock.
* `SSPEpoch.Counters` — the counters of the server, and how each request moves them.
* `SSPEpoch.held`, `SSPEpoch.reply` — the store and the replies at a given clock.
-/

namespace FlexPS.KVStore

open Lib

variable {S Val : Type} [StorageT S Val] {t : RangeTable} {serverId : ℕ} {isVector : Bool}

/-- The workers of an epoch and what they send after their Init. -/
structure SSPEpoch (V : StoreView S Val t serverId isVector) where
  workers : Finset ℕ
  workers_nonempty : workers.Nonempty
  staleness : ℕ
  ts : ℕ → ℕ → ℕ
  ts_injective : ∀ w, Function.Injective (ts w)
  /-- Whether the `n`-th request of a worker is a push. -/
  isPush : ℕ → ℕ → Bool
  body : ℕ → ℕ → Body Val
  controlled : ∀ w n, Controlled (body w n).cmd
  push_ok : ∀ w n, isPush w n = true → V.PushBody (body w n).cmd (body w n).bin
  pull_ok : ∀ w n, isPush w n = false → V.PullBody (bodyCmd (body w n).cmd) (body w n).bin

namespace SSPEpoch

variable {V : StoreView S Val t serverId isVector} (E : SSPEpoch V)

/-- The `n`-th message of a worker: its Init, then its requests. -/
def message (w : ℕ) : ℕ → Request Val
  | 0 =>
      { ts := E.ts w 0, cmd := 4, push := true, src := w
        bin := Cell.intCodec.put E.workers.card }
  | n + 1 =>
      { ts := E.ts w (n + 1), cmd := (E.body w n).cmd, push := E.isPush w n, src := w
        bin := (E.body w n).bin }

/-- The parked form of a message. -/
def entry (x : ℕ × ℕ) : Blocked Val := (E.message x.1 x.2).entry

@[simp] theorem message_src (w n : ℕ) : (E.message w n).src = w := by
  cases n <;> rfl

@[simp] theorem message_ts (w n : ℕ) : (E.message w n).ts = E.ts w n := by
  cases n <;> rfl

/-- What tells messages apart: sender and timestamp. -/
def key (x : ℕ × ℕ) : ℕ × ℕ := (x.1, E.ts x.1 x.2)

theorem key_injective : Function.Injective E.key := by
  rintro ⟨w, n⟩ ⟨w', n'⟩ h
  simp only [key, Prod.mk.injEq] at h
  obtain ⟨rfl, hts⟩ := h
  rw [E.ts_injective w hts]

theorem entry_injective : Function.Injective E.entry := by
  intro x y h
  have hsrc : x.1 = y.1 := by simpa [entry, Request.entry] using congrArg Blocked.src h
  have hts : E.ts x.1 x.2 = E.ts y.1 y.2 := by
    simpa [entry, Request.entry] using congrArg Blocked.ts h
  exact E.key_injective (Prod.ext hsrc hts)

/-! ## Clocks -/

/-- The message is a push. -/
def IsPush (w i : ℕ) : Prop := 0 < i ∧ E.isPush w (i - 1) = true

instance (w : ℕ) : DecidablePred (E.IsPush w) := fun i =>
  inferInstanceAs (Decidable (0 < i ∧ E.isPush w (i - 1) = true))

/-- How many pushes the worker sent before the message. -/
def clock (x : ℕ × ℕ) : ℕ := Nat.count (E.IsPush x.1) x.2

/-- How many pushes have arrived from each worker. -/
def progress (n : ℕ → ℕ) (w : ℕ) : ℕ := E.clock (w, n w)

@[simp] theorem isPush_succ (w i : ℕ) : E.IsPush w (i + 1) ↔ E.isPush w i = true := by
  simp [IsPush]

theorem not_isPush_zero (w : ℕ) : ¬ E.IsPush w 0 := by
  simp [IsPush]

@[simp] theorem clock_zero (w : ℕ) : E.clock (w, 0) = 0 := rfl

theorem progress_advance_push {n : ℕ → ℕ} {w : ℕ} (h : E.IsPush w (n w)) :
    E.progress (advance n w) = advance (E.progress n) w := by
  funext v
  by_cases hv : v = w
  · subst hv
    simp [progress, clock, Nat.count_succ, h]
  · simp [progress, advance_of_ne _ hv]

theorem progress_advance_other {n : ℕ → ℕ} {w : ℕ} (h : ¬ E.IsPush w (n w)) :
    E.progress (advance n w) = E.progress n := by
  funext v
  by_cases hv : v = w
  · subst hv
    simp [progress, clock, Nat.count_succ, h]
  · simp [progress, advance_of_ne _ hv]

/-- The push with a given number below the progress of its worker has arrived. -/
theorem exists_push {n : ℕ → ℕ} {w c : ℕ} (h : c < E.progress n w) :
    ∃ i, E.IsPush w i ∧ E.clock (w, i) = c ∧ i < n w := by
  refine ⟨Nat.nth (E.IsPush w) c, ?_, ?_, ?_⟩
  · exact Nat.nth_mem c fun hfin => lt_of_lt_of_le h (Nat.count_le_card hfin (n w))
  · exact Nat.count_nth fun hfin => lt_of_lt_of_le h (Nat.count_le_card hfin (n w))
  · exact Nat.nth_lt_of_lt_count h

/-! ## Which messages are where -/

/-- The pushes that are in the store. -/
def applied (n : ℕ → ℕ) (m : ℕ) : Finset (ℕ × ℕ) :=
  (arrived E.workers n).filter fun x => E.IsPush x.1 x.2 ∧ E.clock x ≤ m + E.staleness

/-- Arrived after the Init, and too far ahead. -/
def Waiting (n : ℕ → ℕ) (m : ℕ) (x : ℕ × ℕ) : Prop :=
  x.1 ∈ E.workers ∧ x.2 < n x.1 ∧ m + E.staleness < E.clock x

/-- Arrived, not too far ahead, and not empty. -/
def Answered (n : ℕ → ℕ) (m : ℕ) (x : ℕ × ℕ) : Prop :=
  x.1 ∈ E.workers ∧ x.2 < n x.1 ∧ E.clock x ≤ m + E.staleness ∧ (E.entry x).bin ≠ []

theorem mem_applied {n : ℕ → ℕ} {m : ℕ} {x : ℕ × ℕ} : x ∈ E.applied n m ↔
    x.1 ∈ E.workers ∧ x.2 < n x.1 ∧ E.IsPush x.1 x.2 ∧ E.clock x ≤ m + E.staleness := by
  simp only [applied, Finset.mem_filter, mem_arrived, and_assoc]

/-! ## One more arrival, and one more clock -/

theorem waiting_advance {n : ℕ → ℕ} {m w : ℕ} (hw : w ∈ E.workers) (x : ℕ × ℕ) :
    E.Waiting (advance n w) m x ↔ E.Waiting n m x ∨
      (x = (w, n w) ∧ m + E.staleness < E.clock (w, n w)) := by
  simp only [Waiting, lt_advance_iff]
  constructor
  · rintro ⟨h₁, h₂ | rfl, h₃⟩
    · exact Or.inl ⟨h₁, h₂, h₃⟩
    · exact Or.inr ⟨rfl, h₃⟩
  · rintro (⟨h₁, h₂, h₃⟩ | ⟨rfl, h₃⟩)
    · exact ⟨h₁, Or.inl h₂, h₃⟩
    · exact ⟨hw, Or.inr rfl, h₃⟩

/-- A message that is handled at once waits for nothing. -/
theorem waiting_advance_of_le {n : ℕ → ℕ} {m w : ℕ} (hw : w ∈ E.workers)
    (hle : E.clock (w, n w) ≤ m + E.staleness) (x : ℕ × ℕ) :
    E.Waiting (advance n w) m x ↔ E.Waiting n m x := by
  rw [E.waiting_advance hw]
  refine or_iff_left ?_
  rintro ⟨-, hlt⟩
  omega

theorem answered_advance {n : ℕ → ℕ} {m w : ℕ} (hw : w ∈ E.workers) (x : ℕ × ℕ) :
    E.Answered (advance n w) m x ↔ E.Answered n m x ∨
      (x = (w, n w) ∧ E.clock (w, n w) ≤ m + E.staleness ∧ (E.entry (w, n w)).bin ≠ []) := by
  simp only [Answered, lt_advance_iff]
  constructor
  · rintro ⟨h₁, h₂ | rfl, h₃, h₄⟩
    · exact Or.inl ⟨h₁, h₂, h₃, h₄⟩
    · exact Or.inr ⟨rfl, h₃, h₄⟩
  · rintro (⟨h₁, h₂, h₃, h₄⟩ | ⟨rfl, h₃, h₄⟩)
    · exact ⟨h₁, Or.inl h₂, h₃, h₄⟩
    · exact ⟨hw, Or.inr rfl, h₃, h₄⟩

theorem mem_applied_advance {n : ℕ → ℕ} {m w : ℕ} (hw : w ∈ E.workers) (x : ℕ × ℕ) :
    x ∈ E.applied (advance n w) m ↔ x ∈ E.applied n m ∨
      (x = (w, n w) ∧ E.IsPush w (n w) ∧ E.clock (w, n w) ≤ m + E.staleness) := by
  simp only [mem_applied, lt_advance_iff]
  constructor
  · rintro ⟨h₁, h₂ | rfl, h₃, h₄⟩
    · exact Or.inl ⟨h₁, h₂, h₃, h₄⟩
    · exact Or.inr ⟨rfl, h₃, h₄⟩
  · rintro (⟨h₁, h₂, h₃, h₄⟩ | ⟨rfl, h₃, h₄⟩)
    · exact ⟨h₁, Or.inl h₂, h₃, h₄⟩
    · exact ⟨hw, Or.inr rfl, h₃, h₄⟩

/-- A message that is not a push, or is too far ahead, is not in the store. -/
theorem applied_advance_of_not {n : ℕ → ℕ} {m w : ℕ} (hw : w ∈ E.workers)
    (h : ¬ (E.IsPush w (n w) ∧ E.clock (w, n w) ≤ m + E.staleness)) :
    E.applied (advance n w) m = E.applied n m := by
  ext x
  rw [E.mem_applied_advance hw]
  exact or_iff_left fun hx => h hx.2

theorem waiting_succ {n : ℕ → ℕ} {m : ℕ} (x : ℕ × ℕ) :
    E.Waiting n (m + 1) x ↔ E.Waiting n m x ∧ E.clock x ≠ m + 1 + E.staleness := by
  simp only [Waiting]
  constructor
  · rintro ⟨h₁, h₂, h₃⟩
    exact ⟨⟨h₁, h₂, by omega⟩, by omega⟩
  · rintro ⟨⟨h₁, h₂, h₃⟩, h₄⟩
    exact ⟨h₁, h₂, by omega⟩

theorem answered_succ {n : ℕ → ℕ} {m : ℕ} (x : ℕ × ℕ) :
    E.Answered n (m + 1) x ↔ E.Answered n m x ∨
      (E.clock x = m + 1 + E.staleness ∧ E.Waiting n m x ∧ (E.entry x).bin ≠ []) := by
  simp only [Answered, Waiting]
  constructor
  · rintro ⟨h₁, h₂, h₃, h₄⟩
    rcases Nat.lt_or_ge (m + E.staleness) (E.clock x) with h | h
    · exact Or.inr ⟨by omega, ⟨h₁, h₂, h⟩, h₄⟩
    · exact Or.inl ⟨h₁, h₂, h, h₄⟩
  · rintro (⟨h₁, h₂, h₃, h₄⟩ | ⟨h₁, ⟨h₂, h₃, h₄⟩, h₅⟩)
    · exact ⟨h₁, h₂, by omega, h₄⟩
    · exact ⟨h₂, h₃, by omega, h₅⟩

theorem mem_applied_succ {n : ℕ → ℕ} {m : ℕ} (x : ℕ × ℕ) :
    x ∈ E.applied n (m + 1) ↔ x ∈ E.applied n m ∨
      (E.IsPush x.1 x.2 ∧ E.clock x = m + 1 + E.staleness ∧ E.Waiting n m x) := by
  simp only [mem_applied, Waiting]
  constructor
  · rintro ⟨h₁, h₂, h₃, h₄⟩
    rcases Nat.lt_or_ge (m + E.staleness) (E.clock x) with h | h
    · exact Or.inr ⟨h₃, by omega, h₁, h₂, h⟩
    · exact Or.inl ⟨h₁, h₂, h₃, h⟩
  · rintro (⟨h₁, h₂, h₃, h₄⟩ | ⟨h₁, h₂, h₃, h₄, h₅⟩)
    · exact ⟨h₁, h₂, h₃, by omega⟩
    · exact ⟨h₃, h₄, h₁, by omega⟩

/-! ## The counters -/

/-- The counters of the server after `n` arrivals per worker, at clock `m`. -/
structure Counters (n : ℕ → ℕ) (m : ℕ) (srv : SSPServer S Val) : Prop where
  serverId_eq : srv.serverId = serverId
  isVector_eq : srv.isVector = isVector
  staleness_eq : srv.staleness = E.staleness
  numWorkers_eq : srv.numWorkers = E.workers.card
  initCount_eq : srv.initCount =
    if past E.workers n 0 = E.workers.card then 0 else past E.workers n 0
  workerProgress_eq : ∀ w ∈ E.workers, slot srv.workerProgress w = E.progress n w
  clockCount_eq : ∀ c, slot srv.clockCount c = past E.workers (E.progress n) c
  minClock_eq : srv.minClock = m

section Counters

variable {E} {n : ℕ → ℕ} {m w : ℕ} {srv : SSPServer S Val}

/-- The counters do not look at the buffers and the store. -/
theorem Counters.withContents (h : E.Counters n m srv) (store : S)
    (blockedPulls blockedPushes : List (List (Blocked Val))) :
    E.Counters n m { srv with store, blockedPulls, blockedPushes } :=
  ⟨h.serverId_eq, h.isVector_eq, h.staleness_eq, h.numWorkers_eq, h.initCount_eq,
    h.workerProgress_eq, h.clockCount_eq, h.minClock_eq⟩

/-- Counting a further Init. -/
theorem Counters.countInit (h : E.Counters n m srv) (kvId : ℕ) (hw : w ∈ E.workers)
    (hn : n w = 0) : E.Counters (advance n w) m (srv.countInit kvId (E.message w 0)).1 := by
  have hprogress : E.progress (advance n w) = E.progress n :=
    E.progress_advance_other (by rw [hn]; exact E.not_isPush_zero w)
  have hne : past E.workers n 0 ≠ E.workers.card := by
    intro hcard
    have := past_eq_card_iff.mp hcard w hw
    omega
  refine ⟨h.serverId_eq, h.isVector_eq, h.staleness_eq, h.numWorkers_eq, ?_, ?_, ?_,
    h.minClock_eq⟩
  · have hpast : past E.workers (advance n w) 0 = past E.workers n 0 + 1 := by
      rw [past_advance hw, if_pos hn.symm]
    simp only [SSPServer.countInit, h.initCount_eq, if_neg hne, h.numWorkers_eq, hpast]
    norm_cast
  · rw [hprogress]
    exact h.workerProgress_eq
  · rw [hprogress]
    exact h.clockCount_eq

/-- After its Init, a message of a worker leaves the Init count alone. -/
theorem Counters.initCount_advance (h : E.Counters n m srv) (hw : w ∈ E.workers) (hn : 0 < n w) :
    srv.initCount = if past E.workers (advance n w) 0 = E.workers.card then 0
      else past E.workers (advance n w) 0 := by
  have hpast : past E.workers (advance n w) 0 = past E.workers n 0 := by
    rw [past_advance hw, if_neg (by omega)]
  rw [hpast]
  exact h.initCount_eq

/-- A pull only makes room for its worker. -/
theorem Counters.countPull (h : E.Counters n m srv) (hw : w ∈ E.workers) (hn : 0 < n w)
    (hpull : ¬ E.IsPush w (n w)) :
    E.Counters (advance n w) m
      { srv with workerProgress := grow srv.workerProgress (w + 1) } := by
  refine ⟨h.serverId_eq, h.isVector_eq, h.staleness_eq, h.numWorkers_eq,
    h.initCount_advance hw hn, ?_, ?_, h.minClock_eq⟩
  · intro v hv
    rw [slot_grow, E.progress_advance_other hpull]
    exact h.workerProgress_eq v hv
  · rw [E.progress_advance_other hpull]
    exact h.clockCount_eq

/-- A push advances its worker. -/
theorem Counters.countPush (h : E.Counters n m srv) (hw : w ∈ E.workers) (hn : 0 < n w)
    (hpush : E.IsPush w (n w)) :
    E.Counters (advance n w) m { srv with
      clockCount := modifyAt srv.clockCount (E.progress n w) (· + 1)
      workerProgress := modifyAt srv.workerProgress w (· + 1) } := by
  have hprogress := E.progress_advance_push hpush
  refine ⟨h.serverId_eq, h.isVector_eq, h.staleness_eq, h.numWorkers_eq,
    h.initCount_advance hw hn, ?_, ?_, h.minClock_eq⟩
  · intro v hv
    rw [slot_modifyAt, hprogress, h.workerProgress_eq w hw, h.workerProgress_eq v hv, advance]
  · intro c
    rw [slot_modifyAt, hprogress, h.clockCount_eq, h.clockCount_eq, past_advance hw]
    by_cases hc : c = E.progress n w
    · rw [if_pos hc, if_pos hc, hc]
    · rw [if_neg hc, if_neg hc]

end Counters

/-! ## The specified store and replies -/

variable [AddCommMonoid Val]

/-- What a message adds to a key; only pushes add anything. -/
def delta (x : ℕ × ℕ) (key : ℕ) : Val := written ((E.entry x).pairs t) key

/-- The store at clock `m`: every push that has arrived and is not too far ahead. -/
def held (base : ℕ → Val) (n : ℕ → ℕ) (m key : ℕ) : Val :=
  base key + ∑ x ∈ E.applied n m, E.delta x key

/-- The reply a message gets when it is answered at clock `m`. -/
def reply (kvId : ℕ) (base : ℕ → Val) (n : ℕ → ℕ) (m : ℕ) (x : ℕ × ℕ) : Reply Val :=
  let r := E.message x.1 x.2
  if r.push then pushReply kvId r.entry
  else pullReply t kvId (bodyCmd r.cmd) (sentClock r.cmd m) (E.held base n m) r.entry

theorem reply_key (kvId : ℕ) (base : ℕ → Val) (n : ℕ → ℕ) (m : ℕ) (x : ℕ × ℕ) :
    ((E.reply kvId base n m x).src, (E.reply kvId base n m x).ts) = E.key x := by
  simp only [reply, key]
  split <;> simp [pushReply, pullReply, Request.entry]

end SSPEpoch

end FlexPS.KVStore
