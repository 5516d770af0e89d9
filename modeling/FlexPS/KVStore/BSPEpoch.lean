import FlexPS.Lib.Progress
import FlexPS.KVStore.BSPServer
import Mathlib.Algebra.BigOperators.Group.Finset.Sigma
import Mathlib.Data.Finset.Prod

/-!
# One epoch of the BSP server

Every worker sends `Init, pull 0, push 0, pull 1, push 1, …`; message `2 * k + 1` is
the pull of iteration `k` and message `2 * k + 2` its push.  A schedule says in which
order the messages of the workers arrive; nothing else is assumed, so a worker may run
ahead of the others by any number of iterations and before their Init.

The whole state of the server is a function of two things: how many messages of each
worker have arrived, and the *level*, the number of messages that have arrived from
the slowest worker (counting its Init as arrived).  A message is handled when the
level has reached its number and parked until then; the phase is the parity of the
level.

## Main definitions

* `BSPEpoch`, `BSPEpoch.message` — the workers and what they send.
* `BSPEpoch.applied`, `Waiting`, `Answered` — where a message is at a given level.
* `BSPEpoch.Counters` — the counters of the server, and how each request moves them.
* `BSPEpoch.held`, `BSPEpoch.reply` — the store and the replies the epoch must see.
-/

namespace FlexPS.KVStore

open Lib

variable {S Val : Type}

variable [StorageT S Val] {t : RangeTable} {serverId : ℕ} {isVector : Bool}

/-- The workers of an epoch and what they send.  Timestamps tell the requests of one
worker apart, as `WorkerCustomer::NewRequest` hands them out. -/
structure BSPEpoch (V : StoreView S Val t serverId isVector) where
  workers : Finset ℕ
  workers_nonempty : workers.Nonempty
  ts : ℕ → ℕ → ℕ
  ts_injective : ∀ w, Function.Injective (ts w)
  pull : ℕ → ℕ → Body Val
  push : ℕ → ℕ → Body Val
  pull_controlled : ∀ w k, Controlled (pull w k).cmd
  push_controlled : ∀ w k, Controlled (push w k).cmd
  pull_ok : ∀ w k, V.PullBody (pull w k).cmd (pull w k).bin
  push_ok : ∀ w k, V.PushBody (push w k).cmd (push w k).bin

/-- A worker that has sent nothing counts as having sent its Init. -/
def joined (n : ℕ → ℕ) (w : ℕ) : ℕ := max 1 (n w)

theorem joined_advance_of_zero {n : ℕ → ℕ} {w : ℕ} (h : n w = 0) :
    joined (advance n w) = joined n := by
  funext v
  by_cases hv : v = w
  · subst hv
    simp [joined, h]
  · simp [joined, advance_of_ne n hv]

theorem joined_advance {n : ℕ → ℕ} {w : ℕ} (h : 0 < n w) :
    joined (advance n w) = advance (joined n) w := by
  funext v
  by_cases hv : v = w
  · subst hv
    simp only [joined, advance_self]
    omega
  · simp [joined, advance_of_ne _ hv]

theorem past_joined (W : Finset ℕ) (n : ℕ → ℕ) {c : ℕ} (hc : 0 < c) :
    past W (joined n) c = past W n c := by
  unfold past joined
  congr 1
  refine Finset.filter_congr fun w _ => ?_
  omega

namespace BSPEpoch

variable {V : StoreView S Val t serverId isVector} (E : BSPEpoch V)

/-- The `n`-th message of a worker. -/
def message (w n : ℕ) : Request Val :=
  if n = 0 then
    { ts := E.ts w 0, cmd := 4, push := true, src := w
      bin := Cell.intCodec.put E.workers.card }
  else if n % 2 = 1 then
    { ts := E.ts w n, cmd := (E.pull w (n / 2)).cmd, push := false, src := w
      bin := (E.pull w (n / 2)).bin }
  else
    { ts := E.ts w n, cmd := (E.push w (n / 2 - 1)).cmd, push := true, src := w
      bin := (E.push w (n / 2 - 1)).bin }

/-- The parked form of a message. -/
def entry (x : ℕ × ℕ) : Blocked Val := (E.message x.1 x.2).entry

theorem message_init (w : ℕ) : E.message w 0 =
    { ts := E.ts w 0, cmd := 4, push := true, src := w
      bin := Cell.intCodec.put E.workers.card } := rfl

theorem message_pull (w k : ℕ) : E.message w (2 * k + 1) =
    { ts := E.ts w (2 * k + 1), cmd := (E.pull w k).cmd, push := false, src := w
      bin := (E.pull w k).bin } := by
  have h : (2 * k + 1) / 2 = k := by omega
  simp [message, h]

theorem message_push (w k : ℕ) : E.message w (2 * k + 2) =
    { ts := E.ts w (2 * k + 2), cmd := (E.push w k).cmd, push := true, src := w
      bin := (E.push w k).bin } := by
  simp [message]

@[simp] theorem message_src (w n : ℕ) : (E.message w n).src = w := by
  unfold message
  split
  · rfl
  · split <;> rfl

@[simp] theorem message_ts (w n : ℕ) : (E.message w n).ts = E.ts w n := by
  unfold message
  split
  · next h => rw [h]
  · split <;> rfl

/-- Messages are told apart by sender and timestamp. -/
theorem entry_injective : Function.Injective E.entry := by
  rintro ⟨w, n⟩ ⟨w', n'⟩ h
  have hsrc : w = w' := by simpa [entry, Request.entry] using congrArg Blocked.src h
  have hts : E.ts w n = E.ts w' n' := by simpa [entry, Request.entry] using congrArg Blocked.ts h
  subst hsrc
  rw [E.ts_injective w hts]

/-! ## Which messages are where -/

/-- The pushes that are in the store. -/
def applied (n : ℕ → ℕ) (level : ℕ) : Finset (ℕ × ℕ) :=
  (E.workers ×ˢ Finset.range (level + 1)).filter fun x => x.2 % 2 = 0 ∧ 0 < x.2 ∧ x.2 < n x.1

/-- Arrived, but above the level. -/
def Waiting (n : ℕ → ℕ) (level : ℕ) (x : ℕ × ℕ) : Prop :=
  x.1 ∈ E.workers ∧ x.2 < n x.1 ∧ level < x.2

/-- Arrived, at or below the level, and not empty. -/
def Answered (n : ℕ → ℕ) (level : ℕ) (x : ℕ × ℕ) : Prop :=
  x.1 ∈ E.workers ∧ x.2 < n x.1 ∧ x.2 ≤ level ∧ (E.entry x).bin ≠ []

theorem mem_applied {n : ℕ → ℕ} {level : ℕ} {x : ℕ × ℕ} : x ∈ E.applied n level ↔
    x.1 ∈ E.workers ∧ x.2 ≤ level ∧ x.2 % 2 = 0 ∧ 0 < x.2 ∧ x.2 < n x.1 := by
  simp only [applied, Finset.mem_filter, Finset.mem_product, Finset.mem_range]
  constructor
  · rintro ⟨⟨h₁, h₂⟩, h₃, h₄, h₅⟩
    exact ⟨h₁, by omega, h₃, h₄, h₅⟩
  · rintro ⟨h₁, h₂, h₃, h₄, h₅⟩
    exact ⟨⟨h₁, by omega⟩, h₃, h₄, h₅⟩

/-! ## One more arrival, and one more level -/

theorem waiting_advance {n : ℕ → ℕ} {level w : ℕ} (hw : w ∈ E.workers) (x : ℕ × ℕ) :
    E.Waiting (advance n w) level x ↔ E.Waiting n level x ∨ (x = (w, n w) ∧ level < n w) := by
  simp only [Waiting, lt_advance_iff]
  constructor
  · rintro ⟨h₁, h₂ | rfl, h₃⟩
    · exact Or.inl ⟨h₁, h₂, h₃⟩
    · exact Or.inr ⟨rfl, h₃⟩
  · rintro (⟨h₁, h₂, h₃⟩ | ⟨rfl, h₃⟩)
    · exact ⟨h₁, Or.inl h₂, h₃⟩
    · exact ⟨hw, Or.inr rfl, h₃⟩

theorem answered_advance {n : ℕ → ℕ} {level w : ℕ} (hw : w ∈ E.workers) (x : ℕ × ℕ) :
    E.Answered (advance n w) level x ↔ E.Answered n level x ∨
      (x = (w, n w) ∧ n w ≤ level ∧ (E.entry (w, n w)).bin ≠ []) := by
  simp only [Answered, lt_advance_iff]
  constructor
  · rintro ⟨h₁, h₂ | rfl, h₃, h₄⟩
    · exact Or.inl ⟨h₁, h₂, h₃, h₄⟩
    · exact Or.inr ⟨rfl, h₃, h₄⟩
  · rintro (⟨h₁, h₂, h₃, h₄⟩ | ⟨rfl, h₃, h₄⟩)
    · exact ⟨h₁, Or.inl h₂, h₃, h₄⟩
    · exact ⟨hw, Or.inr rfl, h₃, h₄⟩

theorem mem_applied_advance {n : ℕ → ℕ} {level w : ℕ} (hw : w ∈ E.workers) (x : ℕ × ℕ) :
    x ∈ E.applied (advance n w) level ↔ x ∈ E.applied n level ∨
      (x = (w, n w) ∧ n w ≤ level ∧ n w % 2 = 0 ∧ 0 < n w) := by
  simp only [mem_applied, lt_advance_iff]
  constructor
  · rintro ⟨h₁, h₂, h₃, h₄, h₅ | rfl⟩
    · exact Or.inl ⟨h₁, h₂, h₃, h₄, h₅⟩
    · exact Or.inr ⟨rfl, h₂, h₃, h₄⟩
  · rintro (⟨h₁, h₂, h₃, h₄, h₅⟩ | ⟨rfl, h₂, h₃, h₄⟩)
    · exact ⟨h₁, h₂, h₃, h₄, Or.inl h₅⟩
    · exact ⟨hw, h₂, h₃, h₄, Or.inr rfl⟩

/-- A message that is not a push, or is still above the level, is not in the store. -/
theorem applied_advance_of_not {n : ℕ → ℕ} {level w : ℕ} (hw : w ∈ E.workers)
    (h : ¬ (n w ≤ level ∧ n w % 2 = 0 ∧ 0 < n w)) :
    E.applied (advance n w) level = E.applied n level := by
  ext x
  rw [E.mem_applied_advance hw]
  exact or_iff_left fun hx => h hx.2

theorem waiting_succ {n : ℕ → ℕ} {level : ℕ} (x : ℕ × ℕ) :
    E.Waiting n (level + 1) x ↔ E.Waiting n level x ∧ x.2 ≠ level + 1 := by
  simp only [Waiting]
  constructor
  · rintro ⟨h₁, h₂, h₃⟩
    exact ⟨⟨h₁, h₂, by omega⟩, by omega⟩
  · rintro ⟨⟨h₁, h₂, h₃⟩, h₄⟩
    exact ⟨h₁, h₂, by omega⟩

theorem answered_succ {n : ℕ → ℕ} {level : ℕ} (x : ℕ × ℕ) :
    E.Answered n (level + 1) x ↔ E.Answered n level x ∨
      (x.2 = level + 1 ∧ E.Waiting n level x ∧ (E.entry x).bin ≠ []) := by
  simp only [Answered, Waiting]
  constructor
  · rintro ⟨h₁, h₂, h₃, h₄⟩
    rcases Nat.lt_or_ge level x.2 with h | h
    · exact Or.inr ⟨by omega, ⟨h₁, h₂, h⟩, h₄⟩
    · exact Or.inl ⟨h₁, h₂, h, h₄⟩
  · rintro (⟨h₁, h₂, h₃, h₄⟩ | ⟨h₁, ⟨h₂, h₃, h₄⟩, h₅⟩)
    · exact ⟨h₁, h₂, by omega, h₄⟩
    · exact ⟨h₂, h₃, by omega, h₅⟩

/-! ## The counters -/

/-- The counters of the server after `n` arrivals per worker, at a given level. -/
structure Counters (n : ℕ → ℕ) (level : ℕ) (srv : BSPServer S Val) : Prop where
  serverId_eq : srv.serverId = serverId
  isVector_eq : srv.isVector = isVector
  isAssign_eq : srv.isAssign = false
  numWorkers_eq : srv.numWorkers = E.workers.card
  initCount_eq : srv.initCount =
    if past E.workers n 0 = E.workers.card then 0 else past E.workers n 0
  pullProgress_eq : ∀ w ∈ E.workers, slot srv.pullProgress w = joined n w / 2
  pushProgress_eq : ∀ w ∈ E.workers, slot srv.pushProgress w = (joined n w - 1) / 2
  pullCount_eq : ∀ k, slot srv.pullCount k = past E.workers n (2 * k + 1)
  pushCount_eq : ∀ k, slot srv.pushCount k = past E.workers n (2 * k + 2)
  replyPhase_eq : srv.replyPhase = decide (level % 2 = 1)
  pullIter_eq : srv.pullIter = level / 2
  pushIter_eq : srv.pushIter = (level - 1) / 2

section Counters

variable {E} {n : ℕ → ℕ} {level w : ℕ} {srv : BSPServer S Val}

/-- The counters do not look at the buffers and the store. -/
theorem Counters.withContents (h : E.Counters n level srv) (store : S)
    (blockedPulls blockedPushes : List (List (Blocked Val))) :
    E.Counters n level { srv with store, blockedPulls, blockedPushes } :=
  ⟨h.serverId_eq, h.isVector_eq, h.isAssign_eq, h.numWorkers_eq, h.initCount_eq,
    h.pullProgress_eq, h.pushProgress_eq, h.pullCount_eq, h.pushCount_eq, h.replyPhase_eq,
    h.pullIter_eq, h.pushIter_eq⟩

/-- Counting a further Init. -/
theorem Counters.countInit (h : E.Counters n level srv) (kvId : ℕ) (hw : w ∈ E.workers)
    (hn : n w = 0) : E.Counters (advance n w) level (srv.countInit kvId (E.message w 0)).1 := by
  have hjoined := joined_advance_of_zero hn
  have hpast : ∀ c, 0 < c → past E.workers (advance n w) c = past E.workers n c := by
    intro c hc
    rw [past_advance hw, if_neg (by omega)]
  have hpast₀ : past E.workers (advance n w) 0 = past E.workers n 0 + 1 := by
    rw [past_advance hw, if_pos hn.symm]
  have hne : past E.workers n 0 ≠ E.workers.card := by
    intro hcard
    have := past_eq_card_iff.mp hcard w hw
    omega
  refine ⟨h.serverId_eq, h.isVector_eq, h.isAssign_eq, h.numWorkers_eq, ?_, ?_, ?_, ?_, ?_,
    h.replyPhase_eq, h.pullIter_eq, h.pushIter_eq⟩
  · simp only [BSPServer.countInit, h.initCount_eq, if_neg hne, h.numWorkers_eq, hpast₀]
    norm_cast
  · rw [hjoined]
    exact h.pullProgress_eq
  · rw [hjoined]
    exact h.pushProgress_eq
  · intro k
    rw [hpast _ (by omega)]
    exact h.pullCount_eq k
  · intro k
    rw [hpast _ (by omega)]
    exact h.pushCount_eq k

/-- Counting the pull of iteration `k`. -/
theorem Counters.countPull (h : E.Counters n level srv) (hw : w ∈ E.workers) {k : ℕ}
    (hn : n w = 2 * k + 1) :
    E.Counters (advance n w) level { srv with
      pullCount := modifyAt srv.pullCount k (· + 1)
      pullProgress := modifyAt srv.pullProgress w (· + 1) } := by
  have hjoined : ∀ v, v ≠ w → joined (advance n w) v = joined n v := by
    intro v hv
    rw [joined_advance (by omega), advance_of_ne _ hv]
  have hself : joined (advance n w) w = 2 * k + 2 := by
    rw [joined, advance_self]
    omega
  have hpast : ∀ c, c ≠ 2 * k + 1 → past E.workers (advance n w) c = past E.workers n c := by
    intro c hc
    rw [past_advance hw, if_neg (by omega)]
  refine ⟨h.serverId_eq, h.isVector_eq, h.isAssign_eq, h.numWorkers_eq, ?_, ?_, ?_, ?_, ?_,
    h.replyPhase_eq, h.pullIter_eq, h.pushIter_eq⟩
  · rw [hpast 0 (by omega)]
    exact h.initCount_eq
  · intro v hv
    rw [slot_modifyAt, h.pullProgress_eq w hw, h.pullProgress_eq v hv]
    by_cases hvw : v = w
    · rw [if_pos hvw, hvw, hself, joined]
      omega
    · rw [if_neg hvw, hjoined v hvw]
  · intro v hv
    rw [h.pushProgress_eq v hv]
    by_cases hvw : v = w
    · rw [hvw, hself, joined]
      omega
    · rw [hjoined v hvw]
  · intro j
    rw [slot_modifyAt, h.pullCount_eq, h.pullCount_eq]
    by_cases hj : j = k
    · rw [if_pos hj, hj, past_advance hw, if_pos hn.symm]
    · rw [if_neg hj, hpast _ (by omega)]
  · intro j
    rw [hpast _ (by omega)]
    exact h.pushCount_eq j

/-- Counting the push of iteration `k`. -/
theorem Counters.countPush (h : E.Counters n level srv) (hw : w ∈ E.workers) {k : ℕ}
    (hn : n w = 2 * k + 2) :
    E.Counters (advance n w) level { srv with
      pushCount := modifyAt srv.pushCount k (· + 1)
      pushProgress := modifyAt srv.pushProgress w (· + 1) } := by
  have hjoined : ∀ v, v ≠ w → joined (advance n w) v = joined n v := by
    intro v hv
    rw [joined_advance (by omega), advance_of_ne _ hv]
  have hself : joined (advance n w) w = 2 * k + 3 := by
    rw [joined, advance_self]
    omega
  have hpast : ∀ c, c ≠ 2 * k + 2 → past E.workers (advance n w) c = past E.workers n c := by
    intro c hc
    rw [past_advance hw, if_neg (by omega)]
  refine ⟨h.serverId_eq, h.isVector_eq, h.isAssign_eq, h.numWorkers_eq, ?_, ?_, ?_, ?_, ?_,
    h.replyPhase_eq, h.pullIter_eq, h.pushIter_eq⟩
  · rw [hpast 0 (by omega)]
    exact h.initCount_eq
  · intro v hv
    rw [h.pullProgress_eq v hv]
    by_cases hvw : v = w
    · rw [hvw, hself, joined]
      omega
    · rw [hjoined v hvw]
  · intro v hv
    rw [slot_modifyAt, h.pushProgress_eq w hw, h.pushProgress_eq v hv]
    by_cases hvw : v = w
    · rw [if_pos hvw, hvw, hself, joined]
      omega
    · rw [if_neg hvw, hjoined v hvw]
  · intro j
    rw [hpast _ (by omega)]
    exact h.pullCount_eq j
  · intro j
    rw [slot_modifyAt, h.pushCount_eq, h.pushCount_eq]
    by_cases hj : j = k
    · rw [if_pos hj, hj, past_advance hw, if_pos hn.symm]
    · rw [if_neg hj, hpast _ (by omega)]

/-- All pulls of iteration `k` are in. -/
theorem Counters.leaveReply {k : ℕ} (h : E.Counters n (2 * k + 1) srv) :
    E.Counters n (2 * k + 2) { srv with replyPhase := false, pullIter := srv.pullIter + 1 } := by
  refine ⟨h.serverId_eq, h.isVector_eq, h.isAssign_eq, h.numWorkers_eq, h.initCount_eq,
    h.pullProgress_eq, h.pushProgress_eq, h.pullCount_eq, h.pushCount_eq, ?_, ?_, ?_⟩
  · simp
  · simp only [h.pullIter_eq]
    omega
  · simp only [h.pushIter_eq]
    omega

/-- All pushes of iteration `k` are in. -/
theorem Counters.enterReply {k : ℕ} (h : E.Counters n (2 * k + 2) srv) :
    E.Counters n (2 * k + 3) { srv with replyPhase := true, pushIter := srv.pushIter + 1 } := by
  refine ⟨h.serverId_eq, h.isVector_eq, h.isAssign_eq, h.numWorkers_eq, h.initCount_eq,
    h.pullProgress_eq, h.pushProgress_eq, h.pullCount_eq, h.pushCount_eq, ?_, ?_, ?_⟩
  · simp [Nat.add_mod]
  · simp only [h.pullIter_eq]
    omega
  · simp only [h.pushIter_eq]
    omega

end Counters

/-! ## The specified store and replies -/

variable [AddCommMonoid Val]

/-- What a message adds to a key; only pushes add anything. -/
def delta (x : ℕ × ℕ) (key : ℕ) : Val := written ((E.entry x).pairs t) key

/-- The store a pull of iteration `k` must see: all pushes of the iterations before. -/
def held (base : ℕ → Val) (k key : ℕ) : Val :=
  base key + ∑ w ∈ E.workers, ∑ j ∈ Finset.range k, E.delta (w, 2 * j + 2) key

/-- The reply a message must get. -/
def reply (kvId : ℕ) (base : ℕ → Val) (x : ℕ × ℕ) : Reply Val :=
  let r := E.message x.1 x.2
  if r.push then pushReply kvId r.entry
  else pullReply t kvId r.cmd (-1) (E.held base (x.2 / 2)) r.entry

/-- At level `2 * k + 1`, and at level `2 * k` once all pushes of iteration `k - 1` are
in, the store holds exactly the pushes of the first `k` iterations. -/
theorem sum_applied {n : ℕ → ℕ} {level k : ℕ} (hlevel : level / 2 = k)
    (hall : ∀ w ∈ E.workers, 2 * k < joined n w) (key : ℕ) :
    ∑ x ∈ E.applied n level, E.delta x key =
      ∑ w ∈ E.workers, ∑ j ∈ Finset.range k, E.delta (w, 2 * j + 2) key := by
  rw [← Finset.sum_product']
  refine Finset.sum_nbij' (fun x => (x.1, x.2 / 2 - 1)) (fun x => (x.1, 2 * x.2 + 2)) ?_ ?_ ?_ ?_ ?_
  · rintro ⟨w, i⟩ hx
    obtain ⟨hw, hle, heven, hpos, hlt⟩ := E.mem_applied.mp hx
    simp only [Finset.mem_product, Finset.mem_range]
    exact ⟨hw, by omega⟩
  · rintro ⟨w, j⟩ hx
    simp only [Finset.mem_product, Finset.mem_range] at hx
    have := hall w hx.1
    unfold joined at this
    exact E.mem_applied.mpr ⟨hx.1, by simp only; omega, by simp only; omega, by simp only; omega,
      by simp only; omega⟩
  · rintro ⟨w, i⟩ hx
    obtain ⟨hw, hle, heven, hpos, hlt⟩ := E.mem_applied.mp hx
    simp only [Prod.mk.injEq, true_and] at *
    omega
  · rintro ⟨w, j⟩ _
    simp
  · rintro ⟨w, i⟩ hx
    obtain ⟨hw, hle, heven, hpos, hlt⟩ := E.mem_applied.mp hx
    have hi : 2 * (i / 2 - 1) + 2 = i := by simp only at *; omega
    simp only [hi]

end BSPEpoch

end FlexPS.KVStore
