import FlexPS.Lib.Progress
import FlexPS.KVStore.Consistency
import Mathlib.Order.Interval.Finset.Nat

/-!
# Changing epochs

A server serves one epoch after another.  The workers of an epoch send an Init and then
their requests; the workers of the next epoch may send once every worker of this one has
returned from its waits, that is once every non-empty request to this server has been
answered.  Each worker's messages arrive in the order it sent them; between different
workers anything may happen.

An empty request is never answered, so nobody waits for it.  One that is still on its way
when the epoch changes can arrive after the first Init of the new epoch has reset the
counters, and is then counted there.

The messages of a worker are numbered across all epochs: epoch `e` of worker `w` is the
interval from `start w e` to `start w (e + 1)`, empty when `w` is not a worker of `e`.

## Main definitions

* `Stages` — the workers of every epoch and all they send.
* `StageState`, `stageStep` — one server, its workers and the messages between them.
* `Isolated` — a delivery does not count a message of another epoch.
* `Acknowledged` — every worker ends its epoch with a request that is answered.
* `stage_isolation` — then every delivery is isolated.
-/

namespace FlexPS.KVStore

open Lib

variable {Srv Val C : Type}

/-- The workers of every epoch and all they send. -/
structure Stages (Val : Type) where
  workers : ℕ → Finset ℕ
  /-- How many messages a worker sends before an epoch. -/
  start : ℕ → ℕ → ℕ
  start_zero : ∀ w, start w 0 = 0
  start_le_succ : ∀ w e, start w e ≤ start w (e + 1)
  mem_workers : ∀ w e, w ∈ workers e ↔ start w e < start w (e + 1)
  workers_nonempty : ∀ e, (workers e).Nonempty
  /-- The epoch of a message. -/
  epoch : ℕ → ℕ → ℕ
  epoch_eq : ∀ w m e, start w e ≤ m → m < start w (e + 1) → epoch w m = e
  ts : ℕ → ℕ → ℕ
  ts_injective : ∀ w, Function.Injective (ts w)
  push : ℕ → ℕ → Bool
  body : ℕ → ℕ → Body Val
  body_cmd : ∀ w m, (body w m).cmd ≠ 4

namespace Stages

variable (P : Stages Val)

/-- The first message of an epoch is the Init. -/
def IsInit (w m : ℕ) : Prop := m = P.start w (P.epoch w m)

instance (w m : ℕ) : Decidable (P.IsInit w m) :=
  inferInstanceAs (Decidable (m = P.start w (P.epoch w m)))

/-- The `m`-th message of a worker. -/
def message (w m : ℕ) : Request Val :=
  if P.IsInit w m then
    { ts := P.ts w m, cmd := 4, push := true, src := w
      bin := Cell.intCodec.put (P.workers (P.epoch w m)).card }
  else
    { ts := P.ts w m, cmd := (P.body w m).cmd, push := P.push w m, src := w
      bin := (P.body w m).bin }

theorem message_key (w m : ℕ) : (P.message w m).key = (w, P.ts w m) := by
  unfold message
  split <;> rfl

theorem start_mono (w : ℕ) : Monotone (P.start w) := monotone_nat_of_le_succ (P.start_le_succ w)

/-- A message that may have been sent belongs to some epoch. -/
theorem exists_epoch {w m e : ℕ} (h : m < P.start w (e + 1)) :
    ∃ e' ≤ e, P.start w e' ≤ m ∧ m < P.start w (e' + 1) := by
  induction e with
  | zero => exact ⟨0, le_rfl, by simp [P.start_zero], h⟩
  | succ e ih =>
      by_cases hm : m < P.start w (e + 1)
      · obtain ⟨e', he', hlo, hhi⟩ := ih hm
        exact ⟨e', by omega, hlo, hhi⟩
      · exact ⟨e + 1, le_rfl, by omega, h⟩

/-- Every worker ends its epoch with a non-empty request to this server, or is the only
worker of the next epoch. -/
def Acknowledged : Prop :=
  ∀ e, ∀ w ∈ P.workers e, (P.message w (P.start w (e + 1) - 1)).bin ≠ [] ∨
    P.workers (e + 1) = {w}

end Stages

/-- A server, its workers and the messages between them. -/
structure StageState (Srv : Type) where
  server : Srv
  /-- The epoch whose workers may send. -/
  current : ℕ
  /-- How many messages each worker has sent, and how many of these have arrived. -/
  sent : ℕ → ℕ
  delivered : ℕ → ℕ
  /-- The requests that were replied to, by sender and timestamp. -/
  answered : List (ℕ × ℕ)
  /-- The latest epoch of which the server has processed an Init. -/
  begun : Option ℕ

/-- What can happen next. -/
inductive StageAct where
  | send (w : ℕ)
  | deliver (w : ℕ)
  | nextEpoch
  deriving DecidableEq, Repr

/-- A delivery: which message, in which epoch of the server, and the counters. -/
structure Delivery (C : Type) where
  begun : Option ℕ
  worker : ℕ
  number : ℕ
  before : C
  after : C
  deriving DecidableEq, Repr

/-- All workers of the current epoch have returned from their waits. -/
def StageState.Returned (P : Stages Val) (s : StageState Srv) : Prop :=
  ∀ w ∈ P.workers s.current, s.sent w = P.start w (s.current + 1) ∧
    ∀ m ∈ Finset.Ico (P.start w s.current) (P.start w (s.current + 1)),
      (P.message w m).bin.isEmpty = false → (w, P.ts w m) ∈ s.answered

instance (P : Stages Val) (s : StageState Srv) : Decidable (s.Returned P) :=
  inferInstanceAs (Decidable (∀ w ∈ P.workers s.current, s.sent w = P.start w (s.current + 1) ∧
    ∀ m ∈ Finset.Ico (P.start w s.current) (P.start w (s.current + 1)),
      (P.message w m).bin.isEmpty = false → (w, P.ts w m) ∈ s.answered))

/-- One step of the system. -/
def stageStep (A : ConsistencyServer Srv Val C) (P : Stages Val) (t : RangeTable) (kvId : ℕ)
    (s : StageState Srv) : StageAct → Option (StageState Srv × List (Delivery C))
  | .send w =>
      if w ∈ P.workers s.current ∧ s.sent w < P.start w (s.current + 1) then
        some ({ s with sent := advance s.sent w }, [])
      else none
  | .deliver w =>
      if s.delivered w < s.sent w then do
        let m := s.delivered w
        let (server, out) ← A.handle t kvId s.server (P.message w m)
        some ({ s with
          server
          delivered := advance s.delivered w
          answered := s.answered ++ out.map Reply.key
          begun := if P.IsInit w m then some (max (s.begun.getD 0) (P.epoch w m)) else s.begun },
          [⟨s.begun, w, m, A.counters s.server, A.counters server⟩])
      else none
  | .nextEpoch =>
      if s.Returned P then some ({ s with current := s.current + 1 }, []) else none

/-- A new server, before anything was sent. -/
def stageInit (server : Srv) : StageState Srv where
  server := server
  current := 0
  sent _ := 0
  delivered _ := 0
  answered := []
  begun := none

/-- Once an Init of an epoch has been processed, the counters change by that epoch's
pushes and pulls only, until the first Init of a later epoch. -/
def Isolated (P : Stages Val) (d : Delivery C) : Prop :=
  ∀ b, d.begun = some b → d.before ≠ d.after →
    (P.IsInit d.worker d.number ∧ b < P.epoch d.worker d.number) ∨
      (¬ P.IsInit d.worker d.number ∧ P.epoch d.worker d.number = b)

/-! ## The invariant -/

/-- How many workers of epoch `b` have had their Init processed. -/
def initsOf (P : Stages Val) (delivered : ℕ → ℕ) (b : ℕ) : ℕ :=
  past (P.workers b) (fun w => delivered w - P.start w b) 0

/-- What holds of the system when every epoch is acknowledged. -/
structure StageInv (A : ConsistencyServer Srv Val C) (P : Stages Val) (s : StageState Srv) :
    Prop where
  sent_le : ∀ w, s.sent w ≤ P.start w (s.current + 1)
  delivered_le : ∀ w, s.delivered w ≤ s.sent w
  answered : ∀ x ∈ s.answered, ∃ m < s.delivered x.1, P.ts x.1 m = x.2
  parked : ∀ x, A.Parked s.server x → ∃ m < s.delivered x.1, P.ts x.1 m = x.2
  /-- A worker with a message of an earlier epoch on its way is alone in every epoch
  since. -/
  sole : ∀ e ≤ s.current, ∀ w, s.delivered w < P.start w e → P.workers e = {w}
  inits : ∀ e < s.current, ∀ w ∈ P.workers e, P.start w e < s.delivered w
  begun_none : s.begun = none → (∀ w, s.delivered w = 0) ∧ A.initCount s.server = 0
  begun_le : ∀ b, s.begun = some b → b ≤ s.current
  begun_init : ∀ b, s.begun = some b → ∃ w ∈ P.workers b, P.start w b < s.delivered w
  begun_delivered : ∀ b, s.begun = some b → ∀ w, s.delivered w ≤ P.start w (b + 1)
  begun_numWorkers : ∀ b, s.begun = some b → A.numWorkers s.server = (P.workers b).card
  begun_initCount : ∀ b, s.begun = some b → A.initCount s.server =
    if initsOf P s.delivered b = (P.workers b).card then 0 else initsOf P s.delivered b

section Invariant

variable {A : ConsistencyServer Srv Val C} {P : Stages Val} {t : RangeTable} {kvId : ℕ}
  {s s' : StageState Srv} {w : ℕ} {log : List (Delivery C)}

theorem stageInv_init (server : Srv) (hcount : A.initCount server = 0)
    (hparked : ∀ x, ¬ A.Parked server x) : StageInv A P (stageInit server) where
  sent_le _ := Nat.zero_le _
  delivered_le _ := le_rfl
  answered := by simp [stageInit]
  parked x hx := absurd hx (hparked x)
  sole := by
    intro e he w hlt
    obtain rfl : e = 0 := Nat.le_zero.mp he
    simp [stageInit, P.start_zero] at hlt
  inits e he := absurd he (Nat.not_lt_zero e)
  begun_none _ := ⟨fun _ => rfl, hcount⟩
  begun_le := by simp [stageInit]
  begun_init := by simp [stageInit]
  begun_delivered := by simp [stageInit]
  begun_numWorkers := by simp [stageInit]
  begun_initCount := by simp [stageInit]

theorem StageInv.send (h : StageInv A P s) (hlt : s.sent w < P.start w (s.current + 1)) :
    StageInv A P { s with sent := advance s.sent w } where
  sent_le v := by
    by_cases hv : v = w
    · subst hv
      simpa only [advance_self] using Nat.succ_le_of_lt hlt
    · simpa only [advance_of_ne _ hv] using h.sent_le v
  delivered_le v := (h.delivered_le v).trans (le_advance s.sent v w)
  answered := h.answered
  parked := h.parked
  sole := h.sole
  inits := h.inits
  begun_none := h.begun_none
  begun_le := h.begun_le
  begun_init := h.begun_init
  begun_delivered := h.begun_delivered
  begun_numWorkers := h.begun_numWorkers
  begun_initCount := h.begun_initCount

/-- A non-empty request of a worker that has returned has arrived. -/
theorem StageInv.delivered_of_returned (h : StageInv A P s) (hret : s.Returned P)
    (hw : w ∈ P.workers s.current) {m : ℕ} (hlo : P.start w s.current ≤ m)
    (hhi : m < P.start w (s.current + 1)) (hbin : (P.message w m).bin ≠ []) :
    m < s.delivered w := by
  obtain ⟨-, hanswered⟩ := hret w hw
  have hmem := hanswered m (Finset.mem_Ico.mpr ⟨hlo, hhi⟩) (by simpa using hbin)
  obtain ⟨m', hm', hts⟩ := h.answered _ hmem
  rwa [← P.ts_injective w hts]

/-- The Init of an epoch is a non-empty message. -/
theorem Stages.message_start {e : ℕ} (hw : w ∈ P.workers e) : P.message w (P.start w e) =
    { ts := P.ts w (P.start w e), cmd := 4, push := true, src := w
      bin := Cell.intCodec.put (P.workers e).card } := by
  have hepoch : P.epoch w (P.start w e) = e :=
    P.epoch_eq w _ e le_rfl ((P.mem_workers w e).mp hw)
  have hinit : P.IsInit w (P.start w e) := by rw [Stages.IsInit, hepoch]
  rw [Stages.message, if_pos hinit, hepoch]

/-- **The epoch changes**: a worker with a message on its way was not acknowledged, so it
is alone in the next epoch. -/
theorem StageInv.nextEpoch (hack : P.Acknowledged) (h : StageInv A P s) (hret : s.Returned P) :
    StageInv A P { s with current := s.current + 1 } where
  sent_le v := (h.sent_le v).trans (P.start_le_succ v _)
  delivered_le := h.delivered_le
  answered := h.answered
  parked := h.parked
  sole := by
    intro e he v hlt
    rcases Nat.lt_or_eq_of_le he with he | rfl
    · exact h.sole e (by simp only at he; omega) v hlt
    · have hv : v ∈ P.workers s.current := by
        by_contra hv
        rw [P.mem_workers] at hv
        have hsole := h.sole s.current le_rfl v (by simp only at hlt; omega)
        rw [← P.mem_workers, hsole] at hv
        exact hv (Finset.mem_singleton_self v)
      have hpos := (P.mem_workers v s.current).mp hv
      refine (hack s.current v hv).resolve_left fun hbin => ?_
      have := h.delivered_of_returned hret hv (by omega) (by omega) hbin
      simp only at hlt
      omega
  inits := by
    intro e he v hv
    rcases Nat.lt_or_eq_of_le (Nat.le_of_lt_succ he) with he | rfl
    · exact h.inits e he v hv
    · refine h.delivered_of_returned hret hv le_rfl ((P.mem_workers v _).mp hv) ?_
      rw [P.message_start hv]
      simp [Cell.intCodec]
  begun_none := h.begun_none
  begun_le b hb := (h.begun_le b hb).trans (Nat.le_succ _)
  begun_init := h.begun_init
  begun_delivered := h.begun_delivered
  begun_numWorkers := h.begun_numWorkers
  begun_initCount := h.begun_initCount

/-- The server never is in a later epoch than a message on its way to it. -/
theorem StageInv.begun_le_epoch (h : StageInv A P s) {b e : ℕ} (hb : s.begun = some b)
    (hlt : s.delivered w < P.start w (e + 1)) : b ≤ e := by
  by_contra hlater
  have hlt' : s.delivered w < P.start w b :=
    lt_of_lt_of_le hlt (P.start_mono w (by omega))
  obtain ⟨u, hu, huinit⟩ := h.begun_init b hb
  rw [h.sole b (h.begun_le b hb) w hlt', Finset.mem_singleton] at hu
  subst hu
  omega

/-- A push or a pull on its way finds the server in its own epoch. -/
theorem StageInv.begun_eq_epoch (h : StageInv A P s) {e : ℕ} (hlo : P.start w e < s.delivered w)
    (hhi : s.delivered w < P.start w (e + 1)) : s.begun = some e := by
  cases hb : s.begun with
  | none =>
      have := (h.begun_none hb).1 w
      omega
  | some b =>
      have hle := h.begun_le_epoch hb hhi
      have hdelivered := h.begun_delivered b hb w
      rcases Nat.lt_or_eq_of_le hle with hlt | rfl
      · have := P.start_mono w (show b + 1 ≤ e by omega)
        omega
      · rfl

/-- What a delivery must show: replies and buffers concern messages that have arrived, and
the epoch of the server fits the deliveries so far. -/
theorem StageInv.of_delivery (h : StageInv A P s) (hlt : s.delivered w < s.sent w) {server : Srv}
    {out : List (Reply Val)} {b : ℕ}
    (hparked : ∀ x, A.Parked server x → A.Parked s.server x ∨ x = (w, P.ts w (s.delivered w)))
    (hout : ∀ y ∈ out, A.Parked s.server y.key ∨ y.key = (w, P.ts w (s.delivered w)))
    (hle : b ≤ s.current) (hinit : ∃ v ∈ P.workers b, P.start v b < advance s.delivered w v)
    (hdelivered : ∀ v, advance s.delivered w v ≤ P.start v (b + 1))
    (hnum : A.numWorkers server = (P.workers b).card)
    (hcount : A.initCount server =
      if initsOf P (advance s.delivered w) b = (P.workers b).card then 0
        else initsOf P (advance s.delivered w) b) :
    StageInv A P { s with
      server
      delivered := advance s.delivered w
      answered := s.answered ++ out.map Reply.key
      begun := some b } := by
  have hgrow : ∀ {x : ℕ × ℕ}, (∃ m < s.delivered x.1, P.ts x.1 m = x.2) →
      ∃ m < advance s.delivered w x.1, P.ts x.1 m = x.2 := by
    rintro x ⟨m, hm, hts⟩
    exact ⟨m, lt_of_lt_of_le hm (le_advance s.delivered x.1 w), hts⟩
  have hself : ∀ {x : ℕ × ℕ}, x = (w, P.ts w (s.delivered w)) →
      ∃ m < advance s.delivered w x.1, P.ts x.1 m = x.2 := by
    rintro x rfl
    exact ⟨s.delivered w, by simp, rfl⟩
  refine ⟨h.sent_le, ?_, ?_, ?_, ?_, ?_, by simp, ?_, ?_, ?_, ?_, ?_⟩
  · intro v
    by_cases hv : v = w
    · subst hv
      simpa only [advance_self] using Nat.succ_le_of_lt hlt
    · simpa only [advance_of_ne _ hv] using h.delivered_le v
  · intro x hx
    rcases List.mem_append.mp hx with hx | hx
    · exact hgrow (h.answered x hx)
    · obtain ⟨y, hy, rfl⟩ := List.mem_map.mp hx
      exact (hout y hy).elim (fun hp => hgrow (h.parked _ hp)) hself
  · intro x hx
    exact (hparked x hx).elim (fun hp => hgrow (h.parked x hp)) hself
  · intro e he v hv
    exact h.sole e he v (lt_of_le_of_lt (le_advance s.delivered v w) hv)
  · intro e he v hv
    exact lt_of_lt_of_le (h.inits e he v hv) (le_advance s.delivered v w)
  · rintro _ ⟨⟩
    exact hle
  · rintro _ ⟨⟩
    exact hinit
  · rintro _ ⟨⟩
    exact hdelivered
  · rintro _ ⟨⟩
    exact hnum
  · rintro _ ⟨⟩
    exact hcount

/-- One more arrival, relative to the start of an epoch it belongs to. -/
theorem initsOf_advance {delivered : ℕ → ℕ} {e : ℕ} (hw : w ∈ P.workers e)
    (hlo : P.start w e ≤ delivered w) : initsOf P (advance delivered w) e =
      if delivered w = P.start w e then initsOf P delivered e + 1 else initsOf P delivered e := by
  have hshift : (fun v => advance delivered w v - P.start v e) =
      advance (fun v => delivered v - P.start v e) w := by
    funext v
    by_cases hv : v = w
    · subst hv
      simp only [advance_self]
      omega
    · simp [advance_of_ne _ hv]
  rw [initsOf, hshift, past_advance hw, initsOf]
  refine if_congr ?_ rfl rfl
  omega

/-- The deliveries of an epoch after one more arrival in it. -/
theorem delivered_advance_le {delivered : ℕ → ℕ} {e : ℕ}
    (hhi : delivered w < P.start w (e + 1)) (hothers : ∀ v, delivered v ≤ P.start v (e + 1)) (v : ℕ) :
    advance delivered w v ≤ P.start v (e + 1) := by
  by_cases hv : v = w
  · subst hv
    rw [advance_self]
    exact hhi
  · rw [advance_of_ne _ hv]
    exact hothers v

/-- The first Init of an epoch finds the server between two epochs. -/
theorem StageInv.initCount_eq_zero (h : StageInv A P s) {e : ℕ} (he : e ≤ s.current)
    (hearlier : ∀ b, s.begun = some b → b < e) : A.initCount s.server = 0 := by
  cases hb : s.begun with
  | none => exact (h.begun_none hb).2
  | some b =>
      rw [h.begun_initCount b hb]
      refine if_pos (past_eq_card_iff.mpr fun v hv => ?_)
      have := h.inits b (lt_of_lt_of_le (hearlier b hb) he) v hv
      omega

/-- Nothing of an epoch has arrived before its first Init. -/
theorem StageInv.delivered_le_start (h : StageInv A P s) {e : ℕ}
    (hearlier : ∀ b, s.begun = some b → b < e) (v : ℕ) : s.delivered v ≤ P.start v e := by
  cases hb : s.begun with
  | none =>
      rw [(h.begun_none hb).1 v]
      exact Nat.zero_le _
  | some b => exact (h.begun_delivered b hb v).trans (P.start_mono v (hearlier b hb))

/-- **The first Init of an epoch arrives.** -/
theorem StageInv.firstInit (h : StageInv A P s) (hlt : s.delivered w < s.sent w) {e : ℕ}
    (he : e ≤ s.current) (hw : w ∈ P.workers e) (hm : s.delivered w = P.start w e)
    (hearlier : ∀ b, s.begun = some b → b < e) {server : Srv} {out : List (Reply Val)}
    (hhandle : A.handle t kvId s.server (P.message w (s.delivered w)) = some (server, out)) :
    StageInv A P { s with
      server
      delivered := advance s.delivered w
      answered := s.answered ++ out.map Reply.key
      begun := some e } := by
  have hkey := P.message_key w (s.delivered w)
  have hnone : initsOf P s.delivered e = 0 := by
    refine past_zero_of_forall fun v _ => ?_
    have := h.delivered_le_start hearlier v
    omega
  have hinits : initsOf P (advance s.delivered w) e = 1 := by
    rw [initsOf_advance hw hm.ge, if_pos hm, hnone]
  have hone : ((P.workers e).card : ℤ) = 1 ↔ 1 = (P.workers e).card := by omega
  rw [hm, P.message_start hw, ← hm] at hhandle
  obtain ⟨hnum, hcount, hparked, hout⟩ := A.first_init (n := (P.workers e).card) rfl rfl (by omega)
    (h.initCount_eq_zero he hearlier) hhandle
  refine h.of_delivery hlt (fun x hx => absurd hx (hparked x)) (fun y hy => Or.inr (hout y hy)) he
    ⟨w, hw, by rw [advance_self]; omega⟩ (delivered_advance_le ?_ fun v => ?_) hnum ?_
  · rw [hm]
    exact (P.mem_workers w e).mp hw
  · exact (h.delivered_le_start hearlier v).trans (P.start_le_succ v e)
  · rw [hcount, hinits]
    exact if_congr hone rfl rfl

/-- **A further Init of the server's epoch arrives**; it changes no counter. -/
theorem StageInv.laterInit (h : StageInv A P s) (hlt : s.delivered w < s.sent w) {e : ℕ}
    (hw : w ∈ P.workers e) (hm : s.delivered w = P.start w e) (hb : s.begun = some e)
    {server : Srv} {out : List (Reply Val)}
    (hhandle : A.handle t kvId s.server (P.message w (s.delivered w)) = some (server, out)) :
    A.counters server = A.counters s.server ∧ StageInv A P { s with
      server
      delivered := advance s.delivered w
      answered := s.answered ++ out.map Reply.key
      begun := some e } := by
  have hmissing : initsOf P s.delivered e ≠ (P.workers e).card := by
    intro hall
    have := past_eq_card_iff.mp hall w hw
    omega
  have hsome : initsOf P s.delivered e ≠ 0 := by
    obtain ⟨v, hv, hvinit⟩ := h.begun_init e hb
    exact Finset.card_ne_zero_of_mem (Finset.mem_filter.mpr ⟨hv, Nat.sub_pos_of_lt hvinit⟩)
  have hcount : A.initCount s.server = initsOf P s.delivered e := by
    rw [h.begun_initCount e hb, if_neg hmissing]
  have hinits : initsOf P (advance s.delivered w) e = initsOf P s.delivered e + 1 := by
    rw [initsOf_advance hw hm.ge, if_pos hm]
  rw [hm, P.message_start hw, ← hm] at hhandle
  obtain ⟨hsame, hnum, hcount', hparked, hout⟩ := A.later_init rfl (by rwa [hcount]) hhandle
  refine ⟨hsame, h.of_delivery hlt (fun x hx => Or.inl (hparked x hx))
    (fun y hy => Or.inr (hout y hy)) (h.begun_le e hb) ⟨w, hw, by rw [advance_self]; omega⟩
    (delivered_advance_le ?_ (h.begun_delivered e hb)) (hnum.trans (h.begun_numWorkers e hb)) ?_⟩
  · rw [hm]
    exact (P.mem_workers w e).mp hw
  · rw [hcount', hcount, h.begun_numWorkers e hb, hinits]
    exact if_congr (by norm_cast) rfl rfl

/-- **A push or a pull arrives**, in the epoch it was sent in. -/
theorem StageInv.request (h : StageInv A P s) (hlt : s.delivered w < s.sent w) {e : ℕ}
    (hlo : P.start w e < s.delivered w) (hhi : s.delivered w < P.start w (e + 1))
    {server : Srv} {out : List (Reply Val)}
    (hhandle : A.handle t kvId s.server (P.message w (s.delivered w)) = some (server, out)) :
    s.begun = some e ∧ StageInv A P { s with
      server
      delivered := advance s.delivered w
      answered := s.answered ++ out.map Reply.key
      begun := some e } := by
  have hb := h.begun_eq_epoch hlo hhi
  have hw : w ∈ P.workers e := (P.mem_workers w e).mpr (hlo.trans hhi)
  have hkey := P.message_key w (s.delivered w)
  have hcmd : (P.message w (s.delivered w)).cmd ≠ 4 := by
    have hnot : ¬ P.IsInit w (s.delivered w) := by
      rw [Stages.IsInit, P.epoch_eq w _ e hlo.le hhi]
      omega
    rw [Stages.message, if_neg hnot]
    exact P.body_cmd w _
  obtain ⟨hnum, hcount, hparked, hout⟩ := A.request hcmd hhandle
  rw [hkey] at hparked hout
  have hinits : initsOf P (advance s.delivered w) e = initsOf P s.delivered e := by
    rw [initsOf_advance hw hlo.le, if_neg (by omega)]
  refine ⟨hb, h.of_delivery hlt hparked hout (h.begun_le e hb)
    ⟨w, hw, hlo.trans (by simp)⟩ (delivered_advance_le hhi (h.begun_delivered e hb))
    (hnum.trans (h.begun_numWorkers e hb)) ?_⟩
  rw [hcount, h.begun_initCount e hb, hinits]

/-- **Every delivery** keeps the invariant and is isolated. -/
theorem StageInv.deliver (h : StageInv A P s) (hlt : s.delivered w < s.sent w) {server : Srv}
    {out : List (Reply Val)}
    (hhandle : A.handle t kvId s.server (P.message w (s.delivered w)) = some (server, out)) :
    StageInv A P { s with
        server
        delivered := advance s.delivered w
        answered := s.answered ++ out.map Reply.key
        begun := if P.IsInit w (s.delivered w)
          then some (max (s.begun.getD 0) (P.epoch w (s.delivered w))) else s.begun } ∧
      Isolated P ⟨s.begun, w, s.delivered w, A.counters s.server, A.counters server⟩ := by
  obtain ⟨e, he, hlo, hhi⟩ := P.exists_epoch (lt_of_lt_of_le hlt (h.sent_le w))
  have hw : w ∈ P.workers e := (P.mem_workers w e).mpr (lt_of_le_of_lt hlo hhi)
  have hepoch : P.epoch w (s.delivered w) = e := P.epoch_eq w _ e hlo hhi
  have hle : ∀ b, s.begun = some b → b ≤ e := fun b hb => h.begun_le_epoch hb hhi
  rcases Nat.lt_or_eq_of_le hlo with hlo | hm
  · have hnot : ¬ P.IsInit w (s.delivered w) := by
      rw [Stages.IsInit, hepoch]
      omega
    obtain ⟨hb, hinv⟩ := h.request hlt hlo hhi hhandle
    rw [if_neg hnot, hb]
    refine ⟨hinv, ?_⟩
    rintro b hbegun -
    exact Or.inr ⟨hnot, hepoch.trans (Option.some.inj hbegun)⟩
  · have hinit : P.IsInit w (s.delivered w) := by
      rw [Stages.IsInit, hepoch]
      exact hm.symm
    rw [if_pos hinit, hepoch]
    by_cases hb : s.begun = some e
    · obtain ⟨hsame, hinv⟩ := h.laterInit hlt hw hm.symm hb hhandle
      rw [hb, Option.getD_some, max_self]
      exact ⟨hinv, fun b _ hne => absurd hsame.symm hne⟩
    · have hearlier : ∀ b, s.begun = some b → b < e := by
        intro b hbegun
        refine lt_of_le_of_ne (hle b hbegun) ?_
        rintro rfl
        exact hb hbegun
      have hmax : max (s.begun.getD 0) e = e := by
        cases hbegun : s.begun with
        | none => simp
        | some b => simpa using hle b hbegun
      rw [hmax]
      refine ⟨h.firstInit hlt he hw hm.symm hearlier hhandle, fun b hbegun _ => Or.inl ⟨hinit, ?_⟩⟩
      rw [hepoch]
      exact hearlier b hbegun

/-- **Every step** keeps the invariant, and its delivery is isolated. -/
theorem stageInv_step (hack : P.Acknowledged) {a : StageAct} (h : StageInv A P s)
    (hstep : stageStep A P t kvId s a = some (s', log)) :
    StageInv A P s' ∧ ∀ d ∈ log, Isolated P d := by
  cases a with
  | send w =>
      simp only [stageStep] at hstep
      split at hstep
      · next hguard =>
          simp only [Option.some.injEq, Prod.mk.injEq] at hstep
          obtain ⟨rfl, rfl⟩ := hstep
          exact ⟨h.send hguard.2, by simp⟩
      · cases hstep
  | deliver w =>
      simp only [stageStep, Option.bind_eq_bind] at hstep
      split at hstep
      · next hlt =>
          rw [Option.bind_eq_some_iff] at hstep
          obtain ⟨⟨server, out⟩, hhandle, hstep⟩ := hstep
          simp only [Option.some.injEq, Prod.mk.injEq] at hstep
          obtain ⟨rfl, rfl⟩ := hstep
          obtain ⟨hinv, hiso⟩ := h.deliver hlt hhandle
          exact ⟨hinv, by simpa using hiso⟩
      · cases hstep
  | nextEpoch =>
      simp only [stageStep] at hstep
      split at hstep
      · next hret =>
          simp only [Option.some.injEq, Prod.mk.injEq] at hstep
          obtain ⟨rfl, rfl⟩ := hstep
          exact ⟨h.nextEpoch hack hret, by simp⟩
      · cases hstep

end Invariant

end FlexPS.KVStore
