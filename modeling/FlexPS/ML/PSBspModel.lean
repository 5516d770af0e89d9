import FlexPS.KVStore.Storage
import FlexPS.Lib.Barrier
import FlexPS.Lib.Machine

/-!
# The process cache for BSP

The local threads of a `PSBspWorker` share a `PSBspModel`.  In a round every thread pulls and
pushes once.  The last thread to call `Pull` pulls the keys of all threads from the servers, the
others send an empty pull and wait for it.  A `Push` adds to the parameters; when all threads have
pushed, the leader sends what is not zero and clears the parameters, and the others send an empty
push.

A thread takes one step for every locked section and for every access outside of them.  A thread
on a condition variable may wake at any time.

## Main definitions

* `PSBspModel`, `BspThread`, `BspSystem` — the shared data and the threads.
* `bspStep` — one step of one thread.
* `BspMove`, `bspStep_move` — what a step does, case by case.
-/

namespace FlexPS.ML

open KVStore Lib

variable {Val : Type}

/-- The local threads, the one among them with `is_leader`, and the size of the model. -/
structure BspConfig where
  numThreads : ℕ
  leader : ℕ
  numParams : ℕ

/-- `PSBspModel`, less its mutexes; the counters of a barrier are `pull_num_`, `pull_num2_` and
`push_num_`, `push_num2_`. -/
structure PSBspModel (Val : Type) where
  params : ℕ → Val
  processCacheKeys : ℕ → Bool
  pullKeys : List ℕ
  pullVals : List Val
  pullBarrier : Barrier
  pushBarrier : Barrier

namespace PSBspModel

/-- The constructor. -/
def new [Zero Val] : PSBspModel Val := ⟨fun _ => 0, fun _ => false, [], [], ⟨0, 0⟩, ⟨0, 0⟩⟩

/-- `process_cache_keys_[k] = 1` for all keys. -/
def mark (m : PSBspModel Val) (keys : List ℕ) : PSBspModel Val :=
  { m with processCacheKeys := fun k => m.processCacheKeys k || decide (k ∈ keys) }

/-- The keys that the last thread pulls. -/
def keysToPull (numParams : ℕ) (m : PSBspModel Val) : List ℕ :=
  (List.range numParams).filter m.processCacheKeys

/-- `params_[keys[i]] += vals[i]`. -/
def add [Add Val] (m : PSBspModel Val) (pairs : List (ℕ × Val)) : PSBspModel Val :=
  { m with
    params := pairs.foldl (fun params p => Function.update params p.1 (params p.1 + p.2)) m.params }

/-- The last locked section of `Pull`. -/
def leavePull (numThreads : ℕ) (m : PSBspModel Val) : PSBspModel Val :=
  { m with
    pullBarrier := m.pullBarrier.leave numThreads
    processCacheKeys :=
      if m.pullBarrier.lastToLeave numThreads then fun _ => false else m.processCacheKeys }

end PSBspModel

/-- Where a thread is; `awake` tells that a waiting thread is about to look at its condition. -/
inductive BspPhase (Val : Type) where
  | idle
  /-- In `Pull`, with its keys marked. -/
  | asked (keys : List ℕ)
  /-- Holding `pull_mtx_` while the servers answer. -/
  | answering (keys : List ℕ)
  | awaiting (keys : List ℕ) (awake : Bool)
  /-- In the loop over `keys`, of which `todo` is left. -/
  | reading (keys todo : List ℕ) (i : ℕ) (vals : List Val)
  /-- In `Push`, with its values added. -/
  | added
  | gathering (awake : Bool)
  /-- Past the first counter of the barrier. -/
  | crossing
  /-- The leader, in the loop over the parameters. -/
  | collecting (i : ℕ) (pairs : List (ℕ × Val))
  /-- The leader, in `std::fill`. -/
  | clearing (i : ℕ)
  /-- Another thread, about to send its empty push. -/
  | relaying
  /-- Waiting for the servers. -/
  | finishing

/-- `notify_all` on `pull_cv_`. -/
def BspPhase.pullNotified : BspPhase Val → BspPhase Val
  | awaiting keys _ => awaiting keys true
  | phase => phase

/-- `notify_all` on `push_cv_`. -/
def BspPhase.pushNotified : BspPhase Val → BspPhase Val
  | gathering _ => gathering true
  | phase => phase

/-- A `PSBspWorker`. -/
structure BspThread (Val : Type) where
  phase : BspPhase Val
  pullCount : ℕ
  pushCount : ℕ

/-- The model and its threads; `pullMutex` is who holds `pull_mtx_` from one step to the next. -/
structure BspSystem (Val : Type) where
  model : PSBspModel Val
  pullMutex : Option ℕ
  threads : ℕ → BspThread Val

/-- What is seen, with the number of the round: calls of `Pull` and what they return, calls of
`Push`, what is sent to the servers and answered by them, and resets of the counters. -/
inductive BspEvent (Val : Type) where
  | asked (t round : ℕ) (keys : List ℕ)
  | sentPull (t round : ℕ) (keys : List ℕ)
  | answered (round : ℕ) (keys : List ℕ) (vals : List Val)
  | returned (t round : ℕ) (keys : List ℕ) (vals : List Val)
  | pullReset (round : ℕ)
  | pushed (t round : ℕ) (pairs : List (ℕ × Val))
  | sentPush (t round : ℕ) (pairs : List (ℕ × Val))
  | pushReset (round : ℕ)

/-- What the schedule decides. -/
inductive BspInput (Val : Type) where
  | pull (t : ℕ) (keys : List ℕ)
  | push (t : ℕ) (keys : List ℕ) (vals : List Val)
  | proceed (t : ℕ)
  | wake (t : ℕ)
  | answer (t : ℕ) (vals : List Val)

namespace BspSystem

/-- Nobody is in a call. -/
def init [Zero Val] : BspSystem Val := ⟨.new, none, fun _ => ⟨.idle, 0, 0⟩⟩

/-- Move one thread. -/
def put (s : BspSystem Val) (t : ℕ) (w : BspThread Val) : BspSystem Val :=
  { s with threads := Function.update s.threads t w }

/-- `pull_cv_.notify_all()`. -/
def notifyPull (s : BspSystem Val) : BspSystem Val :=
  { s with threads := fun v => { s.threads v with phase := (s.threads v).phase.pullNotified } }

/-- `push_cv_.notify_all()`. -/
def notifyPush (s : BspSystem Val) : BspSystem Val :=
  { s with threads := fun v => { s.threads v with phase := (s.threads v).phase.pushNotified } }

end BspSystem

section Step

variable [AddCommMonoid Val] [DecidableEq Val] (cfg : BspConfig)

/-- The next step of a thread inside a call. -/
def bspProceed (s : BspSystem Val) (t : ℕ) : Option (BspSystem Val × List (BspEvent Val)) :=
  let w := s.threads t
  let m := s.model
  let round := w.pullCount - 1
  match w.phase with
  | .asked keys =>
      if s.pullMutex ≠ none then none
      else if m.pullBarrier.num + 1 = cfg.numThreads then
        let pullKeys := m.keysToPull cfg.numParams
        let model := { m with pullBarrier := m.pullBarrier.arrive, pullKeys, pullVals := [] }
        some (({ s with model, pullMutex := some t }).put t { w with phase := .answering keys },
          [.sentPull t round pullKeys])
      else
        let model := { m with pullBarrier := m.pullBarrier.arrive }
        some (({ s with model }).put t { w with phase := .awaiting keys false },
          [.sentPull t round []])
  | .awaiting keys true =>
      if s.pullMutex ≠ none then none
      else if m.pullBarrier.num = cfg.numThreads then
        some (s.put t { w with phase := .reading keys keys 0 [] }, [])
      else some (s.put t { w with phase := .awaiting keys false }, [])
  | .reading keys (k :: todo) i vals =>
      -- past the end the assertion of the loop fails
      match m.pullKeys[i]? with
      | none => none
      | some k' =>
          if k' ≠ k then some (s.put t { w with phase := .reading keys (k :: todo) (i + 1) vals }, [])
          else do
            let v ← m.pullVals[i]?
            some (s.put t { w with phase := .reading keys todo i (vals ++ [v]) }, [])
  | .reading keys [] _ vals =>
      if s.pullMutex ≠ none then none
      else
        let resets := if m.pullBarrier.lastToLeave cfg.numThreads then [.pullReset round] else []
        some (({ s with model := m.leavePull cfg.numThreads }).put t { w with phase := .idle },
          .returned t round keys vals :: resets)
  | .added =>
      let model := { m with pushBarrier := m.pushBarrier.arrive }
      if m.pushBarrier.num + 1 = cfg.numThreads then
        some (({ s with model }).notifyPush.put t { w with phase := .crossing }, [])
      else some (({ s with model }).put t { w with phase := .gathering false }, [])
  | .gathering true =>
      if m.pushBarrier.num = cfg.numThreads then some (s.put t { w with phase := .crossing }, [])
      else some (s.put t { w with phase := .gathering false }, [])
  | .crossing =>
      let resets := if m.pushBarrier.lastToLeave cfg.numThreads then [.pushReset round] else []
      let model := { m with pushBarrier := m.pushBarrier.leave cfg.numThreads }
      let phase := if t = cfg.leader then .collecting 0 [] else .relaying
      some (({ s with model }).put t { w with phase }, resets)
  | .collecting i pairs =>
      if i < cfg.numParams then
        let pairs := if m.params i ≠ 0 then pairs ++ [(i, m.params i)] else pairs
        some (s.put t { w with phase := .collecting (i + 1) pairs }, [])
      else some (s.put t { w with phase := .clearing 0 }, [.sentPush t round pairs])
  | .clearing i =>
      if i < cfg.numParams then
        let model := { m with params := Function.update m.params i 0 }
        some (({ s with model }).put t { w with phase := .clearing (i + 1) }, [])
      else some (s.put t { w with phase := .finishing }, [])
  | .relaying => some (s.put t { w with phase := .finishing }, [.sentPush t round []])
  | .finishing => some (s.put t { w with phase := .idle }, [])
  | .idle | .answering _ | .awaiting _ false | .gathering false => none

/-- One step of one thread.  `PSBspWorker` asserts that pulls and pushes alternate. -/
def bspStep (s : BspSystem Val) : BspInput Val → Option (BspSystem Val × List (BspEvent Val))
  | .pull t keys =>
      let w := s.threads t
      match w.phase with
      | .idle =>
          if w.pushCount = w.pullCount ∧ keys.all (· < cfg.numParams) then
            some (({ s with model := s.model.mark keys }).put t
              { w with phase := .asked keys, pullCount := w.pullCount + 1 },
              [.asked t w.pullCount keys])
          else none
      | _ => none
  | .push t keys vals =>
      let w := s.threads t
      match w.phase with
      | .idle =>
          if w.pushCount + 1 = w.pullCount ∧ keys.all (· < cfg.numParams) then do
            let pairs ← pairUp keys vals
            some (({ s with model := s.model.add pairs }).put t
              { w with phase := .added, pushCount := w.pushCount + 1 },
              [.pushed t w.pushCount pairs])
          else none
      | _ => none
  | .proceed t => bspProceed cfg s t
  | .wake t =>
      let w := s.threads t
      match w.phase with
      | .awaiting keys false => some (s.put t { w with phase := .awaiting keys true }, [])
      | .gathering false => some (s.put t { w with phase := .gathering true }, [])
      | _ => none
  | .answer t vals =>
      let w := s.threads t
      match w.phase with
      | .answering keys =>
          if vals.length = s.model.pullKeys.length then
            some (({ s with model := { s.model with pullVals := vals }
                            pullMutex := none }).notifyPull.put t
              { w with phase := .reading keys keys 0 [] },
              [.answered (w.pullCount - 1) s.model.pullKeys vals])
          else none
      | _ => none

/-- The thread of an input. -/
def BspInput.thread : BspInput Val → ℕ
  | pull t _ | push t _ _ | proceed t | wake t | answer t _ => t

/-- What callers have to respect: the keys of a pull are sorted. -/
def BspInput.Valid (cfg : BspConfig) (i : BspInput Val) : Prop :=
  i.thread < cfg.numThreads ∧ match i with
    | pull _ keys => keys.Pairwise (· ≤ ·)
    | _ => True

instance BspInput.decidableValid (i : BspInput Val) : Decidable (i.Valid cfg) := by
  cases i <;> unfold BspInput.Valid <;> infer_instance

end Step

/-! ## What a step does -/

/-- What a thread does once in a round, in this order. -/
inductive BspTag where
  | ask
  | arrivePull
  | leavePull
  | push
  | arrivePush
  | leavePush
  | send
  deriving DecidableEq, Repr

/-- The steps, case by case: the data, the holder of `pull_mtx_` and the thread before and after,
what the step does for the round, and what is seen. -/
inductive BspMove [AddCommMonoid Val] [DecidableEq Val] (cfg : BspConfig) (t : ℕ)
    (m : PSBspModel Val) (mutex : Option ℕ) :
    BspThread Val → Option BspTag → PSBspModel Val → Option ℕ → BspThread Val →
      List (BspEvent Val) → Prop
  | ask {p q keys} (hturn : q = p) (hkeys : ∀ k ∈ keys, k < cfg.numParams) :
      BspMove cfg t m mutex ⟨.idle, p, q⟩ (some .ask) (m.mark keys) mutex ⟨.asked keys, p + 1, q⟩
        [.asked t p keys]
  | arriveLast {p q keys} (hfree : mutex = none) (hlast : m.pullBarrier.num + 1 = cfg.numThreads) :
      BspMove cfg t m mutex ⟨.asked keys, p, q⟩ (some .arrivePull)
        { m with
          pullBarrier := m.pullBarrier.arrive
          pullKeys := m.keysToPull cfg.numParams
          pullVals := [] }
        (some t) ⟨.answering keys, p, q⟩ [.sentPull t (p - 1) (m.keysToPull cfg.numParams)]
  | arrive {p q keys} (hfree : mutex = none) (hmore : m.pullBarrier.num + 1 ≠ cfg.numThreads) :
      BspMove cfg t m mutex ⟨.asked keys, p, q⟩ (some .arrivePull)
        { m with pullBarrier := m.pullBarrier.arrive } mutex ⟨.awaiting keys false, p, q⟩
        [.sentPull t (p - 1) []]
  | answer {p q keys vals} (hlen : vals.length = m.pullKeys.length) :
      BspMove cfg t m mutex ⟨.answering keys, p, q⟩ none { m with pullVals := vals } none
        ⟨.reading keys keys 0 [], p, q⟩ [.answered (p - 1) m.pullKeys vals]
  | enter {p q keys awake} (hfree : mutex = none) (hfull : m.pullBarrier.num = cfg.numThreads) :
      BspMove cfg t m mutex ⟨.awaiting keys awake, p, q⟩ none m mutex
        ⟨.reading keys keys 0 [], p, q⟩ []
  | skip {p q keys k k' todo i vals} (hget : m.pullKeys[i]? = some k') (hne : k' ≠ k) :
      BspMove cfg t m mutex ⟨.reading keys (k :: todo) i vals, p, q⟩ none m mutex
        ⟨.reading keys (k :: todo) (i + 1) vals, p, q⟩ []
  | take {p q keys k todo i vals v} (hget : m.pullKeys[i]? = some k) (hval : m.pullVals[i]? = some v) :
      BspMove cfg t m mutex ⟨.reading keys (k :: todo) i vals, p, q⟩ none m mutex
        ⟨.reading keys todo i (vals ++ [v]), p, q⟩ []
  | leavePull {p q keys i vals} (hfree : mutex = none) :
      BspMove cfg t m mutex ⟨.reading keys [] i vals, p, q⟩ (some .leavePull)
        (m.leavePull cfg.numThreads) mutex ⟨.idle, p, q⟩
        (.returned t (p - 1) keys vals ::
          if m.pullBarrier.lastToLeave cfg.numThreads then [.pullReset (p - 1)] else [])
  | push {p q pairs} (hturn : q + 1 = p) (hkeys : ∀ x ∈ pairs, x.1 < cfg.numParams) :
      BspMove cfg t m mutex ⟨.idle, p, q⟩ (some .push) (m.add pairs) mutex ⟨.added, p, q + 1⟩
        [.pushed t q pairs]
  | arrivePush {p q phase} (hphase : (phase = .crossing ∧
        m.pushBarrier.num + 1 = cfg.numThreads) ∨ ∃ awake, phase = .gathering awake) :
      BspMove cfg t m mutex ⟨.added, p, q⟩ (some .arrivePush)
        { m with pushBarrier := m.pushBarrier.arrive } mutex ⟨phase, p, q⟩ []
  | leavePush {p q} :
      BspMove cfg t m mutex ⟨.crossing, p, q⟩ (some .leavePush)
        { m with pushBarrier := m.pushBarrier.leave cfg.numThreads } mutex
        ⟨if t = cfg.leader then .collecting 0 [] else .relaying, p, q⟩
        (if m.pushBarrier.lastToLeave cfg.numThreads then [.pushReset (p - 1)] else [])
  | collect {p q i pairs} (hi : i < cfg.numParams) :
      BspMove cfg t m mutex ⟨.collecting i pairs, p, q⟩ none m mutex
        ⟨.collecting (i + 1) (if m.params i ≠ 0 then pairs ++ [(i, m.params i)] else pairs), p, q⟩ []
  | send {p q i pairs} (hi : cfg.numParams ≤ i) :
      BspMove cfg t m mutex ⟨.collecting i pairs, p, q⟩ (some .send) m mutex ⟨.clearing 0, p, q⟩
        [.sentPush t (p - 1) pairs]
  | clear {p q i} (hi : i < cfg.numParams) :
      BspMove cfg t m mutex ⟨.clearing i, p, q⟩ none
        { m with params := Function.update m.params i 0 } mutex ⟨.clearing (i + 1), p, q⟩ []
  | cleared {p q i} (hi : cfg.numParams ≤ i) :
      BspMove cfg t m mutex ⟨.clearing i, p, q⟩ none m mutex ⟨.finishing, p, q⟩ []
  | relay {p q} :
      BspMove cfg t m mutex ⟨.relaying, p, q⟩ (some .send) m mutex ⟨.finishing, p, q⟩
        [.sentPush t (p - 1) []]
  | finish {p q} : BspMove cfg t m mutex ⟨.finishing, p, q⟩ none m mutex ⟨.idle, p, q⟩ []
  | stirPull {p q keys a b} :
      BspMove cfg t m mutex ⟨.awaiting keys a, p, q⟩ none m mutex ⟨.awaiting keys b, p, q⟩ []
  | stirPush {p q a phase} (hphase : (phase = .crossing ∧ m.pushBarrier.num = cfg.numThreads) ∨
      ∃ b, phase = .gathering b) :
      BspMove cfg t m mutex ⟨.gathering a, p, q⟩ none m mutex ⟨phase, p, q⟩ []

/-- The thread, whether or not it has been woken. -/
def BspThread.settled (w : BspThread Val) : BspThread Val :=
  { w with phase := w.phase.pullNotified.pushNotified }

/-- A step moves one thread; the others are at most woken. -/
structure BspStepOf [AddCommMonoid Val] [DecidableEq Val] (cfg : BspConfig) (t : ℕ)
    (s s' : BspSystem Val) (o : List (BspEvent Val)) : Prop where
  move : ∃ tag, BspMove cfg t s.model s.pullMutex (s.threads t) tag s'.model s'.pullMutex
    (s'.threads t) o
  others : ∀ v ≠ t, (s'.threads v).settled = (s.threads v).settled

section Inversion

variable [AddCommMonoid Val] [DecidableEq Val] {cfg : BspConfig} {s s' : BspSystem Val}
  {o : List (BspEvent Val)} {t : ℕ}

omit [AddCommMonoid Val] [DecidableEq Val] in
theorem BspSystem.exists_thread (s : BspSystem Val) (t : ℕ) :
    ∃ phase p q, s.threads t = ⟨phase, p, q⟩ := ⟨_, _, _, rfl⟩

/-- Only thread `t` is moved. -/
private theorem bspStepOf_put {w w' : BspThread Val} {tag : Option BspTag}
    {model : PSBspModel Val} {mutex : Option ℕ} (hw : s.threads t = w)
    (h : BspMove cfg t s.model s.pullMutex w tag model mutex w' o) :
    BspStepOf cfg t s (BspSystem.put ⟨model, mutex, s.threads⟩ t w') o := by
  refine ⟨⟨tag, ?_⟩, fun v hv => ?_⟩
  · simpa only [BspSystem.put, Function.update_self, hw] using h
  · simp only [BspSystem.put, Function.update_of_ne hv]

omit [AddCommMonoid Val] [DecidableEq Val] in
@[simp] theorem settled_pullNotified (w : BspThread Val) :
    BspThread.settled { w with phase := w.phase.pullNotified } = w.settled := by
  obtain ⟨phase, p, q⟩ := w
  cases phase <;> rfl

omit [AddCommMonoid Val] [DecidableEq Val] in
@[simp] theorem settled_pushNotified (w : BspThread Val) :
    BspThread.settled { w with phase := w.phase.pushNotified } = w.settled := by
  obtain ⟨phase, p, q⟩ := w
  cases phase <;> rfl

theorem bspProceed_stepOf (h : bspProceed cfg s t = some (s', o)) : BspStepOf cfg t s s' o := by
  obtain ⟨phase, p, q, hw⟩ := s.exists_thread t
  simp only [bspProceed, hw] at h
  cases phase with
  | asked keys =>
      simp only at h
      split at h
      · cases h
      · next hfree =>
          split at h
          · next hlast =>
              obtain ⟨rfl, rfl⟩ := Prod.mk.inj (Option.some.inj h)
              exact bspStepOf_put hw (.arriveLast (not_not.mp hfree) hlast)
          · next hmore =>
              obtain ⟨rfl, rfl⟩ := Prod.mk.inj (Option.some.inj h)
              exact bspStepOf_put hw (.arrive (not_not.mp hfree) hmore)
  | awaiting keys awake =>
      cases awake with
      | false => cases h
      | true =>
          simp only at h
          split at h
          · cases h
          · next hfree =>
              split at h
              · next hfull =>
                  obtain ⟨rfl, rfl⟩ := Prod.mk.inj (Option.some.inj h)
                  exact bspStepOf_put hw (.enter (not_not.mp hfree) hfull)
              · obtain ⟨rfl, rfl⟩ := Prod.mk.inj (Option.some.inj h)
                exact bspStepOf_put hw .stirPull
  | reading keys todo i vals =>
      cases todo with
      | nil =>
          simp only at h
          split at h
          · cases h
          · next hfree =>
              obtain ⟨rfl, rfl⟩ := Prod.mk.inj (Option.some.inj h)
              exact bspStepOf_put hw (.leavePull (not_not.mp hfree))
      | cons k todo =>
          simp only at h
          split at h
          · cases h
          · next k' hget =>
              split at h
              · next hne =>
                  obtain ⟨rfl, rfl⟩ := Prod.mk.inj (Option.some.inj h)
                  exact bspStepOf_put hw (.skip hget hne)
              · next heq =>
                  obtain ⟨v, hval, h⟩ := Option.bind_eq_some_iff.mp h
                  obtain ⟨rfl, rfl⟩ := Prod.mk.inj (Option.some.inj h)
                  exact bspStepOf_put hw (.take (not_not.mp heq ▸ hget) hval)
  | added =>
      simp only at h
      split at h
      · next hlast =>
          obtain ⟨rfl, rfl⟩ := Prod.mk.inj (Option.some.inj h)
          refine ⟨⟨some .arrivePush, ?_⟩, fun v hv => ?_⟩
          · simp only [BspSystem.put, BspSystem.notifyPush, Function.update_self, hw]
            exact .arrivePush (.inl ⟨rfl, hlast⟩)
          · simp only [BspSystem.put, BspSystem.notifyPush, Function.update_of_ne hv]
            exact settled_pushNotified (s.threads v)
      · obtain ⟨rfl, rfl⟩ := Prod.mk.inj (Option.some.inj h)
        exact bspStepOf_put hw (.arrivePush (.inr ⟨_, rfl⟩))
  | gathering awake =>
      cases awake with
      | false => cases h
      | true =>
          simp only at h
          split at h
          · next hfull =>
              obtain ⟨rfl, rfl⟩ := Prod.mk.inj (Option.some.inj h)
              exact bspStepOf_put hw (.stirPush (.inl ⟨rfl, hfull⟩))
          · obtain ⟨rfl, rfl⟩ := Prod.mk.inj (Option.some.inj h)
            exact bspStepOf_put hw (.stirPush (.inr ⟨_, rfl⟩))
  | crossing =>
      obtain ⟨rfl, rfl⟩ := Prod.mk.inj (Option.some.inj h)
      exact bspStepOf_put hw .leavePush
  | collecting i pairs =>
      simp only at h
      split at h
      · next hi =>
          obtain ⟨rfl, rfl⟩ := Prod.mk.inj (Option.some.inj h)
          exact bspStepOf_put hw (.collect hi)
      · next hi =>
          obtain ⟨rfl, rfl⟩ := Prod.mk.inj (Option.some.inj h)
          exact bspStepOf_put hw (.send (not_lt.mp hi))
  | clearing i =>
      simp only at h
      split at h
      · next hi =>
          obtain ⟨rfl, rfl⟩ := Prod.mk.inj (Option.some.inj h)
          exact bspStepOf_put hw (.clear hi)
      · next hi =>
          obtain ⟨rfl, rfl⟩ := Prod.mk.inj (Option.some.inj h)
          exact bspStepOf_put hw (.cleared (not_lt.mp hi))
  | relaying =>
      obtain ⟨rfl, rfl⟩ := Prod.mk.inj (Option.some.inj h)
      exact bspStepOf_put hw .relay
  | finishing =>
      obtain ⟨rfl, rfl⟩ := Prod.mk.inj (Option.some.inj h)
      exact bspStepOf_put hw .finish
  | idle => cases h
  | answering keys => cases h

/-- **What a step does.** -/
theorem bspStep_stepOf {i : BspInput Val} (h : bspStep cfg s i = some (s', o)) :
    BspStepOf cfg i.thread s s' o := by
  cases i with
  | pull t keys =>
      obtain ⟨phase, p, q, hw⟩ := s.exists_thread t
      simp only [bspStep, hw] at h
      split at h
      · split at h
        · next hguard =>
            obtain ⟨rfl, rfl⟩ := Prod.mk.inj (Option.some.inj h)
            exact bspStepOf_put hw (.ask hguard.1 (by simpa using hguard.2))
        · cases h
      · cases h
  | push t keys vals =>
      obtain ⟨phase, p, q, hw⟩ := s.exists_thread t
      simp only [bspStep, hw] at h
      split at h
      · split at h
        · next hguard =>
            obtain ⟨pairs, hpairs, h⟩ := Option.bind_eq_some_iff.mp h
            obtain ⟨rfl, rfl⟩ := Prod.mk.inj (Option.some.inj h)
            refine bspStepOf_put hw (.push hguard.1 fun x hx => ?_)
            unfold pairUp at hpairs
            split at hpairs
            · obtain rfl := Option.some.inj hpairs
              have hkeys : ∀ k ∈ keys, k < cfg.numParams := by simpa using hguard.2
              exact hkeys _ (List.of_mem_zip hx).1
            · cases hpairs
        · cases h
      · cases h
  | proceed t => exact bspProceed_stepOf h
  | wake t =>
      obtain ⟨phase, p, q, hw⟩ := s.exists_thread t
      simp only [bspStep, hw] at h
      split at h
      · obtain ⟨rfl, rfl⟩ := Prod.mk.inj (Option.some.inj h)
        exact bspStepOf_put hw .stirPull
      · obtain ⟨rfl, rfl⟩ := Prod.mk.inj (Option.some.inj h)
        exact bspStepOf_put hw (.stirPush (.inr ⟨_, rfl⟩))
      · cases h
  | answer t vals =>
      obtain ⟨phase, p, q, hw⟩ := s.exists_thread t
      simp only [bspStep, hw] at h
      split at h
      · split at h
        · next hlen =>
            obtain ⟨rfl, rfl⟩ := Prod.mk.inj (Option.some.inj h)
            refine ⟨⟨none, ?_⟩, fun v hv => ?_⟩
            · simp only [BspInput.thread, BspSystem.put, BspSystem.notifyPull,
                Function.update_self, hw]
              exact .answer hlen
            · simp only [BspInput.thread] at hv
              simp only [BspSystem.put, BspSystem.notifyPull, Function.update_of_ne hv]
              exact settled_pullNotified (s.threads v)
        · cases h
      · cases h

end Inversion

end FlexPS.ML
