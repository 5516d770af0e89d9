import FlexPS.Lib.Machine
import FlexPS.Lib.Progress
import Mathlib.Logic.Function.Basic

/-!
# Consistency controllers

The threads of an `SPMTWorker` share a model and a controller.  A thread calls `BeforePull` or
`BeforePush`, works on the model, and calls `AfterPull` or `AfterPush`.  Every call holds the
mutex of the controller.  `Before…` computes what it waits for and then sleeps on a condition
variable until it has it; `After…` may notify all sleepers.

## Main definitions

* `ConsistencyController` — what a controller does in each call.
* `ControlSystem`, `controlStep` — the threads of a controller, and one step of one of them.
* `ControlMove` — what a step does, case by case.
* `finished`, `started` — what the history says of a thread.
* `Attentive` — nobody sleeps on a condition that holds.
-/

namespace FlexPS.ML

open Lib

variable {σ ρ : Type}

/-- What a thread does with the model. -/
inductive ControlOp where
  | pull
  | push
  deriving DecidableEq, Repr

/-- A controller with the state `σ`; `ρ` is what a thread waits for. -/
structure ConsistencyController (σ ρ : Type) where
  /-- What `Before…` computes once it has locked the mutex. -/
  before : σ → ℕ → ControlOp → Option (σ × ρ)
  /-- The loop of `Before…` ends. -/
  passes : σ → ρ → Bool
  /-- `After…`, and whether it notifies the sleepers. -/
  after : σ → ℕ → ControlOp → Option (σ × Bool)

/-- Where a thread is. -/
inductive ControlPhase (ρ : Type) where
  | outside
  /-- On the condition variable. -/
  | asleep (op : ControlOp) (r : ρ)
  /-- Woken, to lock the mutex again. -/
  | awake (op : ControlOp) (r : ρ)
  /-- Between `Before…` and `After…`. -/
  | inside (op : ControlOp)
  deriving DecidableEq, Repr

namespace ControlPhase

/-- `notify_all`. -/
def notified : ControlPhase ρ → ControlPhase ρ
  | asleep op r => awake op r
  | phase => phase

/-- The thread is on the condition variable. -/
def sleeps : ControlPhase ρ → Bool
  | asleep _ _ => true
  | _ => false

/-- What the thread has called `Before…` for and waits for. -/
def waiting : ControlPhase ρ → Option (ControlOp × ρ)
  | asleep op r | awake op r => some (op, r)
  | _ => none

@[simp] theorem waiting_notified (phase : ControlPhase ρ) :
    phase.notified.waiting = phase.waiting := by
  cases phase <;> rfl

@[simp] theorem notified_eq_inside (phase : ControlPhase ρ) (op : ControlOp) :
    phase.notified = .inside op ↔ phase = .inside op := by
  cases phase <;> simp [notified]

end ControlPhase

/-- A controller and its threads. -/
structure ControlSystem (σ ρ : Type) where
  state : σ
  threads : ℕ → ControlPhase ρ

/-- `Before…` has returned, or `After…` has. -/
inductive ControlEvent where
  | entered (t : ℕ) (op : ControlOp)
  | left (t : ℕ) (op : ControlOp)
  deriving DecidableEq, Repr

/-- What the schedule decides. -/
inductive ControlInput where
  | before (t : ℕ) (op : ControlOp)
  | check (t : ℕ)
  | wake (t : ℕ)
  | after (t : ℕ)

/-- The thread of an input. -/
def ControlInput.thread : ControlInput → ℕ
  | before t _ | check t | wake t | after t => t

namespace ControlSystem

/-- All threads are outside. -/
def init (state : σ) : ControlSystem σ ρ := ⟨state, fun _ => .outside⟩

/-- One round of the loop of `Before…`. -/
def attempt (K : ConsistencyController σ ρ) (s : ControlSystem σ ρ) (t : ℕ) (op : ControlOp)
    (r : ρ) : ControlSystem σ ρ × List ControlEvent :=
  if K.passes s.state r then
    ({ s with threads := Function.update s.threads t (.inside op) }, [.entered t op])
  else ({ s with threads := Function.update s.threads t (.asleep op r) }, [])

end ControlSystem

/-- One step of one thread.  A thread on the condition variable may wake at any time. -/
def controlStep (K : ConsistencyController σ ρ) (s : ControlSystem σ ρ) :
    ControlInput → Option (ControlSystem σ ρ × List ControlEvent)
  | .before t op =>
      match s.threads t with
      | .outside => do
          let (state, r) ← K.before s.state t op
          some (ControlSystem.attempt K { s with state } t op r)
      | _ => none
  | .check t =>
      match s.threads t with
      | .awake op r => some (s.attempt K t op r)
      | _ => none
  | .wake t =>
      match s.threads t with
      | .asleep op r => some ({ s with threads := Function.update s.threads t (.awake op r) }, [])
      | _ => none
  | .after t =>
      match s.threads t with
      | .inside op => do
          let (state, notify) ← K.after s.state t op
          let threads := if notify then fun v => (s.threads v).notified else s.threads
          some (⟨state, Function.update threads t .outside⟩, [.left t op])
      | _ => none

/-! ## What a step does -/

/-- The steps, case by case: the state and the phase of the thread before and after, whether the
others are notified, and what is seen. -/
inductive ControlMove (K : ConsistencyController σ ρ) (i : ControlInput) (state : σ) :
    ControlPhase ρ → σ → ControlPhase ρ → Bool → List ControlEvent → Prop
  | enter {t op state' r} (hi : i = .before t op) (hbefore : K.before state t op = some (state', r))
      (hpass : K.passes state' r = true) :
      ControlMove K i state .outside state' (.inside op) false [.entered t op]
  | sleep {t op state' r} (hi : i = .before t op) (hbefore : K.before state t op = some (state', r))
      (hwait : K.passes state' r = false) :
      ControlMove K i state .outside state' (.asleep op r) false []
  | retry {op r} (hpass : K.passes state r = true) :
      ControlMove K i state (.awake op r) state (.inside op) false [.entered i.thread op]
  | again {op r} (hwait : K.passes state r = false) :
      ControlMove K i state (.awake op r) state (.asleep op r) false []
  | wake {op r} : ControlMove K i state (.asleep op r) state (.awake op r) false []
  | leave {op state' notify} (hafter : K.after state i.thread op = some (state', notify)) :
      ControlMove K i state (.inside op) state' .outside notify [.left i.thread op]

section Inversion

variable {K : ConsistencyController σ ρ} {s s' : ControlSystem σ ρ} {o : List ControlEvent}

/-- **What a step does**: a move of the thread that the schedule names; the others stay where they
are, or are notified. -/
theorem controlStep_move {i : ControlInput} (h : controlStep K s i = some (s', o)) :
    ∃ phase' notify,
      ControlMove K i s.state (s.threads i.thread) s'.state phase' notify o ∧
      s'.threads = Function.update
        (if notify then fun v => (s.threads v).notified else s.threads) i.thread phase' := by
  cases i with
  | before t op =>
      simp only [controlStep] at h
      split at h
      · next hphase =>
          obtain ⟨⟨state, r⟩, hbefore, h⟩ := Option.bind_eq_some_iff.mp h
          unfold ControlSystem.attempt at h
          simp only [ControlInput.thread, hphase]
          split at h
          · next hpass =>
              obtain ⟨rfl, rfl⟩ := Prod.mk.inj (Option.some.inj h)
              exact ⟨_, _, .enter rfl hbefore hpass, rfl⟩
          · next hwait =>
              obtain ⟨rfl, rfl⟩ := Prod.mk.inj (Option.some.inj h)
              exact ⟨_, _, .sleep rfl hbefore (Bool.not_eq_true _ ▸ hwait), rfl⟩
      · cases h
  | check t =>
      simp only [controlStep] at h
      split at h
      · next op r hphase =>
          unfold ControlSystem.attempt at h
          simp only [ControlInput.thread, hphase]
          split at h
          · next hpass =>
              obtain ⟨rfl, rfl⟩ := Prod.mk.inj (Option.some.inj h)
              exact ⟨_, _, .retry hpass, rfl⟩
          · next hwait =>
              obtain ⟨rfl, rfl⟩ := Prod.mk.inj (Option.some.inj h)
              exact ⟨_, _, .again (Bool.not_eq_true _ ▸ hwait), rfl⟩
      · cases h
  | wake t =>
      simp only [controlStep] at h
      split at h
      · next op r hphase =>
          obtain ⟨rfl, rfl⟩ := Prod.mk.inj (Option.some.inj h)
          simp only [ControlInput.thread, hphase]
          exact ⟨_, _, .wake, rfl⟩
      · cases h
  | after t =>
      simp only [controlStep] at h
      split at h
      · next op hphase =>
          obtain ⟨⟨state, notify⟩, hafter, h⟩ := Option.bind_eq_some_iff.mp h
          obtain ⟨rfl, rfl⟩ := Prod.mk.inj (Option.some.inj h)
          simp only [ControlInput.thread, hphase]
          exact ⟨_, _, .leave hafter, rfl⟩
      · cases h

/-- The other threads go on with what they do. -/
theorem controlStep_others {i : ControlInput} (h : controlStep K s i = some (s', o)) {v : ℕ}
    (hv : v ≠ i.thread) : (s'.threads v).waiting = (s.threads v).waiting ∧
      ∀ op, s'.threads v = .inside op ↔ s.threads v = .inside op := by
  obtain ⟨phase', notify, -, hthreads⟩ := controlStep_move h
  rw [hthreads, Function.update_of_ne hv]
  cases notify <;> simp

end Inversion

/-! ## What has been done -/

/-- How often a thread has finished an operation. -/
def finished (history : List ControlEvent) (op : ControlOp) (t : ℕ) : ℕ :=
  history.count (.left t op)

/-- How often a thread has started an operation. -/
def started (history : List ControlEvent) (op : ControlOp) (t : ℕ) : ℕ :=
  history.count (.entered t op)

@[simp] theorem finished_entered (history : List ControlEvent) (op op' : ControlOp) (t : ℕ) :
    finished (history ++ [.entered t op']) op = finished history op := by
  funext v
  simp [finished]

@[simp] theorem started_left (history : List ControlEvent) (op op' : ControlOp) (t : ℕ) :
    started (history ++ [.left t op']) op = started history op := by
  funext v
  simp [started]

theorem finished_left (history : List ControlEvent) (op op' : ControlOp) (t : ℕ) :
    finished (history ++ [.left t op']) op =
      if op' = op then advance (finished history op) t else finished history op := by
  funext v
  by_cases hop : op' = op
  · subst hop
    rw [if_pos rfl]
    by_cases hv : v = t
    · subst hv
      simp [finished]
    · simp [finished, advance_of_ne _ hv, Ne.symm hv]
  · simp [finished, hop]

theorem started_entered (history : List ControlEvent) (op op' : ControlOp) (t : ℕ) :
    started (history ++ [.entered t op']) op =
      if op' = op then advance (started history op) t else started history op := by
  funext v
  by_cases hop : op' = op
  · subst hop
    rw [if_pos rfl]
    by_cases hv : v = t
    · subst hv
      simp [started]
    · simp [started, advance_of_ne _ hv, Ne.symm hv]
  · simp [started, hop]

/-! ## Sleepers -/

/-- Nobody sleeps on a condition that holds. -/
def Attentive (K : ConsistencyController σ ρ) (s : ControlSystem σ ρ) : Prop :=
  ∀ t op r, s.threads t = .asleep op r → K.passes s.state r = false

theorem attentive_init (K : ConsistencyController σ ρ) (state : σ) :
    Attentive K (.init state) := nofun

/-- **No wakeup is lost** when `Before…` leaves the conditions alone and `After…` notifies
whenever it makes one true. -/
theorem attentive_step {K : ConsistencyController σ ρ} {s s' : ControlSystem σ ρ}
    {o : List ControlEvent} {i : ControlInput} (h : Attentive K s)
    (hbefore : ∀ op state' r, K.before s.state i.thread op = some (state', r) →
      ∀ x, K.passes state' x = K.passes s.state x)
    (hafter : ∀ op state', K.after s.state i.thread op = some (state', false) →
      ∀ x, K.passes s.state x = false → K.passes state' x = false)
    (hstep : controlStep K s i = some (s', o)) : Attentive K s' := by
  obtain ⟨phase', notify, hmove, hthreads⟩ := controlStep_move hstep
  -- what a move without a notification makes of the conditions
  have hkeep : notify = false → ∀ x, K.passes s.state x = false → K.passes s'.state x = false := by
    intro hnotify x hx
    generalize s.threads i.thread = phase at hmove
    generalize s'.state = state' at hmove ⊢
    cases hmove with
    | enter hi hb =>
        subst hi
        rwa [hbefore _ _ _ hb]
    | sleep hi hb =>
        subst hi
        rwa [hbefore _ _ _ hb]
    | leave ha => exact hafter _ _ (hnotify ▸ ha) x hx
    | _ => exact hx
  intro t op r hasleep
  rw [hthreads] at hasleep
  by_cases ht : t = i.thread
  · subst ht
    rw [Function.update_self] at hasleep
    generalize s.threads i.thread = phase at hmove
    generalize s'.state = state' at hmove ⊢
    subst hasleep
    cases hmove with
    | sleep _ _ hwait => exact hwait
    | again hwait => exact hwait
  · rw [Function.update_of_ne ht] at hasleep
    cases notify with
    | true =>
        simp only [if_true] at hasleep
        cases hphase : s.threads t <;> rw [hphase] at hasleep <;> cases hasleep
    | false => exact hkeep rfl r (h t op r hasleep)

end FlexPS.ML
