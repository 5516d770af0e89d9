import FlexPS.Scheduler.Placement

/-!
# The loop of the cluster manager

The cluster manager handles one message after another.  It extracts instances when tasks are
submitted, and when the trigger has counted enough threads that have finished.

## Main definitions

* `SchedulerTrigger`, `ClusterManager` — the counter of finished threads, and the scheduler.
* `ClusterManager.serve` — a round of the loop.
* `ClusterManager.serve_cases` — what a round does.
* `NotStalled` — when nothing runs, the exit signal has been sent or no instance can be extracted.
* `Serves`, `Prompt` — the runs of the loop, and what is required of a message.
* `Settles`, `Settles.notStalled` — a scheduler that extracts nothing once it has extracted nothing,
  and the rule for runs of the loop.
-/

namespace FlexPS.Scheduler

open Lib

/-- `SchedulerTrigger`; the timer is never started. -/
structure SchedulerTrigger where
  counter : ℕ
  countThreshold : ℕ
  expectedTimestamp : ℕ
  deriving DecidableEq

namespace SchedulerTrigger

/-- A trigger with the given threshold. -/
def new (countThreshold : ℕ) : SchedulerTrigger := ⟨0, countThreshold, 0⟩

/-- `inc_timestamp`. -/
def incTimestamp (t : SchedulerTrigger) : SchedulerTrigger :=
  { t with expectedTimestamp := t.expectedTimestamp + 1, counter := 0 }

/-- `is_current_ts`. -/
def isCurrentTs (t : SchedulerTrigger) (ts : ℕ) : SchedulerTrigger × Bool :=
  if t.expectedTimestamp = ts then (t.incTimestamp, true) else (t, false)

/-- `has_enough_new_threads`. -/
def hasEnoughNewThreads (t : SchedulerTrigger) : SchedulerTrigger × Bool :=
  let t := { t with counter := t.counter + 1 }
  if t.counter = t.countThreshold then (t.incTimestamp, true) else (t, false)

theorem hasEnoughNewThreads_iff (t : SchedulerTrigger) :
    t.hasEnoughNewThreads.2 = true ↔ t.counter + 1 = t.countThreshold := by
  unfold hasEnoughNewThreads
  simp only
  split
  · next heq => exact iff_of_true rfl heq
  · next hne => exact iff_of_false Bool.false_ne_true hne

@[simp] theorem hasEnoughNewThreads_countThreshold (t : SchedulerTrigger) :
    t.hasEnoughNewThreads.1.countThreshold = t.countThreshold := by
  unfold hasEnoughNewThreads
  simp only
  split <;> rfl

end SchedulerTrigger

/-- What the cluster manager receives, until it receives `kClusterManagerExit`. -/
inductive ClusterMessage where
  | init (tasks : List Task)
  | threadFinished (instanceId tid time : ℕ)
  | timeOutSchedule (timestamp : ℕ)

/-- What is seen of the cluster manager: the calls of its scheduler, and the signals it sends. -/
inductive ClusterEvent where
  | scheduled (e : SchedEvent)
  | exitSignal

/-- The calls of the scheduler. -/
def ClusterEvent.sched : ClusterEvent → Option SchedEvent
  | scheduled e => some e
  | exitSignal => none

/-- The history of the scheduler. -/
def scheduled (out : List ClusterEvent) : List SchedEvent := out.filterMap ClusterEvent.sched

/-- `extract_instances` has thrown. -/
def SchedEvent.isRefused : SchedEvent → Bool
  | refused => true
  | _ => false

/-- `ClusterManager`. -/
structure ClusterManager (σ : Type) where
  taskScheduler : σ
  schedulerTrigger : SchedulerTrigger

namespace ClusterManager

variable {σ : Type} (S : TaskScheduler σ)

/-- `extract_instaces`: send the next instances to the workers, and the exit signal when all tasks
have finished; an exception is not caught. -/
def extractInstances (d : Draw) (s : σ) : Option (σ × List ClusterEvent) := do
  let (s, instances) ← S.extractInstances d s
  if instances.any SchedEvent.isRefused then none
  else some (s, instances.map .scheduled ++ if S.isFinished s then [.exitSignal] else [])

/-- A round of the loop of `serve`, and how the random choices fall. -/
def serve (c : ClusterManager σ) (i : ClusterMessage × Draw) :
    Option (ClusterManager σ × List ClusterEvent) :=
  match i.1 with
  | .init tasks => do
      let s ← S.initTasks c.taskScheduler tasks
      let (s, o) ← extractInstances S i.2 s
      some ({ c with taskScheduler := s }, .scheduled (.submitted tasks) :: o)
  | .threadFinished instanceId tid time => do
      let s ← S.finishThread c.taskScheduler instanceId tid time
      let (trigger, enough) := c.schedulerTrigger.hasEnoughNewThreads
      if enough then do
        let (s, o) ← extractInstances S i.2 s
        some (⟨s, trigger⟩, .scheduled (.finished instanceId tid) :: o)
      else some (⟨s, trigger⟩, [.scheduled (.finished instanceId tid)])
  | .timeOutSchedule timestamp =>
      let (trigger, current) := c.schedulerTrigger.isCurrentTs timestamp
      if current then do
        let (s, o) ← extractInstances S i.2 c.taskScheduler
        some (⟨s, trigger⟩, o)
      else some (⟨c.taskScheduler, trigger⟩, [])

end ClusterManager

/-! ## Stalling -/

/-- Nothing runs, and all messages about finished threads have been handled. -/
def Quiescent (out : List SchedEvent) : Prop := ∀ id, ¬ Busy out id

/-- The exit signal has been sent after the last submission. -/
def exitSent (out : List ClusterEvent) : Bool :=
  out.foldl (fun sent e => match e with
    | .scheduled (.submitted _) => false
    | .exitSignal => true
    | _ => sent) false

/-- No instance is extracted, however the random choices fall. -/
def ExtractsNothing {σ : Type} (S : TaskScheduler σ) (s : σ) : Prop :=
  ∀ d s' o, S.extractInstances d s = some (s', o) → ∀ instance_, .issued instance_ ∉ o

/-- When tasks have been submitted and nothing runs, all tasks have finished and the exit signal has
been sent, or some have not and no instance can be extracted. -/
def NotStalled {σ : Type} (S : TaskScheduler σ) (out : List ClusterEvent) (c : ClusterManager σ) :
    Prop :=
  (∃ tasks, .scheduled (.submitted tasks) ∈ out) → Quiescent (scheduled out) →
    (S.isFinished c.taskScheduler = true ∧ exitSent out = true) ∨
    (S.isFinished c.taskScheduler = false ∧ ExtractsNothing S c.taskScheduler)

/-- The call of the scheduler that a message is about. -/
def ClusterMessage.call : ClusterMessage → Option SchedInput
  | init tasks => some (.initTasks tasks)
  | threadFinished instanceId tid time => some (.finishThread instanceId tid time)
  | timeOutSchedule _ => none

/-- What arrives: the threads that finish run, the submitted tasks are accepted, and there is no
timer. -/
def ClusterMessage.Fair {σ : Type} (accepts : List SchedEvent → σ → List Task → Prop)
    (out : List SchedEvent) (s : σ) : ClusterMessage → Prop
  | init tasks => accepts out s tasks
  | threadFinished instanceId tid _ => instanceId ∈ holders out tid
  | timeOutSchedule _ => False

/-- The trigger counts to its threshold when the last running thread finishes. -/
def ClusterMessage.Timely (out : List SchedEvent) (t : SchedulerTrigger) : ClusterMessage → Prop
  | threadFinished instanceId tid _ =>
      Quiescent (out ++ [.finished instanceId tid]) → t.counter + 1 = t.countThreshold
  | _ => True

/-- The trigger after the message. -/
def ClusterMessage.trigger (t : SchedulerTrigger) : ClusterMessage → SchedulerTrigger
  | init _ => t
  | threadFinished _ _ _ => t.hasEnoughNewThreads.1
  | timeOutSchedule timestamp => (t.isCurrentTs timestamp).1

/-- The state in which instances are extracted when nothing runs is one of those that settle. -/
def ClusterMessage.Calm {σ : Type} (S : TaskScheduler σ) (calm : σ → Prop) (out : List SchedEvent)
    (s : σ) (m : ClusterMessage) : Prop :=
  ∀ i s' o, m.call = some i → schedStep S s i = some (s', o) → Quiescent (out ++ o) → calm s'

/-- What the loop can lead to, when all messages are as required. -/
def Serves {σ : Type} (S : TaskScheduler σ) (accepts : List SchedEvent → σ → List Task → Prop)
    (required : List SchedEvent → ClusterManager σ → ClusterMessage → Prop) (s₀ : σ)
    (t : SchedulerTrigger) (out : List ClusterEvent) (c : ClusterManager σ) : Prop :=
  ∃ inputs, Along (ClusterManager.serve S) (fun before c i =>
      i.1.Fair accepts (scheduled before) c.taskScheduler ∧ required (scheduled before) c i.1)
    [] ⟨s₀, t⟩ inputs ∧
  run (ClusterManager.serve S) ⟨s₀, t⟩ inputs = some (c, out)

/-- Instances are extracted when the last running thread has finished, in a state that settles. -/
def Prompt {σ : Type} (S : TaskScheduler σ) (calm : σ → Prop) (out : List SchedEvent)
    (c : ClusterManager σ) (m : ClusterMessage) : Prop :=
  m.Timely out c.schedulerTrigger ∧ m.Calm S calm out c.taskScheduler

section Rule

variable {σ : Type} {S : TaskScheduler σ} {accepts : List SchedEvent → σ → List Task → Prop}
  {calm : σ → Prop} {I : List SchedEvent → σ → Prop} {s₀ s s' : σ} {c c' : ClusterManager σ}
  {out o : List ClusterEvent} {m : ClusterMessage} {d : Draw}

@[simp] theorem scheduled_append (out o : List ClusterEvent) :
    scheduled (out ++ o) = scheduled out ++ scheduled o :=
  List.filterMap_append ..

@[simp] theorem scheduled_map (o : List SchedEvent) :
    scheduled (o.map ClusterEvent.scheduled) = o := by
  induction o with
  | nil => rfl
  | cons e o ih =>
      rw [List.map_cons, scheduled, List.filterMap_cons]
      exact congrArg (e :: ·) ih

theorem exitSent_snoc (out : List ClusterEvent) : exitSent (out ++ [.exitSignal]) = true := by
  rw [exitSent, List.foldl_append]
  rfl

/-- What runs keeps running, and what is issued runs, as long as no thread finishes. -/
theorem busy_append {out o : List SchedEvent} (hevents : ∀ id tid, .finished id tid ∉ o)
    (hthreads : ∀ instance_, .issued instance_ ∈ o → instance_.threads ≠ []) :
    (∀ id, Busy out id → Busy (out ++ o) id) ∧
      ∀ instance_, .issued instance_ ∈ o → Busy (out ++ o) instance_.id := by
  induction o using List.reverseRecOn with
  | nil => exact ⟨fun id hbusy => by rwa [List.append_nil], fun _ hmem => absurd hmem List.not_mem_nil⟩
  | append_singleton o e ih =>
      obtain ⟨hkeeps, hissued⟩ := ih
        (fun id tid hmem => hevents id tid (List.mem_append_left _ hmem))
        (fun instance_ hmem => hthreads instance_ (List.mem_append_left _ hmem))
      have hlast := List.mem_append_right o (List.mem_singleton_self e)
      rw [← List.append_assoc]
      cases e with
      | issued instance_ =>
          have hbusy : ∀ id, Busy (out ++ o ++ [.issued instance_]) id ↔
              id = instance_.id ∨ Busy (out ++ o) id :=
            busy_issued (hthreads instance_ hlast)
          refine ⟨fun id hid => (hbusy id).mpr (.inr (hkeeps id hid)), fun other hmem => ?_⟩
          rcases List.mem_append.mp hmem with hmem | hmem
          · exact (hbusy _).mpr (.inr (hissued other hmem))
          · obtain rfl := SchedEvent.issued.inj (List.mem_singleton.mp hmem)
            exact (hbusy _).mpr (.inl rfl)
      | finished id tid => exact absurd hlast (hevents id tid)
      | _ =>
          refine ⟨fun id hid => (busy_snoc_of_none rfl id).mpr (hkeeps id hid), fun other hmem => ?_⟩
          rcases List.mem_append.mp hmem with hmem | hmem
          · exact (busy_snoc_of_none rfl _).mpr (hissued other hmem)
          · cases List.mem_singleton.mp hmem

namespace ClusterManager

/-- What the cluster manager sends after it has extracted instances. -/
def extracted (S : TaskScheduler σ) (s : σ) (instances : List SchedEvent) : List ClusterEvent :=
  instances.map .scheduled ++ if S.isFinished s then [.exitSignal] else []

theorem extract_cases (hstep : extractInstances S d s = some (s', o)) :
    ∃ instances, S.extractInstances d s = some (s', instances) ∧ .refused ∉ instances ∧
      o = extracted S s' instances := by
  obtain ⟨⟨s₁, instances⟩, hextract, hstep⟩ := Option.bind_eq_some_iff.mp hstep
  simp only at hstep
  split at hstep
  · cases hstep
  · next hany =>
      obtain ⟨rfl, rfl⟩ := Prod.mk.inj (Option.some.inj hstep)
      refine ⟨instances, hextract, fun hmem => hany ?_, rfl⟩
      exact List.any_eq_true.mpr ⟨_, hmem, rfl⟩

/-- **A round of the loop** calls the scheduler, and extracts instances unless the trigger has not
counted enough threads. -/
theorem serve_cases {i : SchedInput} (hcall : m.call = some i)
    (hstep : serve S c (m, d) = some (c', o)) :
    ∃ s₁ e, schedStep S c.taskScheduler i = some (s₁, [e]) ∧
      ((∃ instances, S.extractInstances d s₁ = some (c'.taskScheduler, instances) ∧
        .refused ∉ instances ∧ o = .scheduled e :: extracted S c'.taskScheduler instances) ∨
      (∃ id tid time, m = .threadFinished id tid time ∧
        c.schedulerTrigger.counter + 1 ≠ c.schedulerTrigger.countThreshold ∧
        c'.taskScheduler = s₁ ∧ o = [.scheduled e])) := by
  cases m with
  | init tasks =>
      obtain rfl := Option.some.inj hcall
      obtain ⟨s₁, hinit, hstep⟩ := Option.bind_eq_some_iff.mp hstep
      obtain ⟨⟨s₂, o₂⟩, hextract, hstep⟩ := Option.bind_eq_some_iff.mp hstep
      obtain ⟨rfl, rfl⟩ := Prod.mk.inj (Option.some.inj hstep)
      obtain ⟨instances, hinstances, hnot, rfl⟩ := extract_cases hextract
      exact ⟨s₁, _, Option.map_eq_some_iff.mpr ⟨s₁, hinit, rfl⟩,
        .inl ⟨instances, hinstances, hnot, rfl⟩⟩
  | threadFinished id tid time =>
      obtain rfl := Option.some.inj hcall
      obtain ⟨s₁, hfinish, hstep⟩ := Option.bind_eq_some_iff.mp hstep
      refine ⟨s₁, _, Option.map_eq_some_iff.mpr ⟨s₁, hfinish, rfl⟩, ?_⟩
      simp only at hstep
      split at hstep
      · obtain ⟨⟨s₂, o₂⟩, hextract, hstep⟩ := Option.bind_eq_some_iff.mp hstep
        obtain ⟨rfl, rfl⟩ := Prod.mk.inj (Option.some.inj hstep)
        obtain ⟨instances, hinstances, hnot, rfl⟩ := extract_cases hextract
        exact .inl ⟨instances, hinstances, hnot, rfl⟩
      · next hnot =>
          obtain ⟨rfl, rfl⟩ := Prod.mk.inj (Option.some.inj hstep)
          refine .inr ⟨id, tid, time, rfl, fun heq => hnot ?_, rfl, rfl⟩
          exact c.schedulerTrigger.hasEnoughNewThreads_iff.mpr heq
  | timeOutSchedule timestamp => cases hcall

/-- What a round does to the trigger. -/
theorem serve_trigger (hstep : serve S c (m, d) = some (c', o)) :
    c'.schedulerTrigger = m.trigger c.schedulerTrigger := by
  cases m with
  | init tasks =>
      obtain ⟨s₁, -, hstep⟩ := Option.bind_eq_some_iff.mp hstep
      obtain ⟨⟨s₂, o₂⟩, -, hstep⟩ := Option.bind_eq_some_iff.mp hstep
      obtain ⟨rfl, -⟩ := Prod.mk.inj (Option.some.inj hstep)
      rfl
  | threadFinished id tid time =>
      obtain ⟨s₁, -, hstep⟩ := Option.bind_eq_some_iff.mp hstep
      simp only at hstep
      split at hstep
      · obtain ⟨⟨s₂, o₂⟩, -, hstep⟩ := Option.bind_eq_some_iff.mp hstep
        obtain ⟨rfl, -⟩ := Prod.mk.inj (Option.some.inj hstep)
        rfl
      · obtain ⟨rfl, -⟩ := Prod.mk.inj (Option.some.inj hstep)
        rfl
  | timeOutSchedule timestamp =>
      simp only [serve] at hstep
      split at hstep
      · obtain ⟨⟨s₂, o₂⟩, -, hstep⟩ := Option.bind_eq_some_iff.mp hstep
        obtain ⟨rfl, -⟩ := Prod.mk.inj (Option.some.inj hstep)
        rfl
      · obtain ⟨rfl, -⟩ := Prod.mk.inj (Option.some.inj hstep)
        rfl

end ClusterManager

theorem scheduled_extracted (S : TaskScheduler σ) (s : σ) (instances : List SchedEvent) :
    scheduled (ClusterManager.extracted S s instances) = instances := by
  rw [ClusterManager.extracted, scheduled_append, scheduled_map]
  split
  · exact List.append_nil _
  · exact List.append_nil _

/-- A scheduler whose instances have threads, and that extracts nothing once it has extracted
nothing. -/
structure Settles (S : TaskScheduler σ) (I : List SchedEvent → σ → Prop) (calm : σ → Prop) :
    Prop where
  events : ∀ {out o s s' d}, I out s → S.extractInstances d s = some (s', o) →
    ∀ id tid, .finished id tid ∉ o
  threads : ∀ {out s instance_}, I out s → .issued instance_ ∈ out → instance_.threads ≠ []
  again : ∀ {out o s s' d}, I out s → calm s → S.extractInstances d s = some (s', o) →
    .refused ∉ o → (∀ instance_, .issued instance_ ∉ o) → ExtractsNothing S s'

/-- **After an extraction** nothing is stalled. -/
theorem Settles.extracted (h : Settles S I calm) {before : List SchedEvent}
    {instances : List SchedEvent} (hI : I before s) (hI' : I (before ++ instances) s')
    (hcalm : Quiescent before → calm s) (hextract : S.extractInstances d s = some (s', instances))
    (hnot : .refused ∉ instances) (hout : scheduled out = before) {t : SchedulerTrigger} :
    NotStalled S (out ++ ClusterManager.extracted S s' instances) ⟨s', t⟩ := by
  intro _ hquiet
  rw [scheduled_append, scheduled_extracted, hout] at hquiet
  obtain ⟨hkeeps, hissued⟩ : (∀ id, Busy before id → Busy (before ++ instances) id) ∧
      ∀ instance_, .issued instance_ ∈ instances → Busy (before ++ instances) instance_.id :=
    busy_append (h.events hI hextract) fun instance_ hmem => h.threads hI' (List.mem_append_right _ hmem)
  have hnothing : ∀ instance_, .issued instance_ ∉ instances :=
    fun instance_ hmem => hquiet _ (hissued instance_ hmem)
  cases hfinished : S.isFinished s' with
  | true =>
      refine .inl ⟨rfl, ?_⟩
      rw [ClusterManager.extracted, hfinished, if_pos rfl, ← List.append_assoc]
      exact exitSent_snoc _
  | false =>
      exact .inr ⟨rfl, h.again hI (hcalm fun id hid => hquiet id (hkeeps id hid)) hextract hnot
        hnothing⟩

/-- **The loop does not stall** when the trigger counts to its threshold with every last thread. -/
theorem Settles.notStalled (h : Settles S I calm)
    (hreach : ∀ {out s}, Reaches S accepts s₀ out s → I out s) {t : SchedulerTrigger}
    (hserves : Serves S accepts (Prompt S calm) s₀ t out c) : NotStalled S out c := by
  obtain ⟨inputs, halong, hrun⟩ := hserves
  refine (run_along (I := fun out (c : ClusterManager σ) =>
    Reaches S accepts s₀ (scheduled out) c.taskScheduler ∧ NotStalled S out c) ?_
    ⟨⟨[], trivial, rfl⟩, fun ⟨_, hmem⟩ => absurd hmem List.not_mem_nil⟩ halong hrun).2
  rintro out c ⟨m, d⟩ c' o ⟨hc, -⟩ ⟨hfair, htimely, hcalm⟩ hstep
  obtain ⟨i, hcall⟩ : ∃ i, m.call = some i := by
    cases m with
    | timeOutSchedule _ => exact hfair.elim
    | _ => exact ⟨_, rfl⟩
  obtain ⟨s₁, e, hfirst, hcases⟩ := ClusterManager.serve_cases hcall hstep
  have hmid : Reaches S accepts s₀ (scheduled out ++ [e]) s₁ := by
    refine hc.snoc ?_ (fun tasks htasks => ?_) hfirst
    · cases m with
      | init tasks =>
          obtain rfl := Option.some.inj hcall
          trivial
      | threadFinished id tid time =>
          obtain rfl := Option.some.inj hcall
          exact hfair
      | timeOutSchedule _ => exact hfair.elim
    · subst htasks
      cases m with
      | init tasks =>
          obtain rfl := SchedInput.initTasks.inj (Option.some.inj hcall)
          exact hfair
      | threadFinished id tid time => cases hcall
      | timeOutSchedule _ => cases hcall
  have hhead : scheduled (out ++ [.scheduled e]) = scheduled out ++ [e] := scheduled_append ..
  rcases hcases with ⟨instances, hextract, hnot, rfl⟩ | ⟨id, tid, time, rfl, hcount, rfl, rfl⟩
  · have hlast : Reaches S accepts s₀ (scheduled out ++ [e] ++ instances) c'.taskScheduler :=
      hmid.snoc (i := .extractInstances d) trivial nofun hextract
    rw [List.append_cons]
    refine ⟨?_, h.extracted (hreach hmid) (hreach hlast) (hcalm i s₁ [e] hcall hfirst) hextract hnot
      hhead⟩
    rw [scheduled_append, scheduled_extracted, hhead]
    exact hlast
  · obtain rfl := Option.some.inj hcall
    obtain ⟨s₂, -, heq⟩ := Option.map_eq_some_iff.mp hfirst
    obtain ⟨-, he⟩ := Prod.mk.inj heq
    obtain rfl := (List.cons.inj he).1
    refine ⟨hhead ▸ hmid, fun _ hquiet => absurd (htimely ?_) hcount⟩
    rwa [hhead] at hquiet

/-- With the default threshold every thread that finishes triggers an extraction. -/
theorem Serves.prompt {required : List SchedEvent → ClusterManager σ → ClusterMessage → Prop}
    (h : Serves S accepts required s₀ (.new 1) out c)
    (hcalm : ∀ {out c m}, required out c m → m.Calm S calm out c.taskScheduler) :
    Serves S accepts (Prompt S calm) s₀ (.new 1) out c := by
  obtain ⟨inputs, halong, hrun⟩ := h
  refine ⟨inputs, halong.imp_of_inv (I := fun c : ClusterManager σ =>
    c.schedulerTrigger.counter = 0 ∧ c.schedulerTrigger.countThreshold = 1) ?_ ?_ ⟨rfl, rfl⟩, hrun⟩
  · rintro c ⟨m, d⟩ c' o ⟨hcounter, hthreshold⟩ hstep
    rw [ClusterManager.serve_trigger hstep]
    cases m with
    | init tasks => exact ⟨hcounter, hthreshold⟩
    | threadFinished id tid time =>
        simp only [ClusterMessage.trigger, SchedulerTrigger.hasEnoughNewThreads, hcounter, hthreshold]
        exact ⟨rfl, rfl⟩
    | timeOutSchedule timestamp =>
        simp only [ClusterMessage.trigger, SchedulerTrigger.isCurrentTs]
        split
        · exact ⟨rfl, hthreshold⟩
        · exact ⟨hcounter, hthreshold⟩
  · rintro before c ⟨m, d⟩ ⟨hcounter, hthreshold⟩ ⟨hfair, hrequired⟩
    refine ⟨hfair, ?_, hcalm hrequired⟩
    cases m with
    | threadFinished id tid time => exact fun _ => by rw [hcounter, hthreshold]
    | _ => trivial

end Rule

end FlexPS.Scheduler
