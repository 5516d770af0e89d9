import FlexPS.Scheduler.Settling

/-!
# Schedulers that never rebook

What the workers rely on: instances are issued for free threads, when no instance of their task
runs, and nothing runs when the scheduler is finished.

## Main definitions

* `Exclusive` — the invariant of a scheduler and what it promises.
* `SequentialTaskScheduler.exclusive`, `GreedyTaskScheduler.exclusive`,
  `PriorityTaskScheduler.exclusive` — three schedulers promise it.
-/

namespace FlexPS.Scheduler

open Lib

/-- The ids of the submitted tasks are different, as those of the tasks that a `TaskStore` buffers
are. -/
def DistinctTasks {σ : Type} (_ : List SchedEvent) (_ : σ) (tasks : List Task) : Prop :=
  (tasks.map Task.id).Nodup

/-- An instance is issued for free threads, when no instance of its task runs. -/
def FreshIssue (info : WorkerInfo) (before : List SchedEvent) (e : SchedEvent) : Prop :=
  Placement.SafeIssue info before e ∧ OneAtATime before e

/-- A scheduler whose calls keep an invariant, when tasks are submitted while it is finished; then it
never rebooks threads or tasks, and nothing runs when it is finished. -/
structure Exclusive {σ : Type} (info : WorkerInfo) (S : TaskScheduler σ)
    (accepts : List SchedEvent → σ → List Task → Prop) (I : List SchedEvent → σ → Prop) :
    Prop where
  submitted : ∀ {out s s' tasks}, I out s → S.isFinished s = true → accepts out s tasks →
    S.initTasks s tasks = some s' → I (out ++ [.submitted tasks]) s'
  extracted : ∀ {out s s' o d}, I out s → S.extractInstances d s = some (s', o) → I (out ++ o) s'
  finished : ∀ {out s s' id tid time}, I out s → id ∈ holders out tid →
    S.finishThread s id tid time = some s' → I (out ++ [.finished id tid]) s'
  events : ∀ {out s s' o d}, I out s → S.extractInstances d s = some (s', o) →
    ∀ id tid, .finished id tid ∉ o
  fresh : ∀ {out s}, I out s → Throughout (FreshIssue info) out
  accounts : ∀ {out s}, I out s → ∃ a m, Accounts info out a m
  idle : ∀ {out s}, I out s → S.isFinished s = true → ∀ id, ¬ Busy out id

variable {info : WorkerInfo} {out o : List SchedEvent} {d : Draw} {id tid : ℕ}

theorem OneAtATime.of_none {before : List SchedEvent} {e : SchedEvent} (he : e.entry = none) :
    OneAtATime before e := by
  rintro instance_ rfl
  cases he

/-- The threads are known to be free, and the tasks to be idle. -/
theorem freshIssue_throughout {p : Placement} (h : p.Inv info out)
    (honce : Throughout OneAtATime out) : Throughout (FreshIssue info) out :=
  fun before e after heq => ⟨h.safe before e after heq, honce before e after heq⟩

theorem Placement.Placed.oneAtATime {p p' : Placement} {task : Task} {candidateProc : List ℕ}
    {instance_ : Instance}
    (hplaced : Placement.Placed info out p (instanceBasicSetup task) candidateProc instance_ p')
    (hidle : ¬ Busy out task.id) : OneAtATime out (.issued instance_) := by
  rintro _ ⟨⟩
  rwa [Instance.id, hplaced.task_eq, instanceBasicSetup_id]

/-- **The sequential scheduler**, whatever the tasks are. -/
theorem SequentialTaskScheduler.exclusive (info : WorkerInfo) :
    Exclusive info (scheduler info) AnyTasks
      (fun out s => Inv info out s ∧ Throughout OneAtATime out) where
  submitted hs _ _ hstep :=
    ⟨hs.1.init hstep, throughout_snoc.mpr ⟨hs.2, .of_none rfl⟩⟩
  extracted := by
    rintro out s s' o d ⟨hs, honce⟩ hstep
    refine ⟨hs.extract hstep, ?_⟩
    rcases extract_cases hs.placement.sound hstep with ⟨-, rfl, -⟩ |
      ⟨task, rest, p', -, hempty, -, ⟨instance_, rfl, hplaced⟩ | ⟨rfl, -⟩⟩
    · rwa [List.append_nil]
    · exact throughout_snoc.mpr ⟨honce, hplaced.oneAtATime (hs.idle_iff.mp hempty _)⟩
    · exact throughout_snoc.mpr ⟨honce, .of_none rfl⟩
  finished hs hid hstep :=
    ⟨hs.1.finish hid hstep, throughout_snoc.mpr ⟨hs.2, nofun⟩⟩
  events hs hstep := (settles info).events hs.1.placement hstep
  fresh hs := freshIssue_throughout hs.1.placement hs.2
  accounts hs := ⟨_, _, hs.1.placement.sound.accounts⟩
  idle := by
    rintro out s ⟨hs, -⟩ hfinished id hbusy
    obtain ⟨task, rest, hqueue, -⟩ := hs.front id hbusy
    have hnil : s.tasksQueue = [] := List.isEmpty_iff.mp hfinished
    cases hnil.symm.trans hqueue

/-- Nothing runs when all tasks are marked as finished. -/
theorem GreedyTaskScheduler.Inv.not_busy {s : GreedyTaskScheduler}
    (h : GreedyTaskScheduler.Inv info out s) (hfinished : s.isFinished = true) (id : ℕ) :
    ¬ Busy out id := by
  intro hbusy
  obtain ⟨task, hmem, rfl⟩ := h.known id hbusy
  obtain ⟨i, hi⟩ := List.mem_iff_getElem?.mp hmem
  have hrunning := (h.status i task hi).mpr hbusy
  have hstatus := List.all_eq_true.mp hfinished _ (List.mem_of_getElem? hrunning)
  cases of_decide_eq_true hstatus

/-- **The greedy scheduler**, when the submitted tasks have different ids. -/
theorem GreedyTaskScheduler.exclusive (info : WorkerInfo) :
    Exclusive info (scheduler info) DistinctTasks
      (fun out s => Inv info out s ∧ Throughout OneAtATime out) where
  submitted hs hfinished hdistinct hstep :=
    ⟨hs.1.init (hs.1.not_busy hfinished) hdistinct hstep,
      throughout_snoc.mpr ⟨hs.2, .of_none rfl⟩⟩
  extracted := by
    rintro out s s' o d hs hstep
    refine run_along (I := fun out s => Inv info out s ∧ Throughout OneAtATime out)
      (fun {out s i s' o} hs _ hstep => ⟨hs.1.consider hstep, ?_⟩) hs
      (along_of_forall (P := fun _ => True) (fun _ _ => trivial) out s) hstep
    obtain ⟨task, status, htask, hstatus, ⟨-, -, rfl⟩ | ⟨rfl, instance_, p', hplaced, -, rfl⟩ |
      ⟨-, p', -, -, rfl⟩⟩ := consider_cases hs.1.placement.sound hstep
    · rw [List.append_nil]
      exact hs.2
    · exact throughout_snoc.mpr ⟨hs.2, hplaced.oneAtATime (hs.1.ready htask hstatus)⟩
    · rw [List.append_nil]
      exact hs.2
  finished hs hid hstep :=
    ⟨hs.1.finish hid hstep, throughout_snoc.mpr ⟨hs.2, nofun⟩⟩
  events hs hstep := (settles info).events hs.1.placement hstep
  fresh hs := freshIssue_throughout hs.1.placement hs.2
  accounts hs := ⟨_, _, hs.1.placement.sound.accounts⟩
  idle hs hfinished := hs.1.not_busy hfinished

namespace PriorityTaskScheduler

variable {m : TaskManager} {l l' : AngryLoop} {s s' : PriorityTaskScheduler} {lock : List ℕ}

theorem once_considerAngry (honce : Throughout OneAtATime out) (hsound : l.placement.Sound info out)
    (hids : ∀ (i : ℕ) (task : Task), m.tasks[i]? = some task → task.id = i) (hidle : ¬ Busy out id)
    (hstep : considerAngry info d m l id = some (l', o)) : Throughout OneAtATime (out ++ o) := by
  obtain ⟨task, p', htask, ⟨instance_, hplaced, -, rfl⟩ | ⟨-, -, rfl⟩⟩ :=
    considerAngry_cases hsound hids hstep
  · refine throughout_snoc.mpr ⟨honce, hplaced.oneAtATime ?_⟩
    rwa [hids id task htask]
  · exact throughout_snoc.mpr ⟨honce, .of_none rfl⟩

theorem once_considerReady (honce : Throughout OneAtATime out) (hsound : s.placement.Sound info out)
    (hids : ∀ (i : ℕ) (task : Task), s.taskManager.tasks[i]? = some task → task.id = i)
    (hidle : ¬ Busy out id) (hstep : considerReady info d lock s id = some (s', o)) :
    Throughout OneAtATime (out ++ o) := by
  obtain ⟨task, p', m', htask, -, ⟨instance_, hplaced, -, rfl⟩ | ⟨-, -, rfl⟩⟩ :=
    considerReady_cases hsound hids hstep
  · refine throughout_snoc.mpr ⟨honce, hplaced.oneAtATime ?_⟩
    rwa [hids id task htask]
  · rwa [List.append_nil]

end PriorityTaskScheduler

/-- **The priority scheduler**, when the tasks are indexed by their ids. -/
theorem PriorityTaskScheduler.exclusive (info : WorkerInfo) :
    Exclusive info (scheduler info) IndexedTasks
      (fun out s => (∃ tasks₀, Inv info tasks₀ out s) ∧ Throughout OneAtATime out) where
  submitted := by
    rintro out s s' tasks ⟨⟨tasks₀, hs⟩, honce⟩ - hids hstep
    obtain rfl := Option.some.inj hstep
    exact ⟨⟨tasks₀ ++ tasks, hs.init (hs.length ▸ hids)⟩,
      throughout_snoc.mpr ⟨honce, .of_none rfl⟩⟩
  extracted := by
    rintro out s s' o d ⟨⟨tasks₀, hs⟩, honce⟩ hstep
    obtain ⟨hs', honce', -⟩ := hs.extract_invariant (J := fun out _ => Throughout OneAtATime out) honce
      (fun honce hsound hidle _ hstep => once_considerAngry honce hsound hs.manager.ids hidle hstep)
      (fun honce hs hidle _ _ hstep =>
        once_considerReady honce hs.placement.sound hs.manager.ids hidle hstep) hstep
    exact ⟨⟨tasks₀, hs'⟩, honce'⟩
  finished := by
    rintro out s s' id tid time ⟨⟨tasks₀, hs⟩, honce⟩ hid hstep
    exact ⟨⟨tasks₀, hs.finish hid hstep⟩, throughout_snoc.mpr ⟨honce, nofun⟩⟩
  events hs hstep := (settles info).events hs.1 hstep
  fresh := by
    rintro out s ⟨⟨tasks₀, hs⟩, honce⟩
    exact freshIssue_throughout hs.placement honce
  accounts := by
    rintro out s ⟨⟨tasks₀, hs⟩, -⟩
    exact ⟨_, _, hs.placement.sound.accounts⟩
  idle := by
    rintro out s ⟨⟨tasks₀, hs⟩, -⟩ hfinished id hbusy
    have hrunning := (hs.manager.running id).mpr hbusy
    have hstatus := List.all_eq_true.mp hfinished _ (List.mem_of_getElem? hrunning)
    cases of_decide_eq_true hstatus

end FlexPS.Scheduler
