import FlexPS.Scheduler.SequentialTaskScheduler
import Mathlib.Algebra.Ring.Int.Defs

/-!
# The auto-parallelism task scheduler

`AutoParallelismTaskScheduler` runs the tasks one after another.  The stages of an
`AutoParallelismTask` are cut into sub-epochs, and a policy searches for the number of workers per
process with which a sub-epoch is fastest.

## Main definitions

* `AutoParallelismPolicy` — `IncreaseBestPolicy`: one more worker per process until the time gets
  worse.
* `AutoParallelismTaskScheduler` and `AutoParallelismTaskScheduler.scheduler`.
* `AutoParallelismTaskScheduler.placement_extract`, `AutoParallelismTaskScheduler.placement_finish` —
  its calls keep the account of the threads.
-/

namespace FlexPS.Scheduler

open Lib

/-- `AutoParallelismPolicy`, with the search of `IncreaseBestPolicy`; the best parallelism of every
batch size is kept in the order of the keys. -/
structure AutoParallelismPolicy where
  currentWorkerPerProcess : ℤ
  maxWorkerPerProcess : ℤ
  minWorkerPerProcess : ℤ
  times : List ℕ
  workerPerProcessHistory : List ℤ
  tryIters : ℤ
  currentIters : ℤ
  numTotalIters : ℤ
  subEpoch : ℕ
  fixed : Bool
  batchsizeToBestParallelismHistory : List (ℤ × ℤ)
  currentBatchsize : ℤ

namespace AutoParallelismPolicy

/-- `sub_reset`. -/
def subReset (p : AutoParallelismPolicy) : AutoParallelismPolicy :=
  { p with
    currentWorkerPerProcess := 0
    maxWorkerPerProcess := 10
    minWorkerPerProcess := 1
    tryIters := 10 }

/-- `reset_stage`. -/
def resetStage (p : AutoParallelismPolicy) : AutoParallelismPolicy :=
  { p with
    currentIters := 0
    subEpoch := 0
    times := []
    workerPerProcessHistory := []
    fixed := false }.subReset

/-- A policy that has been reset; the constructor leaves the other fields open. -/
def start : AutoParallelismPolicy :=
  resetStage ⟨0, 0, 0, [], [], 0, 0, 0, 0, false, [], 0⟩

/-- `batchsize_to_best_parallelism_history.find`. -/
def findBest (p : AutoParallelismPolicy) (batchsize : ℤ) : Option ℤ :=
  (p.batchsizeToBestParallelismHistory.find? fun kv => kv.1 = batchsize).map Prod.snd

/-- `batchsize_to_best_parallelism_history.insert`, which keeps an entry that is there. -/
def insertBest (p : AutoParallelismPolicy) (batchsize best : ℤ) : AutoParallelismPolicy :=
  match p.findBest batchsize with
  | some _ => p
  | none =>
      let history := p.batchsizeToBestParallelismHistory
      { p with batchsizeToBestParallelismHistory :=
          history.orderedInsert (fun kv kv' => kv.1 ≤ kv'.1) (batchsize, best) }

/-- `fix_parallelism`; `none` when there are not as many times as numbers of workers. -/
def fixParallelism (p : AutoParallelismPolicy) (best : ℤ) : Option AutoParallelismPolicy :=
  let p := if 0 < p.currentBatchsize then p.insertBest p.currentBatchsize best else p
  if p.times.length = p.workerPerProcessHistory.length then
    some { p with
      currentWorkerPerProcess := best
      tryIters := p.numTotalIters - p.currentIters
      fixed := true }
  else none

/-- `start_stage`. -/
def startStage (p : AutoParallelismPolicy) (totalIters batchsize : ℤ) :
    Option AutoParallelismPolicy :=
  let p := { p with numTotalIters := totalIters, currentBatchsize := batchsize }
  match p.findBest batchsize with
  | some best => if 0 < batchsize then p.fixParallelism best else some p
  | none => some p

/-- `finish_subepoch`, with the time that has been measured; the flag says that the stage is over. -/
def finishSubepoch (p : AutoParallelismPolicy) (time : ℕ) : AutoParallelismPolicy × Bool :=
  let p := { p with
    times := p.times ++ [time]
    workerPerProcessHistory := p.workerPerProcessHistory ++ [p.currentWorkerPerProcess]
    subEpoch := p.subEpoch + 1
    currentIters := p.currentIters + p.tryIters }
  (p, p.currentIters = p.numTotalIters)

/-- The search space after the entries of smaller batch sizes and the next one. -/
def prune (batchsize : ℤ) : List (ℤ × ℤ) → ℤ × ℤ → ℤ × ℤ
  | [], space => space
  | kv :: kvs, (min, max) =>
      if kv.1 < batchsize then prune batchsize kvs (kv.2, max) else (min, kv.2)

/-- One more worker per process, unless the last one has made it slower; `none` for a failed
assertion or an access out of range. -/
def increase (p : AutoParallelismPolicy) : Option AutoParallelismPolicy :=
  if p.subEpoch = p.times.length then do
    let worse ← if 1 < p.subEpoch then do
        let last ← p.times[p.subEpoch - 1]?
        let before ← p.times[p.subEpoch - 2]?
        some (decide (before < last))
      else some false
    if worse then do
      let best ← p.workerPerProcessHistory[p.subEpoch - 2]?
      p.fixParallelism best
    else
      some { p with currentWorkerPerProcess :=
          if p.maxWorkerPerProcess < p.currentWorkerPerProcess + 1 then p.maxWorkerPerProcess
          else p.currentWorkerPerProcess + 1 }
  else none

/-- `sub_generate_plan`. -/
def subGeneratePlan (p : AutoParallelismPolicy) : Option AutoParallelismPolicy :=
  if p.currentWorkerPerProcess = 0 then
    match p.findBest p.currentBatchsize with
    | some best => p.fixParallelism best
    | none =>
        if p.batchsizeToBestParallelismHistory = [] then p.increase
        else
          let space := prune p.currentBatchsize p.batchsizeToBestParallelismHistory
            (p.minWorkerPerProcess, p.maxWorkerPerProcess)
          let p := { p with minWorkerPerProcess := space.1, maxWorkerPerProcess := space.2 }
          if p.minWorkerPerProcess ≤ p.maxWorkerPerProcess then
            if p.minWorkerPerProcess = p.maxWorkerPerProcess then
              p.fixParallelism p.minWorkerPerProcess
            else
              increase { p with currentWorkerPerProcess := p.minWorkerPerProcess - 1 }
          else none
  else p.increase

/-- `generate_plan`. -/
def generatePlan (p : AutoParallelismPolicy) : Option AutoParallelismPolicy :=
  if p.fixed then some p else p.subGeneratePlan

end AutoParallelismPolicy

/-- `AutoParallelismTaskScheduler`. -/
structure AutoParallelismTaskScheduler where
  tasksQueue : List Task
  placement : Placement
  policy : AutoParallelismPolicy

namespace AutoParallelismTaskScheduler

variable (info : WorkerInfo)

/-- The constructor. -/
def start : AutoParallelismTaskScheduler := ⟨[], Placement.ofCluster info, .start⟩

/-- `start_stage`, which does nothing for other tasks; `none` for a failed assertion. -/
def startStage (policy : AutoParallelismPolicy) (task : Task) (epoch : ℕ) :
    Option AutoParallelismPolicy :=
  match task.type with
  | .autoParallelism epochIters batchsizes _ => do
      let iters ← epochIters[epoch]?
      if batchsizes = [] then policy.startStage iters 0
      else if epochIters.length = batchsizes.length then do
        let batchsize ← batchsizes[epoch]?
        policy.startStage iters batchsize
      else none
  | _ => some policy

/-- `init_tasks`; `none` when there is no task in the queue. -/
def initTasks (s : AutoParallelismTaskScheduler) (tasks : List Task) :
    Option AutoParallelismTaskScheduler := do
  let tasksQueue := s.tasksQueue ++ tasks
  let task ← tasksQueue.head?
  let policy ← startStage s.policy task 0
  some { s with tasksQueue := tasksQueue, policy := policy }

/-- The first stage of the next task. -/
def startNext (policy : AutoParallelismPolicy) : List Task → Option AutoParallelismPolicy
  | [] => some policy
  | task :: _ => startStage policy task 0

/-- The task at the front has run an epoch or, for an `AutoParallelismTask`, a sub-epoch. -/
def nextEpoch (policy : AutoParallelismPolicy) (task : Task) (rest : List Task) (time : ℕ) :
    Option (List Task × AutoParallelismPolicy) :=
  let next := task.incEpoch
  match task.type with
  | .autoParallelism _ _ _ =>
      let finished := policy.finishSubepoch time
      if finished.2 then
        let policy := finished.1.resetStage
        if next.currentEpoch = next.totalEpoch then
          (startNext policy rest).map fun policy => (rest, policy)
        else (startStage policy next next.currentEpoch).map fun policy => (next :: rest, policy)
      else some (task :: rest, finished.1)
  | _ =>
      if next.currentEpoch = next.totalEpoch then
        (startNext policy rest).map fun policy => (rest, policy)
      else some (next :: rest, policy)

/-- `finish_thread`. -/
def finishThread (s : AutoParallelismTaskScheduler) (instanceId tid time : ℕ) :
    Option AutoParallelismTaskScheduler :=
  let finished := s.placement.finishThread info instanceId tid
  if finished.2 then
    match s.tasksQueue with
    | [] => none
    | task :: rest =>
        (nextEpoch s.policy task rest time).map fun r =>
          ⟨r.1, finished.1.dropInstance instanceId, r.2⟩
  else some { s with placement := finished.1 }

/-- `task_to_instance_auto_parallelism`; `none` for a failed assertion. -/
def taskToInstanceAutoParallelism (d : Draw) (s : AutoParallelismTaskScheduler) (task : Task)
    (epochIters batchsizes : List ℤ) : Option (AutoParallelismTaskScheduler × List SchedEvent) := do
  let policy ← s.policy.generatePlan
  let workers := policy.currentWorkerPerProcess.toNat
  let (pidTids, a) := s.placement.availableWorkers.getWorkersPerProcess d workers info.numProcesses
  if pidTids = [] then none
  else
    let instance_ := { task with
      numWorkers := workers * info.numProcesses
      type := .autoParallelism epochIters batchsizes policy.tryIters }
    some (⟨s.tasksQueue, ⟨a, s.placement.history.updateHistory task.id pidTids,
      s.placement.taskIdPidTids.track task.id pidTids⟩, policy⟩, [.issued ⟨instance_, pidTids⟩])

/-- `extract_instances`. -/
def extractInstances (d : Draw) (s : AutoParallelismTaskScheduler) :
    Option (AutoParallelismTaskScheduler × List SchedEvent) :=
  match s.tasksQueue with
  | [] => some (s, [])
  | task :: _ =>
      if s.placement.taskIdPidTids.isEmpty then
        match task.type with
        | .autoParallelism epochIters batchsizes _ =>
            taskToInstanceAutoParallelism info d s task epochIters batchsizes
        | _ => (s.placement.taskToInstance info d task).map fun r => ({ s with placement := r.1 }, r.2)
      else some (s, [])

/-- `is_finished`. -/
def isFinished (s : AutoParallelismTaskScheduler) : Bool := s.tasksQueue.isEmpty

/-- The scheduler. -/
def scheduler : TaskScheduler AutoParallelismTaskScheduler where
  initTasks := initTasks
  finishThread := finishThread info
  extractInstances := extractInstances info
  isFinished := isFinished

/-! ## What the calls do to the placement -/

variable {info} {out o : List SchedEvent} {s s' : AutoParallelismTaskScheduler} {d : Draw}
  {id tid time : ℕ}

theorem placement_init (h : s.placement.Inv info out) {tasks : List Task}
    (hstep : initTasks s tasks = some s') : s'.placement.Inv info (out ++ [.submitted tasks]) := by
  obtain ⟨task, -, hstep⟩ := Option.bind_eq_some_iff.mp hstep
  obtain ⟨policy, -, hstep⟩ := Option.bind_eq_some_iff.mp hstep
  obtain rfl := Option.some.inj hstep
  exact h.snoc_of_none rfl

/-- The sub-epochs are placed on the same number of threads of every process. -/
theorem issue_cases (h : s.placement.Inv info out) {task : Task} {epochIters batchsizes : List ℤ}
    (hstep : taskToInstanceAutoParallelism info d s task epochIters batchsizes = some (s', o)) :
    ∃ policy workers threads placement, s.policy.generatePlan = some policy ∧ threads ≠ [] ∧
      o = [.issued ⟨{ task with
        numWorkers := workers
        type := .autoParallelism epochIters batchsizes policy.tryIters }, threads⟩] ∧
      s' = ⟨s.tasksQueue, placement, policy⟩ ∧ placement.Inv info (out ++ o) ∧
      placement.taskIdPidTids = s.placement.taskIdPidTids.track task.id threads ∧
      placement.history = s.placement.history.updateHistory task.id threads := by
  obtain ⟨policy, hplan, hstep⟩ := Option.bind_eq_some_iff.mp hstep
  have htakes := AvailableWorkers.takes_getWorkersPerProcess (d := d) h.sound.accounts.agree
    policy.currentWorkerPerProcess.toNat info.numProcesses
  simp only at hstep
  generalize s.placement.availableWorkers.getWorkersPerProcess d
    policy.currentWorkerPerProcess.toNat info.numProcesses = taken at hstep htakes
  obtain ⟨pidTids, a⟩ := taken
  split at hstep
  · cases hstep
  · next hne =>
      obtain ⟨rfl, rfl⟩ := Prod.mk.inj (Option.some.inj hstep)
      exact ⟨policy, policy.currentWorkerPerProcess.toNat * info.numProcesses, pidTids, _, hplan,
        hne, rfl, rfl, h.issue htakes hne, rfl, rfl⟩

/-- Nothing is issued while an instance runs; otherwise the front of the queue is. -/
theorem extract_cases (hstep : extractInstances info d s = some (s', o)) :
    (s' = s ∧ o = [] ∧ (s.tasksQueue = [] ∨ ¬ s.placement.taskIdPidTids.isEmpty)) ∨
    ∃ task rest, s.tasksQueue = task :: rest ∧ s.placement.taskIdPidTids.isEmpty = true ∧
      ((∃ epochIters batchsizes current, task.type = .autoParallelism epochIters batchsizes current ∧
        taskToInstanceAutoParallelism info d s task epochIters batchsizes = some (s', o)) ∨
      ((∀ epochIters batchsizes current, task.type ≠ .autoParallelism epochIters batchsizes current) ∧
        ∃ placement, s.placement.taskToInstance info d task = some (placement, o) ∧
          s' = { s with placement })) := by
  unfold extractInstances at hstep
  split at hstep
  · next hqueue =>
      obtain ⟨rfl, rfl⟩ := Prod.mk.inj (Option.some.inj hstep)
      exact .inl ⟨rfl, rfl, .inl hqueue⟩
  · next task rest hqueue =>
      split at hstep
      · next hempty =>
          refine .inr ⟨task, rest, hqueue, hempty, ?_⟩
          split at hstep
          · next epochIters batchsizes current htype =>
              exact .inl ⟨epochIters, batchsizes, current, htype, hstep⟩
          · next htype =>
              obtain ⟨⟨p', o'⟩, hplace, heq⟩ := Option.map_eq_some_iff.mp hstep
              obtain ⟨rfl, rfl⟩ := Prod.mk.inj heq
              exact .inr ⟨htype, p', hplace, rfl⟩
      · next hrunning =>
          obtain ⟨rfl, rfl⟩ := Prod.mk.inj (Option.some.inj hstep)
          exact .inl ⟨rfl, rfl, .inr hrunning⟩

/-- The next stage of the task, or the first one of the next task. -/
def NextStage (policy : AutoParallelismPolicy) (task : Task) (rest queue : List Task)
    (policy' : AutoParallelismPolicy) : Prop :=
  if task.incEpoch.currentEpoch = task.incEpoch.totalEpoch then
    queue = rest ∧ startNext policy rest = some policy'
  else queue = task.incEpoch :: rest ∧
    startStage policy task.incEpoch task.incEpoch.currentEpoch = some policy'

theorem nextStage_of_eq {policy policy' : AutoParallelismPolicy} {task : Task}
    {rest queue : List Task}
    (h : (if task.incEpoch.currentEpoch = task.incEpoch.totalEpoch then
        (startNext policy rest).map fun policy => (rest, policy)
      else (startStage policy task.incEpoch task.incEpoch.currentEpoch).map fun policy =>
        (task.incEpoch :: rest, policy)) = some (queue, policy')) :
    NextStage policy task rest queue policy' := by
  unfold NextStage
  split at h
  · next hdone =>
      obtain ⟨policy₁, hstart, heq⟩ := Option.map_eq_some_iff.mp h
      obtain ⟨rfl, rfl⟩ := Prod.mk.inj heq
      rw [if_pos hdone]
      exact ⟨rfl, hstart⟩
  · next hmore =>
      obtain ⟨policy₁, hstart, heq⟩ := Option.map_eq_some_iff.mp h
      obtain ⟨rfl, rfl⟩ := Prod.mk.inj heq
      rw [if_neg hmore]
      exact ⟨rfl, hstart⟩

/-- What is at the front when an instance of the front has finished. -/
theorem nextEpoch_cases {policy policy' : AutoParallelismPolicy} {task : Task}
    {rest queue : List Task} {time : ℕ}
    (h : nextEpoch policy task rest time = some (queue, policy')) :
    (∃ epochIters batchsizes current, task.type = .autoParallelism epochIters batchsizes current ∧
      ((policy.finishSubepoch time).2 = true ∧
          NextStage (policy.finishSubepoch time).1.resetStage task rest queue policy' ∨
        (policy.finishSubepoch time).2 = false ∧ queue = task :: rest ∧
          policy' = (policy.finishSubepoch time).1)) ∨
    (∀ epochIters batchsizes current, task.type ≠ .autoParallelism epochIters batchsizes current) ∧
      NextStage policy task rest queue policy' := by
  unfold nextEpoch at h
  simp only at h
  split at h
  · next htype =>
      refine .inl ⟨_, _, _, htype, ?_⟩
      split at h
      · next hfinish => exact .inl ⟨hfinish, nextStage_of_eq h⟩
      · next hmore =>
          obtain ⟨rfl, rfl⟩ := Prod.mk.inj (Option.some.inj h)
          exact .inr ⟨Bool.eq_false_iff.mpr hmore, rfl, rfl⟩
  · next hother =>
      have hstart : startStage policy task.incEpoch task.incEpoch.currentEpoch = some policy := by
        unfold startStage
        split
        · next htype => exact absurd htype (hother _ _ _)
        · rfl
      refine .inr ⟨hother, nextStage_of_eq ?_⟩
      rw [hstart]
      exact h

/-- A thread is taken back; after the last one the front of the queue has run one more epoch or
sub-epoch. -/
theorem finish_cases (h : s.placement.Sound info out) (hid : id ∈ holders out tid)
    (hstep : finishThread info s id tid time = some s') :
    (Busy (out ++ [.finished id tid]) id ∧
      s' = { s with placement := (s.placement.finishThread info id tid).1 }) ∨
    (¬ Busy (out ++ [.finished id tid]) id ∧ ∃ task rest queue policy,
      s.tasksQueue = task :: rest ∧ nextEpoch s.policy task rest time = some (queue, policy) ∧
      s' = ⟨queue, (s.placement.finishThread info id tid).1.dropInstance id, policy⟩) := by
  have hdone := (h.finish hid).2
  unfold finishThread at hstep
  simp only at hstep
  split at hstep
  · next hflag =>
      split at hstep
      · cases hstep
      · next task rest hqueue =>
          obtain ⟨⟨queue, policy⟩, hnext, rfl⟩ := Option.map_eq_some_iff.mp hstep
          exact .inr ⟨hdone.mp hflag, task, rest, queue, policy, hqueue, hnext, rfl⟩
  · next hflag =>
      obtain rfl := Option.some.inj hstep
      exact .inl ⟨not_not.mp fun hidle => hflag (hdone.mpr hidle), rfl⟩

theorem placement_extract (h : s.placement.Inv info out)
    (hstep : extractInstances info d s = some (s', o)) : s'.placement.Inv info (out ++ o) := by
  rcases extract_cases hstep with ⟨rfl, rfl, -⟩ |
    ⟨task, rest, -, -, ⟨_, _, _, -, hissue⟩ | ⟨-, p', hplace, rfl⟩⟩
  · rwa [List.append_nil]
  · obtain ⟨policy, workers, threads, placement, -, -, -, rfl, hinv, -, -⟩ := issue_cases h hissue
    exact hinv
  · rcases h.sound.taskToInstance hplace with ⟨instance_, rfl, hplaced⟩ | ⟨rfl, hnot⟩
    · exact hplaced.inv h
    · exact (hnot.inv h).snoc_of_none rfl

theorem placement_finish (h : s.placement.Inv info out) (hid : id ∈ holders out tid)
    (hstep : finishThread info s id tid time = some s') :
    s'.placement.Inv info (out ++ [.finished id tid]) := by
  rcases finish_cases h.sound hid hstep with ⟨-, rfl⟩ | ⟨hidle, task, rest, queue, policy, -, -, rfl⟩
  · exact h.finish hid
  · exact (h.finish hid).dropInstance hidle

/-! ## Only the front runs -/

/-- The queue and the placement, which are those of a sequential scheduler. -/
def sequential (s : AutoParallelismTaskScheduler) : SequentialTaskScheduler :=
  ⟨s.tasksQueue, s.placement⟩

/-- Only the task at the front runs. -/
def OnlyFront (info : WorkerInfo) (out : List SchedEvent) (s : AutoParallelismTaskScheduler) :
    Prop :=
  SequentialTaskScheduler.Inv info out s.sequential

theorem OnlyFront.extract (h : OnlyFront info out s)
    (hstep : extractInstances info d s = some (s', o)) : OnlyFront info (out ++ o) s' := by
  have hplacement := placement_extract h.placement hstep
  rcases extract_cases hstep with ⟨rfl, rfl, -⟩ |
    ⟨task, rest, hqueue, hempty, ⟨_, _, _, -, hissue⟩ | ⟨-, p', hplace, rfl⟩⟩
  · rwa [List.append_nil]
  · obtain ⟨policy, workers, threads, placement, -, hne, rfl, rfl, hinv, htracked, -⟩ :=
      issue_cases h.placement hissue
    have hfront : SequentialTaskScheduler.Inv info _ ⟨task :: rest, placement⟩ :=
      SequentialTaskScheduler.Inv.issue h (h.idle_iff.mp hempty) hinv rfl hne htracked
    rw [← hqueue] at hfront
    exact hfront
  · rcases h.placement.sound.taskToInstance hplace with ⟨instance_, rfl, hplaced⟩ | ⟨rfl, hnot⟩
    · have hid : instance_.id = task.id := by
        rw [Instance.id, hplaced.task_eq, instanceBasicSetup_id]
      have htracked := hplaced.tracked
      rw [instanceBasicSetup_id] at htracked
      have hfront : SequentialTaskScheduler.Inv info _ ⟨task :: rest, p'⟩ :=
        SequentialTaskScheduler.Inv.issue h (h.idle_iff.mp hempty) hplacement hid hplaced.ne_nil
          htracked
      rw [← hqueue] at hfront
      exact hfront
    · exact SequentialTaskScheduler.Inv.refuse h (h.idle_iff.mp hempty) hplacement hnot.tracked

theorem OnlyFront.finish (h : OnlyFront info out s) (hid : id ∈ holders out tid)
    (hstep : finishThread info s id tid time = some s') :
    OnlyFront info (out ++ [.finished id tid]) s' := by
  rcases finish_cases h.placement.sound hid hstep with ⟨hrun, rfl⟩ |
    ⟨hidle, task, rest, queue, policy, -, -, rfl⟩
  · exact SequentialTaskScheduler.Inv.finish_busy h hid hrun
  · exact SequentialTaskScheduler.Inv.finish_last h hid hidle queue

end AutoParallelismTaskScheduler

end FlexPS.Scheduler
