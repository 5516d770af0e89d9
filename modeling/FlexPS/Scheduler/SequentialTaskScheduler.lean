import FlexPS.Scheduler.Epochs
import FlexPS.Scheduler.Placement

/-!
# The sequential task scheduler

`SequentialTaskScheduler` runs the tasks one after another, epoch by epoch.

## Main definitions

* `SequentialTaskScheduler` and `SequentialTaskScheduler.scheduler`.
* `SequentialTaskScheduler.extract_cases`, `SequentialTaskScheduler.finish_cases` — what its calls do.
* `SequentialTaskScheduler.Inv` — only the front of the queue runs.
-/

namespace FlexPS.Scheduler

open Lib

/-- `SequentialTaskScheduler`. -/
structure SequentialTaskScheduler where
  tasksQueue : List Task
  placement : Placement

namespace SequentialTaskScheduler

variable (info : WorkerInfo)

/-- The constructor. -/
def start : SequentialTaskScheduler := ⟨[], Placement.ofCluster info⟩

/-- `init_tasks`. -/
def initTasks (s : SequentialTaskScheduler) (tasks : List Task) : Option SequentialTaskScheduler :=
  if globalGuaranteeThreads info tasks then some { s with tasksQueue := s.tasksQueue ++ tasks }
  else none

/-- The task at the front works on its next epoch, or is done. -/
def nextEpoch (task : Task) (rest : List Task) : List Task :=
  let task := task.incEpoch
  if task.currentEpoch = task.totalEpoch then rest else task :: rest

/-- `finish_thread`. -/
def finishThread (s : SequentialTaskScheduler) (instanceId tid : ℕ) :
    Option SequentialTaskScheduler :=
  let finished := s.placement.finishThread info instanceId tid
  if finished.2 then
    match s.tasksQueue with
    | [] => none
    | task :: rest => some ⟨nextEpoch task rest, finished.1.dropInstance instanceId⟩
  else some { s with placement := finished.1 }

/-- `extract_instances`. -/
def extractInstances (d : Draw) (s : SequentialTaskScheduler) :
    Option (SequentialTaskScheduler × List SchedEvent) :=
  match s.tasksQueue with
  | [] => some (s, [])
  | task :: _ =>
      if s.placement.taskIdPidTids.isEmpty then
        (s.placement.taskToInstance info d task).map fun r => ({ s with placement := r.1 }, r.2)
      else some (s, [])

/-- `is_finished`. -/
def isFinished (s : SequentialTaskScheduler) : Bool := s.tasksQueue.isEmpty

/-- The scheduler. -/
def scheduler : TaskScheduler SequentialTaskScheduler where
  initTasks := initTasks info
  finishThread s instanceId tid _ := finishThread info s instanceId tid
  extractInstances := extractInstances info
  isFinished := isFinished

/-! ## What the calls do -/

variable {info} {out o : List SchedEvent} {s s' : SequentialTaskScheduler} {d : Draw} {id tid : ℕ}

/-- Nothing is issued while an instance runs; otherwise the front of the queue is. -/
theorem extract_cases (h : s.placement.Sound info out)
    (hstep : extractInstances info d s = some (s', o)) :
    (s' = s ∧ o = [] ∧ (s.tasksQueue = [] ∨ ¬ s.placement.taskIdPidTids.isEmpty)) ∨
    ∃ task rest p', s.tasksQueue = task :: rest ∧ s.placement.taskIdPidTids.isEmpty ∧
      s' = ⟨task :: rest, p'⟩ ∧
      ((∃ instance_, o = [.issued instance_] ∧ s.placement.Placed info out
        (instanceBasicSetup task) (s.placement.getPreferredProc task.id) instance_ p') ∨
      (o = [.refused] ∧ s.placement.NotPlaced info out (instanceBasicSetup task)
        (s.placement.getPreferredProc task.id) p')) := by
  unfold extractInstances at hstep
  split at hstep
  · next hqueue =>
      obtain ⟨rfl, rfl⟩ := Prod.mk.inj (Option.some.inj hstep)
      exact .inl ⟨rfl, rfl, .inl hqueue⟩
  · next task rest hqueue =>
      split at hstep
      · next hempty =>
          obtain ⟨⟨p', o'⟩, hplace, heq⟩ := Option.map_eq_some_iff.mp hstep
          obtain ⟨rfl, rfl⟩ := Prod.mk.inj heq
          refine .inr ⟨task, rest, p', hqueue, hempty, by rw [hqueue], h.taskToInstance hplace⟩
      · next hrunning =>
          obtain ⟨rfl, rfl⟩ := Prod.mk.inj (Option.some.inj hstep)
          exact .inl ⟨rfl, rfl, .inr hrunning⟩

/-- A thread is taken back; after the last one the front of the queue has run one more epoch. -/
theorem finish_cases (h : s.placement.Sound info out) (hid : id ∈ holders out tid)
    (hstep : finishThread info s id tid = some s') :
    (Busy (out ++ [.finished id tid]) id ∧
      s' = ⟨s.tasksQueue, (s.placement.finishThread info id tid).1⟩) ∨
    (¬ Busy (out ++ [.finished id tid]) id ∧ ∃ task rest, s.tasksQueue = task :: rest ∧
      s' = ⟨nextEpoch task rest, (s.placement.finishThread info id tid).1.dropInstance id⟩) := by
  have hdone := (h.finish hid).2
  unfold finishThread at hstep
  simp only at hstep
  split at hstep
  · next hflag =>
      split at hstep
      · cases hstep
      · next task rest hqueue =>
          obtain rfl := Option.some.inj hstep
          exact .inr ⟨hdone.mp hflag, task, rest, hqueue, rfl⟩
  · next hflag =>
      obtain rfl := Option.some.inj hstep
      exact .inl ⟨not_not.mp fun hidle => hflag (hdone.mpr hidle), rfl⟩

theorem init_cases {tasks : List Task} (hstep : initTasks info s tasks = some s') :
    globalGuaranteeThreads info tasks = true ∧
      s' = { s with tasksQueue := s.tasksQueue ++ tasks } := by
  unfold initTasks at hstep
  split at hstep
  · next hok => exact ⟨hok, (Option.some.inj hstep).symm⟩
  · cases hstep

/-! ## Whatever the tasks are, threads are not lost -/

theorem placement_init (h : s.placement.Inv info out) {tasks : List Task}
    (hstep : initTasks info s tasks = some s') :
    s'.placement.Inv info (out ++ [.submitted tasks]) := by
  obtain ⟨-, rfl⟩ := init_cases hstep
  exact h.snoc_of_none rfl

theorem placement_extract (h : s.placement.Inv info out)
    (hstep : extractInstances info d s = some (s', o)) : s'.placement.Inv info (out ++ o) := by
  rcases extract_cases h.sound hstep with ⟨rfl, rfl, -⟩ |
    ⟨task, rest, p', -, -, rfl, ⟨instance_, rfl, hplaced⟩ | ⟨rfl, hnot⟩⟩
  · rwa [List.append_nil]
  · exact hplaced.inv h
  · exact (hnot.inv h).snoc_of_none rfl

theorem placement_finish (h : s.placement.Inv info out) (hid : id ∈ holders out tid)
    (hstep : finishThread info s id tid = some s') :
    s'.placement.Inv info (out ++ [.finished id tid]) := by
  rcases finish_cases h.sound hid hstep with ⟨-, rfl⟩ | ⟨hidle, task, rest, -, rfl⟩
  · exact h.finish hid
  · exact (h.finish hid).dropInstance hidle

/-! ## Only the front runs -/

/-- The instances that are tracked run, and only the task at the front runs. -/
structure Inv (info : WorkerInfo) (out : List SchedEvent) (s : SequentialTaskScheduler) : Prop where
  placement : s.placement.Inv info out
  keys : ∀ id, id ∈ s.placement.taskIdPidTids → Busy out id
  front : ∀ id, Busy out id → ∃ task rest, s.tasksQueue = task :: rest ∧ task.id = id

theorem inv_start (info : WorkerInfo) : Inv info [] (start info) where
  placement := Placement.inv_ofCluster info
  keys id hid := absurd hid (AList.notMem_empty id)
  front id hbusy := absurd hbusy (not_busy_nil id)

/-- Nothing is tracked when no instance runs. -/
theorem Inv.idle_iff (h : Inv info out s) :
    s.placement.taskIdPidTids.isEmpty = true ↔ ∀ id, ¬ Busy out id := by
  rw [Dict.isEmpty_iff]
  refine forall_congr' fun id => not_congr ⟨h.keys id, fun hbusy => ?_⟩
  exact ((h.placement.sound.accounts.running_iff id).mpr hbusy).mem

theorem Inv.init (h : Inv info out s) {tasks : List Task}
    (hstep : initTasks info s tasks = some s') : Inv info (out ++ [.submitted tasks]) s' := by
  have hplacement := placement_init h.placement hstep
  obtain ⟨-, rfl⟩ := init_cases hstep
  have hbusy : ∀ id, Busy (out ++ [.submitted tasks]) id ↔ Busy out id :=
    fun id => busy_snoc_of_none rfl id
  refine ⟨hplacement, fun id hid => (hbusy id).mpr (h.keys id hid), ?_⟩
  intro id hid
  obtain ⟨task, rest, hqueue, hfront⟩ := h.front id ((hbusy id).mp hid)
  refine ⟨task, rest ++ tasks, ?_, hfront⟩
  simp only [hqueue, List.cons_append]

/-- The front is issued when nothing runs. -/
theorem Inv.issue (h : Inv info out s) {task : Task} {rest : List Task} {p' : Placement}
    {instance_ : Instance} (hidle : ∀ id, ¬ Busy out id)
    (hplacement : p'.Inv info (out ++ [.issued instance_])) (hid : instance_.id = task.id)
    (hne : instance_.threads ≠ [])
    (htracked : p'.taskIdPidTids = s.placement.taskIdPidTids.track task.id instance_.threads) :
    Inv info (out ++ [.issued instance_]) ⟨task :: rest, p'⟩ := by
  have hbusy : ∀ id, Busy (out ++ [.issued instance_]) id ↔ id = task.id := by
    intro id
    rw [busy_issued hne, hid]
    exact or_iff_left (hidle id)
  refine ⟨hplacement, fun id hmem => ?_, fun id hrun => ?_⟩
  · rw [htracked] at hmem
    rcases Tracking.mem_track _ _ _ _ hmem with hmem | hmem
    · exact (hbusy id).mpr hmem
    · exact absurd (h.keys id hmem) (hidle id)
  · exact ⟨task, rest, rfl, ((hbusy id).mp hrun).symm⟩

/-- Nothing is issued, although nothing runs. -/
theorem Inv.refuse (h : Inv info out s) {queue : List Task} {p' : Placement}
    (hidle : ∀ id, ¬ Busy out id) (hplacement : p'.Inv info (out ++ [.refused]))
    (htracked : p'.taskIdPidTids = s.placement.taskIdPidTids) :
    Inv info (out ++ [.refused]) ⟨queue, p'⟩ := by
  have hbusy : ∀ id, Busy (out ++ [.refused]) id ↔ Busy out id :=
    fun id => busy_snoc_of_none rfl id
  refine ⟨hplacement, fun id hmem => ?_, fun id hrun => ?_⟩
  · rw [htracked] at hmem
    exact (hbusy id).mpr (h.keys id hmem)
  · exact absurd ((hbusy id).mp hrun) (hidle id)

theorem Inv.extract (h : Inv info out s) (hstep : extractInstances info d s = some (s', o)) :
    Inv info (out ++ o) s' := by
  have hplacement := placement_extract h.placement hstep
  rcases extract_cases h.placement.sound hstep with ⟨rfl, rfl, -⟩ |
    ⟨task, rest, p', hqueue, hempty, rfl, ⟨instance_, rfl, hplaced⟩ | ⟨rfl, hnot⟩⟩
  · rwa [List.append_nil]
  · have hid : instance_.id = task.id := by
      rw [Instance.id, hplaced.task_eq, instanceBasicSetup_id]
    have htracked := hplaced.tracked
    rw [instanceBasicSetup_id] at htracked
    exact h.issue (h.idle_iff.mp hempty) hplacement hid hplaced.ne_nil htracked
  · exact h.refuse (h.idle_iff.mp hempty) hplacement hnot.tracked

/-- The instance that finishes is the only one. -/
theorem Inv.finish_idle (h : Inv info out s) (hid : id ∈ holders out tid)
    (hidle : ¬ Busy (out ++ [.finished id tid]) id) (id' : ℕ) :
    ¬ Busy (out ++ [.finished id tid]) id' := by
  intro hbusy
  have hne : id' ≠ id := fun heq => hidle (heq ▸ hbusy)
  obtain ⟨task, rest, hqueue, hfront⟩ := h.front id ⟨tid, hid⟩
  obtain ⟨task', rest', hqueue', hfront'⟩ := h.front id' ((busy_finished_of_ne hne).mp hbusy)
  obtain ⟨rfl, -⟩ := List.cons.inj (hqueue.symm.trans hqueue')
  exact hne (hfront'.symm.trans hfront)

/-- A thread finishes, but not the last one. -/
theorem Inv.finish_busy (h : Inv info out s) (hid : id ∈ holders out tid)
    (hrun : Busy (out ++ [.finished id tid]) id) :
    Inv info (out ++ [.finished id tid])
      ⟨s.tasksQueue, (s.placement.finishThread info id tid).1⟩ := by
  refine ⟨h.placement.finish hid, fun id' hmem => ?_, fun id' hrun' => ?_⟩
  · by_cases heq : id' = id
    · exact heq ▸ hrun
    · exact (busy_finished_of_ne heq).mpr
        (h.keys id' ((Tracking.mem_untrack _ _ _ _ _ hmem).resolve_left heq))
  · by_cases heq : id' = id
    · exact h.front id' ⟨tid, heq ▸ hid⟩
    · exact h.front id' ((busy_finished_of_ne heq).mp hrun')

/-- The last thread finishes, whatever the queue is then. -/
theorem Inv.finish_last (h : Inv info out s) (hid : id ∈ holders out tid)
    (hidle : ¬ Busy (out ++ [.finished id tid]) id) (queue : List Task) :
    Inv info (out ++ [.finished id tid])
      ⟨queue, (s.placement.finishThread info id tid).1.dropInstance id⟩ := by
  refine ⟨(h.placement.finish hid).dropInstance hidle, fun id' hmem => ?_, fun id' hrun => ?_⟩
  · obtain ⟨hne, hmem⟩ := (Dict.mem_drop ..).mp hmem
    exact (busy_finished_of_ne hne).mpr
      (h.keys id' ((Tracking.mem_untrack _ _ _ _ _ hmem).resolve_left hne))
  · exact absurd hrun (h.finish_idle hid hidle id')

theorem Inv.finish (h : Inv info out s) (hid : id ∈ holders out tid)
    (hstep : finishThread info s id tid = some s') :
    Inv info (out ++ [.finished id tid]) s' := by
  rcases finish_cases h.placement.sound hid hstep with ⟨hrun, rfl⟩ | ⟨hidle, task, rest, hqueue, rfl⟩
  · exact h.finish_busy hid hrun
  · exact h.finish_last hid hidle _

/-! ## One task after another -/

/-- The first element of a suffix. -/
theorem getElem?_of_drop {tasks rest : List Task} {n : ℕ} {task : Task}
    (h : tasks.drop n = task :: rest) : tasks[n]? = some task := by
  rw [← Nat.add_zero n, ← List.getElem?_drop, h]
  rfl

/-- The tasks before the `n`-th are completed, it is at the front of the queue, and nothing of the
others has been issued. -/
structure QueueAt (tasks₀ : List Task) (out : List SchedEvent) (queue : List Task) (n : ℕ) :
    Prop where
  before : ∀ (i : ℕ) (task₀ : Task), tasks₀[i]? = some task₀ → i < n → Completed out task₀
  front : ∀ task rest, queue = task :: rest → ∃ task₀, tasks₀.drop n = task₀ :: rest ∧ task.id = n ∧
    task.totalEpoch = task₀.totalEpoch ∧ task.currentEpoch < task.totalEpoch ∧
    CompletedEpochs out n task.currentEpoch
  done : queue = [] → tasks₀.length ≤ n
  after : ∀ i, n < i → EpochsOver out i 0

variable {tasks₀ queue : List Task} {n : ℕ}

/-- An instance is issued when all tasks before its task are completed. -/
def InTurn (tasks₀ : List Task) (before : List SchedEvent) (e : SchedEvent) : Prop :=
  ∀ instance_, e = .issued instance_ → ∀ task ∈ tasks₀, task.id < instance_.id →
    Completed before task

/-- The queue is somewhere in the list of tasks, and everything has been issued in order. -/
structure Progress (tasks₀ : List Task) (out : List SchedEvent) (s : SequentialTaskScheduler) :
    Prop where
  queue : ∃ n, QueueAt tasks₀ out s.tasksQueue n
  inOrder : Throughout (InOrder tasks₀) out
  inTurn : Throughout (InTurn tasks₀) out

theorem progress_init (hfresh : Fresh 0 tasks₀) (hstep : initTasks info (start info) tasks₀ = some s) :
    Progress tasks₀ [] s := by
  obtain ⟨-, rfl⟩ := init_cases hstep
  refine ⟨⟨0, nofun, fun task rest hqueue => ?_, fun hnil => ?_, fun i _ => epochsOver_nil i⟩,
    throughout_nil _, throughout_nil _⟩
  · have hqueue : tasks₀ = task :: rest := hqueue
    subst hqueue
    have hid := hfresh.ids 0 task rfl
    have hepoch := hfresh.epochs task (List.mem_cons_self ..)
    refine ⟨task, rfl, hid, rfl, by omega, ?_⟩
    rw [hepoch.1]
    exact completedEpochs_nil 0
  · have hnil : tasks₀ = [] := hnil
    rw [hnil]
    exact le_rfl

theorem QueueAt.snoc_of_none (h : QueueAt tasks₀ out queue n) {e : SchedEvent}
    (he : e.entry = none) : QueueAt tasks₀ (out ++ [e]) queue n where
  before i task₀ htask₀ hlt := (h.before i task₀ htask₀ hlt).snoc_of_none he
  front task rest hqueue := by
    obtain ⟨task₀, hdrop, hid, htotal, hlt, hepochs⟩ := h.front task rest hqueue
    exact ⟨task₀, hdrop, hid, htotal, hlt, hepochs.snoc_of_none he⟩
  done := h.done
  after i hi := (h.after i hi).snoc_of_none he

/-- The front of the queue is issued. -/
theorem QueueAt.issue (h : QueueAt tasks₀ out queue n) (hids : Indexed 0 tasks₀)
    {task : Task} {rest : List Task} (hqueue : queue = task :: rest) (hidle : ¬ Busy out n)
    {instance_ : Instance} (hid : instance_.id = n) (hepoch : instance_.epoch = task.currentEpoch)
    (hne : instance_.threads ≠ []) : QueueAt tasks₀ (out ++ [.issued instance_]) queue n where
  before i task₀ htask₀ hlt := by
    refine (h.before i task₀ htask₀ hlt).issue_other ?_ hne
    have := hids i task₀ htask₀
    omega
  front task' rest' hqueue' := by
    obtain ⟨rfl, rfl⟩ := List.cons.inj (hqueue.symm.trans hqueue')
    obtain ⟨task₀, hdrop, hidn, htotal, hlt, hepochs⟩ := h.front task rest hqueue
    exact ⟨task₀, hdrop, hidn, htotal, hlt, hepochs.issue hidle hid hepoch hne⟩
  done := h.done
  after i hi := (h.after i hi).issue_other (by omega) hne

/-- A thread of the front finishes, but not the last one. -/
theorem QueueAt.finish_busy (h : QueueAt tasks₀ out queue n) (hids : Indexed 0 tasks₀)
    (hid : n ∈ holders out tid) (hbusy : Busy (out ++ [.finished n tid]) n) :
    QueueAt tasks₀ (out ++ [.finished n tid]) queue n where
  before i task₀ htask₀ hlt := by
    refine (h.before i task₀ htask₀ hlt).finish_other ?_
    have := hids i task₀ htask₀
    omega
  front task rest hqueue := by
    obtain ⟨task₀, hdrop, hidn, htotal, hlt, hepochs⟩ := h.front task rest hqueue
    exact ⟨task₀, hdrop, hidn, htotal, hlt, (hepochs.finish hid).1 hbusy⟩
  done := h.done
  after i hi := (h.after i hi).finish_other (by omega)

/-- The last thread of the front finishes, and its next epoch or the next task is at the front. -/
theorem QueueAt.finish_idle {task : Task} {rest : List Task}
    (h : QueueAt tasks₀ out (task :: rest) n) (hfresh : Fresh 0 tasks₀) (hid : n ∈ holders out tid)
    (hidle : ¬ Busy (out ++ [.finished n tid]) n) :
    ∃ n', QueueAt tasks₀ (out ++ [.finished n tid]) (nextEpoch task rest) n' := by
  obtain ⟨task₀, hdrop, hidn, htotal, hlt, hepochs⟩ := h.front task rest rfl
  have hover := ((hepochs.finish hid).2 hidle).over hidle
  have htask₀ := getElem?_of_drop hdrop
  have hbefore : ∀ (i : ℕ) (task₀ : Task), tasks₀[i]? = some task₀ → i < n →
      Completed (out ++ [.finished n tid]) task₀ := by
    intro i task₀ htask₀ hlt
    refine (h.before i task₀ htask₀ hlt).finish_other ?_
    have := hfresh.ids i task₀ htask₀
    omega
  have hafter : ∀ i, n < i → EpochsOver (out ++ [.finished n tid]) i 0 :=
    fun i hi => (h.after i hi).finish_other (by omega)
  by_cases hdone : task.currentEpoch + 1 = task.totalEpoch
  · have hnext : nextEpoch task rest = rest := if_pos hdone
    have hrest : tasks₀.drop (n + 1) = rest := by
      rw [← List.tail_drop, hdrop, List.tail_cons]
    rw [hnext]
    refine ⟨n + 1, fun i task₁ htask₁ hi => ?_, fun task' rest' hqueue => ?_, fun hnil => ?_,
      fun i hi => hafter i (by omega)⟩
    · rcases Nat.lt_succ_iff_lt_or_eq.mp hi with hi | rfl
      · exact hbefore i task₁ htask₁ hi
      · obtain rfl := Option.some.inj (htask₀.symm.trans htask₁)
        have hidi := hfresh.ids i task₀ htask₀
        rw [Nat.zero_add] at hidi
        rw [Completed, hidi, ← htotal, ← hdone]
        exact hover
    · rw [hqueue] at hrest
      have htask' := getElem?_of_drop hrest
      have hid' := hfresh.ids (n + 1) task' htask'
      have hepoch' := hfresh.epochs task' (List.mem_of_getElem? htask')
      refine ⟨task', hrest, by omega, rfl, by omega, ?_⟩
      rw [hepoch'.1]
      exact (hafter (n + 1) (Nat.lt_succ_self n)).completedEpochs
    · rw [hnil] at hrest
      exact List.drop_eq_nil_iff.mp hrest
  · have hnext : nextEpoch task rest = task.incEpoch :: rest := if_neg hdone
    rw [hnext]
    refine ⟨n, hbefore, fun task' rest' hqueue => ?_, fun hnil => absurd hnil (List.cons_ne_nil _ _),
      hafter⟩
    obtain ⟨rfl, rfl⟩ := List.cons.inj hqueue
    refine ⟨task₀, hdrop, hidn, htotal, ?_, hover.completedEpochs⟩
    rw [Task.incEpoch_currentEpoch, Task.incEpoch_totalEpoch]
    omega

theorem Progress.extract (h : Progress tasks₀ out s) (hinv : Inv info out s) (hfresh : Fresh 0 tasks₀)
    (hstep : extractInstances info d s = some (s', o)) : Progress tasks₀ (out ++ o) s' := by
  obtain ⟨n, hqueue⟩ := h.queue
  rcases extract_cases hinv.placement.sound hstep with ⟨rfl, rfl, -⟩ |
    ⟨task, rest, p', htasks, hempty, rfl, ⟨instance_, rfl, hplaced⟩ | ⟨rfl, -⟩⟩
  · rwa [List.append_nil]
  · have hidle := hinv.idle_iff.mp hempty
    obtain ⟨task₀, hdrop, hidn, htotal, hlt, hepochs⟩ := hqueue.front task rest htasks
    have hid : instance_.id = n := by
      rw [Instance.id, hplaced.task_eq, instanceBasicSetup_id, hidn]
    have hepoch : instance_.epoch = task.currentEpoch := by
      rw [Instance.epoch, hplaced.task_eq, instanceBasicSetup_currentEpoch]
    have htask₀ := getElem?_of_drop hdrop
    have hid₀ := hfresh.ids n task₀ htask₀
    rw [htasks] at hqueue
    refine ⟨⟨n, hqueue.issue hfresh.ids rfl (hidle n) hid hepoch hplaced.ne_nil⟩,
      throughout_snoc.mpr ⟨h.inOrder, ?_⟩, throughout_snoc.mpr ⟨h.inTurn, ?_⟩⟩
    · rw [← hid, ← hepoch] at hepochs
      refine hepochs.inOrder (hidle _) (List.mem_of_getElem? htask₀) ?_ ?_
      · rw [hid, hid₀, Nat.zero_add]
      · rw [hepoch, ← htotal]
        exact hlt
    · rintro _ ⟨⟩ task' hmem hlt'
      obtain ⟨i, hi⟩ := List.mem_iff_getElem?.mp hmem
      refine hqueue.before i task' hi ?_
      have := hfresh.ids i task' hi
      omega
  · rw [htasks] at hqueue
    exact ⟨⟨n, hqueue.snoc_of_none rfl⟩,
      throughout_snoc.mpr ⟨h.inOrder, inOrder_of_none _ _ nofun⟩,
      throughout_snoc.mpr ⟨h.inTurn, nofun⟩⟩

theorem Progress.finish (h : Progress tasks₀ out s) (hinv : Inv info out s) (hfresh : Fresh 0 tasks₀)
    (hid : id ∈ holders out tid) (hstep : finishThread info s id tid = some s') :
    Progress tasks₀ (out ++ [.finished id tid]) s' := by
  obtain ⟨n, hqueue⟩ := h.queue
  obtain ⟨task, rest, htasks, hfront⟩ := hinv.front id ⟨tid, hid⟩
  obtain ⟨task₀, -, hidn, -⟩ := hqueue.front task rest htasks
  obtain rfl : n = id := hidn.symm.trans hfront
  refine ⟨?_, throughout_snoc.mpr ⟨h.inOrder, inOrder_of_none _ _ nofun⟩,
    throughout_snoc.mpr ⟨h.inTurn, nofun⟩⟩
  rcases finish_cases hinv.placement.sound hid hstep with ⟨hrun, rfl⟩ | ⟨hidle, task', rest', hq, rfl⟩
  · exact ⟨n, hqueue.finish_busy hfresh.ids hid hrun⟩
  · rw [hq] at hqueue
    exact hqueue.finish_idle hfresh hid hidle

/-- **The queue is empty when all tasks are completed.** -/
theorem Progress.isFinished_iff (h : Progress tasks₀ out s) (hfresh : Fresh 0 tasks₀) :
    s.isFinished = true ↔ ∀ task ∈ tasks₀, Completed out task := by
  obtain ⟨n, hqueue⟩ := h.queue
  rw [isFinished, List.isEmpty_iff]
  constructor
  · intro hnil task hmem
    obtain ⟨i, hi⟩ := List.mem_iff_getElem?.mp hmem
    refine hqueue.before i task hi ?_
    exact (List.getElem?_eq_some_iff.mp hi).1.trans_le (hqueue.done hnil)
  · intro hall
    by_contra hne
    obtain ⟨task, rest, htasks⟩ := List.exists_cons_of_ne_nil hne
    obtain ⟨task₀, hdrop, hidn, htotal, hlt, hepochs⟩ := hqueue.front task rest htasks
    have htask₀ := getElem?_of_drop hdrop
    have hid₀ := hfresh.ids n task₀ htask₀
    rw [Nat.zero_add] at hid₀
    subst hid₀
    have := (hepochs.completed_iff.mp (hall task₀ (List.mem_of_getElem? htask₀))).1
    omega

end SequentialTaskScheduler

end FlexPS.Scheduler
