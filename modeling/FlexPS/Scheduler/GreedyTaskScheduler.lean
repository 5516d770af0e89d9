import FlexPS.Scheduler.Epochs
import FlexPS.Scheduler.Placement

/-!
# The greedy task scheduler

`GreedyTaskScheduler` goes through the list of tasks and places every ready task that fits.

## Main definitions

* `GreedyTaskScheduler` and `GreedyTaskScheduler.scheduler`.
* `GreedyTaskScheduler.consider_cases`, `GreedyTaskScheduler.finish_cases` — what its steps do.
* `GreedyTaskScheduler.Inv` — the status of a task says whether it runs.
-/

namespace FlexPS.Scheduler

open Lib

/-- `GreedyTaskScheduler`. -/
structure GreedyTaskScheduler where
  tasks : List Task
  taskStatus : List TaskStatus
  placement : Placement

namespace GreedyTaskScheduler

variable (info : WorkerInfo)

/-- The constructor. -/
def start : GreedyTaskScheduler := ⟨[], [], Placement.ofCluster info⟩

/-- `init_tasks`. -/
def initTasks (s : GreedyTaskScheduler) (tasks : List Task) : Option GreedyTaskScheduler :=
  if globalGuaranteeThreads info tasks then
    some { s with tasks := tasks, taskStatus := List.replicate tasks.length .ready }
  else none

/-- `finish_thread`. -/
def finishThread (s : GreedyTaskScheduler) (instanceId tid : ℕ) : Option GreedyTaskScheduler :=
  let finished := s.placement.finishThread info instanceId tid
  if finished.2 then do
    let idx ← s.tasks.findIdx? fun task => task.id = instanceId
    let task ← s.tasks[idx]?.map Task.incEpoch
    let status := if task.currentEpoch = task.totalEpoch then .finished else .ready
    some ⟨s.tasks.set idx task, s.taskStatus.set idx status, finished.1.dropInstance instanceId⟩
  else some { s with placement := finished.1 }

/-- One round of the loop of `extract_instances`. -/
def consider (d : Draw) (s : GreedyTaskScheduler) (i : ℕ) :
    Option (GreedyTaskScheduler × List SchedEvent) := do
  let task ← s.tasks[i]?
  let status ← s.taskStatus[i]?
  if status = .ready then
    let instance_ := instanceBasicSetup task
    let (p, placed) ← s.placement.place info d instance_.id instance_
      (s.placement.getCandidateProc info instance_.id instance_)
    match placed with
    | some instance_ =>
        some ({ s with placement := p, taskStatus := s.taskStatus.set i .running },
          [.issued instance_])
    | none => some ({ s with placement := p }, [])
  else some (s, [])

/-- `extract_instances`. -/
def extractInstances (d : Draw) (s : GreedyTaskScheduler) :
    Option (GreedyTaskScheduler × List SchedEvent) :=
  run (consider info d) s (List.range s.tasks.length)

/-- `is_finished`. -/
def isFinished (s : GreedyTaskScheduler) : Bool := s.taskStatus.all (· = .finished)

/-- The scheduler. -/
def scheduler : TaskScheduler GreedyTaskScheduler where
  initTasks := initTasks info
  finishThread s instanceId tid _ := finishThread info s instanceId tid
  extractInstances := extractInstances info
  isFinished := isFinished

/-! ## What the calls do -/

variable {info} {out o : List SchedEvent} {s s' : GreedyTaskScheduler} {d : Draw} {i id tid : ℕ}

/-- A task that is not ready is passed over, and a ready one is placed if it fits. -/
theorem consider_cases (h : s.placement.Sound info out)
    (hstep : consider info d s i = some (s', o)) :
    ∃ task status, s.tasks[i]? = some task ∧ s.taskStatus[i]? = some status ∧
      ((status ≠ .ready ∧ s' = s ∧ o = []) ∨
      (status = .ready ∧ ∃ instance_ p', s.placement.Placed info out (instanceBasicSetup task)
        (s.placement.getCandidateProc info task.id (instanceBasicSetup task)) instance_ p' ∧
        s' = ⟨s.tasks, s.taskStatus.set i .running, p'⟩ ∧ o = [.issued instance_]) ∨
      (status = .ready ∧ ∃ p', s.placement.NotPlaced info out (instanceBasicSetup task)
        (s.placement.getCandidateProc info task.id (instanceBasicSetup task)) p' ∧
        s' = ⟨s.tasks, s.taskStatus, p'⟩ ∧ o = [])) := by
  obtain ⟨task, htask, hstep⟩ := Option.bind_eq_some_iff.mp hstep
  obtain ⟨status, hstatus, hstep⟩ := Option.bind_eq_some_iff.mp hstep
  refine ⟨task, status, htask, hstatus, ?_⟩
  split at hstep
  · next hready =>
      obtain ⟨⟨p', placed⟩, hplace, hstep⟩ := Option.bind_eq_some_iff.mp hstep
      have hspec := h.place (h.getCandidateProc _ _) rfl hplace
      rw [instanceBasicSetup_id] at hspec
      simp only at hstep
      cases placed with
      | some instance_ =>
          obtain ⟨rfl, rfl⟩ := Prod.mk.inj (Option.some.inj hstep)
          exact .inr (.inl ⟨hready, instance_, p', hspec, rfl, rfl⟩)
      | none =>
          obtain ⟨rfl, rfl⟩ := Prod.mk.inj (Option.some.inj hstep)
          exact .inr (.inr ⟨hready, p', hspec, rfl, rfl⟩)
  · next hready =>
      obtain ⟨rfl, rfl⟩ := Prod.mk.inj (Option.some.inj hstep)
      exact .inl ⟨hready, rfl, rfl⟩

/-- A thread is taken back; after the last one the task is ready again, or finished. -/
theorem finish_cases (h : s.placement.Sound info out) (hid : id ∈ holders out tid)
    (hstep : finishThread info s id tid = some s') :
    (Busy (out ++ [.finished id tid]) id ∧
      s' = ⟨s.tasks, s.taskStatus, (s.placement.finishThread info id tid).1⟩) ∨
    (¬ Busy (out ++ [.finished id tid]) id ∧ ∃ idx task,
      s.tasks.findIdx? (fun task => task.id = id) = some idx ∧ s.tasks[idx]? = some task ∧
      s' = ⟨s.tasks.set idx task.incEpoch, s.taskStatus.set idx
        (if task.incEpoch.currentEpoch = task.incEpoch.totalEpoch then .finished else .ready),
        (s.placement.finishThread info id tid).1.dropInstance id⟩) := by
  have hdone := (h.finish hid).2
  unfold finishThread at hstep
  simp only at hstep
  split at hstep
  · next hflag =>
      obtain ⟨idx, hidx, hstep⟩ := Option.bind_eq_some_iff.mp hstep
      obtain ⟨task', htask', hstep⟩ := Option.bind_eq_some_iff.mp hstep
      obtain ⟨task, htask, rfl⟩ := Option.map_eq_some_iff.mp htask'
      obtain rfl := Option.some.inj hstep
      exact .inr ⟨hdone.mp hflag, idx, task, hidx, htask, rfl⟩
  · next hflag =>
      obtain rfl := Option.some.inj hstep
      exact .inl ⟨not_not.mp fun hidle => hflag (hdone.mpr hidle), rfl⟩

theorem init_cases {tasks : List Task} (hstep : initTasks info s tasks = some s') :
    globalGuaranteeThreads info tasks = true ∧
      s' = ⟨tasks, List.replicate tasks.length .ready, s.placement⟩ := by
  unfold initTasks at hstep
  split at hstep
  · next hok => exact ⟨hok, (Option.some.inj hstep).symm⟩
  · cases hstep

/-! ## Whatever the tasks are, threads are not lost -/

theorem placement_consider (h : s.placement.Inv info out)
    (hstep : consider info d s i = some (s', o)) : s'.placement.Inv info (out ++ o) := by
  obtain ⟨task, status, -, -, ⟨-, rfl, rfl⟩ | ⟨-, instance_, p', hplaced, rfl, rfl⟩ |
    ⟨-, p', hnot, rfl, rfl⟩⟩ := consider_cases h.sound hstep
  · rwa [List.append_nil]
  · exact hplaced.inv h
  · rw [List.append_nil]
    exact hnot.inv h

theorem placement_extract (h : s.placement.Inv info out)
    (hstep : extractInstances info d s = some (s', o)) : s'.placement.Inv info (out ++ o) :=
  run_along (I := fun out s => s.placement.Inv info out)
    (fun hs _ hstep => placement_consider hs hstep) h
    (along_of_forall (P := fun _ => True) (fun _ _ => trivial) out s) hstep

theorem placement_finish (h : s.placement.Inv info out) (hid : id ∈ holders out tid)
    (hstep : finishThread info s id tid = some s') :
    s'.placement.Inv info (out ++ [.finished id tid]) := by
  rcases finish_cases h.sound hid hstep with ⟨-, rfl⟩ | ⟨hidle, idx, task, -, -, rfl⟩
  · exact h.finish hid
  · exact (h.finish hid).dropInstance hidle

theorem placement_init (h : s.placement.Inv info out) {tasks : List Task}
    (hstep : initTasks info s tasks = some s') :
    s'.placement.Inv info (out ++ [.submitted tasks]) := by
  obtain ⟨-, rfl⟩ := init_cases hstep
  exact h.snoc_of_none rfl

/-! ## The status says who runs -/

/-- The ids of the tasks are different, and a task is marked as running when it runs. -/
structure Inv (info : WorkerInfo) (out : List SchedEvent) (s : GreedyTaskScheduler) : Prop where
  placement : s.placement.Inv info out
  length : s.taskStatus.length = s.tasks.length
  nodup : (s.tasks.map Task.id).Nodup
  status : ∀ (i : ℕ) (task : Task), s.tasks[i]? = some task →
    (s.taskStatus[i]? = some TaskStatus.running ↔ Busy out task.id)
  known : ∀ id, Busy out id → ∃ task ∈ s.tasks, task.id = id

theorem inv_start (info : WorkerInfo) : Inv info [] (start info) where
  placement := Placement.inv_ofCluster info
  length := rfl
  nodup := List.nodup_nil
  status _ _ htask := nomatch htask
  known id hbusy := absurd hbusy (not_busy_nil id)

/-- A task is known by its id. -/
theorem index_eq {tasks : List Task} (hnodup : (tasks.map Task.id).Nodup) {i j : ℕ} {t t' : Task}
    (hi : tasks[i]? = some t) (hj : tasks[j]? = some t') (hid : t.id = t'.id) : i = j := by
  have hlt : i < (tasks.map Task.id).length := by
    rw [List.length_map]
    exact (List.getElem?_eq_some_iff.mp hi).1
  apply (List.getElem?_inj hlt hnodup).mp
  rw [List.getElem?_map, List.getElem?_map, hi, hj, Option.map_some, Option.map_some, hid]

/-- A ready task does not run. -/
theorem Inv.ready (h : Inv info out s) {task : Task} (htask : s.tasks[i]? = some task)
    (hready : s.taskStatus[i]? = some TaskStatus.ready) : ¬ Busy out task.id := by
  intro hbusy
  rw [(h.status i task htask).mpr hbusy] at hready
  cases hready

theorem Inv.consider (h : Inv info out s) (hstep : consider info d s i = some (s', o)) :
    Inv info (out ++ o) s' := by
  have hplacement := placement_consider h.placement hstep
  obtain ⟨task, status, htask, hstatus, ⟨-, rfl, rfl⟩ | ⟨rfl, instance_, p', hplaced, rfl, rfl⟩ |
    ⟨-, p', -, rfl, rfl⟩⟩ := consider_cases h.placement.sound hstep
  · rwa [List.append_nil]
  · have hid : instance_.id = task.id := by
      rw [Instance.id, hplaced.task_eq, instanceBasicSetup_id]
    have hbusy : ∀ id, Busy (out ++ [.issued instance_]) id ↔ id = task.id ∨ Busy out id := by
      intro id
      rw [busy_issued hplaced.ne_nil, hid]
    refine ⟨hplacement, (List.length_set ..).trans h.length, h.nodup, fun j task' htask' => ?_,
      fun id hrun => ?_⟩
    · rw [hbusy]
      by_cases hij : i = j
      · subst hij
        obtain rfl := Option.some.inj (htask.symm.trans htask')
        rw [List.getElem?_set_self (List.getElem?_eq_some_iff.mp hstatus).1]
        exact iff_of_true rfl (.inl rfl)
      · rw [List.getElem?_set_ne hij, h.status j task' htask']
        exact (or_iff_right fun heq => hij (index_eq h.nodup htask htask' heq.symm)).symm
    · rcases (hbusy id).mp hrun with rfl | hrun
      · exact ⟨task, List.mem_of_getElem? htask, rfl⟩
      · exact h.known id hrun
  · rw [List.append_nil] at hplacement ⊢
    exact ⟨hplacement, h.length, h.nodup, h.status, h.known⟩

theorem Inv.extract (h : Inv info out s) (hstep : extractInstances info d s = some (s', o)) :
    Inv info (out ++ o) s' :=
  run_along (I := Inv info) (fun hs _ hstep => hs.consider hstep) h
    (along_of_forall (P := fun _ => True) (fun _ _ => trivial) out s) hstep

/-- The task of an instance that runs is found. -/
theorem Inv.find (h : Inv info out s) (hbusy : Busy out id) :
    ∃ idx task, s.tasks.findIdx? (fun task => task.id = id) = some idx ∧
      s.tasks[idx]? = some task ∧ task.id = id := by
  obtain ⟨task, hmem, hid⟩ := h.known id hbusy
  have hsome : (s.tasks.findIdx? fun task => task.id = id).isSome := by
    rw [List.findIdx?_isSome, List.any_eq_true]
    exact ⟨task, hmem, decide_eq_true hid⟩
  obtain ⟨idx, hidx⟩ := Option.isSome_iff_exists.mp hsome
  obtain ⟨hlt, hfound, -⟩ := List.findIdx?_eq_some_iff_getElem.mp hidx
  exact ⟨idx, _, hidx, List.getElem?_eq_getElem hlt, of_decide_eq_true hfound⟩

theorem Inv.finish (h : Inv info out s) (hid : id ∈ holders out tid)
    (hstep : finishThread info s id tid = some s') :
    Inv info (out ++ [.finished id tid]) s' := by
  have hplacement := placement_finish h.placement hid hstep
  have hknown : ∀ id', Busy (out ++ [.finished id tid]) id' → Busy out id' := by
    intro id' hrun
    by_cases heq : id' = id
    · exact ⟨tid, heq ▸ hid⟩
    · exact (busy_finished_of_ne heq).mp hrun
  rcases finish_cases h.placement.sound hid hstep with
    ⟨hrun, rfl⟩ | ⟨hidle, idx, task, hidx, htask, rfl⟩
  · refine ⟨hplacement, h.length, h.nodup, fun i task htask => ?_, fun id' hrun' =>
      h.known id' (hknown id' hrun')⟩
    rw [h.status i task htask]
    by_cases heq : task.id = id
    · rw [heq]
      exact iff_of_true ⟨tid, hid⟩ hrun
    · exact (busy_finished_of_ne heq).symm
  · obtain ⟨idx', task', hidx', htask', hfound⟩ := h.find ⟨tid, hid⟩
    obtain rfl := Option.some.inj (hidx.symm.trans hidx')
    obtain rfl := Option.some.inj (htask.symm.trans htask')
    have hlt := (List.getElem?_eq_some_iff.mp htask).1
    have hids : (s.tasks.set idx task.incEpoch).map Task.id = s.tasks.map Task.id := by
      rw [List.map_set, Task.incEpoch_id]
      refine List.ext_getElem? fun j => ?_
      by_cases hij : idx = j
      · subst hij
        rw [List.getElem?_set_self (by rwa [List.length_map]), List.getElem?_map, htask]
        rfl
      · rw [List.getElem?_set_ne hij]
    refine ⟨hplacement, ?_, ?_, fun j task' htask' => ?_, fun id' hrun => ?_⟩
    · rw [List.length_set, List.length_set, h.length]
    · rw [hids]
      exact h.nodup
    · by_cases hij : idx = j
      · subst hij
        rw [List.getElem?_set_self hlt] at htask'
        obtain rfl := Option.some.inj htask'
        rw [List.getElem?_set_self (h.length.symm ▸ hlt), Task.incEpoch_id, hfound]
        refine iff_of_false (fun heq => ?_) hidle
        split at heq
        · cases heq
        · cases heq
      · rw [List.getElem?_set_ne hij] at htask' ⊢
        rw [h.status j task' htask']
        refine (busy_finished_of_ne fun heq => ?_).symm
        exact hij (index_eq h.nodup htask htask' (hfound.trans heq.symm))
    · obtain ⟨task', hmem, hid'⟩ := h.known id' (hknown id' hrun)
      have hmem' : id' ∈ (s.tasks.set idx task.incEpoch).map Task.id := by
        rw [hids]
        exact List.mem_map.mpr ⟨task', hmem, hid'⟩
      exact List.mem_map.mp hmem'

/-- New tasks are given to a scheduler that has nothing running. -/
theorem Inv.init (h : Inv info out s) {tasks : List Task} (hidle : ∀ id, ¬ Busy out id)
    (hnodup : (tasks.map Task.id).Nodup) (hstep : initTasks info s tasks = some s') :
    Inv info (out ++ [.submitted tasks]) s' := by
  have hplacement := placement_init h.placement hstep
  obtain ⟨-, rfl⟩ := init_cases hstep
  have hbusy : ∀ id, ¬ Busy (out ++ [.submitted tasks]) id :=
    fun id hrun => hidle id ((busy_snoc_of_none rfl id).mp hrun)
  refine ⟨hplacement, List.length_replicate .., hnodup, fun i task htask => ?_,
    fun id hrun => absurd hrun (hbusy id)⟩
  refine iff_of_false (fun heq => ?_) (hbusy _)
  rw [List.getElem?_replicate] at heq
  split at heq
  · cases heq
  · cases heq

/-! ## The epochs -/

/-- The scheduler counts the epochs of the tasks that have been submitted. -/
def Counts (tasks₀ : List Task) (out : List SchedEvent) (s : GreedyTaskScheduler) : Prop :=
  EpochsAt tasks₀ out s.tasks s.taskStatus

variable {tasks₀ : List Task}

theorem counts_init (hfresh : Fresh 0 tasks₀) (hstep : initTasks info (start info) tasks₀ = some s) :
    Counts tasks₀ [] s := by
  obtain ⟨-, rfl⟩ := init_cases hstep
  exact hfresh.epochsAt

theorem Counts.consider (h : Counts tasks₀ out s) (hinv : Inv info out s)
    (hstep : consider info d s i = some (s', o)) : Counts tasks₀ (out ++ o) s' := by
  obtain ⟨task, status, htask, hstatus, ⟨-, rfl, rfl⟩ | ⟨rfl, instance_, p', hplaced, rfl, rfl⟩ |
    ⟨-, p', -, rfl, rfl⟩⟩ := consider_cases hinv.placement.sound hstep
  · rwa [List.append_nil]
  · obtain ⟨task₀, -, -, hidi, -⟩ := h.task i task htask
    have hidle : ¬ Busy out i := hidi ▸ hinv.ready htask hstatus
    have hid : instance_.id = task.id := by
      rw [Instance.id, hplaced.task_eq, instanceBasicSetup_id]
    have hepoch : instance_.epoch = task.currentEpoch := by
      rw [Instance.epoch, hplaced.task_eq, instanceBasicSetup_currentEpoch]
    refine (EpochsAt.issue h htask hidle (hstatus ▸ nofun) hid hepoch hplaced.ne_nil).congr
      (List.length_set ..) fun j => ?_
    by_cases hij : i = j
    · subst hij
      rw [List.getElem?_set_self (List.getElem?_eq_some_iff.mp hstatus).1, hstatus]
      exact iff_of_false nofun nofun
    · rw [List.getElem?_set_ne hij]
  · rwa [List.append_nil]

theorem Counts.extract (h : Counts tasks₀ out s) (hinv : Inv info out s)
    (hstep : extractInstances info d s = some (s', o)) : Counts tasks₀ (out ++ o) s' := by
  refine (run_along (I := fun out s => Inv info out s ∧ Counts tasks₀ out s) ?_ ⟨hinv, h⟩
    (along_of_forall (P := fun _ => True) (fun _ _ => trivial) out s) hstep).2
  exact fun hs _ hstep => ⟨hs.1.consider hstep, hs.2.consider hs.1 hstep⟩

theorem Counts.finish (h : Counts tasks₀ out s) (hinv : Inv info out s) (hid : id ∈ holders out tid)
    (hstep : finishThread info s id tid = some s') :
    Counts tasks₀ (out ++ [.finished id tid]) s' := by
  rcases finish_cases hinv.placement.sound hid hstep with
    ⟨hrun, rfl⟩ | ⟨hidle, idx, task, hidx, htask, rfl⟩
  · exact EpochsAt.finish_busy h hid hrun
  · obtain ⟨hlt, hfound, -⟩ := List.findIdx?_eq_some_iff_getElem.mp hidx
    obtain ⟨task₀, -, -, hidi, -⟩ := h.task idx task htask
    have hid' : task.id = id := by
      rw [List.getElem?_eq_getElem hlt] at htask
      obtain rfl := Option.some.inj htask
      exact of_decide_eq_true hfound
    obtain rfl : idx = id := hidi.symm.trans hid'
    refine EpochsAt.finish_idle h htask hid ?_ hidle
    have hrunning := (hinv.status idx task htask).mpr (hid'.symm ▸ ⟨tid, hid⟩)
    rw [hrunning]
    nofun

/-- **All tasks are marked as finished when they are completed.** -/
theorem Counts.isFinished_iff (h : Counts tasks₀ out s) (hinv : Inv info out s) :
    s.isFinished = true ↔ ∀ task ∈ tasks₀, Completed out task := by
  refine EpochsAt.all_finished_iff h fun i hfinished hbusy => ?_
  have hlt : i < s.tasks.length := by
    rw [← hinv.length]
    exact (List.getElem?_eq_some_iff.mp hfinished).1
  obtain ⟨task, htask⟩ : ∃ task, s.tasks[i]? = some task := ⟨_, List.getElem?_eq_getElem hlt⟩
  obtain ⟨task₀, -, -, hidi, -⟩ := h.task i task htask
  rw [(hinv.status i task htask).mpr (hidi.symm ▸ hbusy)] at hfinished
  cases hfinished

end GreedyTaskScheduler

end FlexPS.Scheduler
