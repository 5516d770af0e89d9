import FlexPS.Scheduler.Placement
import FlexPS.Scheduler.TaskManager

/-!
# The priority task scheduler

`PriorityTaskScheduler` first places the angry tasks, and locks the processes of those that it
cannot place; then it places the ready tasks in the order of their priorities, on processes that
are not locked.

## Main definitions

* `PriorityTaskScheduler` and `PriorityTaskScheduler.scheduler`.
* `PriorityTaskScheduler.considerAngry`, `PriorityTaskScheduler.considerReady` — a round of each of
  its loops.
* `PriorityTaskScheduler.Inv` — the task manager knows which tasks run.
-/

namespace FlexPS.Scheduler

open Lib

/-- `PriorityTaskScheduler`. -/
structure PriorityTaskScheduler where
  taskManager : TaskManager
  placement : Placement

namespace PriorityTaskScheduler

variable (info : WorkerInfo)

/-- The constructor. -/
def start : PriorityTaskScheduler := ⟨TaskManager.empty, Placement.ofCluster info⟩

/-- `init_tasks`. -/
def initTasks (s : PriorityTaskScheduler) (tasks : List Task) : PriorityTaskScheduler :=
  { s with taskManager := s.taskManager.addTasks tasks }

/-- `finish_thread`. -/
def finishThread (s : PriorityTaskScheduler) (instanceId tid : ℕ) : Option PriorityTaskScheduler :=
  let finished := s.placement.finishThread info instanceId tid
  (s.taskManager.finishThread instanceId finished.2).map fun m => ⟨m, finished.1⟩

/-- What the loop over the angry tasks keeps: `process_lock` and `success_tasks`. -/
structure AngryLoop where
  placement : Placement
  processLock : List ℕ
  successTasks : List ℕ

/-- One round of the loop over the angry tasks. -/
def considerAngry (d : Draw) (m : TaskManager) (l : AngryLoop) (id : ℕ) :
    Option (AngryLoop × List SchedEvent) := do
  let task ← m.tasks[id]?
  let instance_ := instanceBasicSetup task
  let procIds := l.placement.getCandidateProc info id instance_
  let candidatePids := procIds.filter (· ∉ l.processLock)
  let (p, placed) ← l.placement.place info d id instance_ candidatePids
  match placed with
  | some instance_ =>
      some ({ l with placement := p, successTasks := l.successTasks ++ [id] }, [.issued instance_])
  | none =>
      some ({ l with placement := p, processLock := l.processLock ++ procIds },
        [.rejected id procIds])

/-- One round of the loop over the ready tasks. -/
def considerReady (d : Draw) (processLock : List ℕ) (s : PriorityTaskScheduler) (id : ℕ) :
    Option (PriorityTaskScheduler × List SchedEvent) := do
  let task ← s.taskManager.tasks[id]?
  let instance_ := instanceBasicSetup task
  let procIds := s.placement.getPreferredProc id
  let candidatePids := procIds.filter (· ∉ processLock)
  let (p, placed) ← s.placement.place info d id instance_ candidatePids
  match placed with
  | some instance_ => do
      let m ← s.taskManager.sucSched id
      some (⟨m, p⟩, [.issued instance_])
  | none => do
      let m ← s.taskManager.failSched id
      some (⟨m, p⟩, [])

/-- `extract_instances`. -/
def extractInstances (d : Draw) (s : PriorityTaskScheduler) :
    Option (PriorityTaskScheduler × List SchedEvent) := do
  let (l, angry) ← run (considerAngry info d s.taskManager) ⟨s.placement, [], []⟩
    s.taskManager.angryList
  let m ← l.successTasks.foldlM TaskManager.sucSched s.taskManager
  let (m, orderedTask) ← m.orderByPriority d
  let (s', ready) ← run (considerReady info d l.processLock) ⟨m, l.placement⟩ orderedTask
  some (s', angry ++ ready)

/-- `is_finished`. -/
def isFinished (s : PriorityTaskScheduler) : Bool := s.taskManager.isFinished

/-- The scheduler. -/
def scheduler : TaskScheduler PriorityTaskScheduler where
  initTasks s tasks := some (initTasks s tasks)
  finishThread s instanceId tid _ := finishThread info s instanceId tid
  extractInstances := extractInstances info
  isFinished := isFinished

/-! ## What the calls do -/

variable {info} {out o : List SchedEvent} {s s' : PriorityTaskScheduler} {l l' : AngryLoop}
  {m : TaskManager} {d : Draw} {id tid : ℕ} {lock : List ℕ}

/-- An angry task is placed outside the locked processes, or locks the processes it asks for. -/
theorem considerAngry_cases (h : l.placement.Sound info out)
    (hids : ∀ (i : ℕ) (task : Task), m.tasks[i]? = some task → task.id = i)
    (hstep : considerAngry info d m l id = some (l', o)) :
    ∃ task p', m.tasks[id]? = some task ∧
      ((∃ instance_, l.placement.Placed info out (instanceBasicSetup task)
        ((l.placement.getCandidateProc info id (instanceBasicSetup task)).filter
          (· ∉ l.processLock)) instance_ p' ∧
        l' = ⟨p', l.processLock, l.successTasks ++ [id]⟩ ∧ o = [.issued instance_]) ∨
      (l.placement.NotPlaced info out (instanceBasicSetup task)
        ((l.placement.getCandidateProc info id (instanceBasicSetup task)).filter
          (· ∉ l.processLock)) p' ∧
        l' = ⟨p', l.processLock ++ l.placement.getCandidateProc info id (instanceBasicSetup task),
          l.successTasks⟩ ∧
        o = [.rejected id (l.placement.getCandidateProc info id (instanceBasicSetup task))])) := by
  obtain ⟨task, htask, hstep⟩ := Option.bind_eq_some_iff.mp hstep
  obtain ⟨⟨p', placed⟩, hplace, hstep⟩ := Option.bind_eq_some_iff.mp hstep
  have hid : (instanceBasicSetup task).id = id := by rw [instanceBasicSetup_id, hids id task htask]
  have hspec := h.place ((h.getCandidateProc id (instanceBasicSetup task)).filter _) hid hplace
  refine ⟨task, p', htask, ?_⟩
  simp only at hstep
  cases placed with
  | some instance_ =>
      obtain ⟨rfl, rfl⟩ := Prod.mk.inj (Option.some.inj hstep)
      exact .inl ⟨instance_, hspec, rfl, rfl⟩
  | none =>
      obtain ⟨rfl, rfl⟩ := Prod.mk.inj (Option.some.inj hstep)
      exact .inr ⟨hspec, rfl, rfl⟩

/-- A ready task is placed on the processes it has visited least and that are not locked. -/
theorem considerReady_cases (h : s.placement.Sound info out)
    (hids : ∀ (i : ℕ) (task : Task), s.taskManager.tasks[i]? = some task → task.id = i)
    (hstep : considerReady info d lock s id = some (s', o)) :
    ∃ task p' m', s.taskManager.tasks[id]? = some task ∧ s' = ⟨m', p'⟩ ∧
      ((∃ instance_, s.placement.Placed info out (instanceBasicSetup task)
        ((s.placement.getPreferredProc id).filter (· ∉ lock)) instance_ p' ∧
        s.taskManager.sucSched id = some m' ∧ o = [.issued instance_]) ∨
      (s.placement.NotPlaced info out (instanceBasicSetup task)
        ((s.placement.getPreferredProc id).filter (· ∉ lock)) p' ∧
        s.taskManager.failSched id = some m' ∧ o = [])) := by
  obtain ⟨task, htask, hstep⟩ := Option.bind_eq_some_iff.mp hstep
  obtain ⟨⟨p', placed⟩, hplace, hstep⟩ := Option.bind_eq_some_iff.mp hstep
  have hid : (instanceBasicSetup task).id = id := by rw [instanceBasicSetup_id, hids id task htask]
  have hspec := h.place ((h.candidates id).filter _) hid hplace
  simp only at hstep
  cases placed with
  | some instance_ =>
      obtain ⟨m', hm, hstep⟩ := Option.bind_eq_some_iff.mp hstep
      obtain ⟨rfl, rfl⟩ := Prod.mk.inj (Option.some.inj hstep)
      exact ⟨task, p', m', htask, rfl, .inl ⟨instance_, hspec, hm, rfl⟩⟩
  | none =>
      obtain ⟨m', hm, hstep⟩ := Option.bind_eq_some_iff.mp hstep
      obtain ⟨rfl, rfl⟩ := Prod.mk.inj (Option.some.inj hstep)
      exact ⟨task, p', m', htask, rfl, .inr ⟨hspec, hm, rfl⟩⟩

/-- A call is a loop over the angry tasks and a loop over the ready ones. -/
theorem extract_cases (hstep : extractInstances info d s = some (s', o)) :
    ∃ l angry m m' ordered ready,
      run (considerAngry info d s.taskManager) ⟨s.placement, [], []⟩ s.taskManager.angryList =
        some (l, angry) ∧
      l.successTasks.foldlM TaskManager.sucSched s.taskManager = some m ∧
      m.orderByPriority d = some (m', ordered) ∧
      run (considerReady info d l.processLock) ⟨m', l.placement⟩ ordered = some (s', ready) ∧
      o = angry ++ ready := by
  obtain ⟨⟨l, angry⟩, hangry, hstep⟩ := Option.bind_eq_some_iff.mp hstep
  obtain ⟨m, hm, hstep⟩ := Option.bind_eq_some_iff.mp hstep
  obtain ⟨⟨m', ordered⟩, hordered, hstep⟩ := Option.bind_eq_some_iff.mp hstep
  obtain ⟨⟨s₁, ready⟩, hready, hstep⟩ := Option.bind_eq_some_iff.mp hstep
  obtain ⟨rfl, rfl⟩ := Prod.mk.inj (Option.some.inj hstep)
  exact ⟨l, angry, m, m', ordered, ready, hangry, hm, hordered, hready, rfl⟩

/-- A thread is taken back. -/
theorem finish_cases (h : s.placement.Sound info out) (hid : id ∈ holders out tid)
    (hstep : finishThread info s id tid = some s') :
    (Busy (out ++ [.finished id tid]) id ∧
      s' = ⟨s.taskManager, (s.placement.finishThread info id tid).1⟩) ∨
    (¬ Busy (out ++ [.finished id tid]) id ∧ ∃ m', s.taskManager.finishThread id true = some m' ∧
      s' = ⟨m', (s.placement.finishThread info id tid).1⟩) := by
  have hdone := (h.finish hid).2
  obtain ⟨m', hm, rfl⟩ := Option.map_eq_some_iff.mp hstep
  cases hflag : (s.placement.finishThread info id tid).2 with
  | true =>
      rw [hflag] at hm
      exact .inr ⟨hdone.mp hflag, m', hm, rfl⟩
  | false =>
      rw [hflag] at hm
      obtain rfl := Option.some.inj hm
      refine .inl ⟨not_not.mp fun hidle => ?_, rfl⟩
      rw [hdone.mpr hidle] at hflag
      cases hflag

/-! ## The task manager knows which tasks run -/

/-- The task manager is in order and knows which tasks run; if the tasks `tasks₀` that have been
submitted were new, it counts their epochs. -/
structure Inv (info : WorkerInfo) (tasks₀ : List Task) (out : List SchedEvent)
    (s : PriorityTaskScheduler) : Prop where
  placement : s.placement.Inv info out
  manager : s.taskManager.Inv (Busy out)
  epochs : New tasks₀ → EpochsAt tasks₀ out s.taskManager.tasks s.taskManager.taskStatus
  length : tasks₀.length = s.taskManager.tasks.length

variable {tasks₀ tasks : List Task}

theorem inv_start (info : WorkerInfo) : Inv info [] [] (start info) where
  placement := Placement.inv_ofCluster info
  manager := TaskManager.inv_empty not_busy_nil
  epochs _ := Fresh.epochsAt ⟨fun _ _ htask => (nomatch htask), fun _ htask => nomatch htask⟩
  length := rfl

/-- More tasks, which are indexed by their ids. -/
theorem Inv.init (h : Inv info tasks₀ out s) (hids : Indexed tasks₀.length tasks) :
    Inv info (tasks₀ ++ tasks) (out ++ [.submitted tasks]) (initTasks s tasks) := by
  have hbusy : ∀ id, Busy (out ++ [.submitted tasks]) id ↔ Busy out id :=
    fun id => busy_snoc_of_none rfl id
  rw [h.length] at hids
  refine ⟨h.placement.snoc_of_none rfl, (h.manager.addTasks hids).congr hbusy, fun hnew => ?_, ?_⟩
  · obtain ⟨hold, hnew⟩ := new_append.mp hnew
    have hepochs := (h.epochs hold).append ⟨hids, hnew⟩ fun id => h.manager.lt_of_busy
    have hready : s.taskManager.taskStatus ++ List.replicate
        ((s.taskManager.tasks ++ tasks).length - s.taskManager.taskStatus.length) .ready =
        s.taskManager.taskStatus ++ List.replicate tasks.length TaskStatus.ready := by
      rw [List.length_append, h.manager.status_length, Nat.add_sub_cancel_left]
    simp only [initTasks, TaskManager.addTasks, hready]
    exact hepochs.snoc_of_none rfl
  · rw [List.length_append, h.length]
    exact (List.length_append ..).symm

/-- What holds after some rounds of the loop over the angry tasks. -/
structure AngryInv (info : WorkerInfo) (tasks₀ : List Task) (m : TaskManager)
    (before : List SchedEvent) (done : List ℕ) (out : List SchedEvent) (l : AngryLoop) : Prop where
  placement : l.placement.Inv info out
  busy : ∀ i, Busy out i ↔ i ∈ l.successTasks ∨ Busy before i
  success : ∀ i ∈ l.successTasks, i ∈ done
  epochs : New tasks₀ → EpochsAt tasks₀ out m.tasks m.taskStatus

/-- The next angry task does not run. -/
theorem AngryInv.idle {before : List SchedEvent} {done rest : List ℕ}
    (hm : m.Inv (Busy before)) (hlist : m.angryList = done ++ id :: rest)
    (h : AngryInv info tasks₀ m before done out l) : ¬ Busy out id := by
  rw [h.busy]
  rintro (hid | hrun)
  · have hnodup := hm.angry_nodup
    rw [hlist] at hnodup
    exact (List.nodup_append.mp hnodup).2.2 id (h.success id hid) id (List.mem_cons_self ..) rfl
  · have hangry : m.taskStatus[id]? = some TaskStatus.angry := by
      refine (hm.angry id).mpr ?_
      rw [hlist]
      exact List.mem_append_right _ (List.mem_cons_self ..)
    rw [(hm.running id).mpr hrun] at hangry
    cases hangry

theorem AngryInv.step {before : List SchedEvent} {done rest : List ℕ}
    (hm : m.Inv (Busy before)) (hlist : m.angryList = done ++ id :: rest)
    (h : AngryInv info tasks₀ m before done out l)
    (hstep : considerAngry info d m l id = some (l', o)) :
    AngryInv info tasks₀ m before (done ++ [id]) (out ++ o) l' := by
  have hangry : m.taskStatus[id]? = some TaskStatus.angry := by
    refine (hm.angry id).mpr ?_
    rw [hlist]
    exact List.mem_append_right _ (List.mem_cons_self ..)
  have hidle := h.idle hm hlist
  obtain ⟨task, p', htask, ⟨instance_, hplaced, rfl, rfl⟩ | ⟨hnot, rfl, rfl⟩⟩ :=
    considerAngry_cases h.placement.sound hm.ids hstep
  · have hid : instance_.id = task.id := by
      rw [Instance.id, hplaced.task_eq, instanceBasicSetup_id]
    have hepoch : instance_.epoch = task.currentEpoch := by
      rw [Instance.epoch, hplaced.task_eq, instanceBasicSetup_currentEpoch]
    refine ⟨hplaced.inv h.placement, fun i => ?_, fun i hi => ?_, fun hnew => ?_⟩
    · rw [busy_issued hplaced.ne_nil, h.busy, hid, hm.ids id task htask, List.mem_append,
        List.mem_singleton]
      tauto
    · rcases List.mem_append.mp hi with hi | hi
      · exact List.mem_append_left _ (h.success i hi)
      · exact List.mem_append_right _ hi
    · refine (h.epochs hnew).issue htask hidle ?_ hid hepoch hplaced.ne_nil
      rw [hangry]
      nofun
  · refine ⟨(hnot.inv h.placement).snoc_of_none rfl, fun i => ?_, fun i hi => ?_, fun hnew => ?_⟩
    · rw [busy_snoc_of_none rfl, h.busy]
    · exact List.mem_append_left _ (h.success i hi)
    · exact (h.epochs hnew).snoc_of_none rfl

/-- After the loop over the angry tasks, those that have been placed are marked as running. -/
theorem Inv.sucScheds (h : Inv info tasks₀ out s) {angry : List SchedEvent}
    (hangry : AngryInv info tasks₀ s.taskManager out s.taskManager.angryList (out ++ angry) l)
    (hm : l.successTasks.foldlM TaskManager.sucSched s.taskManager = some m) :
    Inv info tasks₀ (out ++ angry) ⟨m, l.placement⟩ := by
  obtain ⟨hmanager, htasks, hstatus⟩ := h.manager.sucScheds hm
  refine ⟨hangry.placement, hmanager.congr hangry.busy, fun hnew => ?_, ?_⟩
  · simp only [htasks]
    refine (hangry.epochs hnew).congr ?_ fun i => ?_
    · rw [hmanager.status_length, htasks, h.manager.status_length]
    · rw [hstatus]
      split
      · next hi =>
          rw [(h.manager.angry i).mpr (hangry.success i hi)]
          exact iff_of_false nofun nofun
      · rfl
  · rw [htasks]
    exact h.length

/-- One round of the loop over the ready tasks. -/
theorem Inv.considerReady (h : Inv info tasks₀ out s)
    (hready : s.taskManager.taskStatus[id]? = some TaskStatus.ready)
    (hstep : considerReady info d lock s id = some (s', o)) :
    Inv info tasks₀ (out ++ o) s' ∧
      ∀ i, i ≠ id → s'.taskManager.taskStatus[i]? = s.taskManager.taskStatus[i]? := by
  have hidle : ¬ Busy out id := by
    rw [← h.manager.running, hready]
    nofun
  have hlt : id < s.taskManager.tasks.length := by
    rw [← h.manager.status_length]
    exact (List.getElem?_eq_some_iff.mp hready).1
  obtain ⟨task, p', m', htask, rfl, ⟨instance_, hplaced, hm, rfl⟩ | ⟨hnot, hm, rfl⟩⟩ :=
    considerReady_cases h.placement.sound h.manager.ids hstep
  · have hid : instance_.id = task.id := by
      rw [Instance.id, hplaced.task_eq, instanceBasicSetup_id]
    have hepoch : instance_.epoch = task.currentEpoch := by
      rw [Instance.epoch, hplaced.task_eq, instanceBasicSetup_currentEpoch]
    obtain ⟨hmanager, htasks, hstatus⟩ := h.manager.sucSched hm
    refine ⟨⟨hplaced.inv h.placement, hmanager.congr fun i => ?_, fun hnew => ?_, ?_⟩, fun i hi => ?_⟩
    · rw [busy_issued hplaced.ne_nil, hid, h.manager.ids id task htask]
    · simp only [htasks, hstatus]
      refine ((h.epochs hnew).issue htask hidle (hready ▸ nofun) hid hepoch hplaced.ne_nil).congr
        (List.length_set ..) fun i => ?_
      rw [h.manager.status_set hlt]
      split
      · next heq =>
          rw [heq, hready]
          exact iff_of_false nofun nofun
      · rfl
    · rw [htasks]
      exact h.length
    · rw [hstatus]
      exact List.getElem?_set_ne (Ne.symm hi)
  · obtain ⟨hmanager, htasks, hstatus⟩ := h.manager.failSched hready hm
    have hother : ∀ i, i ≠ id → m'.taskStatus[i]? = s.taskManager.taskStatus[i]? := by
      intro i hi
      rcases hstatus with hstatus | hstatus
      · rw [hstatus]
      · rw [hstatus]
        exact List.getElem?_set_ne (Ne.symm hi)
    rw [List.append_nil]
    refine ⟨⟨hnot.inv h.placement, hmanager, fun hnew => ?_, ?_⟩, hother⟩
    · simp only [htasks]
      refine (h.epochs hnew).congr ?_ fun i => ?_
      · rw [hmanager.status_length, htasks, h.manager.status_length]
      · by_cases hi : i = id
        · subst hi
          rw [hready]
          refine iff_of_false ?_ nofun
          rcases hstatus with hstatus | hstatus
          · rw [hstatus, hready]
            nofun
          · rw [hstatus, h.manager.status_set hlt, if_pos rfl]
            nofun
        · rw [hother i hi]
    · rw [htasks]
      exact h.length

/-- The tasks stay as they are. -/
theorem Inv.considerReady_tasks (h : Inv info tasks₀ out s)
    (hready : s.taskManager.taskStatus[id]? = some TaskStatus.ready)
    (hstep : PriorityTaskScheduler.considerReady info d lock s id = some (s', o)) :
    s'.taskManager.tasks = s.taskManager.tasks := by
  obtain ⟨task, p', m', -, rfl, ⟨instance_, -, hm, -⟩ | ⟨-, hm, -⟩⟩ :=
    considerReady_cases h.placement.sound h.manager.ids hstep
  · exact (h.manager.sucSched hm).2.1
  · exact (h.manager.failSched hready hm).2.1

/-- **The invariant rule for `extract_instances`**: what the rounds of both loops keep, as far as
only placements are concerned; the tasks stay as they are. -/
theorem Inv.extract_invariant {J : List SchedEvent → Placement → Prop}
    (h : Inv info tasks₀ out s) (hJ : J out s.placement)
    (hangry : ∀ {out l l' o id}, J out l.placement → l.placement.Sound info out → ¬ Busy out id →
      s.taskManager.taskStatus[id]? = some TaskStatus.angry →
      considerAngry info d s.taskManager l id = some (l', o) → J (out ++ o) l'.placement)
    (hready : ∀ {out s₁ s' o lock id}, J out s₁.placement → Inv info tasks₀ out s₁ →
      ¬ Busy out id → s₁.taskManager.tasks = s.taskManager.tasks →
      s₁.taskManager.taskStatus[id]? = some TaskStatus.ready →
      PriorityTaskScheduler.considerReady info d lock s₁ id = some (s', o) →
      J (out ++ o) s'.placement)
    (hstep : extractInstances info d s = some (s', o)) :
    Inv info tasks₀ (out ++ o) s' ∧ J (out ++ o) s'.placement ∧
      s'.taskManager.tasks = s.taskManager.tasks := by
  obtain ⟨l, angry, m, m', ordered, ready, hrun, hm, hordered, hrest, rfl⟩ := extract_cases hstep
  have hfirst : AngryInv info tasks₀ s.taskManager out s.taskManager.angryList (out ++ angry) l ∧
      J (out ++ angry) l.placement :=
    run_loop (I := fun done out l => AngryInv info tasks₀ s.taskManager _ done out l ∧
        J out l.placement)
      (fun {done id rest _ _ _ _} hlist hl hstep => ⟨hl.1.step h.manager hlist hstep,
        hangry hl.2 hl.1.placement.sound (hl.1.idle h.manager hlist)
          ((h.manager.angry id).mpr (hlist ▸ List.mem_append_right done (List.mem_cons_self ..)))
          hstep⟩)
      ⟨⟨h.placement, fun _ => (or_iff_right List.not_mem_nil).symm,
        fun _ hi => absurd hi List.not_mem_nil, h.epochs⟩, hJ⟩ hrun
  have hmid := h.sucScheds hfirst.1 hm
  have htasks : m.tasks = s.taskManager.tasks := (h.manager.sucScheds hm).2.1
  obtain ⟨sorted, ids, heq, hmanager, hnodup, hmem, -⟩ := hmid.manager.orderByPriority d
  obtain ⟨rfl, rfl⟩ := Prod.mk.inj (Option.some.inj (hordered.symm.trans heq))
  have hstart : Inv info tasks₀ (out ++ angry) ⟨{ m with taskPriority := sorted }, l.placement⟩ :=
    ⟨hmid.placement, hmanager, hmid.epochs, hmid.length⟩
  rw [← List.append_assoc]
  have hlast := run_loop (I := fun done out s₁ => (Inv info tasks₀ out s₁ ∧ J out s₁.placement) ∧
    s₁.taskManager.tasks = s.taskManager.tasks ∧
    ∀ i ∈ ordered, i ∉ done → s₁.taskManager.taskStatus[i]? = some TaskStatus.ready)
    (fun {done id rest out s₁ s' o} hlist hs hstep => ?_)
    ⟨⟨hstart, hfirst.2⟩, htasks, fun i hi _ => (hmem i).mp hi⟩ hrest
  · exact ⟨hlast.1.1, hlast.1.2, hlast.2.1⟩
  have hid : id ∈ ordered := hlist ▸ List.mem_append_right _ (List.mem_cons_self ..)
  have hnew : id ∉ done := by
    rw [hlist] at hnodup
    exact fun hdone => (List.nodup_append.mp hnodup).2.2 id hdone id (List.mem_cons_self ..) rfl
  have hidready := hs.2.2 id hid hnew
  have hidle : ¬ Busy out id := by
    rw [← hs.1.1.manager.running, hidready]
    nofun
  obtain ⟨hs', hsame⟩ := hs.1.1.considerReady hidready hstep
  refine ⟨⟨hs', hready hs.1.2 hs.1.1 hidle hs.2.1 hidready hstep⟩,
    (hs.1.1.considerReady_tasks hidready hstep).trans hs.2.1, fun i hi hnot => ?_⟩
  rw [List.mem_append, List.mem_singleton, not_or] at hnot
  rw [hsame i hnot.2]
  exact hs.2.2 i hi hnot.1

/-- **A call of `extract_instances`** keeps everything in order. -/
theorem Inv.extract (h : Inv info tasks₀ out s) (hstep : extractInstances info d s = some (s', o)) :
    Inv info tasks₀ (out ++ o) s' :=
  (h.extract_invariant (J := fun _ _ => True) trivial (fun _ _ _ _ _ => trivial)
    (fun _ _ _ _ _ _ => trivial) hstep).1

theorem Inv.finish (h : Inv info tasks₀ out s) (hid : id ∈ holders out tid)
    (hstep : finishThread info s id tid = some s') :
    Inv info tasks₀ (out ++ [.finished id tid]) s' := by
  have hother : ∀ i, i ≠ id → (Busy (out ++ [.finished id tid]) i ↔ Busy out i) :=
    fun i hi => busy_finished_of_ne hi
  rcases finish_cases h.placement.sound hid hstep with ⟨hrun, rfl⟩ | ⟨hidle, m', hm, rfl⟩
  · refine ⟨h.placement.finish hid, h.manager.congr fun i => ?_,
      fun hnew => (h.epochs hnew).finish_busy hid hrun, h.length⟩
    by_cases hi : i = id
    · rw [hi]
      exact iff_of_true hrun ⟨tid, hid⟩
    · exact hother i hi
  · have hmanager : m'.Inv (Busy (out ++ [.finished id tid])) := by
      refine h.manager.finishThread ⟨tid, hid⟩ (fun i => ?_) hm
      by_cases hi : i = id
      · rw [hi]
        exact iff_of_false hidle fun hne => hne.2 rfl
      · rw [hother i hi]
        exact (and_iff_left hi).symm
    obtain ⟨task, htask, rfl⟩ := TaskManager.finishThread_last hm
    refine ⟨h.placement.finish hid, hmanager, fun hnew => ?_, ?_⟩
    · refine (h.epochs hnew).finish_idle htask hid ?_ hidle
      rw [(h.manager.running id).mpr ⟨tid, hid⟩]
      nofun
    · rw [List.length_set]
      exact h.length

end PriorityTaskScheduler

end FlexPS.Scheduler
