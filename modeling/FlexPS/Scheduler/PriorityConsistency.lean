import FlexPS.Scheduler.PriorityTaskScheduler

/-!
# The task manager is consistent

Between the calls of the priority scheduler, the status, the priority, the list of angry tasks and
the tracked threads of every task fit together.

## Main definitions

* `TaskManagerConsistent` — what fits together.
* `taskManager_consistent` — it does, in every state that calls lead to.
-/

namespace FlexPS.Scheduler

open Lib

/-- Status, priority, angry list and tracked threads say the same. -/
structure TaskManagerConsistent (s : PriorityTaskScheduler) : Prop where
  status_length : s.taskManager.taskStatus.length = s.taskManager.tasks.length
  angry : ∀ id : ℕ, s.taskManager.taskStatus[id]? = some TaskStatus.angry ↔
    s.taskManager.angryList.count id = 1
  angry_once : ∀ id, s.taskManager.angryList.count id ≤ 1
  running : ∀ id : ℕ, s.taskManager.taskStatus[id]? = some TaskStatus.running ↔
    ∃ tid, s.placement.Tracks id tid
  finished : ∀ (id : ℕ) (task : Task), s.taskManager.tasks[id]? = some task →
    (s.taskManager.taskStatus[id]? = some TaskStatus.finished ↔
      task.currentEpoch = task.totalEpoch)
  ready : ∀ id : ℕ, s.taskManager.taskStatus[id]? = some TaskStatus.ready →
    s.taskManager.getTaskPriority id < TaskManager.angryThreshold
  priority : ∀ id < s.taskManager.tasks.length,
    (s.taskManager.taskPriority.map Prod.fst).count id = 1
  ordered : ∀ d, ∃ m ids, s.taskManager.orderByPriority d = some (m, ids) ∧
    ids.Perm ((List.range s.taskManager.tasks.length).filter fun id =>
      s.taskManager.taskStatus[id]? = some TaskStatus.ready) ∧
    ids.Pairwise fun id id' => s.taskManager.getTaskPriority id' ≤ s.taskManager.getTaskPriority id

/-- New tasks are submitted in the order of their ids. -/
def FreshTasks (_ : List SchedEvent) (s : PriorityTaskScheduler) (tasks : List Task) : Prop :=
  Fresh s.taskManager.tasks.length tasks

theorem PriorityTaskScheduler.Inv.consistent {info : WorkerInfo} {tasks₀ : List Task}
    {out : List SchedEvent} {s : PriorityTaskScheduler}
    (h : PriorityTaskScheduler.Inv info tasks₀ out s) (hnew : New tasks₀) :
    TaskManagerConsistent s := by
  have hkeys := h.manager.keys
  have hlt : ∀ {id : ℕ} {status : TaskStatus}, s.taskManager.taskStatus[id]? = some status →
      id < s.taskManager.tasks.length := by
    intro id status hstatus
    rw [← h.manager.status_length]
    exact (List.getElem?_eq_some_iff.mp hstatus).1
  refine ⟨h.manager.status_length, fun id => ?_,
    fun id => List.nodup_iff_count_le_one.mp h.manager.angry_nodup id, fun id => ?_,
    (h.epochs hnew).finished, fun id hready => ?_, fun id hid => ?_, fun d => ?_⟩
  · rw [h.manager.angry]
    refine ⟨List.count_eq_one_of_mem h.manager.angry_nodup, fun hcount => ?_⟩
    exact List.count_pos_iff.mp (hcount ▸ Nat.one_pos)
  · rw [h.manager.running]
    exact exists_congr fun tid => (h.placement.conserved.running id tid).symm
  · obtain ⟨p, hp, rfl⟩ := List.mem_map.mp (hkeys.mem_iff.mpr (List.mem_range.mpr (hlt hready)))
    rw [h.manager.getTaskPriority hp]
    refine Int.ofNat_lt.mpr (h.manager.calm p hp fun hmem => ?_)
    rw [(h.manager.angry p.1).mpr hmem] at hready
    cases hready
  · refine List.count_eq_one_of_mem h.manager.nodup_keys ?_
    exact hkeys.mem_iff.mpr (List.mem_range.mpr hid)
  · obtain ⟨sorted, ids, heq, -, hnodup, hmem, horder⟩ := h.manager.orderByPriority d
    refine ⟨_, ids, heq, ?_, horder⟩
    refine (List.perm_ext_iff_of_nodup hnodup (List.nodup_range.filter _)).mpr fun id => ?_
    rw [hmem, List.mem_filter, List.mem_range, decide_eq_true_eq]
    exact (and_iff_right_of_imp hlt).symm

/-- **The task manager is consistent** in every state that submitting new tasks in the order of
their ids, extracting instances and finishing threads lead to. -/
theorem taskManager_consistent (info : WorkerInfo) (out : List SchedEvent)
    (s : PriorityTaskScheduler)
    (h : Reaches (PriorityTaskScheduler.scheduler info) FreshTasks (.start info) out s) :
    TaskManagerConsistent s := by
  obtain ⟨tasks₀, hnew, hs⟩ := h.invariant
    (I := fun out s => ∃ tasks₀, New tasks₀ ∧ PriorityTaskScheduler.Inv info tasks₀ out s)
    ⟨[], fun _ htask => (nomatch htask), PriorityTaskScheduler.inv_start info⟩
    (fun {out s s' tasks} ⟨tasks₀, hnew, hs⟩ hfresh hstep => by
      obtain rfl := Option.some.inj hstep
      exact ⟨tasks₀ ++ tasks, new_append.mpr ⟨hnew, hfresh.epochs⟩,
        hs.init (hs.length ▸ hfresh.ids)⟩)
    (fun ⟨tasks₀, hnew, hs⟩ hstep => ⟨tasks₀, hnew, hs.extract hstep⟩)
    (fun ⟨tasks₀, hnew, hs⟩ hid hstep => ⟨tasks₀, hnew, hs.finish hid hstep⟩)
  exact hs.consistent hnew

/-- Two tasks for one thread: the first runs, and the second has been rejected. -/
theorem taskManager_consistent_oneEach :
    ∃ s : PriorityTaskScheduler, s.taskManager.taskStatus = [.running, .ready] ∧
      s.taskManager.getTaskPriority 1 = 1 ∧ TaskManagerConsistent s := by
  have hrun : run (schedStep (PriorityTaskScheduler.scheduler (.oneEach 1))) (.start (.oneEach 1))
      [.initTasks [smallTask 0, smallTask 1], .extractInstances .plain] =
      some (_, [.submitted [smallTask 0, smallTask 1], .issued ⟨smallTask 0, [(0, 0)]⟩]) := rfl
  have hfresh : Fresh 0 [smallTask 0, smallTask 1] := by
    refine ⟨?_, ?_⟩
    · rintro (_ | _ | i) task htask
      · obtain rfl := Option.some.inj htask
        rfl
      · obtain rfl := Option.some.inj htask
        rfl
      · cases htask
    · rintro task (_ | ⟨_, _ | ⟨_, htask⟩⟩)
      · exact ⟨rfl, le_rfl⟩
      · exact ⟨rfl, le_rfl⟩
      · cases htask
  have hfirst : ∀ tasks, SchedInput.initTasks [smallTask 0, smallTask 1] = .initTasks tasks →
      FreshTasks [] (.start (.oneEach 1)) tasks := by
    rintro _ ⟨⟩
    exact hfresh
  refine ⟨_, rfl, rfl, taskManager_consistent (.oneEach 1) _ _ ⟨_, ?_, hrun⟩⟩
  apply along_cons rfl ⟨trivial, hfirst⟩
  apply along_cons rfl ⟨trivial, nofun⟩
  trivial

end FlexPS.Scheduler
