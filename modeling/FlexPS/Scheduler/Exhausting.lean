import FlexPS.Scheduler.Continuing

/-!
# Tasks run out of epochs

Every instance that is issued, and every epoch that is over, leaves less to do, so that the instances
that can be issued without another submission are limited.

## Main definitions

* `toIssue` — what is left to do for some tasks.
* `Exhausts` and its three instances — a scheduler that runs out of epochs.
-/

namespace FlexPS.Scheduler

open Lib

/-- The epochs that are left. -/
def Task.remaining (task : Task) : ℕ := task.totalEpoch - task.currentEpoch

/-- How often something may happen to the tasks: each epoch that is left is issued and comes to its
end, but the one that runs has been issued. -/
noncomputable def toIssue (out : List SchedEvent) (tasks : List Task) : ℕ :=
  open Classical in
  (tasks.map fun t => 2 * t.remaining + if Busy out t.id then 0 else 1).sum

/-- What the tasks of a submission add to it. -/
def submittedEpochs (tasks : List Task) : ℕ := (tasks.map fun t => 2 * t.remaining + 1).sum

/-- The number of instances that have been issued. -/
def issuedCount (out : List SchedEvent) : ℕ :=
  out.countP fun
    | .issued _ => true
    | _ => false

variable {info : WorkerInfo} {dmt : ℕ → Bool} {out o : List SchedEvent} {d : Draw} {id tid i : ℕ}
  {tasks tasks' : List Task} {task : Task} {instance_ : Instance}

/-! ## What is left to do -/

theorem toIssue_append (out : List SchedEvent) (tasks tasks' : List Task) :
    toIssue out (tasks ++ tasks') = toIssue out tasks + toIssue out tasks' := by
  rw [toIssue, List.map_append, List.sum_append]
  rfl

theorem toIssue_le (out : List SchedEvent) (tasks : List Task) :
    toIssue out tasks ≤ submittedEpochs tasks := by
  refine List.sum_le_sum fun t _ => Nat.add_le_add_left ?_ _
  split
  · exact Nat.zero_le 1
  · exact le_refl 1

/-- Only the tasks that run matter. -/
theorem toIssue_congr {out' : List SchedEvent}
    (hbusy : ∀ t ∈ tasks, Busy out' t.id ↔ Busy out t.id) : toIssue out' tasks = toIssue out tasks := by
  refine congrArg List.sum (List.map_congr_left fun t ht => ?_)
  by_cases hrun : Busy out t.id
  · rw [if_pos hrun, if_pos ((hbusy t ht).mpr hrun)]
  · rw [if_neg hrun, if_neg fun hrun' => hrun ((hbusy t ht).mp hrun')]

/-- **An instance is issued.** -/
theorem toIssue_issue (htask : task ∈ tasks) (hidle : ¬ Busy out task.id)
    (hid : instance_.id = task.id) (hne : instance_.threads ≠ []) :
    toIssue (out ++ [.issued instance_]) tasks + 1 ≤ toIssue out tasks := by
  have hbusy : ∀ id, Busy (out ++ [.issued instance_]) id ↔ id = instance_.id ∨ Busy out id :=
    busy_issued hne
  refine Nat.succ_le_of_lt (List.sum_lt_sum _ _ (fun t _ => Nat.add_le_add_left ?_ _)
    ⟨task, htask, Nat.add_lt_add_left ?_ _⟩)
  · split
    · exact Nat.zero_le _
    · next hnot => rw [if_neg fun hrun => hnot ((hbusy t.id).mpr (.inr hrun))]
  · rw [if_pos ((hbusy task.id).mpr (.inl hid.symm)), if_neg hidle]
    exact Nat.zero_lt_one

/-- **An epoch is over.** -/
theorem toIssue_finish (htask : tasks[i]? = some task)
    (hids : ∀ {j t}, tasks[j]? = some t → t.id = task.id → j = i)
    (hid : task.id ∈ holders out tid) (hidle : ¬ Busy (out ++ [.finished task.id tid]) task.id)
    (hlt : task.currentEpoch < task.totalEpoch) :
    toIssue (out ++ [.finished task.id tid]) (tasks.set i task.incEpoch) ≤ toIssue out tasks := by
  have hother : ∀ {j t}, tasks[j]? = some t → j ≠ i →
      (Busy (out ++ [.finished task.id tid]) t.id ↔ Busy out t.id) := fun ht hne =>
    busy_finished_of_ne fun heq => hne (hids ht heq)
  obtain ⟨before, after, rfl, rfl, hset⟩ : ∃ before after, tasks = before ++ task :: after ∧
      before.length = i ∧ tasks.set i task.incEpoch = before ++ task.incEpoch :: after := by
    obtain ⟨hi, rfl⟩ := List.getElem?_eq_some_iff.mp htask
    exact List.exists_of_set hi
  have hbefore : toIssue (out ++ [.finished task.id tid]) before = toIssue out before := by
    refine toIssue_congr fun t ht => ?_
    obtain ⟨j, hj, rfl⟩ := List.mem_iff_getElem.mp ht
    refine hother (j := j) ?_ hj.ne
    rw [List.getElem?_append_left hj, List.getElem?_eq_getElem hj]
  have hafter : toIssue (out ++ [.finished task.id tid]) after = toIssue out after := by
    refine toIssue_congr fun t ht => ?_
    obtain ⟨j, hj, rfl⟩ := List.mem_iff_getElem.mp ht
    refine hother (j := before.length + 1 + j) ?_ (by omega)
    rw [Nat.add_assoc, List.getElem?_append_right (Nat.le_add_right ..), Nat.add_sub_cancel_left,
      Nat.add_comm 1, List.getElem?_cons_succ, List.getElem?_eq_getElem hj]
  have hone : ∀ {out : List SchedEvent} (t : Task) (ts : List Task),
      toIssue out (t :: ts) = toIssue out [t] + toIssue out ts := fun t ts =>
    toIssue_append _ [t] ts
  have hover : toIssue (out ++ [.finished task.id tid]) [task.incEpoch] ≤ toIssue out [task] := by
    have hle := toIssue_le (out ++ [.finished task.id tid]) [task.incEpoch]
    have hge : 2 * task.remaining ≤ toIssue out [task] := Nat.le_add_right _ _
    have hless : task.incEpoch.remaining + 1 = task.remaining := by
      rw [Task.remaining, Task.remaining, Task.incEpoch_currentEpoch, Task.incEpoch_totalEpoch]
      omega
    simp only [submittedEpochs, List.map_cons, List.map_nil, List.sum_cons, List.sum_nil] at hle
    omega
  rw [hset, toIssue_append, toIssue_append, hone, hone task after, hbefore, hafter]
  omega

/-! ## The schedulers -/

theorem issuedCount_append (out o : List SchedEvent) :
    issuedCount (out ++ o) = issuedCount out + issuedCount o := List.countP_append ..

/-- A scheduler that runs out of epochs, which only submissions add to. -/
structure Exhausts {σ : Type} (S : TaskScheduler σ) (accepts : List SchedEvent → σ → List Task → Prop)
    (I : List SchedEvent → σ → Prop) (left : List SchedEvent → σ → ℕ) : Prop where
  submitted : ∀ {out s s' tasks}, I out s → S.isFinished s = true → accepts out s tasks →
    S.initTasks s tasks = some s' →
    left (out ++ [.submitted tasks]) s' ≤ left out s + submittedEpochs tasks
  extracted : ∀ {out s s' o d}, I out s → S.extractInstances d s = some (s', o) →
    left (out ++ o) s' + issuedCount (out ++ o) ≤ left out s + issuedCount out
  finished : ∀ {out s s' id tid time}, I out s → id ∈ holders out tid →
    S.finishThread s id tid time = some s' → left (out ++ [.finished id tid]) s' ≤ left out s

theorem toIssue_submitted (out : List SchedEvent) (tasks tasks' : List Task) :
    toIssue (out ++ [.submitted tasks']) tasks = toIssue out tasks :=
  toIssue_congr fun _ _ => busy_snoc_of_none rfl _

/-- A thread of a task finishes, but not the last one. -/
theorem toIssue_finish_busy (hid : id ∈ holders out tid)
    (hrun : Busy (out ++ [.finished id tid]) id) (tasks : List Task) :
    toIssue (out ++ [.finished id tid]) tasks = toIssue out tasks := by
  refine toIssue_congr fun t _ => ?_
  by_cases heq : t.id = id
  · rw [heq]
    exact iff_of_true hrun ⟨tid, hid⟩
  · exact busy_finished_of_ne heq

/-- An instance that has been placed leaves less to do. -/
theorem toIssue_placed {p p' : Placement} {candidateProc : List ℕ}
    (hplaced : Placement.Placed info out p (instanceBasicSetup task) candidateProc instance_ p')
    (htask : task ∈ tasks) (hidle : ¬ Busy out task.id) :
    toIssue (out ++ [.issued instance_]) tasks + issuedCount (out ++ [.issued instance_]) ≤
      toIssue out tasks + issuedCount out := by
  have hid : instance_.id = task.id := by
    rw [Instance.id, hplaced.task_eq, instanceBasicSetup_id]
  have hless := toIssue_issue htask hidle hid hplaced.ne_nil
  rw [issuedCount_append]
  have hone : issuedCount [.issued instance_] = 1 := rfl
  omega

namespace GreedyTaskScheduler

theorem exhausts (dmt : ℕ → Bool) (info : WorkerInfo) :
    Exhausts (scheduler info) (Transferable dmt DistinctTasks) (Lasts dmt info)
      fun out s => toIssue out s.tasks where
  submitted := by
    rintro out s s' tasks - - - hstep
    obtain ⟨-, rfl⟩ := init_cases hstep
    exact (toIssue_le _ tasks).trans (Nat.le_add_left _ _)
  extracted := by
    rintro out s s' o d ⟨⟨hs, -⟩, -⟩ hstep
    refine (run_along (I := fun out' s' => Inv info out' s' ∧
      toIssue out' s'.tasks + issuedCount out' ≤ toIssue out s.tasks + issuedCount out)
      (fun {out' s₁ i s₂ o} hs₁ _ hstep => ⟨hs₁.1.consider hstep, ?_⟩) ⟨hs, le_refl _⟩
      (along_of_forall (P := fun _ => True) (fun _ _ => trivial) out s) hstep).2
    obtain ⟨hs₁, hle⟩ := hs₁
    obtain ⟨task, status, htask, hstatus, ⟨-, rfl, rfl⟩ | ⟨rfl, instance_, p', hplaced, rfl, rfl⟩ |
      ⟨-, p', -, rfl, rfl⟩⟩ := consider_cases hs₁.placement.sound hstep
    · rwa [List.append_nil]
    · exact (toIssue_placed hplaced (List.mem_of_getElem? htask) (hs₁.ready htask hstatus)).trans hle
    · rwa [List.append_nil]
  finished := by
    rintro out s s' id tid time ⟨⟨hs, -⟩, -, hcont⟩ hid hstep
    rcases finish_cases hs.placement.sound hid hstep with
      ⟨hrun, rfl⟩ | ⟨hidle, idx, task, hidx, htask, rfl⟩
    · exact (toIssue_finish_busy hid hrun s.tasks).le
    · obtain ⟨idx', task', hidx', htask', rfl⟩ := hs.find ⟨tid, hid⟩
      obtain rfl := Option.some.inj (hidx.symm.trans hidx')
      obtain rfl := Option.some.inj (htask.symm.trans htask')
      have hrunning := (hs.status idx task htask).mpr ⟨tid, hid⟩
      exact toIssue_finish htask (fun ht heq => index_eq hs.nodup ht htask heq) hid hidle
        (hcont.lt task ⟨idx, htask, hrunning ▸ nofun⟩)

end GreedyTaskScheduler

namespace PriorityTaskScheduler

theorem exhausts (dmt : ℕ → Bool) (info : WorkerInfo) :
    Exhausts (scheduler info) (Transferable dmt IndexedTasks) (Lasts dmt info)
      fun out s => toIssue out s.taskManager.tasks where
  submitted := by
    rintro out s s' tasks - - - hstep
    obtain rfl := Option.some.inj hstep
    have htasks : (initTasks s tasks).taskManager.tasks = s.taskManager.tasks ++ tasks := rfl
    rw [htasks, toIssue_append, toIssue_submitted]
    exact Nat.add_le_add_left (toIssue_le _ tasks) _
  extracted := by
    rintro out s s' o d ⟨-, ⟨tasks₀, -, hs⟩, -⟩ hstep
    have hinv := hs.extract_invariant (J := fun out' _ =>
      toIssue out' s.taskManager.tasks + issuedCount out' ≤
        toIssue out s.taskManager.tasks + issuedCount out) (le_refl _) ?_ ?_ hstep
    · obtain ⟨-, hle, htasks⟩ := hinv
      rwa [htasks]
    · intro out' l l' o id hle hsound hidle hangry hstep
      obtain ⟨task, p', htask, ⟨instance_, hplaced, -, rfl⟩ | ⟨-, -, rfl⟩⟩ :=
        considerAngry_cases hsound hs.manager.ids hstep
      · rw [← hs.manager.ids id task htask] at hidle
        exact (toIssue_placed hplaced (List.mem_of_getElem? htask) hidle).trans hle
      · rw [toIssue_congr fun _ _ => busy_snoc_of_none rfl _, issuedCount_append]
        exact hle
    · intro out' s₁ s' o lock id hle hs₁ hidle htasks hready hstep
      obtain ⟨task, p', m', htask, -, ⟨instance_, hplaced, -, rfl⟩ | ⟨-, -, rfl⟩⟩ :=
        considerReady_cases hs₁.placement.sound hs₁.manager.ids hstep
      · rw [← hs₁.manager.ids id task htask] at hidle
        exact (toIssue_placed hplaced (htasks ▸ List.mem_of_getElem? htask) hidle).trans hle
      · rwa [List.append_nil]
  finished := by
    rintro out s s' id tid time ⟨-, ⟨tasks₀, -, hs⟩, hcont⟩ hid hstep
    rcases finish_cases hs.placement.sound hid hstep with ⟨hrun, rfl⟩ | ⟨hidle, m', hm, rfl⟩
    · exact (toIssue_finish_busy hid hrun s.taskManager.tasks).le
    · obtain ⟨task, htask, rfl⟩ := TaskManager.finishThread_last hm
      obtain rfl := hs.manager.ids id task htask
      have hrunning := (hs.manager.running task.id).mpr ⟨tid, hid⟩
      exact toIssue_finish htask (fun ht heq => index_eq hs.manager ht htask heq) hid hidle
        (hcont.lt task ⟨task.id, htask, hrunning ▸ nofun⟩)

end PriorityTaskScheduler

namespace SequentialTaskScheduler

/-- What is left to do for a queue: only the task at the front runs. -/
noncomputable def queueToIssue (out : List SchedEvent) (queue : List Task) : ℕ :=
  toIssue out queue.head?.toList + submittedEpochs queue.tail

theorem queueToIssue_le (out : List SchedEvent) (queue : List Task) :
    queueToIssue out queue ≤ submittedEpochs queue := by
  cases queue with
  | nil => exact le_refl 0
  | cons task rest => exact Nat.add_le_add_right (toIssue_le out [task]) _

theorem exhausts (dmt : ℕ → Bool) (info : WorkerInfo) :
    Exhausts (scheduler info) (Transferable dmt AnyTasks) (Lasts dmt info)
      fun out s => queueToIssue out s.tasksQueue where
  submitted := by
    rintro out s s' tasks - hfinished - hstep
    have hnil : s.tasksQueue = [] := List.isEmpty_iff.mp hfinished
    obtain ⟨-, rfl⟩ := init_cases hstep
    have hqueue : s.tasksQueue ++ tasks = tasks := by rw [hnil, List.nil_append]
    rw [hqueue]
    exact (queueToIssue_le _ tasks).trans (Nat.le_add_left _ _)
  extracted := by
    rintro out s s' o d ⟨⟨hs, -⟩, -⟩ hstep
    rcases extract_cases hs.placement.sound hstep with ⟨rfl, rfl, -⟩ |
      ⟨task, rest, p', hqueue, hempty, rfl, ⟨instance_, rfl, hplaced⟩ | ⟨rfl, -⟩⟩
    · rw [List.append_nil]
    · rw [hqueue]
      have hless := toIssue_placed hplaced (List.mem_singleton_self task) (hs.idle_iff.mp hempty _)
      simp only [queueToIssue, List.head?_cons, Option.toList_some, List.tail_cons]
      omega
    · rw [hqueue, issuedCount_append, queueToIssue, queueToIssue,
        toIssue_congr fun _ _ => busy_snoc_of_none rfl _]
      exact le_refl _
  finished := by
    rintro out s s' id tid time ⟨⟨hs, -⟩, -, hcont⟩ hid hstep
    rcases finish_cases hs.placement.sound hid hstep with ⟨hrun, rfl⟩ |
      ⟨hidle, task, rest, hqueue, rfl⟩
    · rw [queueToIssue, toIssue_finish_busy hid hrun]
      exact le_refl _
    · obtain ⟨task', rest', hqueue', rfl⟩ := hs.front id ⟨tid, hid⟩
      obtain ⟨rfl, rfl⟩ := List.cons.inj (hqueue.symm.trans hqueue')
      have hlt := hcont.lt task (by rw [ToRun, hqueue]; rfl)
      have hone : ∀ {j t}, [task][j]? = some t → t.id = task.id → j = 0 := by
        intro j t ht _
        obtain ⟨hj, -⟩ := List.getElem?_eq_some_iff.mp ht
        exact Nat.lt_one_iff.mp hj
      have hless : toIssue (out ++ [.finished task.id tid]) [task.incEpoch] ≤ toIssue out [task] :=
        toIssue_finish (i := 0) (show [task][0]? = some task from rfl) hone hid hidle hlt
      have hrest : queueToIssue out (task :: rest) = toIssue out [task] + submittedEpochs rest := rfl
      rw [hqueue, hrest]
      by_cases hdone : task.incEpoch.currentEpoch = task.incEpoch.totalEpoch
      · have hnext : nextEpoch task rest = rest := if_pos hdone
        rw [hnext]
        exact (queueToIssue_le _ rest).trans (Nat.le_add_left _ _)
      · have hnext : nextEpoch task rest = task.incEpoch :: rest := if_neg hdone
        rw [hnext]
        exact Nat.add_le_add_right hless _

end SequentialTaskScheduler

end FlexPS.Scheduler
