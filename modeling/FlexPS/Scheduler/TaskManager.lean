import FlexPS.Scheduler.Epochs
import FlexPS.Scheduler.AvailableWorkers
import Mathlib.Data.List.Sort

/-!
# The task manager

`TaskManager` keeps the tasks of the priority scheduler, indexed by their ids, with a priority and
a status for each.  A task that has been rejected too often becomes angry.

## Main definitions

* `TaskManager` and its operations `addTasks`, `finishThread`, `orderByPriority`, `sucSched`,
  `failSched`.
* `TaskManager.Inv` — priorities, status and the list of angry tasks fit together.
-/

namespace FlexPS.Scheduler

/-- `TaskManager`; its `task_id_pid_tids_` is part of the `Placement`. -/
structure TaskManager where
  tasks : List Task
  taskPriority : List (ℕ × ℕ)
  taskStatus : List TaskStatus
  taskRejectedTimes : List ℕ
  angryList : List ℕ

namespace TaskManager

/-- `angry_threshold_`. -/
def angryThreshold : ℕ := 5

/-- No tasks. -/
def empty : TaskManager := ⟨[], [], [], [], []⟩

/-- `add_tasks`. -/
def addTasks (m : TaskManager) (tasks : List Task) : TaskManager :=
  let all := m.tasks ++ tasks
  { m with
    tasks := all
    taskPriority := m.taskPriority ++ tasks.map fun task => (task.id, 0)
    taskStatus := m.taskStatus ++ List.replicate (all.length - m.taskStatus.length) .ready
    taskRejectedTimes :=
      m.taskRejectedTimes ++ List.replicate (all.length - m.taskRejectedTimes.length) 0 }

/-- `is_finished`. -/
def isFinished (m : TaskManager) : Bool := m.taskStatus.all (· = .finished)

/-- `finish_thread`, when the thread has been untracked; the flag says that it was the last one. -/
def finishThread (m : TaskManager) (taskId : ℕ) (last : Bool) : Option TaskManager :=
  if last then do
    let task ← m.tasks[taskId]?.map Task.incEpoch
    let status := if task.currentEpoch = task.totalEpoch then .finished else .ready
    some { m with tasks := m.tasks.set taskId task, taskStatus := m.taskStatus.set taskId status }
  else some m

/-- `order_by_priority`; `none` when an id is out of range. -/
def orderByPriority (d : Draw) (m : TaskManager) : Option (TaskManager × List ℕ) :=
  let sorted := (d.tiesOrder m.taskPriority).insertionSort fun left right => right.2 ≤ left.2
  if sorted.all fun p => p.1 < m.taskStatus.length then
    some ({ m with taskPriority := sorted },
      (sorted.filter fun p => m.taskStatus[p.1]? = some .ready).map Prod.fst)
  else none

/-- Change the priority of the first entry of the task. -/
def updatePriority (taskId : ℕ) (f : ℕ → ℕ) : List (ℕ × ℕ) → List (ℕ × ℕ)
  | [] => []
  | p :: ps => if p.1 = taskId then (p.1, f p.2) :: ps else p :: updatePriority taskId f ps

/-- `suc_sched`. -/
def sucSched (m : TaskManager) (taskId : ℕ) : Option TaskManager :=
  if taskId < m.tasks.length then
    some { m with
      taskStatus := m.taskStatus.set taskId .running
      taskRejectedTimes := m.taskRejectedTimes.set taskId 0
      taskPriority := updatePriority taskId (fun _ => 0) m.taskPriority
      angryList := m.angryList.filter (· ≠ taskId) }
  else none

/-- `fail_sched`. -/
def failSched (m : TaskManager) (taskId : ℕ) : Option TaskManager :=
  if taskId < m.tasks.length then
    let m := { m with
      taskRejectedTimes := m.taskRejectedTimes.modify taskId (· + 1)
      taskPriority := updatePriority taskId (· + 1) m.taskPriority }
    match m.taskPriority.find? fun p => p.1 = taskId with
    | some p =>
        if angryThreshold ≤ p.2 ∧ taskId ∉ m.angryList then
          some { m with
            angryList := m.angryList ++ [taskId]
            taskStatus := m.taskStatus.set taskId .angry }
        else some m
    | none => some m
  else none

/-- `get_task_priority`. -/
def getTaskPriority (m : TaskManager) (taskId : ℕ) : ℤ :=
  match m.taskPriority.find? fun p => p.1 = taskId with
  | some p => p.2
  | none => -1

/-! ## Priorities -/

theorem map_fst_updatePriority (taskId : ℕ) (f : ℕ → ℕ) (ps : List (ℕ × ℕ)) :
    (updatePriority taskId f ps).map Prod.fst = ps.map Prod.fst := by
  induction ps with
  | nil => rfl
  | cons p ps ih =>
      rw [updatePriority]
      split
      · rfl
      · rw [List.map_cons, List.map_cons, ih]

theorem mem_updatePriority {taskId : ℕ} {f : ℕ → ℕ} {ps : List (ℕ × ℕ)}
    (hnodup : (ps.map Prod.fst).Nodup) {q : ℕ × ℕ} :
    q ∈ updatePriority taskId f ps ↔
      ∃ p ∈ ps, q = if p.1 = taskId then (p.1, f p.2) else p := by
  induction ps with
  | nil => simp [updatePriority]
  | cons p ps ih =>
      obtain ⟨hp, hnodup⟩ := List.nodup_cons.mp hnodup
      rw [updatePriority]
      split
      · next hid =>
          -- the other entries are of other tasks
          have hother : ∀ p' ∈ ps, p'.1 ≠ taskId := fun p' hp' heq =>
            hp (hid ▸ heq ▸ List.mem_map_of_mem hp')
          rw [List.mem_cons, List.exists_mem_cons_iff, if_pos hid]
          refine or_congr_right ⟨fun hq => ⟨q, hq, (if_neg (hother q hq)).symm⟩, ?_⟩
          rintro ⟨p', hp', rfl⟩
          rwa [if_neg (hother p' hp')]
      · next hid =>
          rw [List.mem_cons, ih hnodup, List.exists_mem_cons_iff, if_neg hid]

theorem find_updatePriority {taskId : ℕ} {f : ℕ → ℕ} {ps : List (ℕ × ℕ)}
    (hnodup : (ps.map Prod.fst).Nodup) {q : ℕ × ℕ}
    (hq : (updatePriority taskId f ps).find? (fun p => p.1 = taskId) = some q) :
    ∃ p ∈ ps, p.1 = taskId ∧ q = (taskId, f p.2) := by
  have hid : q.1 = taskId := by simpa using List.find?_some hq
  obtain ⟨p, hp, heq⟩ := (mem_updatePriority hnodup).mp (List.mem_of_find?_eq_some hq)
  split at heq
  · next hpid =>
      refine ⟨p, hp, hpid, ?_⟩
      rw [heq, hpid]
  · next hpid => exact absurd (heq ▸ hid) hpid

/-! ## Everything fits together -/

/-- The tasks are indexed by their ids and have one priority each; those that are marked as running
are the ones of `busy`, and the angry ones are in the list. -/
structure Inv (busy : ℕ → Prop) (m : TaskManager) : Prop where
  ids : ∀ (i : ℕ) (task : Task), m.tasks[i]? = some task → task.id = i
  status_length : m.taskStatus.length = m.tasks.length
  rejected_length : m.taskRejectedTimes.length = m.tasks.length
  running : ∀ i : ℕ, m.taskStatus[i]? = some TaskStatus.running ↔ busy i
  angry : ∀ i : ℕ, m.taskStatus[i]? = some TaskStatus.angry ↔ i ∈ m.angryList
  angry_nodup : m.angryList.Nodup
  calm : ∀ p ∈ m.taskPriority, p.1 ∉ m.angryList → p.2 < angryThreshold
  keys : (m.taskPriority.map Prod.fst).Perm (List.range m.tasks.length)
  rejected : ∀ p ∈ m.taskPriority, m.taskRejectedTimes[p.1]? = some p.2

variable {m m' : TaskManager} {busy busy' : ℕ → Prop} {id : ℕ} {d : Draw}

theorem inv_empty (hidle : ∀ i, ¬ busy i) : empty.Inv busy where
  ids _ _ htask := nomatch htask
  status_length := rfl
  rejected_length := rfl
  running i := iff_of_false nofun (hidle i)
  angry _ := iff_of_false nofun nofun
  angry_nodup := List.nodup_nil
  calm _ := nofun
  keys := .rfl
  rejected _ := nofun

theorem Inv.congr (h : m.Inv busy) (hbusy : ∀ i, busy' i ↔ busy i) : m.Inv busy' :=
  { h with running := fun i => (h.running i).trans (hbusy i).symm }

theorem Inv.nodup_keys (h : m.Inv busy) : (m.taskPriority.map Prod.fst).Nodup :=
  h.keys.nodup_iff.mpr List.nodup_range

/-- Only tasks run. -/
theorem Inv.lt_of_busy (h : m.Inv busy) (hid : busy id) : id < m.tasks.length := by
  have hsome := (h.running id).mpr hid
  rw [← h.status_length]
  exact (List.getElem?_eq_some_iff.mp hsome).1

theorem Inv.getTaskPriority (h : m.Inv busy) {p : ℕ × ℕ} (hp : p ∈ m.taskPriority) :
    m.getTaskPriority p.1 = p.2 := by
  unfold TaskManager.getTaskPriority
  split
  · next q hq =>
      have hid : q.1 = p.1 := by simpa using List.find?_some hq
      rw [List.inj_on_of_nodup_map h.nodup_keys (List.mem_of_find?_eq_some hq) hp hid]
  · next hnone =>
      have := List.find?_eq_none.mp hnone p hp
      simp at this

/-- The status of all tasks after one has been marked. -/
theorem Inv.status_set (h : m.Inv busy) (hlt : id < m.tasks.length) (status : TaskStatus) (i : ℕ) :
    (m.taskStatus.set id status)[i]? = if i = id then some status else m.taskStatus[i]? := by
  split
  · next heq =>
      subst heq
      exact List.getElem?_set_self (h.status_length.symm ▸ hlt)
  · next hne => exact List.getElem?_set_ne (Ne.symm hne)

/-- The priority of a task counts how often it has been rejected. -/
theorem Inv.rejected_modify (h : m.Inv busy) {q : ℕ × ℕ}
    (hq : q ∈ updatePriority id (· + 1) m.taskPriority) :
    (m.taskRejectedTimes.modify id (· + 1))[q.1]? = some q.2 := by
  obtain ⟨p, hp, rfl⟩ := (mem_updatePriority h.nodup_keys).mp hq
  have htimes := h.rejected p hp
  split
  · next heq =>
      rw [heq] at htimes ⊢
      simp [htimes]
  · next hne =>
      rw [List.getElem?_modify, htimes]
      simp [Ne.symm hne]

/-- **A task that is scheduled** runs, and is not angry any more. -/
theorem Inv.sucSched (h : m.Inv busy) (hstep : m.sucSched id = some m') :
    m'.Inv (fun i => i = id ∨ busy i) ∧ m'.tasks = m.tasks ∧
      m'.taskStatus = m.taskStatus.set id .running := by
  unfold TaskManager.sucSched at hstep
  split at hstep
  · next hlt =>
      obtain rfl := Option.some.inj hstep
      have hstatus := h.status_set hlt .running
      refine ⟨⟨h.ids, (List.length_set ..).trans h.status_length,
        (List.length_set ..).trans h.rejected_length, fun i => ?_, fun i => ?_,
        h.angry_nodup.filter _, fun q hq hnot => ?_, ?_, fun q hq => ?_⟩, rfl, rfl⟩
      · rw [hstatus]
        split
        · next heq => exact iff_of_true rfl (.inl heq)
        · next hne => exact (h.running i).trans (or_iff_right hne).symm
      · rw [hstatus, List.mem_filter, decide_eq_true_eq]
        split
        · next heq => exact iff_of_false nofun fun hmem => hmem.2 heq
        · next hne => exact (h.angry i).trans (and_iff_left hne).symm
      · obtain ⟨p, hp, rfl⟩ := (mem_updatePriority h.nodup_keys).mp hq
        split at hnot
        · next heq =>
            rw [if_pos heq]
            exact Nat.zero_lt_succ 4
        · next hne =>
            rw [if_neg hne]
            exact h.calm p hp fun hmem => hnot (List.mem_filter.mpr ⟨hmem, decide_eq_true hne⟩)
      · rw [map_fst_updatePriority]
        exact h.keys
      · obtain ⟨p, hp, rfl⟩ := (mem_updatePriority h.nodup_keys).mp hq
        split
        · next heq =>
            subst heq
            exact List.getElem?_set_self (h.rejected_length.symm ▸ hlt)
        · next hne =>
            rw [List.getElem?_set_ne (Ne.symm hne)]
            exact h.rejected p hp
  · cases hstep

/-- **Several tasks are scheduled.** -/
theorem Inv.sucScheds (h : m.Inv busy) {ids : List ℕ}
    (hstep : ids.foldlM TaskManager.sucSched m = some m') :
    m'.Inv (fun i => i ∈ ids ∨ busy i) ∧ m'.tasks = m.tasks ∧
      ∀ i : ℕ, m'.taskStatus[i]? = if i ∈ ids then some .running else m.taskStatus[i]? := by
  induction ids generalizing m busy with
  | nil =>
      obtain rfl := Option.some.inj hstep
      exact ⟨h.congr fun i => or_iff_right List.not_mem_nil, rfl,
        fun i => (if_neg List.not_mem_nil).symm⟩
  | cons id ids ih =>
      rw [List.foldlM_cons] at hstep
      obtain ⟨m₁, hfirst, hstep⟩ := Option.bind_eq_some_iff.mp hstep
      obtain ⟨h₁, htasks₁, hstatus₁⟩ := h.sucSched hfirst
      obtain ⟨h', htasks', hstatus'⟩ := ih h₁ hstep
      have hlt : id < m.tasks.length := htasks₁ ▸ h₁.lt_of_busy (.inl rfl)
      refine ⟨h'.congr fun i => ?_, htasks'.trans htasks₁, fun i => ?_⟩
      · rw [List.mem_cons]
        tauto
      · rw [hstatus', hstatus₁, h.status_set hlt]
        by_cases hid : i = id
        · simp [hid]
        · simp [hid]

/-- **A ready task that is rejected** is still ready, or it becomes angry. -/
theorem Inv.failSched (h : m.Inv busy) (hready : m.taskStatus[id]? = some TaskStatus.ready)
    (hstep : m.failSched id = some m') :
    m'.Inv busy ∧ m'.tasks = m.tasks ∧
      (m'.taskStatus = m.taskStatus ∨ m'.taskStatus = m.taskStatus.set id .angry) := by
  unfold TaskManager.failSched at hstep
  split at hstep
  · next hlt =>
      simp only at hstep
      have hcalm : id ∉ m.angryList := by
        intro hmem
        rw [(h.angry id).mpr hmem] at hready
        cases hready
      have hlength : (m.taskRejectedTimes.modify id (· + 1)).length = m.tasks.length :=
        (List.length_modify ..).trans h.rejected_length
      have hkeys : ((updatePriority id (· + 1) m.taskPriority).map Prod.fst).Perm
          (List.range m.tasks.length) := by
        rw [map_fst_updatePriority]
        exact h.keys
      obtain ⟨p₀, hp₀, hid₀⟩ : ∃ p ∈ m.taskPriority, p.1 = id := by
        refine List.mem_map.mp (h.keys.mem_iff.mpr (List.mem_range.mpr hlt))
      split at hstep
      · next q hq =>
          obtain ⟨p, hp, hpid, rfl⟩ := find_updatePriority h.nodup_keys hq
          split at hstep
          · next hangry =>
              obtain rfl := Option.some.inj hstep
              have hstatus := h.status_set hlt .angry
              refine ⟨⟨h.ids, (List.length_set ..).trans h.status_length, hlength, fun i => ?_,
                fun i => ?_, ?_, fun q hq hnot => ?_, hkeys, fun q hq => h.rejected_modify hq⟩,
                rfl, .inr rfl⟩
              · rw [hstatus]
                split
                · next heq =>
                    subst heq
                    rw [← h.running, hready]
                    exact iff_of_false nofun nofun
                · exact h.running i
              · rw [hstatus, List.mem_append, List.mem_singleton]
                split
                · next heq => exact iff_of_true rfl (.inr heq)
                · next hne => exact (h.angry i).trans (or_iff_left hne).symm
              · exact h.angry_nodup.append (List.nodup_singleton id)
                  fun i hi hi' => hcalm (List.mem_singleton.mp hi' ▸ hi)
              · obtain ⟨p', hp', rfl⟩ := (mem_updatePriority h.nodup_keys).mp hq
                rw [List.mem_append, List.mem_singleton, not_or] at hnot
                split at hnot
                · next heq => exact absurd heq hnot.2
                · next hne =>
                    rw [if_neg hne]
                    exact h.calm p' hp' hnot.1
          · next hcalm' =>
              obtain rfl := Option.some.inj hstep
              refine ⟨⟨h.ids, h.status_length, hlength, h.running, h.angry, h.angry_nodup,
                fun q hq hnot => ?_, hkeys, fun q hq => h.rejected_modify hq⟩, rfl, .inl rfl⟩
              obtain ⟨p', hp', rfl⟩ := (mem_updatePriority h.nodup_keys).mp hq
              split at hnot
              · next heq =>
                  rw [if_pos heq]
                  obtain rfl : p' = p :=
                    List.inj_on_of_nodup_map h.nodup_keys hp' hp (heq.trans hpid.symm)
                  exact not_le.mp fun hle => hcalm' ⟨hle, hcalm⟩
              · next hne =>
                  rw [if_neg hne]
                  exact h.calm p' hp' hnot
      · next hnone =>
          have hmem : (id, p₀.2 + 1) ∈ updatePriority id (· + 1) m.taskPriority := by
            refine (mem_updatePriority h.nodup_keys).mpr ⟨p₀, hp₀, ?_⟩
            rw [if_pos hid₀, hid₀]
          exact absurd (decide_eq_true rfl) (List.find?_eq_none.mp hnone _ hmem)
  · cases hstep

/-- What `finish_thread` does when it was the last thread of the task. -/
theorem finishThread_last (hstep : m.finishThread id true = some m') :
    ∃ task, m.tasks[id]? = some task ∧ m' = { m with
      tasks := m.tasks.set id task.incEpoch
      taskStatus := m.taskStatus.set id
        (if task.incEpoch.currentEpoch = task.incEpoch.totalEpoch then .finished else .ready) } := by
  obtain ⟨task', htask', hstep⟩ := Option.bind_eq_some_iff.mp hstep
  obtain ⟨task, htask, rfl⟩ := Option.map_eq_some_iff.mp htask'
  exact ⟨task, htask, (Option.some.inj hstep).symm⟩

/-- **A task whose last thread has finished** does not run any more. -/
theorem Inv.finishThread (h : m.Inv busy) (hbusy : busy id)
    (hbusy' : ∀ i, busy' i ↔ busy i ∧ i ≠ id) (hstep : m.finishThread id true = some m') :
    m'.Inv busy' := by
  have hlt := h.lt_of_busy hbusy
  obtain ⟨task, htask, rfl⟩ := finishThread_last hstep
  have hstatus := h.status_set hlt
    (if task.incEpoch.currentEpoch = task.incEpoch.totalEpoch then .finished else .ready)
  have hidle : ∀ status : TaskStatus, status = .running ∨ status = .angry →
      (if task.incEpoch.currentEpoch = task.incEpoch.totalEpoch then TaskStatus.finished
        else .ready) ≠ status := by
    intro status hcases heq
    subst heq
    split at hcases
    · simp at hcases
    · simp at hcases
  refine ⟨fun i task' htask' => ?_, ?_, ?_, fun i => ?_, fun i => ?_, h.angry_nodup, h.calm, ?_,
    h.rejected⟩
  · by_cases heq : id = i
    · subst heq
      rw [List.getElem?_set_self hlt] at htask'
      obtain rfl := Option.some.inj htask'
      exact h.ids id task htask
    · rw [List.getElem?_set_ne heq] at htask'
      exact h.ids i task' htask'
  · rw [List.length_set, List.length_set]
    exact h.status_length
  · rw [List.length_set]
    exact h.rejected_length
  · rw [hstatus, hbusy']
    split
    · next heq =>
        exact iff_of_false (fun hst => hidle .running (.inl rfl) (Option.some.inj hst))
          fun hne => hne.2 heq
    · next hne => exact (h.running i).trans (and_iff_left hne).symm
  · rw [hstatus]
    split
    · next heq =>
        subst heq
        rw [← h.angry, (h.running i).mpr hbusy]
        exact iff_of_false (fun hst => hidle .angry (.inr rfl) (Option.some.inj hst)) nofun
    · exact h.angry i
  · rw [List.length_set]
    exact h.keys

/-- New tasks are ready, and indexed by their ids as well. -/
theorem Inv.addTasks (h : m.Inv busy) {tasks : List Task} (hids : Indexed m.tasks.length tasks) :
    (m.addTasks tasks).Inv busy := by
  have hready : m.taskStatus ++ List.replicate ((m.tasks ++ tasks).length - m.taskStatus.length)
      TaskStatus.ready = m.taskStatus ++ List.replicate tasks.length .ready := by
    rw [List.length_append, h.status_length, Nat.add_sub_cancel_left]
  have hzero : m.taskRejectedTimes ++ List.replicate
      ((m.tasks ++ tasks).length - m.taskRejectedTimes.length) 0 =
      m.taskRejectedTimes ++ List.replicate tasks.length 0 := by
    rw [List.length_append, h.rejected_length, Nat.add_sub_cancel_left]
  have hold : ∀ (i : ℕ) (status : TaskStatus), status ≠ .ready →
      ((m.taskStatus ++ List.replicate tasks.length TaskStatus.ready)[i]? = some status ↔
        m.taskStatus[i]? = some status) := by
    intro i status hne
    by_cases hlt : i < m.taskStatus.length
    · rw [List.getElem?_append_left hlt]
    · rw [List.getElem?_append_right (not_lt.mp hlt), List.getElem?_replicate,
        List.getElem?_eq_none (not_lt.mp hlt)]
      refine iff_of_false (fun heq => ?_) nofun
      split at heq
      · exact hne (Option.some.inj heq).symm
      · cases heq
  have hnew : ∀ p ∈ tasks.map fun task => (task.id, 0),
      ∃ i < tasks.length, p = (m.tasks.length + i, 0) := by
    intro p hp
    obtain ⟨task, htask, rfl⟩ := List.mem_map.mp hp
    obtain ⟨i, hi⟩ := List.mem_iff_getElem?.mp htask
    exact ⟨i, (List.getElem?_eq_some_iff.mp hi).1, by rw [hids i task hi]⟩
  unfold TaskManager.addTasks
  simp only [hready, hzero]
  refine ⟨fun i task htask => ?_, ?_, ?_, fun i => ?_, fun i => ?_, h.angry_nodup,
    fun p hp hnot => ?_, ?_, fun p hp => ?_⟩
  · rcases lt_or_ge i m.tasks.length with hlt | hge
    · rw [List.getElem?_append_left hlt] at htask
      exact h.ids i task htask
    · rw [List.getElem?_append_right hge] at htask
      rw [hids _ task htask, Nat.add_sub_cancel' hge]
  · rw [List.length_append, List.length_append, List.length_replicate, h.status_length]
  · rw [List.length_append, List.length_append, List.length_replicate, h.rejected_length]
  · exact (hold i .running (by decide)).trans (h.running i)
  · exact (hold i .angry (by decide)).trans (h.angry i)
  · rcases List.mem_append.mp hp with hp | hp
    · exact h.calm p hp hnot
    · obtain ⟨i, -, rfl⟩ := hnew p hp
      exact Nat.zero_lt_succ 4
  · have hkeys : (tasks.map fun task => (task.id, 0)).map Prod.fst =
        List.map (m.tasks.length + ·) (List.range tasks.length) := by
      refine List.ext_getElem (by simp) fun i hi hi' => ?_
      rw [List.length_map, List.length_map] at hi
      simpa using hids i _ (List.getElem?_eq_getElem hi)
    rw [List.map_append, List.length_append, List.range_add, hkeys]
    exact h.keys.append .rfl
  · rcases List.mem_append.mp hp with hp | hp
    · have htimes := h.rejected p hp
      rw [List.getElem?_append_left (List.getElem?_eq_some_iff.mp htimes).1]
      exact htimes
    · obtain ⟨i, hi, rfl⟩ := hnew p hp
      rw [List.getElem?_append_right (h.rejected_length.trans_le (Nat.le_add_right ..)),
        h.rejected_length, Nat.add_sub_cancel_left, List.getElem?_replicate, if_pos hi]

/-- **`order_by_priority`** returns the ready tasks, in the order of their priorities. -/
theorem Inv.orderByPriority (h : m.Inv busy) (d : Draw) :
    ∃ sorted ids, m.orderByPriority d = some ({ m with taskPriority := sorted }, ids) ∧
      Inv busy { m with taskPriority := sorted } ∧ ids.Nodup ∧
      (∀ i : ℕ, i ∈ ids ↔ m.taskStatus[i]? = some TaskStatus.ready) ∧
      ids.Pairwise fun i j => m.getTaskPriority j ≤ m.getTaskPriority i := by
  set sorted := (d.tiesOrder m.taskPriority).insertionSort fun left right => right.2 ≤ left.2
    with hsorted
  have hperm : sorted.Perm m.taskPriority :=
    (List.perm_insertionSort _ _).trans (d.ties_perm _)
  have hkeys : (sorted.map Prod.fst).Perm (List.range m.tasks.length) :=
    (hperm.map _).trans h.keys
  have horder : sorted.Pairwise fun left right => right.2 ≤ left.2 := by
    have : Std.Total fun left right : ℕ × ℕ => right.2 ≤ left.2 := ⟨fun p q => le_total q.2 p.2⟩
    have : IsTrans (ℕ × ℕ) fun left right => right.2 ≤ left.2 := ⟨fun p q r h₁ h₂ => h₂.trans h₁⟩
    exact List.pairwise_insertionSort _ _
  have hall : (sorted.all fun p => p.1 < m.taskStatus.length) = true := by
    refine List.all_eq_true.mpr fun p hp => decide_eq_true ?_
    rw [h.status_length]
    exact List.mem_range.mp (hkeys.mem_iff.mp (List.mem_map_of_mem hp))
  refine ⟨sorted, (sorted.filter fun p => m.taskStatus[p.1]? = some .ready).map Prod.fst, ?_,
    ⟨h.ids, h.status_length, h.rejected_length, h.running, h.angry,
    h.angry_nodup, fun p hp => h.calm p (hperm.mem_iff.mp hp), hkeys,
    fun p hp => h.rejected p (hperm.mem_iff.mp hp)⟩, ?_, fun i => ?_, ?_⟩
  · unfold TaskManager.orderByPriority
    simp only [← hsorted]
    rw [if_pos hall]
  · have hnodup := hkeys.nodup_iff.mpr List.nodup_range
    exact hnodup.sublist (List.filter_sublist.map _)
  · rw [List.mem_map]
    constructor
    · rintro ⟨p, hp, rfl⟩
      exact of_decide_eq_true (List.mem_filter.mp hp).2
    · intro hready
      have hlt : i < m.tasks.length := by
        rw [← h.status_length]
        exact (List.getElem?_eq_some_iff.mp hready).1
      obtain ⟨p, hp, rfl⟩ := List.mem_map.mp (hkeys.mem_iff.mpr (List.mem_range.mpr hlt))
      exact ⟨p, List.mem_filter.mpr ⟨hp, decide_eq_true hready⟩, rfl⟩
  · rw [List.pairwise_map]
    refine (horder.filter _).imp_of_mem fun {p q} hp hq hle => ?_
    rw [h.getTaskPriority (hperm.mem_iff.mp (List.mem_filter.mp hp).1),
      h.getTaskPriority (hperm.mem_iff.mp (List.mem_filter.mp hq).1)]
    exact Int.ofNat_le.mpr hle

end TaskManager

end FlexPS.Scheduler
