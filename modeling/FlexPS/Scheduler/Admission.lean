import FlexPS.Scheduler.GreedyTaskScheduler
import FlexPS.Scheduler.SequentialTaskScheduler

/-!
# Admitted tasks

`global_guarantee_threads` compares a submitted task with the whole cluster.  When nothing runs all
workers are free, but the next epoch of the task may be confined to the processes that it has
visited least, and these need not have the threads.

## Main definitions

* `WorkerInfo.Covers` — the whole cluster has the threads of an epoch.
* `Task.Selectable` — `select_threads_from_subset` returns for the next epoch.
* `fits_of_idle` — when nothing runs a task fits if and only if the cluster covers it.
* `admitted_schedulable` — when the schedulers place a task although nothing runs.
-/

namespace FlexPS.Scheduler

open Lib AvailableWorkers

/-- The whole cluster has the threads of the next epoch of the task: it fits when all workers are
free. -/
def WorkerInfo.Covers (info : WorkerInfo) (taskHistory candidateProc : List ℕ) (task : Task) :
    Prop :=
  Fits (ofCluster info) taskHistory info.numProcesses task.numWorkers candidateProc task

/-- A `ConfigurableWorkersTask` names a number and a type for its next epoch, and a process when the
type asks for one. -/
def Task.Selectable (task : Task) : Prop :=
  match task.type with
  | .configurableWorkers workerNum workerNumType =>
      ∃ n type, workerNum[task.currentEpoch % workerNum.length]? = some n ∧
        workerNumType[task.currentEpoch % workerNum.length]? = some type ∧
        WorkerNumType.parse type ≠ .threadsOnWorker none
  | _ => True

section Idle

variable {info : WorkerInfo} {out : List SchedEvent} {p p' : Placement} {d : Draw}
  {a b : AvailableWorkers} {task : Task} {taskHistory candidateProc : List ℕ}
  {numProcesses required : ℕ}

/-! ## All workers are free -/

/-- Whether a task fits depends on the numbers of free threads only. -/
theorem fits_congr (htids : ∀ pid, (a.tids pid).length = (b.tids pid).length)
    (hworkers : a.workers.length = b.workers.length) :
    Fits a taskHistory numProcesses required candidateProc task ↔
      Fits b taskHistory numProcesses required candidateProc task := by
  have hsum : sumAvailable a candidateProc = sumAvailable b candidateProc := by
    unfold sumAvailable
    congr 1
    exact List.map_congr_left fun pid _ => htids pid
  have hconfigured : ∀ n type, FitsConfigured a taskHistory numProcesses n type ↔
      FitsConfigured b taskHistory numProcesses n type := by
    intro n type
    cases type with
    | threadsPerCluster => simp only [FitsConfigured, hworkers]
    | illegal => exact Iff.rfl
    | _ => simp only [FitsConfigured, htids]
  unfold Fits
  cases task.type with
  | configurableWorkers workerNum workerNumType => simp only [hconfigured]
  | basic => simp only [htids, hsum]
  | autoParallelism _ _ _ => simp only [hsum]

/-- All workers of the cluster are free when nothing runs. -/
theorem Accounts.mem_tids_of_idle {m : Tracking} (h : Accounts info out a m)
    (hidle : ∀ tid, holders out tid = []) (pid tid : ℕ) :
    tid ∈ a.tids pid ↔ tid ∈ info.globalTids ∧ pid = info.processId tid := by
  constructor
  · exact fun htid => ⟨(h.free_mem htid).1, h.free_proc pid tid htid⟩
  · rintro ⟨htid, rfl⟩
    exact (h.books.free_iff tid).mpr ⟨htid, hidle tid⟩

theorem Accounts.length_workers_of_idle {m : Tracking} (h : Accounts info out a m)
    (hidle : ∀ tid, holders out tid = []) :
    a.workers.length = (ofCluster info).workers.length := by
  obtain ⟨hagree, hmem⟩ := ofCluster_spec info
  refine ((List.perm_ext_iff_of_nodup h.agree.workers_nodup hagree.workers_nodup).mpr
    fun w => ?_).length_eq
  rw [h.agree.mem_iff w.1 w.2, hagree.mem_iff w.1 w.2, hmem, h.mem_tids_of_idle hidle]

theorem holders_of_idle (hidle : ∀ id, ¬ Busy out id) (tid : ℕ) : holders out tid = [] :=
  List.eq_nil_iff_forall_not_mem.mpr fun id hid => hidle id ⟨tid, hid⟩

/-- **When nothing runs** a task fits if and only if the cluster covers it. -/
theorem fits_of_idle (h : p.Sound info out) (hidle : ∀ id, ¬ Busy out id) :
    p.CanPlace info task candidateProc ↔
      info.Covers (p.history.getTaskHistory task.id) candidateProc task := by
  have hnone := holders_of_idle hidle
  refine fits_congr (fun pid => ?_) (h.accounts.length_workers_of_idle hnone)
  rw [h.accounts.length_tids_of_idle hnone,
    (accounts_init info).length_tids_of_idle (fun _ => rfl)]

/-- After a task could not be placed the others fit as before. -/
theorem Placement.NotPlaced.canPlace_iff {task' : Task} {candidateProc' : List ℕ}
    (hnot : Placement.NotPlaced info out p task candidateProc p') (h : p.Sound info out) :
    p'.CanPlace info task' candidateProc' ↔ p.CanPlace info task' candidateProc' := by
  have hagree := h.accounts.agree
  unfold Placement.CanPlace
  rw [hnot.history_eq]
  refine fits_congr (fun pid => hnot.available.length_tids hagree pid) ?_
  refine ((List.perm_ext_iff_of_nodup hnot.available.workers_nodup hagree.workers_nodup).mpr
    fun w => ?_).length_eq
  rw [hnot.available.mem_workers w.1 w.2]
  exact and_iff_left List.not_mem_nil

/-! ## When the selection returns -/

theorem Task.selectable_of_fits
    (h : Fits a taskHistory numProcesses required candidateProc task) : task.Selectable := by
  unfold Fits at h
  unfold Task.Selectable
  cases htype : task.type with
  | configurableWorkers workerNum workerNumType =>
      rw [htype] at h
      obtain ⟨n, type, hn, htype', hfits⟩ := h
      refine ⟨n, type, hn, htype', fun hnone => ?_⟩
      rw [hnone] at hfits
      obtain ⟨w, hw, -⟩ := hfits
      cases hw
  | _ => trivial

/-- The selection returns for the tasks that say what they ask for. -/
theorem select_isSome_iff (ha : a.Agree) (hnodup : candidateProc.Nodup)
    (hlt : ∀ pid ∈ candidateProc, pid < numProcesses) :
    (∃ r, selectThreadsFromSubset d task taskHistory a numProcesses required candidateProc =
      some r) ↔ task.Selectable := by
  have hspread : ∃ r, selectSpread d a numProcesses required candidateProc = some r := by
    obtain ⟨selected, a', heq, -⟩ : ∃ selected a',
        selectSpread d a numProcesses required candidateProc = some (selected, a') ∧ _ :=
      selectSpread_spec ha hnodup hlt
    exact ⟨_, heq⟩
  unfold selectThreadsFromSubset Task.Selectable
  cases task.type with
  | configurableWorkers workerNum workerNumType =>
      simp only [Option.bind_eq_bind, Option.bind_eq_some_iff]
      constructor
      · rintro ⟨r, n, hn, type, htype, hsel⟩
        refine ⟨n, type, hn, htype, fun hnone => ?_⟩
        rw [hnone] at hsel
        cases hsel
      · rintro ⟨n, type, hn, htype, hne⟩
        have hsome : ∃ r, selectConfigured d a taskHistory numProcesses n (.parse type) = some r := by
          cases hparse : WorkerNumType.parse type with
          | threadsOnWorker worker =>
              cases worker with
              | none => exact absurd hparse hne
              | some worker =>
                  simp only [selectConfigured]
                  split
                  · exact ⟨_, rfl⟩
                  · exact ⟨_, rfl⟩
          | _ => exact ⟨_, rfl⟩
        obtain ⟨r, hr⟩ := hsome
        exact ⟨r, n, hn, type, htype, hr⟩
  | basic =>
      refine iff_of_true ?_ trivial
      simp only
      split
      · exact ⟨_, rfl⟩
      · exact hspread
  | autoParallelism _ _ _ => exact iff_of_true hspread trivial

/-- Placing returns when the selection does. -/
theorem Placement.place_isSome_iff (h : p.Sound info out) (taskId : ℕ)
    (hcand : Placement.Candidates info candidateProc) :
    (∃ r, p.place info d taskId task candidateProc = some r) ↔ task.Selectable := by
  have hselect : (∃ r, selectThreadsFromSubset d task (p.history.getTaskHistory task.id)
      p.availableWorkers info.numProcesses task.numWorkers candidateProc = some r) ↔
        task.Selectable :=
    select_isSome_iff h.accounts.agree hcand.nodup hcand.lt
  rw [← hselect]
  constructor
  · rintro ⟨r, hplace⟩
    obtain ⟨selected, hsel, -⟩ := Option.bind_eq_some_iff.mp hplace
    exact ⟨selected, hsel⟩
  · rintro ⟨⟨selected, a'⟩, hsel⟩
    rw [Placement.place, hsel, Option.bind_eq_bind, Option.bind_some]
    by_cases hnil : selected = []
    · exact ⟨_, if_pos hnil⟩
    · exact ⟨_, if_neg hnil⟩

theorem Task.selectable_instanceBasicSetup :
    (instanceBasicSetup task).Selectable ↔ task.Selectable := by
  rw [Selectable, Selectable, instanceBasicSetup_type, instanceBasicSetup_currentEpoch]

end Idle

/-! ## The sequential scheduler -/

namespace SequentialTaskScheduler

variable {info : WorkerInfo} {out : List SchedEvent} {s : SequentialTaskScheduler}

/-- **The front is placed** when nothing runs if and only if the cluster covers it on the processes
that it has visited least. -/
theorem Inv.schedulable_iff (h : Inv info out s) (hidle : ∀ id, ¬ Busy out id) {task : Task}
    {rest : List Task} (hqueue : s.tasksQueue = task :: rest) (d : Draw) :
    (∃ s' o, extractInstances info d s = some (s', o) ∧ .refused ∉ o) ↔
      info.Covers (s.placement.history.getTaskHistory task.id)
        (s.placement.getPreferredProc task.id) (instanceBasicSetup task) := by
  have hsound := h.placement.sound
  have hcover : s.placement.CanPlace info (instanceBasicSetup task)
      (s.placement.getPreferredProc task.id) ↔ info.Covers _ _ (instanceBasicSetup task) :=
    fits_of_idle hsound hidle
  rw [instanceBasicSetup_id] at hcover
  rw [← hcover]
  constructor
  · rintro ⟨s', o, hstep, hnot⟩
    rcases extract_cases hsound hstep with ⟨-, -, hnil | hrunning⟩ |
      ⟨task', rest', p', hqueue', -, -, ⟨instance_, -, hplaced⟩ | ⟨rfl, -⟩⟩
    · rw [hqueue] at hnil
      cases hnil
    · exact absurd (h.idle_iff.mpr hidle) hrunning
    · obtain ⟨rfl, -⟩ := List.cons.inj (hqueue.symm.trans hqueue')
      exact hplaced.canPlace
    · exact absurd (List.mem_singleton.mpr rfl) hnot
  · intro hfits
    obtain ⟨⟨p', placed⟩, hplace⟩ := (Placement.place_isSome_iff (d := d) hsound task.id
      (hsound.candidates task.id)).mpr (Task.selectable_of_fits hfits)
    have hspec := hsound.place (hsound.candidates task.id) (instanceBasicSetup_id task) hplace
    have hextract : extractInstances info d s =
        (s.placement.taskToInstance info d task).map
          fun r => ({ s with placement := r.1 }, r.2) := by
      simp only [extractInstances, hqueue, h.idle_iff.mpr hidle, if_true]
    rw [hextract, Placement.taskToInstance, instanceBasicSetup_id, hplace]
    cases placed with
    | some instance_ => exact ⟨_, _, rfl, by simp⟩
    | none => exact absurd hfits hspec.not_canPlace

end SequentialTaskScheduler

/-! ## The greedy scheduler -/

namespace GreedyTaskScheduler

variable {info : WorkerInfo} {out o : List SchedEvent} {s s' : GreedyTaskScheduler} {d : Draw}
  {i j : ℕ} {task : Task}

/-- The task at an index is ready. -/
def ReadyAt (s : GreedyTaskScheduler) (i : ℕ) (task : Task) : Prop :=
  s.tasks[i]? = some task ∧ s.taskStatus[i]? = some .ready

/-- The processes that a task may be placed on. -/
def candidates (info : WorkerInfo) (s : GreedyTaskScheduler) (task : Task) : List ℕ :=
  s.placement.getCandidateProc info task.id (instanceBasicSetup task)

/-- The task at an index is ready and can be placed. -/
def PlaceableAt (info : WorkerInfo) (s : GreedyTaskScheduler) (i : ℕ) : Prop :=
  ∃ task, s.ReadyAt i task ∧
    s.placement.CanPlace info (instanceBasicSetup task) (s.candidates info task)

theorem consider_isSome_iff (h : s.placement.Sound info out)
    (hlength : s.taskStatus.length = s.tasks.length) (htask : s.tasks[i]? = some task) :
    (∃ r, consider info d s i = some r) ↔ (s.ReadyAt i task → task.Selectable) := by
  have hlt : i < s.taskStatus.length := by
    rw [hlength]
    exact (List.getElem?_eq_some_iff.mp htask).1
  have hplace : (∃ r, s.placement.place info d task.id (instanceBasicSetup task)
      (s.placement.getCandidateProc info task.id (instanceBasicSetup task)) = some r) ↔
        (instanceBasicSetup task).Selectable :=
    Placement.place_isSome_iff h task.id (h.getCandidateProc task.id (instanceBasicSetup task))
  rw [Task.selectable_instanceBasicSetup] at hplace
  unfold consider ReadyAt
  simp only [htask, List.getElem?_eq_getElem hlt, Option.bind_eq_bind, Option.bind_some,
    Option.some.injEq, true_and, instanceBasicSetup_id]
  by_cases hready : s.taskStatus[i] = .ready
  · rw [if_pos hready, ← hplace]
    constructor
    · rintro ⟨r, hstep⟩ -
      obtain ⟨placed, hplaced, -⟩ := Option.bind_eq_some_iff.mp hstep
      exact ⟨placed, hplaced⟩
    · intro hsome
      obtain ⟨⟨p', placed⟩, hplaced⟩ := hsome hready
      rw [hplaced]
      cases placed with
      | some instance_ => exact ⟨_, rfl⟩
      | none => exact ⟨_, rfl⟩
  · rw [if_neg hready]
    exact iff_of_true ⟨_, rfl⟩ fun hand => absurd hand hready

/-- What a round does to the tasks: it places the one at its index, or it changes nothing that
matters to the others. -/
theorem consider_spec (h : s.placement.Sound info out)
    (hstep : consider info d s i = some (s', o)) :
    s'.tasks = s.tasks ∧ s'.taskStatus.length = s.taskStatus.length ∧
      (∀ j, j ≠ i → s'.taskStatus[j]? = s.taskStatus[j]?) ∧ s'.placement.Sound info (out ++ o) ∧
      ((s.PlaceableAt info i ∧ ∃ instance_, o = [.issued instance_]) ∨
        (¬ s.PlaceableAt info i ∧ o = [] ∧
          ∀ j, s'.PlaceableAt info j ↔ s.PlaceableAt info j)) := by
  obtain ⟨task, status, htask, hstatus, ⟨hne, rfl, rfl⟩ | ⟨rfl, instance_, p', hplaced, rfl, rfl⟩ |
    ⟨rfl, p', hnot, rfl, rfl⟩⟩ := consider_cases h hstep
  · refine ⟨rfl, rfl, fun _ _ => rfl, by rwa [List.append_nil], .inr ⟨?_, rfl, fun _ => Iff.rfl⟩⟩
    rintro ⟨task', ⟨-, hready⟩, -⟩
    exact hne (Option.some.inj (hstatus.symm.trans hready))
  · refine ⟨rfl, List.length_set .., fun j hj => List.getElem?_set_ne hj.symm, hplaced.sound,
      .inl ⟨⟨task, ⟨htask, hstatus⟩, hplaced.canPlace⟩, instance_, rfl⟩⟩
  · refine ⟨rfl, rfl, fun _ _ => rfl, by rw [List.append_nil]; exact hnot.sound,
      .inr ⟨?_, rfl, fun j => ?_⟩⟩
    · rintro ⟨task', ⟨htask', -⟩, hcan⟩
      obtain rfl := Option.some.inj (htask.symm.trans htask')
      exact hnot.not_canPlace hcan
    · refine exists_congr fun task' => and_congr_right fun _ => ?_
      have hcandidates : candidates info ⟨s.tasks, s.taskStatus, p'⟩ task' =
          s.candidates info task' := by
        simp only [candidates, Placement.getCandidateProc, Placement.getPreferredProc,
          hnot.history_eq]
      rw [hcandidates]
      exact hnot.canPlace_iff h

/-- **The loop** returns when every ready task can be selected for. -/
theorem run_consider_isSome_iff {is : List ℕ} (h : s.placement.Sound info out)
    (hlength : s.taskStatus.length = s.tasks.length) (hnodup : is.Nodup)
    (hlt : ∀ i ∈ is, i < s.tasks.length) :
    (∃ r, run (consider info d) s is = some r) ↔
      ∀ i ∈ is, ∀ task, s.ReadyAt i task → task.Selectable := by
  induction is generalizing s out with
  | nil => exact iff_of_true ⟨_, rfl⟩ nofun
  | cons i is ih =>
      obtain ⟨hi, hnodup⟩ := List.nodup_cons.mp hnodup
      obtain ⟨hlt_i, hlt⟩ := List.forall_mem_cons.mp hlt
      have htask := List.getElem?_eq_getElem hlt_i
      have hfirst := consider_isSome_iff (d := d) h hlength htask
      have hone : (∀ task, s.ReadyAt i task → task.Selectable) ↔
          (s.ReadyAt i s.tasks[i] → s.tasks[i].Selectable) := by
        refine ⟨fun hall => hall _, fun hall task hready => ?_⟩
        obtain rfl := Option.some.inj (htask.symm.trans hready.1)
        exact hall hready
      rw [List.forall_mem_cons, hone, ← hfirst]
      -- what the first round leaves for the others
      have hrest : ∀ r, consider info d s i = some r →
          ((∃ r', run (consider info d) r.1 is = some r') ↔
            ∀ j ∈ is, ∀ task, s.ReadyAt j task → task.Selectable) := by
        rintro ⟨s₁, o₁⟩ hstep
        obtain ⟨htasks, hlen, hothers, hsound, -⟩ := consider_spec h hstep
        rw [ih hsound (hlen.trans (hlength.trans (htasks ▸ rfl))) hnodup (htasks ▸ hlt)]
        refine forall_congr' fun j => forall_congr' fun hj => forall_congr' fun task => ?_
        rw [ReadyAt, ReadyAt, htasks, hothers j fun heq => hi (heq ▸ hj)]
      constructor
      · rintro ⟨r, hrun⟩
        rw [run_cons, Option.bind_eq_some_iff] at hrun
        obtain ⟨r₁, hstep, hrun⟩ := hrun
        obtain ⟨r₂, hrun, -⟩ := Option.bind_eq_some_iff.mp hrun
        exact ⟨⟨r₁, hstep⟩, (hrest r₁ hstep).mp ⟨r₂, hrun⟩⟩
      · rintro ⟨⟨r₁, hstep⟩, hall⟩
        obtain ⟨r₂, hrun⟩ := (hrest r₁ hstep).mpr hall
        exact ⟨_, by rw [run_cons, hstep, Option.bind_some, hrun, Option.bind_some]⟩

/-- **The loop** issues an instance if and only if a task can be placed at its beginning. -/
theorem run_consider_issues_iff {is : List ℕ} (h : s.placement.Sound info out)
    (hrun : run (consider info d) s is = some (s', o)) :
    (∃ instance_, .issued instance_ ∈ o) ↔ ∃ i ∈ is, s.PlaceableAt info i := by
  induction is generalizing s out o with
  | nil =>
      obtain ⟨rfl, rfl⟩ := Prod.mk.inj (Option.some.inj hrun)
      simp
  | cons i is ih =>
      rw [run_cons, Option.bind_eq_some_iff] at hrun
      obtain ⟨⟨s₁, o₁⟩, hstep, hrun⟩ := hrun
      obtain ⟨⟨s₂, o₂⟩, hlast, heq⟩ := Option.bind_eq_some_iff.mp hrun
      obtain ⟨rfl, rfl⟩ := Prod.mk.inj (Option.some.inj heq)
      obtain ⟨-, -, -, hsound, ⟨hplaceable, instance_, rfl⟩ | ⟨hnot, rfl, hsame⟩⟩ :=
        consider_spec h hstep
      · exact iff_of_true ⟨instance_, by simp⟩ ⟨i, List.mem_cons_self .., hplaceable⟩
      · rw [List.nil_append, ih hsound hlast, List.exists_mem_cons_iff, or_iff_right hnot]
        simp only [hsame]

/-- **Something is placed** when nothing runs if and only if the selection returns for every ready
task and the cluster covers one of them. -/
theorem schedulable_iff (h : s.placement.Sound info out)
    (hlength : s.taskStatus.length = s.tasks.length) (hidle : ∀ id, ¬ Busy out id) (d : Draw) :
    (∃ s' o instance_, extractInstances info d s = some (s', o) ∧ .issued instance_ ∈ o) ↔
      (∀ i task, s.ReadyAt i task → task.Selectable) ∧
      ∃ i task, s.ReadyAt i task ∧ info.Covers (s.placement.history.getTaskHistory task.id)
        (s.candidates info task) (instanceBasicSetup task) := by
  have hindex : ∀ {i task}, s.ReadyAt i task → i ∈ List.range s.tasks.length :=
    fun hready => List.mem_range.mpr (List.getElem?_eq_some_iff.mp hready.1).1
  have hreturns := run_consider_isSome_iff (d := d) h hlength List.nodup_range
    fun i => List.mem_range.mp
  have hselectable : (∀ i ∈ List.range s.tasks.length, ∀ task, s.ReadyAt i task →
      task.Selectable) ↔ ∀ i task, s.ReadyAt i task → task.Selectable :=
    ⟨fun hall i task hready => hall i (hindex hready) task hready, fun hall i _ => hall i⟩
  have hcovers : (∃ i ∈ List.range s.tasks.length, s.PlaceableAt info i) ↔
      ∃ i task, s.ReadyAt i task ∧ info.Covers (s.placement.history.getTaskHistory task.id)
        (s.candidates info task) (instanceBasicSetup task) := by
    have hfits : ∀ task, s.placement.CanPlace info (instanceBasicSetup task)
        (s.candidates info task) ↔ info.Covers (s.placement.history.getTaskHistory task.id)
        (s.candidates info task) (instanceBasicSetup task) := by
      intro task
      rw [fits_of_idle h hidle, instanceBasicSetup_id]
    refine exists_congr fun i => ?_
    simp only [PlaceableAt, hfits]
    exact and_iff_right_of_imp fun ⟨task, hready, _⟩ => hindex hready
  rw [← hselectable, ← hreturns, ← hcovers]
  constructor
  · rintro ⟨s', o, instance_, hrun, hmem⟩
    exact ⟨⟨_, hrun⟩, (run_consider_issues_iff h hrun).mp ⟨instance_, hmem⟩⟩
  · rintro ⟨⟨⟨s', o⟩, hrun⟩, hplaceable⟩
    obtain ⟨instance_, hmem⟩ := (run_consider_issues_iff h hrun).mpr hplaceable
    exact ⟨s', o, instance_, hrun, hmem⟩

end GreedyTaskScheduler

/-! ## Every reachable state -/

/-- The status of every task is kept. -/
theorem GreedyTaskScheduler.length_of_reaches {info : WorkerInfo} {out : List SchedEvent}
    {s : GreedyTaskScheduler} (h : Reaches (scheduler info) AnyTasks (.start info) out s) :
    s.placement.Inv info out ∧ s.taskStatus.length = s.tasks.length := by
  refine h.invariant (I := fun out (s : GreedyTaskScheduler) => s.placement.Inv info out ∧
    s.taskStatus.length = s.tasks.length) ⟨Placement.inv_ofCluster info, rfl⟩ ?_ ?_ ?_
  · intro out s s' tasks hs _ hstep
    have hplacement := placement_init hs.1 hstep
    obtain ⟨-, rfl⟩ := init_cases hstep
    exact ⟨hplacement, List.length_replicate ..⟩
  · intro out s s' o d hs hstep
    refine ⟨placement_extract hs.1 hstep, ?_⟩
    refine (run_along (I := fun out (s : GreedyTaskScheduler) => s.placement.Sound info out ∧
      s.taskStatus.length = s.tasks.length) (fun {out s i s' o} hs _ hstep => ?_) ⟨hs.1.sound, hs.2⟩
      (along_of_forall (P := fun _ => True) (fun _ _ => trivial) out s) hstep).2
    obtain ⟨htasks, hlen, -, hsound, -⟩ := consider_spec hs.1 hstep
    exact ⟨hsound, by rw [hlen, htasks, hs.2]⟩
  · intro out s s' id tid time hs hid hstep
    refine ⟨placement_finish hs.1 hid hstep, ?_⟩
    rcases finish_cases hs.1.sound hid hstep with ⟨-, rfl⟩ | ⟨-, idx, task, -, -, rfl⟩
    · exact hs.2
    · rw [List.length_set, List.length_set, hs.2]

/-- **When nothing runs** the sequential scheduler places the front of the queue if and only if the
cluster covers it on the processes that it has visited least; and the greedy scheduler places
something if and only if the selection returns for every ready task and the cluster covers one of
them on its candidates. -/
theorem admitted_schedulable (info : WorkerInfo) :
    (∀ out s, Reaches (SequentialTaskScheduler.scheduler info) AnyTasks (.start info) out s →
      (∀ id, ¬ Busy out id) → ∀ task rest, s.tasksQueue = task :: rest → ∀ d,
        ((∃ s' o, SequentialTaskScheduler.extractInstances info d s = some (s', o) ∧
          .refused ∉ o) ↔
        info.Covers (s.placement.history.getTaskHistory task.id)
          (s.placement.getPreferredProc task.id) (instanceBasicSetup task))) ∧
    (∀ out s, Reaches (GreedyTaskScheduler.scheduler info) AnyTasks (.start info) out s →
      (∀ id, ¬ Busy out id) → ∀ d,
        ((∃ s' o instance_, GreedyTaskScheduler.extractInstances info d s = some (s', o) ∧
          .issued instance_ ∈ o) ↔
        (∀ i task, s.ReadyAt i task → task.Selectable) ∧
        ∃ i task, s.ReadyAt i task ∧ info.Covers (s.placement.history.getTaskHistory task.id)
          (s.candidates info task) (instanceBasicSetup task))) := by
  constructor
  · intro out s h hidle task rest hqueue d
    have hinv := h.invariant (I := SequentialTaskScheduler.Inv info)
      (SequentialTaskScheduler.inv_start info) (fun hs _ hstep => hs.init hstep)
      (fun hs hstep => hs.extract hstep) (fun hs hid hstep => hs.finish hid hstep)
    exact hinv.schedulable_iff hidle hqueue d
  · intro out s h hidle d
    obtain ⟨hinv, hlength⟩ := GreedyTaskScheduler.length_of_reaches h
    exact GreedyTaskScheduler.schedulable_iff hinv.sound hlength hidle d

/-- Two threads on the first of two processes and one on the second. -/
def unevenCluster : WorkerInfo where
  numProcesses := 2
  globalTids := [0, 1, 2]
  processId tid := if tid < 2 then 0 else 1
  nodup := by decide
  processId_lt := by decide

/-- A local task of two epochs with two workers. -/
def twoLocalWorkers : Task := ⟨0, 2, 0, 2, .basic, true⟩

/-- Its first epoch is placed on the first process. -/
theorem admitted_schedulable_twoLocalWorkers :
    (∃ s' o, SequentialTaskScheduler.extractInstances unevenCluster .plain
      ⟨[twoLocalWorkers], .ofCluster unevenCluster⟩ = some (s', o) ∧ .refused ∉ o) ∧
    ∃ s' o instance_, GreedyTaskScheduler.extractInstances unevenCluster .plain
      ⟨[twoLocalWorkers], [.ready], .ofCluster unevenCluster⟩ = some (s', o) ∧
      .issued instance_ ∈ o := by
  obtain ⟨hsequential, hgreedy⟩ := admitted_schedulable unevenCluster
  have hidle : ∀ id, ¬ Busy [.submitted [twoLocalWorkers]] id := by
    rintro id ⟨tid, hid⟩
    cases hid
  constructor
  · refine (hsequential _ _ ⟨[.initTasks [twoLocalWorkers]], ?_, rfl⟩ hidle twoLocalWorkers [] rfl
      .plain).mpr ⟨by decide, 0, by decide, by decide⟩
    exact along_cons rfl ⟨trivial, fun _ _ => trivial⟩ trivial
  · refine (hgreedy _ _ ⟨[.initTasks [twoLocalWorkers]], ?_, rfl⟩ hidle .plain).mpr
      ⟨fun i task hready => ?_, 0, twoLocalWorkers, ⟨rfl, rfl⟩, by decide, 0, by decide, by decide⟩
    · exact along_cons rfl ⟨trivial, fun _ _ => trivial⟩ trivial
    · obtain rfl := List.mem_singleton.mp (List.mem_of_getElem? hready.1)
      trivial

/-- Tasks that ask for workers. -/
def AskForWorkers {σ : Type} (_ : List SchedEvent) (_ : σ) (tasks : List Task) : Prop :=
  ∀ task ∈ tasks, 0 < task.numWorkers

/-- **The second epoch is confined to the second process**, which has one thread: the task has been
admitted, nothing runs, and neither scheduler places it. -/
theorem second_epoch_not_placed :
    (¬ ∀ info out s, Reaches (SequentialTaskScheduler.scheduler info) AskForWorkers (.start info)
      out s → (∀ id, ¬ Busy out id) → s.isFinished = false → ∀ d,
        ∃ s' o, SequentialTaskScheduler.extractInstances info d s = some (s', o) ∧ .refused ∉ o) ∧
    ¬ ∀ info out s, Reaches (GreedyTaskScheduler.scheduler info) AskForWorkers (.start info)
      out s → (∀ id, ¬ Busy out id) → s.isFinished = false → ∀ d,
        ∃ s' o instance_, GreedyTaskScheduler.extractInstances info d s = some (s', o) ∧
          .issued instance_ ∈ o := by
  have hidle : ∀ id, ¬ Busy [.submitted [twoLocalWorkers],
      .issued ⟨twoLocalWorkers, [(0, 1), (0, 0)]⟩, .finished 0 0, .finished 0 1] id := by
    rintro id ⟨tid, hid⟩
    have hnone : holders [.submitted [twoLocalWorkers],
        .issued ⟨twoLocalWorkers, [(0, 1), (0, 0)]⟩, .finished 0 0, .finished 0 1] tid = [] := by
      rcases tid with _ | _ | tid
      · rfl
      · rfl
      · rfl
    rw [hnone] at hid
    cases hid
  have hasks : ∀ tasks, SchedInput.initTasks [twoLocalWorkers] = .initTasks tasks →
      ∀ task ∈ tasks, 0 < task.numWorkers := by
    rintro _ ⟨⟩
    decide
  constructor
  · intro h
    have hrun : run (schedStep (SequentialTaskScheduler.scheduler unevenCluster))
        (.start unevenCluster) [.initTasks [twoLocalWorkers], .extractInstances .plain,
          .finishThread 0 0 0, .finishThread 0 1 0] = some (_, [.submitted [twoLocalWorkers],
          .issued ⟨twoLocalWorkers, [(0, 1), (0, 0)]⟩, .finished 0 0, .finished 0 1]) := rfl
    have hplaced := h unevenCluster _ _ ⟨_, ?_, hrun⟩ hidle rfl .plain
    · obtain ⟨s', o, hstep, hnot⟩ := hplaced
      obtain ⟨-, rfl⟩ := Prod.mk.inj (Option.some.inj hstep)
      exact hnot (List.mem_singleton.mpr rfl)
    · apply along_cons rfl ⟨trivial, hasks⟩
      apply along_cons rfl ⟨trivial, nofun⟩
      apply along_cons rfl ⟨by decide, nofun⟩
      apply along_cons rfl ⟨by decide, nofun⟩
      trivial
  · intro h
    have hrun : run (schedStep (GreedyTaskScheduler.scheduler unevenCluster))
        (.start unevenCluster) [.initTasks [twoLocalWorkers], .extractInstances .plain,
          .finishThread 0 0 0, .finishThread 0 1 0] = some (_, [.submitted [twoLocalWorkers],
          .issued ⟨twoLocalWorkers, [(0, 1), (0, 0)]⟩, .finished 0 0, .finished 0 1]) := rfl
    have hplaced := h unevenCluster _ _ ⟨_, ?_, hrun⟩ hidle rfl .plain
    · obtain ⟨s', o, instance_, hstep, hmem⟩ := hplaced
      obtain ⟨-, rfl⟩ := Prod.mk.inj (Option.some.inj hstep)
      cases hmem
    · apply along_cons rfl ⟨trivial, hasks⟩
      apply along_cons rfl ⟨trivial, nofun⟩
      apply along_cons rfl ⟨by decide, nofun⟩
      apply along_cons rfl ⟨by decide, nofun⟩
      trivial

end FlexPS.Scheduler
