import FlexPS.Scheduler.SearchSpace

/-!
# The workers of a sub-epoch

A sub-epoch is run by the same number of threads of every process.  Everything the policy knows to
be good has been run before, so that the processes have as many threads; only when it tries one more
worker per process than ever before may a process be too small, for the bound of ten is the same for
all clusters.

## Main definitions

* `AutoParallelismPolicy.Grows` — one more worker per process is tried next.
* `AutoParallelismTaskScheduler.GetsWorkers` — every process gives the threads that are planned.
* `AutoParallelismTaskScheduler.workers_per_process` — when that is so.
-/

namespace FlexPS.Scheduler

open Lib

/-- Every process has as many threads. -/
def WorkerInfo.HasPerProcess (info : WorkerInfo) (workers : ℤ) : Prop :=
  ∀ pid < info.numProcesses, workers ≤ info.numLocalWorkers pid

theorem hasPerProcess_zero (info : WorkerInfo) : info.HasPerProcess 0 :=
  fun _ _ => Int.natCast_nonneg _

namespace AutoParallelismPolicy

variable {info : WorkerInfo} {p p' : AutoParallelismPolicy} {best : ℤ}

/-- One more worker per process is tried next: the stage has been tried, its last sub-epoch was not
worse than the one before it, and the bound is not reached. -/
def Grows (p : AutoParallelismPolicy) : Prop :=
  p.fixed = false ∧ p.currentWorkerPerProcess ≠ 0 ∧ ¬ p.Worse ∧
    p.currentWorkerPerProcess < p.maxWorkerPerProcess

/-- Every process has as many threads as the policy has tried or found to be the best. -/
structure Affordable (info : WorkerInfo) (p : AutoParallelismPolicy) : Prop where
  current : info.HasPerProcess p.currentWorkerPerProcess
  tried : ∀ w ∈ p.workerPerProcessHistory, info.HasPerProcess w
  history : ∀ kv ∈ p.batchsizeToBestParallelismHistory, info.HasPerProcess kv.2

/-- The pruned search space begins with the best parallelism of a batch size, or where it began. -/
theorem prune_fst (batchsize : ℤ) (history : List (ℤ × ℤ)) (min max : ℤ) :
    (prune batchsize history (min, max)).1 = min ∨
      ∃ kv ∈ history, (prune batchsize history (min, max)).1 = kv.2 := by
  induction history generalizing min with
  | nil => exact .inl rfl
  | cons kv history ih =>
      rw [prune]
      split
      · rcases ih kv.2 with heq | ⟨kv', hmem, heq⟩
        · exact .inr ⟨kv, List.mem_cons_self .., heq⟩
        · exact .inr ⟨kv', List.mem_cons_of_mem _ hmem, heq⟩
      · exact .inl rfl

theorem findBest_mem {batchsize : ℤ} (h : p.findBest batchsize = some best) :
    ∃ kv ∈ p.batchsizeToBestParallelismHistory, kv.2 = best := by
  obtain ⟨kv, hkv, heq⟩ := Option.map_eq_some_iff.mp h
  exact ⟨kv, List.mem_of_find?_eq_some hkv, heq⟩

/-- A plan adds nothing to what is known but itself. -/
structure Adds (p p' : AutoParallelismPolicy) : Prop where
  tried : p'.workerPerProcessHistory = p.workerPerProcessHistory
  history : ∀ kv ∈ p'.batchsizeToBestParallelismHistory,
    kv ∈ p.batchsizeToBestParallelismHistory ∨ kv.2 = p'.currentWorkerPerProcess

theorem mem_keptHistory {kv : ℤ × ℤ} (hkv : kv ∈ p.keptHistory best) :
    kv ∈ p.batchsizeToBestParallelismHistory ∨ kv.2 = best := by
  unfold keptHistory at hkv
  split at hkv
  · unfold insertBest at hkv
    split at hkv
    · exact .inl hkv
    · rcases (List.mem_orderedInsert _).mp hkv with rfl | hkv
      · exact .inr rfl
      · exact .inl hkv
  · exact .inl hkv

theorem adds_of_fix (h : p.fixParallelism best = some p') :
    p'.currentWorkerPerProcess = best ∧ p.Adds p' := by
  rw [fixParallelism_eq] at h
  split at h
  · obtain rfl := Option.some.inj h
    exact ⟨rfl, rfl, fun _ hkv => mem_keptHistory hkv⟩
  · cases h

theorem adds_of_workers {p' : AutoParallelismPolicy}
    (htried : p'.workerPerProcessHistory = p.workerPerProcessHistory)
    (hhistory : p'.batchsizeToBestParallelismHistory = p.batchsizeToBestParallelismHistory) :
    p.Adds p' := by
  refine ⟨htried, fun kv hkv => .inl ?_⟩
  rwa [hhistory] at hkv

/-- Before its first sub-epoch a stage has no trial that could be worse. -/
theorem not_worse_of_zero (h : p.subEpoch = 0) : ¬ p.Worse := fun hworse => by
  have := hworse.1
  omega

/-- **A plan** is a number of workers that every process is known to have, unless one more is
tried. -/
theorem Affordable.generatePlan (h : p.Affordable info) (hone : info.HasPerProcess 1) (hspace : p.InSpace)
    (hplan : p.generatePlan = some p') : p.Adds p' ∧
      ((¬ p.Grows ∧ info.HasPerProcess p'.currentWorkerPerProcess) ∨
        (p.Grows ∧ p'.currentWorkerPerProcess = p.currentWorkerPerProcess + 1)) := by
  unfold AutoParallelismPolicy.generatePlan at hplan
  split at hplan
  · next hfixed =>
      obtain rfl := Option.some.inj hplan
      refine ⟨adds_of_workers rfl rfl, .inl ⟨fun hgrows => ?_, h.current⟩⟩
      rw [hgrows.1] at hfixed
      cases hfixed
  · next hfixed =>
      rw [Bool.not_eq_true] at hfixed
      rcases subGeneratePlan_cases hplan with ⟨hlater, hplan⟩ | ⟨hfirst, hplan⟩
      · rcases increase_cases hplan with ⟨hworse, best, hbest, hfix⟩ | ⟨hnot, rfl⟩
        · obtain ⟨rfl, hadds⟩ := adds_of_fix hfix
          have hfits := h.tried _ (List.mem_of_getElem? hbest)
          exact ⟨hadds, .inl ⟨fun hgrows => hgrows.2.2.1 hworse, hfits⟩⟩
        · refine ⟨adds_of_workers rfl rfl, ?_⟩
          obtain ⟨-, hmax⟩ := hspace.current hlater
          by_cases hlt : p.currentWorkerPerProcess < p.maxWorkerPerProcess
          · refine .inr ⟨⟨hfixed, hlater, hnot, hlt⟩, ?_⟩
            rw [oneMore, if_neg (by omega)]
          · refine .inl ⟨fun hgrows => hlt hgrows.2.2.2, ?_⟩
            have hbound : p.oneMore.currentWorkerPerProcess = p.currentWorkerPerProcess := by
              rw [oneMore, if_pos (by omega)]
              exact le_antisymm (not_lt.mp hlt) hmax
            rw [hbound]
            exact h.current
      · -- The first sub-epoch of a stage: nothing is tried beyond what is known.
        obtain ⟨-, hsub, hmin, hmax⟩ := hspace.first hfirst
        have hlow : info.HasPerProcess p.pruned.minWorkerPerProcess := by
          rcases prune_fst p.currentBatchsize p.batchsizeToBestParallelismHistory
            p.minWorkerPerProcess p.maxWorkerPerProcess with heq | ⟨kv, hkv, heq⟩
          · rw [pruned, heq, hmin]
            exact hone
          · rw [pruned, heq]
            exact h.history kv hkv
        suffices hfits : p.Adds p' ∧ info.HasPerProcess p'.currentWorkerPerProcess from
          ⟨hfits.1, .inl ⟨fun hgrows => hgrows.2.1 hfirst, hfits.2⟩⟩
        rcases hplan with ⟨best, hbest, hfix⟩ | ⟨-, -, hplan⟩ | ⟨-, -, ⟨-, hfix⟩ | ⟨hlt, hplan⟩⟩
        · obtain ⟨rfl, hadds⟩ := adds_of_fix hfix
          obtain ⟨kv, hkv, hbest⟩ := findBest_mem hbest
          rw [← hbest]
          exact ⟨hadds, h.history kv hkv⟩
        · rcases increase_cases hplan with ⟨hworse, -⟩ | ⟨-, rfl⟩
          · exact absurd hworse (not_worse_of_zero hsub)
          · refine ⟨adds_of_workers rfl rfl, ?_⟩
            rw [oneMore, hfirst, hmax]
            exact hone
        · obtain ⟨hcurrent, hadds⟩ := adds_of_fix hfix
          rw [hcurrent]
          exact ⟨⟨hadds.tried, hadds.history⟩, hlow⟩
        · rcases increase_cases hplan with ⟨hworse, -⟩ | ⟨-, rfl⟩
          · exact absurd hworse (not_worse_of_zero hsub)
          · refine ⟨adds_of_workers rfl rfl, ?_⟩
            have hnext : p.pruned.minWorkerPerProcess - 1 + 1 = p.pruned.minWorkerPerProcess :=
              sub_add_cancel _ _
            rw [oneMore]
            simp only [hnext, if_neg hlt.le.not_gt]
            exact hlow

/-- A plan that has been run is known to fit. -/
theorem Affordable.planned (h : p.Affordable info) (hadds : p.Adds p')
    (hfits : info.HasPerProcess p'.currentWorkerPerProcess) : p'.Affordable info where
  current := hfits
  tried := by
    rw [hadds.tried]
    exact h.tried
  history kv hkv := by
    rcases hadds.history kv hkv with hkv | heq
    · exact h.history kv hkv
    · rwa [heq]

theorem Affordable.finishSubepoch (h : p.Affordable info) (time : ℕ) :
    (p.finishSubepoch time).1.Affordable info := by
  refine ⟨h.current, fun w hw => ?_, h.history⟩
  rcases List.mem_append.mp hw with hw | hw
  · exact h.tried w hw
  · rw [List.mem_singleton.mp hw]
    exact h.current

theorem Affordable.resetStage (h : p.Affordable info) : p.resetStage.Affordable info :=
  ⟨hasPerProcess_zero info, fun _ hw => absurd hw List.not_mem_nil, h.history⟩

theorem Affordable.startStage (h : p.Affordable info) {totalIters batchsize : ℤ}
    (hstart : p.startStage totalIters batchsize = some p') : p'.Affordable info := by
  have hnew : Affordable info { p with
      numTotalIters := totalIters
      currentBatchsize := batchsize } := ⟨h.current, h.tried, h.history⟩
  unfold AutoParallelismPolicy.startStage at hstart
  simp only at hstart
  split at hstart
  · next best hfind =>
      split at hstart
      · obtain ⟨rfl, hadds⟩ := adds_of_fix hstart
        obtain ⟨kv, hkv, heq⟩ := findBest_mem hfind
        exact hnew.planned hadds (heq ▸ h.history kv hkv)
      · exact Option.some.inj hstart ▸ hnew
  · exact Option.some.inj hstart ▸ hnew

end AutoParallelismPolicy

namespace AutoParallelismTaskScheduler

open AutoParallelismPolicy

variable {info : WorkerInfo} {out o : List SchedEvent} {s s' : AutoParallelismTaskScheduler}
  {queue rest : List Task} {policy policy' : AutoParallelismPolicy} {task : Task} {d : Draw}
  {id tid time epoch : ℕ}

/-! ## What is known stays affordable -/

theorem affordable_startStage (h : policy.Affordable info)
    (hstart : startStage policy task epoch = some policy') : policy'.Affordable info := by
  unfold startStage at hstart
  split at hstart
  · obtain ⟨iters, -, hstart⟩ := Option.bind_eq_some_iff.mp hstart
    split at hstart
    · exact h.startStage hstart
    · split at hstart
      · obtain ⟨batchsize, -, hstart⟩ := Option.bind_eq_some_iff.mp hstart
        exact h.startStage hstart
      · cases hstart
  · exact Option.some.inj hstart ▸ h

theorem affordable_startNext (h : policy.Affordable info)
    (hstart : startNext policy rest = some policy') : policy'.Affordable info := by
  cases rest with
  | nil => exact Option.some.inj hstart ▸ h
  | cons task rest => exact affordable_startStage h hstart

theorem affordable_nextEpoch (h : policy.Affordable info)
    (hnext : nextEpoch policy task rest time = some (queue, policy')) :
    policy'.Affordable info := by
  have hfinished := h.finishSubepoch time
  have hstage : ∀ {p : AutoParallelismPolicy}, p.Affordable info →
      NextStage p task rest queue policy' → policy'.Affordable info := by
    intro p hp hnext
    unfold NextStage at hnext
    split at hnext
    · exact affordable_startNext hp hnext.2
    · exact affordable_startStage hp hnext.2
  rcases nextEpoch_cases hnext with ⟨_, _, _, -, ⟨-, hnext⟩ | ⟨-, -, rfl⟩⟩ | ⟨-, hnext⟩
  · exact hstage hfinished.resetStage hnext
  · exact hfinished
  · exact hstage h hnext

/-- A plan that gets its workers fits. -/
theorem hasPerProcess_of_issue (h : s.placement.Inv info out) {epochIters batchsizes : List ℤ}
    (hplan : s.policy.generatePlan = some policy)
    (hstep : taskToInstanceAutoParallelism info d s task epochIters batchsizes = some (s', o)) :
    info.HasPerProcess policy.currentWorkerPerProcess := by
  have hagree := h.sound.accounts.agree
  have hne : (s.placement.availableWorkers.getWorkersPerProcess d
      policy.currentWorkerPerProcess.toNat info.numProcesses).1 ≠ [] := by
    intro hnil
    rw [taskToInstanceAutoParallelism, hplan] at hstep
    simp [hnil] at hstep
  obtain ⟨-, -, hall⟩ := (AvailableWorkers.getWorkersPerProcess_ne_nil hagree _ _).mp hne
  intro pid hpid
  have hfree := h.sound.accounts.length_tids_le pid
  have hle := hall pid hpid
  omega

/-- The invariant of runs. -/
structure DemandInv (info : WorkerInfo) (out : List SchedEvent) (s : AutoParallelismTaskScheduler) :
    Prop extends SpaceInv info out s where
  affordable : s.policy.Affordable info

theorem DemandInv.init (h : DemandInv info out s) {tasks : List Task}
    (haccepts : Submitted out s tasks) (hstep : initTasks s tasks = some s') :
    DemandInv info (out ++ [.submitted tasks]) s' := by
  refine ⟨h.toSpaceInv.init haccepts hstep, ?_⟩
  obtain ⟨task, -, hstep⟩ := Option.bind_eq_some_iff.mp hstep
  obtain ⟨policy, hstart, hstep⟩ := Option.bind_eq_some_iff.mp hstep
  obtain rfl := Option.some.inj hstep
  exact affordable_startStage h.affordable hstart

theorem DemandInv.extract (hone : info.HasPerProcess 1) (h : DemandInv info out s)
    (hstep : extractInstances info d s = some (s', o)) : DemandInv info (out ++ o) s' := by
  refine ⟨h.toSpaceInv.extract hstep, ?_⟩
  rcases extract_cases hstep with ⟨rfl, rfl, -⟩ | ⟨task, rest, -, -, ⟨_, _, _, -, hissue⟩ |
    ⟨-, placement, -, rfl⟩⟩
  · exact h.affordable
  · obtain ⟨policy, workers, threads, placement, hplan, -, -, rfl, -⟩ :=
      issue_cases h.front.placement hissue
    obtain ⟨hadds, -⟩ := h.affordable.generatePlan hone h.stage.space hplan
    exact h.affordable.planned hadds (hasPerProcess_of_issue h.front.placement hplan hissue)
  · exact h.affordable

theorem DemandInv.finish (h : DemandInv info out s) (hid : id ∈ holders out tid)
    (hstep : finishThread info s id tid time = some s') :
    DemandInv info (out ++ [.finished id tid]) s' := by
  refine ⟨h.toSpaceInv.finish hid hstep, ?_⟩
  rcases finish_cases h.front.placement.sound hid hstep with ⟨-, rfl⟩ |
    ⟨-, task, rest, queue, policy, -, hnext, rfl⟩
  · exact h.affordable
  · exact affordable_nextEpoch h.affordable hnext

theorem demandInv_of_reaches (hone : info.HasPerProcess 1)
    (h : Reaches (scheduler info) Submitted (.start info) out s) : DemandInv info out s := by
  refine h.invariant ⟨spaceInv_start info, ?_⟩ (fun hI hacc hstep => hI.init hacc hstep)
    (fun hI hstep => hI.extract hone hstep) fun hI hid hstep => hI.finish hid hstep
  exact ⟨hasPerProcess_zero info, fun _ hw => absurd hw List.not_mem_nil,
    fun _ hkv => absurd hkv List.not_mem_nil⟩

/-! ## The selection -/

/-- As many threads of every process, each once. -/
structure Exactly (info : WorkerInfo) (workers : ℤ) (selected : List (ℕ × ℕ)) : Prop where
  ne_nil : selected ≠ []
  nodup : selected.Nodup
  mem : ∀ p ∈ selected, p.1 < info.numProcesses ∧ p.2 ∈ info.localTids p.1
  each : ∀ pid < info.numProcesses, ((selected.filter fun p => p.1 = pid).length : ℤ) = workers

/-- **The sub-epoch gets its workers**: every process gives the number of threads that is planned. -/
def GetsWorkers (info : WorkerInfo) (s : AutoParallelismTaskScheduler) : Prop :=
  ∃ policy, s.policy.generatePlan = some policy ∧ ∀ d, Exactly info policy.currentWorkerPerProcess
    (s.placement.availableWorkers.getWorkersPerProcess d policy.currentWorkerPerProcess.toNat
      info.numProcesses).1

/-- When nothing runs a plan gets its workers if every process has as many threads. -/
theorem exactly_iff (h : s.placement.Inv info out) (hidle : ∀ id, ¬ Busy out id)
    (hproc : 0 < info.numProcesses) {workers : ℤ} (hpos : 1 ≤ workers) (d : Draw) :
    Exactly info workers (s.placement.availableWorkers.getWorkersPerProcess d workers.toNat
      info.numProcesses).1 ↔ info.HasPerProcess workers := by
  have hagree := h.sound.accounts.agree
  have hfree : ∀ pid, (s.placement.availableWorkers.tids pid).length = info.numLocalWorkers pid :=
    h.sound.accounts.length_tids_of_idle fun tid =>
      List.eq_nil_iff_forall_not_mem.mpr fun id hid => hidle id ⟨tid, hid⟩
  have hiff := AvailableWorkers.getWorkersPerProcess_ne_nil (d := d) hagree workers.toNat
    info.numProcesses
  simp only [hfree] at hiff
  constructor
  · intro hexactly pid hpid
    have := (hiff.mp hexactly.ne_nil).2.2 pid hpid
    omega
  · intro hfits
    have hne := hiff.mpr ⟨by omega, hproc, fun pid hpid => by
      have := hfits pid hpid
      omega⟩
    have htakes := AvailableWorkers.takes_getWorkersPerProcess (d := d) hagree workers.toNat
      info.numProcesses
    obtain ⟨hprocs, heach⟩ := AvailableWorkers.getWorkersPerProcess_spec hagree _ _ hne
    refine ⟨hne, htakes.nodup, fun p hp => ⟨hprocs p hp, ?_⟩, fun pid hpid => ?_⟩
    · exact h.sound.accounts.mem_localTids (htakes.free p hp)
    · rw [heach pid hpid]
      omega

/-- Whether every process has one thread more when one more is tried. -/
def RoomToGrow (info : WorkerInfo) (s : AutoParallelismTaskScheduler) : Prop :=
  s.policy.Grows → info.HasPerProcess (s.policy.currentWorkerPerProcess + 1)

/-- **A sub-epoch gets its workers** exactly when it does not try more of them than a process has;
otherwise the assertion on the selection fails. -/
theorem workers_per_process (info : WorkerInfo) (hproc : 0 < info.numProcesses)
    (hthreads : ∀ pid < info.numProcesses, 0 < info.numLocalWorkers pid) (out : List SchedEvent)
    (s : AutoParallelismTaskScheduler)
    (h : Reaches (scheduler info) Submitted (.start info) out s) (task : Task) (rest : List Task)
    (epochIters batchsizes : List ℤ) (current : ℤ) (hqueue : s.tasksQueue = task :: rest)
    (htype : task.type = .autoParallelism epochIters batchsizes current)
    (hempty : s.placement.taskIdPidTids.isEmpty = true) :
    (s.GetsWorkers info ↔ s.RoomToGrow info) ∧
      (¬ s.RoomToGrow info → ∀ d, extractInstances info d s = none) := by
  have hone : info.HasPerProcess 1 := fun pid hpid => by
    have := hthreads pid hpid
    omega
  have hinv := demandInv_of_reaches hone h
  have hidle := hinv.front.idle_iff.mp hempty
  obtain ⟨policy, hplan, hin⟩ := hinv.stage.space.generatePlan
  obtain ⟨-, hnext⟩ := hinv.affordable.generatePlan hone hinv.stage.space hplan
  have hpos : 1 ≤ policy.currentWorkerPerProcess := by
    have := hin.range.1
    have := (hin.current hin.planned).1
    omega
  have hroom : s.RoomToGrow info ↔ info.HasPerProcess policy.currentWorkerPerProcess := by
    rcases hnext with ⟨hnot, hfits⟩ | ⟨hgrows, heq⟩
    · exact iff_of_true (fun hgrows => absurd hgrows hnot) hfits
    · rw [heq]
      exact forall_prop_of_true hgrows
  have hexactly := exactly_iff hinv.front.placement hidle hproc hpos
  refine ⟨?_, fun hnot d => ?_⟩
  · rw [hroom]
    constructor
    · rintro ⟨policy', hplan', hgets⟩
      obtain rfl := Option.some.inj (hplan.symm.trans hplan')
      exact (hexactly .plain).mp (hgets .plain)
    · exact fun hfits => ⟨policy, hplan, fun d => (hexactly d).mpr hfits⟩
  · by_contra hsome
    obtain ⟨⟨s', o⟩, hstep⟩ := Option.ne_none_iff_exists'.mp hsome
    have hissue : taskToInstanceAutoParallelism info d s task epochIters batchsizes =
        some (s', o) := by
      rw [← hstep]
      simp only [extractInstances, hqueue, hempty, if_true, htype]
    exact hnot (hroom.mpr (hasPerProcess_of_issue hinv.front.placement hplan hissue))

/-- A stage is submitted, and its first sub-epoch is run by one worker. -/
def firstTrial (tid : ℕ) : List SchedInput :=
  [.initTasks [stageTask 20], .extractInstances .plain, .finishThread 0 tid 5]

/-- Two threads are enough for the second sub-epoch. -/
theorem workers_per_process_twoThreads : ∃ s : AutoParallelismTaskScheduler,
    s.policy.currentWorkerPerProcess = 1 ∧ s.policy.Grows ∧ s.GetsWorkers (.oneProcess 2) := by
  have hrun : (run (schedStep (scheduler (.oneProcess 2))) (.start (.oneProcess 2))
      (firstTrial 1)).map (fun r => (r.1.tasksQueue, r.1.placement.taskIdPidTids.isEmpty,
        r.1.policy.subEpoch, r.1.policy.fixed, r.1.policy.currentWorkerPerProcess,
        r.1.policy.maxWorkerPerProcess)) = some ([stageTask 20], true, 1, false, 1, 10) := rfl
  obtain ⟨⟨s, out⟩, hrun, heq⟩ := Option.map_eq_some_iff.mp hrun
  simp only [Prod.mk.injEq] at heq
  obtain ⟨hqueue, hempty, hsub, hfixed, hcurrent, hmax⟩ := heq
  have hgrows : s.policy.Grows := by
    refine ⟨hfixed, by rw [hcurrent]; decide, fun hworse => ?_, by rw [hcurrent, hmax]; decide⟩
    exact absurd hworse.1 (by rw [hsub]; decide)
  refine ⟨s, hcurrent, hgrows, (workers_per_process (.oneProcess 2) Nat.one_pos ?_ out s
    ⟨_, ?_, hrun⟩ _ _ _ _ _ hqueue rfl hempty).1.mpr fun _ => ?_⟩
  · decide
  · apply along_cons rfl ⟨trivial, fun _ _ => rfl⟩
    apply along_cons rfl ⟨trivial, nofun⟩
    apply along_cons rfl ⟨by decide, nofun⟩
    trivial
  · rw [hcurrent]
    intro pid hpid
    obtain rfl := Nat.lt_one_iff.mp hpid
    decide

/-- **One thread is not enough**: the second sub-epoch of a stage is planned for two workers per
process, whatever the cluster. -/
theorem second_worker_missing : ¬ ∀ (info : WorkerInfo), 0 < info.numProcesses →
    (∀ pid < info.numProcesses, 0 < info.numLocalWorkers pid) → ∀ (out : List SchedEvent)
    (s : AutoParallelismTaskScheduler), Reaches (scheduler info) Submitted (.start info) out s →
    ∀ task rest epochIters batchsizes current, s.tasksQueue = task :: rest →
      task.type = .autoParallelism epochIters batchsizes current →
      s.placement.taskIdPidTids.isEmpty = true → s.GetsWorkers info := by
  intro hclaim
  have hrun : (run (schedStep (scheduler (.oneProcess 1))) (.start (.oneProcess 1))
      (firstTrial 0)).map (fun r => (r.1.tasksQueue, r.1.placement.taskIdPidTids.isEmpty,
        r.1.policy.generatePlan.map fun policy => (r.1.placement.availableWorkers.getWorkersPerProcess
          .plain policy.currentWorkerPerProcess.toNat 1).1)) =
      some ([stageTask 20], true, some []) := rfl
  obtain ⟨⟨s, out⟩, hrun, heq⟩ := Option.map_eq_some_iff.mp hrun
  simp only [Prod.mk.injEq] at heq
  obtain ⟨hqueue, hempty, hnone⟩ := heq
  have hreaches : Reaches (scheduler (.oneProcess 1)) Submitted (.start (.oneProcess 1)) out s := by
    refine ⟨_, ?_, hrun⟩
    apply along_cons rfl ⟨trivial, fun _ _ => rfl⟩
    apply along_cons rfl ⟨trivial, nofun⟩
    apply along_cons rfl ⟨by decide, nofun⟩
    trivial
  obtain ⟨policy, hplan, hgets⟩ := hclaim (.oneProcess 1) Nat.one_pos (by decide) out s hreaches
    _ _ _ _ _ hqueue rfl hempty
  rw [hplan, Option.map_some] at hnone
  exact (hgets .plain).ne_nil (Option.some.inj hnone)

end AutoParallelismTaskScheduler

end FlexPS.Scheduler
