import FlexPS.Scheduler.GreedyTaskScheduler
import FlexPS.Scheduler.PriorityTaskScheduler
import FlexPS.Scheduler.SequentialTaskScheduler

/-!
# Every epoch runs exactly once and in order

Tasks are submitted once, and then instances are extracted and threads finish in any order.

## Main definitions

* `EpochsInOrder` — what holds of the history.
* `epochs_run_once` — it holds for the sequential, the greedy and the priority scheduler.
-/

namespace FlexPS.Scheduler

open Lib

/-- **Every epoch is issued once, in order, and when the one before it is over**; the scheduler is
finished when all tasks are completed. -/
structure EpochsInOrder {σ : Type} (S : TaskScheduler σ) (tasks : List Task)
    (out : List SchedEvent) (s : σ) : Prop where
  inOrder : Throughout (InOrder tasks) out
  finished_iff : S.isFinished s = true ↔ ∀ task ∈ tasks, Completed out task

section

variable {info : WorkerInfo} {tasks : List Task} {out : List SchedEvent}

theorem sequential_epochs (hfresh : Fresh 0 tasks) {s₀ s : SequentialTaskScheduler}
    (hinit : SequentialTaskScheduler.initTasks info (.start info) tasks = some s₀)
    (h : Reaches (SequentialTaskScheduler.scheduler info) NoTasks s₀ out s) :
    EpochsInOrder (SequentialTaskScheduler.scheduler info) tasks out s ∧
      Throughout (SequentialTaskScheduler.InTurn tasks) out := by
  have hstart : SequentialTaskScheduler.Inv info [] s₀ := by
    obtain ⟨-, rfl⟩ := SequentialTaskScheduler.init_cases hinit
    have hs := SequentialTaskScheduler.inv_start info
    exact ⟨hs.placement, hs.keys, fun id hid => absurd hid (not_busy_nil id)⟩
  obtain ⟨hinv, hprogress⟩ := h.invariant (I := fun out s => SequentialTaskScheduler.Inv info out s ∧
      SequentialTaskScheduler.Progress tasks out s)
    ⟨hstart, SequentialTaskScheduler.progress_init hfresh hinit⟩ (fun _ hno _ => hno.elim)
    (fun hs hstep => ⟨hs.1.extract hstep, hs.2.extract hs.1 hfresh hstep⟩)
    (fun hs hid hstep => ⟨hs.1.finish hid hstep, hs.2.finish hs.1 hfresh hid hstep⟩)
  exact ⟨⟨hprogress.inOrder, hprogress.isFinished_iff hfresh⟩, hprogress.inTurn⟩

theorem greedy_epochs (hfresh : Fresh 0 tasks) {s₀ s : GreedyTaskScheduler}
    (hinit : GreedyTaskScheduler.initTasks info (.start info) tasks = some s₀)
    (h : Reaches (GreedyTaskScheduler.scheduler info) NoTasks s₀ out s) :
    EpochsInOrder (GreedyTaskScheduler.scheduler info) tasks out s := by
  have hnodup : (tasks.map Task.id).Nodup := by
    have hids : tasks.map Task.id = List.range tasks.length := by
      refine List.ext_getElem (by simp) fun i hi hi' => ?_
      rw [List.length_map] at hi
      simpa using hfresh.ids i _ (List.getElem?_eq_getElem hi)
    rw [hids]
    exact List.nodup_range
  have hstart : GreedyTaskScheduler.Inv info [] s₀ := by
    obtain ⟨-, rfl⟩ := GreedyTaskScheduler.init_cases hinit
    refine ⟨Placement.inv_ofCluster info, List.length_replicate .., hnodup, fun i task htask => ?_,
      fun id hid => absurd hid (not_busy_nil id)⟩
    refine iff_of_false (fun heq => ?_) (not_busy_nil _)
    rw [List.getElem?_replicate] at heq
    split at heq
    · cases heq
    · cases heq
  obtain ⟨hinv, hcounts⟩ := h.invariant (I := fun out s => GreedyTaskScheduler.Inv info out s ∧
      GreedyTaskScheduler.Counts tasks out s)
    ⟨hstart, GreedyTaskScheduler.counts_init hfresh hinit⟩ (fun _ hno _ => hno.elim)
    (fun hs hstep => ⟨hs.1.extract hstep, hs.2.extract hs.1 hstep⟩)
    (fun hs hid hstep => ⟨hs.1.finish hid hstep, hs.2.finish hs.1 hid hstep⟩)
  exact ⟨hcounts.inOrder, hcounts.isFinished_iff hinv⟩

theorem priority_epochs (hfresh : Fresh 0 tasks) {s : PriorityTaskScheduler}
    (h : Reaches (PriorityTaskScheduler.scheduler info) NoTasks
      (PriorityTaskScheduler.initTasks (.start info) tasks) out s) :
    EpochsInOrder (PriorityTaskScheduler.scheduler info) tasks out s := by
  have hstart : PriorityTaskScheduler.Inv info tasks []
      (PriorityTaskScheduler.initTasks (.start info) tasks) := by
    have hs := PriorityTaskScheduler.inv_start info
    refine ⟨hs.placement, hs.manager.addTasks hfresh.ids, fun _ => ?_, ?_⟩
    · exact hfresh.epochsAt
    · rfl
  have hinv := h.invariant (I := PriorityTaskScheduler.Inv info tasks) hstart
    (fun _ hno _ => hno.elim) (fun hs hstep => hs.extract hstep)
    (fun hs hid hstep => hs.finish hid hstep)
  have hepochs := hinv.epochs hfresh.epochs
  refine ⟨hepochs.inOrder, hepochs.all_finished_iff fun i hfinished hbusy => ?_⟩
  rw [(hinv.manager.running i).mpr hbusy] at hfinished
  cases hfinished

end

/-- **Every epoch runs exactly once and in order**, under the sequential, the greedy and the
priority scheduler; and the sequential scheduler runs one task after another. -/
theorem epochs_run_once (info : WorkerInfo) (tasks : List Task) (hfresh : Fresh 0 tasks) :
    (∀ s₀, SequentialTaskScheduler.initTasks info (.start info) tasks = some s₀ → ∀ out s,
      Reaches (SequentialTaskScheduler.scheduler info) NoTasks s₀ out s →
      EpochsInOrder (SequentialTaskScheduler.scheduler info) tasks out s ∧
        Throughout (SequentialTaskScheduler.InTurn tasks) out) ∧
    (∀ s₀, GreedyTaskScheduler.initTasks info (.start info) tasks = some s₀ → ∀ out s,
      Reaches (GreedyTaskScheduler.scheduler info) NoTasks s₀ out s →
      EpochsInOrder (GreedyTaskScheduler.scheduler info) tasks out s) ∧
    (∀ out s, Reaches (PriorityTaskScheduler.scheduler info) NoTasks
        (PriorityTaskScheduler.initTasks (.start info) tasks) out s →
      EpochsInOrder (PriorityTaskScheduler.scheduler info) tasks out s) :=
  ⟨fun _ hinit _ _ h => sequential_epochs hfresh hinit h,
    fun _ hinit _ _ h => greedy_epochs hfresh hinit h, fun _ _ h => priority_epochs hfresh h⟩

/-- A task with two epochs, and one with one. -/
def longAndShort : List Task := [⟨0, 2, 0, 1, .basic, false⟩, smallTask 1]

theorem fresh_longAndShort : Fresh 0 longAndShort := by
  refine ⟨?_, ?_⟩
  · rintro (_ | _ | i) task htask
    · obtain rfl := Option.some.inj htask
      rfl
    · obtain rfl := Option.some.inj htask
      rfl
    · cases htask
  · unfold New
    decide

/-- One task after the other. -/
def inTurn : List SchedEvent :=
  [.issued ⟨⟨0, 2, 0, 1, .basic, false⟩, [(0, 0)]⟩, .finished 0 0,
    .issued ⟨⟨0, 2, 1, 1, .basic, false⟩, [(1, 1)]⟩, .finished 0 1,
    .issued ⟨smallTask 1, [(0, 0)]⟩, .finished 1 0]

/-- The two tasks together, and then the second epoch of the first one on a thread. -/
def together (pid tid : ℕ) : List SchedEvent :=
  [.issued ⟨⟨0, 2, 0, 1, .basic, false⟩, [(0, 0)]⟩, .issued ⟨smallTask 1, [(1, 1)]⟩,
    .finished 1 1, .finished 0 0, .issued ⟨⟨0, 2, 1, 1, .basic, false⟩, [(pid, tid)]⟩,
    .finished 0 tid]

/-- Both tasks have run under each of the schedulers. -/
theorem epochs_run_once_longAndShort :
    (∃ s, EpochsInOrder (SequentialTaskScheduler.scheduler (.oneEach 2)) longAndShort inTurn s) ∧
    (∃ s, EpochsInOrder (GreedyTaskScheduler.scheduler (.oneEach 2)) longAndShort
      (together 0 0) s) ∧
    (∃ s, EpochsInOrder (PriorityTaskScheduler.scheduler (.oneEach 2)) longAndShort
      (together 1 1) s) := by
  obtain ⟨hseq, hgreedy, hpriority⟩ :=
    epochs_run_once (.oneEach 2) longAndShort fresh_longAndShort
  refine ⟨?_, ?_, ?_⟩
  · have hrun : run (schedStep (SequentialTaskScheduler.scheduler (.oneEach 2)))
        ⟨longAndShort, .ofCluster (.oneEach 2)⟩
        [.extractInstances .plain, .finishThread 0 0 0, .extractInstances .plain,
          .finishThread 0 1 0, .extractInstances .plain, .finishThread 1 0 0] =
        some (_, inTurn) := rfl
    refine ⟨_, (hseq _ rfl inTurn _ ⟨_, ?_, hrun⟩).1⟩
    apply along_cons rfl ⟨trivial, nofun⟩
    apply along_cons rfl ⟨by decide, nofun⟩
    apply along_cons rfl ⟨trivial, nofun⟩
    apply along_cons rfl ⟨by decide, nofun⟩
    apply along_cons rfl ⟨trivial, nofun⟩
    apply along_cons rfl ⟨by decide, nofun⟩
    trivial
  · have hrun : run (schedStep (GreedyTaskScheduler.scheduler (.oneEach 2)))
        ⟨longAndShort, [.ready, .ready], .ofCluster (.oneEach 2)⟩
        [.extractInstances .plain, .finishThread 1 1 0, .finishThread 0 0 0,
          .extractInstances .plain, .finishThread 0 0 0] = some (_, together 0 0) := rfl
    refine ⟨_, hgreedy _ rfl (together 0 0) _ ⟨_, ?_, hrun⟩⟩
    apply along_cons rfl ⟨trivial, nofun⟩
    apply along_cons rfl ⟨by decide, nofun⟩
    apply along_cons rfl ⟨by decide, nofun⟩
    apply along_cons rfl ⟨trivial, nofun⟩
    apply along_cons rfl ⟨by decide, nofun⟩
    trivial
  · have hrun : run (schedStep (PriorityTaskScheduler.scheduler (.oneEach 2)))
        (.initTasks (.start (.oneEach 2)) longAndShort)
        [.extractInstances .plain, .finishThread 1 1 0, .finishThread 0 0 0,
          .extractInstances .plain, .finishThread 0 1 0] = some (_, together 1 1) := rfl
    refine ⟨_, hpriority (together 1 1) _ ⟨_, ?_, hrun⟩⟩
    apply along_cons rfl ⟨trivial, nofun⟩
    apply along_cons rfl ⟨by decide, nofun⟩
    apply along_cons rfl ⟨by decide, nofun⟩
    apply along_cons rfl ⟨trivial, nofun⟩
    apply along_cons rfl ⟨by decide, nofun⟩
    trivial

end FlexPS.Scheduler
