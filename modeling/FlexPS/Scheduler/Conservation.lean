import FlexPS.Scheduler.AutoParallelismTaskScheduler
import FlexPS.Scheduler.GreedyTaskScheduler
import FlexPS.Scheduler.PriorityTaskScheduler

/-!
# Schedulers conserve worker threads

Under every scheduler, a thread of the cluster is available or belongs to one running instance.
The priority scheduler relies on tasks being indexed by their ids.

## Main definitions

* `schedulers_conserve_threads` — the statement for the four schedulers.
* `priority_loses_thread` — what happens to the priority scheduler when the ids are not positions.
-/

namespace FlexPS.Scheduler

open Lib

/-- Tasks are submitted in the order of their ids. -/
def IndexedTasks (_ : List SchedEvent) (s : PriorityTaskScheduler) (tasks : List Task) : Prop :=
  Indexed s.taskManager.tasks.length tasks

/-- **Schedulers conserve worker threads.** -/
theorem schedulers_conserve_threads (info : WorkerInfo) :
    (∀ out s, Reaches (SequentialTaskScheduler.scheduler info) AnyTasks (.start info) out s →
      s.placement.Conserved info out) ∧
    (∀ out s, Reaches (GreedyTaskScheduler.scheduler info) AnyTasks (.start info) out s →
      s.placement.Conserved info out) ∧
    (∀ out s, Reaches (PriorityTaskScheduler.scheduler info) IndexedTasks (.start info) out s →
      s.placement.Conserved info out) ∧
    (∀ out s, Reaches (AutoParallelismTaskScheduler.scheduler info) AnyTasks (.start info) out s →
      s.placement.Conserved info out) := by
  refine ⟨fun out s h => ?_, fun out s h => ?_, fun out s h => ?_, fun out s h => ?_⟩
  · refine (h.invariant (I := fun out (s : SequentialTaskScheduler) => s.placement.Inv info out)
      (Placement.inv_ofCluster info) ?_ ?_ ?_).conserved
    · exact fun hs _ hstep => SequentialTaskScheduler.placement_init hs hstep
    · exact fun hs hstep => SequentialTaskScheduler.placement_extract hs hstep
    · exact fun hs hid hstep => SequentialTaskScheduler.placement_finish hs hid hstep
  · refine (h.invariant (I := fun out (s : GreedyTaskScheduler) => s.placement.Inv info out)
      (Placement.inv_ofCluster info) ?_ ?_ ?_).conserved
    · exact fun hs _ hstep => GreedyTaskScheduler.placement_init hs hstep
    · exact fun hs hstep => GreedyTaskScheduler.placement_extract hs hstep
    · exact fun hs hid hstep => GreedyTaskScheduler.placement_finish hs hid hstep
  · obtain ⟨tasks₀, hs⟩ := h.invariant
      (I := fun out s => ∃ tasks₀, PriorityTaskScheduler.Inv info tasks₀ out s)
      ⟨[], PriorityTaskScheduler.inv_start info⟩
      (fun {out s s' tasks} ⟨tasks₀, hs⟩ hids hstep => by
        obtain rfl := Option.some.inj hstep
        exact ⟨tasks₀ ++ tasks, hs.init (hs.length ▸ hids)⟩)
      (fun ⟨tasks₀, hs⟩ hstep => ⟨tasks₀, hs.extract hstep⟩)
      (fun ⟨tasks₀, hs⟩ hid hstep => ⟨tasks₀, hs.finish hid hstep⟩)
    exact hs.placement.conserved
  · refine (h.invariant (I := fun out (s : AutoParallelismTaskScheduler) => s.placement.Inv info out)
      (Placement.inv_ofCluster info) ?_ ?_ ?_).conserved
    · exact fun hs _ hstep => AutoParallelismTaskScheduler.placement_init hs hstep
    · exact fun hs hstep => AutoParallelismTaskScheduler.placement_extract hs hstep
    · exact fun hs hid hstep => AutoParallelismTaskScheduler.placement_finish hs hid hstep

/-- A task is submitted, issued, and finishes. -/
def oneEpochInputs : List SchedInput :=
  [.initTasks [smallTask 0], .extractInstances .plain, .finishThread 0 0 5]

/-- What is seen of that. -/
def oneEpochHistory : List SchedEvent :=
  [.submitted [smallTask 0], .issued ⟨smallTask 0, [(0, 0)]⟩, .finished 0 0]

/-- A task has run on one of two threads. -/
theorem schedulers_conserve_threads_oneEach :
    (∃ s : SequentialTaskScheduler, s.isFinished = true ∧
      s.placement.Conserved (.oneEach 2) oneEpochHistory) ∧
    (∃ s : GreedyTaskScheduler, s.isFinished = true ∧
      s.placement.Conserved (.oneEach 2) oneEpochHistory) ∧
    (∃ s : PriorityTaskScheduler, s.isFinished = true ∧
      s.placement.Conserved (.oneEach 2) oneEpochHistory) ∧
    (∃ s : AutoParallelismTaskScheduler, s.isFinished = true ∧
      s.placement.Conserved (.oneEach 2) oneEpochHistory) := by
  obtain ⟨hseq, hgreedy, hpriority, hauto⟩ := schedulers_conserve_threads (.oneEach 2)
  refine ⟨?_, ?_, ?_, ?_⟩
  · have hrun : run (schedStep (SequentialTaskScheduler.scheduler (.oneEach 2))) (.start (.oneEach 2))
        oneEpochInputs = some (_, oneEpochHistory) := rfl
    refine ⟨_, rfl, hseq _ _ ⟨_, ?_, hrun⟩⟩
    apply along_cons rfl ⟨trivial, fun _ _ => trivial⟩
    apply along_cons rfl ⟨trivial, fun _ _ => trivial⟩
    apply along_cons rfl ⟨by decide, fun _ _ => trivial⟩
    trivial
  · have hrun : run (schedStep (GreedyTaskScheduler.scheduler (.oneEach 2))) (.start (.oneEach 2))
        oneEpochInputs = some (_, oneEpochHistory) := rfl
    refine ⟨_, rfl, hgreedy _ _ ⟨_, ?_, hrun⟩⟩
    apply along_cons rfl ⟨trivial, fun _ _ => trivial⟩
    apply along_cons rfl ⟨trivial, fun _ _ => trivial⟩
    apply along_cons rfl ⟨by decide, fun _ _ => trivial⟩
    trivial
  · have hrun : run (schedStep (PriorityTaskScheduler.scheduler (.oneEach 2))) (.start (.oneEach 2))
        oneEpochInputs = some (_, oneEpochHistory) := rfl
    have hindexed : ∀ tasks, SchedInput.initTasks [smallTask 0] = .initTasks tasks →
        IndexedTasks [] (.start (.oneEach 2)) tasks := by
      rintro _ ⟨⟩ (_ | i) task htask
      · obtain rfl := Option.some.inj htask
        rfl
      · cases htask
    refine ⟨_, rfl, hpriority _ _ ⟨_, ?_, hrun⟩⟩
    apply along_cons rfl ⟨trivial, hindexed⟩
    apply along_cons rfl ⟨trivial, nofun⟩
    apply along_cons rfl ⟨by decide, nofun⟩
    trivial
  · have hrun : run (schedStep (AutoParallelismTaskScheduler.scheduler (.oneEach 2)))
        (.start (.oneEach 2)) oneEpochInputs = some (_, oneEpochHistory) := rfl
    refine ⟨_, rfl, hauto _ _ ⟨_, ?_, hrun⟩⟩
    apply along_cons rfl ⟨trivial, fun _ _ => trivial⟩
    apply along_cons rfl ⟨trivial, fun _ _ => trivial⟩
    apply along_cons rfl ⟨by decide, fun _ _ => trivial⟩
    trivial

/-- **The ids of the tasks have to be positions**: the tasks `1` and `0` run on the only thread
under the id of the other, and when the first of them finishes, the thread is available while it is
tracked. -/
theorem priority_loses_thread :
    ¬ ∀ info out s, Reaches (PriorityTaskScheduler.scheduler info) AnyTasks (.start info) out s →
      s.placement.Conserved info out := by
  intro h
  have hrun : run (schedStep (PriorityTaskScheduler.scheduler (.oneEach 1))) (.start (.oneEach 1))
      [.initTasks [smallTask 1, smallTask 0], .extractInstances .plain, .finishThread 0 0 0] =
      some (_, [.submitted [smallTask 1, smallTask 0], .issued ⟨smallTask 0, [(0, 0)]⟩,
        .finished 0 0]) := rfl
  have hconserved := h (.oneEach 1) _ _ ⟨_, ?_, hrun⟩
  · rcases hconserved.partition 0 (by decide) with ⟨-, hnone⟩ | ⟨hfree, -⟩
    · exact hnone 1 ⟨0, by decide⟩
    · exact hfree ⟨0, by decide⟩
  · apply along_cons rfl ⟨trivial, fun _ _ => trivial⟩
    apply along_cons rfl ⟨trivial, fun _ _ => trivial⟩
    apply along_cons rfl ⟨by decide, fun _ _ => trivial⟩
    trivial

end FlexPS.Scheduler
