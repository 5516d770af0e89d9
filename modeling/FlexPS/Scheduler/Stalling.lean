import FlexPS.Scheduler.Settling

/-!
# When the cluster manager stalls

The cluster manager extracts instances when the trigger has counted enough threads that have
finished, and no timer makes up for it.  It does not stall when the last running thread is the one
that makes them enough; and, under the priority scheduler, when no task becomes angry in the
extraction that follows.

## Main definitions

* `cluster_manager_not_stalled` — the statement for the four schedulers.
* `cluster_manager_not_stalled_default` — three of them never stall with the default threshold.
* `sequential_stalls`, `priority_stalls` — what goes wrong otherwise.
-/

namespace FlexPS.Scheduler

open Lib

/-- **The cluster manager does not stall**, whatever the threshold of the trigger is, when it
extracts instances after the last running thread has finished; under the priority scheduler, in a
state in which no task becomes angry that could be placed then.  With the default threshold the first
condition always holds (`cluster_manager_not_stalled_default`), and the second one is needed even
then (`priority_stalls`). -/
theorem cluster_manager_not_stalled (info : WorkerInfo) (countThreshold : ℕ) :
    (∀ out c, Serves (SequentialTaskScheduler.scheduler info) AnyTasks
        (Prompt (SequentialTaskScheduler.scheduler info) fun _ => True) (.start info)
        (.new countThreshold) out c →
      NotStalled (SequentialTaskScheduler.scheduler info) out c) ∧
    (∀ out c, Serves (GreedyTaskScheduler.scheduler info) AnyTasks
        (Prompt (GreedyTaskScheduler.scheduler info) fun _ => True) (.start info)
        (.new countThreshold) out c →
      NotStalled (GreedyTaskScheduler.scheduler info) out c) ∧
    (∀ out c, Serves (PriorityTaskScheduler.scheduler info) IndexedTasks
        (Prompt (PriorityTaskScheduler.scheduler info) (PriorityTaskScheduler.Calm info))
        (.start info) (.new countThreshold) out c →
      NotStalled (PriorityTaskScheduler.scheduler info) out c) ∧
    (∀ out c, Serves (AutoParallelismTaskScheduler.scheduler info) AnyTasks
        (Prompt (AutoParallelismTaskScheduler.scheduler info) fun _ => True) (.start info)
        (.new countThreshold) out c →
      NotStalled (AutoParallelismTaskScheduler.scheduler info) out c) := by
  refine ⟨fun out c h => ?_, fun out c h => ?_, fun out c h => ?_, fun out c h => ?_⟩
  · exact (SequentialTaskScheduler.settles info).notStalled
      SequentialTaskScheduler.placement_of_reaches h
  · exact (GreedyTaskScheduler.settles info).notStalled GreedyTaskScheduler.placement_of_reaches h
  · exact (PriorityTaskScheduler.settles info).notStalled PriorityTaskScheduler.inv_of_reaches h
  · exact (AutoParallelismTaskScheduler.settles info).notStalled
      AutoParallelismTaskScheduler.placement_of_reaches h

/-- No task is one rejection short of becoming angry after the call. -/
theorem calm_of_call {info : WorkerInfo} {out : List SchedEvent} {s : PriorityTaskScheduler}
    {m : ClusterMessage} (h : ∀ i s' o, m.call = some i →
      schedStep (PriorityTaskScheduler.scheduler info) s i = some (s', o) →
      ∀ entry ∈ s'.taskManager.taskPriority, entry.2 + 1 < TaskManager.angryThreshold) :
    m.Calm (PriorityTaskScheduler.scheduler info) (PriorityTaskScheduler.Calm info) out s :=
  fun i s' o hcall hstep _ => PriorityTaskScheduler.calm_of_lt (h i s' o hcall hstep)

/-- A task of two threads is submitted to a process that has two, and both finish. -/
def wideTaskMessages : List (ClusterMessage × Draw) :=
  [(.init [wideTask 0], .plain), (.threadFinished 0 0 0, .plain), (.threadFinished 0 1 0, .plain)]

/-- What is seen of that when two threads are counted. -/
def wideTaskServed : List ClusterEvent :=
  [.scheduled (.submitted [wideTask 0]), .scheduled (.issued ⟨wideTask 0, [(0, 1), (0, 0)]⟩),
    .scheduled (.finished 0 0), .scheduled (.finished 0 1), .exitSignal]

/-- The second of two threads makes them enough. -/
theorem cluster_manager_not_stalled_wideTask :
    (∃ c, NotStalled (SequentialTaskScheduler.scheduler (.oneProcess 2)) wideTaskServed c) ∧
    (∃ c, NotStalled (GreedyTaskScheduler.scheduler (.oneProcess 2)) wideTaskServed c) ∧
    (∃ c, NotStalled (PriorityTaskScheduler.scheduler (.oneProcess 2)) wideTaskServed c) ∧
    ∃ c, NotStalled (AutoParallelismTaskScheduler.scheduler (.oneProcess 2)) wideTaskServed c := by
  obtain ⟨hsequential, hgreedy, hpriority, hauto⟩ := cluster_manager_not_stalled (.oneProcess 2) 2
  have hbusy : ¬ Quiescent [.submitted [wideTask 0], .issued ⟨wideTask 0, [(0, 1), (0, 0)]⟩,
      .finished 0 0] :=
    fun hquiet => hquiet 0 ⟨1, by decide⟩
  have hfirst : 0 ∈ holders [.submitted [wideTask 0],
      .issued ⟨wideTask 0, [(0, 1), (0, 0)]⟩] 0 := by decide
  have hsecond : 0 ∈ holders [.submitted [wideTask 0],
      .issued ⟨wideTask 0, [(0, 1), (0, 0)]⟩, .finished 0 0] 1 := by decide
  refine ⟨?_, ?_, ?_, ?_⟩
  · refine ⟨_, hsequential wideTaskServed _ ⟨wideTaskMessages, ?_, rfl⟩⟩
    apply along_cons rfl ⟨trivial, trivial, fun _ _ _ _ _ _ => trivial⟩
    apply along_cons rfl ⟨hfirst, fun hquiet => absurd hquiet hbusy, fun _ _ _ _ _ _ => trivial⟩
    apply along_cons rfl ⟨hsecond, fun _ => rfl, fun _ _ _ _ _ _ => trivial⟩
    trivial
  · refine ⟨_, hgreedy wideTaskServed _ ⟨wideTaskMessages, ?_, rfl⟩⟩
    apply along_cons rfl ⟨trivial, trivial, fun _ _ _ _ _ _ => trivial⟩
    apply along_cons rfl ⟨hfirst, fun hquiet => absurd hquiet hbusy, fun _ _ _ _ _ _ => trivial⟩
    apply along_cons rfl ⟨hsecond, fun _ => rfl, fun _ _ _ _ _ _ => trivial⟩
    trivial
  · refine ⟨_, hpriority wideTaskServed _ ⟨wideTaskMessages, ?_, rfl⟩⟩
    have hindexed : IndexedTasks [] (.start (.oneProcess 2)) [wideTask 0] := by
      rintro (_ | i) task htask
      · obtain rfl := Option.some.inj htask
        rfl
      · cases htask
    refine along_cons rfl ⟨hindexed, trivial, calm_of_call ?_⟩ ?_
    · rintro _ _ _ ⟨⟩ ⟨⟩
      decide
    refine along_cons rfl ⟨hfirst, fun hquiet => absurd hquiet hbusy, calm_of_call ?_⟩ ?_
    · rintro _ _ _ ⟨⟩ ⟨⟩
      decide
    refine along_cons rfl ⟨hsecond, fun _ => rfl, calm_of_call ?_⟩ trivial
    rintro _ _ _ ⟨⟩ ⟨⟩
    decide
  · refine ⟨_, hauto wideTaskServed _ ⟨wideTaskMessages, ?_, rfl⟩⟩
    apply along_cons rfl ⟨trivial, trivial, fun _ _ _ _ _ _ => trivial⟩
    apply along_cons rfl ⟨hfirst, fun hquiet => absurd hquiet hbusy, fun _ _ _ _ _ _ => trivial⟩
    apply along_cons rfl ⟨hsecond, fun _ => rfl, fun _ _ _ _ _ _ => trivial⟩
    trivial

/-- **With the default threshold** the sequential, the greedy and the auto-parallelism scheduler never
stall. -/
theorem cluster_manager_not_stalled_default (info : WorkerInfo) :
    (∀ out c, Serves (SequentialTaskScheduler.scheduler info) AnyTasks (fun _ _ _ => True)
        (.start info) (.new 1) out c →
      NotStalled (SequentialTaskScheduler.scheduler info) out c) ∧
    (∀ out c, Serves (GreedyTaskScheduler.scheduler info) AnyTasks (fun _ _ _ => True)
        (.start info) (.new 1) out c →
      NotStalled (GreedyTaskScheduler.scheduler info) out c) ∧
    (∀ out c, Serves (AutoParallelismTaskScheduler.scheduler info) AnyTasks (fun _ _ _ => True)
        (.start info) (.new 1) out c →
      NotStalled (AutoParallelismTaskScheduler.scheduler info) out c) := by
  refine ⟨fun out c h => ?_, fun out c h => ?_, fun out c h => ?_⟩
  · exact (SequentialTaskScheduler.settles info).notStalled
      SequentialTaskScheduler.placement_of_reaches (h.prompt fun _ _ _ _ _ _ _ => trivial)
  · exact (GreedyTaskScheduler.settles info).notStalled GreedyTaskScheduler.placement_of_reaches
      (h.prompt fun _ _ _ _ _ _ _ => trivial)
  · exact (AutoParallelismTaskScheduler.settles info).notStalled
      AutoParallelismTaskScheduler.placement_of_reaches (h.prompt fun _ _ _ _ _ _ _ => trivial)

/-! ## What goes wrong -/

/-- A task of two epochs, with two threads each. -/
def twoEpochs : Task := ⟨0, 2, 0, 2, .basic, false⟩

/-- A task of four epochs, with one thread each. -/
def fourEpochs : Task := ⟨1, 4, 0, 1, .basic, false⟩

/-- One thread after another finishes. -/
def finishedInTurn (finished : List (ℕ × ℕ)) : List (ClusterMessage × Draw) :=
  finished.map fun f => (.threadFinished f.1 f.2 0, .plain)

/-- The only epoch of the first task has been run on the only thread, and one thread is not enough. -/
theorem sequential_stalls : ¬ ∀ info countThreshold out c, 1 ≤ countThreshold →
    Serves (SequentialTaskScheduler.scheduler info) AnyTasks (fun _ _ _ => True) (.start info)
      (.new countThreshold) out c → NotStalled (SequentialTaskScheduler.scheduler info) out c := by
  intro h
  have hrun : run (ClusterManager.serve (SequentialTaskScheduler.scheduler (.oneProcess 1)))
      ⟨.start (.oneProcess 1), .new 2⟩
      ((.init [smallTask 0], .plain) :: finishedInTurn [(0, 0)]) = some (_,
        [.scheduled (.submitted [smallTask 0]), .scheduled (.issued ⟨smallTask 0, [(0, 0)]⟩),
          .scheduled (.finished 0 0)]) := rfl
  have hfirst : 0 ∈ holders [.submitted [smallTask 0], .issued ⟨smallTask 0, [(0, 0)]⟩] 0 := by
    decide
  have hstalled := h (.oneProcess 1) 2 _ _ (by decide) ⟨_, ?_, hrun⟩ ⟨_, List.mem_cons_self ..⟩ ?_
  · rcases hstalled with ⟨-, hsent⟩ | ⟨hfinished, -⟩
    · cases hsent
    · cases hfinished
  · exact along_cons rfl ⟨trivial, trivial⟩ (along_cons rfl ⟨hfirst, trivial⟩ trivial)
  · rintro id ⟨_ | tid, hid⟩
    · cases hid
    · cases hid

/-- What is seen when both tasks run on three processes with one thread each. -/
def angryTooLate : List ClusterEvent :=
  [.scheduled (.submitted [twoEpochs, fourEpochs]),
    .scheduled (.issued ⟨twoEpochs, [(0, 0), (1, 1)]⟩),
    .scheduled (.issued ⟨fourEpochs, [(2, 2)]⟩),
    .scheduled (.finished 0 0), .scheduled (.finished 0 1), .scheduled (.finished 1 2),
    .scheduled (.issued ⟨fourEpochs.incEpoch, [(0, 0)]⟩), .scheduled (.finished 1 0),
    .scheduled (.issued ⟨fourEpochs.incEpoch.incEpoch, [(1, 1)]⟩), .scheduled (.finished 1 1),
    .scheduled (.issued ⟨fourEpochs.incEpoch.incEpoch.incEpoch, [(0, 0)]⟩),
    .scheduled (.finished 1 0)]

/-- **A task becomes angry too late**: the process that it has not visited has one thread, so it is
rejected with every epoch of the other task, and becomes angry with the last one; it could then be
placed on all processes, but nothing triggers another extraction. -/
theorem priority_stalls : ¬ ∀ info out c,
    Serves (PriorityTaskScheduler.scheduler info) IndexedTasks (fun _ _ _ => True) (.start info)
      (.new 1) out c → NotStalled (PriorityTaskScheduler.scheduler info) out c := by
  intro h
  have hrun : run (ClusterManager.serve (PriorityTaskScheduler.scheduler (.oneEach 3)))
      ⟨.start (.oneEach 3), .new 1⟩ ((.init [twoEpochs, fourEpochs], .plain) ::
        finishedInTurn [(0, 0), (0, 1), (1, 2), (1, 0), (1, 1), (1, 0)]) =
      some (_, angryTooLate) := rfl
  have hindexed : IndexedTasks [] (.start (.oneEach 3)) [twoEpochs, fourEpochs] := by
    rintro (_ | _ | i) task htask
    · obtain rfl := Option.some.inj htask
      rfl
    · obtain rfl := Option.some.inj htask
      rfl
    · cases htask
  have hstalled := h (.oneEach 3) _ _ ⟨_, ?_, hrun⟩ ⟨_, List.mem_cons_self ..⟩ ?_
  · rcases hstalled with ⟨hfinished, -⟩ | ⟨-, hnothing⟩
    · cases hfinished
    · exact hnothing .plain _ _ rfl ⟨twoEpochs.incEpoch, [(0, 0), (1, 1)]⟩ (List.mem_cons_self ..)
  · apply along_cons rfl ⟨hindexed, trivial⟩
    apply along_cons rfl ⟨(by decide : 0 ∈ holders ((scheduled angryTooLate).take 3) 0), trivial⟩
    apply along_cons rfl ⟨(by decide : 0 ∈ holders ((scheduled angryTooLate).take 4) 1), trivial⟩
    apply along_cons rfl ⟨(by decide : 1 ∈ holders ((scheduled angryTooLate).take 5) 2), trivial⟩
    apply along_cons rfl ⟨(by decide : 1 ∈ holders ((scheduled angryTooLate).take 7) 0), trivial⟩
    apply along_cons rfl ⟨(by decide : 1 ∈ holders ((scheduled angryTooLate).take 9) 1), trivial⟩
    apply along_cons rfl ⟨(by decide : 1 ∈ holders ((scheduled angryTooLate).take 11) 0), trivial⟩
    trivial
  · rintro id ⟨_ | _ | _ | tid, hid⟩
    · cases hid
    · cases hid
    · cases hid
    · cases hid

end FlexPS.Scheduler
