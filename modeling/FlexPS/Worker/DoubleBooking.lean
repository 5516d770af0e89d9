import FlexPS.Worker.Sessions

/-!
# The workers never double-book

A worker that is told to run an instance is free to do so: it does not keep an instance with that id,
and the units that it assigns are not joinable.

## Main definitions

* `workers_never_double_book` — the statement for three schedulers.
* `priority_double_books` — what happens when the ids of the tasks are not positions.
-/

namespace FlexPS.Worker

open Lib Scheduler

theorem Consistent.neverDoubleBooked {σ : Type} {S : TaskScheduler σ} {info : WorkerInfo}
    {ids : LocalIds info} {accepts : List SchedEvent → σ → List Task → Prop}
    {I : List SchedEvent → σ → Prop} {out : List SchedEvent} {sys : System σ}
    (hS : Exclusive info S accepts I) (h : Consistent S I ids out sys) :
    NeverDoubleBooked ids sys where
  fresh pid instance_ inbox hphase hinbox hmem := by
    rcases (h.agrees pid).runs.kept _ (.inl hmem) with ⟨tid, hused⟩ | hremoving
    · exact (h.agrees pid).ne_of_used hinbox hused rfl
    · exact Phase.noConfusion (hphase.symm.trans hremoving)
  free pid instance_ inbox _ hinbox th hth := by
    refine (h.agrees pid).free (h.one hS) hinbox th.1 ?_
    rw [← InstanceRunner.map_extractLocalInstance]
    exact List.mem_map_of_mem hth
  assigned pid instance_ inbox hphase hinbox :=
    (h.agrees pid).receive_some (h.one hS) hphase (hinbox ▸ List.cons_ne_nil _ _)
  removed pid id hphase hdone := by
    refine ⟨?_, Process.remove_some hphase⟩
    simp only [InstanceRunner.isInstanceDone, Dict.getD_set_self] at hdone ⊢
    exact List.isEmpty_iff.mp hdone

/-- **The workers never double-book**, whatever the threshold of the trigger is. -/
theorem workers_never_double_book {info : WorkerInfo} (ids : LocalIds info) (countThreshold : ℕ) :
    InAllRuns ids countThreshold fun _ _ sys => NeverDoubleBooked ids sys :=
  inAllRuns_of_consistent ids countThreshold fun hS h => h.neverDoubleBooked hS

/-- Local ids that are the global ones. -/
def sameIds (info : WorkerInfo) : LocalIds info := ⟨id, fun _ => id, fun _ _ => rfl⟩

/-- The instance is on the way to the only process. -/
theorem workers_never_double_book_wideTask :
    (∃ sys : System SequentialTaskScheduler,
      (sys.processes 0).inbox = [.task ⟨wideTask 0, [(0, 2), (0, 1)]⟩] ∧
        NeverDoubleBooked (sameIds (.oneProcess 3)) sys) ∧
    (∃ sys : System GreedyTaskScheduler,
      (sys.processes 0).inbox = [.task ⟨wideTask 0, [(0, 2), (0, 1)]⟩] ∧
        NeverDoubleBooked (sameIds (.oneProcess 3)) sys) ∧
    ∃ sys : System PriorityTaskScheduler,
      (sys.processes 0).inbox = [.task ⟨wideTask 0, [(0, 2), (0, 1)]⟩] ∧
        NeverDoubleBooked (sameIds (.oneProcess 3)) sys := by
  obtain ⟨hsequential, hgreedy, hpriority⟩ :=
    workers_never_double_book (sameIds (.oneProcess 3)) 1
  have hmoves : ∀ {σ : Type} {S : TaskScheduler σ} {s : σ}
      {accepts : List SchedEvent → σ → List Task → Prop} {sys : System σ} {out : List ClusterEvent},
      accepts [] s [wideTask 0] →
      run (System.step S (sameIds (.oneProcess 3))) (.start s 1)
        [.submit [wideTask 0], .manage 0 .plain] = some (sys, out) →
      Works S (sameIds (.oneProcess 3)) accepts s 1 out sys := by
    intro σ S s accepts sys out haccepts hrun
    refine ⟨[.submit [wideTask 0], .manage 0 .plain], ⟨trivial, fun sys' o hstep => ⟨?_, fun _ _ _ => trivial⟩⟩, hrun⟩
    obtain ⟨rfl, rfl⟩ := Prod.mk.inj (Option.some.inj hstep)
    rintro tasks outbox heq
    obtain rfl := ClusterMessage.init.inj (List.cons.inj heq).1
    exact haccepts
  refine ⟨⟨_, rfl, hsequential _ _ (hmoves trivial rfl)⟩,
    ⟨_, rfl, hgreedy _ _ (hmoves (List.nodup_singleton 0) rfl)⟩,
    ⟨_, rfl, hpriority _ _ (hmoves ?_ rfl)⟩⟩
  rintro (_ | i) task htask
  · obtain rfl := Option.some.inj htask
    rfl
  · cases htask

/-- A task of two threads is submitted, and when it has finished, again and with another one. -/
def submittedAgain : List Move :=
  [.submit [wideTask 0], .manage 0 .plain, .receive 0, .complete 0 0, .report 0 0, .remove 0,
    .complete 0 0, .report 0 0, .remove 0, .manage 0 .plain, .manage 0 .plain, .receive 0,
    .submit [wideTask 0, smallTask 1], .manage 0 .plain, .receive 0, .complete 0 0, .report 0 0,
    .remove 0, .manage 0 .plain]

/-- **The ids of the tasks have to be positions**: when a task is submitted for the second time, its
first thread that finishes makes the finished task ready again, whose instance has the same id as the
one that is running. -/
theorem priority_double_books :
    ¬ ∀ (info : WorkerInfo) (ids : LocalIds info) (out : List ClusterEvent)
        (sys : System PriorityTaskScheduler),
      Works (PriorityTaskScheduler.scheduler info) ids DistinctTasks (.start info) 1 out sys →
      NeverDoubleBooked ids sys := by
  intro h
  have hrun : run (System.step (PriorityTaskScheduler.scheduler (.oneProcess 3))
      (sameIds (.oneProcess 3))) (.start (.start (.oneProcess 3)) 1) submittedAgain =
      some (_, _) := rfl
  have hbooked := h _ _ _ _ ⟨submittedAgain, ?_, hrun⟩
  · exact hbooked.fresh 0 _ _ rfl rfl (by decide)
  · apply along_cons rfl trivial
    refine along_cons rfl ?_ ?_
    · rintro _ _ ⟨⟩
      exact List.nodup_singleton 0
    iterate 7 apply along_cons rfl trivial
    refine along_cons rfl ?_ (along_cons rfl ?_ ?_)
    · rintro _ _ ⟨⟩
    · rintro _ _ ⟨⟩
    apply along_cons rfl trivial
    apply along_cons rfl trivial
    refine along_cons rfl ?_ ?_
    · rintro _ _ ⟨⟩
      exact (by decide : [0, 1].Nodup)
    iterate 4 apply along_cons rfl trivial
    refine along_cons rfl ?_ trivial
    rintro _ _ ⟨⟩

end FlexPS.Worker
