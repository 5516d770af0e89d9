import FlexPS.Lib.Dict
import FlexPS.Scheduler.Task
import Mathlib.Data.List.Dedup
import Mathlib.Logic.Function.Basic

/-!
# The instances that a worker runs

A worker runs the threads of an instance that are on its process, one unit for each.  It keeps the
instance until all of them have finished.

## Main definitions

* `LocalIds` — how threads are numbered on their processes.
* `InstanceRunner` with `runInstance`, `finishThread`, `isInstanceDone`, `removeInstance`.
* `InstanceRunner.runInstance_cases` — what running an instance does.
* `InstanceRunner.runInstance_some` — when its assertions hold.
-/

namespace FlexPS.Scheduler

/-- The threads of an instance that are on a process. -/
def Instance.localTids (instance_ : Instance) (pid : ℕ) : List ℕ :=
  (instance_.getThreads pid).map Prod.fst

theorem Instance.localTids_eq (instance_ : Instance) (pid : ℕ) :
    instance_.localTids pid = (instance_.threads.filter (·.1 = pid)).map Prod.snd := by
  have hindexed : ∀ (threads : List (ℕ × ℕ)) (n : ℕ),
      ((threads.zipIdx n).filterMap fun x =>
        if x.1.1 = pid then some (x.1.2, x.2) else none).map Prod.fst =
        (threads.filter (·.1 = pid)).map Prod.snd := by
    intro threads
    induction threads with
    | nil => exact fun _ => rfl
    | cons th threads ih =>
        intro n
        rw [List.zipIdx_cons, List.filterMap_cons, List.filter_cons]
        by_cases hpid : th.1 = pid
        · simp [hpid, ih]
        · simp [hpid, ih]
  exact hindexed _ _

theorem Instance.mem_localTids {instance_ : Instance} {pid tid : ℕ} :
    tid ∈ instance_.localTids pid ↔ (pid, tid) ∈ instance_.threads := by
  rw [localTids_eq, List.mem_map]
  constructor
  · rintro ⟨⟨pid', tid'⟩, hth, rfl⟩
    obtain ⟨hmem, hpid⟩ := List.mem_filter.mp hth
    obtain rfl : pid' = pid := of_decide_eq_true hpid
    exact hmem
  · exact fun hth => ⟨(pid, tid), List.mem_filter.mpr ⟨hth, decide_eq_true rfl⟩, rfl⟩

theorem Instance.nodup_localTids {instance_ : Instance} (h : instance_.tids.Nodup) (pid : ℕ) :
    (instance_.localTids pid).Nodup := by
  rw [localTids_eq]
  exact h.sublist (List.filter_sublist.map _)

end FlexPS.Scheduler

namespace FlexPS.Worker

open Lib Scheduler

/-- `global_to_local_id`, and `local_to_global_id` of every process, which undoes it. -/
structure LocalIds (info : WorkerInfo) where
  globalToLocalId : ℕ → ℕ
  localToGlobalId : ℕ → ℕ → ℕ
  inverse : ∀ tid ∈ info.globalTids,
    localToGlobalId (info.processId tid) (globalToLocalId tid) = tid

/-- `InstanceRunner`; `instance_keeper_` has local ids, and of a unit only `joinable()` is kept. -/
structure InstanceRunner where
  instances : Dict ℕ Instance
  instanceKeeper : Dict ℕ (List ℕ)
  units : ℕ → Bool

namespace InstanceRunner

variable {info : WorkerInfo} (ids : LocalIds info) (pid : ℕ)

/-- Nothing has been run. -/
def start : InstanceRunner := ⟨∅, ∅, fun _ => false⟩

/-- `extract_local_instance`: the threads of the process by their local ids, with their ids in the
instance. -/
def extractLocalInstance (instance_ : Instance) : List (ℕ × ℕ) :=
  (instance_.getThreads pid).map fun th => (ids.globalToLocalId th.1, th.2)

/-- `assign_worker` for one thread after another; `none` when a unit is joinable. -/
def assignWorkers : (ℕ → Bool) → List (ℕ × ℕ) → Option (ℕ → Bool)
  | units, [] => some units
  | units, th :: ths =>
      if units th.1 then none else assignWorkers (Function.update units th.1 true) ths

/-- `run_instance`, with the threads that start; `none` for a failed assertion. -/
def runInstance (r : InstanceRunner) (instance_ : Instance) :
    Option (InstanceRunner × List (ℕ × ℕ)) :=
  if instance_.id ∈ r.instances then none
  else
    let localThreads := extractLocalInstance ids pid instance_
    if localThreads = [] then some (r, [])
    else do
      let units ← assignWorkers r.units localThreads
      let keeper := if instance_.id ∈ r.instanceKeeper then r.instanceKeeper
        else r.instanceKeeper.set instance_.id (localThreads.map Prod.fst).dedup
      some (⟨r.instances.set instance_.id instance_, keeper, units⟩,
        localThreads.map fun th => (instance_.id, th.1))

/-- `finish_thread`; `none` when the unit cannot be joined. -/
def finishThread (r : InstanceRunner) (instanceId tid : ℕ) : Option InstanceRunner :=
  let threads := (r.instanceKeeper.getD instanceId []).erase tid
  if r.units tid then
    some ⟨r.instances, r.instanceKeeper.set instanceId threads, Function.update r.units tid false⟩
  else none

/-- `is_instance_done`, where `operator[]` makes an entry. -/
def isInstanceDone (r : InstanceRunner) (instanceId : ℕ) : InstanceRunner × Bool :=
  let threads := r.instanceKeeper.getD instanceId []
  ({ r with instanceKeeper := r.instanceKeeper.set instanceId threads }, threads.isEmpty)

/-- `remove_instance`; `none` for a failed assertion. -/
def removeInstance (r : InstanceRunner) (instanceId : ℕ) : Option InstanceRunner :=
  if (r.instanceKeeper.getD instanceId []).isEmpty then
    some ⟨r.instances.drop instanceId, r.instanceKeeper.drop instanceId, r.units⟩
  else none

/-! ## Assigning units -/

theorem assignWorkers_units {units units' : ℕ → Bool} {ths : List (ℕ × ℕ)}
    (h : assignWorkers units ths = some units') (tid : ℕ) :
    units' tid = true ↔ tid ∈ ths.map Prod.fst ∨ units tid = true := by
  induction ths generalizing units with
  | nil =>
      obtain rfl := Option.some.inj h
      exact (or_iff_right List.not_mem_nil).symm
  | cons th ths ih =>
      rw [assignWorkers] at h
      split at h
      · cases h
      · rw [ih h, List.map_cons, List.mem_cons, Function.update_apply]
        by_cases htid : tid = th.1
        · simp [htid]
        · simp [htid]

/-- Units that are not joinable can be assigned once each. -/
theorem assignWorkers_some {units : ℕ → Bool} {ths : List (ℕ × ℕ)} (hnodup : (ths.map Prod.fst).Nodup)
    (hfree : ∀ th ∈ ths, units th.1 = false) : ∃ units', assignWorkers units ths = some units' := by
  induction ths generalizing units with
  | nil => exact ⟨units, rfl⟩
  | cons th ths ih =>
      obtain ⟨hth, hnodup⟩ := List.nodup_cons.mp hnodup
      obtain ⟨hfirst, hfree⟩ := List.forall_mem_cons.mp hfree
      rw [assignWorkers, hfirst, if_neg Bool.false_ne_true]
      refine ih hnodup fun th' hth' => ?_
      have hne : th'.1 ≠ th.1 := fun heq => hth (heq ▸ List.mem_map_of_mem hth')
      rw [Function.update_of_ne hne]
      exact hfree th' hth'

variable {ids pid} {r r' : InstanceRunner} {instance_ : Instance} {started : List (ℕ × ℕ)}

theorem map_extractLocalInstance (ids : LocalIds info) (pid : ℕ) (instance_ : Instance) :
    (extractLocalInstance ids pid instance_).map Prod.fst =
      (instance_.localTids pid).map ids.globalToLocalId := by
  rw [extractLocalInstance, Instance.localTids, List.map_map, List.map_map]
  rfl

/-- The threads of an instance, as they are known to the cluster manager. -/
theorem map_localToGlobalId (hsafe : ∀ th ∈ instance_.threads,
    th.1 = info.processId th.2 ∧ th.2 ∈ info.globalTids) :
    ((instance_.localTids pid).map ids.globalToLocalId).map (ids.localToGlobalId pid) =
      instance_.localTids pid := by
  rw [List.map_map]
  refine (List.map_congr_left fun tid htid => ?_).trans (List.map_id _)
  obtain ⟨hpid, hmem⟩ := hsafe _ (Instance.mem_localTids.mp htid)
  rw [Function.comp_apply, show pid = info.processId tid from hpid]
  exact ids.inverse tid hmem

/-- **Running an instance** keeps it when some of its threads are on the process. -/
theorem runInstance_cases (h : runInstance ids pid r instance_ = some (r', started)) :
    (instance_.localTids pid = [] ∧ r' = r ∧ started = []) ∨
    (∃ units, assignWorkers r.units (extractLocalInstance ids pid instance_) = some units ∧
      instance_.localTids pid ≠ [] ∧
      started = ((instance_.localTids pid).map ids.globalToLocalId).map (instance_.id, ·) ∧
      r' = ⟨r.instances.set instance_.id instance_,
        if instance_.id ∈ r.instanceKeeper then r.instanceKeeper
        else r.instanceKeeper.set instance_.id
          ((instance_.localTids pid).map ids.globalToLocalId).dedup, units⟩) := by
  unfold runInstance at h
  split at h
  · cases h
  · simp only at h
    split at h
    · next hnil =>
        obtain ⟨rfl, rfl⟩ := Prod.mk.inj (Option.some.inj h)
        refine .inl ⟨?_, rfl, rfl⟩
        have hlocal := congrArg (List.map Prod.fst) hnil
        rw [map_extractLocalInstance] at hlocal
        exact List.map_eq_nil_iff.mp hlocal
    · next hne =>
        obtain ⟨units, hunits, h⟩ := Option.bind_eq_some_iff.mp h
        obtain ⟨rfl, rfl⟩ := Prod.mk.inj (Option.some.inj h)
        refine .inr ⟨units, hunits, fun hnil => hne ?_, ?_, ?_⟩
        · have hlocal := map_extractLocalInstance ids pid instance_
          rw [hnil, List.map_nil] at hlocal
          exact List.map_eq_nil_iff.mp hlocal
        · rw [← map_extractLocalInstance, List.map_map]
          rfl
        · rw [map_extractLocalInstance]

/-- **The assertions hold** when the instance is not kept and its units are not joinable. -/
theorem runInstance_some (hfresh : instance_.id ∉ r.instances)
    (hnodup : ((instance_.localTids pid).map ids.globalToLocalId).Nodup)
    (hfree : ∀ th ∈ extractLocalInstance ids pid instance_, r.units th.1 = false) :
    ∃ next, runInstance ids pid r instance_ = some next := by
  rw [← map_extractLocalInstance] at hnodup
  obtain ⟨units, hunits⟩ := assignWorkers_some hnodup hfree
  unfold runInstance
  rw [if_neg hfresh]
  simp only
  split
  · exact ⟨_, rfl⟩
  · exact ⟨_, by rw [hunits]; rfl⟩

end InstanceRunner

end FlexPS.Worker
