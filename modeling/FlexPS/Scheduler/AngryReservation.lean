import FlexPS.Scheduler.PriorityTaskScheduler

/-!
# Angry tasks reserve their processes

When an angry task is rejected, `extract_instances` locks the processes it asks for, and offers
only the others to the tasks that it considers later.  A `ConfigurableWorkersTask` does not look at
what it is offered.

## Main definitions

* `Reserves` — an instance is placed outside the processes of all tasks rejected before it.
* `BehindAngry` — the tasks that a call may consider behind an angry task.
* `angry_tasks_reserve` — then angry tasks reserve their processes.
* `configurable_task_takes_reserved` — otherwise they may not.
-/

namespace FlexPS.Scheduler

open Lib AvailableWorkers

/-! ## Placing on the candidates, whatever the ids are -/

namespace Placement

/-- Both views of the available workers agree, and the history has all processes. -/
structure Usable (info : WorkerInfo) (p : Placement) : Prop where
  agree : p.availableWorkers.Agree
  sized : p.history.Sized info

variable {info : WorkerInfo} {p p' : Placement} {d : Draw} {id : ℕ} {task : Task}
  {candidateProc : List ℕ} {r : Option Instance}

theorem usable_ofCluster (info : WorkerInfo) : Usable info (ofCluster info) :=
  ⟨(ofCluster_spec info).1, HistoryManager.sized_start info⟩

theorem Usable.finishThread (h : Usable info p) (id tid : ℕ) :
    Usable info (p.finishThread info id tid).1 :=
  ⟨h.agree.addWorker _ _, h.sized⟩

theorem Usable.getCandidateProc (h : Usable info p) (id : ℕ) (task : Task) :
    Candidates info (p.getCandidateProc info id task) := by
  unfold Placement.getCandidateProc
  split
  · exact candidates_allProc info
  · exact ⟨nodup_preferredProc _, fun _ hpid => h.sized id ▸ lt_of_mem_preferredProc hpid⟩

theorem Usable.getPreferredProc (h : Usable info p) (id : ℕ) :
    Candidates info (p.getPreferredProc id) :=
  ⟨nodup_preferredProc _, fun _ hpid => h.sized id ▸ lt_of_mem_preferredProc hpid⟩

/-- An instance of a task that is not configurable is placed on the candidates. -/
theorem Usable.place (h : Usable info p) (hcand : Candidates info candidateProc)
    (hplace : place info d p id task candidateProc = some (p', r)) :
    Usable info p' ∧ ∀ instance_, r = some instance_ → task.isConfigurable = false →
      ∀ th ∈ instance_.threads, th.1 ∈ candidateProc := by
  obtain ⟨⟨pidTids, a⟩, hsel, hplace⟩ := Option.bind_eq_some_iff.mp hplace
  obtain ⟨htakes, hpids, -⟩ := selectThreadsFromSubset_spec h.agree hcand.nodup hcand.lt hsel
  simp only at hplace
  split at hplace
  · obtain ⟨rfl, rfl⟩ := Prod.mk.inj (Option.some.inj hplace)
    exact ⟨⟨htakes.agree h.agree, h.sized⟩, nofun⟩
  · obtain ⟨rfl, rfl⟩ := Prod.mk.inj (Option.some.inj hplace)
    refine ⟨⟨htakes.agree h.agree, h.sized.update _ _⟩, ?_⟩
    rintro _ ⟨⟩ hbasic
    exact hpids hbasic

end Placement

namespace PriorityTaskScheduler

variable {info : WorkerInfo} {d : Draw} {s s' : PriorityTaskScheduler} {m m' : TaskManager}
  {l l' : AngryLoop} {o o' : List SchedEvent} {id : ℕ} {lock : List ℕ}

/-! ## Locking processes -/

/-- An instance gets no thread of a process that a task rejected before it has asked for. -/
def Reserves (before : List SchedEvent) (e : SchedEvent) : Prop :=
  ∀ instance_, e = .issued instance_ → ∀ id procIds, SchedEvent.rejected id procIds ∈ before →
    ∀ th ∈ instance_.threads, th.1 ∉ procIds

/-- The processes that rejected tasks have asked for are locked. -/
def Locked (lock : List ℕ) (o : List SchedEvent) : Prop :=
  ∀ id procIds, SchedEvent.rejected id procIds ∈ o → ∀ pid ∈ procIds, pid ∈ lock

/-- The task with the id is not a `ConfigurableWorkersTask`. -/
def NotConfigurable (m : TaskManager) (id : ℕ) : Prop :=
  ∀ task, m.tasks[id]? = some task → task.isConfigurable = false

/-- The tasks that a call may consider behind an angry task: the angry tasks after the first one,
and the ready tasks if there is an angry one. -/
def BehindAngry (m : TaskManager) (id : ℕ) : Prop :=
  id ∈ m.angryList.tail ∨ (m.angryList ≠ [] ∧ m.taskStatus[id]? = some TaskStatus.ready)

/-- What is placed outside the locked processes respects the reservations. -/
theorem reserves_issued (hlocked : Locked lock o) {instance_ : Instance}
    (h : lock ≠ [] → ∀ th ∈ instance_.threads, th.1 ∉ lock) : Reserves o (.issued instance_) := by
  rintro _ ⟨⟩ id procIds hrejected th hth hmem
  have hlock := hlocked id procIds hrejected th.1 hmem
  exact h (List.ne_nil_of_mem hlock) th hth hlock

theorem Locked.issued (h : Locked lock o) (instance_ : Instance) :
    Locked lock (o ++ [.issued instance_]) := by
  intro id procIds hmem
  rcases List.mem_append.mp hmem with hmem | hmem
  · exact h id procIds hmem
  · cases List.mem_singleton.mp hmem

theorem Locked.rejected (h : Locked lock o) (id : ℕ) (procIds : List ℕ) :
    Locked (lock ++ procIds) (o ++ [.rejected id procIds]) := by
  intro id' procIds' hmem pid hpid
  rcases List.mem_append.mp hmem with hmem | hmem
  · exact List.mem_append_left _ (h id' procIds' hmem pid hpid)
  · obtain ⟨rfl, rfl⟩ := SchedEvent.rejected.inj (List.mem_singleton.mp hmem)
    exact List.mem_append_right _ hpid

/-- What holds after some rounds of the loop over the angry tasks. -/
structure AngryReserves (info : WorkerInfo) (o : List SchedEvent) (l : AngryLoop) : Prop where
  usable : l.placement.Usable info
  locked : Locked l.processLock o
  reserves : Throughout Reserves o

theorem AngryReserves.step (h : AngryReserves info o l)
    (hspares : l.processLock ≠ [] → NotConfigurable m id)
    (hstep : considerAngry info d m l id = some (l', o')) : AngryReserves info (o ++ o') l' := by
  obtain ⟨task, htask, hstep⟩ := Option.bind_eq_some_iff.mp hstep
  obtain ⟨⟨p', placed⟩, hplace, hstep⟩ := Option.bind_eq_some_iff.mp hstep
  obtain ⟨husable, hpids⟩ := h.usable.place ((h.usable.getCandidateProc id _).filter _) hplace
  simp only at hstep
  cases placed with
  | some instance_ =>
      obtain ⟨rfl, rfl⟩ := Prod.mk.inj (Option.some.inj hstep)
      refine ⟨husable, h.locked.issued instance_, throughout_snoc.mpr ⟨h.reserves, ?_⟩⟩
      refine reserves_issued h.locked fun hlock th hth => ?_
      have hbasic : (instanceBasicSetup task).isConfigurable = false := by
        rw [Task.isConfigurable, instanceBasicSetup_type]
        exact hspares hlock task htask
      exact of_decide_eq_true (List.mem_filter.mp (hpids instance_ rfl hbasic th hth)).2
  | none =>
      obtain ⟨rfl, rfl⟩ := Prod.mk.inj (Option.some.inj hstep)
      exact ⟨husable, h.locked.rejected id _, throughout_snoc.mpr ⟨h.reserves, nofun⟩⟩

/-- What holds after some rounds of the loop over the ready tasks. -/
structure ReadyReserves (info : WorkerInfo) (tasks : List Task) (lock : List ℕ)
    (o : List SchedEvent) (s : PriorityTaskScheduler) : Prop where
  usable : s.placement.Usable info
  tasks_eq : s.taskManager.tasks = tasks
  locked : Locked lock o
  reserves : Throughout Reserves o

theorem sucSched_tasks (h : m.sucSched id = some m') : m'.tasks = m.tasks := by
  unfold TaskManager.sucSched at h
  split at h
  · obtain rfl := Option.some.inj h
    rfl
  · cases h

theorem failSched_tasks (h : m.failSched id = some m') : m'.tasks = m.tasks := by
  unfold TaskManager.failSched at h
  split at h
  · simp only at h
    split at h
    · split at h
      · obtain rfl := Option.some.inj h
        rfl
      · obtain rfl := Option.some.inj h
        rfl
    · obtain rfl := Option.some.inj h
      rfl
  · cases h

theorem ReadyReserves.step {tasks : List Task} (h : ReadyReserves info tasks lock o s)
    (hspares : lock ≠ [] → ∀ task, tasks[id]? = some task → task.isConfigurable = false)
    (hstep : considerReady info d lock s id = some (s', o')) :
    ReadyReserves info tasks lock (o ++ o') s' := by
  obtain ⟨task, htask, hstep⟩ := Option.bind_eq_some_iff.mp hstep
  obtain ⟨⟨p', placed⟩, hplace, hstep⟩ := Option.bind_eq_some_iff.mp hstep
  obtain ⟨husable, hpids⟩ := h.usable.place ((h.usable.getPreferredProc id).filter _) hplace
  simp only at hstep
  cases placed with
  | some instance_ =>
      obtain ⟨m', hm, hstep⟩ := Option.bind_eq_some_iff.mp hstep
      obtain ⟨rfl, rfl⟩ := Prod.mk.inj (Option.some.inj hstep)
      refine ⟨husable, (sucSched_tasks hm).trans h.tasks_eq, h.locked.issued instance_,
        throughout_snoc.mpr ⟨h.reserves, reserves_issued h.locked fun hlock th hth => ?_⟩⟩
      have hbasic : (instanceBasicSetup task).isConfigurable = false := by
        rw [Task.isConfigurable, instanceBasicSetup_type]
        exact hspares hlock task (h.tasks_eq ▸ htask)
      exact of_decide_eq_true (List.mem_filter.mp (hpids instance_ rfl hbasic th hth)).2
  | none =>
      obtain ⟨m', hm, hstep⟩ := Option.bind_eq_some_iff.mp hstep
      obtain ⟨rfl, rfl⟩ := Prod.mk.inj (Option.some.inj hstep)
      rw [List.append_nil]
      exact ⟨husable, (failSched_tasks hm).trans h.tasks_eq, h.locked, h.reserves⟩

/-! ## A whole call -/

theorem sucScheds_keep {ids : List ℕ} (h : ids.foldlM TaskManager.sucSched m = some m') :
    m'.tasks = m.tasks ∧ ∀ id : ℕ, m'.taskStatus[id]? = some TaskStatus.ready →
      m.taskStatus[id]? = some TaskStatus.ready := by
  induction ids generalizing m with
  | nil =>
      obtain rfl := Option.some.inj h
      exact ⟨rfl, fun _ => id⟩
  | cons id ids ih =>
      rw [List.foldlM_cons] at h
      obtain ⟨m₁, hfirst, h⟩ := Option.bind_eq_some_iff.mp h
      obtain ⟨htasks, hready⟩ := ih h
      refine ⟨htasks.trans (sucSched_tasks hfirst), fun id' hid' => ?_⟩
      have hid' := hready id' hid'
      unfold TaskManager.sucSched at hfirst
      split at hfirst
      · obtain rfl := Option.some.inj hfirst
        simp only [List.getElem?_set] at hid'
        split at hid'
        · split at hid'
          · cases hid'
          · cases hid'
        · exact hid'
      · cases hfirst

theorem orderByPriority_keep {ids : List ℕ} (h : m.orderByPriority d = some (m', ids)) :
    m'.tasks = m.tasks ∧ ∀ id ∈ ids, m.taskStatus[id]? = some TaskStatus.ready := by
  unfold TaskManager.orderByPriority at h
  simp only at h
  split at h
  · obtain ⟨rfl, rfl⟩ := Prod.mk.inj (Option.some.inj h)
    refine ⟨rfl, fun id hid => ?_⟩
    obtain ⟨p, hp, rfl⟩ := List.mem_map.mp hid
    exact of_decide_eq_true (List.mem_filter.mp hp).2
  · cases h

/-- The first angry task finds no process locked, and the others are not configurable. -/
theorem along_angry (hbehind : ∀ id ∈ m.angryList.tail, NotConfigurable m id) (p : Placement) :
    Along (considerAngry info d m) (fun _ l id => l.processLock ≠ [] → NotConfigurable m id) []
      ⟨p, [], []⟩ m.angryList := by
  generalize m.angryList = ids at hbehind
  cases ids with
  | nil => trivial
  | cons id ids =>
      refine ⟨fun hlock => absurd rfl hlock, fun l o _ => ?_⟩
      exact (along_of_forall hbehind _ l).imp_of_inv (I := fun _ => True) (fun _ _ => trivial)
        (fun _ hid _ => hid) trivial

/-- A call with no `ConfigurableWorkersTask` behind an angry task reserves the processes. -/
theorem extract_reserves (h : s.placement.Usable info)
    (hbehind : ∀ id, BehindAngry s.taskManager id → NotConfigurable s.taskManager id)
    (hstep : extractInstances info d s = some (s', o)) : Throughout Reserves o := by
  obtain ⟨l, angry, m, m', ordered, ready, hangry, hm, hordered, hready, rfl⟩ := extract_cases hstep
  have hfirst : AngryReserves info ([] ++ angry) l := by
    refine run_along (I := AngryReserves info) ?_ ⟨h, fun _ _ hmem => (nomatch hmem),
      throughout_nil _⟩ (along_angry (fun id hid => hbehind id (.inl hid)) s.placement) hangry
    exact fun hl hspares hstep => hl.step hspares hstep
  obtain ⟨htasks, hready₁⟩ := sucScheds_keep hm
  obtain ⟨htasks', hready₂⟩ := orderByPriority_keep hordered
  have hlocked : l.processLock ≠ [] → s.taskManager.angryList ≠ [] := by
    rintro hlock hnil
    rw [hnil] at hangry
    obtain ⟨rfl, -⟩ := Prod.mk.inj (Option.some.inj hangry)
    exact hlock rfl
  have hok : ∀ id ∈ ordered, l.processLock ≠ [] → NotConfigurable s.taskManager id :=
    fun id hid hlock => hbehind id (.inr ⟨hlocked hlock, hready₁ id (hready₂ id hid)⟩)
  refine (run_along (I := ReadyReserves info s.taskManager.tasks l.processLock) ?_
    ⟨hfirst.usable, htasks'.trans htasks, hfirst.locked, hfirst.reserves⟩
    (along_of_forall hok _ _) hready).reserves
  exact fun hs hspares hstep => hs.step hspares hstep

theorem considerAngry_usable (h : l.placement.Usable info)
    (hstep : considerAngry info d m l id = some (l', o)) : l'.placement.Usable info := by
  obtain ⟨task, htask, hstep⟩ := Option.bind_eq_some_iff.mp hstep
  obtain ⟨⟨p', placed⟩, hplace, hstep⟩ := Option.bind_eq_some_iff.mp hstep
  obtain ⟨husable, -⟩ := h.place ((h.getCandidateProc id _).filter _) hplace
  simp only at hstep
  cases placed with
  | some instance_ =>
      obtain ⟨rfl, -⟩ := Prod.mk.inj (Option.some.inj hstep)
      exact husable
  | none =>
      obtain ⟨rfl, -⟩ := Prod.mk.inj (Option.some.inj hstep)
      exact husable

theorem considerReady_usable (h : s.placement.Usable info)
    (hstep : considerReady info d lock s id = some (s', o)) : s'.placement.Usable info := by
  obtain ⟨task, htask, hstep⟩ := Option.bind_eq_some_iff.mp hstep
  obtain ⟨⟨p', placed⟩, hplace, hstep⟩ := Option.bind_eq_some_iff.mp hstep
  obtain ⟨husable, -⟩ := h.place ((h.getPreferredProc id).filter _) hplace
  simp only at hstep
  cases placed with
  | some instance_ =>
      obtain ⟨m', -, hstep⟩ := Option.bind_eq_some_iff.mp hstep
      obtain ⟨rfl, -⟩ := Prod.mk.inj (Option.some.inj hstep)
      exact husable
  | none =>
      obtain ⟨m', -, hstep⟩ := Option.bind_eq_some_iff.mp hstep
      obtain ⟨rfl, -⟩ := Prod.mk.inj (Option.some.inj hstep)
      exact husable

theorem extract_usable (h : s.placement.Usable info)
    (hstep : extractInstances info d s = some (s', o)) : s'.placement.Usable info := by
  obtain ⟨l, angry, m, m', ordered, ready, hangry, -, -, hready, -⟩ := extract_cases hstep
  have hl := run_keeps (I := fun l : AngryLoop => l.placement.Usable info) (P := fun _ => True)
    (fun _ hl hstep => considerAngry_usable hl hstep) (fun _ _ => trivial) h hangry
  exact run_keeps (I := fun s : PriorityTaskScheduler => s.placement.Usable info)
    (P := fun _ => True) (fun _ hs hstep => considerReady_usable hs hstep) (fun _ _ => trivial)
    hl hready

end PriorityTaskScheduler

open PriorityTaskScheduler in
/-- **Angry tasks reserve their processes** in every call from every state that calls lead to, if no
`ConfigurableWorkersTask` is behind an angry task. -/
theorem angry_tasks_reserve (info : WorkerInfo) (out : List SchedEvent) (s s' : PriorityTaskScheduler)
    (d : Draw) (o : List SchedEvent) (h : Reaches (scheduler info) AnyTasks (.start info) out s)
    (hbehind : ∀ id, BehindAngry s.taskManager id → NotConfigurable s.taskManager id)
    (hstep : extractInstances info d s = some (s', o)) :
    Throughout Reserves o := by
  have husable := h.invariant (I := fun _ s => s.placement.Usable info)
    (Placement.usable_ofCluster info)
    (fun hs _ hstep => by
      obtain rfl := Option.some.inj hstep
      exact hs)
    (fun hs hstep => extract_usable hs hstep)
    (fun hs _ hstep => by
      obtain ⟨m, -, rfl⟩ := Option.map_eq_some_iff.mp hstep
      exact hs.finishThread _ _)
  exact extract_reserves husable hbehind hstep

/-- A local task of two epochs with one worker. -/
def twiceLocalTask (id : ℕ) : Task := ⟨id, 2, 0, 1, .basic, true⟩

/-- The local task has been on process 0 and waits for process 1, where another task runs, until it
is angry; then a third task is submitted. -/
def untilAngryLocal : List SchedInput :=
  [.initTasks [twiceLocalTask 0, smallTask 1], .extractInstances .plain, .finishThread 0 0 0] ++
    List.replicate 5 (.extractInstances .plain) ++ [.initTasks [smallTask 2]]

open PriorityTaskScheduler in
/-- The local task is rejected again, and the third task gets the thread of the other process. -/
theorem angry_tasks_reserve_twiceLocal :
    Throughout Reserves [.rejected 0 [1], .issued ⟨smallTask 2, [(0, 0)]⟩] := by
  have hrun : run (schedStep (scheduler (.oneEach 2))) (.start (.oneEach 2)) untilAngryLocal =
      some (_, [.submitted [twiceLocalTask 0, smallTask 1], .issued ⟨twiceLocalTask 0, [(0, 0)]⟩,
        .issued ⟨smallTask 1, [(1, 1)]⟩, .finished 0 0, .submitted [smallTask 2]]) := rfl
  refine angry_tasks_reserve (.oneEach 2) _ _ _ .plain _ ⟨_, ?_, hrun⟩ ?_ rfl
  · iterate 2 apply along_cons rfl ⟨trivial, fun _ _ => trivial⟩
    apply along_cons rfl ⟨by decide, fun _ _ => trivial⟩
    iterate 6 apply along_cons rfl ⟨trivial, fun _ _ => trivial⟩
    trivial
  · intro id _ task htask
    -- no task is configurable
    have hbasic : ∀ task ∈ [(twiceLocalTask 0).incEpoch, smallTask 1, smallTask 2],
        task.isConfigurable = false := by decide
    exact hbasic task (List.mem_of_getElem? htask)

/-! ## What goes wrong -/

/-- A task with two epochs, of one thread of the cluster each, whose threads are chosen by type. -/
def clusterTask (id : ℕ) : Task :=
  ⟨id, 2, 0, 0, .configurableWorkers [1, 1] ["threads_per_cluster", "threads_per_cluster"], false⟩

/-- A task that needs both threads of a process. -/
def wideTask (id : ℕ) : Task := ⟨id, 1, 0, 2, .basic, false⟩

/-- The wide task is rejected until it is angry, while both threads are taken; then one of them
finishes. -/
def untilAngry : List SchedInput :=
  [.initTasks [clusterTask 0, smallTask 1, wideTask 2], .extractInstances .plain,
    .extractInstances .plain, .extractInstances .plain, .extractInstances .plain,
    .extractInstances .plain, .finishThread 0 1 0]

open PriorityTaskScheduler in
/-- **A `ConfigurableWorkersTask` takes a reserved thread**: the angry task has locked the only
process, and the second epoch of the other task is placed there. -/
theorem configurable_task_takes_reserved :
    ¬ ∀ info out s s' d o, Reaches (scheduler info) AnyTasks (.start info) out s →
      extractInstances info d s = some (s', o) → Throughout Reserves o := by
  intro h
  have hrun : run (schedStep (scheduler (.oneProcess 2))) (.start (.oneProcess 2)) untilAngry =
      some (_, [.submitted [clusterTask 0, smallTask 1, wideTask 2],
        .issued ⟨clusterTask 0, [(0, 1)]⟩, .issued ⟨smallTask 1, [(0, 0)]⟩, .finished 0 1]) := rfl
  have hbroken : ¬ Throughout Reserves
      [.rejected 2 [0], .issued ⟨(clusterTask 0).incEpoch, [(0, 1)]⟩] := by
    intro hreserves
    have hlast := (@throughout_snoc _ Reserves [.rejected 2 [0]] _).mp hreserves
    exact hlast.2 _ rfl 2 [0] (List.mem_singleton.mpr rfl) (0, 1) (List.mem_singleton.mpr rfl)
      (List.mem_singleton.mpr rfl)
  refine hbroken (h (.oneProcess 2) _ _ _ .plain _ ⟨_, ?_, hrun⟩ rfl)
  iterate 6 apply along_cons rfl ⟨trivial, fun _ _ => trivial⟩
  apply along_cons rfl ⟨by decide, fun _ _ => trivial⟩
  trivial

end FlexPS.Scheduler
